import Mathlib.Data.List.Perm.Basic
import TensorGraph.Proofs.Engine.Orderly
/-!
# The course of a computation

The beginnings and ends of units are nested like brackets, as a unit that loads from other buffers
runs the units of their schedules before it ends. What happens inside a unit is again a course of the
same kind. When a unit fails, nothing may follow but the failure of the unit around it, unless that
is a custom load whose loader goes on after the error.

- `Event.around`: the units at work after some events.
- `Item.Ran`: one unit, from its beginning to its end.
- `Course`: what the engine does while a unit, or none, is at work.
- `Told`: what the events of a course tell, and `Course.told`.
- `Falls`: how a failure runs through the units around it, and `Course.falls`.
-/

namespace TensorGraph

open TensorGraph.Graph TensorGraph.Engine

variable {α : Type}

/-! ## Brackets -/

/-- A unit at work. -/
structure Frame (α : Type) where
  /-- What was known about it when it began. -/
  context : UnitRecord
  /-- The tree it was scheduled with. -/
  tree : Tree α

namespace Event

variable {frames frames' : List (Frame α)} {events events' : List (Event α)} {context : UnitRecord}
  {tree : Tree α} {failure : Option Error}

/-- The units at work after an event, the innermost first. Only the innermost may end. -/
def enter : List (Frame α) → Event α → Option (List (Frame α))
  | frames, .before context tree => some (⟨context, tree⟩ :: frames)
  | [], .after _ _ => none
  | frame :: frames, .after context _ => if context = frame.context then some frames else none
  | frames, .request _ _ _ => some frames

/-- The units at work after the events, if those of `frames` are before. -/
def around (frames : List (Frame α)) (events : List (Event α)) : Option (List (Frame α)) :=
  events.foldlM enter frames

/-- The unit that begins with the event. -/
def began? : Event α → Option UnitRecord
  | .before context _ => some context
  | _ => none

/-- The unit that ends with the event. -/
def ended? : Event α → Option UnitRecord
  | .after context _ => some context
  | _ => none

/-- The units that begin. -/
def begun (events : List (Event α)) : List UnitRecord := events.filterMap began?

/-- The units that end. -/
def ended (events : List (Event α)) : List UnitRecord := events.filterMap ended?

@[simp] theorem around_nil : around frames ([] : List (Event α)) = some frames := rfl

@[simp] theorem around_before :
    around frames (.before context tree :: events) = around (⟨context, tree⟩ :: frames) events := rfl

@[simp] theorem around_after :
    around (⟨context, tree⟩ :: frames) (.after context failure :: events) = around frames events := by
  rw [around, List.foldlM_cons, enter, if_pos rfl]
  rfl

@[simp] theorem around_append : around frames (events ++ events')
    = (around frames events).bind fun frames => around frames events' :=
  List.foldlM_append

@[simp] theorem begun_append : begun (events ++ events') = begun events ++ begun events' :=
  List.filterMap_append

/-- With a unit, it and those inside it begin. -/
theorem begun_unit : begun (.before context tree :: events ++ [.after context failure])
    = context :: begun events := by
  rw [begun_append]
  exact List.append_nil _

/-- With a unit, what is told inside it stands between its beginning and its end. -/
theorem entry_unit {earlier later inner : List (Event α)} {event first last : Event α}
    (h : first :: inner ++ [last] = earlier ++ event :: later) :
    earlier = [] ∧ event = first
      ∨ (∃ before after, earlier = first :: before ∧ inner = before ++ event :: after
          ∧ later = after ++ [last])
      ∨ earlier = first :: inner ∧ event = last ∧ later = [] := by
  cases earlier with
  | nil => exact .inl ⟨rfl, (List.cons.inj h).1.symm⟩
  | cons event' earlier =>
    obtain ⟨rfl, hrest⟩ := List.cons.inj h
    change inner ++ [last] = earlier ++ event :: later at hrest
    rcases Engine.entry_append hrest with ⟨after, rfl⟩ | ⟨before, rfl, hlast⟩
    · refine .inr (.inl ⟨earlier, after, rfl, rfl, ?_⟩)
      simpa using hrest.symm
    · cases before with
      | nil =>
        obtain ⟨rfl, hlater⟩ := List.cons.inj hlast
        exact .inr (.inr ⟨by rw [List.append_nil], rfl, hlater.symm⟩)
      | cons event' before => simp at hlast

/-- Each unit that was at work or has begun has ended or is at work. -/
theorem perm_of_around (h : around frames events = some frames') :
    (begun events ++ frames.map Frame.context).Perm (ended events ++ frames'.map Frame.context) := by
  induction events generalizing frames with
  | nil =>
    obtain rfl := Option.some.inj h
    exact .refl _
  | cons event events ih =>
    obtain ⟨middle, hfirst, hrest⟩ : ∃ middle, enter frames event = some middle
        ∧ around middle events = some frames' := Option.bind_eq_some_iff.mp h
    cases event with
    | before context tree =>
      obtain rfl := Option.some.inj hfirst
      exact List.perm_middle.symm.trans (ih hrest)
    | after context failure =>
      cases frames with
      | nil => cases hfirst
      | cons frame frames =>
        obtain ⟨rfl, hmiddle⟩ := Option.ite_none_right_eq_some.mp hfirst
        obtain rfl := Option.some.inj hmiddle
        exact List.perm_middle.trans ((ih hrest).cons _)
    | request device counted request =>
      obtain rfl := Option.some.inj hfirst
      exact ih hrest

end Event

/-! ## Units -/

namespace Engine

variable {e e' : Engine α} {context : UnitRecord} {tree : Tree α} {failure : Option Error}

/-- The engine has gone on, and the trace with the given events; no unit has begun but those that
have ended. -/
structure Continues (e : Engine α) (events : List (Event α)) (e' : Engine α) : Prop where
  /-- The trace. -/
  trace : e'.trace = e.trace ++ events
  /-- The number of units that have begun. -/
  units : e'.units = e.units
  /-- The graph has grown. -/
  graph : e.graph.Grows e'.graph

/-- The engine after a unit has begun. -/
def begun (e : Engine α) (context : UnitRecord) (tree : Tree α) : Engine α :=
  { e with units := e.units + 1 }.record (.before context tree)

theorem trace_record (e : Engine α) (event : Event α) :
    (e.record event).trace = e.trace ++ [event].filter Event.isTrace :=
  List.filter_append ..

@[simp] theorem trace_begun : (e.begun context tree).trace = e.trace ++ [.before context tree] :=
  trace_record ..

/-- What is done does not get lost: the second state may come after the first. -/
structure Precedes (e e' : Engine α) : Prop where
  /-- The graph has grown. -/
  graph : e.graph.Grows e'.graph
  /-- The trace was added to. -/
  trace : e.trace <+: e'.trace
  /-- Units have begun. -/
  units : e.units ≤ e'.units

theorem Precedes.refl (e : Engine α) : e.Precedes e := ⟨.refl _, List.prefix_rfl, le_refl _⟩

theorem Precedes.trans {e'' : Engine α} (h : e.Precedes e') (h' : e'.Precedes e'') : e.Precedes e'' :=
  ⟨h.graph.trans h'.graph, h.trace.trans h'.trace, h.units.trans h'.units⟩

theorem Continues.precedes {events : List (Event α)} (h : e.Continues events e') : e.Precedes e' :=
  ⟨h.graph, h.trace ▸ List.prefix_append _ _, h.units.ge⟩

theorem precedes_begun : e.Precedes (e.begun context tree) :=
  ⟨.refl _, trace_begun ▸ List.prefix_append _ _, Nat.le_succ _⟩

end Engine

variable [Lane α] {devices : Registry α}

/-- Between two states of the engine the unit has run, and it has failed unless `failure` is none. It
has begun while its base had no result, and its base has a result when it has ended exactly if it has
not failed. -/
structure Item.Ran (devices : Registry α) (item : Item α) (context : UnitRecord)
    (failure : Option Error) (e e' : Engine α) : Prop where
  /-- The unit was run. -/
  run : ∃ depth held, (Run.runUnit devices (Run.realizeUpTo devices depth) held item).run e
    = (failure.elim (.ok ()) fun cause => .error (.error cause), e')
  /-- The trace has the beginning and the end, and the units inside between them. -/
  trace : ∃ inner, e'.trace = e.trace ++ .before context item.tree :: inner ++ [.after context failure]
  /-- The number is the next one. -/
  number : context.number = e.units + 1
  /-- The number of the base. -/
  output : context.output = item.output.id
  /-- The output is the handle on the base. -/
  base : item.output = item.output.base.buffer
  /-- The load, if the unit is one. -/
  load : context.load = item.load?
  /-- The base had no result. -/
  waits : e.graph.isRealized item.output = false
  /-- The base has a result now unless the unit has failed. -/
  settled : e'.graph.isRealized item.output = failure.isNone

/-- The unit has run, from `e₁` to `e₂`, while the engine went on from `e₀` to `e`. -/
structure Item.RanWithin (devices : Registry α) (e₀ e : Engine α) (item : Item α)
    (context : UnitRecord) (failure : Option Error) (e₁ e₂ : Engine α) : Prop where
  /-- The graph has grown before. -/
  before : e₀.graph.Grows e₁.graph
  /-- The unit has run. -/
  ran : item.Ran devices context failure e₁ e₂
  /-- The graph has grown since. -/
  after : e₂.graph.Grows e.graph

theorem Item.RanWithin.widen {item : Item α} {context : UnitRecord} {failure : Option Error}
    {e₀ e e₁ e₂ e₀' e' : Engine α} (h : item.RanWithin devices e₀ e context failure e₁ e₂)
    (hbefore : e₀'.graph.Grows e₀.graph) (hafter : e.graph.Grows e'.graph) :
    item.RanWithin devices e₀' e' context failure e₁ e₂ :=
  ⟨hbefore.trans h.before, h.ran, h.after.trans hafter⟩

namespace Frame

/-- The buffers that the unit loads from. -/
def sources (frame : Frame α) : List Buffer := frame.tree.sources.filterMap Tree.buffer?

/-- The unit is a copy or a custom load. -/
def Nests (frame : Frame α) : Prop :=
  frame.context.load = some .copy ∨ frame.context.load = some .custom

/-- The loader was called for the unit after it had begun, and has come to a part of its script. -/
inductive Reads (realize : Realizer α) (held : List Buffer) (frame : Frame α) (loader : Loader α)
    (output : Buffer) : Script α frame.sources.length → Engine α → Prop
  /-- It is called. -/
  | call {e : Engine α} (hbegun : .before frame.context frame.tree ∈ e.journal) :
    Reads realize held frame loader output
      (loader.script (e.graph.calls output.base.id) output frame.sources)
      ({ e with graph := e.graph.countCall output.base.id }.record
        (.request output.device false (.call output frame.sources)))
  /-- It has read a source back, with what came of it. -/
  | read {source : Fin frame.sources.length}
    {next : Except Error (HostArray α) → Script α frame.sources.length}
    {result : Except Error (HostArray α)} {e e' : Engine α}
    (h : Reads realize held frame loader output (.read source next) e)
    (hread : (Run.attempt (Run.readBack realize held frame.sources[source])).run e
      = (.ok result, e')) :
    Reads realize held frame loader output (next result) e'

/-- The loader of the unit has just got an error, and goes on. -/
structure Swallows (devices : Registry α) (frame : Frame α) (e : Engine α) : Prop where
  /-- The unit is a custom load. -/
  load : frame.context.load = some .custom
  /-- What the loader does after the error is not to refuse. -/
  goesOn : ∃ depth held loader output source next cause e₁, frame.tree.arg = .loader loader
    ∧ output.id = frame.context.output
    ∧ frame.Reads (Run.realizeUpTo devices depth) held loader output (.read source next) e₁
    ∧ (Run.readBack (Run.realizeUpTo devices depth) held frame.sources[source]).run e₁
      = (.error (.error cause), e)
    ∧ ¬(next (.error cause)).Refuses

end Frame

/-! ## Courses -/

/-- What the engine does while the unit `around`, or none, is at work: from the first state to the
second it runs units, with the given events, and is failing or not. -/
inductive Course (devices : Registry α) :
    Option (Frame α) → Engine α → Engine α → List (Event α) → Bool → Prop
  /-- Nothing has been done. -/
  | refl {around : Option (Frame α)} {e : Engine α} : Course devices around e e [] false
  /-- Something is done that the trace does not tell of. -/
  | quiet {around : Option (Frame α)} {e₀ e e' : Engine α} {events : List (Event α)}
    (h : Course devices around e₀ e events false) (hquiet : e.Continues [] e') :
    Course devices around e₀ e' events false
  /-- There is a failure. -/
  | refuse {around : Option (Frame α)} {e₀ e : Engine α} {events : List (Event α)}
    (h : Course devices around e₀ e events false) : Course devices around e₀ e events true
  /-- A loader goes on after a failure. -/
  | swallow {frame : Frame α} {e₀ e : Engine α} {events : List (Event α)}
    (h : Course devices (some frame) e₀ e events true) (hswallows : frame.Swallows devices e) :
    Course devices (some frame) e₀ e events false
  /-- A unit is run. It begins, something happens inside it, and it ends; it fails if that has. -/
  | unit {around : Option (Frame α)} {e₀ e e₁ e' : Engine α} {events inner : List (Event α)}
    {item : Item α} {context : UnitRecord} {failure : Option Error}
    (h : Course devices around e₀ e events false) (hnests : ∀ frame ∈ around, frame.Nests)
    (hran : item.Ran devices context failure e e')
    (hinner : Course devices (some ⟨context, item.tree⟩) (e.begun context item.tree) e₁ inner
      failure.isSome)
    (hends : e₁.Continues [.after context failure] e') :
    Course devices around e₀ e'
      (events ++ .before context item.tree :: inner ++ [.after context failure]) failure.isSome

variable {around : Option (Frame α)} {e₀ e e₁ e' : Engine α} {events events' inner : List (Event α)}
  {item : Item α} {context : UnitRecord} {failure : Option Error} {failing : Bool}

theorem Course.trans (h : Course devices around e₀ e events false)
    (h' : Course devices around e e' events' failing) :
    Course devices around e₀ e' (events ++ events') failing := by
  induction h' with
  | refl => simpa using h
  | quiet _ hquiet ih => exact (ih h).quiet hquiet
  | refuse _ ih => exact (ih h).refuse
  | swallow _ hswallows ih => exact (ih h).swallow hswallows
  | unit _ hnests hran hinner hends ih =>
    rw [← List.append_assoc, ← List.append_assoc]
    exact (ih h).unit hnests hran hinner hends

/-- Units run inside copies and custom loads only. -/
theorem Course.nests {frame : Frame α} (h : Course devices (some frame) e₀ e events failing)
    (hbegun : Event.begun events ≠ []) : frame.Nests := by
  generalize haround : some frame = around at h
  induction h with
  | refl => exact absurd rfl hbegun
  | quiet _ _ ih => exact ih hbegun haround
  | refuse _ ih => exact ih hbegun haround
  | swallow _ _ ih => exact ih hbegun haround
  | unit _ hnests => exact hnests frame haround.symm

/-! ## What is told -/

/-- What the events tell by which the engine goes on. -/
structure Told (devices : Registry α) (e₀ e : Engine α) (events : List (Event α)) : Prop where
  /-- They were added to the trace. -/
  trace : e.trace = e₀.trace ++ events
  /-- The graph has grown. -/
  graph : e₀.graph.Grows e.graph
  /-- Every unit that has begun has ended, the innermost first. -/
  closed : ∀ frames, Event.around frames events = some frames
  /-- Units are counted. -/
  units : e₀.units ≤ e.units
  /-- The units that have begun have the next numbers. -/
  counted : ∀ context ∈ Event.begun events, e₀.units < context.number ∧ context.number ≤ e.units
  /-- Their numbers go up. -/
  numbers : (Event.begun events).Pairwise fun context context' => context.number < context'.number
  /-- Each beginning is that of a unit that was run. -/
  begins : ∀ earlier context tree later, events = earlier ++ .before context tree :: later →
    ∃ (item : Item α) (failure : Option Error) (e₁ e₂ : Engine α), item.tree = tree
      ∧ item.RanWithin devices e₀ e context failure e₁ e₂ ∧ e₁.trace = e₀.trace ++ earlier
  /-- Each end is that of a unit that was run. -/
  ends : ∀ earlier context failure later, events = earlier ++ .after context failure :: later →
    ∃ (item : Item α) (e₁ e₂ : Engine α), item.RanWithin devices e₀ e context failure e₁ e₂
      ∧ e₂.trace = e₀.trace ++ earlier ++ [.after context failure]
  /-- Units run inside copies and custom loads only. -/
  inside : ∀ earlier context tree later, events = earlier ++ .before context tree :: later →
    ∃ inner, (∀ frames, Event.around frames earlier = some (inner ++ frames))
      ∧ ∀ frame ∈ inner, frame.Nests

theorem Told.quiet (h : e₀.Continues [] e) : Told devices e₀ e [] where
  trace := h.trace
  graph := h.graph
  closed _ := rfl
  units := h.units.ge
  counted := nofun
  numbers := .nil
  begins _ _ _ _ heq := by simp at heq
  ends _ _ _ _ heq := by simp at heq
  inside _ _ _ _ heq := by simp at heq

theorem Told.append (h : Told devices e₀ e events) (h' : Told devices e e' events') :
    Told devices e₀ e' (events ++ events') where
  trace := by rw [h'.trace, h.trace, List.append_assoc]
  graph := h.graph.trans h'.graph
  closed frames := by rw [Event.around_append, h.closed, Option.bind_some, h'.closed]
  units := h.units.trans h'.units
  counted context hcontext := by
    rw [Event.begun_append] at hcontext
    rcases List.mem_append.mp hcontext with hcontext | hcontext
    · exact ⟨(h.counted context hcontext).1, (h.counted context hcontext).2.trans h'.units⟩
    · exact ⟨h.units.trans_lt (h'.counted context hcontext).1, (h'.counted context hcontext).2⟩
  numbers := by
    rw [Event.begun_append]
    refine List.pairwise_append.mpr ⟨h.numbers, h'.numbers, fun context hmem context' hmem' => ?_⟩
    exact (h.counted context hmem).2.trans_lt (h'.counted context' hmem').1
  begins earlier context tree later heq := by
    rcases Engine.entry_append heq with ⟨rest, hold⟩ | ⟨before, rfl, hnew⟩
    · obtain ⟨item, failure, e₁, e₂, htree, hran, htrace⟩ := h.begins _ _ _ _ hold
      exact ⟨item, failure, e₁, e₂, htree, hran.widen (.refl _) h'.graph, htrace⟩
    · obtain ⟨item, failure, e₁, e₂, htree, hran, htrace⟩ := h'.begins _ _ _ _ hnew
      refine ⟨item, failure, e₁, e₂, htree, hran.widen h.graph (.refl _), ?_⟩
      rw [htrace, h.trace, List.append_assoc]
  ends earlier context failure later heq := by
    rcases Engine.entry_append heq with ⟨rest, hold⟩ | ⟨before, rfl, hnew⟩
    · obtain ⟨item, e₁, e₂, hran, htrace⟩ := h.ends _ _ _ _ hold
      exact ⟨item, e₁, e₂, hran.widen (.refl _) h'.graph, htrace⟩
    · obtain ⟨item, e₁, e₂, hran, htrace⟩ := h'.ends _ _ _ _ hnew
      refine ⟨item, e₁, e₂, hran.widen h.graph (.refl _), ?_⟩
      rw [htrace, h.trace]
      simp only [List.append_assoc]
  inside earlier context tree later heq := by
    rcases Engine.entry_append heq with ⟨rest, hold⟩ | ⟨before, rfl, hnew⟩
    · exact h.inside _ _ _ _ hold
    · obtain ⟨inner, haround, hnests⟩ := h'.inside _ _ _ _ hnew
      refine ⟨inner, fun frames => ?_, hnests⟩
      rw [Event.around_append, h.closed, Option.bind_some, haround]

/-- What a unit tells: its beginning, what is told inside it, and its end. -/
theorem Told.unit (hran : item.Ran devices context failure e e')
    (hinner : Told devices (e.begun context item.tree) e₁ inner)
    (hnests : Event.begun inner ≠ [] → (⟨context, item.tree⟩ : Frame α).Nests)
    (hends : e₁.Continues [.after context failure] e') :
    Told devices e e' (.before context item.tree :: inner ++ [.after context failure]) where
  trace := by
    rw [hends.trace, hinner.trace, Engine.trace_begun]
    simp
  graph := hinner.graph.trans hends.graph
  closed frames := by simp [hinner.closed]
  units := by
    rw [hends.units]
    exact (Nat.le_succ _).trans hinner.units
  counted context' hmem := by
    rw [hends.units]
    rw [Event.begun_unit, List.mem_cons] at hmem
    have hunits : e.units + 1 ≤ e₁.units := hinner.units
    rcases hmem with rfl | hmem
    · rw [hran.number]
      exact ⟨Nat.lt_succ_self _, hunits⟩
    · exact ⟨(Nat.lt_succ_self _).trans (hinner.counted context' hmem).1,
        (hinner.counted context' hmem).2⟩
  numbers := by
    rw [Event.begun_unit, List.pairwise_cons]
    refine ⟨fun context' hmem => ?_, hinner.numbers⟩
    rw [hran.number]
    exact (hinner.counted context' hmem).1
  begins earlier context' tree later heq := by
    -- an entry of the unit is its beginning, one inside it, or its end
    rcases Event.entry_unit heq with ⟨rfl, hfirst⟩ | ⟨before, after, rfl, hinside, -⟩ | ⟨-, hlast, -⟩
    · obtain ⟨rfl, rfl⟩ := Event.before.inj hfirst
      exact ⟨item, failure, e, e', rfl, ⟨.refl _, hran, .refl _⟩, (List.append_nil _).symm⟩
    · obtain ⟨item', failure', e₂, e₃, htree, hran', htrace⟩ := hinner.begins _ _ _ _ hinside
      refine ⟨item', failure', e₂, e₃, htree, hran'.widen (.refl _) hends.graph, ?_⟩
      rw [htrace, Engine.trace_begun]
      simp
    · cases hlast
  ends earlier context' failure' later heq := by
    rcases Event.entry_unit heq with ⟨-, hfirst⟩ | ⟨before, after, rfl, hinside, -⟩ | ⟨rfl, hlast, -⟩
    · cases hfirst
    · obtain ⟨item', e₂, e₃, hran', htrace⟩ := hinner.ends _ _ _ _ hinside
      refine ⟨item', e₂, e₃, hran'.widen (.refl _) hends.graph, ?_⟩
      rw [htrace, Engine.trace_begun]
      simp
    · obtain ⟨rfl, rfl⟩ := Event.after.inj hlast
      refine ⟨item, e, e', ⟨.refl _, hran, .refl _⟩, ?_⟩
      rw [hends.trace, hinner.trace, Engine.trace_begun]
      simp
  inside earlier context' tree later heq := by
    rcases Event.entry_unit heq with ⟨rfl, -⟩ | ⟨before, after, rfl, hinside, -⟩ | ⟨-, hlast, -⟩
    · exact ⟨[], fun _ => rfl, nofun⟩
    · -- what is told inside stands inside the unit too
      obtain ⟨frames, haround, hframes⟩ := hinner.inside _ _ _ _ hinside
      refine ⟨frames ++ [⟨context, item.tree⟩], fun outer => ?_,
        List.forall_mem_append.mpr ⟨hframes, ?_⟩⟩
      · rw [Event.around_before, haround, List.append_assoc]
        rfl
      · have hbegun : Event.begun inner ≠ [] := by
          rw [hinside, Event.begun_append]
          exact List.append_ne_nil_of_right_ne_nil _ (List.cons_ne_nil _ _)
        exact List.forall_mem_singleton.mpr (hnests hbegun)
    · cases hlast

theorem Told.precedes (h : Told devices e₀ e events) : e₀.Precedes e :=
  ⟨h.graph, h.trace ▸ List.prefix_append _ _, h.units⟩

/-- The events of a course tell of all that was done. -/
theorem Course.told (h : Course devices around e₀ e events failing) : Told devices e₀ e events := by
  induction h with
  | refl => exact .quiet ⟨(List.append_nil _).symm, rfl, .refl _⟩
  | @quiet _ _ _ _ events _ hquiet ih =>
    rw [← List.append_nil events]
    exact ih.append (.quiet hquiet)
  | refuse _ ih => exact ih
  | swallow _ _ ih => exact ih
  | unit _ _ hran hinner hends ih ihinner =>
    rw [List.append_assoc]
    exact ih.append (.unit hran ihinner hinner.nests hends)

/-! ## Failures -/

/-- Between the states `s` and `s'`, a unit has failed with the last event of `told`. The units at work
around it fail too, one after the other, and nothing else happens, unless the loader of one of them goes
on. -/
inductive Falls (devices : Registry α) (s s' : Engine α) :
    (told : List (Event α)) → (frames : List (Frame α)) → (later : List (Event α)) → Prop
  /-- No unit is at work. -/
  | done {told : List (Event α)} : Falls devices s s' told [] []
  /-- The innermost unit at work fails next. -/
  | fails {told later : List (Event α)} {frame : Frame α} {frames : List (Frame α)} {cause : Error}
    (h : Falls devices s s' (told ++ [.after frame.context (some cause)]) frames later) :
    Falls devices s s' told (frame :: frames) (.after frame.context (some cause) :: later)
  /-- The loader of the innermost unit at work goes on, from a state between the two. -/
  | swallowed {told later : List (Event α)} {frame : Frame α} {frames : List (Frame α)} {e : Engine α}
    (htold : e.trace = told) (hbefore : s.Precedes e) (hafter : e.Precedes s')
    (hswallows : frame.Swallows devices e) : Falls devices s s' told (frame :: frames) later

/-- A failure in a course runs through the units at work inside it, and, if the course is failing
then, through those around it. -/
theorem Course.falls (h : Course devices around e₀ e events failing) {earlier later : List (Event α)}
    {cause : Error} (heq : events = earlier ++ .after context (some cause) :: later) :
    ∃ inner, (∀ frames, Event.around frames (earlier ++ [.after context (some cause)])
        = some (inner ++ frames))
      ∧ ∀ s s' : Engine α, s.Precedes e₀ → e.Precedes s' → ∀ frames rest,
        (failing = true → Falls devices s s' e.trace (around.toList ++ frames) rest) →
          Falls devices s s' (e₀.trace ++ (earlier ++ [.after context (some cause)]))
            (inner ++ (around.toList ++ frames)) (later ++ rest) := by
  induction h generalizing earlier later context cause with
  | refl => simp at heq
  | quiet _ hquiet ih =>
    obtain ⟨inner, haround, hfalls⟩ := ih heq
    exact ⟨inner, haround, fun s s' hs hs' frames rest _ =>
      hfalls s s' hs (hquiet.precedes.trans hs') frames rest nofun⟩
  | refuse _ ih =>
    obtain ⟨inner, haround, hfalls⟩ := ih heq
    exact ⟨inner, haround, fun s s' hs hs' frames rest _ => hfalls s s' hs hs' frames rest nofun⟩
  | swallow h hswallows ih =>
    obtain ⟨inner, haround, hfalls⟩ := ih heq
    exact ⟨inner, haround, fun s s' hs hs' frames rest _ => hfalls s s' hs hs' frames rest
      fun _ => .swallowed rfl (hs.trans h.told.precedes) hs' hswallows⟩
  | @unit outer _ e _ e' events inside item context' failure h _ _ hinner hends ih ihinner =>
    have htrace := h.told.trace
    have hinside := hinner.told.trace
    rw [Engine.trace_begun] at hinside
    rw [List.append_assoc] at heq
    rcases Engine.entry_append heq with ⟨after, hold⟩ | ⟨before, rfl, hnew⟩
    · -- the failure comes before the unit begins, so that it was swallowed
      obtain ⟨inner, haround, hfalls⟩ := ih hold
      refine ⟨inner, haround, fun s s' hs hs' frames rest _ => ?_⟩
      rw [hold, List.append_assoc, List.cons_append] at heq
      obtain rfl := (List.cons.inj (List.append_cancel_left heq)).2
      rw [List.append_assoc]
      have hunit := precedes_begun.trans (hinner.told.precedes.trans hends.precedes)
      exact hfalls s s' hs (hunit.trans hs') frames _ nofun
    rcases Event.entry_unit hnew with ⟨-, hfirst⟩ | ⟨before, after, rfl, hold, rfl⟩ | ⟨rfl, hlast, rfl⟩
    · cases hfirst
    · -- the failure comes inside the unit, which fails next if it runs through what is inside
      obtain ⟨inner, haround, hfalls⟩ := ihinner hold
      refine ⟨inner ++ [⟨context', item.tree⟩], fun frames => ?_,
        fun s s' hs hs' frames rest hrest => ?_⟩
      · rw [List.append_assoc, Event.around_append, h.told.closed, Option.bind_some]
        exact (haround _).trans (by simp)
      · have hunit := hfalls s s' (hs.trans (h.told.precedes.trans precedes_begun))
          (hends.precedes.trans hs') (outer.toList ++ frames) (.after context' failure :: rest)
          fun hfails => by
            obtain ⟨cause', rfl⟩ := Option.isSome_iff_exists.mp hfails
            exact .fails (hends.trace ▸ hrest rfl)
        simpa [htrace] using hunit
    · -- the failure is that of the unit
      obtain ⟨rfl, rfl⟩ := Event.after.inj hlast
      refine ⟨[], fun frames => ?_, fun s s' _ _ frames rest hrest => ?_⟩
      · simp [h.told.closed, hinner.told.closed]
      · have hunit := hrest rfl
        rw [hends.trace, hinside, htrace] at hunit
        simpa using hunit

end TensorGraph
