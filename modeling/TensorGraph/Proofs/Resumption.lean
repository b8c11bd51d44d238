import Mathlib.Data.List.Induction
import TensorGraph.Proofs.Meaning.Session
/-!
# Results are written once

Realizing may fail at any depth of nested realizations, and may be tried again. Still each base gets
its result once, from one unit at most, and keeps it; and what a failure leaves without a result is
what it interrupted.

- `Session.Resumes`: what a command leaves behind.
- `Session.WritesOnce`: what is asked of a session and of all that follow it.
- `Session.Reachable.writes_once`: reachable sessions are like that.
-/

namespace TensorGraph

open TensorGraph.Graph

variable {α : Type} {W : Census} {s s' : Session α} {b : Buffer}

/-! ## Events -/

namespace Event

theorem realizedIn_cons (event : Event α) (events : List (Event α)) :
    realizedIn (event :: events) = event.realizes?.toList ++ realizedIn events := by
  rw [realizedIn, List.filterMap_cons]
  cases event.realizes? <;> rfl

theorem IsFailure.realizes?_eq {event : Event α} (h : event.IsFailure) : event.realizes? = none := by
  cases event with
  | after context failure =>
    cases failure with
    | none => exact h.elim
    | some => rfl
  | _ => exact h.elim

/-- Failures tell of no results. -/
theorem realizedIn_eq_nil {events : List (Event α)} (h : ∀ event ∈ events, event.IsFailure) :
    realizedIn events = [] :=
  List.filterMap_eq_nil_iff.mpr fun event hevent => (h event hevent).realizes?_eq

/-- If no unit succeeds for a base that has a result, then no two succeed for one base. -/
theorem nodup_realizedIn {events : List (Event α)}
    (h : ∀ earlier event later, events = earlier ++ event :: later →
      ∀ id, event.realizes? = some id → id ∉ realizedIn earlier) : (realizedIn events).Nodup := by
  induction events using List.reverseRecOn with
  | nil => exact List.nodup_nil
  | append_singleton events event ih =>
    have hevents : (realizedIn events).Nodup := by
      refine ih fun earlier event' later heq => h earlier event' (later ++ [event]) ?_
      rw [heq, List.append_assoc, List.cons_append]
    rw [realizedIn_append, realizedIn_cons]
    cases hevent : event.realizes? with
    | none => simpa using hevents
    | some id =>
      refine List.nodup_append.mpr ⟨hevents, by simp, ?_⟩
      rintro id' hid' _ hid rfl
      obtain rfl : id' = id := by simpa using hid
      exact h events event [] rfl id' hevent hid'

end Event

/-! ## Commands -/

namespace Session

/-- The base of `b` has a result. -/
def HasResult (s : Session α) (b : Buffer) : Prop := s.engine.graph.isRealized b = true

/-- The base with number `id` has no result. -/
def Waits (s : Session α) (id : Nat) : Prop := ∀ b, s.Owns b → b.base.id = id → ¬s.HasResult b

/-- What a command leaves behind that leads from `s` to `s'` with the given result. -/
structure Resumes (s s' : Session α) (result : Except Refusal (Answer α))
    (news : List (Event α)) : Prop where
  /-- The journal goes on. -/
  journal : s'.engine.journal = s.engine.journal ++ news
  /-- Units are run for bases only that have no result. -/
  begins : ∀ context tree, .before context tree ∈ news → s.Waits context.output
  /-- A unit that has begun and has not succeeded leaves its base without a result. -/
  abandoned : ∀ context tree, .before context tree ∈ news →
    context.output ∉ Event.realizedIn news → s'.Waits context.output
  /-- If no loader swallows errors, the failure of a unit ends the command. Its base has no result
  then, nor do the bases of the units that were at work around it. -/
  fails : s'.engine.graph.Strict → ∀ earlier context cause later,
    news = earlier ++ .after context (some cause) :: later →
      (∃ refusal, result = .error refusal) ∧ (∀ event ∈ later, event.IsFailure)
        ∧ s'.Waits context.output
        ∧ ∀ around tree, .before around tree ∈ earlier → around.output ∉ Event.realizedIn earlier →
          s'.Waits around.output

/-- A base that a unit is for, now or later, but none has succeeded for, has no result. -/
theorem Orderly.waits {W' : Census} {g' : Graph α} (hs : s.Orderly W) (hg' : g'.WellFormed W')
    (hgrows : s.engine.graph.Grows g') {id : Nat} (hcomputes : g'.Computes id)
    (hdone : id ∉ Event.realizedIn s.engine.journal) : s.Waits id := by
  intro b hb hid hresult
  have hlist := hb.lists hs
  obtain ⟨c, hc, hbase, hop, -⟩ := hs.1.core hlist
  obtain ⟨c', hc', hbase', hop', -⟩ := hgrows.kept c hc
  obtain ⟨d, hd, hdid, hdop⟩ := computes_iff.mp hcomputes
  have hcid : c'.base.id = d.base.id := by rw [hbase', hbase, hid, hdid]
  obtain rfl := hg'.eq_of_id_eq hc' hd hcid
  rw [HasResult, hs.1.isRealized_iff hlist (hop ▸ hop' ▸ hdop), hid] at hresult
  exact hdone hresult

/-- A session goes on from one orderly state to another so that it can be resumed. -/
theorem Orderly.resumes {W' : Census} {result : Except Refusal (Answer α)} (hs : s.Orderly W)
    (hs' : s'.Orderly W')
    (hadvances : Engine.Advances (fun _ => False) Event.Halts W s.engine W' s'.engine)
    (hcalm : ∀ answer, result = .ok answer →
      Engine.Advances (fun _ => False) Event.Calm W s.engine W' s'.engine) :
    ∃ news, Resumes s s' result news := by
  obtain ⟨news, hjournal, hhalts⟩ := hadvances.journal
  -- events among the news come at their times too
  have htimely (earlier : List (Event α)) (event : Event α) (later : List (Event α))
      (heq : news = earlier ++ event :: later) : event.Timely s'.engine.graph
        (Event.realizedIn s.engine.journal ++ Event.realizedIn earlier) := by
    rw [← Event.realizedIn_append]
    exact hs'.1.timely _ event later (by rw [hjournal, heq, List.append_assoc])
  have hbegins (context : UnitRecord) (tree : Tree α) (hmem : .before context tree ∈ news) :
      context.output ∉ Event.realizedIn s.engine.journal
        ∧ s'.engine.graph.Computes context.output := by
    obtain ⟨earlier, later, heq⟩ := List.append_of_mem hmem
    obtain ⟨hdone, hcomputes⟩ := htimely earlier _ later heq
    exact ⟨fun h => hdone (List.mem_append_left _ h), hcomputes⟩
  have hwaits {id : Nat} (hcomputes : s'.engine.graph.Computes id)
      (hdone : id ∉ Event.realizedIn s'.engine.journal) : s'.Waits id :=
    hs'.waits hs'.1.wellFormed (.refl _) hcomputes hdone
  refine ⟨news, ?_⟩
  constructor
  case journal => exact hjournal
  case begins =>
    intro context tree hmem
    obtain ⟨hdone, hcomputes⟩ := hbegins context tree hmem
    exact hs.waits hs'.1.wellFormed hadvances.graph.grows hcomputes hdone
  case abandoned =>
    intro context tree hmem hnews
    obtain ⟨hdone, hcomputes⟩ := hbegins context tree hmem
    refine hwaits hcomputes ?_
    rw [hjournal, Event.realizedIn_append, List.mem_append, not_or]
    exact ⟨hdone, hnews⟩
  case fails =>
    intro hstrict earlier context cause later heq
    have hpairwise := hhalts hstrict
    rw [heq] at hpairwise
    obtain ⟨-, hlater, -⟩ := List.pairwise_append.mp hpairwise
    have hfailures : ∀ event ∈ later, event.IsFailure := fun event hevent =>
      (List.pairwise_cons.mp hlater).1 event hevent trivial
    -- after the failure there are no results
    have hdone : Event.realizedIn s'.engine.journal
        = Event.realizedIn s.engine.journal ++ Event.realizedIn earlier := by
      rw [hjournal, heq, Event.realizedIn_append, Event.realizedIn_append, Event.realizedIn_cons,
        Event.realizedIn_eq_nil hfailures]
      simp [Event.realizes?]
    refine ⟨?_, hfailures, ?_, fun around tree hmem hnews => ?_⟩
    · cases result with
      | error refusal => exact ⟨refusal, rfl⟩
      | ok answer =>
        obtain ⟨news', hjournal', hcalm'⟩ := (hcalm answer rfl).journal
        obtain rfl : news = news' := List.append_cancel_left (hjournal.symm.trans hjournal')
        exact absurd trivial (hcalm' hstrict (.after context (some cause)) (by simp [heq]))
    · obtain ⟨houtput, hcomputes⟩ := htimely earlier _ later heq
      exact hwaits hcomputes (hdone ▸ houtput)
    · obtain ⟨hbefore, hcomputes⟩ := hbegins around tree (heq ▸ List.mem_append_left _ hmem)
      refine hwaits hcomputes ?_
      rw [hdone, List.mem_append, not_or]
      exact ⟨hbefore, hnews⟩

/-! ## Sequences of commands -/

variable [Lane α]

/-- Commands lead from `s` to `s'`. -/
inductive Later (devices : Registry α) (s : Session α) : Session α → Prop
  /-- No command at all. -/
  | refl : Later devices s s
  /-- One more command, whether it is met or refused. -/
  | step {s' : Session α} (h : Later devices s s') (c : Command α) :
    Later devices s (s'.step devices c).2

/-- Results are written once, from the session `s` on. -/
structure WritesOnce (devices : Registry α) (s : Session α) : Prop where
  /-- A base has a result if it has no operation, or else if a unit for it has succeeded. -/
  filled : ∀ b, s.Owns b → (s.HasResult b ↔
    s.engine.graph.op? b = none ∨ b.base.id ∈ Event.realizedIn s.engine.journal)
  /-- No two units succeed for the same base. -/
  once : (Event.realizedIn s.engine.journal).Nodup
  /-- Units begin and end while their bases have no results, and loaders are called when their
  sources have results. -/
  timely : ∀ earlier event later, s.engine.journal = earlier ++ event :: later →
    event.Timely s.engine.graph (Event.realizedIn earlier)
  /-- A result stays as it is. -/
  kept : ∀ s', s.Later devices s' → ∀ b, s.Owns b → ∀ block,
    s.engine.graph.result? b = some block → s'.engine.graph.result? b = some block
  /-- Every command leaves a session that can be resumed. -/
  resumes : ∀ c, ∃ news, Resumes s (s.step devices c).2 (s.step devices c).1.result news

theorem Orderly.later {devices : Registry α} (hs : s.Orderly W) (h : s.Later devices s') :
    ∃ W', s'.Orderly W' ∧ Leads W s.engine.graph W' s'.engine.graph := by
  induction h with
  | refl => exact ⟨W, hs, hs.1.wellFormed.viewed.leads⟩
  | step _ c ih =>
    obtain ⟨W', hs', hleads⟩ := ih
    obtain ⟨W'', hs'', hadvances, -⟩ := orderly_step devices hs' c
    exact ⟨W'', hs'', hleads.trans hadvances.graph⟩

/-- Whatever commands a session takes, results are written once. -/
theorem Reachable.writes_once {devices : Registry α} (hs : s.Reachable devices) :
    s.WritesOnce devices := by
  obtain ⟨W, hsound⟩ := hs.sound
  have horderly := hsound.1
  constructor
  case filled =>
    intro b hb
    obtain ⟨c, hc, hbase, hop, hresult⟩ := horderly.core (hb.lists hsound)
    rw [HasResult, isRealized, hresult, Option.isSome_iff_ne_none, horderly.results c hc, hop, hbase]
  case once =>
    refine Event.nodup_realizedIn fun earlier event later heq id hid => ?_
    have htimely := horderly.timely earlier event later heq
    cases event with
    | after context failure =>
      cases failure with
      | none => exact Option.some.inj hid ▸ htimely.1
      | some => cases hid
    | _ => cases hid
  case timely => exact horderly.timely
  case kept =>
    intro s' hlater b hb block hblock
    obtain ⟨W', hsound', hleads⟩ := hsound.later hlater
    obtain ⟨c, hc, hbase, -, hresult⟩ := horderly.core (hb.lists hsound)
    obtain ⟨c', hc', hbase', -, hkept⟩ := hleads.grows.kept c hc
    rw [hleads.wellFormed.result?_eq hc' (hbase'.trans hbase)]
    exact hkept block (hresult.symm.trans hblock)
  case resumes =>
    intro c
    obtain ⟨W', hsound', hadvances, hcalm⟩ := orderly_step devices hsound c
    exact hsound.resumes hsound' hadvances hcalm

/-- The session after a sum was asked for twice: its loader reads back what is computed from the result
of another loader, which refuses the first call. -/
def retriedSum : Session Int :=
  let run (s : Session Int) (c : Command Int) : Session Int := (s.step hostDevices c).2
  let late : Loader Int := .afterFirst (fun _ => .fail (.loader "not yet")) (.sum 0)
  let s := run {} uploadPair
  let s := run s (.define "y" (.load .custom (.ofNats [2]) .i32 "cpu" (.ok (.loader late)) ["x"] {}))
  let s := run s (.define "n" (.elementwise "y" (.unary .neg) [] (.ok .none)))
  let s := run s
    (.define "z" (.load .custom (.ofNats [2]) .i32 "cpu" (.ok (.loader (.sum 1))) ["n"] {}))
  run (run s (.realize "z")) (.realize "z")

/-- The unit that is refused fails with the one around it. In the second attempt it succeeds, then the
negation and the sum. -/
theorem writes_once_retriedSum :
    (retriedSum.engine.journal.filterMap fun
        | .after context failure => some (context.output, failure.isSome)
        | _ => none) = [(2, true), (4, true), (2, false), (3, false), (4, false)]
      ∧ retriedSum.WritesOnce hostDevices := by
  have hs : retriedSum.Reachable hostDevices :=
    .step (.step (.step (.step (.step (.step .start _) _) _) _) _) _
  exact ⟨by decide +kernel, Reachable.writes_once hs⟩

end Session

end TensorGraph
