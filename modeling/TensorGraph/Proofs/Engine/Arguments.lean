import Mathlib.Data.List.Perm.Subperm
import TensorGraph.Proofs.Engine.Keeps
import TensorGraph.Proofs.Schedule.Slots
/-!
# Arguments of requests

When the unit of a kernel runs, what it reads has results. Its slots are bound to them as they were
numbered by the schedule, or anew if a base behind one of them has become a folded constant. Either
way the tree and the blocks that the backend receives fit together, and no unit of a kernel ends
before its device is asked, unless the device is not known.

- `Event.Aligned`: requests whose arguments fit together, and units that end after such a request.
- `Event.Traced`: requests that are those of the schedule unless a slot was folded since.
- `Item.Made`: a kernel that was compiled in an earlier graph.
- `Run.sat_execute_supplied`: the run of a kernel whose inputs are there.
-/

namespace TensorGraph

open TensorGraph.Graph

variable {α : Type} {W W₀ W' : Census} {g g₀ g' : Graph α} {e : Engine α} {item : Item α}
  {context : UnitRecord} {events : List (Event α)}

/-! ## Events -/

/-- The unit begins with the last of the events. -/
structure Item.Begins (item : Item α) (context : UnitRecord) (events : List (Event α)) : Prop where
  /-- The number of the base. -/
  output : context.output = item.output.id
  /-- The device. -/
  device : context.device = item.output.device
  /-- The load, if the unit is one. -/
  load : context.load = item.load?
  /-- The number of slots. -/
  slots : context.inputs = item.slots.length
  /-- Nothing has happened since. -/
  last : ∃ earlier, events = earlier ++ [.before context item.tree]

/-- The ways in which the unit of a kernel ends, the events being those before. -/
inductive UnitRecord.Ends (context : UnitRecord) (events : List (Event α)) : Option Error → Prop
  /-- The device is not known, and nothing is asked. -/
  | unserved {tree : Tree α} (h : ∃ earlier, events = earlier ++ [.before context tree]) :
    Ends context events (some (.unknownDevice context.device))
  /-- The device is asked, and gives a result or an error of its own. -/
  | asked {tree kernel : Tree α} {output : Buffer} {inputs : List (Block α)} {counted : Bool}
    {failure : Option Error}
    (h : ∃ earlier, events = earlier ++ [.before context tree,
      .request context.device counted (.query (.execute kernel output inputs))])
    (hfailure : ∀ cause ∈ failure, ∃ name answer, cause = .backend name answer) :
    Ends context events failure

/-- Given the events before, a request to run a tree is that of a unit of a schedule that has just
begun, and its inputs line up with the leaves of the tree before its buffers were replaced. A unit of
a kernel does not end before such a request, unless its device is not known. -/
def Event.Aligned (g : Graph α) (earlier : List (Event α)) : Event α → Prop
  | .request device _ (.query (.execute tree output inputs)) =>
    ∃ (item : Item α) (context : UnitRecord) (m : Nat → Option (Tree α)), item.Planned g
      ∧ item.load? = none ∧ item.Begins context earlier ∧ item.output = output
      ∧ context.device = device ∧ tree = item.fused.substitute m ∧ g.LinesUp item.fused m inputs
  | .after context failure => context.load = none → context.Ends earlier failure
  | _ => True

theorem Event.Aligned.of_grows {event : Event α} (h : event.Aligned g events) (hgrows : g.Grows g')
    (hg' : g'.WellFormed W) : event.Aligned g' events := by
  cases event with
  | before => trivial
  | after => exact h
  | request device counted request =>
    cases request with
    | call => trivial
    | query query =>
      cases query with
      | upload => trivial
      | allocate => trivial
      | execute tree output inputs =>
        obtain ⟨item, context, m, hplanned, hload, hbegins, houtput, hdevice, htree, hlines⟩ := h
        exact ⟨item, context, m, hplanned.of_grows hgrows, hload, hbegins, houtput, hdevice, htree,
          hlines.of_grows hgrows hg'⟩

/-- No base behind a slot of the kernel is a folded constant. -/
def Item.Unfolded (g : Graph α) (item : Item α) : Prop :=
  ∀ s ∈ item.slots, g.foldedScalar? s = none

/-- The kernel runs as the tree `tree` on so many inputs: as it was scheduled exactly if no base behind
a slot has become a folded constant. -/
structure Item.Runs (g : Graph α) (item : Item α) (tree : Tree α) (inputs : Nat) : Prop where
  /-- The bases behind the slots have results. -/
  realized : ∀ s ∈ item.slots, g.isRealized s = true
  /-- The tree is the scheduled one. -/
  tree : tree = item.tree ↔ item.Unfolded g
  /-- There is an input for each slot. -/
  inputs : inputs = item.slots.length ↔ item.Unfolded g

/-- Given the events before, a request to run a tree is that of a unit of a schedule that has just
begun, and the tree and the inputs are those of the schedule unless a slot was folded since. -/
def Event.Traced (g : Graph α) (earlier : List (Event α)) : Event α → Prop
  | .request _ _ (.query (.execute tree output inputs)) =>
    ∃ (item : Item α) (context : UnitRecord), item.Planned g ∧ item.load? = none
      ∧ item.Begins context earlier ∧ item.output = output ∧ item.Runs g tree inputs.length
  | _ => True

theorem Item.Runs.of_grows {tree : Tree α} {inputs : Nat} (h : item.Runs g tree inputs)
    (hgrows : g.Grows g') (hg' : g'.WellFormed W) : item.Runs g' tree inputs := by
  have hsame : ∀ s ∈ item.slots, g'.foldedScalar? s = g.foldedScalar? s := by
    intro s hs
    obtain ⟨block, hblock⟩ := Option.isSome_iff_exists.mp (h.realized s hs)
    rw [foldedScalar?, foldedScalar?, hblock, hgrows.result?_eq_some hg' hblock]
  have hunfolded : item.Unfolded g' ↔ item.Unfolded g :=
    forall₂_congr fun s hs => by rw [hsame s hs]
  refine ⟨fun s hs => ?_, h.tree.trans hunfolded.symm, h.inputs.trans hunfolded.symm⟩
  obtain ⟨block, hblock⟩ := Option.isSome_iff_exists.mp (h.realized s hs)
  rw [isRealized, hgrows.result?_eq_some hg' hblock]
  rfl

theorem Event.Traced.of_grows {event : Event α} (h : event.Traced g events) (hgrows : g.Grows g')
    (hg' : g'.WellFormed W) : event.Traced g' events := by
  cases event with
  | before => trivial
  | after => trivial
  | request device counted request =>
    cases request with
    | call => trivial
    | query query =>
      cases query with
      | upload => trivial
      | allocate => trivial
      | execute tree output inputs =>
        obtain ⟨item, context, hplanned, hload, hbegins, houtput, hruns⟩ := h
        exact ⟨item, context, hplanned.of_grows hgrows, hload, hbegins, houtput,
          hruns.of_grows hgrows hg'⟩

/-! ## Kernels whose inputs are there -/

/-- The kernel was compiled in an earlier graph. -/
structure Item.Made (W₀ : Census) (g₀ : Graph α) (W : Census) (g : Graph α) (item : Item α) :
    Prop where
  /-- The earlier graph is well-formed. -/
  wellFormed : g₀.WellFormed W₀
  /-- The graph has grown since. -/
  leads : Leads W₀ g₀ W g
  /-- The leaves of the tree were handed out. -/
  lists : ∀ b ∈ item.fused.leaves, W₀.Lists b
  /-- Compiling has given the tree and the slots. -/
  resolved : g₀.resolve item.fused = .ok ⟨item.tree, item.slots⟩
  /-- The trackers of its leaves were simplified. -/
  simple : item.fused.Simplifies
  /-- The inputs are the leaves. -/
  inputs : item.inputs = item.fused.buffers

theorem Item.Made.of_leads (h : item.Made W₀ g₀ W g) (hleads : Leads W g W' g') :
    item.Made W₀ g₀ W' g' :=
  ⟨h.wellFormed, h.leads.trans hleads, h.lists, h.resolved, h.simple, h.inputs⟩

/-- A unit that was lowered and is no load is a kernel that was compiled. -/
theorem Buffer.Lowers.made {b : Buffer} (hg : g.WellFormed W) (hb : W.Lists b.base.buffer)
    (h : b.Lowers W g item) (hload : item.load? = none) : item.Made W g W g := by
  obtain ⟨-, hleaves, -, -⟩ := h.reads hg (.refl W) hb
  cases h with
  | load hop hcode =>
    obtain ⟨code, hsome, hcode⟩ := Tree.codeIs_eq_true.mp hcode
    rw [Item.load?, hsome, Option.bind_some] at hload
    cases code with
    | load op => cases hload
    | _ => cases hcode
  | kernel hop hfuse hcompiled hsimple =>
    exact ⟨hg, hg.viewed.leads, fun b hb => (hleaves b hb).1, hcompiled, hsimple, rfl⟩

/-- The request of the unit of a kernel, with its leaves replaced by `m`. -/
def Item.request (item : Item α) (counted : Bool) (m : Nat → Option (Tree α))
    (inputs : List (Block α)) : Event α :=
  .request item.output.device counted (.query (.execute (item.fused.substitute m) item.output inputs))

/-- What the kernel reads has results. -/
def Item.Supplied (g : Graph α) (item : Item α) : Prop := ∀ b ∈ item.inputs, g.isRealized b = true

/-- What the first unit of a plan reads has results. -/
theorem Plan.Ordered.supplied {items : List (Item α)} (h : Plan.Ordered g (item :: items)) :
    item.Supplied g := by
  intro b hb
  rcases h [] item items rfl b hb with hrealized | ⟨x, hx, -⟩
  · exact hrealized
  · cases hx

/-- The slots of the kernel, numbered in some graph, have results. -/
theorem Item.Made.exists_result (h : item.Made W₀ g₀ W g) (hsupplied : item.Supplied g)
    {W₁ : Census} {g₁ : Graph α} (hg₁ : g₁.WellFormed W₁)
    (hlists : ∀ b ∈ item.fused.leaves, W₁.Lists b) {c : Compiled α}
    (hc : g₁.resolve item.fused = .ok c) :
    ∀ s ∈ c.slots, ∃ b ∈ item.fused.leaves, g₁.isFolded b = false ∧ s = b.base.buffer
      ∧ ∃ block, g.result? s = some block := by
  intro s hs
  obtain ⟨b, hb, hfolded, rfl⟩ := (mem_slots_of_resolve hg₁ hlists hc).mp hs
  refine ⟨b, hb, hfolded, rfl, Option.isSome_iff_exists.mp (hsupplied b ?_)⟩
  rw [h.inputs]
  exact (mem_buffers_of_lists h.lists).mpr hb

/-- The scheduled slots of the kernel have results. -/
theorem Item.Made.realized (h : item.Made W₀ g₀ W g) (hsupplied : item.Supplied g) :
    ∀ s ∈ item.slots, g.isRealized s = true := by
  intro s hs
  obtain ⟨-, -, -, -, block, hblock⟩ :=
    h.exists_result hsupplied h.wellFormed h.lists h.resolved s hs
  rw [isRealized, hblock]
  rfl

/-- A kernel that is compiled anew because a slot was folded gets another tree, with fewer slots. -/
theorem Item.Made.runs_again (h : item.Made W₀ g₀ W g) (hsupplied : item.Supplied g) {s : Buffer}
    (hs : s ∈ item.slots) (hscalar : (g.foldedScalar? s).isSome = true) {c : Compiled α}
    (hc : g.resolve item.fused = .ok c) : item.Runs g c.tree c.slots.length := by
  have hg := h.leads.wellFormed
  have hlists : ∀ b ∈ item.fused.leaves, W.Lists b := fun b hb => h.leads.census.lists (h.lists b hb)
  have hmem {s : Buffer} := mem_slots_of_resolve hg hlists hc (s := s)
  have hmem₀ {s : Buffer} := mem_slots_of_resolve h.wellFormed h.lists h.resolved (s := s)
  obtain ⟨hslots, m, htree, hm⟩ := resolve_eq_ok hlists hc
  obtain ⟨-, m₀, htree₀, hm₀⟩ := resolve_eq_ok h.lists h.resolved
  obtain ⟨b, hb, hunfolded₀, rfl⟩ := hmem₀.mp hs
  have hfolded : g.isFolded b = true := by
    rw [isFolded, Bool.or_eq_true]
    exact .inr hscalar
  have hnot : ¬item.Unfolded g := fun hall => by
    rw [hall _ hs] at hscalar
    cases hscalar
  refine ⟨h.realized hsupplied, iff_of_false (fun heq => ?_) hnot, iff_of_false (fun heq => ?_) hnot⟩
  · -- the leaf was a read of a slot, and is a literal now
    obtain ⟨u, hu, hleaf⟩ := hm b hb
    obtain ⟨u₀, hu₀, hleaf₀⟩ := hm₀ b hb
    have hsame : u = u₀ := by
      have := Tree.eq_of_substitute_eq (htree.symm.trans (heq.trans htree₀)) hb
      rwa [hu, hu₀] at this
    rcases resolveLeaf_eq_ok hleaf with ⟨-, value, -, rfl⟩ | ⟨hunfolded, -⟩
    · rcases resolveLeaf_eq_ok hleaf₀ with ⟨hfolded₀, -⟩ | ⟨-, rfl⟩
      · rw [hunfolded₀] at hfolded₀
        cases hfolded₀
      · cases hsame
    · rw [hfolded] at hunfolded
      cases hunfolded
  · -- the folded base has lost its slot, and no base has got one
    have hlost : b.base.buffer ∉ c.slots := by
      intro hin
      obtain ⟨b', -, hunfolded, hbase⟩ := hmem.mp hin
      rw [isFolded, Bool.or_eq_false_iff] at hunfolded
      have hscalar' : (g.foldedScalar? b'.base.buffer).isSome = false := hunfolded.2
      rw [← hbase, hscalar] at hscalar'
      cases hscalar'
    have hsub : c.slots ⊆ item.slots := by
      intro s' hs'
      obtain ⟨b', hb', hunfolded, rfl⟩ := hmem.mp hs'
      refine hmem₀.mpr ⟨b', hb', ?_, rfl⟩
      rw [← Bool.not_eq_true] at hunfolded ⊢
      exact fun hfolded₀ => hunfolded (h.leads.grows.isFolded_eq_true hg hfolded₀)
    have hnodup : c.slots.Nodup := by
      rw [hslots]
      exact .of_map _ (Tree.nodup_firstVisits [] _)
    have hle := (List.subperm_of_subset (List.nodup_cons.mpr ⟨hlost, hnodup⟩)
      (List.cons_subset.mpr ⟨hs, hsub⟩)).length_le
    rw [List.length_cons, heq] at hle
    omega

namespace Run

/-- A kernel whose inputs are there is compiled to a tree whose slots have results. -/
theorem sat_compiled (h : item.Made W₀ g₀ W e.graph) (hsupplied : item.Supplied e.graph) :
    Sat (compiled item) e (fun c e' => e' = e ∧ item.Runs e.graph c.tree c.slots.length
        ∧ (∀ s ∈ c.slots, ∃ block, e.graph.Binds s block)
        ∧ ∀ inputs, List.Forall₂ e.graph.Binds c.slots inputs →
          ∃ m, c.tree = item.fused.substitute m ∧ e.graph.LinesUp item.fused m inputs)
      fun _ _ => False := by
  have hg := h.leads.wellFormed
  have hlists : ∀ b ∈ item.fused.leaves, W.Lists b := fun b hb => h.leads.census.lists (h.lists b hb)
  rw [compiled, sat_bind, sat_graph]
  split
  · next hsome =>
    -- a base behind a slot has become a constant
    obtain ⟨c, hc⟩ := exists_resolve_again h.wellFormed h.leads h.lists h.resolved fun b hb =>
      hsupplied b (h.inputs ▸ (mem_buffers_of_lists h.lists).mpr hb)
    obtain ⟨s, hs, hscalar⟩ := List.any_eq_true.mp hsome
    rw [compile_eq_ok.mpr ⟨hc, h.simple⟩]
    refine ⟨rfl, h.runs_again hsupplied hs hscalar hc, fun s hs => ?_, fun inputs hinputs =>
      linesUp_of_resolve hg hg.viewed.leads hlists hc hinputs⟩
    obtain ⟨b, hb, hfolded, rfl, block, hblock⟩ := h.exists_result hsupplied hg hlists hc s hs
    refine ⟨block, hblock, ?_⟩
    have hscalar : e.graph.foldedScalar? b = none := by
      rw [isFolded, Bool.or_eq_false_iff] at hfolded
      simpa using hfolded.2
    rwa [foldedScalar?, show e.graph.result? b = some block from hblock, Option.bind_some] at hscalar
  · next hnone =>
    -- the slots are those of the schedule
    have hunfolded : item.Unfolded e.graph := fun s hs => by
      simpa using fun hsome => hnone (List.any_eq_true.mpr ⟨s, hs, hsome⟩)
    refine ⟨rfl, ⟨h.realized hsupplied, iff_of_true rfl hunfolded, iff_of_true rfl hunfolded⟩,
      fun s hs => ?_, fun inputs hinputs =>
        linesUp_of_resolve h.wellFormed h.leads h.lists h.resolved hinputs⟩
    obtain ⟨b, hb, -, rfl, block, hblock⟩ :=
      h.exists_result hsupplied h.wellFormed h.lists h.resolved s hs
    refine ⟨block, hblock, ?_⟩
    have hscalar := hunfolded _ hs
    rwa [foldedScalar?, hblock, Option.bind_some] at hscalar

/-- Results that are no constants are fetched. -/
theorem sat_slotInputs {slots : List Buffer} (output : Buffer)
    (h : ∀ s ∈ slots, ∃ block, e.graph.Binds s block) :
    Sat (slots.mapM (slotInput output)) e
      (fun inputs e' => e' = e ∧ List.Forall₂ e.graph.Binds slots inputs) fun _ _ => False := by
  induction slots with
  | nil => exact ⟨rfl, .nil⟩
  | cons s slots ih =>
    obtain ⟨⟨block, hblock, hconstant⟩, hslots⟩ := List.forall_mem_cons.mp h
    have hfirst : Sat (slotInput output s) e (fun b e' => b = block ∧ e' = e) fun _ _ => False := by
      have hinput : block.isKernelInput = true := by
        rw [Block.isKernelInput, hconstant]
        rfl
      rw [slotInput, sat_bind, sat_graph, hblock]
      simp only [hinput, if_true]
      exact ⟨rfl, rfl⟩
    rw [List.mapM_cons, sat_bind]
    refine hfirst.imp ?_ fun _ _ h => h
    rintro _ e ⟨rfl, rfl⟩
    rw [sat_bind]
    refine (ih hslots).imp ?_ fun _ _ h => h
    rintro inputs e ⟨rfl, hinputs⟩
    exact ⟨rfl, .cons ⟨hblock, hconstant⟩ hinputs⟩

variable [Lane α] {devices : Registry α} {realize : Realizer α}

/-- What the run of a kernel whose inputs are there does: the backend is asked to run a tree on inputs
that line up, unless the device is not known. -/
theorem sat_execute_supplied (h : item.Made W₀ g₀ W e.graph) (hsupplied : item.Supplied e.graph)
    (hload : item.load? = none) (held : List Buffer) :
    Sat (execute devices realize held item) e
      (fun _ e' => ∃ counted m inputs, e.graph.LinesUp item.fused m inputs
        ∧ item.Runs e.graph (item.fused.substitute m) inputs.length
        ∧ e' = e.record (item.request counted m inputs))
      fun failure e' => (failure = .error (.unknownDevice item.output.device) ∧ e' = e)
        ∨ ∃ counted m inputs name answer, e.graph.LinesUp item.fused m inputs
          ∧ item.Runs e.graph (item.fused.substitute m) inputs.length
          ∧ failure = (Error.backend name answer).failure
          ∧ e' = e.record (item.request counted m inputs) := by
  cases hfind : devices.find item.output.device with
  | error cause =>
    have hcause : cause = .unknownDevice item.output.device := by
      rw [Registry.find] at hfind
      split at hfind
      · cases hfind
      · exact (Except.error.inj hfind).symm
    rw [execute, hfind, hcause]
    exact .inl ⟨rfl, rfl⟩
  | ok backend =>
    rw [sat_execute_kernel hfind hload, sat_bind]
    refine (sat_compiled h hsupplied).imp ?_ fun _ _ h => h.elim
    rintro c e ⟨rfl, hruns, hslots, hlines⟩
    rw [sat_bind]
    refine (sat_slotInputs item.output hslots).imp ?_ fun _ _ h => h.elim
    rintro inputs e ⟨rfl, hinputs⟩
    obtain ⟨m, hm, hlines⟩ := hlines inputs hinputs
    rw [hm, hinputs.length_eq] at hruns
    rw [hm, Backend.ask, sat_bind]
    dsimp only
    cases backend.execute (item.fused.substitute m) item.output inputs
        (Device.args item.output.device) with
    | ok block => exact ⟨backend.counted, m, inputs, hlines, hruns, rfl⟩
    | error answer =>
      exact .inr ⟨backend.counted, m, inputs, backend.name, answer, hlines, hruns, rfl, rfl⟩

omit [Lane α] in
/-- A device that fails without being stopped reports its failure. -/
theorem Error.eq_of_failure_backend {name : String} {answer : BackendError} {cause : Error}
    (h : (Error.backend name answer).failure = .error cause) : cause = .backend name answer := by
  cases answer with
  | overflow => cases h
  | unimplemented | execution => exact (Failure.error.inj h).symm

/-- The unit of a kernel that has just begun ends in one of the ways, if its inputs are there. -/
theorem sat_execute_ends (hsupplied : item.load? = none →
      (∃ W₀ g₀, item.Made W₀ g₀ W e.graph) ∧ item.Supplied e.graph)
    (hbegins : item.Begins context e.journal) (held : List Buffer) :
    Sat (execute devices realize held item) e
      (fun _ e' => context.load = none → context.Ends e'.journal none)
      fun failure e' => ∀ cause, failure = .error cause → context.load = none →
        context.Ends e'.journal (some cause) := by
  cases hload : item.load? with
  | some op =>
    have hcontext : context.load ≠ none := by
      rw [hbegins.load, hload]
      exact Option.some_ne_none op
    exact (sat_run _ e).imp (fun _ _ _ hnone => absurd hnone hcontext)
      fun _ _ _ _ _ hnone => absurd hnone hcontext
  | none =>
    obtain ⟨⟨W₀, g₀, hmade⟩, hsupplied⟩ := hsupplied hload
    obtain ⟨earlier, hlast⟩ := hbegins.last
    have hasked (counted : Bool) (m : Nat → Option (Tree α)) (inputs : List (Block α)) :
        ∃ before, (e.record (item.request counted m inputs)).journal
          = before ++ [.before context item.tree, .request context.device counted
              (.query (.execute (item.fused.substitute m) item.output inputs))] := by
      refine ⟨earlier, ?_⟩
      rw [Engine.record, hlast, hbegins.device, List.append_assoc]
      rfl
    refine (sat_execute_supplied hmade hsupplied hload held).imp ?_ ?_
    · rintro _ _ ⟨counted, m, inputs, -, -, rfl⟩ -
      exact .asked (hasked counted m inputs) fun _ hcause => absurd hcause (Option.not_mem_none _)
    · rintro failure e' (⟨rfl, rfl⟩ | ⟨counted, m, inputs, name, answer, -, -, rfl, rfl⟩) cause
        hcause -
      · obtain rfl := Failure.error.inj hcause
        exact hbegins.device ▸ .unserved ⟨earlier, hlast⟩
      · obtain rfl := Error.eq_of_failure_backend hcause
        refine .asked (hasked counted m inputs) fun cause hcause => ?_
        exact ⟨name, answer, (Option.some.inj hcause).symm⟩

end Run

/-- The request of such a unit has arguments that fit together. -/
theorem Item.Begins.aligned (h : item.Begins context events) (hplanned : item.Planned g)
    (hload : item.load? = none) {m : Nat → Option (Tree α)} {inputs : List (Block α)}
    (hlines : g.LinesUp item.fused m inputs) (counted : Bool) :
    (item.request counted m inputs).Aligned g events :=
  ⟨item, context, m, hplanned, hload, h, rfl, h.device, rfl, hlines⟩

/-- The request is that of the schedule unless a slot was folded since. -/
theorem Item.Begins.traced (h : item.Begins context events) (hplanned : item.Planned g)
    (hload : item.load? = none) {m : Nat → Option (Tree α)} {inputs : List (Block α)}
    (hruns : item.Runs g (item.fused.substitute m) inputs.length) (counted : Bool) :
    (item.request counted m inputs).Traced g events :=
  ⟨item, context, hplanned, hload, h, rfl, hruns⟩

end TensorGraph
