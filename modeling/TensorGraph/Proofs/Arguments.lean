import TensorGraph.Proofs.Meaning.Session
/-!
# Arguments of kernels

Between the schedule and the run of a kernel, loaders may turn any of the bases that it reads into
folded constants. Whichever they are, the tree and the inputs that the backend receives fit together.
They are those that the beginning of the unit told of unless there is such a constant: what is told is
the schedule.

- `Session.Reachable.arguments_line_up`: the requests of every reachable session.
- `Session.Reachable.announced_iff`: the requests, and the beginnings of their units.
-/

namespace TensorGraph

variable {α : Type}

/-- The number of blocks that a kernel reads, as it was scheduled and as it is run. -/
def Event.inputCount? : Event α → Option Nat
  | .before context _ => some context.inputs
  | .request _ _ (.query (.execute _ _ inputs)) => some inputs.length
  | _ => none

/-- Of the beginning of a unit, and of a request to run a tree: whether it is the beginning, the
number of inputs and the operations of the tree. -/
def Event.kernel? : Event α → Option (Bool × Nat × List Opcode)
  | .before context tree => some (true, context.inputs, tree.nodes.filterMap Tree.code?)
  | .request _ _ (.query (.execute tree _ inputs)) =>
    some (false, inputs.length, tree.nodes.filterMap Tree.code?)
  | _ => none

/-- A beginning with a request to run a tree right after it. -/
theorem Event.exists_kernel {journal : List (Event α)} {m n : Nat} {codes codes' : List Opcode}
    {before after : List (Option (Bool × Nat × List Opcode))}
    (h : journal.map Event.kernel?
      = before ++ some (true, m, codes) :: some (false, n, codes') :: after) :
    ∃ earlier context tree device counted tree' output inputs later,
      journal = earlier ++ [.before context tree]
          ++ .request device counted (.query (.execute tree' output inputs)) :: later
        ∧ context.inputs = m ∧ inputs.length = n ∧ tree.nodes.filterMap Tree.code? = codes
        ∧ tree'.nodes.filterMap Tree.code? = codes' := by
  obtain ⟨earlier, rest, rfl, -, hrest⟩ := List.map_eq_append_iff.mp h
  obtain ⟨begin, rest, rfl, hbegin, hrest⟩ := List.map_eq_cons_iff.mp hrest
  obtain ⟨request, later, rfl, hrequest, -⟩ := List.map_eq_cons_iff.mp hrest
  obtain ⟨context, tree, rfl⟩ : ∃ context tree, begin = .before context tree := by
    unfold Event.kernel? at hbegin
    split at hbegin <;> simp_all
  obtain ⟨device, counted, tree', output, inputs, rfl⟩ : ∃ device counted tree' output inputs,
      request = .request device counted (.query (.execute tree' output inputs)) := by
    unfold Event.kernel? at hrequest
    split at hrequest <;> simp_all
  simp only [Event.kernel?, Option.some.injEq, Prod.mk.injEq, true_and] at hbegin hrequest
  exact ⟨earlier, context, tree, device, counted, tree', output, inputs, later, by simp, hbegin.1,
    hrequest.1, hbegin.2, hrequest.2⟩

namespace Session

/-- In every reachable session, every request to run a tree came from the unit of a kernel that had
just begun. Each leaf of its tree before compiling has become a literal with the folded result of its
base, or with the scalar of a scalar load, or reads the result of its base among the inputs; no input
is folded or left unread. No such unit ended before its request, unless its device is not known. -/
theorem Reachable.arguments_line_up [Lane α] {devices : Registry α} {s : Session α}
    (hs : s.Reachable devices) {earlier later : List (Event α)} {event : Event α}
    (hjournal : s.engine.journal = earlier ++ event :: later) :
    event.Aligned s.engine.graph earlier := by
  obtain ⟨W, hsound⟩ := hs.sound
  exact hsound.1.aligned earlier event later hjournal

/-- A kernel adds an array to the result of a loader, which is a folded constant. -/
def lateFive : Session Int :=
  let run (s : Session Int) (c : Command Int) : Session Int := (s.step hostDevices c).2
  let s := run {} (.define "x" (.load .custom (.ofNats [1]) .i32 "cpu"
    (.ok (.loader (.fixed (.constant 5 .i32)))) [] {}))
  let s := run s (.define "y" (.upload [1] .i32 #[3] "cpu" {}))
  let s := run s (.define "z" (.elementwise "x" (.binary .add) ["y"] (.ok .none)))
  run s (.realize "z")

/-- The kernel was scheduled with two slots and is run with one input. -/
theorem arguments_line_up_lateFive : ∃ earlier event later,
    lateFive.engine.journal = earlier ++ event :: later ∧ event.inputCount? = some 1
      ∧ earlier.getLast?.bind Event.inputCount? = some 2
      ∧ event.Aligned lateFive.engine.graph earlier := by
  have hs : lateFive.Reachable hostDevices := .step (.step (.step (.step .start _) _) _) _
  have hcounts : lateFive.engine.journal.map Event.inputCount?
      = [none, some 0, none, none, some 2] ++ some 1 :: [none] := by decide +kernel
  obtain ⟨earlier, rest, hjournal, hearlier, hrest⟩ := List.map_eq_append_iff.mp hcounts
  obtain ⟨event, later, rfl, hevent, -⟩ := List.map_eq_cons_iff.mp hrest
  have hslots : earlier.getLast?.map Event.inputCount? = some (some 2) := by
    rw [← List.getLast?_map, hearlier]
    rfl
  obtain ⟨begin, hbegin, hslots⟩ := Option.map_eq_some_iff.mp hslots
  exact ⟨earlier, event, later, hjournal, hevent, by rw [hbegin]; exact hslots,
    hs.arguments_line_up hjournal⟩

/-- In every reachable session, every request to run a tree comes right after the beginning of the
unit of a kernel. The tree, and the number of inputs, are those that the beginning told of exactly if
no base behind a slot of the schedule is a folded constant. -/
theorem Reachable.announced_iff [Lane α] {devices : Registry α} {s : Session α}
    (hs : s.Reachable devices) {earlier later : List (Event α)} {device : String} {counted : Bool}
    {tree : Tree α} {output : Buffer} {inputs : List (Block α)}
    (hjournal : s.engine.journal
      = earlier ++ .request device counted (.query (.execute tree output inputs)) :: later) :
    ∃ (item : Item α) (context : UnitRecord) (before : List (Event α)),
      item.Planned s.engine.graph ∧ item.output = output
        ∧ earlier = before ++ [.before context item.tree]
        ∧ context.output = output.id ∧ context.load = none ∧ context.inputs = item.slots.length
        ∧ (∀ slot ∈ item.slots, s.engine.graph.isRealized slot = true)
        ∧ (tree = item.tree ↔ ∀ slot ∈ item.slots, s.engine.graph.foldedScalar? slot = none)
        ∧ (inputs.length = context.inputs
            ↔ ∀ slot ∈ item.slots, s.engine.graph.foldedScalar? slot = none) := by
  obtain ⟨W, hsound⟩ := hs.sound
  obtain ⟨item, context, hplanned, hload, hbegins, rfl, hruns⟩ :=
    hsound.1.traced earlier _ later hjournal
  obtain ⟨before, hearlier⟩ := hbegins.last
  exact ⟨item, context, before, hplanned, rfl, hearlier, hbegins.output, hbegins.load.trans hload,
    hbegins.slots, hruns.realized, hruns.tree, hbegins.slots ▸ hruns.inputs⟩

/-- Two lanes are negated. -/
def realizedPair : Session Int := (negatedPair.step hostDevices (.realize "y")).2

/-- The kernel runs as it was announced. -/
theorem announced_iff_realizedPair : ∃ earlier context tree later device counted output inputs,
    realizedPair.engine.journal = earlier ++ [.before context tree]
        ++ .request device counted (.query (.execute tree output inputs)) :: later
      ∧ inputs.length = context.inputs := by
  have hs : realizedPair.Reachable hostDevices := .step (.step (.step .start _) _) _
  have hkernels : realizedPair.engine.journal.map Event.kernel?
      = [none] ++ some (true, 1, [.unary .neg, .leaf .slot])
        :: some (false, 1, [.unary .neg, .leaf .slot]) :: [none] := by decide +kernel
  obtain ⟨earlier, context, tree, device, counted, tree', output, inputs, later, hjournal, hslots,
    hinputs, -, -⟩ := Event.exists_kernel hkernels
  obtain ⟨item, context', before, -, -, hbegins, -, -, -, -, htree, hcount⟩ :=
    hs.announced_iff hjournal
  obtain ⟨rfl, hbegins⟩ := List.append_inj' hbegins rfl
  obtain ⟨rfl, rfl⟩ : context = context' ∧ tree = item.tree := by simpa using hbegins
  have hsame : inputs.length = context.inputs := hinputs.trans hslots.symm
  obtain rfl : tree' = item.tree := htree.mpr (hcount.mp hsame)
  exact ⟨earlier, context, item.tree, later, device, counted, output, inputs, hjournal, hsame⟩

/-- The result of a loader is negated on a device that fails at everything. -/
def rejectedFive : Session Int :=
  let run (s : Session Int) (c : Command Int) : Session Int :=
    (s.step [("broken", .broken)] c).2
  let s := run {} (.define "x" (.load .custom (.ofNats [1]) .i32 "broken"
    (.ok (.loader (.fixed (.constant 5 .i32)))) [] {}))
  let s := run s (.define "z" (.elementwise "x" (.unary .neg) [] (.ok .none)))
  run s (.realize "z")

/-- The unit was announced with the kernel that reads the result, and the device is asked to negate
a literal. -/
theorem renames_rejectedFive : rejectedFive.Reachable [("broken", .broken)]
    ∧ ∃ earlier context tree later device counted tree' output inputs,
      rejectedFive.engine.journal = earlier ++ [.before context tree]
          ++ .request device counted (.query (.execute tree' output inputs)) :: later
        ∧ tree' ≠ tree ∧ context.inputs = 1 ∧ inputs.length = 0 := by
  refine ⟨.step (.step (.step .start _) _) _, ?_⟩
  have hkernels : rejectedFive.engine.journal.map Event.kernel?
      = [some (true, 0, [.load .custom]), none, none]
        ++ some (true, 1, [.unary .neg, .leaf .slot])
        :: some (false, 0, [.unary .neg, .leaf .literal]) :: [none] := by decide +kernel
  obtain ⟨earlier, context, tree, device, counted, tree', output, inputs, later, hjournal, hslots,
    hinputs, hscheduled, hrun⟩ := Event.exists_kernel hkernels
  refine ⟨earlier, context, tree, later, device, counted, tree', output, inputs, hjournal, ?_, hslots,
    hinputs⟩
  rintro rfl
  rw [hscheduled] at hrun
  exact absurd hrun (by decide)

end Session

end TensorGraph
