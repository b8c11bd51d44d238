import TensorGraph.Fusion
import TensorGraph.Slots
/-!
# Schedules

A schedule lists the units of work that realize a base: each unit produces one base from bases
that are realized already or come earlier in the list.

- `Item`: a unit of work.
- `Buffer.lower`: the unit that produces a base.
- `Buffer.schedule`: the units that realize the base of a buffer.
-/

namespace TensorGraph

/-- A unit of work: a load, or a kernel. -/
structure Item (α : Type) where
  /-- The load as it was built, or the compiled tree of the kernel. -/
  tree : Tree α
  /-- The base that the unit realizes. -/
  output : Buffer
  /-- The buffers that the kernel reads; none for a load. -/
  inputs : List Buffer
  /-- The bases behind the slots of the kernel; none for a load. -/
  slots : List Buffer
  /-- The tree before its buffers were replaced. -/
  fused : Tree α

namespace Item

variable {α : Type}

/-- Whether the unit is a load. -/
def isLoad (item : Item α) : Bool := item.tree.codeIs Opcode.isLoad

/-- The load that the unit is, if it is one. -/
def load? (item : Item α) : Option LoadOp := item.tree.code?.bind Opcode.load?

/-- The handles that a unit holds. -/
def handles (item : Item α) : List Buffer :=
  item.output :: item.inputs ++ item.slots ++ item.fused.leaves

end Item

namespace Buffer

variable {α : Type}

/-- The operation that a base is computed by: a dense copy is the identity on its source. -/
def lowered (base : Buffer) : Tree α → Tree α
  | .node (.load .contiguous) _ _ sources =>
    .node (.unary .noop) .none (some base.id) sources
  | op => op

/-- The tree of the kernel that computes a base, with the producers that join it. -/
def fuse (base : Buffer) (held : List Buffer) (op : Tree α) (code : Opcode) : Build α (Tree α) := do
  let fusion := base.config.fusion
  match code with
  | .unary _ | .binary _ | .ternary _ => op.joinReduction held base.shape fusion
  | .reduce _ => return op.joinProducer (← get) held fusion
  | code => throw (.notComputable code)

/-- The unit that produces a base. -/
def lower (base : Buffer) (held : List Buffer) : Build α (Item α) := do
  let g ← get
  match (g.op? base).map base.lowered with
  | some op@(.node code _ _ _) =>
    if code.isLoad then
      return { tree := op, output := base, inputs := [], slots := [], fused := op }
    let fused ← base.fuse held op code
    let compiled ← (← get).compile fused
    return { tree := compiled.tree, output := base, inputs := fused.buffers,
             slots := compiled.slots, fused := fused }
  | _ => throw (.noOperation (g.summary base))

end Buffer

/-- A schedule in the making. -/
structure Plan (α : Type) where
  /-- The units in the order in which they were lowered, whether or not their inputs are
  scheduled yet. All of them are held until the schedule is complete. -/
  lowered : List (Item α) := []
  /-- The units whose inputs are scheduled, in the order in which they will run. -/
  ready : List (Item α) := []

namespace Plan

variable {α : Type}

/-- The handles that a plan holds. -/
def handles (p : Plan α) : List Buffer := p.lowered.flatMap Item.handles

/-- Whether the base is in the plan. -/
def contains (p : Plan α) (base : Buffer) : Bool :=
  p.lowered.any fun item => item.output.id = base.id

/-- Adds the unit for `base` and, before it, the units for its inputs. The number of steps bounds
the depth of the search; as inputs are older than what reads them, the number of the base is
enough. -/
def add (held : List Buffer) : Nat → Buffer → Plan α → Build α (Plan α)
  | 0, base, _ => throw (.outOfOrder base.id)
  | steps + 1, base, plan => do
    if (← get).isRealized base || plan.contains base then return plan
    let item ← base.lower (held ++ plan.handles)
    let plan ← item.inputs.foldlM (fun plan input => add held steps input.root plan)
      { plan with lowered := plan.lowered ++ [item] }
    return { plan with ready := plan.ready ++ [item] }

end Plan

/-- The units that realize the base of a buffer, inputs first and each base once. -/
def Buffer.schedule {α : Type} (b : Buffer) (held : List Buffer) : Build α (List (Item α)) := do
  let plan ← Plan.add (b :: held) (b.base.id + 1) b.root {}
  return plan.ready

end TensorGraph
