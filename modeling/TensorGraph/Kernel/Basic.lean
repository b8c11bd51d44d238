import TensorGraph.Tree.Text
/-!
# Kernels

A kernel is a compiled tree after all checks: every node knows its element type, and a leaf its
extents. The interpreter runs kernels.

- `Kernel`: the checked trees.
- `Kernel.dims`: the extents of the result of a node.
- `Kernel.ofTree`: checks a tree.
- `Kernel.Fault`: why a tree is no kernel, or why a kernel fails.
-/

namespace TensorGraph

/-- A tree ready to be evaluated. -/
inductive Kernel (α : Type) where
  /-- Reads the input with index `input`. -/
  | read (input : Nat) (tracker : Tracker) (extents : List Nat) (type : DType)
  /-- Repeats a scalar. -/
  | literal (value : α) (tracker : Tracker) (extents : List Nat) (type : DType)
  /-- An operation on one element. -/
  | unary (op : UnaryOp) (type : DType) (x : Kernel α)
  /-- An operation on two elements. -/
  | binary (op : BinaryOp) (type : DType) (x y : Kernel α)
  /-- An operation on three elements. -/
  | ternary (op : TernaryOp) (type : DType) (x y z : Kernel α)
  /-- Folds the axes along which `extents` differs from the extents of the source. -/
  | reduce (op : ReduceOp) (extents : List Nat) (type : DType) (x : Kernel α)

namespace Kernel

variable {α : Type}

/-- The extents of the result; an elementwise operation has those of its first source. -/
def dims : Kernel α → List Nat
  | read _ _ extents _ => extents
  | literal _ _ extents _ => extents
  | unary _ _ x => x.dims
  | binary _ _ x _ => x.dims
  | ternary _ _ x _ _ => x.dims
  | reduce _ extents _ _ => extents

/-- The element type that the result is rounded to. -/
def dtype : Kernel α → DType
  | read _ _ _ type => type
  | literal _ _ _ type => type
  | unary _ type _ => type
  | binary _ type _ _ => type
  | ternary _ type _ _ _ => type
  | reduce _ _ type _ => type

/-- Why a tree cannot be run, or why its run fails. -/
inductive Fault where
  /-- A shape has symbolic extents. -/
  | symbolic (shape : Shape)
  /-- A buffer was not replaced. -/
  | unresolved (id : Nat)
  /-- A node has another number of sources than its operation takes. -/
  | sourceCount (code : Opcode) (expected given : Nat)
  /-- A slot read does not say what to read. -/
  | noSlot
  /-- A slot does not exist. -/
  | slotRange (slot inputs : Nat)
  /-- A literal has no value. -/
  | noValue
  /-- A conversion names no target type. -/
  | noTarget
  /-- A reduction names no output shape. -/
  | noShape
  /-- A reduction changes the number of axes. -/
  | reduceRank (output : Shape) (rank : Nat)
  /-- An operation has no place in a kernel. -/
  | misplaced (code : Opcode)
  /-- The tree has another number of elements than the output. -/
  | elementCount (tree output : Nat)
  /-- A slot is read beyond its end. -/
  | pastEnd (slot place size : Nat)
  /-- An input could not be read. -/
  | storage (cause : BackendError)
  /-- Arithmetic left the words when a place was looked for. -/
  | overflow
deriving DecidableEq, Repr

namespace Fault

/-- The failure that a device reports for a fault. -/
def report : Fault → BackendError
  | symbolic shape => .unimplemented "exec" s!"symbolic shape {shape}"
  | unresolved id => .execution s!"unresolved buffer leaf buf{id}"
  | sourceCount code expected given =>
    .execution s!"{code} expects {expected} source(s), got {given}"
  | noSlot => .execution "MEM leaf without a slot descriptor"
  | slotRange slot inputs => .execution s!"MEM slot {slot} out of range for {inputs} input(s)"
  | noValue => .execution "CONST leaf without a value"
  | noTarget => .execution "CAST without a target dtype"
  | noShape => .execution "reduce without an output shape"
  | reduceRank output rank => .execution s!"reduce to {output} from rank {rank}"
  | misplaced code => .unimplemented "exec" s!"{code} cannot appear in a kernel"
  | elementCount tree output =>
    .execution s!"tree computes {tree} elements but the output holds {output}"
  | pastEnd slot place size =>
    .execution s!"slot {slot} read at {place} past its {size} element(s)"
  | storage cause => cause
  | overflow => .overflow

end Fault

/-- The extents of a shape as numbers. -/
def knownDims (shape : Shape) : Except Fault (List Nat) :=
  match shape.static? with
  | some dims => .ok dims
  | none => .error (.symbolic shape)

/-- The node for a read of one of `inputs` inputs. -/
def ofSlot (inputs : Nat) : Arg α → Except Fault (Kernel α)
  | .slot r => do
    if r.slot = 0 || inputs < r.slot then throw (.slotRange r.slot inputs)
    return read (r.slot - 1) r.tracker (← knownDims r.tracker.shape) r.dtype
  | _ => throw .noSlot

/-- The node for a literal. -/
def ofLiteral : Arg α → Except Fault (Kernel α)
  | .literal l => do return literal l.value l.tracker (← knownDims l.tracker.shape) l.dtype
  | _ => throw .noValue

/-- The node for an operation on one element: a conversion has its target type, every other
operation the type of its source. -/
def ofUnary (op : UnaryOp) (arg : Arg α) (x : Kernel α) : Except Fault (Kernel α) :=
  match op, arg with
  | .cast, .target type => return unary .cast type x
  | .cast, _ => throw .noTarget
  | op, _ => return unary op x.dtype x

/-- The node for a reduction. -/
def ofReduce (op : ReduceOp) (arg : Arg α) (x : Kernel α) : Except Fault (Kernel α) := do
  match arg.shape? with
  | none => throw .noShape
  | some shape =>
    let extents ← knownDims shape
    if extents.length ≠ x.dims.length then throw (.reduceRank shape x.dims.length)
    return reduce op extents x.dtype x

/-- The node for an operation on checked sources. -/
def ofNode (inputs : Nat) (code : Opcode) (arg : Arg α) (sources : List (Kernel α)) :
    Except Fault (Kernel α) :=
  match code, sources with
  | .leaf .slot, _ => ofSlot inputs arg
  | .leaf .literal, _ => ofLiteral arg
  | .unary op, [x] => ofUnary op arg x
  | .unary _, _ => throw (.sourceCount code 1 sources.length)
  | .binary op, [x, y] => return binary op (x.dtype.wider y.dtype) x y
  | .binary _, _ => throw (.sourceCount code 2 sources.length)
  | .ternary op, [x, y, z] => return ternary op ((x.dtype.wider y.dtype).wider z.dtype) x y z
  | .ternary _, _ => throw (.sourceCount code 3 sources.length)
  | .reduce op, [x] => ofReduce op arg x
  | .reduce _, _ => throw (.sourceCount code 1 sources.length)
  | .load _, _ => throw (.misplaced code)

mutual

/-- The kernel of a tree that reads `inputs` inputs. Sources are checked before the node. -/
def ofTree (inputs : Nat) : Tree α → Except Fault (Kernel α)
  | .buffer b => throw (.unresolved b.id)
  | .node code arg _ sources => do ofNode inputs code arg (← ofTrees inputs sources)

/-- The kernels of several trees. -/
def ofTrees (inputs : Nat) : List (Tree α) → Except Fault (List (Kernel α))
  | [] => return []
  | t :: ts => do return (← ofTree inputs t) :: (← ofTrees inputs ts)

end

end Kernel

end TensorGraph
