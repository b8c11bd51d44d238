import TensorGraph.Graph.Build
import TensorGraph.Proofs.Meaning.Tree
import TensorGraph.Random.ChaCha
/-!
# The reference meaning

What a program means if every operation is done on its own, on the dense contents of its operands,
and rounded to its element type. No fusion is in sight here; the layout that a tensor carries along
only decides whether a reduction is done in two passes.

- `Tensor`: a dense tensor with its layout and its configuration.
- `Tensor.move`, `Tensor.constant`, `Tensor.elementwise`, `Tensor.reduce`: the operations.
- `Buffer.Shows`: a buffer that shows a tensor.
-/

namespace TensorGraph

variable {α : Type} [Lane α]

/-- A tensor of the reference meaning. -/
structure Tensor (α : Type) where
  /-- The movements since the tensor was last dense. -/
  layout : Tracker
  /-- How operations on the tensor are split; how they are merged does not matter. -/
  config : Config
  /-- The elements. -/
  dense : Dense α

namespace Tensor

omit [Lane α]

/-- The extents. -/
abbrev dims (t : Tensor α) : List Nat := t.dense.dims

/-- A tensor as an operation leaves it behind. -/
def stored (config : Config) (x : Dense α) : Tensor α := ⟨.ofShape (.ofNats x.dims), config, x⟩

/-- The tensor after a movement, unless it is refused. -/
def move (t : Tensor α) (m : Movement) : Option (Tensor α) :=
  match t.layout.move m with
  | .ok layout => layout.shape.static?.map fun new =>
    { t with layout, dense := ⟨new, t.dense.dtype, fun i => t.dense.lane (m.sourceAt t.dims new i)⟩ }
  | .error _ => none

/-- A dense copy of the tensor. -/
def copy (t : Tensor α) : Tensor α := stored t.config t.dense

end Tensor

namespace Tensor

/-- Uploaded lanes. -/
def upload (dims : List Nat) (dtype : DType) (lanes : Array α) (config : Config) : Tensor α :=
  stored config ⟨dims, dtype, fun i => Lane.round dtype (lanes[i]?.getD Lane.zero)⟩

/-- A scalar repeated to a shape. -/
def constant (value : α) (shape : Shape) (dtype : DType) (config : Config) : Option (Tensor α) := do
  let ones ← (stored config ⟨[], dtype, fun _ => Lane.round dtype value⟩).move
    (.reshape (.ofNats (List.replicate shape.rank 1)))
  ones.move (.expand shape)

/-- A tensor of zeros. -/
def empty (dims : List Nat) (dtype : DType) (config : Config) : Tensor α :=
  stored config ⟨dims, dtype, fun _ => Lane.round dtype Lane.zero⟩

/-- The lanes that a generator makes of a seed for a tensor of `n` elements. -/
def randomLane (seed : UInt64) (n i : Nat) : α :=
  ((ChaCha.words seed n).map Lane.sample)[i]?.getD Lane.zero

/-- A tensor of random samples. -/
def rand (dims : List Nat) (dtype : DType) (seed : UInt64) (config : Config) : Tensor α :=
  stored config ⟨dims, dtype, fun i => Lane.round dtype (randomLane seed dims.prod i)⟩

/-- An operation element by element on `t` and `others`. -/
def elementwise (t : Tensor α) (code : Opcode) (others : List (Tensor α)) (arg : Arg α) :
    Tensor α :=
  stored t.config (.pointwise code arg ((t :: others).map Tensor.dense))

/-- A reduction in one pass; the tensor itself if nothing is left to fold. -/
def reduceOnce (t : Tensor α) (op : ReduceOp) (new : List Nat) : Tensor α :=
  if new = t.dims then t else stored t.config (.reduce op new t.dense)

/-- A reduction in two passes. -/
def reduceTwice (t : Tensor α) (op : ReduceOp) (new : List Nat) (s : Split) :
    Option (Tensor α) := do
  let cut ← t.move (.reshape (s.shape t.dims [s.divisor]))
  let outer ← (cut.reduceOnce op (s.dims t.dims [1])).move (.reshape (s.shape t.dims []))
  return outer.reduceOnce op new

/-- A reduction to the extents `new`, in two passes where the policy asks for it. -/
def reduce (t : Tensor α) (op : ReduceOp) (new : List Nat) : Option (Tensor α) :=
  if new = t.dims then some t
  else match t.config.split.choose t.dims new t.layout.axisStrides with
    | some s => t.reduceTwice op new s
    | none => some (t.reduceOnce op new)

end Tensor

/-- The buffer shows the tensor. -/
structure Buffer.Shows (v : Valuation α) (b : Buffer) (t : Tensor α) : Prop where
  /-- The buffer has moved like the tensor. -/
  layout : b.tracker = t.layout
  /-- Operations on it are split alike. -/
  config : b.config = t.config
  /-- Every position is found. -/
  into : b.Into t.dims
  /-- The lanes are those of the tensor. -/
  lanes : Dense.Matches t.dims.prod (b.dense v) t.dense

end TensorGraph
