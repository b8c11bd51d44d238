import TensorGraph.DType
import TensorGraph.Opcode
/-!
# Lanes

All arithmetic is done on lanes of one carrier, and a result is rounded to the element type it is
stored in. The carrier is left open: `Lane` holds its operations, and nothing else in the library
looks inside a lane.

- `Lane`: the operations of a carrier.
- `Lane.unary`: an operation on one element; the identity and the conversion pass the lane on,
  since rounding to the target type is what converts.
- `LawfulLane`: rounding to a type twice is rounding once.
-/

namespace TensorGraph

/-- The operations on the lanes of a carrier. -/
class Lane (α : Type) where
  /-- The value of hidden positions. -/
  zero : α
  /-- The value nearest to a lane among those an element type can hold. -/
  round : DType → α → α
  /-- An operation on one element other than the identity and the conversion. -/
  compute : UnaryOp → α → α
  /-- An operation on two elements. -/
  binary : BinaryOp → α → α → α
  /-- The product of the first two lanes plus the third. -/
  mulAcc : α → α → α → α
  /-- Whether a lane counts as true. -/
  isTrue : α → Bool
  /-- The lane from which a reduction starts. -/
  start : ReduceOp → α
  /-- One step of a reduction. -/
  fold : ReduceOp → α → α → α
  /-- The uniform sample that a word of a generator stands for. -/
  sample : UInt32 → α
  /-- The text of a lane in printed trees. -/
  text : α → String
  /-- The text of a lane in descriptions of arguments, where a whole number shows its fraction. -/
  describe : α → String

/-- Rounding gives a value that the type can hold, so rounding again changes nothing. -/
class LawfulLane (α : Type) [Lane α] : Prop where
  /-- Rounding to a type twice is rounding once. -/
  round_round (d : DType) (x : α) : Lane.round d (Lane.round d x) = Lane.round d x

namespace Lane

variable {α : Type} [Lane α]

/-- An operation on one element. -/
def unary (op : UnaryOp) (x : α) : α :=
  match op with
  | .noop | .cast => x
  | op => compute op x

@[simp] theorem unary_noop (x : α) : unary .noop x = x := rfl

@[simp] theorem unary_cast (x : α) : unary .cast x = x := rfl

end Lane

end TensorGraph
