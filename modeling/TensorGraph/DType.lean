/-!
# Element types

`DType` names the element types a tensor may have.

- `DType.rank`: the promotion order, in which a wider type stands later.
- `DType.widest`: the type in which operands of several types meet.
-/

namespace TensorGraph

/-- The type of the elements of a tensor. -/
inductive DType where
  /-- Truth values, one byte each. -/
  | bool
  /-- Signed integers of 32 bits. -/
  | i32
  /-- Binary floating point of 32 bits. -/
  | f32
  /-- Binary floating point of 64 bits. -/
  | f64
deriving DecidableEq, Repr

namespace DType

/-- The place of a type in the promotion order. -/
def rank : DType → Nat
  | bool => 0
  | i32 => 1
  | f32 => 2
  | f64 => 3

/-- The number of bytes that one element takes. -/
def size : DType → Nat
  | bool => 1
  | i32 => 4
  | f32 => 4
  | f64 => 8

/-- Whether the elements are floating-point numbers. -/
def isFloat : DType → Bool
  | f32 | f64 => true
  | bool | i32 => false

/-- Whether the elements are integers; truth values are not. -/
def isInt : DType → Bool
  | i32 => true
  | bool | f32 | f64 => false

/-- The name under which a type appears in printed trees and messages. -/
def name : DType → String
  | bool => "Bool"
  | i32 => "I32"
  | f32 => "F32"
  | f64 => "F64"

instance : ToString DType := ⟨name⟩

/-- The later of two types in the promotion order. -/
def wider (a b : DType) : DType := if a.rank ≤ b.rank then b else a

/-- The latest type of a list in the promotion order, or `none` for no types at all. -/
def widest : List DType → Option DType
  | [] => none
  | d :: ds => some (ds.foldl wider d)

end DType

end TensorGraph
