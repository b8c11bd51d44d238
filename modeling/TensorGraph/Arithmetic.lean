/-!
# Arithmetic of natural numbers and of words

Products, sums and powers of natural numbers are those of the core library. Theories bring instances
of their own along, which are equal to these; a definition means the same with and without them.

Extents and counts are unsigned words of 64 bits, and places, strides and offsets are signed ones. A
result that does not fit into its word stops the computation. What is computed on the way to a value
is therefore listed beside the value, as numbers without bounds, so that one can ask whether all of
them fit.

- `CoreArithmetic.oneNat`, `CoreArithmetic.zeroNat`: the empty product and the empty sum.
- `CoreArithmetic.powNat`: powers.
- `fitsCount`, `fitsWord`: whether a number is an unsigned or a signed word.
- `residue`: an unsigned word read as a signed one.
-/

namespace TensorGraph

namespace CoreArithmetic

scoped instance (priority := 2000) oneNat : One Nat := One.ofOfNat1

scoped instance (priority := 2000) zeroNat : Zero Nat := Zero.ofOfNat0

scoped instance (priority := 2000) powNat : Pow Nat Nat := instPowNat

end CoreArithmetic

/-- Whether the number is an unsigned word of 64 bits. -/
def fitsCount (n : Nat) : Bool := decide (n < 0x10000000000000000)

/-- Whether the number is a signed word of 64 bits. -/
def fitsWord (n : Int) : Bool := decide (-0x8000000000000000 ≤ n ∧ n < 0x8000000000000000)

/-- The number that an unsigned word stands for when it is read as a signed one: a number beyond the
signed words loses `2 ^ 64`. -/
def residue (n : Nat) : Int := (Int64.ofNat n).toInt

/-- The running products of `ns`, from `start` on. -/
def runningProducts : (start : Nat) → (ns : List Nat) → List Nat
  | _, [] => []
  | start, n :: ns => start * n :: runningProducts (start * n) ns

/-- What is computed while `f` gathers operands one by one: each operand, followed by the result up to
it. -/
def runningResults (f : Int → Int → Int) : (start : Int) → (operands : List Int) → List Int
  | _, [] => []
  | start, x :: operands => x :: f start x :: runningResults f (f start x) operands

end TensorGraph
