import TensorGraph.Decimal.Shortest
import TensorGraph.Lane.Basic
/-!
# Lanes of 64-bit binary floating point

The carrier of the running program: every lane is a 64-bit float, whatever the element type.

- `Binary64.decode?`: the sign, digits and exponent of a finite float.
- `Binary64.remainder`: the exact remainder of the division that truncates.
- `Binary64.text`, `Binary64.describe`: shortest decimal texts.
- The instance `Lane Float`.
-/

namespace TensorGraph

open scoped CoreArithmetic

namespace Binary64

/-- Whether the sign bit is set. -/
def isNegative (x : Float) : Bool := x.toBits >>> 63 = 1

/-- The magnitude of a finite float other than zero, or `none`. -/
def decode? (x : Float) : Option Binary :=
  let bits : Nat := x.toBits.toNat
  let biased : Nat := bits / 2 ^ (52 : Nat) % 2 ^ (11 : Nat)
  let fraction : Nat := bits % 2 ^ (52 : Nat)
  if biased = 2047 || (biased = 0 && fraction = 0) then none
  else if biased = 0 then some ⟨fraction, -1074, false⟩
  else some ⟨2 ^ (52 : Nat) + fraction, (biased : Int) - 1075, fraction = 0 && 1 < biased⟩

/-- The remainder of `x` divided by `y`, with the sign of `x`. It is exact: both magnitudes are
whole multiples of the smaller unit in the last place. -/
def remainder (x y : Float) : Float :=
  if x.isNaN || y.isNaN || x.isInf || y == 0 then 0.0 / 0.0
  else match decode? x, decode? y with
    | some a, some b =>
      let unit := min a.exponent b.exponent
      let rest := (a.mantissa * 2 ^ (a.exponent - unit).toNat)
        % (b.mantissa * 2 ^ (b.exponent - unit).toNat)
      let magnitude := (Float.ofNat rest).scaleB unit
      if isNegative x then -magnitude else magnitude
    -- zero, or a finite dividend below an infinite divisor
    | _, _ => x

/-- The larger of two floats; one that is not a number is passed over. -/
def maximum (x y : Float) : Float :=
  if x.isNaN then y else if y.isNaN then x else if x < y then y else x

/-- The text of a float, given how to write the magnitude of a finite one. -/
def textWith (zero : String) (magnitude : Decimal → String) (x : Float) : String :=
  if x.isNaN then "NaN"
  else
    let text := if x.isInf then "inf" else match decode? x with
      | some b => magnitude b.shortest
      | none => zero
    if isNegative x then "-" ++ text else text

/-- The shortest decimal that reads back, without an exponent. -/
def text (x : Float) : String := textWith "0" (Decimal.positional · "") x

/-- The shortest decimal that reads back, with a fraction in any case, and with an exponent from
ten to the sixteenth on and below ten to the minus fourth. -/
def describe (x : Float) : String :=
  if x.abs < 1e-4 || 1e16 ≤ x.abs then textWith "0.0" Decimal.scientific x
  else textWith "0.0" (Decimal.positional · ".0") x

/-- The float of an element type that a lane is rounded to. Integers are truncated and clamped to
their range, and what is not a number becomes zero. -/
def round : DType → Float → Float
  | .bool, x => if x == 0 then 0 else 1
  | .i32, x => x.toInt32.toFloat
  | .f32, x => x.toFloat32.toFloat
  | .f64, x => x

/-- An operation on one lane. -/
def compute : UnaryOp → Float → Float
  | .noop, x => x
  | .cast, x => x
  | .exp2, x => x.exp2
  | .log2, x => x.log2
  | .sin, x => x.sin
  | .sqrt, x => x.sqrt
  | .recip, x => 1 / x
  | .neg, x => -x

/-- An operation on two lanes. -/
def binary : BinaryOp → Float → Float → Float
  | .add, x, y => x + y
  | .sub, x, y => x - y
  | .mul, x, y => x * y
  | .div, x, y => x / y
  | .max, x, y => maximum x y
  | .mod, x, y => remainder x y
  | .cmpLt, x, y => if x < y then 1 else 0

end Binary64

instance : Lane Float where
  zero := 0
  round := Binary64.round
  compute := Binary64.compute
  binary := Binary64.binary
  mulAcc x y z := x * y + z
  isTrue x := !(x == 0)
  start
    | .sum => 0
    | .max => -1.0 / 0.0
  fold
    | .sum => fun acc x => acc + x
    | .max => Binary64.maximum
  sample word := (word >>> 8).toFloat.scaleB (-24)
  text := Binary64.text
  describe := Binary64.describe

end TensorGraph
