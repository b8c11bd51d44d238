import TensorGraph.Arithmetic
/-!
# Shortest decimal text of a binary number

A binary number `m · 2 ^ e` is written with the fewest decimal digits that still tell it apart
from its neighbours, and among those with the digits nearest to it.

- `Binary`: a positive binary number with the reals that round to it.
- `Binary.shortest`: the shortest decimal that reads back as the number.
- `Decimal.positional`, `Decimal.scientific`: the two ways to write a decimal.
-/

namespace TensorGraph

open scoped CoreArithmetic

/-- The positive number `mantissa · 2 ^ exponent` of a binary format. -/
structure Binary where
  /-- The digits of the number. -/
  mantissa : Nat
  /-- The power of two they are scaled by. -/
  exponent : Int
  /-- Whether the next smaller number of the format is only half as far away as the next larger
  one, as it is for a power of two. -/
  narrow : Bool
deriving DecidableEq, Repr

/-- The number `digits · 10 ^ exponent`. -/
structure Decimal where
  /-- The digits of the number. -/
  digits : Nat
  /-- The power of ten they are scaled by. -/
  exponent : Int
deriving DecidableEq, Repr

namespace Binary

/-- The factor that makes quarters of the last binary digit comparable on the grid of `10 ^ p`. -/
def binaryScale (b : Binary) (p : Int) : Nat := 2 ^ (b.exponent - 2).toNat * 10 ^ (-p).toNat

/-- The factor that makes multiples of `10 ^ p` comparable to quarters of the last binary digit. -/
def decimalScale (b : Binary) (p : Int) : Nat := 10 ^ p.toNat * 2 ^ (2 - b.exponent).toNat

/-- Whether `d · 10 ^ p` rounds to the number: half a unit of the last place is allowed on each
side, a quarter below a power of two, and the ends count if the mantissa is even. -/
def covers (b : Binary) (d : Nat) (p : Int) : Bool :=
  let point := d * b.decimalScale p
  let low := (4 * b.mantissa - if b.narrow then 1 else 2) * b.binaryScale p
  let high := (4 * b.mantissa + 2) * b.binaryScale p
  if b.mantissa % 2 = 0 then low ≤ point && point ≤ high else low < point && point < high

/-- The multiple of `10 ^ p` that rounds to the number, the nearer one if there are two and the
larger one if they are equally near. -/
def onGrid? (b : Binary) (p : Int) : Option Nat :=
  let value := 4 * b.mantissa * b.binaryScale p
  let below := value / b.decimalScale p
  match b.covers below p, b.covers (below + 1) p with
  | true, true =>
    some (if 2 * value < (2 * below + 1) * b.decimalScale p then below else below + 1)
  | true, false => some below
  | false, true => some (below + 1)
  | false, false => none

/-- The first grid, from that of `10 ^ p` on to finer ones, that has a point which rounds to the
number; `steps` bounds the number of grids. -/
def shortestFrom (b : Binary) : Nat → Int → Decimal
  | 0, p => ⟨4 * b.mantissa * b.binaryScale p / b.decimalScale p, p⟩
  | steps + 1, p =>
    match b.onGrid? p with
    | some d => ⟨d, p⟩
    | none => b.shortestFrom steps (p - 1)

/-- The decimal with the fewest digits that reads back as the number. The search begins above the
leading digit, and seventeen digits are enough for any number of 64 bits. -/
def shortest (b : Binary) : Decimal :=
  let magnitude := (b.mantissa.log2 : Int) + b.exponent
  b.shortestFrom 24 (magnitude * 30103 / 100000 + 2)

end Binary

namespace Decimal

/-- The text of the digits. -/
def digitText (d : Decimal) : List Char := (toString d.digits).toList

/-- All digits in place around the point, without an exponent. A whole number ends in `fraction`. -/
def positional (d : Decimal) (fraction : String) : String :=
  let digits := d.digitText
  match d.exponent with
  | .ofNat zeros => String.ofList (digits ++ List.replicate zeros '0') ++ fraction
  | .negSucc p =>
    let places := p + 1
    if places < digits.length then
      let whole := digits.length - places
      String.ofList (digits.take whole ++ '.' :: digits.drop whole)
    else
      "0." ++ String.ofList (List.replicate (places - digits.length) '0' ++ digits)

/-- One digit before the point and an exponent of ten after it. -/
def scientific (d : Decimal) : String :=
  let digits := d.digitText
  let point := match digits with
    | [] => []
    | c :: [] => [c]
    | c :: rest => c :: '.' :: rest
  String.ofList point ++ "e" ++ toString (d.exponent + digits.length - 1)

end Decimal

end TensorGraph
