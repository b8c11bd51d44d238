import TensorGraph.Arithmetic
/-!
# Classes of characters

A class of characters is a list of closed ranges of code points, in ascending order and apart from
each other. The tables of this folder follow version 17.0 of Unicode.

- `Ranges.has`: whether a character belongs to a class.
- `Ranges.size`, `Ranges.isAscending`: what a table is checked by.
-/

namespace TensorGraph.Text

open scoped CoreArithmetic

/-- A class of characters, as the first and the last code point of each of its ranges. -/
abbrev Ranges := List (Nat × Nat)

/-- Whether a character belongs to the class. -/
def Ranges.has (rs : Ranges) (c : Char) : Bool := rs.any fun (a, b) => a ≤ c.toNat && c.toNat ≤ b

/-- The number of code points in the class. -/
def Ranges.size (rs : Ranges) : Nat := (rs.map fun (a, b) => b + 1 - a).sum

/-- Whether the ranges ascend, with a gap between each and the next. -/
def Ranges.isAscending : Ranges → Bool
  | [] => true
  | [r] => r.1 ≤ r.2
  | r :: s :: rest => r.1 ≤ r.2 && r.2 + 1 < s.1 && isAscending (s :: rest)

end TensorGraph.Text
