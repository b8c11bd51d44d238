import TensorGraph.Config
import TensorGraph.Text.Ranges
/-!
# Settings

Two settings that a user may leave unset: the fusion level and the default device. Blank
characters around them do not count, and a blank setting counts as unset.

- `Text.isBlank`, `Text.trim`: the blank characters, and a text without those around it.
- `Settings.fusion`: the fusion that a level setting asks for.
- `Settings.device`: the device that a device setting asks for.
-/

namespace TensorGraph

namespace Text

/-- The code points with the property `White_Space`. -/
def blankRanges : Ranges :=
  [(0x9, 0xD), (0x20, 0x20), (0x85, 0x85), (0xA0, 0xA0), (0x1680, 0x1680), (0x2000, 0x200A),
    (0x2028, 0x2029), (0x202F, 0x202F), (0x205F, 0x205F), (0x3000, 0x3000)]

/-- There are twenty-five blank characters, in ascending ranges. -/
example : blankRanges.isAscending = true ∧ blankRanges.size = 25 := by decide

/-- Whether a character is blank. -/
def isBlank (c : Char) : Bool := blankRanges.has c

/-- A text without the blank characters at both of its ends. -/
def trim (cs : List Char) : List Char := ((cs.dropWhile isBlank).reverse.dropWhile isBlank).reverse

end Text

namespace Settings

/-- The setting without blank characters around it, unless nothing remains. -/
def value? (setting : Option String) : Option (List Char) :=
  match Text.trim (setting.getD "").toList with
  | [] => none
  | cs => some cs

/-- The number that decimal digits name. -/
def digits? (cs : List Char) : Option Nat :=
  cs.foldlM (fun n c => if c.isDigit then some (10 * n + (c.toNat - '0'.toNat)) else none) 0

/-- A number of one byte in decimal digits, with or without a plus sign. -/
def byte? (cs : List Char) : Option Nat := do
  let digits := match cs with
    | '+' :: rest => rest
    | _ => cs
  if digits.isEmpty then none
  else
    let n ← digits? digits
    if n < 256 then some n else none

/-- The fusion that a level setting asks for; one that is no level asks for nothing. -/
def fusion (level : Option String) : Fusion :=
  ((value? level).bind byte?).elim .oneReduce Fusion.ofLevel

/-- The device that a device setting asks for. -/
def device (name : Option String) : String := (value? name).elim "cpu" String.ofList

end Settings

end TensorGraph
