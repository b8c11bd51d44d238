import TensorGraph.Text.Extending
import TensorGraph.Text.Unassigned

/-!
# Quoted text

A text between quotation marks, in which the marks, the backslash and everything that would not
show on a line are escaped.

- `Text.isIgnorable`: the characters that a display leaves out unless it knows them.
- `Text.isHidden`: the characters that do not show by themselves.
- `Text.quoted`: the quoted form of a text.
-/

namespace TensorGraph.Text

/-- The code points with the property `Default_Ignorable_Code_Point`. -/
def ignorableRanges : Ranges :=
  [(0xAD, 0xAD), (0x34F, 0x34F), (0x61C, 0x61C), (0x115F, 0x1160), (0x17B4, 0x17B5),
    (0x180B, 0x180F), (0x200B, 0x200F), (0x202A, 0x202E), (0x2060, 0x206F), (0x3164, 0x3164),
    (0xFE00, 0xFE0F), (0xFEFF, 0xFEFF), (0xFFA0, 0xFFA0), (0xFFF0, 0xFFF8), (0x1BCA0, 0x1BCA3),
    (0x1D173, 0x1D17A), (0xE0000, 0xE0FFF)]

/-- There are 4174 ignorable code points: joiners, fillers, selectors and other marks. -/
example : ignorableRanges.isAscending = true ∧ ignorableRanges.size = 4174 := by decide

/-- Whether a display leaves the character out. -/
def isIgnorable (c : Char) : Bool := ignorableRanges.has c

/-- The controls, the formats, the characters for private use, and the separators other than the
space: general categories `Cc`, `Cf`, `Co`, `Zl`, `Zp` and `Zs`. -/
def invisibleRanges : Ranges :=
  [(0x0, 0x1F), (0x7F, 0xA0), (0xAD, 0xAD), (0x600, 0x605), (0x61C, 0x61C), (0x6DD, 0x6DD),
    (0x70F, 0x70F), (0x890, 0x891), (0x8E2, 0x8E2), (0x1680, 0x1680), (0x180E, 0x180E),
    (0x2000, 0x200F), (0x2028, 0x202F), (0x205F, 0x2064), (0x2066, 0x206F), (0x3000, 0x3000),
    (0xE000, 0xF8FF), (0xFEFF, 0xFEFF), (0xFFF9, 0xFFFB), (0x110BD, 0x110BD), (0x110CD, 0x110CD),
    (0x13430, 0x1343F), (0x1BCA0, 0x1BCA3), (0x1D173, 0x1D17A), (0xE0001, 0xE0001),
    (0xE0020, 0xE007F), (0xF0000, 0xFFFFD), (0x100000, 0x10FFFD)]

/-- There are 137721 invisible characters, in ascending ranges. -/
example : invisibleRanges.isAscending = true ∧ invisibleRanges.size = 137721 := by decide

/-- Whether a character does not show by itself: it is invisible, unassigned, ignorable, or extends
the one before it. The halfwidth sound marks U+FF9E and U+FF9F extend a letter, but take a place of
their own and show. -/
def isHidden (c : Char) : Bool :=
  invisibleRanges.has c || isUnassigned c || isIgnorable c
    || (isExtending c && c != '\uff9e' && c != '\uff9f')

/-- A character as it stands between quotation marks. -/
def escape (c : Char) : List Char :=
  match c with
  | '"' => ['\\', '"']
  | '\\' => ['\\', '\\']
  | '\n' => ['\\', 'n']
  | '\r' => ['\\', 'r']
  | '\t' => ['\\', 't']
  | _ =>
    if c.toNat = 0 then ['\\', '0']
    else if isHidden c then
      ['\\', 'u', '\x7b'] ++ Nat.toDigits 16 c.toNat ++ ['\x7d']
    else [c]

/-- A text between quotation marks. -/
def quoted (s : String) : String := String.ofList ('"' :: s.toList.flatMap escape ++ ['"'])

end TensorGraph.Text
