import TensorGraph.Shape
/-!
# Movements

A movement rearranges the positions of a tensor without touching its elements.

- `Movement`: the six movements with their arguments.
- `Text.sequence`, `Text.numbers`: texts and numbers between brackets.
- `MovementError`: why a movement is refused or stopped, with its text in `MovementError.detail`.
-/

namespace TensorGraph

/-- The coordinates from `start` up to, but not including, `stop`. -/
structure Span where
  /-- The first coordinate. -/
  start : Nat
  /-- The coordinate after the last. -/
  stop : Nat
deriving DecidableEq, Repr

/-- The amounts added on both sides of an axis. -/
structure Margin where
  /-- The amount before the first coordinate. -/
  before : Nat
  /-- The amount after the last coordinate. -/
  after : Nat
deriving DecidableEq, Repr

/-- A rearrangement of the positions of a tensor. -/
inductive Movement where
  /-- The same elements in row-major order under another shape. -/
  | reshape (shape : Shape)
  /-- The axes in another order. -/
  | permute (axes : List Nat)
  /-- Unit axes repeated to the extents of the shape. -/
  | expand (shape : Shape)
  /-- Only the coordinates inside the spans. -/
  | shrink (spans : List Span)
  /-- Every so-many-th coordinate; a negative factor flips its axis. -/
  | stride (factors : List Int)
  /-- Zeros added around the elements. -/
  | pad (margins : List Margin)
deriving DecidableEq, Repr

namespace Movement

/-- The name of a movement in messages. -/
def name : Movement → String
  | reshape _ => "reshape"
  | permute _ => "permute"
  | expand _ => "expand"
  | shrink _ => "shrink"
  | stride _ => "stride"
  | pad _ => "pad"

end Movement

namespace Text

/-- Texts between brackets. -/
def sequence (texts : List String) : String := "[" ++ ", ".intercalate texts ++ "]"

/-- Numbers between brackets. -/
def numbers (ns : List Nat) : String := sequence (ns.map toString)

end Text

/-- Why a movement is refused, or stopped by its own arithmetic. -/
inductive MovementError where
  /-- The argument speaks of another number of axes than the view has. -/
  | rank (movement : String) (given axes : Nat)
  /-- The axes do not name each axis once. -/
  | notPermutation (axes : List Nat)
  /-- An axis that is not a unit axis would be repeated. -/
  | notExpandable (source target : Shape)
  /-- A span reaches outside the extent, or is reversed. -/
  | spanOutside (span : Span) (extent : Nat)
  /-- A stride factor is zero. -/
  | zeroFactor
  /-- The number of elements would change. -/
  | elementCount (source : Shape) (sourceCount : Nat) (target : Shape) (targetCount : Nat)
  /-- The movement needs known extents. -/
  | symbolic (movement : String) (shape : Shape)
  /-- A masked unit axis would be repeated to a symbolic extent. -/
  | maskedSymbolic (target : Shape)
  /-- A reshape needs known extents on both sides. -/
  | symbolicReshape (source target : Shape)
  /-- An extent, a stride or a place does not fit into its word. This is no refusal: it stops whatever
  asked for the movement. -/
  | overflow
deriving DecidableEq, Repr

namespace MovementError

/-- Whether the refusal is about symbolic extents, rather than about a malformed argument. -/
def isSymbolic : MovementError → Bool
  | symbolic _ _ | maskedSymbolic _ | symbolicReshape _ _ => true
  | _ => false

/-- What a refusal or a stop says. -/
def detail : MovementError → String
  | rank movement given axes =>
    s!"{movement} argument rank {given} does not match view rank {axes}"
  | notPermutation axes => s!"{Text.numbers axes} is not a permutation"
  | notExpandable source target => s!"cannot expand {source} to {target}"
  | spanOutside span extent =>
    s!"shrink range ({span.start}, {span.stop}) out of bounds for extent {extent}"
  | zeroFactor => "stride factors must be non-zero"
  | elementCount source sourceCount target targetCount =>
    s!"cannot reshape {source} ({sourceCount} elements) to "
      ++ s!"{target} ({targetCount} elements)"
  | symbolic movement shape => s!"unsupported shape {shape}: {movement} needs static dimensions"
  | maskedSymbolic target => s!"unsupported shape {target}: masked expand to a symbolic extent"
  | symbolicReshape source target =>
    s!"unsupported shape {target}: reshape from {source} needs static dimensions"
  | overflow => "arithmetic overflow"

end MovementError

end TensorGraph
