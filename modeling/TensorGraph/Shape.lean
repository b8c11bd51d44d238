import TensorGraph.Arithmetic
/-!
# Shapes

A shape lists the extent of each axis of a tensor. An extent is a number, or a symbol that stands
for a number not known yet.

- `Shape.static?`: the extents as numbers, if all of them are known.
- `Shape.elements?`: the number of elements, if all extents are known.
- `Shape.countable`: whether that number can be counted in a word.
-/

namespace TensorGraph

open scoped CoreArithmetic

/-- The extent of one axis. -/
inductive Extent where
  /-- A known extent. -/
  | static (n : Nat)
  /-- An extent that is only named so far. -/
  | symbolic (name : String)
deriving DecidableEq, Repr

namespace Extent

/-- The extent as a number, if it is known. -/
def static? : Extent → Option Nat
  | static n => some n
  | symbolic _ => none

/-- The text of an extent; a symbol is marked by a question mark. -/
def text : Extent → String
  | static n => toString n
  | symbolic name => "?" ++ name

end Extent

/-- The extents of the axes of a tensor, outermost first. A tensor without axes is a scalar. -/
@[ext] structure Shape where
  /-- The extents, outermost first. -/
  dims : List Extent
deriving DecidableEq, Repr

namespace Shape

/-- The shape with known extents only. -/
def ofNats (ns : List Nat) : Shape := ⟨ns.map .static⟩

/-- The shape without axes. -/
def scalar : Shape := ⟨[]⟩

/-- The number of axes. -/
def rank (s : Shape) : Nat := s.dims.length

/-- The extents as numbers, if all of them are known. -/
def static? (s : Shape) : Option (List Nat) := s.dims.mapM Extent.static?

/-- Whether all extents are known. -/
def isStatic (s : Shape) : Bool := s.static?.isSome

/-- The number of elements, if all extents are known. -/
def elements? (s : Shape) : Option Nat := s.static?.map List.prod

/-- The extents as numbers, up to the first one that is not known. -/
def leading (s : Shape) : List Nat :=
  (s.dims.takeWhile fun d => d.static?.isSome).filterMap Extent.static?

/-- Whether counting the elements stays inside the unsigned words. The extents are multiplied from the
outermost on, until one is not known. -/
def countable (s : Shape) : Bool := (runningProducts 1 s.leading).all fitsCount

/-- The text of a shape, its extents between parentheses. -/
def text (s : Shape) : String := "(" ++ ", ".intercalate (s.dims.map Extent.text) ++ ")"

instance : ToString Shape := ⟨text⟩

end Shape

end TensorGraph
