import TensorGraph.Config
import TensorGraph.Shape
/-!
# Splitting a reduction

A large reduction is done in two passes: one of the reduced axes is cut in two, the inner half is
reduced first, and the outer half after that. The axis is the one that promises the most
neighbours in storage for each element of the first pass.

- `Split`: an axis and the extent of its inner half.
- `SplitPolicy.choose`: the split that a policy asks for.
- `Split.shape`: the shape with the axis cut.
-/

namespace TensorGraph

open scoped CoreArithmetic

/-- A way to cut one axis in two. -/
structure Split where
  /-- The axis that is cut. -/
  axis : Nat
  /-- The extent of the inner half, a divisor of the extent of the axis. -/
  divisor : Nat
deriving DecidableEq, Repr

/-- A split with the number it is ranked by. -/
structure Candidate where
  /-- The split. -/
  split : Split
  /-- The quotient of divisor and stride. -/
  score : Float

namespace Candidate

/-- The candidate for an axis of extent `extent`: the inner half is the greatest common divisor of
the extent and 256. An axis without a stride of its own has the score zero. -/
def ofAxis (axis extent : Nat) (stride : Option Int64) : Candidate :=
  let divisor := Nat.gcd 256 extent
  let score := match stride with
    | some s => if s = 0 then 0 else Float.ofNat divisor / s.toFloat
    | none => 0
  ⟨⟨axis, divisor⟩, score⟩

/-- Whether `b` ranks at least as high as `a`: by score, then by divisor, then by axis. A score is
never a NaN. -/
def atMost (a b : Candidate) : Bool :=
  if a.score < b.score then true
  else if b.score < a.score then false
  else if a.split.divisor = b.split.divisor then a.split.axis ≤ b.split.axis
  else a.split.divisor < b.split.divisor

/-- The candidates for the axes that change their extent from `old` to `new`, numbered from
`axis` on. -/
def ofAxes (axis : Nat) : (old new : List Nat) → List (Option Int64) → List Candidate
  | n :: old, m :: new, s :: strides =>
    let rest := ofAxes (axis + 1) old new strides
    if n = m then rest else ofAxis axis n s :: rest
  | _, _, _ => []

/-- The highest candidate. -/
def best? : List Candidate → Option Candidate
  | [] => none
  | c :: cs => some (cs.foldl (fun a b => if a.atMost b then b else a) c)

end Candidate

namespace SplitPolicy

/-- The split of a reduction from the extents `old` to `new`, or `none` if one pass will do:
there is too little to fold, or no axis has a large enough divisor and score. -/
def choose (p : SplitPolicy) (old new : List Nat) (strides : List (Option Int64)) : Option Split :=
  if new.prod = 0 || old.prod / new.prod < p.leastWork then none
  else match Candidate.best? (Candidate.ofAxes 0 old new strides) with
    | none => none
    | some c =>
      if c.split.divisor < p.leastDivisor || c.score < p.leastScore then none else some c.split

end SplitPolicy

namespace Split

/-- The extents with the axis cut into its outer half and the extents `inner`. -/
def dims (s : Split) (old inner : List Nat) : List Nat :=
  old.take s.axis ++ [old.getD s.axis 0 / s.divisor] ++ inner ++ old.drop (s.axis + 1)

/-- The shape with the axis cut into its outer half and the extents `inner`. -/
def shape (s : Split) (old inner : List Nat) : Shape := .ofNats (s.dims old inner)

end Split

end TensorGraph
