/-!
# Positions in row-major order

A position of a tensor is a list of coordinates, one for each axis, or its rank in row-major
order, in which the last axis varies fastest.

- `unravel`: the coordinates of a row-major position.
- `ravel`: the row-major position of coordinates.
-/

namespace TensorGraph

/-- The coordinates of row-major position `flat`, together with what of `flat` exceeds the
extents. An axis of extent zero has coordinate zero and takes nothing away. -/
def unravelRest : List Nat → Nat → List Nat × Nat
  | [], flat => ([], flat)
  | d :: ds, flat =>
    let (index, rest) := unravelRest ds flat
    if d = 0 then (0 :: index, rest) else (rest % d :: index, rest / d)

/-- The coordinates of row-major position `flat` in a tensor with extents `dims`. -/
def unravel (dims : List Nat) (flat : Nat) : List Nat := (unravelRest dims flat).1

/-- The row-major position of the coordinates `index` in a tensor with extents `dims`. -/
def ravel (dims index : List Nat) : Nat :=
  (dims.zip index).foldl (fun acc (d, i) => acc * d + i) 0

end TensorGraph
