import TensorGraph.View.Basic
/-!
# Reshaping a view

A reshape keeps the elements in row-major order. It needs no copy when the axes can be cut into
runs, from the outermost axis on, such that a run of old axes and the run of new axes beside it
have the same number of positions and the old run walks the store with one stride.

- `alignRuns`: the runs of old and new axes with equal products.
- `mergeable`: whether a run of old axes walks the store with one stride.
- `View.reshape?`: the reshaped view, or `none` if no single view has those positions.
- `View.tryReshape`: the same, stopped where a number on the way leaves its word.
-/

namespace TensorGraph

open scoped CoreArithmetic

/-- An axis with its extent and its stride in the store. -/
structure Axis where
  /-- The number of coordinates. -/
  extent : Nat
  /-- The distance in the store between neighbours. -/
  stride : Int64
deriving DecidableEq, Repr

/-- Old axes and new extents with the same number of positions. -/
structure AxisRun where
  /-- The old axes, outermost first. -/
  axes : List Axis
  /-- The new extents, outermost first. -/
  extents : List Nat
deriving DecidableEq, Repr

/-- Lengthens two runs until their products `old` and `new` agree; `none` if one side runs out.
The result holds the axes and extents added, and those that remain. -/
def growRun (old new : Nat) (axes : List Axis) (extents : List Nat) :
    Option (AxisRun × List Axis × List Nat) :=
  if old = new then some (⟨[], []⟩, axes, extents)
  else if new < old then
    match extents with
    | [] => none
    | n :: extents =>
      (growRun old (new * n) axes extents).map fun (r, rest) =>
        ({ r with extents := n :: r.extents }, rest)
  else
    match axes with
    | [] => none
    | a :: axes =>
      (growRun (old * a.extent) new axes extents).map fun (r, rest) =>
        ({ r with axes := a :: r.axes }, rest)
termination_by axes.length + extents.length

/-- The runs of `axes` and `extents`, outermost first, until one of the two lists is used up;
`none` if a run cannot be completed. `steps` bounds the number of runs. -/
def alignRunsUpTo : Nat → List Axis → List Nat → Option (List AxisRun)
  | steps + 1, a :: axes, n :: extents => do
    let (r, axes, extents) ← growRun a.extent n axes extents
    let runs ← alignRunsUpTo steps axes extents
    return ⟨a :: r.axes, n :: r.extents⟩ :: runs
  | _, _, _ => some []

/-- The runs of `axes` and `extents`, outermost first. A run takes an axis, so their number is
at most that of the axes. -/
def alignRuns (axes : List Axis) (extents : List Nat) : Option (List AxisRun) :=
  alignRunsUpTo axes.length axes extents

/-- Whether the axes walk the store with one stride: each axis steps over all of the next one. -/
def mergeable : List Axis → Bool
  | a :: b :: axes => a.stride = .ofNat b.extent * b.stride && mergeable (b :: axes)
  | _ => true

/-- The products that the strides of axes are compared with while they are merged, up to the first
that differs. -/
def mergeProducts : List Axis → List Int
  | a :: b :: axes =>
    residue b.extent * b.stride.toInt
      :: if a.stride = .ofNat b.extent * b.stride then mergeProducts (b :: axes) else []
  | _ => []

/-- The strides of dense axes with extents `extents` whose innermost stride is `stride`, together
with the stride of an axis around them. -/
def splitStridesAround (stride : Int64) : List Nat → List Int64 × Int64
  | [] => ([], stride)
  | n :: extents =>
    let (strides, around) := splitStridesAround stride extents
    (around :: strides, around * .ofNat n)

/-- The products through which the strides of dense axes are found. -/
def splitProducts (stride : Int64) : List Nat → List Int
  | [] => []
  | n :: extents =>
    (splitStridesAround stride extents).2.toInt * residue n :: splitProducts stride extents

namespace AxisRun

/-- The stride of the innermost old axis of a run. -/
def innermost (r : AxisRun) : Int64 := (r.axes.getLast?.map Axis.stride).getD 0

/-- The strides of the new axes of a run. -/
def strides (r : AxisRun) : List Int64 := (splitStridesAround r.innermost r.extents).1

/-- The products on the way through the runs, up to the first run whose axes do not merge. No stride
goes around the outermost new axis of a run. -/
def products : List AxisRun → List Int
  | [] => []
  | r :: runs =>
    mergeProducts r.axes
      ++ if mergeable r.axes then splitProducts r.innermost r.extents.tail ++ products runs else []

end AxisRun

/-- The strides that give `axes` the new extents, or `none` if no single stride per axis does. -/
def mergeStrides (axes : List Axis) (extents : List Nat) : Option (List Int64) := do
  let runs ← alignRuns axes extents
  if runs.all fun r => mergeable r.axes then
    return runs.flatMap AxisRun.strides
  else
    none

/-- Those elements of `l` that belong to axes of `dims` other than unit axes. -/
def dropUnits {β : Type} (dims : List Nat) (l : List β) : List β :=
  ((dims.zip l).filter fun (n, _) => n ≠ 1).map Prod.snd

/-- Puts the elements of `l` at the axes of `dims` other than unit axes, and `unit` at those. -/
def insertUnits {β : Type} (unit : β) : List Nat → List β → List β
  | [], _ => []
  | n :: dims, l =>
    if n = 1 then unit :: insertUnits unit dims l
    else match l with
      | [] => unit :: insertUnits unit dims []
      | x :: l => x :: insertUnits unit dims l

namespace View

/-- The view of the same elements in row-major order under the shape `target`, or `none` if the
extents do not allow it or no single view walks the store that way. -/
def reshape? (v : View) (target : Shape) : Option View := do
  let old ← v.shape.static?
  let new ← target.static?
  if old.prod ≠ new.prod then none
  else if v.contiguous || new.prod = 0 then return ofShape target
  else
    let strides := dropUnits old v.strides
    let extents := dropUnits new new
    if dropUnits old old = extents then
      -- only unit axes come and go, so strides and mask carry over
      return create target (insertUnits 0 new strides) v.offset
        (v.mask.map fun spans => insertUnits ⟨0, 1⟩ new (dropUnits old spans))
    else if v.mask.isSome then none
    else
      let strides ← mergeStrides (List.zipWith Axis.mk (dropUnits old old) strides) extents
      return create target (insertUnits 0 new strides) v.offset none

/-- The products on the way to a reshape from the extents `old` to the extents `new`: where more than
unit axes change, those that the runs of axes need. -/
def reshapeProducts (v : View) (old new : List Nat) : List Int :=
  if v.contiguous || new.prod = 0 || dropUnits old old = dropUnits new new || v.mask.isSome then []
  else
    AxisRun.products <| (alignRuns
      (List.zipWith Axis.mk (dropUnits old old) (dropUnits old v.strides)) (dropUnits new new)).getD []

/-- Whether the reshape stays inside the words. The elements are counted on both sides, and nothing
else is done if their numbers differ. -/
def reshapeFits (v : View) (target : Shape) : Bool :=
  match v.shape.static?, target.static? with
  | some old, some new =>
    v.shape.countable && target.countable && (old.prod ≠ new.prod
      || (v.reshapeProducts old new).all fitsWord && (v.reshape? target).all formable)
  | _, _ => true

/-- The view of the same elements in row-major order under the shape `target`, as far as the words go;
`none` if no single view walks the store that way. -/
def tryReshape (v : View) (target : Shape) : Except MovementError (Option View) :=
  if v.reshapeFits target then .ok (v.reshape? target) else .error .overflow

end View

end TensorGraph
