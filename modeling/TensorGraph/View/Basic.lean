import TensorGraph.Movement
/-!
# Strided views

A view gives a logical shape to a flat store: the element at a position is found at the offset
plus, for each axis, the coordinate times the stride of the axis. A mask hides the positions
outside its spans; they read as zero and never touch the store.

Places, strides and offsets are signed words of 64 bits: an extent or a coordinate takes part by its
residue modulo `2 ^ 64`. A value given here is the one that the computation ends with if every product
and sum on the way is a word. The numbers on the way are listed beside it, and where one of them does
not fit, the computation stops instead.

- `View.create`: a view in canonical form; `View.formed` stops if that leaves the words.
- `View.index`: the place of a position in the store; `View.lookup` stops where that leaves the words.
- `View.contiguous`: whether the view covers a dense store in row-major order.
- `View.maxPlace`: the greatest place that the view can reach; `View.maxPlaceFits` tells whether it
  is found.
-/

namespace TensorGraph

/-- A strided and perhaps masked window on a flat store. -/
@[ext] structure View where
  /-- The logical shape. -/
  shape : Shape
  /-- The distance in the store between neighbours along each axis. -/
  strides : List Int64
  /-- The place in the store of the position with all coordinates zero. -/
  offset : Int64
  /-- The visible coordinates of each axis, or `none` if every position is visible. -/
  mask : Option (List Span)
deriving DecidableEq, Repr

/-- The strides of a dense row-major store, together with the number of elements so far: unit
axes have stride zero, and a symbolic extent leaves the count as it is. -/
def denseStridesCount : List Extent → List Int64 × Int64
  | [] => ([], 1)
  | d :: ds =>
    let (strides, count) := denseStridesCount ds
    match d with
    | .static n => if n = 1 then (0 :: strides, count) else (count :: strides, count * .ofNat n)
    | .symbolic _ => (count :: strides, count)

/-- The strides of a dense row-major store. -/
def denseStrides (dims : List Extent) : List Int64 := (denseStridesCount dims).1

/-- The products that are counted through for the strides of a dense row-major store. The last one
counts all elements, though no stride needs it. -/
def denseProducts : List Extent → List Int
  | [] => []
  | .static n :: ds =>
    if n = 1 then denseProducts ds
    else (denseStridesCount ds).2.toInt * residue n :: denseProducts ds
  | .symbolic _ :: ds => denseProducts ds

/-- Whether the strides of a dense row-major store can be found inside the words. -/
def denseFits (dims : List Extent) : Bool := (denseProducts dims).all fitsWord

namespace View

/-- The canonical mask, strides and offset: an empty span hides everything, and a mask that hides
nothing is dropped. -/
def create (shape : Shape) (strides : List Int64) (offset : Int64) (mask : Option (List Span)) :
    View :=
  -- the stride of a unit axis is never used, so it is set to zero
  let strides := (shape.dims.zip strides).map fun (d, s) => if d = .static 1 then 0 else s
  match mask with
  | none => ⟨shape, strides, offset, none⟩
  | some spans =>
    if spans.any (fun r => r.stop ≤ r.start) then
      ⟨shape, spans.map fun _ => 0, 0, some (spans.map fun _ => ⟨0, 0⟩)⟩
    else if (spans.zip shape.dims).all (fun (r, d) => d.static?.any fun n => r = ⟨0, n⟩) then
      ⟨shape, strides, offset, none⟩
    else
      ⟨shape, strides, offset, some spans⟩

/-- Whether making the view stays inside the words: where it has neither an offset nor a mask, it is
compared with the view of a dense store. -/
def formable (v : View) : Bool := !(v.offset = 0 && v.mask.isNone) || denseFits v.shape.dims

/-- The view, if making it stays inside the words. -/
def formed (v : View) : Except MovementError View :=
  if v.formable then .ok v else .error .overflow

/-- The view of a dense row-major store. -/
def ofShape (shape : Shape) : View := create shape (denseStrides shape.dims) 0 none

/-- Whether the view covers a dense store in row-major order. -/
def contiguous (v : View) : Bool :=
  v.offset = 0 ∧ v.mask = none ∧ v.strides = denseStrides v.shape.dims

/-- Whether the mask shows the position `p`. -/
def visible (v : View) (p : List Nat) : Bool :=
  match v.mask with
  | none => true
  | some spans => (p.zip spans).all fun (i, r) => r.start ≤ i && i < r.stop

/-- The place in the store of the position `p`, masked or not. -/
def place (v : View) (p : List Nat) : Int64 :=
  (p.zip v.strides).foldl (fun acc (i, s) => acc + .ofNat i * s) v.offset

/-- The products and sums through which the place of the position `p` is found. -/
def placeSums (v : View) (p : List Nat) : List Int :=
  runningResults (· + ·) v.offset.toInt
    (List.zipWith (fun i s => residue i * s.toInt) p v.strides)

/-- The place in the store of the position `p`, or `none` where the mask hides it. -/
def index (v : View) (p : List Nat) : Option Int64 :=
  if v.visible p then some (v.place p) else none

/-- Whether the place of the position `p` can be found inside the words. -/
def indexFits (v : View) (p : List Nat) : Bool := !v.visible p || (v.placeSums p).all fitsWord

/-- The place in the store of the position `p`, or `none` where the mask hides it, as far as the words
go. -/
def lookup (v : View) (p : List Nat) : Except MovementError (Option Int64) :=
  if v.indexFits p then .ok (v.index p) else .error .overflow

/-- The spans that are visible along the axes with extents `dims`. -/
def spans (v : View) (dims : List Nat) : List Span := v.mask.getD (dims.map fun n => ⟨0, n⟩)

/-- The greatest place in the store that a visible position has, or `none` if no position is
visible or some extent is symbolic. -/
def maxPlace (v : View) : Option Int64 := do
  let dims ← v.shape.static?
  ((v.spans dims).zip v.strides).foldlM
    (fun acc (r, s) =>
      if r.stop ≤ r.start then none
      else some (acc + .ofNat (if 0 < s then r.stop - 1 else r.start) * s))
    v.offset

/-- Whether the greatest place can be found inside the words. The axes are gone through up to the
first one along which nothing is visible. -/
def maxPlaceFits (v : View) : Bool :=
  v.shape.static?.all fun dims =>
    let axes := ((v.spans dims).zip v.strides).takeWhile fun (r, _) => r.start < r.stop
    let products := axes.map fun (r, s) =>
      residue (if 0 < s then r.stop - 1 else r.start) * s.toInt
    (runningResults (· + ·) v.offset.toInt products).all fitsWord

end View

end TensorGraph
