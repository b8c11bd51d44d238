import TensorGraph.Position
import TensorGraph.View.Movement
import TensorGraph.View.Reshape
/-!
# Trackers

A tracker follows a tensor through movements. It is a stack of views: the topmost has the logical
shape, each view takes its positions from the one below it in row-major order, and the lowest
reads the store. A reshape that no single view can express adds a view on top.

- `Tracker.locate`: the place in the store of a logical position; `Tracker.lookup` stops where that
  leaves the words.
- `Tracker.move`: the tracker after a movement.
- `Tracker.simplify`: merges views that a single view can express; `Tracker.simplified` stops where
  that leaves the words.
- `Tracker.size`: how much of the store is reached; `Tracker.sizeFits` tells whether it is found.
-/

namespace TensorGraph

/-- A nonempty stack of views. -/
@[ext] structure Tracker where
  /-- The view with the logical shape. -/
  top : View
  /-- The views below it, the lowest last. -/
  below : List View
deriving DecidableEq, Repr

namespace Tracker

/-- The tracker of a dense store. -/
def ofShape (shape : Shape) : Tracker := ⟨.ofShape shape, []⟩

/-- The logical shape. -/
def shape (t : Tracker) : Shape := t.top.shape

/-- All views, the topmost first. -/
def stack (t : Tracker) : List View := t.top :: t.below

/-- All views, the lowest first. -/
def views (t : Tracker) : List View := t.stack.reverse

/-- The view that reads the store. -/
def bottom (t : Tracker) : View := t.below.getLastD t.top

/-- Whether the tracker covers a dense store in row-major order through a single view. -/
def contiguous (t : Tracker) : Bool := t.below.isEmpty && t.top.contiguous

/-- The number of elements of the store that the lowest view spans, if its extents are known. -/
def size (t : Tracker) : Option Nat :=
  t.bottom.shape.elements?.map fun n =>
    if n = 0 then 0
    else match t.bottom.maxPlace with
      | some m => if m < 0 then 0 else m.toNatClampNeg + 1
      | none => 0

/-- Whether the elements that the lowest view spans can be counted inside the words. -/
def sizeFits (t : Tracker) : Bool :=
  t.bottom.shape.countable && (t.bottom.shape.elements?.all (· = 0) || t.bottom.maxPlaceFits)

/-- The stride of each logical axis in the store, where a single view gives it one. -/
def axisStrides (t : Tracker) : List (Option Int64) :=
  if t.below.isEmpty && t.shape.isStatic then t.top.strides.map some
  else t.shape.dims.map fun _ => none

/-- Merges `top` into the views below it for as long as a dense top can be expressed there. -/
def merge (top : View) : List View → Tracker
  | [] => ⟨top, []⟩
  | v :: below =>
    if !top.contiguous then ⟨top, v :: below⟩
    else if top.shape = v.shape then merge v below
    else match v.reshape? top.shape with
      | some merged => merge merged below
      | none => ⟨top, v :: below⟩

/-- The tracker with as few views as merging from the top gives. -/
def simplify (t : Tracker) : Tracker := merge t.top t.below

/-- Whether merging `top` into the views below it stays inside the words. -/
def mergeFits (top : View) : List View → Bool
  | [] => true
  | v :: below =>
    if !top.contiguous then true
    else if top.shape = v.shape then mergeFits v below
    else v.reshapeFits top.shape && match v.reshape? top.shape with
      | some merged => mergeFits merged below
      | none => true

/-- Whether simplifying stays inside the words. -/
def simplifies (t : Tracker) : Bool := mergeFits t.top t.below

/-- The tracker with as few views as merging from the top gives, as far as the words go. -/
def simplified (t : Tracker) : Except MovementError Tracker :=
  if t.simplifies then .ok t.simplify else .error .overflow

/-- The tracker with the topmost view replaced. -/
def setTop (t : Tracker) (top : View) : Tracker := { t with top }

/-- The same elements in row-major order under the shape `target`. -/
def reshape (t : Tracker) (target : Shape) : Except MovementError Tracker :=
  if target = t.shape then .ok t
  else if !t.shape.countable || !target.countable then .error .overflow
  else match t.shape.elements?, target.elements? with
    | some old, some new =>
      if old ≠ new then .error (.elementCount t.shape old target new)
      else do
        match ← t.top.tryReshape target with
        | some top => return t.setTop top
        | none => return ⟨← (View.ofShape target).formed, t.stack⟩
    | _, _ => .error (.symbolicReshape t.shape target)

/-- The tracker after a movement. -/
def move (t : Tracker) : Movement → Except MovementError Tracker
  | .reshape shape => t.reshape shape
  | .permute axes => t.setTop <$> t.top.permute axes
  | .expand shape => t.setTop <$> t.top.expand shape
  | .shrink spans => t.setTop <$> t.top.shrink spans
  | .stride factors => t.setTop <$> t.top.stride factors
  | .pad margins => t.setTop <$> t.top.pad margins

/-- Follows a row-major position down a stack of views; a place before the store is nowhere. -/
def follow : List View → Nat → Option Nat
  | [], flat => some flat
  | v :: below, flat => do
    let dims ← v.shape.static?
    let place ← v.index (unravel dims flat)
    if place < 0 then none else follow below place.toNatClampNeg

/-- The place in the store of the row-major position `flat`, or `none` where a mask hides it. -/
def locate (t : Tracker) (flat : Nat) : Option Nat := follow t.stack flat

/-- Whether a row-major position can be followed down a stack of views inside the words. -/
def followFits : List View → Nat → Bool
  | [], _ => true
  | v :: below, flat =>
    v.shape.static?.all fun dims =>
      v.indexFits (unravel dims flat) && (v.index (unravel dims flat)).all fun place =>
        place < 0 || followFits below place.toNatClampNeg

/-- Whether the place of the row-major position `flat` can be found inside the words. -/
def locateFits (t : Tracker) (flat : Nat) : Bool := followFits t.stack flat

/-- The place in the store of the row-major position `flat`, or `none` where a mask hides it, as far as
the words go. -/
def lookup (t : Tracker) (flat : Nat) : Except MovementError (Option Nat) :=
  if t.locateFits flat then .ok (t.locate flat) else .error .overflow

end Tracker

end TensorGraph
