import TensorGraph.View.Basic
/-!
# Movements of a view

Each movement other than a reshape turns a view into one view of the new shape. An argument is
checked for its rank first, then for what the movement needs of the extents, then axis by axis.
Whatever leaves the words on the way stops the movement.

- `View.permute`, `View.expand`, `View.shrink`, `View.stride`, `View.pad`.
- `View.strideSums`, `View.padSums`, `View.padCounts`: the numbers on the way to a stride and a pad.
-/

namespace TensorGraph.View

/-- Stops unless all numbers are signed words. -/
def requireWords (ns : List Int) : Except MovementError Unit :=
  if ns.all fitsWord then .ok () else .error .overflow

/-- Stops unless all numbers are unsigned words. -/
def requireCounts (ns : List Nat) : Except MovementError Unit :=
  if ns.all fitsCount then .ok () else .error .overflow

/-- Refuses an argument for another number of axes. -/
def requireRank (v : View) (movement : String) (given : Nat) : Except MovementError Unit :=
  if given = v.shape.rank then .ok () else .error (.rank movement given v.shape.rank)

/-- The extents as numbers, or a refusal. -/
def knownDims (v : View) (movement : String) : Except MovementError (List Nat) :=
  match v.shape.static? with
  | some dims => .ok dims
  | none => .error (.symbolic movement v.shape)

/-- The elements at the places `axes`, as far as they exist. -/
def pick {β : Type} (l : List β) (axes : List Nat) : List β := axes.filterMap (l[·]?)

/-- The view with its axes in the order `axes`, as far as they exist. -/
def permuted (v : View) (axes : List Nat) : View :=
  create ⟨pick v.shape.dims axes⟩ (pick v.strides axes) v.offset
    (v.mask.map fun spans => pick spans axes)

/-- The view with its axes in the order `axes`. -/
def permute (v : View) (axes : List Nat) : Except MovementError View := do
  v.requireRank "permute" axes.length
  if axes.all (· < axes.length) && axes.Nodup then (v.permuted axes).formed
  else throw (.notPermutation axes)

/-- The visible span of an axis of extent `d` after it is repeated to `e`: the one element is
visible everywhere or nowhere. -/
def repeatSpan (d e : Extent) (r : Span) : Span :=
  if d = e then r else if r = ⟨0, 1⟩ then ⟨0, e.static?.getD 0⟩ else ⟨0, 0⟩

/-- Checks that only unit axes are repeated, under a mask only to known extents, and repeats their
spans. Spans beyond the last axis stay as they are. -/
def repeatSpans (source target : Shape) (masked : Bool) :
    List Extent → List Extent → List Span → Except MovementError (List Span)
  | d :: ds, e :: es, spans => do
    if d ≠ e then
      if d ≠ .static 1 then throw (.notExpandable source target)
      if masked && e.static? = none then throw (.maskedSymbolic target)
    let rest ← repeatSpans source target masked ds es spans.tail
    return (spans.head?.map (repeatSpan d e)).toList ++ rest
  | _, _, spans => return spans

/-- The view with the extents of `target`, whose mask, if there is one, shows `spans`. -/
def expanded (v : View) (target : Shape) (spans : List Span) : View :=
  create target v.strides v.offset (v.mask.map fun _ => spans)

/-- The view with its unit axes repeated to the extents of `target`. -/
def expand (v : View) (target : Shape) : Except MovementError View := do
  v.requireRank "expand" target.rank
  let spans ← repeatSpans v.shape target v.mask.isSome v.shape.dims target.dims (v.mask.getD [])
  (v.expanded target spans).formed

/-- The part of the visible span `r` that lies inside `window`, counted from its start. -/
def clipSpan (r window : Span) : Span :=
  let start := min (max r.start window.start) window.stop
  ⟨start - window.start, max (min r.stop window.stop) start - window.start⟩

/-- The view of the positions inside `windows`, which are inside the extents. -/
def shrunk (v : View) (windows : List Span) : View :=
  create (.ofNats (windows.map fun w => w.stop - w.start)) v.strides
    (v.place (windows.map Span.start))
    (v.mask.map fun spans => List.zipWith clipSpan spans windows)

/-- Whether a window of an axis of extent `n` is reversed or reaches outside. -/
def isOutside (window : Span) (n : Nat) : Bool := window.stop < window.start || n < window.stop

/-- The view of the positions inside `windows`. The offset moves axis by axis, up to the first window
that is refused. -/
def shrink (v : View) (windows : List Span) : Except MovementError View := do
  v.requireRank "shrink" windows.length
  let dims ← v.knownDims "shrink"
  let inside := (windows.zip dims).takeWhile fun (w, n) => !isOutside w n
  requireWords (v.placeSums (inside.map fun (w, _) => w.start))
  match (windows.zip dims).find? (fun (w, n) => isOutside w n) with
  | some (w, n) => throw (.spanOutside w n)
  | none => (v.shrunk windows).formed

/-- The number of multiples of `step` below `n`. -/
def strideCount (n step : Nat) : Nat := (n + step - 1) / step

/-- The visible steps of an axis of extent `n` that is walked by `factor`. -/
def strideSpan (n : Nat) (factor : Int) (r : Span) : Span :=
  let step := factor.natAbs
  if 0 < factor then ⟨strideCount r.start step, strideCount r.stop step⟩
  else ⟨strideCount (n - r.stop) step, strideCount (n - r.start) step⟩

/-- The coordinate at which a walk by `factor` along an axis of extent `n` begins. -/
def strideStart (n : Nat) (factor : Int) : Nat := if factor < 0 then n - 1 else 0

/-- The products and sums through which the new strides and the new offset are found: along an axis of
extent `n` with the stride `s`, the stride times the factor, and for an axis walked from its end the
last coordinate, what it adds to the offset, and the offset. -/
def strideSums : (offset : Int) → List (Nat × Int64 × Int) → List Int
  | _, [] => []
  | offset, (n, s, m) :: axes =>
    if m < 0 ∧ 0 < n then
      let last := residue n - 1
      s.toInt * m :: last :: last * s.toInt :: (offset + last * s.toInt)
        :: strideSums (offset + last * s.toInt) axes
    else s.toInt * m :: strideSums offset axes

/-- The view with extents `dims` walked by `factors`. An axis without a stride is left out. -/
def strided (v : View) (dims : List Nat) (factors : List Int) : View :=
  let strides := List.zipWith (fun s m => s * .ofInt m) v.strides factors
  let extents := List.zipWith (fun n m => strideCount n m.natAbs) dims factors
  create (.ofNats (extents.take strides.length)) strides
    (v.place (List.zipWith strideStart dims factors))
    (v.mask.map fun spans =>
      List.zipWith (fun (n, m) r => strideSpan n m r) (dims.zip factors) spans)

/-- The view of every `factors`-th position of each axis; a negative factor starts at the end. -/
def stride (v : View) (factors : List Int) : Except MovementError View := do
  v.requireRank "stride" factors.length
  if factors.any (· = 0) then throw .zeroFactor
  let dims ← v.knownDims "stride"
  requireWords (strideSums v.offset.toInt (dims.zip (v.strides.zip factors)))
  (v.strided dims factors).formed

/-- The products and sums through which the offset moves back by the leading margins. -/
def padSums (v : View) (margins : List Margin) : List Int :=
  runningResults (· - ·) v.offset.toInt
    (List.zipWith (fun m s => residue m.before * s.toInt) margins v.strides)

/-- The sums that become extents and ends of spans. -/
def padCounts (dims : List Nat) (spans : List Span) (margins : List Margin) : List Nat :=
  List.zipWith (fun n m => n + m.before + m.after) dims margins
    ++ List.zipWith (fun r m => max r.start r.stop + m.before) spans margins

/-- The view with extents `dims` and hidden positions added around it. -/
def padded (v : View) (dims : List Nat) (margins : List Margin) : View :=
  create (.ofNats (List.zipWith (fun n m => n + m.before + m.after) dims margins)) v.strides
    ((margins.zip v.strides).foldl (fun acc (m, s) => acc - .ofNat m.before * s) v.offset)
    (some (List.zipWith (fun r m => ⟨r.start + m.before, r.stop + m.before⟩)
      (v.spans dims) margins))

/-- The view with hidden positions added around it; adding none keeps the view as it is. -/
def pad (v : View) (margins : List Margin) : Except MovementError View := do
  v.requireRank "pad" margins.length
  let dims ← v.knownDims "pad"
  if margins.all (fun m => m.before = 0 && m.after = 0) then return v
  requireWords (v.padSums margins)
  requireCounts (padCounts dims (v.spans dims) margins)
  (v.padded dims margins).formed

end TensorGraph.View
