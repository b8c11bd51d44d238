import Mathlib.Data.List.TakeWhile
import TensorGraph.Proofs.Outcome
import TensorGraph.Proofs.View.Reshape
import TensorGraph.View.Movement
/-!
# Views that movements make

Every movement makes a view with a stride for each axis, whose mask stays inside the extents, and
which forgets its offset once it shows nothing.

- `View.Proper`: what holds of every view that movements make.
- `View.proper_create`: a view in canonical form is proper.
- `View.Proper.permute`, `View.Proper.expand`, `View.Proper.shrink`, `View.Proper.stride`,
  `View.Proper.pad`, `View.Proper.reshape?`: the movements keep views proper.
-/

namespace TensorGraph

/-- The spans do not reach beyond the extents that are known; there is one for each axis. -/
def Fits (dims : List Extent) (spans : List Span) : Prop :=
  List.Forall₂ (fun d r => ∀ n, d = Extent.static n → r.stop ≤ n) dims spans

theorem fits_static_iff {dims : List Nat} {spans : List Span} :
    Fits (dims.map .static) spans ↔ dims.length = spans.length
      ∧ ∀ i (h : i < dims.length) (h' : i < spans.length), spans[i].stop ≤ dims[i] := by
  rw [Fits, List.forall₂_map_left_iff, List.forall₂_iff_get]
  simp

/-- A view as the movements make it. -/
structure View.Proper (v : View) : Prop where
  /-- There is a stride for each axis. -/
  length_strides : v.strides.length = v.shape.rank
  /-- The mask stays inside the extents. -/
  fits : ∀ spans, v.mask = some spans → Fits v.shape.dims spans
  /-- A mask that shows nothing is the empty one, and the offset is forgotten. -/
  collapsed : ∀ spans, v.mask = some spans → (∃ r ∈ spans, r.stop ≤ r.start) →
    v.offset = 0 ∧ ∀ r ∈ spans, r = ⟨0, 0⟩
  /-- A unit axis has no stride. -/
  units : List.Forall₂ (fun d s => d = Extent.static 1 → s = 0) v.shape.dims v.strides

theorem View.Proper.length_spans {v : View} (hv : v.Proper) {spans : List Span}
    (h : v.mask = some spans) : spans.length = v.shape.rank :=
  (List.Forall₂.length_eq (hv.fits spans h)).symm

/-- The spans of a proper view, masked or not, stay inside the extents. -/
theorem View.Proper.fits_spans {v : View} (hv : v.Proper) {dims : List Nat}
    (hs : v.shape.static? = some dims) : Fits (dims.map .static) (v.spans dims) := by
  rw [View.spans]
  cases hmask : v.mask with
  | some spans => exact Shape.static?_eq_some.mp hs ▸ hv.fits spans hmask
  | none =>
    rw [Option.getD_none, Fits, List.forall₂_map_left_iff, List.forall₂_map_right_iff,
      List.forall₂_same]
    intro n _ m hm
    exact Nat.le_of_eq (Extent.static.inj hm)

/-! ## Canonical forms -/

theorem View.create_shape (shape : Shape) (strides : List Int64) (offset : Int64)
    (mask : Option (List Span)) : (View.create shape strides offset mask).shape = shape := by
  rw [View.create.eq_def]
  cases mask with
  | none => rfl
  | some spans => dsimp only; split <;> [rfl; split <;> rfl]

theorem View.proper_create {shape : Shape} {strides : List Int64} {offset : Int64}
    {mask : Option (List Span)} (hstrides : strides.length = shape.rank)
    (hmask : ∀ spans, mask = some spans → Fits shape.dims spans) :
    (View.create shape strides offset mask).Proper := by
  have hlen : ((shape.dims.zip strides).map fun q =>
      if q.1 = Extent.static 1 then 0 else q.2).length = shape.rank := by
    simp [hstrides, Shape.rank]
  have hunits : List.Forall₂ (fun d (s : Int64) => d = Extent.static 1 → s = 0) shape.dims
      ((shape.dims.zip strides).map fun q => if q.1 = Extent.static 1 then 0 else q.2) := by
    refine List.forall₂_iff_get.mpr ⟨hlen.symm, ?_⟩
    intro i h h' hi
    have hi : shape.dims[i] = Extent.static 1 := hi
    simp [hi]
  cases mask with
  | none => exact ⟨hlen, by rintro _ ⟨⟩, by rintro _ ⟨⟩, hunits⟩
  | some spans =>
    have hfits := hmask spans rfl
    have hspans : spans.length = shape.rank := (List.Forall₂.length_eq hfits).symm
    simp only [View.create]
    split
    · -- an empty span makes the view the empty one
      constructor
      case length_strides => simpa using hspans
      case fits =>
        rintro _ ⟨⟩
        rw [Fits, List.forall₂_map_right_iff]
        exact hfits.imp fun _ _ _ _ _ => Nat.zero_le _
      case collapsed =>
        rintro _ ⟨⟩ -
        exact ⟨rfl, fun r hr => by obtain ⟨_, -, rfl⟩ := List.mem_map.mp hr; rfl⟩
      case units =>
        rw [List.forall₂_map_right_iff]
        exact hfits.imp fun _ _ _ _ => rfl
    · next hempty =>
      split
      · exact ⟨hlen, by rintro _ ⟨⟩, by rintro _ ⟨⟩, hunits⟩
      · constructor
        case length_strides => exact hlen
        case fits =>
          rintro _ ⟨⟩
          exact hfits
        case collapsed =>
          rintro _ ⟨⟩ ⟨r, hr, hstop⟩
          exact absurd (List.any_eq_true.mpr ⟨r, hr, by simpa using hstop⟩) hempty
        case units => exact hunits

theorem View.ofShape_shape (shape : Shape) : (View.ofShape shape).shape = shape :=
  View.create_shape ..

theorem View.proper_ofShape (shape : Shape) : (View.ofShape shape).Proper :=
  View.proper_create (length_denseStrides _) nofun

/-! ## Movements -/

section Pick

variable {β γ : Type} {axes : List Nat}

theorem length_pick {l : List β} (h : ∀ a ∈ axes, a < l.length) :
    (View.pick l axes).length = axes.length := by
  induction axes with
  | nil => rfl
  | cons a axes ih =>
    rw [View.pick, List.filterMap_cons, List.getElem?_eq_getElem (h a List.mem_cons_self)]
    exact congrArg (· + 1) (ih fun b hb => h b (List.mem_cons_of_mem _ hb))

theorem forall₂_pick {R : β → γ → Prop} {l : List β} {l' : List γ} (h : List.Forall₂ R l l') :
    List.Forall₂ R (View.pick l axes) (View.pick l' axes) := by
  induction axes with
  | nil => exact .nil
  | cons a axes ih =>
    rw [View.pick, View.pick, List.filterMap_cons, List.filterMap_cons]
    by_cases ha : a < l.length
    · have ha' : a < l'.length := h.length_eq ▸ ha
      rw [List.getElem?_eq_getElem ha, List.getElem?_eq_getElem ha']
      exact .cons (h.get ha ha') ih
    · rw [List.getElem?_eq_none (by omega), List.getElem?_eq_none (h.length_eq ▸ by omega)]
      exact ih

end Pick

variable {v w : View}

/-- An argument is not refused for its rank exactly if it has one entry for each axis. -/
theorem View.requireRank_eq_ok {movement : String} {given : Nat} :
    v.requireRank movement given = .ok () ↔ given = v.shape.rank := by
  rw [View.requireRank]
  split <;> simp [*]

theorem View.knownDims_eq_ok {movement : String} {dims : List Nat} :
    v.knownDims movement = .ok dims ↔ v.shape.static? = some dims := by
  rw [View.knownDims]
  cases v.shape.static? <;> simp

theorem View.requireWords_eq_ok {ns : List Int} :
    requireWords ns = .ok () ↔ ns.all fitsWord = true := by
  rw [requireWords]
  split <;> simp [*]

theorem View.requireWords_eq_error {ns : List Int} (h : ¬ns.all fitsWord = true) :
    requireWords ns = .error .overflow := if_neg h

theorem View.requireCounts_eq_ok {ns : List Nat} :
    requireCounts ns = .ok () ↔ ns.all fitsCount = true := by
  rw [requireCounts]
  split <;> simp [*]

theorem View.requireCounts_eq_error {ns : List Nat} (h : ¬ns.all fitsCount = true) :
    requireCounts ns = .error .overflow := if_neg h

theorem View.formed_eq_error (h : ¬v.formable = true) : v.formed = .error .overflow := if_neg h

theorem View.formed_eq_ok : v.formed = .ok w ↔ w.formable = true ∧ w = v := by
  rw [formed]
  split
  · next h =>
    constructor
    · intro hw
      obtain rfl := Except.ok.inj hw
      exact ⟨h, rfl⟩
    · rintro ⟨-, rfl⟩
      rfl
  · next h =>
    refine ⟨nofun, ?_⟩
    rintro ⟨hw, rfl⟩
    exact absurd hw h

theorem View.permute_eq_ok {axes : List Nat} :
    v.permute axes = .ok w ↔ axes.length = v.shape.rank ∧ (∀ a ∈ axes, a < axes.length)
      ∧ axes.Nodup ∧ w.formable = true
      ∧ w = create ⟨pick v.shape.dims axes⟩ (pick v.strides axes) v.offset
        (v.mask.map fun spans => pick spans axes) := by
  rw [View.permute, bind_eq_ok]
  have hperm : (axes.all (· < axes.length) && axes.Nodup) = true
      ↔ (∀ a ∈ axes, a < axes.length) ∧ axes.Nodup := by
    simp
  constructor
  · rintro ⟨⟨⟩, hrank, h⟩
    split at h
    · next hall =>
      exact ⟨requireRank_eq_ok.mp hrank, (hperm.mp hall).1, (hperm.mp hall).2, formed_eq_ok.mp h⟩
    · cases h
  · rintro ⟨hrank, hlt, hnodup, hw⟩
    refine ⟨(), requireRank_eq_ok.mpr hrank, ?_⟩
    rw [if_pos (hperm.mpr ⟨hlt, hnodup⟩)]
    exact formed_eq_ok.mpr hw

theorem View.repeatSpans_cons_eq_ok {source target : Shape} {masked : Bool} {d e : Extent}
    {ds es : List Extent} {spans spans' : List Span} :
    repeatSpans source target masked (d :: ds) (e :: es) spans = .ok spans'
      ↔ (d = e ∨ d = .static 1 ∧ (masked = true → e.static? ≠ none))
        ∧ ∃ rest, repeatSpans source target masked ds es spans.tail = .ok rest
          ∧ (spans.head?.map (repeatSpan d e)).toList ++ rest = spans' := by
  have hrest : (do
      let rest ← repeatSpans source target masked ds es spans.tail
      return (spans.head?.map (repeatSpan d e)).toList ++ rest) = .ok spans'
        ↔ ∃ rest, repeatSpans source target masked ds es spans.tail = .ok rest
          ∧ (spans.head?.map (repeatSpan d e)).toList ++ rest = spans' := by
    rw [bind_eq_ok]
    simp
  rw [repeatSpans, ← hrest]
  by_cases hde : d = e
  · simp [hde]
  · by_cases hd : d = .static 1
    · subst hd
      cases masked
      · simp [hde]
      · cases e.static? <;> simp [hde]
    · simp [hde, hd]

/-- What the check of an expansion admits: an axis keeps its extent or is a unit axis. -/
theorem View.forall₂_of_repeatSpans {source target : Shape} {masked : Bool} {ds es : List Extent}
    {spans spans' : List Span} (hlen : ds.length = es.length)
    (h : repeatSpans source target masked ds es spans = .ok spans') :
    List.Forall₂ (fun d e => d = e ∨ d = .static 1) ds es := by
  induction ds generalizing es spans spans' with
  | nil =>
    obtain rfl := List.length_eq_zero_iff.mp hlen.symm
    exact .nil
  | cons d ds ih =>
    cases es with
    | nil => simp at hlen
    | cons e es =>
      obtain ⟨hde, rest, hrest, -⟩ := repeatSpans_cons_eq_ok.mp h
      exact .cons (hde.imp_right And.left) (ih (by simpa using hlen) hrest)

/-- The repeated spans stay inside the extents they are repeated to. -/
theorem View.fits_repeatSpans {source target : Shape} {masked : Bool} {ds es : List Extent}
    {spans spans' : List Span} (hlen : ds.length = es.length) (hfits : Fits ds spans)
    (h : repeatSpans source target masked ds es spans = .ok spans') : Fits es spans' := by
  induction hfits generalizing es spans' with
  | nil =>
    obtain rfl := List.length_eq_zero_iff.mp hlen.symm
    obtain rfl : [] = spans' := by simpa [repeatSpans] using h
    exact .nil
  | @cons d r ds spans hr hfits ih =>
    cases es with
    | nil => simp at hlen
    | cons e es =>
      obtain ⟨-, rest, hrest, rfl⟩ := repeatSpans_cons_eq_ok.mp h
      refine .cons ?_ (ih (by simpa using hlen) hrest)
      intro n hn
      subst hn
      rw [repeatSpan]
      split
      · next hde => exact hr n hde
      · split
        · exact Nat.le_refl n
        · exact Nat.zero_le n

theorem View.expand_eq_ok {target : Shape} :
    v.expand target = .ok w ↔ target.rank = v.shape.rank
      ∧ ∃ spans, repeatSpans v.shape target v.mask.isSome v.shape.dims target.dims
          (v.mask.getD []) = .ok spans
        ∧ w.formable = true ∧ w = create target v.strides v.offset (v.mask.map fun _ => spans) := by
  rw [View.expand, bind_eq_ok]
  constructor
  · rintro ⟨⟨⟩, hrank, h⟩
    obtain ⟨spans, hspans, h⟩ := bind_eq_ok.mp h
    exact ⟨requireRank_eq_ok.mp hrank, spans, hspans, formed_eq_ok.mp h⟩
  · rintro ⟨hrank, spans, hspans, hw⟩
    exact ⟨(), requireRank_eq_ok.mpr hrank, bind_eq_ok.mpr ⟨spans, hspans, formed_eq_ok.mpr hw⟩⟩

/-- A window is accepted exactly if it is neither reversed nor reaches outside. -/
theorem View.isOutside_eq_false {window : Span} {n : Nat} :
    isOutside window n = false ↔ window.start ≤ window.stop ∧ window.stop ≤ n := by
  simp [isOutside]

/-- Where no window is refused, the offset moves along all axes. -/
theorem View.shrink_eq {windows : List Span} {dims : List Nat} (hrank : windows.length = v.shape.rank)
    (hdims : v.shape.static? = some dims)
    (hwindows : ∀ q ∈ windows.zip dims, q.1.start ≤ q.1.stop ∧ q.1.stop ≤ q.2) :
    v.shrink windows = (requireWords (v.placeSums (windows.map Span.start))
      >>= fun _ => (v.shrunk windows).formed) := by
  have hlen : windows.length = dims.length := hrank.trans (Shape.rank_eq hdims)
  have hkeep : ∀ q ∈ windows.zip dims, (!isOutside q.1 q.2) = true := fun q hq => by
    rw [isOutside_eq_false.mpr (hwindows q hq)]
    rfl
  have hstarts : ((windows.zip dims).takeWhile fun q => !isOutside q.1 q.2).map (fun q => q.1.start)
      = windows.map Span.start := by
    rw [List.takeWhile_eq_self_iff.mpr hkeep]
    change (windows.zip dims).map (Span.start ∘ Prod.fst) = _
    rw [← List.map_map, List.map_fst_zip (Nat.le_of_eq hlen)]
  have hnone : (windows.zip dims).find? (fun q => isOutside q.1 q.2) = none :=
    List.find?_eq_none.mpr fun q hq => by rw [isOutside_eq_false.mpr (hwindows q hq)]; simp
  simp only [View.shrink, requireRank_eq_ok.mpr hrank, ok_bind, knownDims_eq_ok.mpr hdims, hstarts, hnone]

theorem View.shrink_eq_ok {windows : List Span} :
    v.shrink windows = .ok w ↔ windows.length = v.shape.rank ∧ ∃ dims,
      v.shape.static? = some dims
      ∧ (∀ q ∈ windows.zip dims, q.1.start ≤ q.1.stop ∧ q.1.stop ≤ q.2)
      ∧ (v.placeSums (windows.map Span.start)).all fitsWord = true ∧ w.formable = true
      ∧ w = create (.ofNats (windows.map fun w => w.stop - w.start)) v.strides
        (v.place (windows.map Span.start))
        (v.mask.map fun spans => List.zipWith clipSpan spans windows) := by
  have hinside (hrank : windows.length = v.shape.rank) {dims : List Nat}
      (hdims : v.shape.static? = some dims)
      (hwindows : ∀ q ∈ windows.zip dims, q.1.start ≤ q.1.stop ∧ q.1.stop ≤ q.2) :
      v.shrink windows = .ok w ↔ (v.placeSums (windows.map Span.start)).all fitsWord = true
        ∧ w.formable = true ∧ w = v.shrunk windows := by
    rw [shrink_eq hrank hdims hwindows, bind_eq_ok]
    constructor
    · rintro ⟨⟨⟩, hwords, h⟩
      exact ⟨requireWords_eq_ok.mp hwords, formed_eq_ok.mp h⟩
    · rintro ⟨hwords, h⟩
      exact ⟨(), requireWords_eq_ok.mpr hwords, formed_eq_ok.mpr h⟩
  constructor
  · intro h
    have h' := h
    rw [View.shrink, bind_eq_ok] at h'
    obtain ⟨⟨⟩, hrank, h'⟩ := h'
    obtain ⟨dims, hdims, h'⟩ := bind_eq_ok.mp h'
    obtain ⟨⟨⟩, -, h'⟩ := bind_eq_ok.mp h'
    have hrank := requireRank_eq_ok.mp hrank
    have hdims := knownDims_eq_ok.mp hdims
    split at h'
    · cases h'
    · next hnone =>
      have hwindows : ∀ q ∈ windows.zip dims, q.1.start ≤ q.1.stop ∧ q.1.stop ≤ q.2 := fun q hq =>
        isOutside_eq_false.mp (by simpa using List.find?_eq_none.mp hnone q hq)
      exact ⟨hrank, dims, hdims, hwindows, (hinside hrank hdims hwindows).mp h⟩
  · rintro ⟨hrank, dims, hdims, hwindows, h⟩
    exact (hinside hrank hdims hwindows).mpr h

theorem View.stride_eq_ok {factors : List Int} :
    v.stride factors = .ok w ↔ factors.length = v.shape.rank ∧ (∀ m ∈ factors, m ≠ 0) ∧ ∃ dims,
      v.shape.static? = some dims
      ∧ (strideSums v.offset.toInt (dims.zip (v.strides.zip factors))).all fitsWord = true
      ∧ w.formable = true
      ∧ w = create (.ofNats ((List.zipWith (fun n m => strideCount n m.natAbs) dims factors).take
          (List.zipWith (fun s m => s * .ofInt m) v.strides factors).length))
        (List.zipWith (fun s m => s * .ofInt m) v.strides factors)
        (v.place (List.zipWith strideStart dims factors))
        (v.mask.map fun spans =>
          List.zipWith (fun (n, m) r => strideSpan n m r) (dims.zip factors) spans) := by
  rw [View.stride, bind_eq_ok]
  by_cases hzero : factors.any (· = 0) = true
  · obtain ⟨m, hm, hm0⟩ := List.any_eq_true.mp hzero
    simp only [hzero, if_true, throw_eq_error, error_bind, reduceCtorEq, and_false, exists_const,
      false_iff]
    rintro ⟨-, hall, -⟩
    exact hall m hm (by simpa using hm0)
  · have hall : ∀ m ∈ factors, m ≠ 0 := fun m hm h0 =>
      hzero (List.any_eq_true.mpr ⟨m, hm, by simpa using h0⟩)
    simp only [hzero]
    constructor
    · rintro ⟨⟨⟩, hrank, h⟩
      obtain ⟨dims, hdims, h⟩ := bind_eq_ok.mp h
      obtain ⟨⟨⟩, hwords, h⟩ := bind_eq_ok.mp h
      exact ⟨requireRank_eq_ok.mp hrank, hall, dims, knownDims_eq_ok.mp hdims,
        requireWords_eq_ok.mp hwords, formed_eq_ok.mp h⟩
    · rintro ⟨hrank, -, dims, hdims, hwords, hw⟩
      exact ⟨(), requireRank_eq_ok.mpr hrank, bind_eq_ok.mpr ⟨dims, knownDims_eq_ok.mpr hdims,
        bind_eq_ok.mpr ⟨(), requireWords_eq_ok.mpr hwords, formed_eq_ok.mpr hw⟩⟩⟩

/-- A view is padded as it is, if the margins are empty, or by numbers that fit. -/
theorem View.pad_eq_ok {margins : List Margin} :
    v.pad margins = .ok w ↔ margins.length = v.shape.rank ∧ ∃ dims,
      v.shape.static? = some dims
      ∧ (¬margins.all (fun m => m.before = 0 && m.after = 0) = true →
        (v.padSums margins).all fitsWord = true
          ∧ (padCounts dims (v.spans dims) margins).all fitsCount = true ∧ w.formable = true)
      ∧ w = if margins.all (fun m => m.before = 0 && m.after = 0) then v
        else create (.ofNats (List.zipWith (fun n m => n + m.before + m.after) dims margins))
          v.strides
          ((margins.zip v.strides).foldl (fun acc (m, s) => acc - .ofNat m.before * s) v.offset)
          (some (List.zipWith (fun r m => ⟨r.start + m.before, r.stop + m.before⟩)
            (v.spans dims) margins)) := by
  rw [View.pad, bind_eq_ok]
  constructor
  · rintro ⟨⟨⟩, hrank, h⟩
    obtain ⟨dims, hdims, h⟩ := bind_eq_ok.mp h
    refine ⟨requireRank_eq_ok.mp hrank, dims, knownDims_eq_ok.mp hdims, ?_⟩
    split at h
    · next hall =>
      rw [if_pos hall]
      exact ⟨fun h => absurd hall h, (Except.ok.inj h).symm⟩
    · next hall =>
      obtain ⟨⟨⟩, hwords, h⟩ := bind_eq_ok.mp h
      obtain ⟨⟨⟩, hcounts, h⟩ := bind_eq_ok.mp h
      obtain ⟨hformable, hw⟩ := formed_eq_ok.mp h
      rw [if_neg hall]
      exact ⟨fun _ => ⟨requireWords_eq_ok.mp hwords, requireCounts_eq_ok.mp hcounts, hformable⟩, hw⟩
  · rintro ⟨hrank, dims, hdims, hfits, hw⟩
    refine ⟨(), requireRank_eq_ok.mpr hrank, bind_eq_ok.mpr ⟨dims, knownDims_eq_ok.mpr hdims, ?_⟩⟩
    split at hw
    · next hall => rw [if_pos hall, hw]; rfl
    · next hall =>
      obtain ⟨hwords, hcounts, hformable⟩ := hfits hall
      rw [if_neg hall]
      exact bind_eq_ok.mpr ⟨(), requireWords_eq_ok.mpr hwords,
        bind_eq_ok.mpr ⟨(), requireCounts_eq_ok.mpr hcounts, formed_eq_ok.mpr ⟨hformable, hw⟩⟩⟩

theorem View.strideCount_mono {m n : Nat} (h : m ≤ n) (step : Nat) :
    strideCount m step ≤ strideCount n step :=
  Nat.div_le_div_right (by omega)

/-- The ways in which a reshape gives a view: a dense view stays dense, unit axes come and go, or
axes without a mask are merged and split. -/
theorem View.reshape?_eq_some {target : Shape} (h : v.reshape? target = some w) :
    ∃ old new, v.shape.static? = some old ∧ target.static? = some new ∧ old.prod = new.prod
      ∧ (((v.contiguous = true ∨ new.prod = 0) ∧ w = ofShape target)
        ∨ (0 < new.prod ∧ dropUnits old old = dropUnits new new
          ∧ w = create target (insertUnits 0 new (dropUnits old v.strides)) v.offset
            (v.mask.map fun spans => insertUnits ⟨0, 1⟩ new (dropUnits old spans)))
        ∨ (0 < new.prod ∧ v.mask = none ∧ ∃ strides,
          mergeStrides (List.zipWith Axis.mk (dropUnits old old) (dropUnits old v.strides))
            (dropUnits new new) = some strides
          ∧ w = create target (insertUnits 0 new strides) v.offset none)) := by
  simp only [View.reshape?, Option.bind_eq_bind, Option.bind_eq_some_iff] at h
  obtain ⟨old, hold, new, hnew, h⟩ := h
  obtain ⟨hprod, h⟩ := Option.ite_none_left_eq_some.mp h
  refine ⟨old, new, hold, hnew, not_not.mp hprod, ?_⟩
  split at h
  · next hdense =>
    refine .inl ⟨by simpa using hdense, (Option.some.inj h).symm⟩
  · next hdense =>
    have hpos : 0 < new.prod := by
      simp only [Bool.or_eq_true, decide_eq_true_eq, not_or] at hdense
      exact Nat.pos_of_ne_zero hdense.2
    split at h
    · next hunits => exact .inr (.inl ⟨hpos, hunits, (Option.some.inj h).symm⟩)
    · obtain ⟨hmask, h⟩ := Option.ite_none_left_eq_some.mp h
      obtain ⟨strides, hmerge, h⟩ := Option.bind_eq_some_iff.mp h
      exact .inr (.inr ⟨hpos, by simpa using hmask, strides, hmerge, (Option.some.inj h).symm⟩)

/-- A single element can always be given another shape by one view. -/
theorem View.reshape?_of_single {target : Shape} {old new : List Nat}
    (hold : v.shape.static? = some old) (hnew : target.static? = some new)
    (hprod : old.prod = new.prod) (hone : new.prod = 1) : v.reshape? target ≠ none := by
  have hunits (dims : List Nat) (h : dims.prod = 1) : dropUnits dims dims = [] :=
    eq_nil_of_prod_eq_one (by rw [prod_dropUnits, h]) fun n hn => ne_one_of_mem_dropUnits hn
  simp only [View.reshape?, hold, hnew, Option.bind_eq_bind, Option.bind_some, hprod,
    hunits old (hprod.trans hone), hunits new hone]
  split
  · next hne => exact absurd rfl hne
  · split <;> simp

/-! ## Movements keep views proper -/

variable (hv : v.Proper)
include hv

theorem View.Proper.permute {axes : List Nat} (h : v.permute axes = .ok w) : w.Proper := by
  obtain ⟨hrank, hlt, -, -, rfl⟩ := permute_eq_ok.mp h
  apply proper_create
  · rw [length_pick (by rwa [hv.length_strides, ← hrank]), Shape.rank,
      length_pick (by rwa [← Shape.rank, ← hrank])]
  · intro spans hspans
    obtain ⟨spans, hmask, rfl⟩ := Option.map_eq_some_iff.mp hspans
    exact forall₂_pick (hv.fits spans hmask)

theorem View.Proper.expand {target : Shape} (h : v.expand target = .ok w) : w.Proper := by
  obtain ⟨hrank, spans, hrepeat, -, rfl⟩ := expand_eq_ok.mp h
  apply proper_create
  · rw [hv.length_strides, hrank]
  · intro spans' hspans
    obtain ⟨spans₀, hmask, rfl⟩ := Option.map_eq_some_iff.mp hspans
    rw [hmask] at hrepeat
    exact fits_repeatSpans hrank.symm (hv.fits spans₀ hmask) hrepeat

theorem View.Proper.shrink {windows : List Span} (h : v.shrink windows = .ok w) : w.Proper := by
  obtain ⟨hrank, dims, hdims, hwindows, -, -, rfl⟩ := shrink_eq_ok.mp h
  apply proper_create
  · rw [hv.length_strides, ← hrank]
    simp [Shape.rank, Shape.ofNats]
  · intro spans hspans
    obtain ⟨spans, hmask, rfl⟩ := Option.map_eq_some_iff.mp hspans
    have hlen : spans.length = windows.length := by rw [hv.length_spans hmask, hrank]
    refine fits_static_iff.mpr ⟨by simp [hlen], ?_⟩
    intro i h h'
    simp only [List.getElem_zipWith, List.getElem_map, clipSpan]
    omega

theorem View.Proper.stride {factors : List Int} (h : v.stride factors = .ok w) : w.Proper := by
  obtain ⟨hrank, -, dims, hdims, -, -, rfl⟩ := stride_eq_ok.mp h
  have hdims' : dims.length = v.shape.rank := (Shape.rank_eq hdims).symm
  have hlen : (List.zipWith (fun s m => s * Int64.ofInt m) v.strides factors).length
      = v.shape.rank := by
    rw [List.length_zipWith, hv.length_strides, hrank, Nat.min_self]
  have htake : (List.zipWith (fun n (m : Int) => strideCount n m.natAbs) dims factors).length
      ≤ v.shape.rank :=
    Nat.le_of_eq (by rw [List.length_zipWith, hdims', hrank, Nat.min_self])
  rw [hlen, List.take_of_length_le htake]
  apply proper_create
  · rw [hlen]
    simp [Shape.rank, Shape.ofNats, hdims', hrank]
  · intro spans hspans
    obtain ⟨spans, hmask, rfl⟩ := Option.map_eq_some_iff.mp hspans
    have hspans' : spans.length = v.shape.rank := hv.length_spans hmask
    have hfits := (fits_static_iff.mp (Shape.static?_eq_some.mp hdims ▸ hv.fits spans hmask)).2
    refine fits_static_iff.mpr ⟨by simp [hdims', hrank, hspans'], ?_⟩
    intro i h h'
    simp only [List.length_zipWith, List.length_zip] at h h'
    have hr := hfits i (by omega) (by omega)
    simp only [List.getElem_zipWith, List.getElem_zip, strideSpan]
    split
    · exact strideCount_mono hr _
    · exact strideCount_mono (Nat.sub_le _ _) _

theorem View.Proper.pad {margins : List Margin} (h : v.pad margins = .ok w) : w.Proper := by
  obtain ⟨hrank, dims, hdims, -, rfl⟩ := pad_eq_ok.mp h
  have hdims' : dims.length = v.shape.rank := (Shape.rank_eq hdims).symm
  split
  · exact hv
  apply proper_create
  · rw [hv.length_strides]
    simp [Shape.rank, Shape.ofNats, hdims', hrank]
  · rintro _ ⟨⟩
    obtain ⟨hlen, hfits⟩ := fits_static_iff.mp (hv.fits_spans hdims)
    refine fits_static_iff.mpr ⟨by simp [← hlen], ?_⟩
    intro i h h'
    simp only [List.length_zipWith] at h h'
    have hr := hfits i (by omega) (by omega)
    simp only [List.getElem_zipWith]
    omega

omit hv in
theorem View.reshape?_shape {target : Shape} (h : v.reshape? target = some w) :
    w.shape = target := by
  obtain ⟨-, -, -, -, -, ⟨-, rfl⟩ | ⟨-, -, rfl⟩ | ⟨-, -, -, -, rfl⟩⟩ := reshape?_eq_some h
  · exact ofShape_shape target
  · exact create_shape ..
  · exact create_shape ..

omit hv in
/-- A reshape hides nothing of a view without a mask. -/
theorem View.reshape?_mask {target : Shape} (h : v.reshape? target = some w)
    (hmask : v.mask = none) : w.mask = none := by
  obtain ⟨-, -, -, -, -, ⟨-, rfl⟩ | ⟨-, -, rfl⟩ | ⟨-, -, -, -, rfl⟩⟩ := reshape?_eq_some h
  · rfl
  · rw [hmask]
    rfl
  · rfl

omit hv v w in
/-- Spans that only move between unit axes stay inside the extents. -/
theorem fits_insertUnits {old new : List Nat} {spans : List Span}
    (hunits : dropUnits old old = dropUnits new new) (hfits : Fits (old.map .static) spans) :
    Fits (new.map .static) (insertUnits ⟨0, 1⟩ new (dropUnits old spans)) := by
  rw [Fits, List.forall₂_map_left_iff] at hfits ⊢
  refine forall₂_insertUnits ?_ (hunits ▸ forall₂_dropUnits hfits)
  intro n hn
  exact Nat.le_of_eq (Extent.static.inj hn)

theorem View.Proper.reshape? {target : Shape} (h : v.reshape? target = some w) : w.Proper := by
  obtain ⟨old, new, hold, hnew, -, ⟨-, rfl⟩ | ⟨-, hunits, rfl⟩ | ⟨-, -, -, -, rfl⟩⟩ :=
    reshape?_eq_some h
  · exact proper_ofShape target
  · apply proper_create
    · rw [length_insertUnits, Shape.rank_eq hnew]
    · intro spans hspans
      obtain ⟨spans, hmask, rfl⟩ := Option.map_eq_some_iff.mp hspans
      rw [Shape.static?_eq_some.mp hnew]
      exact fits_insertUnits hunits (Shape.static?_eq_some.mp hold ▸ hv.fits spans hmask)
  · exact proper_create (by rw [length_insertUnits, Shape.rank_eq hnew]) nofun

/-! ## A reshape keeps places -/

/-- A proper view that shows something shows the coordinate of every unit axis. -/
theorem View.Proper.unit_spans {dims : List Nat} (hs : v.shape.static? = some dims)
    {spans : List Span} (hmask : v.mask = some spans) (hfull : ∀ r ∈ spans, r.start < r.stop) :
    List.Forall₂ (fun n (r : Span) => n = 1 → r = ⟨0, 1⟩) dims spans := by
  have hfits := hv.fits spans hmask
  rw [Shape.static?_eq_some.mp hs, Fits, List.forall₂_map_left_iff] at hfits
  refine List.forall₂_iff_zip.mpr ⟨hfits.length_eq, ?_⟩
  intro n r hnr hn
  have hstop := (List.forall₂_iff_zip.mp hfits).2 hnr n rfl
  have hstart := hfull r (List.of_mem_zip hnr).2
  obtain ⟨start, stop⟩ := r
  simp only [Span.mk.injEq]
  simp only at hstop hstart
  omega

/-- A proper view shows a position exactly if it shows it along the axes that are no units, except
that a single element may be hidden. -/
theorem View.Proper.maskShows_dropUnits {dims : List Nat} (hs : v.shape.static? = some dims)
    (hpos : 0 < dims.prod) {spans : List Span} (hmask : v.mask = some spans) (flat : Nat) :
    (maskShows (some spans) (unravel dims flat)
        = maskShows (some (dropUnits dims spans)) (unravel (dropUnits dims dims) flat))
      ∨ (dims.prod = 1 ∧ v.offset = 0 ∧ maskShows (some spans) (unravel dims flat) = false) := by
  have hlen : spans.length = dims.length := by rw [hv.length_spans hmask, Shape.rank_eq hs]
  have hp := length_unravel (dropUnits dims dims) flat
  by_cases hfull : ∀ r ∈ spans, r.start < r.stop
  · left
    rw [unravel_eq_insertUnits hpos,
      maskShows_insertUnits hp hlen (hv.unit_spans hs hmask hfull)]
  · -- the view shows nothing, which the other axes tell if there are any
    obtain ⟨r, hr, hempty⟩ : ∃ r ∈ spans, r.stop ≤ r.start := by
      simpa [Nat.not_lt] using hfull
    obtain ⟨hoffset, hzero⟩ := hv.collapsed spans hmask ⟨r, hr, hempty⟩
    have hhidden : maskShows (some spans) (unravel dims flat) = false :=
      maskShows_eq_false (by rw [length_unravel, hlen]) hr hempty
    by_cases hone : dims.prod = 1
    · exact .inr ⟨hone, hoffset, hhidden⟩
    · have hdrop := length_dropUnits hlen
      have hne : dropUnits dims spans ≠ [] := by
        intro hnil
        rw [hnil, List.length_nil, eq_comm, List.length_eq_zero_iff] at hdrop
        rw [← prod_dropUnits, hdrop] at hone
        exact hone rfl
      obtain ⟨q, hq⟩ := List.exists_mem_of_ne_nil _ hne
      have hq0 := hzero q (mem_of_mem_dropUnits hq)
      left
      rw [hhidden, maskShows_eq_false (by rw [hp, hdrop]) hq (Nat.le_of_eq (by rw [hq0]))]

/-- Where only unit axes come and go, every position keeps its place, except that a hidden single
element comes into view. -/
theorem View.Proper.index_insertUnits {target : Shape} {old new : List Nat}
    (hold : v.shape.static? = some old) (hnew : target.static? = some new)
    (hpos : 0 < new.prod) (hprod : old.prod = new.prod)
    (hunits : dropUnits old old = dropUnits new new) (flat : Nat) :
    (create target (insertUnits 0 new (dropUnits old v.strides)) v.offset
        (v.mask.map fun spans => insertUnits ⟨0, 1⟩ new (dropUnits old spans))).index
        (unravel new flat)
      = if new.prod = 1 then some ((v.index (unravel old flat)).getD 0)
        else v.index (unravel old flat) := by
  have hstrides : v.strides.length = old.length := by rw [hv.length_strides, Shape.rank_eq hold]
  have hpos' : 0 < old.prod := hprod ▸ hpos
  have hold_eq := unravel_eq_insertUnits hpos' flat
  have hnew_eq := unravel_eq_insertUnits hpos flat
  rw [← hunits] at hnew_eq
  have hp := length_unravel (dropUnits old old) flat
  -- a single element has no coordinates but those of unit axes
  have hone : new.prod = 1 → unravel (dropUnits old old) flat = [] := fun h => by
    rw [eq_nil_of_prod_eq_one (by rw [prod_dropUnits, hprod, h]) fun n => ne_one_of_mem_dropUnits]
    rfl
  have hdot : dot (unravel new flat) (insertUnits 0 new (dropUnits old v.strides))
      = dot (unravel (dropUnits old old) flat) (dropUnits old v.strides) := by
    rw [hnew_eq, dot_insertUnits (by rw [hp, hunits]) (length_insertUnits _ _ _),
      dropUnits_insertUnits (by rw [length_dropUnits hstrides, hunits])]
  have hdot' : dot (unravel old flat) v.strides
      = dot (unravel (dropUnits old old) flat) (dropUnits old v.strides) := by
    rw [hold_eq, dot_insertUnits hp hstrides]
  rw [index_create hnew (inside_unravel hpos flat), hdot, View.index_eq, hdot']
  · cases hmask : v.mask with
    | none => simp [maskShows]
    | some spans =>
      have hspans : spans.length = old.length := by
        rw [hv.length_spans hmask, Shape.rank_eq hold]
      have hshows : maskShows (some (insertUnits ⟨0, 1⟩ new (dropUnits old spans)))
          (unravel new flat)
            = maskShows (some (dropUnits old spans)) (unravel (dropUnits old old) flat) := by
        rw [hnew_eq, maskShows_insertUnits (by rw [hp, hunits]) (length_insertUnits _ _ _)
          (insertUnits_unit _ _ _),
          dropUnits_insertUnits (by rw [length_dropUnits hspans, hunits])]
      rw [Option.map_some, hshows]
      -- dropping unit axes loses their spans, which counts for a single element only
      rcases hv.maskShows_dropUnits hold hpos' hmask flat with heq | ⟨h1, hoffset, hhidden⟩
      · rw [heq]
        by_cases h1 : new.prod = 1
        · rw [hone h1]
          simp [maskShows, h1]
        · rw [if_neg h1]
      · have h1 := hprod ▸ h1
        rw [hone h1, hhidden, if_pos h1, hoffset]
        simp [maskShows]
  · intro spans hspans
    obtain ⟨spans, hmask, rfl⟩ := Option.map_eq_some_iff.mp hspans
    exact length_insertUnits _ _ _

/-- Where axes are merged and split, every position keeps its place. -/
theorem View.Proper.index_merged {target : Shape} {old new : List Nat} {strides : List Int64}
    (hold : v.shape.static? = some old) (hnew : target.static? = some new)
    (hpos : 0 < new.prod) (hprod : old.prod = new.prod) (hmask : v.mask = none)
    (hmerge : mergeStrides (List.zipWith Axis.mk (dropUnits old old) (dropUnits old v.strides))
      (dropUnits new new) = some strides) (flat : Nat) :
    (create target (insertUnits 0 new strides) v.offset none).index (unravel new flat)
      = v.index (unravel old flat) := by
  have hstrides : v.strides.length = old.length := by rw [hv.length_strides, Shape.rank_eq hold]
  have hdrop := length_dropUnits hstrides
  have hextent : (List.zipWith Axis.mk (dropUnits old old) (dropUnits old v.strides)).map
      Axis.extent = dropUnits old old := by
    rw [← List.map_uncurry_zip_eq_zipWith, List.map_map]
    exact List.map_fst_zip (Nat.le_of_eq hdrop.symm)
  have hstride : (List.zipWith Axis.mk (dropUnits old old) (dropUnits old v.strides)).map
      Axis.stride = dropUnits old v.strides := by
    rw [← List.map_uncurry_zip_eq_zipWith, List.map_map]
    exact List.map_snd_zip (Nat.le_of_eq hdrop)
  obtain ⟨hlen, hdot⟩ := mergeStrides_dot hmerge
    (by rw [hextent, prod_dropUnits, prod_dropUnits, hprod]) (by rwa [prod_dropUnits])
    (by rw [hextent]; exact fun n h => ne_one_of_mem_dropUnits h)
    (fun n h => ne_one_of_mem_dropUnits h)
    flat
  rw [hextent, hstride] at hdot
  have hnew_dot : dot (unravel new flat) (insertUnits 0 new strides)
      = dot (unravel old flat) v.strides := by
    rw [unravel_eq_insertUnits hpos flat, unravel_eq_insertUnits (show 0 < old.prod by omega) flat,
      dot_insertUnits (length_unravel _ _) (length_insertUnits _ _ _), dropUnits_insertUnits hlen,
      hdot, dot_insertUnits (length_unravel _ _) hstrides]
  rw [index_create hnew (inside_unravel hpos flat) _ _ (by simp), View.index_eq, hmask, hnew_dot]
  simp [maskShows]

/-- A reshaped view reads each position where the view reads it, except that a hidden single element
comes into view. -/
theorem View.Proper.index_reshape? {target : Shape} {old new : List Nat}
    (h : v.reshape? target = some w) (hold : v.shape.static? = some old)
    (hnew : target.static? = some new) {flat : Nat} (hflat : flat < new.prod) :
    w.index (unravel new flat)
      = if new.prod = 1 then some ((v.index (unravel old flat)).getD 0)
        else v.index (unravel old flat) := by
  obtain ⟨old', new', hold', hnew', hprod, hcases⟩ := reshape?_eq_some h
  obtain rfl : old = old' := Option.some.inj (hold.symm.trans hold')
  obtain rfl : new = new' := Option.some.inj (hnew.symm.trans hnew')
  have hpos : 0 < new.prod := by omega
  rcases hcases with ⟨hdense | hzero, rfl⟩ | ⟨-, hunits, rfl⟩ | ⟨-, hmask, strides, hmerge, rfl⟩
  · rw [index_ofShape hnew hflat, index_of_contiguous hold hdense (hprod ▸ hflat)]
    simp
  · omega
  · exact hv.index_insertUnits hold hnew hpos hprod hunits flat
  · rw [hv.index_merged hold hnew hpos hprod hmask hmerge flat, View.index_eq, hmask]
    simp [maskShows]

end TensorGraph
