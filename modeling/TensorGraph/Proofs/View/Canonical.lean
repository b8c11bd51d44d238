import TensorGraph.Proofs.Tracker.Dense
/-!
# Movements that cancel

The canonical form of a view leaves no choice: without a mask, the offset and the strides can be
told from the places that are shown, and under a mask a movement and its inverse bring back every
span, stride and offset. So a movement that is taken back gives the same view, not just one that
shows the same, unless the way there or back is stopped where a number leaves its word.

- `View.Made.eq_of_index`: views without a mask that show the same are the same.
- `View.Made.eq_of_shown`: a view that shows something is told by its spans, strides and offset.
- `TakenBack`: what is known of a movement and the one that takes it back.
- `View.Made.cancels`: which pairs of movements give back a view, and a base its own tracker.
-/

namespace TensorGraph

/-! ## What a canonical form is made from -/

/-- The strides of unit axes are zero. -/
def UnitsStill (dims : List Nat) (strides : List Int64) : Prop :=
  List.Forall₂ (fun n s => n = 1 → s = 0) dims strides

theorem UnitsStill.zeroUnits_eq {dims : List Nat} {strides : List Int64}
    (h : UnitsStill dims strides) : zeroUnits (dims.map .static) strides = strides := by
  induction h with
  | nil => rfl
  | @cons n s dims strides hs _ ih =>
    simp only [zeroUnits, List.map_cons, List.zip_cons_cons] at ih ⊢
    rw [ih]
    split
    · next hn => rw [hs (Extent.static.inj hn)]
    · rfl

/-- A mask that shows everything is the one of full spans. -/
theorem eq_full_of_all {dims : List Nat} {spans : List Span} (hlen : spans.length = dims.length)
    (h : (spans.zip (dims.map Extent.static)).all
      (fun (r, d) => d.static?.any fun n => r = ⟨0, n⟩) = true) :
    spans = dims.map fun n => ⟨0, n⟩ := by
  induction dims generalizing spans with
  | nil => exact List.length_eq_zero_iff.mp hlen
  | cons n dims ih =>
    cases spans with
    | nil => simp at hlen
    | cons r spans =>
      simp only [List.map_cons, List.zip_cons_cons, List.all_cons, Extent.static?,
        Bool.and_eq_true, Option.any_some, decide_eq_true_eq] at h
      rw [h.1, ih (by simpa using hlen) h.2, List.map_cons]

/-- A movement of `x` with the outcome `first`, and one that takes it back. Either may be stopped where a
number leaves its word, but nothing else than `x` comes back. -/
structure TakenBack {β : Type} (x : β) (first : Except MovementError β)
    (back : β → Except MovementError β) (roomy : Prop) : Prop where
  /-- Unless one of the two is stopped, what was moved comes back. -/
  returns : first = .error .overflow
    ∨ ∃ y, first = .ok y ∧ (back y = .error .overflow ∨ back y = .ok x)
  /-- Neither is stopped if there is enough room in the words. -/
  ample : roomy → ∃ y, first = .ok y ∧ back y = .ok x

namespace View

variable {v w u : View} {dims : List Nat}

theorem Made.shape (hv : v.Made dims) : v.shape = .ofNats dims := Shape.eq_ofNats hv.static?

theorem Proper.unitsStill (hv : v.Proper) (hdims : v.shape.static? = some dims) :
    UnitsStill dims v.strides := by
  have hunits := hv.units
  rw [Shape.static?_eq_some.mp hdims, List.forall₂_map_left_iff] at hunits
  exact hunits.imp fun n s h hn => h (congrArg _ hn)

theorem Made.unitsStill (hv : v.Made dims) : UnitsStill dims v.strides :=
  hv.proper.unitsStill hv.static?

/-- A view in canonical form is made from its own parts. -/
theorem Made.create_eq (hv : v.Made dims) :
    create (.ofNats dims) v.strides v.offset v.mask = v := by
  obtain ⟨strides, offset, mask, -, -, rfl⟩ := hv
  exact create_create mask

theorem Made.length_spans_eq (hv : v.Made dims) : (v.spans dims).length = dims.length := by
  have := (hv.proper.fits_spans hv.static?).length_eq
  simpa using this.symm

/-- The spans of a mask that is moved, if a mask that shows everything stays one. -/
theorem getD_map_mask (dims : List Nat) {f : List Span → List Span} {full : List Span}
    (h : f (dims.map fun n => ⟨0, n⟩) = full) : (v.mask.map f).getD full = f (v.spans dims) := by
  rw [spans]
  cases v.mask with
  | none => exact h.symm
  | some spans => rfl

section Shown

variable {strides : List Int64} {offset : Int64} {mask : Option (List Span)} {spans : List Span}

/-- The parts of a canonical form are those that it was made from, so long as no span is empty and
unit axes have no stride. -/
theorem create_parts (hstrides : UnitsStill dims strides)
    (hspans : mask.getD (dims.map fun n => ⟨0, n⟩) = spans) (hlen : spans.length = dims.length)
    (hshown : ∀ r ∈ spans, r.start < r.stop) :
    (create (.ofNats dims) strides offset mask).strides = strides
      ∧ (create (.ofNats dims) strides offset mask).offset = offset
      ∧ (create (.ofNats dims) strides offset mask).spans dims = spans := by
  have hzero : zeroUnits (Shape.ofNats dims).dims strides = strides := hstrides.zeroUnits_eq
  cases mask with
  | none =>
    rw [create_none, hzero]
    exact ⟨rfl, rfl, hspans⟩
  | some spans' =>
    obtain rfl : spans' = spans := hspans
    have hempty : ¬spans'.any (fun r => r.stop ≤ r.start) = true := by
      intro hany
      obtain ⟨r, hr, hle⟩ := List.any_eq_true.mp hany
      have := hshown r hr
      simp at hle
      omega
    by_cases hfull : (spans'.zip (Shape.ofNats dims).dims).all
        (fun (r, d) => d.static?.any fun n => r = ⟨0, n⟩) = true
    · rw [create_full hempty hfull, create_none, hzero]
      exact ⟨rfl, rfl, (eq_full_of_all hlen hfull).symm⟩
    · rw [create_masked hempty hfull, hzero]
      exact ⟨rfl, rfl, rfl⟩

end Shown

/-! ## Views that show something -/

/-- A view that shows a position has no empty span. -/
theorem Made.spans_nonempty (hv : v.Made dims) {p : List Nat} (hp : Inside dims p)
    (h : v.index p ≠ none) : ∀ r ∈ v.spans dims, r.start < r.stop := by
  intro r hr
  by_contra hempty
  refine h ?_
  have hlen : p.length = (v.spans dims).length := by rw [hv.length_spans_eq, hp.length_eq]
  rw [index_eq, ← maskShows_spans hp, maskShows_eq_false hlen hr (by omega)]
  rfl

/-- A view without empty spans is told by its spans, strides and offset. -/
theorem Made.create_spans (hv : v.Made dims) (h : ∀ r ∈ v.spans dims, r.start < r.stop) :
    create (.ofNats dims) v.strides v.offset (some (v.spans dims)) = v := by
  have hcreate := hv.create_eq
  rw [spans] at h ⊢
  cases hmask : v.mask with
  | some spans => rwa [hmask] at hcreate
  | none =>
    rw [hmask, Option.getD_none] at h
    rw [hmask] at hcreate
    rw [Option.getD_none, create_full _ _, hcreate]
    · intro hany
      obtain ⟨r, hr, hle⟩ := List.any_eq_true.mp hany
      have := h r hr
      simp at hle
      omega
    · simp [Shape.ofNats, List.all_eq_true, List.zip_map', Extent.static?]

/-- Views that show something are the same if their parts are. -/
theorem Made.eq_of_shown (hv : v.Made dims) (hw : w.Made dims)
    (h : ∀ r ∈ v.spans dims, r.start < r.stop) (hstrides : w.strides = v.strides)
    (hoffset : w.offset = v.offset) (hspans : w.spans dims = v.spans dims) : w = v := by
  rw [← hw.create_spans (hspans ▸ h), hstrides, hoffset, hspans, hv.create_spans h]

/-- A view that shows nothing has an empty span. -/
theorem Made.exists_empty (hv : v.Made dims) (h : ∀ p, Inside dims p → v.index p = none) :
    ∃ r ∈ v.spans dims, r.stop ≤ r.start := by
  by_contra hshown
  have hshown : ∀ r ∈ v.spans dims, r.start < r.stop := fun r hr =>
    Nat.lt_of_not_le fun hle => hshown ⟨r, hr, hle⟩
  -- the position where all spans begin
  have hinside : Inside dims ((v.spans dims).map Span.start) := by
    rw [Inside, List.forall₂_map_right_iff]
    refine List.forall₂_iff_get.mpr ⟨hv.length_spans_eq.symm, fun i hi hi' => ?_⟩
    have hstart := hshown _ (List.getElem_mem hi')
    have hstop := (hv.spans_inside.get hi hi').2
    simp only [List.get_eq_getElem] at hstop ⊢
    omega
  have hvisible : maskShows (some (v.spans dims)) ((v.spans dims).map Span.start) = true := by
    rw [maskShows_iff (by simp), List.forall₂_map_left_iff, List.forall₂_same]
    exact fun r hr => ⟨Nat.le_refl _, hshown r hr⟩
  have hnone := h _ hinside
  rw [index_eq, ← maskShows_spans hinside, hvisible] at hnone
  cases hnone

/-- The one view that shows nothing, with the extents `dims`. -/
def blank (dims : List Nat) : View :=
  ⟨.ofNats dims, List.replicate dims.length 0, 0, some (List.replicate dims.length ⟨0, 0⟩)⟩

theorem Made.eq_blank (hv : v.Made dims) (hpos : ∀ n ∈ dims, n ≠ 0)
    (h : ∀ p, Inside dims p → v.index p = none) : v = blank dims := by
  obtain ⟨r, hr, hle⟩ := hv.exists_empty h
  obtain ⟨spans, hmask, hr⟩ : ∃ spans, v.mask = some spans ∧ r ∈ spans := by
    rw [spans] at hr
    cases hmask : v.mask with
    | some spans =>
      rw [hmask, Option.getD_some] at hr
      exact ⟨spans, rfl, hr⟩
    | none =>
      -- full spans are not empty
      rw [hmask, Option.getD_none] at hr
      obtain ⟨n, hn, rfl⟩ := List.mem_map.mp hr
      exact absurd (Nat.le_zero.mp hle) (hpos n hn)
  have hany : spans.any (fun r => r.stop ≤ r.start) = true :=
    List.any_eq_true.mpr ⟨r, hr, by simpa using hle⟩
  rw [← hv.create_eq, hmask, create_hidden hany, List.map_const', List.map_const',
    hv.length_spans hmask]
  rfl

/-- A view that is moved there and back is the same, if it shows nothing that it did not, and its
parts come back where it shows something. -/
theorem Made.eq_of_parts (hv : v.Made dims) (hw : w.Made dims) (hpos : ∀ n ∈ dims, n ≠ 0)
    (hhidden : (∀ p, Inside dims p → v.index p = none) → ∀ p, Inside dims p → w.index p = none)
    (hshown : (∀ r ∈ v.spans dims, r.start < r.stop) →
      w.strides = v.strides ∧ w.offset = v.offset ∧ w.spans dims = v.spans dims) : w = v := by
  by_cases h : ∃ p, Inside dims p ∧ v.index p ≠ none
  · obtain ⟨p, hinside, hindex⟩ := h
    have hspans := hv.spans_nonempty hinside hindex
    obtain ⟨hstrides, hoffset, hspans'⟩ := hshown hspans
    exact hv.eq_of_shown hw hspans hstrides hoffset hspans'
  · have hnone : ∀ p, Inside dims p → v.index p = none := fun p hp =>
      not_not.mp fun hindex => h ⟨p, hp, hindex⟩
    rw [hv.eq_blank hpos hnone, hw.eq_blank hpos (hhidden hnone)]

/-! ## Views without a mask -/

theorem prod_pos (hpos : ∀ n ∈ dims, n ≠ 0) : 0 < dims.prod := by
  induction dims with
  | nil => exact Nat.zero_lt_one
  | cons n dims ih =>
    obtain ⟨hn, hpos⟩ := List.forall_mem_cons.mp hpos
    rw [List.prod_cons]
    exact Nat.mul_pos (Nat.pos_of_ne_zero hn) (ih hpos)

/-- Strides that take every position equally far are the same. -/
theorem eq_of_dot_eq {strides strides' : List Int64} (h : UnitsStill dims strides)
    (h' : UnitsStill dims strides') (hpos : ∀ n ∈ dims, n ≠ 0)
    (hdot : ∀ p, Inside dims p → dot p strides' = dot p strides) : strides' = strides := by
  induction dims generalizing strides strides' with
  | nil =>
    cases h
    cases h'
    rfl
  | cons n dims ih =>
    cases h with
    | @cons _ s _ strides hs h =>
      cases h' with
      | @cons _ s' _ strides' hs' h' =>
        obtain ⟨hn, hpos⟩ := List.forall_mem_cons.mp hpos
        have htail : strides' = strides := by
          refine ih h h' hpos fun p hp => ?_
          simpa using hdot (0 :: p) (.cons (Nat.pos_of_ne_zero hn) hp)
        subst htail
        by_cases hone : n = 1
        · rw [hs hone, hs' hone]
        · -- one step along the first axis
          have hprod := prod_pos hpos
          have hstep := hdot (1 :: unravel dims 0) (.cons (by omega) (inside_unravel hprod 0))
          simp only [dot_cons, dot_unravel_zero hprod] at hstep
          have hs : s' = s := by grind
          rw [hs]

/-- Without a mask, views that show the same places are the same. -/
theorem Proper.eq_of_index (hv : v.Proper) (hw : w.Proper) (hvdims : v.shape.static? = some dims)
    (hwdims : w.shape.static? = some dims) (hpos : ∀ n ∈ dims, n ≠ 0) (hvmask : v.mask = none)
    (hwmask : w.mask = none) (h : ∀ p, Inside dims p → w.index p = v.index p) : w = v := by
  have hplace : ∀ p, Inside dims p → w.offset + dot p w.strides = v.offset + dot p v.strides := by
    intro p hp
    simpa [index_eq, maskShows, hvmask, hwmask] using h p hp
  have hprod := prod_pos hpos
  have hoffset : w.offset = v.offset := by
    simpa [dot_unravel_zero hprod] using hplace _ (inside_unravel hprod 0)
  have hstrides : w.strides = v.strides := by
    refine eq_of_dot_eq (hv.unitsStill hvdims) (hw.unitsStill hwdims) hpos fun p hp => ?_
    have hp := hplace p hp
    rw [hoffset] at hp
    grind
  refine View.ext ?_ hstrides hoffset (hwmask.trans hvmask.symm)
  rw [Shape.eq_ofNats hwdims, Shape.eq_ofNats hvdims]

/-! ## There and back -/

theorem Moved.outcome {result : Except MovementError View} {wellFormed fits roomy : Prop}
    {new : List Nat} {shows : List Nat → Option Int64}
    (h : Moved result wellFormed fits roomy new shows) (hwell : wellFormed) :
    result = .error .overflow ∨ ∃ w, result = .ok w := by
  by_cases hfits : fits
  · exact .inr (h.accepted.mpr ⟨hwell, hfits⟩)
  · exact .inl (h.stopped hwell hfits)

/-- A movement is taken back by another one if that can lead to nothing else. -/
theorem Moved.takenBack {first : Except MovementError View} {back : View → Except MovementError View}
    {wellFormed₁ wellFormed₂ fits₁ roomy₁ roomy : Prop} {fits₂ roomy₂ : View → Prop}
    {new₁ new₂ : List Nat} {shows₁ : List Nat → Option Int64}
    {shows₂ : View → List Nat → Option Int64}
    (hfirst : Moved first wellFormed₁ fits₁ roomy₁ new₁ shows₁) (hwell₁ : wellFormed₁)
    (hback : ∀ w, first = .ok w →
      Moved (back w) wellFormed₂ (fits₂ w) (roomy₂ w) new₂ (shows₂ w)) (hwell₂ : wellFormed₂)
    (heq : ∀ w u, first = .ok w → back w = .ok u → u = v) (hfits₁ : roomy → fits₁)
    (hfits₂ : roomy → ∀ w, first = .ok w → fits₂ w) : TakenBack v first back roomy where
  returns := by
    refine (hfirst.outcome hwell₁).imp_right ?_
    rintro ⟨w, hw⟩
    refine ⟨w, hw, ((hback w hw).outcome hwell₂).imp_right ?_⟩
    rintro ⟨u, hu⟩
    rw [hu, heq w u hw hu]
  ample hroomy := by
    obtain ⟨w, hw⟩ := hfirst.accepted.mpr ⟨hwell₁, hfits₁ hroomy⟩
    obtain ⟨u, hu⟩ := (hback w hw).accepted.mpr ⟨hwell₂, hfits₂ hroomy w hw⟩
    refine ⟨w, hw, ?_⟩
    rw [hu, heq w u hw hu]

/-- What keeps a movement of a view with the extents `dims`, and the one that takes it back, inside the
words. Expanding and shrinking are not taken back. -/
def Roomy (v : View) (dims : List Nat) : Movement → Prop
  | .permute _ => breadth dims < 2 ^ 63
  | .stride _ => breadth dims < 2 ^ 63 ∧ v.spread dims < 2 ^ 62
  | .pad margins => breadth dims < 2 ^ 63 ∧ v.spread (margins.map Margin.before) < 2 ^ 62
      ∧ ∀ q ∈ dims.zip margins, q.1 + q.2.before + q.2.after < 2 ^ 64
  | .reshape _ => v.Tame dims
  | .expand _ => False
  | .shrink _ => False

/-! ### Axes in another order -/

/-- The order of axes that puts those picked in the order `axes` back. -/
def inverseAxes (axes : List Nat) : List Nat := (List.range axes.length).map axes.idxOf

theorem mem_of_mem_pick {β : Type} {l : List β} {axes : List Nat} {x : β} (h : x ∈ pick l axes) :
    x ∈ l := by
  obtain ⟨a, -, ha⟩ := List.mem_filterMap.mp h
  exact List.mem_of_getElem? ha

theorem getElem?_idxOf {axes : List Nat} {a : Nat} (h : a ∈ axes) : axes[axes.idxOf a]? = some a := by
  rw [List.getElem?_eq_getElem (List.idxOf_lt_length_iff.mpr h), List.getElem_idxOf]

theorem pick_inverseAxes {axes : List Nat} (hperm : axes.Perm (List.range axes.length)) :
    pick axes (inverseAxes axes) = List.range axes.length := by
  rw [pick, inverseAxes, List.filterMap_map]
  calc (List.range axes.length).filterMap ((axes[·]?) ∘ axes.idxOf)
      = (List.range axes.length).filterMap some :=
        List.filterMap_congr fun a ha => getElem?_idxOf (hperm.mem_iff.mpr ha)
    _ = List.range axes.length := List.filterMap_some

theorem inverseAxes_perm {axes : List Nat} (hperm : axes.Perm (List.range axes.length)) :
    (inverseAxes axes).Perm (List.range axes.length) := by
  refine perm_range ?_ ?_ (by simp [inverseAxes])
  · refine List.nodup_range.map_on fun a ha b hb hab => ?_
    have h := getElem?_idxOf (hperm.mem_iff.mpr ha)
    rw [hab, getElem?_idxOf (hperm.mem_iff.mpr hb)] at h
    exact (Option.some.inj h).symm
  · intro i hi
    obtain ⟨a, ha, rfl⟩ := List.mem_map.mp hi
    exact List.idxOf_lt_length_iff.mpr (hperm.mem_iff.mpr ha)

theorem Made.permute_parts (hv : v.Made dims) (hshown : ∀ r ∈ v.spans dims, r.start < r.stop)
    {axes : List Nat} (hw : v.permute axes = .ok w) :
    w.strides = pick v.strides axes ∧ w.offset = v.offset
      ∧ w.spans (pick dims axes) = pick (v.spans dims) axes := by
  obtain ⟨hlen, hlt, -, -, rfl⟩ := permute_eq_ok.mp hw
  have hshape : (⟨pick v.shape.dims axes⟩ : Shape) = .ofNats (pick dims axes) := by
    rw [hv.shape, Shape.ofNats, Shape.ofNats, pick_map]
  have hlt : ∀ a ∈ axes, a < dims.length := by rwa [← hv.rank, ← hlen]
  rw [hshape]
  refine create_parts (forall₂_pick hv.unitsStill) (getD_map_mask dims ?_) ?_ ?_
  · rw [pick_map]
  · rw [length_pick hlt, length_pick (by rwa [hv.length_spans_eq])]
  · intro r hr
    exact hshown r (mem_of_mem_pick hr)

theorem Made.eq_of_permute_back (hv : v.Made dims) (hpos : ∀ n ∈ dims, n ≠ 0) {axes : List Nat}
    (hperm : axes.Perm (List.range dims.length)) (hw : v.permute axes = .ok w)
    (hu : w.permute (inverseAxes axes) = .ok u) : u = v := by
  have hlt : ∀ a ∈ axes, a < dims.length := fun a ha => List.mem_range.mp (hperm.mem_iff.mp ha)
  have hlen : axes.length = dims.length := by rw [hperm.length_eq, List.length_range]
  have hperm' : axes.Perm (List.range axes.length) := hlen ▸ hperm
  have hback {β : Type} {l : List β} (hl : l.length = dims.length) :
      pick (pick l axes) (inverseAxes axes) = l := by
    rw [pick_pick (by rwa [hl]), pick_inverseAxes hperm', hlen, ← hl, pick_range]
  have hwmade := (hv.permute axes).made w hw
  have hinverse : (inverseAxes axes).Perm (List.range (pick dims axes).length) := by
    rw [length_pick hlt]
    exact inverseAxes_perm hperm'
  have humade := (hwmade.permute (inverseAxes axes)).made u hu
  have huindex := (hwmade.permute (inverseAxes axes)).index u hu
  rw [hback rfl] at humade huindex
  -- a view that hides all is told by that, and any other by its parts
  refine hv.eq_of_parts humade hpos ?_ ?_
  · intro hnone p hp
    rw [huindex p hp]
    have hinside := inside_permuted hinverse (by rwa [hback rfl])
    rw [(hv.permute axes).index w hw _ hinside]
    exact hnone _ (inside_permuted hperm hinside)
  · intro hshown
    obtain ⟨hstrides, hoffset, hspans⟩ := hv.permute_parts hshown hw
    have hshown' : ∀ r ∈ w.spans (pick dims axes), r.start < r.stop := by
      intro r hr
      rw [hspans] at hr
      exact hshown r (mem_of_mem_pick hr)
    obtain ⟨hstrides', hoffset', hspans'⟩ := hwmade.permute_parts hshown' hu
    rw [hback rfl, hspans, hback hv.length_spans_eq] at hspans'
    rw [hstrides, hback hv.length_strides] at hstrides'
    exact ⟨hstrides', hoffset'.trans hoffset, hspans'⟩

/-- Axes that are put back. -/
theorem Made.permute_back (hv : v.Made dims) (hpos : ∀ n ∈ dims, n ≠ 0) {axes : List Nat}
    (hperm : axes.Perm (List.range dims.length)) :
    TakenBack v (v.permute axes) (fun w => w.permute (inverseAxes axes))
      (v.Roomy dims (.permute axes)) := by
  have hlen : axes.length = dims.length := by rw [hperm.length_eq, List.length_range]
  have hlt : ∀ a ∈ axes, a < dims.length := fun a ha => List.mem_range.mp (hperm.mem_iff.mp ha)
  have hinverse : (inverseAxes axes).Perm (List.range (pick dims axes).length) := by
    rw [length_pick hlt]
    exact inverseAxes_perm (hlen ▸ hperm)
  have hbroad : breadth (pick dims axes) = breadth dims := by
    rw [breadth_perm (pick_perm hperm dims), pick_range]
  exact (hv.permute axes).takenBack hperm
    (fun w hw => ((hv.permute axes).made w hw).permute (inverseAxes axes)) hinverse
    (fun w u hw hu => hv.eq_of_permute_back hpos hperm hw hu)
    (fun hroomy => (hv.permute axes).ample hperm hroomy)
    (fun hroomy w hw => (((hv.permute axes).made w hw).permute _).ample hinverse (hbroad ▸ hroomy))

/-! ### Flipping axes twice -/

/-- A factor that keeps its axis or flips it. -/
def Turns (m : Int) : Prop := m = 1 ∨ m = -1

theorem strideCount_one (n : Nat) : strideCount n 1 = n := by simp [strideCount]

theorem Turns.natAbs {m : Int} (h : Turns m) : m.natAbs = 1 := by
  rcases h with rfl | rfl <;> rfl

theorem Turns.ne_zero {m : Int} (h : Turns m) : m ≠ 0 := by
  rcases h with rfl | rfl <;> decide

/-- Turning an axis keeps its extent. -/
theorem strideCounts_of_turns {factors : List Int} (hlen : factors.length = dims.length)
    (h : ∀ m ∈ factors, Turns m) :
    List.zipWith (fun n (m : Int) => strideCount n m.natAbs) dims factors = dims := by
  refine List.ext_getElem (by simp [hlen]) fun i hi hi' => ?_
  rw [List.getElem_zipWith, (h _ (List.getElem_mem _)).natAbs, strideCount_one]

theorem strideSpan_one (n : Nat) (r : Span) : strideSpan n 1 r = r := by
  simp [strideSpan, strideCount_one]

theorem strideSpan_neg_one (n : Nat) (r : Span) :
    strideSpan n (-1) r = ⟨n - r.stop, n - r.start⟩ := by
  simp [strideSpan, strideCount_one]

/-- An axis that is turned twice shows the span that it showed. -/
theorem Turns.strideSpan_strideSpan {m : Int} (h : Turns m) {n : Nat} {r : Span}
    (hr : r.start ≤ r.stop ∧ r.stop ≤ n) : strideSpan n m (strideSpan n m r) = r := by
  rcases h with rfl | rfl
  · rw [strideSpan_one, strideSpan_one]
  · rw [strideSpan_neg_one, strideSpan_neg_one]
    obtain ⟨start, stop⟩ := r
    simp only [Span.mk.injEq] at hr ⊢
    omega

theorem Turns.strideSpan_full {m : Int} (h : Turns m) (n : Nat) :
    strideSpan n m ⟨0, n⟩ = ⟨0, n⟩ := by
  rcases h with rfl | rfl
  · rw [strideSpan_one]
  · rw [strideSpan_neg_one, Nat.sub_self, Nat.sub_zero]

theorem Turns.strideSpan_nonempty {m : Int} (h : Turns m) {n : Nat} {r : Span}
    (hr : r.start < r.stop) (hstop : r.stop ≤ n) :
    (strideSpan n m r).start < (strideSpan n m r).stop := by
  rcases h with rfl | rfl
  · rwa [strideSpan_one]
  · rw [strideSpan_neg_one]
    dsimp only
    omega

/-- The spans after axes are turned. -/
def turnedSpans (dims : List Nat) (factors : List Int) (spans : List Span) : List Span :=
  List.zipWith (fun (n, m) r => strideSpan n m r) (dims.zip factors) spans

section Turned

variable {factors : List Int} {spans : List Span}

theorem turnedSpans_full (hlen : factors.length = dims.length) (h : ∀ m ∈ factors, Turns m) :
    turnedSpans dims factors (dims.map fun n => ⟨0, n⟩) = dims.map fun n => ⟨0, n⟩ := by
  refine List.ext_getElem (by simp [turnedSpans, hlen]) fun i hi hi' => ?_
  simp only [turnedSpans, List.getElem_zipWith, List.getElem_zip, List.getElem_map]
  exact (h _ (List.getElem_mem _)).strideSpan_full _

theorem turnedSpans_turnedSpans (hlen : factors.length = dims.length) (h : ∀ m ∈ factors, Turns m)
    (hspans : List.Forall₂ (fun n (r : Span) => r.start ≤ r.stop ∧ r.stop ≤ n) dims spans) :
    turnedSpans dims factors (turnedSpans dims factors spans) = spans := by
  have hspans_len := hspans.length_eq
  refine List.ext_getElem (by simp [turnedSpans, hlen, hspans_len]) fun i hi hi' => ?_
  simp only [turnedSpans, List.getElem_zipWith, List.getElem_zip]
  exact (h _ (List.getElem_mem _)).strideSpan_strideSpan (hspans.get (by omega) hi')

theorem turnedSpans_nonempty (h : ∀ m ∈ factors, Turns m)
    (hspans : List.Forall₂ (fun n (r : Span) => r.start ≤ r.stop ∧ r.stop ≤ n) dims spans)
    (hshown : ∀ r ∈ spans, r.start < r.stop) :
    ∀ r ∈ turnedSpans dims factors spans, r.start < r.stop := by
  intro r hr
  obtain ⟨i, hi, rfl⟩ := List.mem_iff_getElem.mp hr
  simp only [turnedSpans, List.length_zipWith, List.length_zip] at hi
  simp only [turnedSpans, List.getElem_zipWith, List.getElem_zip]
  refine (h _ (List.getElem_mem _)).strideSpan_nonempty (hshown _ (List.getElem_mem _)) ?_
  exact (hspans.get (i := i) (by omega) (by omega)).2

/-- The distances to the starts of two turns are opposite. -/
theorem dot_strideStart (dims : List Nat) (h : ∀ m ∈ factors, Turns m) (strides : List Int64) :
    dot (List.zipWith strideStart dims factors) strides
      + dot (List.zipWith strideStart dims factors)
        (List.zipWith (fun s m => s * .ofInt m) strides factors) = 0 := by
  induction dims generalizing factors strides with
  | nil => simp
  | cons n dims ih =>
    cases factors with
    | nil => simp
    | cons m factors =>
      cases strides with
      | nil => simp
      | cons s strides =>
        obtain ⟨hm, h⟩ := List.forall_mem_cons.mp h
        have ih := ih h strides
        simp only [List.zipWith_cons_cons, dot_cons]
        rcases hm with rfl | rfl
        · simp only [strideStart]
          grind
        · simp only [strideStart]
          grind

/-- Strides that are turned twice are the same. -/
theorem turnedStrides_turnedStrides (h : ∀ m ∈ factors, Turns m) {strides : List Int64}
    (hlen : strides.length ≤ factors.length) :
    List.zipWith (fun s m => s * .ofInt m) (List.zipWith (fun s m => s * .ofInt m) strides factors)
      factors = strides := by
  refine List.ext_getElem (by simpa using Nat.min_eq_left hlen) fun i hi hi' => ?_
  simp only [List.getElem_zipWith]
  rcases h factors[i] (List.getElem_mem _) with hm | hm
  · rw [hm]
    grind
  · rw [hm]
    grind

end Turned

theorem Made.turn_parts (hv : v.Made dims) (hshown : ∀ r ∈ v.spans dims, r.start < r.stop)
    {factors : List Int} (h : ∀ m ∈ factors, Turns m) (hw : v.stride factors = .ok w) :
    w.strides = List.zipWith (fun s m => s * .ofInt m) v.strides factors
      ∧ w.offset = v.offset + dot (List.zipWith strideStart dims factors) v.strides
      ∧ w.spans dims = turnedSpans dims factors (v.spans dims) := by
  obtain ⟨hlen, -, dims', hdims, -, -, rfl⟩ := stride_eq_ok.mp hw
  obtain rfl : dims = dims' := Option.some.inj (hv.static?.symm.trans hdims)
  have hlen : factors.length = dims.length := hlen.trans hv.rank
  rw [strideCounts_of_turns hlen h, List.take_of_length_le (by simp [hlen, hv.length_strides]),
    ← place_eq]
  refine create_parts ?_ (getD_map_mask dims (turnedSpans_full hlen h)) ?_ ?_
  · refine List.forall₂_iff_get.mpr ⟨by simp [hlen, hv.length_strides], fun i hi hi' hone => ?_⟩
    have hstride := hv.unitsStill.get hi (by simp [hv.length_strides, hi]) hone
    simp only [List.get_eq_getElem, List.getElem_zipWith] at hstride ⊢
    rw [hstride, Int64.zero_mul]
  · simp [turnedSpans, hlen, hv.length_spans_eq]
  · exact turnedSpans_nonempty h hv.spans_inside hshown

theorem Made.eq_of_turn_back (hv : v.Made dims) (hpos : ∀ n ∈ dims, n ≠ 0) {factors : List Int}
    (hlen : factors.length = dims.length) (h : ∀ m ∈ factors, Turns m)
    (hw : v.stride factors = .ok w) (hu : w.stride factors = .ok u) : u = v := by
  have hfactors : ∀ m ∈ factors, m ≠ 0 := fun m hm => (h m hm).ne_zero
  have hcounts := strideCounts_of_turns hlen h
  have hwmade := (hv.stride factors).made w hw
  rw [hcounts] at hwmade
  have humade := (hwmade.stride factors).made u hu
  rw [hcounts] at humade
  refine hv.eq_of_parts humade hpos ?_ ?_
  · have hsource {p : List Nat} (hp : Inside dims p) :
        Inside dims ((Movement.stride factors).source dims p) :=
      (stride_spec hfactors hlen hv.length_strides (by rwa [hcounts])).1
    intro hnone p hp
    rw [(hwmade.stride factors).index u hu p (by rwa [hcounts]),
      (hv.stride factors).index w hw _ (by rw [hcounts]; exact hsource hp)]
    exact hnone _ (hsource (hsource hp))
  · intro hshown
    obtain ⟨hstrides, hoffset, hspans⟩ := hv.turn_parts hshown h hw
    have hshown' : ∀ r ∈ w.spans dims, r.start < r.stop := by
      rw [hspans]
      exact turnedSpans_nonempty h hv.spans_inside hshown
    obtain ⟨hstrides', hoffset', hspans'⟩ := hwmade.turn_parts hshown' h hu
    have hdot := dot_strideStart dims h v.strides
    rw [hstrides, turnedStrides_turnedStrides h (by rw [hlen, hv.length_strides])] at hstrides'
    rw [hspans, turnedSpans_turnedSpans hlen h hv.spans_inside] at hspans'
    rw [hstrides, hoffset] at hoffset'
    refine ⟨hstrides', ?_, hspans'⟩
    rw [hoffset']
    grind

/-- A turn starts inside the axis, and its stride is as long as before. -/
theorem stretch_turned {factors : List Int} (h : ∀ m ∈ factors, Turns m) (dims : List Nat)
    (strides : List Int64) :
    stretch dims (List.zipWith (fun s m => s * .ofInt m) strides factors) ≤ stretch dims strides
      ∧ stretch (List.zipWith strideStart dims factors) strides ≤ stretch dims strides := by
  induction dims generalizing factors strides with
  | nil => simp
  | cons n dims ih =>
    cases strides with
    | nil => simp
    | cons s strides =>
      cases factors with
      | nil => simp
      | cons m factors =>
        obtain ⟨hm, h⟩ := List.forall_mem_cons.mp h
        obtain ⟨hstrides, hstarts⟩ := ih h strides
        have hstep : (s * Int64.ofInt m).toInt.natAbs ≤ s.toInt.natAbs := by
          have hunit : (Int64.ofInt m).toInt.natAbs = 1 := by rcases hm with rfl | rfl <;> rfl
          have := natAbs_toInt_mul_le s (.ofInt m)
          rwa [hunit, Nat.mul_one] at this
        have hstart : strideStart n m ≤ n := by
          rw [strideStart]
          split <;> omega
        simp only [List.zipWith_cons_cons, stretch_cons]
        exact ⟨Nat.add_le_add (Nat.mul_le_mul_left _ hstep) hstrides,
          Nat.add_le_add (Nat.mul_le_mul_right _ hstart) hstarts⟩

/-- A turned view lies at most twice as far from the beginning of the store. -/
theorem spread_turned {factors : List Int} (h : ∀ m ∈ factors, Turns m) (hw : v.stride factors = .ok w)
    (hdims : v.shape.static? = some dims) : w.spread dims ≤ 2 * v.spread dims := by
  obtain ⟨-, -, dims', hdims', -, -, rfl⟩ := stride_eq_ok.mp hw
  obtain rfl : dims = dims' := Option.some.inj (hdims.symm.trans hdims')
  obtain ⟨hstrides, hstarts⟩ := stretch_turned h dims v.strides
  have hspread := spread_create_le
    (.ofNats ((List.zipWith (fun n (m : Int) => strideCount n m.natAbs) dims factors).take
      (List.zipWith (fun s m => s * Int64.ofInt m) v.strides factors).length))
    (List.zipWith (fun s m => s * Int64.ofInt m) v.strides factors)
    (v.place (List.zipWith strideStart dims factors))
    (v.mask.map fun spans =>
      List.zipWith (fun (n, m) r => strideSpan n m r) (dims.zip factors) spans) dims
  refine hspread.trans ?_
  have hoffset := natAbs_toInt_add_le v.offset (dot (List.zipWith strideStart dims factors) v.strides)
  have hdot := natAbs_dot_le (List.zipWith strideStart dims factors) v.strides
  rw [place_eq, spread]
  omega

/-- The stride of an axis with a coordinate is no longer than the axes reach. -/
theorem natAbs_le_stretch {strides : List Int64} (hpos : ∀ n ∈ dims, n ≠ 0)
    (hlen : strides.length = dims.length) {s : Int64} (hs : s ∈ strides) :
    s.toInt.natAbs ≤ stretch dims strides := by
  induction dims generalizing strides with
  | nil =>
    obtain rfl := List.length_eq_zero_iff.mp hlen
    cases hs
  | cons n dims ih =>
    cases strides with
    | nil => cases hs
    | cons s' strides =>
      obtain ⟨hn, hpos⟩ := List.forall_mem_cons.mp hpos
      rw [stretch_cons]
      rcases List.mem_cons.mp hs with rfl | hs
      · exact (Nat.le_mul_of_pos_left _ (Nat.pos_of_ne_zero hn)).trans (Nat.le_add_right _ _)
      · exact (ih hpos (by simpa using hlen) hs).trans (Nat.le_add_left _ _)

theorem Made.turn_fits (hv : v.Made dims) (hpos : ∀ n ∈ dims, n ≠ 0) {factors : List Int}
    (hlen : factors.length = dims.length) (h : ∀ m ∈ factors, Turns m) (hbroad : breadth dims < 2 ^ 63)
    (hspread : v.spread dims < 2 ^ 63) : v.Affords dims (.stride factors) := by
  refine (hv.stride factors).ample ⟨hlen, fun m hm => (h m hm).ne_zero⟩ ⟨hbroad, hspread, ?_⟩
  rintro ⟨s, m⟩ hq
  obtain ⟨hs, hm⟩ := List.of_mem_zip hq
  have := natAbs_le_stretch hpos hv.length_strides hs
  rw [Int.natAbs_mul, (h m hm).natAbs, Nat.mul_one]
  rw [spread] at hspread
  dsimp only
  omega

/-- Axes that are flipped twice. -/
theorem Made.turn_back (hv : v.Made dims) (hpos : ∀ n ∈ dims, n ≠ 0) {factors : List Int}
    (hlen : factors.length = dims.length) (h : ∀ m ∈ factors, Turns m) :
    TakenBack v (v.stride factors) (fun w => w.stride factors) (v.Roomy dims (.stride factors)) := by
  have hwell : factors.length = dims.length ∧ ∀ m ∈ factors, m ≠ 0 :=
    ⟨hlen, fun m hm => (h m hm).ne_zero⟩
  have hmade {w : View} (hw : v.stride factors = .ok w) : w.Made dims := by
    have := (hv.stride factors).made w hw
    rwa [strideCounts_of_turns hlen h] at this
  refine (hv.stride factors).takenBack hwell (fun w hw => (hmade hw).stride factors) hwell
    (fun w u hw hu => hv.eq_of_turn_back hpos hlen h hw hu) ?_ ?_
  · rintro ⟨hbroad, hspread⟩
    exact hv.turn_fits hpos hlen h hbroad (by omega)
  · rintro ⟨hbroad, hspread⟩ w hw
    have := spread_turned h hw hv.static?
    exact (hmade hw).turn_fits hpos hlen h hbroad (by omega)

/-! ### Cutting off what was added -/

/-- The windows that show a padded tensor without its margins. -/
def innerWindows (dims : List Nat) (margins : List Margin) : List Span :=
  List.zipWith (fun n m => ⟨m.before, m.before + n⟩) dims margins

section Margins

variable {margins : List Margin} {spans : List Span}

/-- The extents of a padded tensor. -/
def paddedDims (dims : List Nat) (margins : List Margin) : List Nat :=
  List.zipWith (fun n m => n + m.before + m.after) dims margins

/-- The spans of a padded tensor. -/
def paddedSpans (spans : List Span) (margins : List Margin) : List Span :=
  List.zipWith (fun r m => ⟨r.start + m.before, r.stop + m.before⟩) spans margins

theorem innerWindows_extents (hlen : margins.length = dims.length) :
    (innerWindows dims margins).map (fun r => r.stop - r.start) = dims :=
  List.ext_getElem (by simp [innerWindows, hlen]) fun i hi hi' => by simp [innerWindows]

theorem innerWindows_starts (hlen : margins.length = dims.length) :
    (innerWindows dims margins).map Span.start = margins.map Margin.before :=
  List.ext_getElem (by simp [innerWindows, hlen]) fun i hi hi' => by simp [innerWindows]

theorem innerWindows_inside (dims : List Nat) (margins : List Margin) :
    List.Forall₂ (fun n (r : Span) => r.start ≤ r.stop ∧ r.stop ≤ n) (paddedDims dims margins)
      (innerWindows dims margins) := by
  refine List.forall₂_iff_get.mpr ⟨by simp [paddedDims, innerWindows], fun i hi hi' => ?_⟩
  simp only [List.get_eq_getElem, paddedDims, innerWindows, List.getElem_zipWith]
  omega

/-- Clipping the spans of a padded tensor gives the spans before. -/
theorem clip_paddedSpans (hlen : margins.length = dims.length)
    (hspans : List.Forall₂ (fun n (r : Span) => r.start ≤ r.stop ∧ r.stop ≤ n) dims spans) :
    List.zipWith clipSpan (paddedSpans spans margins) (innerWindows dims margins) = spans := by
  have hspans_len := hspans.length_eq
  refine List.ext_getElem (by simp [paddedSpans, innerWindows, hlen, hspans_len]) fun i hi hi' => ?_
  have hr := hspans.get (i := i) (by omega) hi'
  simp only [List.get_eq_getElem, paddedSpans, innerWindows, clipSpan, List.getElem_zipWith] at hr ⊢
  generalize spans[i] = r at hr ⊢
  obtain ⟨start, stop⟩ := r
  simp only [Span.mk.injEq] at hr ⊢
  omega

theorem dot_of_zeros {p : List Nat} (h : ∀ i ∈ p, i = 0) (strides : List Int64) :
    dot p strides = 0 := by
  induction p generalizing strides with
  | nil => simp
  | cons i p ih =>
    obtain ⟨rfl, hp⟩ := List.forall_mem_cons.mp h
    cases strides with
    | nil => simp
    | cons s strides => simp [ih hp]

end Margins

theorem Made.pad_parts (hv : v.Made dims) (hpos : ∀ n ∈ dims, n ≠ 0)
    (hshown : ∀ r ∈ v.spans dims, r.start < r.stop) {margins : List Margin}
    (hw : v.pad margins = .ok w) :
    w.strides = v.strides ∧ w.offset = v.offset - dot (margins.map Margin.before) v.strides
      ∧ w.spans (paddedDims dims margins) = paddedSpans (v.spans dims) margins := by
  obtain ⟨hlen, dims', hdims, -, rfl⟩ := pad_eq_ok.mp hw
  obtain rfl : dims = dims' := Option.some.inj (hv.static?.symm.trans hdims)
  have hlen : margins.length = dims.length := hlen.trans hv.rank
  have hspans_len := hv.length_spans_eq
  split
  · next hall =>
    have hzero : ∀ m ∈ margins, m.before = 0 ∧ m.after = 0 := by simpa using hall
    have hbefore : ∀ i ∈ margins.map Margin.before, i = 0 := by
      intro i hi
      obtain ⟨m, hm, rfl⟩ := List.mem_map.mp hi
      exact (hzero m hm).1
    have hextents : paddedDims dims margins = dims := by
      refine List.ext_getElem (by simp [paddedDims, hlen]) fun i hi hi' => ?_
      have := hzero margins[i] (List.getElem_mem _)
      simp [paddedDims, this]
    have hspans : paddedSpans (v.spans dims) margins = v.spans dims := by
      refine List.ext_getElem (by simp [paddedSpans, hlen, hspans_len]) fun i hi hi' => ?_
      have := hzero margins[i] (List.getElem_mem _)
      simp [paddedSpans, this]
    rw [dot_of_zeros hbefore, hextents, hspans]
    exact ⟨rfl, by grind, rfl⟩
  · -- what is a unit axis after the padding was one before, and no span becomes empty
    rw [foldl_margins]
    refine create_parts ?_ rfl ?_ ?_
    · refine List.forall₂_iff_get.mpr ⟨by simp [hlen, hv.length_strides], fun i hi hi' hone => ?_⟩
      simp only [List.get_eq_getElem, List.getElem_zipWith] at hone
      have hi : i < dims.length := by rwa [← hv.length_strides]
      have hn := hpos dims[i] (List.getElem_mem _)
      exact hv.unitsStill.get hi hi' (by simp only [List.get_eq_getElem]; omega)
    · simp [paddedSpans, hlen, hspans_len]
    · intro r hr
      obtain ⟨i, hi, rfl⟩ := List.mem_iff_getElem.mp hr
      simp only [paddedSpans, List.length_zipWith] at hi
      have hr := hshown (v.spans dims)[i] (List.getElem_mem _)
      simp only [paddedSpans, List.getElem_zipWith]
      omega

theorem Made.shrink_parts (hv : v.Made dims) {windows : List Span} {new : List Nat}
    (hnew : windows.map (fun r => r.stop - r.start) = new) (hstrides : UnitsStill new v.strides)
    (hshown : ∀ r ∈ List.zipWith clipSpan (v.spans dims) windows, r.start < r.stop)
    (hw : v.shrink windows = .ok w) :
    w.strides = v.strides ∧ w.offset = v.offset + dot (windows.map Span.start) v.strides
      ∧ w.spans new = List.zipWith clipSpan (v.spans dims) windows := by
  obtain ⟨hlen, dims', hdims, hwindows, -, -, rfl⟩ := shrink_eq_ok.mp hw
  obtain rfl : dims = dims' := Option.some.inj (hv.static?.symm.trans hdims)
  have hlen : windows.length = dims.length := hlen.trans hv.rank
  subst hnew
  rw [← place_eq]
  refine create_parts hstrides (getD_map_mask dims ?_) ?_ hshown
  · refine List.ext_getElem (by simp [hlen]) fun i hi hi' => ?_
    simp only [List.length_map] at hi'
    have hwindow := hwindows (windows[i], dims[i])
      (List.mem_iff_getElem.mpr ⟨i, by simp [hlen]; omega, by simp⟩)
    simp only at hwindow
    simp only [List.getElem_zipWith, List.getElem_map, clipSpan, Span.mk.injEq]
    omega
  · simp [hlen, hv.length_spans_eq]

theorem Made.eq_of_pad_back (hv : v.Made dims) (hpos : ∀ n ∈ dims, n ≠ 0) {margins : List Margin}
    (hlen : margins.length = dims.length) (hw : v.pad margins = .ok w)
    (hu : w.shrink (innerWindows dims margins) = .ok u) : u = v := by
  have hwmade := (hv.pad margins).made w hw
  have hshrink := hwmade.shrink (innerWindows dims margins)
  have hextents := innerWindows_extents hlen
  have humade := hshrink.made u hu
  rw [hextents] at humade
  refine hv.eq_of_parts humade hpos ?_ ?_
  · intro hnone p hp
    have hp' : Inside ((innerWindows dims margins).map fun r => r.stop - r.start) p := by
      rwa [hextents]
    have hinside := List.forall₂_iff_zip.mp (innerWindows_inside dims margins).flip
    have hsource := inside_shrunk hinside.1 (fun q hq => hinside.2 hq) hp'
    rw [hshrink.index u hu p hp', Movement.source, (hv.pad margins).index w hw _ hsource]
    refine Option.bind_eq_none_iff.mpr fun q hq => ?_
    exact hnone q (unpad_eq_some hq).2.1
  · intro hshown
    obtain ⟨hstrides, hoffset, hspans⟩ := hv.pad_parts hpos hshown hw
    have hclip : List.zipWith clipSpan (w.spans (paddedDims dims margins))
        (innerWindows dims margins) = v.spans dims := by
      rw [hspans, clip_paddedSpans hlen hv.spans_inside]
    obtain ⟨hstrides', hoffset', hspans'⟩ := hwmade.shrink_parts hextents
      (hstrides ▸ hv.unitsStill) (fun r hr => hshown r (hclip ▸ hr)) hu
    rw [hstrides, hoffset, innerWindows_starts hlen] at hoffset'
    refine ⟨hstrides'.trans hstrides, ?_, hspans'.trans hclip⟩
    rw [hoffset']
    grind

/-- A padded view lies at most twice as far from the beginning of the store. -/
theorem spread_padded {margins : List Margin} (hw : v.pad margins = .ok w) :
    w.spread (margins.map Margin.before) ≤ 2 * v.spread (margins.map Margin.before) := by
  obtain ⟨-, dims, -, -, rfl⟩ := pad_eq_ok.mp hw
  split
  · omega
  · have hspread := spread_create_le
      (.ofNats (List.zipWith (fun n (m : Margin) => n + m.before + m.after) dims margins)) v.strides
      (v.offset - dot (margins.map Margin.before) v.strides)
      (some (List.zipWith (fun r (m : Margin) => (⟨r.start + m.before, r.stop + m.before⟩ : Span))
        (v.spans dims) margins)) (margins.map Margin.before)
    rw [← foldl_margins] at hspread
    refine hspread.trans ?_
    have hoffset := natAbs_toInt_sub_le v.offset (dot (margins.map Margin.before) v.strides)
    have hdot := natAbs_dot_le (margins.map Margin.before) v.strides
    rw [foldl_margins, spread]
    omega

/-- Margins that are cut off again. -/
theorem Made.pad_back (hv : v.Made dims) (hpos : ∀ n ∈ dims, n ≠ 0) {margins : List Margin}
    (hlen : margins.length = dims.length) :
    TakenBack v (v.pad margins) (fun w => w.shrink (innerWindows dims margins))
      (v.Roomy dims (.pad margins)) := by
  have hextents := innerWindows_extents hlen
  refine (hv.pad margins).takenBack hlen (fun w hw => ((hv.pad margins).made w hw).shrink _)
    (innerWindows_inside dims margins) (fun w u hw hu => hv.eq_of_pad_back hpos hlen hw hu) ?_ ?_
  · rintro ⟨-, hspread, hcounts⟩
    exact (hv.pad margins).ample hlen ⟨hcounts, by omega⟩
  · rintro ⟨hbroad, hspread, -⟩ w hw
    constructor
    · refine runningResults_strides Int.natAbs_add_le (List.forall₂_same.mpr fun i _ => Nat.le_refl i) ?_
      have := spread_padded hw
      rw [innerWindows_starts hlen]
      rw [spread] at this
      omega
    · have hshape : (w.shrunk (innerWindows dims margins)).shape.static? = some dims := by
        rw [shrunk, create_shape, Shape.static?_ofNats, hextents]
      exact formable_of_breadth hshape hbroad

/-! ### Giving back a shape -/

/-- A reshape that is taken back leads to the view itself. -/
theorem Made.reshape_back (hv : v.Made dims) (hpos : ∀ n ∈ dims, n ≠ 0) (hmask : v.mask = none)
    {target : Shape} (hw : v.reshape? target = some w) : w.reshape? (.ofNats dims) = some v := by
  obtain ⟨old, new, hold, hnew, hprod, -⟩ := reshape?_eq_some hw
  obtain rfl : dims = old := Option.some.inj (hv.static?.symm.trans hold)
  obtain rfl := Shape.eq_ofNats hnew
  have hw' := hv.proper.samePlaces_reshape? hold hmask hw
  have hwproper := hv.proper.reshape? hw
  have hwdims : w.shape.static? = some new := by rw [hw'.shape, Shape.static?_ofNats]
  -- the view itself shows that some view has the places of the reshaped one
  have hself : SamePlaces new dims w v :=
    ⟨hv.shape, hv.length_strides, hmask, fun flat hflat => (hw'.index flat (hprod ▸ hflat)).symm⟩
  obtain ⟨u, hu⟩ := Option.isSome_iff_exists.mp
    (hself.reshape?_isSome hwdims hw'.length_strides hw'.unmasked (hprod ▸ prod_pos hpos) hprod)
  have hu' := hwproper.samePlaces_reshape? hwdims hw'.unmasked hu
  have hudims : u.shape.static? = some dims := by rw [hu'.shape, Shape.static?_ofNats]
  rw [hu, hv.proper.eq_of_index (hwproper.reshape? hu) hold hudims hpos hmask hu'.unmasked]
  intro p hp
  have hflat := ravel_lt hp
  have := (hu'.index _ hflat).trans (hw'.index _ (hprod ▸ hflat))
  rwa [unravel_ravel hp] at this

/-- Shapes with as many elements are as broad, if there is one. -/
theorem breadth_of_prod_eq {new : List Nat} (hpos : ∀ n ∈ dims, n ≠ 0) (hprod : dims.prod = new.prod) :
    breadth new = breadth dims := by
  have hdims := prod_pos hpos
  rw [breadth_eq_prod hdims, breadth_eq_prod (hprod ▸ hdims), hprod]

/-- The way back of a reshape may be stopped, which it is not for tame views. -/
theorem Made.tryReshape_back (hv : v.Made dims) (hpos : ∀ n ∈ dims, n ≠ 0) (hmask : v.mask = none)
    {target : Shape} (hw : v.tryReshape target = .ok (some w)) :
    (w.tryReshape (.ofNats dims) = .error .overflow ∨ w.tryReshape (.ofNats dims) = .ok (some v))
      ∧ (v.Tame dims → w.tryReshape (.ofNats dims) = .ok (some v)) := by
  obtain ⟨-, hw⟩ := tryReshape_eq_ok.mp hw
  have hback := hv.reshape_back hpos hmask hw
  constructor
  · rw [tryReshape, hback]
    split
    · exact .inr rfl
    · exact .inl rfl
  · intro htame
    obtain ⟨old, new, hold, hnew, hprod, -⟩ := reshape?_eq_some hw
    obtain rfl : dims = old := Option.some.inj (hv.static?.symm.trans hold)
    obtain rfl := Shape.eq_ofNats hnew
    have hbroad : breadth new < 2 ^ 63 := breadth_of_prod_eq hpos hprod ▸ htame.broad
    rw [(htame.reshape? hbroad hw).tryReshape htame.broad, hback]

/-! ## All pairs -/

/-- The movements that give back a view with the extents `dims`, each together with the one that
takes it back. -/
structure Cancels (dims : List Nat) (v : View) : Prop where
  /-- Without a mask, a view is told by what it shows. -/
  canonical : v.mask = none → ∀ w : View, w.Made dims → w.mask = none →
    (∀ p, Inside dims p → w.index p = v.index p) → w = v
  /-- Axes are put back in order. -/
  permute : ∀ axes, axes.Perm (List.range dims.length) →
    TakenBack v (v.permute axes) (fun w => w.permute (inverseAxes axes))
      (v.Roomy dims (.permute axes))
  /-- Axes are flipped twice. -/
  flip : ∀ factors : List Int, factors.length = dims.length → (∀ m ∈ factors, Turns m) →
    TakenBack v (v.stride factors) (fun w => w.stride factors) (v.Roomy dims (.stride factors))
  /-- Margins are cut off. -/
  pad : ∀ margins, margins.length = dims.length →
    TakenBack v (v.pad margins) (fun w => w.shrink (innerWindows dims margins))
      (v.Roomy dims (.pad margins))
  /-- A shape is given back, where no mask is in the way and a view can express the other shape. -/
  reshape : v.mask = none → ∀ target w, v.tryReshape target = .ok (some w) →
    (w.tryReshape (.ofNats dims) = .error .overflow ∨ w.tryReshape (.ofNats dims) = .ok (some v))
      ∧ (v.Roomy dims (.reshape target) → w.tryReshape (.ofNats dims) = .ok (some v))

end View

/-- A movement of a tensor with the extents `dims`, and the movement that takes it back. -/
inductive Movement.Cancels (dims : List Nat) : Movement → Movement → Prop
  /-- Axes are put back in order. -/
  | permute {axes : List Nat} (h : axes.Perm (List.range dims.length)) :
    Cancels dims (.permute axes) (.permute (View.inverseAxes axes))
  /-- Axes are flipped twice. -/
  | flip {factors : List Int} (hlen : factors.length = dims.length)
    (h : ∀ m ∈ factors, View.Turns m) : Cancels dims (.stride factors) (.stride factors)
  /-- Margins are cut off. -/
  | pad {margins : List Margin} (hlen : margins.length = dims.length) :
    Cancels dims (.pad margins) (.shrink (View.innerWindows dims margins))
  /-- A shape is given back. -/
  | reshape {target : Shape} (h : target.elements? = some dims.prod) :
    Cancels dims (.reshape target) (.reshape (.ofNats dims))

/-- A movement of the topmost view is taken back in a tracker if it is taken back in the view. -/
theorem TakenBack.setTop {t : Tracker} {first : Except MovementError View}
    {back : View → Except MovementError View} {roomy : Prop} (h : TakenBack t.top first back roomy) :
    TakenBack t (t.setTop <$> first) (fun u => u.setTop <$> back u.top) roomy where
  returns := by
    rcases h.returns with h | ⟨w, hw, hback⟩
    · exact .inl (by rw [h]; rfl)
    · refine .inr ⟨t.setTop w, by rw [hw]; rfl, hback.imp ?_ ?_⟩
      · intro hback
        rw [show (t.setTop w).top = w from rfl, hback]
        rfl
      · intro hback
        rw [show (t.setTop w).top = w from rfl, hback]
        rfl
  ample hroomy := by
    obtain ⟨w, hw, hback⟩ := h.ample hroomy
    refine ⟨t.setTop w, by rw [hw]; rfl, ?_⟩
    rw [show (t.setTop w).top = w from rfl, hback]
    rfl

/-- A dense store takes a shape with as many elements, unless it is stopped, and then is dense. -/
theorem Tracker.reshape_ofShape_outcome {source target : Shape} {n : Nat}
    (hsource : source.elements? = some n) (htarget : target.elements? = some n) :
    (ofShape source).reshape target = .error .overflow
      ∨ (ofShape source).reshape target = .ok (.ofShape target) := by
  by_cases hsame : target = source
  · subst hsame
    exact .inr (reshape_eq_ok.mpr (.inl ⟨(shape_ofShape target).symm, rfl⟩))
  by_cases hfits : (ofShape source).ReshapeFits target
  · exact .inr (reshape_ofShape hsource htarget hfits)
  · have hne : target ≠ (ofShape source).shape := by rwa [shape_ofShape]
    exact .inl ((reshape_outcome (by rwa [shape_ofShape]) htarget).2 (not_or.mpr ⟨hne, hfits⟩))

/-- The tracker of a base comes back under movements that cancel. -/
theorem Base.tracker_back {b : Base} {dims : List Nat} (hshape : b.shape = .ofNats dims)
    (hpos : ∀ n ∈ dims, n ≠ 0) {m back : Movement} (h : m.Cancels dims back) :
    TakenBack b.tracker (b.tracker.move m) (fun t => t.move back) (b.tracker.top.Roomy dims m) := by
  have hmade : b.tracker.top.Made dims := by
    refine ⟨denseStrides (dims.map .static), 0, none, ?_, nofun, ?_⟩
    · rw [length_denseStrides, List.length_map]
    · change View.ofShape b.shape = _
      rw [hshape]
      rfl
  cases h with
  | permute h => exact (hmade.permute_back hpos h).setTop
  | flip hlen h => exact (hmade.turn_back hpos hlen h).setTop
  | pad hlen => exact (hmade.pad_back hpos hlen).setTop
  | @reshape target h =>
    have hsource : (Shape.ofNats dims).elements? = some dims.prod := Shape.elements?_ofNats dims
    have hfirst := Tracker.reshape_ofShape_outcome hsource h
    have hback := Tracker.reshape_ofShape_outcome h hsource
    have htracker : b.tracker = .ofShape (.ofNats dims) := by rw [Base.tracker, hshape]
    rw [htracker]
    constructor
    case returns => exact hfirst.imp_right fun hfirst => ⟨_, hfirst, hback⟩
    case ample =>
      intro htame
      obtain ⟨new, hnew, hprod⟩ := Shape.static?_of_elements? h
      obtain rfl := Shape.eq_ofNats hnew
      have hbroad : breadth new < 2 ^ 63 := View.breadth_of_prod_eq hpos hprod.symm ▸ htame.broad
      exact ⟨_, Tracker.reshape_ofShape hsource h (Tracker.reshapeFits_ofShape htame.broad hbroad),
        Tracker.reshape_ofShape h hsource (Tracker.reshapeFits_ofShape hbroad htame.broad)⟩

/-- Canonical views with extents other than zero are told by what they show without a mask, and
come back under movements that cancel, unless one of these is stopped. So does the tracker of a base. -/
theorem View.Made.cancels {dims : List Nat} (hpos : ∀ n ∈ dims, n ≠ 0) :
    (∀ v : View, v.Made dims → v.Cancels dims)
      ∧ ∀ b : Base, b.shape = .ofNats dims → ∀ m back, Movement.Cancels dims m back →
        TakenBack b.tracker (b.tracker.move m) (fun t => t.move back)
          (b.tracker.top.Roomy dims m) := by
  refine ⟨fun v hv => ⟨?_, ?_, ?_, ?_, ?_⟩, fun b hshape m back h => Base.tracker_back hshape hpos h⟩
  · exact fun hmask w hw hwmask h =>
      hv.proper.eq_of_index hw.proper hv.static? hw.static? hpos hmask hwmask h
  · exact fun axes h => hv.permute_back hpos h
  · exact fun factors hlen h => hv.turn_back hpos hlen h
  · exact fun margins hlen => hv.pad_back hpos hlen
  · exact fun hmask target w h => hv.tryReshape_back hpos hmask h

/-- Two elements between two hidden positions. -/
def View.framedPair : View := create (.ofNats [4]) [1] (-1) (some [⟨1, 3⟩])

theorem View.framedPair_made : framedPair.Made [4] := by
  refine ⟨[1], -1, some [⟨1, 3⟩], rfl, ?_, rfl⟩
  rintro _ ⟨⟩
  exact fits_static_iff.mpr ⟨rfl, by decide⟩

/-- Flipped it is another view, and flipped again it is itself. -/
theorem View.cancels_framedPair :
    (∀ n ∈ [4], n ≠ 0) ∧ framedPair.Made [4] ∧ ∃ w, framedPair.stride [-1] = .ok w
      ∧ w = create (.ofNats [4]) [-1] 2 (some [⟨1, 3⟩]) ∧ w.stride [-1] = .ok framedPair := by
  have hpos : ∀ n ∈ [4], n ≠ 0 := by decide
  have hcancels := (Made.cancels hpos).1 framedPair framedPair_made
  obtain ⟨w, hw, hback⟩ := (hcancels.flip [-1] rfl (by simp [Turns])).ample (by
    rw [Roomy]
    decide)
  refine ⟨hpos, framedPair_made, w, hw, ?_, hback⟩
  have hflipped : framedPair.stride [-1] = .ok (create (.ofNats [4]) [-1] 2 (some [⟨1, 3⟩])) := rfl
  exact Except.ok.inj (hw.symm.trans hflipped)

/-- Two elements so far apart that a margin before them begins beyond the words. -/
theorem View.pad_overflows : ∃ v : View, v.Made [2] ∧ v.pad [⟨2, 0⟩] = .error .overflow :=
  ⟨create (.ofNats [2]) [2 ^ 62] 0 none, ⟨[2 ^ 62], 0, none, rfl, nofun, rfl⟩, by decide +kernel⟩

end TensorGraph
