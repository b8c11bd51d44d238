import TensorGraph.Proofs.View.Exact
import TensorGraph.Proofs.View.Laws
/-!
# Views that are reshaped inside the words

A reshape multiplies extents and strides: it counts the elements on both sides, compares the strides of
axes that it merges, and finds those of the axes that it splits. All of this stays inside the words if
the shapes are not too broad and no axis reaches too far, and a reshape keeps it so.

- `View.Tame`: views that are not too broad, and whose axes do not reach too far.
- `AxisRun.products_fits`: the strides of the runs of such axes are found inside the words.
- `View.Tame.tryReshape`, `View.Tame.reshape?`: a reshape of such a view is never stopped, and gives
  another one.
- `View.Proper.tryReshape_exact`: a reshape that is not stopped finds a view wherever there is one.
-/

namespace TensorGraph

/-! ## Axes -/

/-- How far an axis reaches, the place after its last coordinate included. -/
def Axis.reach (a : Axis) : Nat := a.extent * a.stride.toInt.natAbs

/-- An extent and a stride of an axis that stays inside the signed words. -/
def Short (n : Nat) (s : Int64) : Prop := n * s.toInt.natAbs < 2 ^ 63

instance (n : Nat) (s : Int64) : Decidable (Short n s) := inferInstanceAs (Decidable (_ < _))

theorem short_zero (n : Nat) : Short n 0 := by simp [Short]

theorem toInt_ofNat_mul {n : Nat} {s : Int64} (h : n * s.toInt.natAbs < 2 ^ 63) :
    (Int64.ofNat n * s).toInt = n * s.toInt := by
  have hword : (n * s.toInt).natAbs < 2 ^ 63 := by rwa [Int.natAbs_mul, Int.natAbs_natCast]
  rw [Int64.toInt_mul, Int64.toInt_ofNat', Int.bmod_mul_bmod, Int.bmod_def]
  simp only [Int64.size]
  omega

theorem natAbs_ofNat_mul {n : Nat} {s : Int64} (h : n * s.toInt.natAbs < 2 ^ 63) :
    (Int64.ofNat n * s).toInt.natAbs = n * s.toInt.natAbs := by
  rw [toInt_ofNat_mul h, Int.natAbs_mul, Int.natAbs_natCast]

theorem mergeProducts_fits {axes : List Axis} (h : ∀ a ∈ axes, a.reach < 2 ^ 63) :
    (mergeProducts axes).all fitsWord = true := by
  induction axes with
  | nil => rfl
  | cons a axes ih =>
    cases axes with
    | nil => rfl
    | cons b axes =>
      have hrest := (List.forall_mem_cons.mp h).2
      have hb := hrest b List.mem_cons_self
      rw [mergeProducts, List.all_cons,
        fitsWord_of_natAbs ((residue_mul_natAbs_le (Nat.le_refl _) hb).trans_lt hb), Bool.true_and]
      split
      · exact ih hrest
      · rfl

/-- The strides of axes that merge are exact multiples of the innermost one. -/
theorem natAbs_stride_of_mergeable {a : Axis} {axes : List Axis} (hmerge : mergeable (a :: axes) = true)
    (h : ∀ b ∈ a :: axes, b.reach < 2 ^ 63) :
    a.stride.toInt.natAbs
      = (axes.map Axis.extent).prod * (lastStride (a :: axes)).toInt.natAbs := by
  induction axes generalizing a with
  | nil => simp [lastStride]
  | cons b axes ih =>
    rw [mergeable, Bool.and_eq_true, decide_eq_true_eq] at hmerge
    have hrest := (List.forall_mem_cons.mp h).2
    rw [hmerge.1, natAbs_ofNat_mul (hrest b List.mem_cons_self), ih hmerge.2 hrest,
      lastStride_cons_cons, List.map_cons, List.prod_cons, Nat.mul_assoc]

/-- Axes that merge reach together as far as the outermost one. -/
theorem reach_of_mergeable {axes : List Axis} (hmerge : mergeable axes = true)
    (h : ∀ a ∈ axes, a.reach < 2 ^ 63) :
    (axes.map Axis.extent).prod * (lastStride axes).toInt.natAbs < 2 ^ 63 := by
  cases axes with
  | nil => simp [lastStride]
  | cons a axes =>
    rw [List.map_cons, List.prod_cons, Nat.mul_assoc, ← natAbs_stride_of_mergeable hmerge h]
    exact h a List.mem_cons_self

section Split

variable {stride : Int64} {extents : List Nat}

theorem prod_tail_mul_le {n m : Nat} {extents : List Nat} (h : 0 < (n :: extents).prod) :
    extents.prod * m ≤ (n :: extents).prod * m := by
  rw [List.prod_cons]
  exact Nat.mul_le_mul_right _ (Nat.le_mul_of_pos_left _ (prod_cons_pos h).1)

theorem splitProducts_fits (hpos : 0 < extents.prod)
    (h : extents.prod * stride.toInt.natAbs < 2 ^ 63) :
    (splitProducts stride extents).all fitsWord = true := by
  induction extents with
  | nil => rfl
  | cons n extents ih =>
    have hrest := (prod_tail_mul_le hpos).trans_lt h
    rw [List.prod_cons, Nat.mul_assoc] at h
    rw [splitProducts, List.all_cons, ih (prod_cons_pos hpos).2 hrest, Bool.and_true,
      splitStridesAround_snd, Int.mul_comm]
    rw [← natAbs_ofNat_mul hrest] at h
    exact fitsWord_of_natAbs ((residue_mul_natAbs_le (Nat.le_refl _) h).trans_lt h)

/-- The axes that a run is split into reach no farther than the run. -/
theorem reach_splitStrides (hpos : 0 < extents.prod)
    (h : extents.prod * stride.toInt.natAbs < 2 ^ 63) :
    List.Forall₂ Short extents
      (splitStridesAround stride extents).1 := by
  induction extents with
  | nil => exact .nil
  | cons n extents ih =>
    have hrest := (prod_tail_mul_le hpos).trans_lt h
    refine .cons ?_ (ih (prod_cons_pos hpos).2 hrest)
    rwa [splitStridesAround_snd, Short, natAbs_ofNat_mul hrest, ← Nat.mul_assoc, ← List.prod_cons]

end Split

/-! ## Runs -/

namespace AxisRun

/-- The new axes of a run that merges reach as far as the old ones. -/
theorem Balanced.reach_lt {r : AxisRun} (hr : r.Balanced) (hmerge : mergeable r.axes = true)
    (h : ∀ a ∈ r.axes, a.reach < 2 ^ 63) :
    r.extents.prod * r.innermost.toInt.natAbs < 2 ^ 63 := by
  rw [← hr.2]
  exact reach_of_mergeable hmerge h

theorem products_fits {runs : List AxisRun} (hruns : ∀ r ∈ runs, r.Balanced)
    (hpos : 0 < (runs.flatMap extents).prod) (h : ∀ r ∈ runs, ∀ a ∈ r.axes, a.reach < 2 ^ 63) :
    (products runs).all fitsWord = true := by
  induction runs with
  | nil => rfl
  | cons r runs ih =>
    obtain ⟨hr, hruns⟩ := List.forall_mem_cons.mp hruns
    obtain ⟨haxes, h⟩ := List.forall_mem_cons.mp h
    rw [List.flatMap_cons, List.prod_append] at hpos
    have hextents : 0 < r.extents.prod := Nat.pos_of_mul_pos_right hpos
    rw [products, List.all_append, mergeProducts_fits haxes, Bool.true_and]
    split
    · next hmerge =>
      rw [List.all_append, ih hruns (Nat.pos_of_mul_pos_left hpos) h, Bool.and_true]
      have hreach := hr.reach_lt hmerge haxes
      cases hsplit : r.extents with
      | nil => rfl
      | cons n rest =>
        rw [hsplit] at hextents hreach
        exact splitProducts_fits (prod_cons_pos hextents).2 ((prod_tail_mul_le hextents).trans_lt hreach)
    · rfl

theorem reach_strides {runs : List AxisRun} (hruns : ∀ r ∈ runs, r.Balanced)
    (hmerge : ∀ r ∈ runs, mergeable r.axes = true) (hpos : 0 < (runs.flatMap extents).prod)
    (h : ∀ r ∈ runs, ∀ a ∈ r.axes, a.reach < 2 ^ 63) :
    List.Forall₂ Short (runs.flatMap extents)
      (runs.flatMap strides) := by
  induction runs with
  | nil => exact .nil
  | cons r runs ih =>
    obtain ⟨hr, hruns⟩ := List.forall_mem_cons.mp hruns
    obtain ⟨hmerge', hmerge⟩ := List.forall_mem_cons.mp hmerge
    obtain ⟨haxes, h⟩ := List.forall_mem_cons.mp h
    rw [List.flatMap_cons, List.prod_append] at hpos
    rw [List.flatMap_cons, List.flatMap_cons]
    exact List.rel_append (reach_splitStrides (Nat.pos_of_mul_pos_right hpos)
      (hr.reach_lt hmerge' haxes)) (ih hruns hmerge (Nat.pos_of_mul_pos_left hpos) h)

end AxisRun

/-! ## Views -/

namespace View

variable {v w : View} {dims old new : List Nat}

/-- A view that is not too broad, and whose axes, if it hides nothing, do not reach too far. -/
structure Tame (dims : List Nat) (v : View) : Prop where
  /-- The view is as movements make it. -/
  made : v.Made dims
  /-- Its positions are counted by signed words, with zero extents counted as one. -/
  broad : breadth dims < 2 ^ 63
  /-- Each of its axes stays inside the signed words. -/
  axes : 0 < dims.prod → v.mask = none →
    List.Forall₂ Short dims v.strides

theorem reach_lt_of_mem_axes
    (h : List.Forall₂ Short dims v.strides) :
    ∀ a ∈ v.axes dims, a.reach < 2 ^ 63 := by
  intro a ha
  rw [View.axes, ← List.map_uncurry_zip_eq_zipWith] at ha
  obtain ⟨⟨n, s⟩, hq, rfl⟩ := List.mem_map.mp ha
  exact (List.forall₂_iff_zip.mp (forall₂_dropUnits h)).2 hq

theorem tryReshape_eq_ok {target : Shape} {result : Option View} :
    v.tryReshape target = .ok result ↔ v.reshapeFits target = true ∧ v.reshape? target = result := by
  rw [tryReshape]
  split <;> simp [*]

/-- The products on the way to a reshape of a tame view are words. -/
theorem Tame.reshapeProducts_fits (hv : v.Tame old) (hprod : old.prod = new.prod) :
    (v.reshapeProducts old new).all fitsWord = true := by
  rw [reshapeProducts]
  split
  · rfl
  next hmerges =>
  simp only [Bool.or_eq_true, decide_eq_true_eq, not_or, Option.isSome_iff_ne_none, not_not] at hmerges
  obtain ⟨⟨⟨-, hne⟩, -⟩, hmask⟩ := hmerges
  have hpos : 0 < new.prod := Nat.pos_of_ne_zero hne
  have hextents := extent_axes hv.made.length_strides
  change (AxisRun.products ((alignRuns (v.axes old) (dropUnits new new)).getD [])).all fitsWord = true
  cases halign : alignRuns (v.axes old) (dropUnits new new) with
  | none => rfl
  | some runs =>
    rw [Option.getD_some]
    obtain ⟨hbalanced, haxes, hnew⟩ := alignRuns_eq_some halign
      (by rw [hextents, prod_dropUnits, prod_dropUnits, hprod]) (by rwa [prod_dropUnits])
      (by rw [hextents]; exact fun n h => ne_one_of_mem_dropUnits h)
      (fun n h => ne_one_of_mem_dropUnits h)
    have hreach := reach_lt_of_mem_axes (hv.axes (hprod ▸ hpos) hmask)
    refine AxisRun.products_fits hbalanced (by rwa [← hnew, prod_dropUnits]) fun r hr a ha => ?_
    exact hreach a (haxes ▸ List.mem_flatMap.mpr ⟨r, hr, ha⟩)

/-- A reshape of a tame view to a shape that is not too broad stays inside the words. -/
theorem Tame.reshapeFits (hv : v.Tame old) (hnew : breadth new < 2 ^ 63) :
    v.reshapeFits (.ofNats new) = true := by
  have hformable : (v.reshape? (.ofNats new)).all formable = true := by
    cases hw : v.reshape? (.ofNats new) with
    | none => rfl
    | some w => exact formable_of_breadth (reshape?_shape hw ▸ Shape.static?_ofNats new) hnew
  have hsource : v.shape.countable = true := by
    rw [Shape.eq_ofNats hv.made.static?]
    exact Shape.countable_of_breadth (hv.broad.trans (by decide))
  have htarget := Shape.countable_of_breadth (hnew.trans (show 2 ^ 63 < 2 ^ 64 by decide))
  rw [View.reshapeFits, hv.made.static?, Shape.static?_ofNats]
  dsimp only
  rw [hsource, htarget, hformable]
  by_cases hprod : old.prod = new.prod
  · simp [hv.reshapeProducts_fits hprod]
  · simp [hprod]

/-- So the reshape is not stopped. -/
theorem Tame.tryReshape (hv : v.Tame old) (hnew : breadth new < 2 ^ 63) :
    v.tryReshape (.ofNats new) = .ok (v.reshape? (.ofNats new)) :=
  if_pos (hv.reshapeFits hnew)

/-! ## Tame views stay tame -/

/-- The strides of a dense store do not reach farther than its end. -/
theorem reach_denseStrides (h : breadth dims < 2 ^ 63) :
    List.Forall₂ Short dims
      (denseStrides (dims.map .static)) := by
  induction dims with
  | nil => exact .nil
  | cons n dims ih =>
    have hrest := (breadth_tail_le n dims).trans_lt h
    rw [denseStrides_cons]
    refine .cons ?_ (ih hrest)
    split
    · exact short_zero n
    · rw [Short, toInt_ofNat_natAbs ((prod_le_breadth dims).trans_lt hrest)]
      exact (Nat.mul_le_mul (Nat.le_max_right 1 n) (prod_le_breadth dims)).trans_lt h

/-- Setting the strides of unit axes to zero lets no axis reach farther. -/
theorem reach_zeroUnits {strides : List Int64}
    (h : List.Forall₂ Short dims strides) :
    List.Forall₂ Short dims
      (zeroUnits (dims.map .static) strides) := by
  induction h with
  | nil => exact .nil
  | @cons n s dims strides hns _ ih =>
    simp only [zeroUnits, List.map_cons, List.zip_cons_cons] at ih ⊢
    refine .cons ?_ ih
    split
    · exact short_zero n
    · exact hns

theorem tame_ofShape (h : breadth dims < 2 ^ 63) : (ofShape (.ofNats dims)).Tame dims where
  made := Proper.made (proper_ofShape _) (Shape.static?_ofNats dims)
  broad := h
  axes _ _ := reach_zeroUnits (reach_denseStrides h)

/-- Spans that begin and end with their extents hide nothing. -/
theorem spans_full {spans : List Span}
    (h : List.Forall₂ (fun n (r : Span) => r = ⟨0, n⟩) dims spans) :
    (spans.zip (Shape.ofNats dims).dims).all (fun (r, d) => d.static?.any fun n => r = ⟨0, n⟩)
      = true := by
  refine List.all_eq_true.mpr ?_
  rintro ⟨r, d⟩ hrd
  rw [Shape.ofNats, List.zip_map_right] at hrd
  obtain ⟨⟨r, n⟩, hrn, heq⟩ := List.mem_map.mp hrd
  obtain ⟨rfl, rfl⟩ := Prod.mk.inj heq
  have := (List.forall₂_iff_zip.mp h.flip).2 hrn
  simpa [Extent.static?] using this

/-- A view that shows every position has no mask. -/
theorem Made.unmasked_of_shown (hv : v.Made dims) (hpos : 0 < dims.prod)
    (h : ∀ p, Inside dims p → v.index p ≠ none) : v.mask = none := by
  cases hmask : v.mask with
  | none => rfl
  | some spans =>
    have hspans := hv.length_spans hmask
    have hshown : ∀ p, Inside dims p → maskShows (some spans) p = true := by
      intro p hp
      have := h p hp
      rw [index_eq, hmask] at this
      simpa using this
    -- the first and the last position tell both ends of every span
    have hfirst := hshown _ (inside_zeros hpos)
    have hlast := hshown (dims.map fun n => n - 1) (by
      rw [Inside, List.forall₂_map_right_iff, List.forall₂_same]
      exact fun n hn => Nat.sub_lt (pos_of_mem_of_prod_pos hpos hn) Nat.one_pos)
    rw [maskShows_iff (by simp [hspans]), List.forall₂_map_left_iff] at hfirst hlast
    have hfits := hv.fits hmask
    rw [Fits, List.forall₂_map_left_iff] at hfits
    have hfull : List.Forall₂ (fun n (r : Span) => r = ⟨0, n⟩) dims spans := by
      refine List.forall₂_iff_get.mpr ⟨hspans.symm, fun i hi hi' => ?_⟩
      have hn := pos_of_mem_of_prod_pos hpos (List.getElem_mem hi)
      have h₁ := hfirst.get hi hi'
      have h₂ := hlast.get hi hi'
      have h₃ := hfits.get hi hi' _ rfl
      simp only [List.get_eq_getElem] at h₁ h₂ h₃ ⊢
      generalize spans[i] = r at h₁ h₂ h₃ ⊢
      obtain ⟨start, stop⟩ := r
      simp only [Span.mk.injEq] at h₁ h₂ h₃ ⊢
      omega
    obtain ⟨strides, offset, mask, -, -, rfl⟩ := hv
    have hne : ¬spans.any (fun r => r.stop ≤ r.start) = true := by
      intro hany
      obtain ⟨r, hr, hle⟩ := List.any_eq_true.mp hany
      obtain ⟨n, hn, rfl⟩ := exists_of_forall₂_right hfull hr
      have := pos_of_mem_of_prod_pos hpos hn
      simp at hle
      omega
    -- such spans do not stand in a canonical form
    have hcreate : create (.ofNats dims) _ _ (create (.ofNats dims) strides offset mask).mask
        = create (.ofNats dims) strides offset mask := create_create mask
    rw [hmask, create_full hne (spans_full hfull)] at hcreate
    rw [← hcreate] at hmask
    cases hmask

theorem Made.reshape? (hv : v.Made old) {target : Shape} (hw : v.reshape? target = some w)
    (hnew : target.static? = some new) : w.Made new := by
  have hproper := hv.proper.reshape? hw
  obtain ⟨_, _, _, _, _, hform⟩ := reshape?_eq_some hw
  rcases hform with ⟨_, rfl⟩ | ⟨_, _, rfl⟩ | ⟨_, _, _, _, rfl⟩
  · exact hproper.made hnew
  · exact hproper.made hnew
  · exact hproper.made hnew

/-- The mask of a view with several positions goes only if it shows them all. -/
theorem Tame.reshape? (hv : v.Tame old) (hnew : breadth new < 2 ^ 63)
    (hw : v.reshape? (.ofNats new) = some w) : w.Tame new := by
  have hproper := hv.made.proper.reshape? hw
  obtain ⟨old', new', hold, hnew', hprod, hform⟩ := reshape?_eq_some hw
  obtain rfl : old = old' := Option.some.inj (hv.made.static?.symm.trans hold)
  obtain rfl : new = new' := Option.some.inj ((Shape.static?_ofNats new).symm.trans hnew')
  refine ⟨hv.made.reshape? hw (Shape.static?_ofNats new), hnew, fun hpos hmask => ?_⟩
  by_cases hone : new.prod = 1
  · -- a single element is reached without strides
    have hunits := hproper.units
    rw [reshape?_shape hw, Shape.ofNats, List.forall₂_map_left_iff] at hunits
    refine (forall₂_mem hunits).imp fun n s h => ?_
    have hn : n = 1 := Nat.eq_one_of_dvd_one (hone ▸ List.dvd_prod h.1)
    rw [h.2.2 (congrArg _ hn)]
    exact short_zero n
  have hvmask : v.mask = none := by
    refine hv.made.unmasked_of_shown (hprod ▸ hpos) fun p hp => ?_
    have hindex := hv.made.proper.index_reshape? hw hold (Shape.static?_ofNats new)
      (hprod ▸ ravel_lt hp)
    rw [if_neg hone, unravel_ravel hp, index_unmasked hmask] at hindex
    rw [← hindex]
    exact Option.some_ne_none _
  have haxes := hv.axes (hprod ▸ hpos) hvmask
  rcases hform with ⟨-, rfl⟩ | ⟨-, hunits, rfl⟩ | ⟨-, -, strides, hmerge, rfl⟩
  · exact (tame_ofShape hnew).axes hpos rfl
  · rw [hvmask, Option.map_none, create_none]
    exact reach_zeroUnits (forall₂_insertUnits (short_zero 1) (hunits ▸ forall₂_dropUnits haxes))
  · simp only [mergeStrides, Option.bind_eq_bind, Option.bind_eq_some_iff] at hmerge
    obtain ⟨runs, halign, hmerge⟩ := hmerge
    obtain ⟨hmerge, hstrides⟩ := Option.ite_none_right_eq_some.mp hmerge
    obtain rfl : runs.flatMap AxisRun.strides = strides := by simpa using hstrides
    have hextents := extent_axes hv.made.length_strides
    obtain ⟨hbalanced, hold', hnew''⟩ := alignRuns_eq_some halign
      (by rw [← View.axes, hextents, prod_dropUnits, prod_dropUnits, hprod]) (by rwa [prod_dropUnits])
      (by rw [← View.axes, hextents]; exact fun n h => ne_one_of_mem_dropUnits h)
      (fun n h => ne_one_of_mem_dropUnits h)
    have hreach := reach_lt_of_mem_axes haxes
    rw [create_none]
    refine reach_zeroUnits (forall₂_insertUnits (short_zero 1) (hnew'' ▸ ?_))
    refine AxisRun.reach_strides hbalanced (by simpa using hmerge) (by rwa [← hnew'', prod_dropUnits])
      fun r hr a ha => hreach a ?_
    rw [View.axes, hold']
    exact List.mem_flatMap.mpr ⟨r, hr, ha⟩

/-! ## Reshapes without a mask -/

/-- A reshape of a view without a mask, which may be stopped, but not if the view is tame, is exact. Old
axes and new extents other than units are cut into runs that take up both lists, and a reshape that is
not stopped has a result if and only if some view without a mask shows the same places in row-major
order; the result is such a view. -/
theorem Proper.tryReshape_exact (hv : v.Proper) (hold : v.shape.static? = some old)
    (hmask : v.mask = none) (hpos : 0 < old.prod) (hprod : new.prod = old.prod) :
    (∃ runs, alignRuns (v.axes old) (dropUnits new new) = some runs
        ∧ v.axes old = runs.flatMap AxisRun.axes
        ∧ dropUnits new new = runs.flatMap AxisRun.extents)
      ∧ (v.tryReshape (.ofNats new) = .error .overflow
        ∨ ∃ result, v.tryReshape (.ofNats new) = .ok result
          ∧ (result.isSome ↔ ∃ w, SamePlaces old new v w)
          ∧ ∀ w, result = some w → SamePlaces old new v w)
      ∧ (v.Tame old → ∃ result, v.tryReshape (.ofNats new) = .ok result) := by
  refine ⟨hv.exists_runs hold hpos hprod, ?_, fun htame => ?_⟩
  · rw [tryReshape]
    split
    · exact .inr ⟨_, rfl, hv.reshape?_isSome_iff hold hmask hpos hprod, fun w hw =>
        hv.samePlaces_reshape? hold hmask hw⟩
    · exact .inl rfl
  · -- the new shape has as many positions
    refine ⟨_, htame.tryReshape ?_⟩
    rw [breadth_eq_prod (hprod ▸ hpos), hprod, ← breadth_eq_prod hpos]
    exact htame.broad

/-- Four columns of four rows of a store whose rows have six. -/
def rowWindow : View := create (.ofNats [4, 4]) [6, 1] 1 none

/-- The rows can be halved in place, but they are not one axis: no view has their places. -/
theorem rowWindow_reshapes :
    rowWindow.Proper ∧ rowWindow.shape.static? = some [4, 4] ∧ rowWindow.mask = none
      ∧ rowWindow.Tame [4, 4]
      ∧ (∃ w, SamePlaces [4, 4] [4, 2, 2] rowWindow w)
      ∧ ¬∃ w, SamePlaces [4, 4] [16] rowWindow w := by
  have hmade : rowWindow.Made [4, 4] := ⟨[6, 1], 1, none, rfl, nofun, rfl⟩
  have htame : rowWindow.Tame [4, 4] :=
    ⟨hmade, by decide, fun _ _ => .cons (by decide) (.cons (by decide) .nil)⟩
  -- what a reshape that is not stopped tells
  have hexact {new : List Nat} (hprod : new.prod = [4, 4].prod) :
      (rowWindow.reshape? (.ofNats new)).isSome ↔ ∃ w, SamePlaces [4, 4] new rowWindow w := by
    obtain ⟨-, hcases, hample⟩ := hmade.proper.tryReshape_exact rfl rfl (by decide) hprod
    obtain ⟨result, hresult⟩ := hample htame
    rcases hcases with hstopped | ⟨result', hresult', hiff, -⟩
    · cases hresult.symm.trans hstopped
    · rwa [← (tryReshape_eq_ok.mp hresult').2] at hiff
  refine ⟨hmade.proper, rfl, rfl, htame, (hexact (by decide)).mp (by decide +kernel), fun h => ?_⟩
  exact absurd ((hexact (by decide)).mpr h) (by decide +kernel)

/-- Four elements that are so far apart that the strides of their axes cannot be compared. -/
theorem tryReshape_overflows :
    ∃ v : View, v.Made [2, 2] ∧ v.mask = none
      ∧ v.tryReshape (.ofNats [4]) = .error .overflow :=
  ⟨create (.ofNats [2, 2]) [5, 2 ^ 62] 0 none, ⟨[5, 2 ^ 62], 0, none, rfl, nofun, rfl⟩, rfl,
    by decide +kernel⟩

end View

end TensorGraph
