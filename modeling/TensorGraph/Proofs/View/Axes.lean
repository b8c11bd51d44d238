import Mathlib.Algebra.BigOperators.Group.List.Lemmas
import TensorGraph.Proofs.Lists
import TensorGraph.Proofs.View.Coordinates
/-!
# Axes in another order

A tensor whose axes are taken in another order has the same row-major positions, so long as the axes
with more than one coordinate stay in their order. Two such axes that change places are told apart
by their weights, that is, by how far a step along each of them goes.

- `weight`: the number of elements that one step along an axis passes.
- `ravel_pick`: axes with one coordinate may go anywhere.
- `units_of_inversion`: axes that change places and keep their weights have one coordinate.
-/

namespace TensorGraph

/-! ## Picking -/

namespace View

variable {β γ : Type} {axes : List Nat} {l : List β}

/-- The place where each picked element comes from. -/
theorem getElem?_pick (h : ∀ a ∈ axes, a < l.length) (i : Nat) :
    (pick l axes)[i]? = axes[i]?.bind (l[·]?) := by
  induction axes generalizing i with
  | nil => rfl
  | cons a axes ih =>
    have ha := h a List.mem_cons_self
    rw [pick, List.filterMap_cons, List.getElem?_eq_getElem ha]
    cases i with
    | zero => exact (List.getElem?_eq_getElem ha).symm
    | succ i => exact ih (fun b hb => h b (List.mem_cons_of_mem _ hb)) i

/-- Picking from a selection picks from the whole. -/
theorem pick_pick (h : ∀ a ∈ axes, a < l.length) (order : List Nat) :
    pick (pick l axes) order = pick l (pick axes order) := by
  have hget : (fun i => (pick l axes)[i]?) = fun i => axes[i]?.bind (l[·]?) :=
    funext (getElem?_pick h)
  rw [pick, hget, pick, pick, List.filterMap_filterMap]

theorem pick_cons_of_lt {a : Nat} (h : a < l.length) (axes : List Nat) :
    pick l (a :: axes) = l[a] :: pick l axes := by
  rw [pick, List.filterMap_cons, List.getElem?_eq_getElem h]
  rfl

theorem pick_cons_of_not_lt {a : Nat} (h : ¬a < l.length) (axes : List Nat) :
    pick l (a :: axes) = pick l axes := by
  rw [pick, List.filterMap_cons, List.getElem?_eq_none (Nat.not_lt.mp h)]
  rfl

theorem pick_zip {l' : List γ} (h : l.length = l'.length) (axes : List Nat) :
    pick (l.zip l') axes = (pick l axes).zip (pick l' axes) := by
  have hlen : (l.zip l').length = l.length := by rw [List.length_zip, ← h, Nat.min_self]
  induction axes with
  | nil => rfl
  | cons a axes ih =>
    by_cases ha : a < l.length
    · rw [pick_cons_of_lt (hlen ▸ ha), pick_cons_of_lt ha, pick_cons_of_lt (h ▸ ha),
        List.getElem_zip, List.zip_cons_cons, ih]
    · rw [pick_cons_of_not_lt (hlen ▸ ha), pick_cons_of_not_lt ha, pick_cons_of_not_lt (h ▸ ha), ih]

theorem pick_zipWith {δ : Type} (f : β → γ → δ) {l' : List γ} (h : l.length = l'.length)
    (axes : List Nat) :
    pick (List.zipWith f l l') axes = List.zipWith f (pick l axes) (pick l' axes) := by
  rw [← List.map_uncurry_zip_eq_zipWith, pick_map, pick_zip h, List.map_uncurry_zip_eq_zipWith]

theorem pick_range (l : List β) : pick l (List.range l.length) = l := by
  refine List.ext_getElem? fun i => ?_
  rw [getElem?_pick fun a ha => List.mem_range.mp ha]
  by_cases hi : i < l.length
  · rw [List.getElem?_range hi, Option.bind_some]
  · rw [List.getElem?_eq_none (by simpa using hi), List.getElem?_eq_none (by simpa using hi)]
    rfl

theorem pick_perm {axes' : List Nat} (h : axes.Perm axes') (l : List β) :
    (pick l axes).Perm (pick l axes') := h.filterMap _

/-- Lists with the same elements in another order are the same. -/
theorem eq_of_pick_eq {l' : List β} (hperm : axes.Perm (List.range l.length))
    (hlen : l'.length = l.length) (h : pick l axes = pick l' axes) : l = l' := by
  have hlt : ∀ a ∈ axes, a < l.length := fun a ha => List.mem_range.mp (hperm.mem_iff.mp ha)
  refine List.ext_getElem? fun a => ?_
  by_cases ha : a < l.length
  · have hmem : a ∈ axes := hperm.mem_iff.mpr (List.mem_range.mpr ha)
    rw [← getElem_pick hlt hmem, h, getElem_pick (by rwa [hlen]) hmem]
  · rw [List.getElem?_eq_none (Nat.not_lt.mp ha), List.getElem?_eq_none (hlen ▸ Nat.not_lt.mp ha)]

/-- The coordinates that a permutation takes apart are picked together again. -/
theorem pick_permuted {axes p old : List Nat} (hperm : axes.Perm (List.range old.length))
    (hp : p.length = axes.length) : pick ((Movement.permute axes).source old p) axes = p := by
  have hnodup : axes.Nodup := hperm.nodup_iff.mpr List.nodup_range
  have hlt : ∀ a ∈ axes, a < old.length := fun a ha => List.mem_range.mp (hperm.mem_iff.mp ha)
  refine List.ext_getElem? fun i => ?_
  rw [getElem?_pick (by simpa [Movement.source] using hlt)]
  by_cases hi : i < axes.length
  · have hget : axes.idxOf axes[i] = i := hnodup.idxOf_getElem i hi
    have ha : axes[i] < old.length := hlt _ (List.getElem_mem hi)
    have hi' : i < p.length := hp ▸ hi
    rw [List.getElem?_eq_getElem hi, Option.bind_some]
    simp [Movement.source, ha, hget, List.getD_eq_getElem?_getD, hi']
  · rw [List.getElem?_eq_none (Nat.not_lt.mp hi), List.getElem?_eq_none (hp ▸ Nat.not_lt.mp hi)]
    rfl

/-- A selection of the elements that are picked. -/
theorem filter_pick (p : β → Bool) (l : List β) (axes : List Nat) :
    (pick l axes).filter p = pick l (axes.filter fun a => l[a]?.any p) := by
  induction axes with
  | nil => rfl
  | cons a axes ih =>
    by_cases ha : a < l.length
    · rw [pick_cons_of_lt ha, List.filter_cons, List.filter_cons, List.getElem?_eq_getElem ha,
        Option.any_some, ih]
      split
      · rw [pick_cons_of_lt ha]
      · rfl
    · rw [pick_cons_of_not_lt ha, List.filter_cons, List.getElem?_eq_none (Nat.not_lt.mp ha), ih]
      rfl

end View

open View

/-! ## Weights -/

/-- The number of elements that one step along the axis `a` passes. -/
def weight (dims : List Nat) (a : Nat) : Nat := (dims.drop (a + 1)).prod

variable {dims axes p : List Nat} {a b n m : Nat}

/-- An outer axis passes the inner ones whole. -/
theorem mul_weight_dvd (hab : a < b) (hb : dims[b]? = some n) :
    n * weight dims b ∣ weight dims a := by
  obtain ⟨k, rfl⟩ : ∃ k, b = a + 1 + k := ⟨b - (a + 1), by omega⟩
  obtain ⟨hlt, rfl⟩ := List.getElem?_eq_some_iff.mp hb
  have hsplit : dims.drop (a + 1)
      = (dims.drop (a + 1)).take k ++ dims[a + 1 + k] :: dims.drop (a + 1 + k + 1) := by
    conv_lhs => rw [← List.take_append_drop k (dims.drop (a + 1)), List.drop_drop,
      List.drop_eq_getElem_cons hlt]
  rw [weight, weight, hsplit, List.prod_append, List.prod_cons]
  exact Nat.dvd_mul_left _ _

theorem weight_dvd (dims : List Nat) (a : Nat) : weight dims a ∣ dims.prod := by
  rw [← List.take_append_drop (a + 1) dims, List.prod_append, weight, List.take_append_drop]
  exact Nat.dvd_mul_left _ _

theorem weight_pos (hpos : 0 < dims.prod) (a : Nat) : 0 < weight dims a :=
  Nat.pos_of_dvd_of_pos (weight_dvd dims a) hpos

theorem weight_le (hpos : 0 < dims.prod) (a : Nat) : weight dims a ≤ dims.prod :=
  Nat.le_of_dvd hpos (weight_dvd dims a)

/-- Axes keep their order if no two of them change places. -/
theorem pairwise_filter_of_inversions (hnodup : axes.Nodup) {p : Nat → Bool}
    (h : ∀ (i j : Nat) (hi : i < axes.length) (hj : j < axes.length), i < j → axes[j] < axes[i] →
      p axes[i] = true → p axes[j] = true → False) : (axes.filter p).Pairwise (· < ·) := by
  rw [List.pairwise_filter, List.pairwise_iff_getElem]
  intro i j hi hj hij hx hy
  by_contra hge
  have hne : axes[i] ≠ axes[j] := fun heq => hij.ne ((hnodup.getElem_inj_iff).mp heq)
  exact h i j hi hj hij (by omega) hx hy

/-- Two axes that change places and both keep their weights have one coordinate each. -/
theorem units_of_inversion (hpos : 0 < dims.prod) (hperm : axes.Perm (List.range dims.length))
    {i j : Nat} (hij : i < j) (hb : axes[j]? = some b) (hba : b < a)
    (hm : dims[a]? = some m) (hn : dims[b]? = some n)
    (hweight : weight dims a = weight (pick dims axes) i)
    (hweight' : weight dims b = weight (pick dims axes) j) : m = 1 ∧ n = 1 := by
  have hlt : ∀ c ∈ axes, c < dims.length := fun c hc => List.mem_range.mp (hperm.mem_iff.mp hc)
  have hpos' : 0 < (pick dims axes).prod := by
    rw [(pick_perm hperm dims).prod_eq, pick_range]
    exact hpos
  have hnew : (pick dims axes)[j]? = some n := by
    rw [getElem?_pick hlt, hb]
    exact hn
  -- `a` is inside `b` in the old order, and `b` inside `a` in the new one
  have hold : m * weight dims a ≤ weight dims b :=
    Nat.le_of_dvd (weight_pos hpos b) (mul_weight_dvd hba hm)
  have hnew : n * weight dims b ≤ weight dims a := by
    rw [hweight, hweight']
    exact Nat.le_of_dvd (weight_pos hpos' i) (mul_weight_dvd hij hnew)
  have hwa := weight_pos hpos a
  have hmpos : 0 < m := by
    obtain ⟨h, rfl⟩ := List.getElem?_eq_some_iff.mp hm
    exact Nat.pos_of_dvd_of_pos (List.dvd_prod (List.getElem_mem h)) hpos
  have hnpos : 0 < n := by
    obtain ⟨h, rfl⟩ := List.getElem?_eq_some_iff.mp hn
    exact Nat.pos_of_dvd_of_pos (List.dvd_prod (List.getElem_mem h)) hpos
  have hprod : n * m * weight dims a ≤ 1 * weight dims a := by
    calc n * m * weight dims a = n * (m * weight dims a) := Nat.mul_assoc ..
      _ ≤ n * weight dims b := Nat.mul_le_mul_left n hold
      _ ≤ weight dims a := hnew
      _ = 1 * weight dims a := (Nat.one_mul _).symm
  have hle : n * m ≤ 1 := Nat.le_of_mul_le_mul_right hprod hwa
  have hm1 : m ≤ n * m := Nat.le_mul_of_pos_left m hnpos
  have hn1 : n ≤ n * m := Nat.le_mul_of_pos_right n hmpos
  omega

/-! ## Positions -/

/-- The coordinates of one step along the axis `a`. -/
def step (rank a : Nat) : List Nat := (List.range rank).map fun b => if b = a then 1 else 0

theorem length_step (rank a : Nat) : (step rank a).length = rank := by simp [step]

theorem getElem?_step {rank : Nat} (a : Nat) {b : Nat} (hb : b < rank) :
    (step rank a)[b]? = some (if b = a then 1 else 0) := by
  rw [step, List.getElem?_map, List.getElem?_range hb, Option.map_some]

/-- One step stays inside, along an axis with more than one coordinate. -/
theorem inside_step (hpos : 0 < dims.prod) (hn : dims[a]? = some n) (hmany : 1 < n) :
    Inside dims (step dims.length a) := by
  refine View.inside_iff_get.mpr ⟨length_step .., fun b m i hm hi => ?_⟩
  obtain ⟨hb, rfl⟩ := List.getElem?_eq_some_iff.mp hm
  have hbpos : 0 < dims[b] := Nat.pos_of_dvd_of_pos (List.dvd_prod (List.getElem_mem hb)) hpos
  rw [getElem?_step a hb] at hi
  obtain rfl := Option.some.inj hi
  split
  · next heq =>
    subst heq
    rw [List.getElem?_eq_getElem hb] at hn
    rwa [Option.some.inj hn]
  · exact hbpos

/-- One step along an axis is one step along it wherever the axis is. -/
theorem pick_step {rank i : Nat} (hperm : axes.Perm (List.range rank)) (ha : axes[i]? = some a) :
    pick (step rank a) axes = step rank i := by
  have hnodup : axes.Nodup := hperm.nodup_iff.mpr List.nodup_range
  have hlen : axes.length = rank := hperm.length_eq.trans List.length_range
  obtain ⟨hi, rfl⟩ := List.getElem?_eq_some_iff.mp ha
  have hlt : ∀ b ∈ axes, b < rank := fun b hb => List.mem_range.mp (hperm.mem_iff.mp hb)
  refine List.ext_getElem? fun j => ?_
  rw [getElem?_pick (by rwa [length_step])]
  by_cases hj : j < axes.length
  · rw [List.getElem?_eq_getElem hj, Option.bind_some, getElem?_step _ (hlt _ (List.getElem_mem hj)),
      getElem?_step i (hlen ▸ hj)]
    simp only [hnodup.getElem_inj_iff]
  · rw [List.getElem?_eq_none (Nat.not_lt.mp hj),
      List.getElem?_eq_none (by rw [length_step]; omega)]
    rfl

theorem ravel_zeros (dims : List Nat) : ravel dims (dims.map fun _ => 0) = 0 := by
  induction dims with
  | nil => rfl
  | cons n dims ih => rw [List.map_cons, ravel_cons (by simp), ih, Nat.zero_mul]

/-- One step along an axis passes as many elements as the axis weighs. -/
theorem ravel_step (h : a < dims.length) : ravel dims (step dims.length a) = weight dims a := by
  induction dims generalizing a with
  | nil => simp at h
  | cons n dims ih =>
    have hcons : step (n :: dims).length a
        = (if 0 = a then 1 else 0) :: (List.range dims.length).map fun b =>
            if b + 1 = a then 1 else 0 := by
      rw [step, List.length_cons, List.range_succ_eq_map, List.map_cons, List.map_map]
      rfl
    rw [hcons, ravel_cons (by simp)]
    cases a with
    | zero =>
      have hzeros : ((List.range dims.length).map fun b => if b + 1 = 0 then 1 else 0)
          = dims.map fun _ => 0 := by
        simp [List.map_const']
      rw [hzeros, ravel_zeros]
      simp [weight]
    | succ a =>
      have hstep : ((List.range dims.length).map fun b => if b + 1 = a + 1 then 1 else 0)
          = step dims.length a := by
        simp [step]
      rw [hstep, ih (by simpa using h)]
      simp [weight]

/-- Axes with one coordinate do not take part in the row-major position. -/
theorem ravel_eq_filter (h : Inside dims p) :
    ravel dims p = ((dims.zip p).filter (·.1 ≠ 1)).foldl (fun acc (n, i) => acc * n + i) 0 := by
  rw [ravel]
  symm
  apply foldl_filter_of_neutral
  rintro ⟨n, i⟩ hmem hunit acc
  obtain rfl : n = 1 := by simpa using hunit
  have hi : i < 1 := by
    obtain ⟨-, hforall⟩ := List.forall₂_iff_zip.mp h
    exact hforall hmem
  obtain rfl : i = 0 := by omega
  simp

/-- The axes may be taken in any order that leaves those with more than one coordinate as they
come. -/
theorem ravel_pick (hp : Inside dims p) (hperm : axes.Perm (List.range dims.length))
    (hsorted : (axes.filter fun a => dims[a]?.any (· ≠ 1)).Pairwise (· < ·)) :
    ravel (pick dims axes) (pick p axes) = ravel dims p := by
  have hlen : dims.length = p.length := hp.length_eq.symm
  have hzip : (dims.zip p).length = dims.length := by rw [List.length_zip, ← hlen, Nat.min_self]
  have hpick : Inside (pick dims axes) (pick p axes) := forall₂_pick hp
  have hkeep : (fun a : Nat => (dims.zip p)[a]?.any fun q => decide (Prod.fst q ≠ 1))
      = fun a : Nat => dims[a]?.any fun n => decide (n ≠ 1) := by
    funext a
    by_cases ha : a < dims.length
    · rw [List.getElem?_eq_getElem ha, List.getElem?_eq_getElem (hzip ▸ ha), List.getElem_zip]
      rfl
    · rw [List.getElem?_eq_none (Nat.not_lt.mp ha),
        List.getElem?_eq_none (hzip ▸ Nat.not_lt.mp ha)]
      rfl
  -- both orders list the same axes, and both list them by number
  have haxes : (axes.filter fun a => dims[a]?.any (· ≠ 1))
      = (List.range dims.length).filter fun a => dims[a]?.any (· ≠ 1) := by
    refine (hperm.filter _).eq_of_pairwise (fun x y _ _ hxy hyx => ?_) hsorted
      (List.pairwise_lt_range.filter _)
    omega
  have hwhole : (dims.zip p) = pick (dims.zip p) (List.range dims.length) := by
    rw [← hzip, pick_range]
  rw [ravel_eq_filter hpick, ravel_eq_filter hp, ← pick_zip hlen, filter_pick, hkeep, haxes]
  conv_rhs => rw [hwhole, filter_pick, hkeep]

end TensorGraph
