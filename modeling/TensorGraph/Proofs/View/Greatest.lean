import TensorGraph.Proofs.View.Canonical
/-!
# The greatest place of a view

The greatest place is computed axis by axis, at the end of a span where the stride is positive and at
its beginning elsewhere. That is the greatest one so long as the places do not wrap around the
signed words, and they never do in a view whose places are all in a store.

- `View.Exact`: the places of a view are an affine function over the integers.
- `View.Made.exact_of_nonneg`: places that are not negative are exact.
- `View.Made.maxPlace_eq_none_iff`, `View.Made.maxPlace_greatest`: the greatest place is that of a
  visible position, if there is one, and no other has a greater one.
- `View.Made.maxPlaceFits`: it is found if no position is too far away.
-/

namespace TensorGraph

open scoped CoreArithmetic

/-! ## Distances over the integers -/

/-- The distance that the coordinates `p` make up along `strides`, without wrapping around. -/
def reach : List Nat → List Int64 → Int
  | i :: p, s :: strides => i * s.toInt + reach p strides
  | _, _ => 0

/-- The coordinates lie in the spans. -/
def Shown (p : List Nat) (spans : List Span) : Prop :=
  List.Forall₂ (fun i (r : Span) => r.start ≤ i ∧ i < r.stop) p spans

/-- The coordinates in the spans that go farthest along the strides. -/
def farthest (spans : List Span) (strides : List Int64) : List Nat :=
  List.zipWith (fun r s => if 0 < s then r.stop - 1 else r.start) spans strides

variable {spans : List Span} {strides : List Int64} {p : List Nat}

theorem shown_farthest (hlen : spans.length = strides.length)
    (h : ∀ r ∈ spans, r.start < r.stop) : Shown (farthest spans strides) spans := by
  refine List.forall₂_iff_get.mpr ⟨by simp [farthest, hlen], fun i hi hi' => ?_⟩
  have hr := h spans[i] (List.getElem_mem _)
  simp only [List.get_eq_getElem, farthest, List.getElem_zipWith]
  split <;> omega

theorem reach_le_farthest (h : Shown p spans) (strides : List Int64) :
    reach p strides ≤ reach (farthest spans strides) strides := by
  induction h generalizing strides with
  | nil => exact Int.le_refl 0
  | @cons i r p spans hi _ ih =>
    cases strides with
    | nil => exact Int.le_refl 0
    | cons s strides =>
      have ih := ih strides
      simp only [farthest, List.zipWith_cons_cons, reach] at ih ⊢
      refine Int.add_le_add ?_ ih
      by_cases hs : 0 < s
      · rw [if_pos hs]
        have hs : 0 ≤ s.toInt := Int.le_of_lt (Int64.lt_iff_toInt_lt.mp hs)
        exact Int.mul_le_mul_of_nonneg_right (by omega) hs
      · rw [if_neg hs]
        have hs : s.toInt ≤ 0 := Int.not_lt.mp fun h => hs (Int64.lt_iff_toInt_lt.mpr h)
        exact Int.mul_le_mul_of_nonpos_right (by omega) hs

/-- A sum that is not negative is exact, if the first summand is not negative. -/
theorem toInt_add_of_nonneg {a b : Int64} (ha : 0 ≤ a.toInt) (h : 0 ≤ (a + b).toInt) :
    (a + b).toInt = a.toInt + b.toInt := by
  have ha' := a.toInt_lt
  have hb := b.le_toInt
  have hb' := b.toInt_lt
  rw [Int64.toInt_add, Int.bmod_def] at h ⊢
  omega

/-- Sums along one axis that are not negative grow by the stride. -/
theorem toInt_walk {a s : Int64} {r : Span}
    (h : ∀ i, r.start ≤ i → i < r.stop → 0 ≤ (a + .ofNat i * s).toInt) {i : Nat}
    (hi : r.start ≤ i) (hi' : i < r.stop) :
    (a + .ofNat i * s).toInt = (a + .ofNat r.start * s).toInt + (i - r.start) * s.toInt := by
  induction i, hi using Nat.le_induction with
  | base => simp
  | succ i hi ih =>
    have ih := ih (by omega)
    have hstep : a + .ofNat (i + 1) * s = (a + .ofNat i * s) + s := by
      rw [Int64.ofNat_add]
      grind
    have hnext := h (i + 1) (by omega) hi'
    rw [hstep] at hnext ⊢
    rw [toInt_add_of_nonneg (h i hi (by omega)) hnext, ih]
    grind

/-- Places that are not negative are an affine function over the integers: they change by the stride
of an axis with each step along it, as far as the spans go. -/
theorem affine_of_nonneg {a : Int64} (hlen : spans.length = strides.length)
    (h : ∀ p, Shown p spans → 0 ≤ (a + dot p strides).toInt) :
    ∃ origin : Int, ∀ p, Shown p spans →
      (a + dot p strides).toInt = origin + reach p strides := by
  induction spans generalizing a strides with
  | nil =>
    refine ⟨a.toInt, fun p hp => ?_⟩
    cases hp
    simp [reach]
  | cons r spans ih =>
    match strides with
    | s :: strides =>
    by_cases hr : r.start < r.stop
    · -- the inner axes at the beginning of the span give the origin
      obtain ⟨origin, horigin⟩ := ih (a := a + .ofNat r.start * s) (by simpa using hlen)
        fun q hq => by
          have := h (r.start :: q) (.cons ⟨Nat.le_refl _, hr⟩ hq)
          rwa [dot_cons, ← Int64.add_assoc] at this
      refine ⟨origin - r.start * s.toInt, fun p hp => ?_⟩
      cases hp with
      | @cons i _ q _ hi hq =>
        have hcomm (i : Nat) : a + dot (i :: q) (s :: strides) = (a + dot q strides) + .ofNat i * s := by
          rw [dot_cons]
          grind
        have hwalk := toInt_walk (a := a + dot q strides) (s := s) (r := r)
          (fun j hj hj' => hcomm j ▸ h (j :: q) (.cons ⟨hj, hj'⟩ hq)) hi.1 hi.2
        have hstart := horigin q hq
        rw [show a + .ofNat r.start * s + dot q strides = a + dot q strides + .ofNat r.start * s by
          grind] at hstart
        rw [hcomm, hwalk, hstart, reach]
        grind
    · refine ⟨0, fun p hp => ?_⟩
      cases hp with
      | cons hi _ => exact absurd (Nat.lt_of_le_of_lt hi.1 hi.2) hr

namespace View

variable {v : View} {dims : List Nat}

/-- The places of a view do not wrap around the signed words: they are an affine function over the
integers. -/
def Exact (dims : List Nat) (v : View) : Prop :=
  ∃ origin : Int, ∀ p place, Inside dims p → v.index p = some place →
    place.toInt = origin + reach p v.strides

/-! ## Visible positions -/

theorem Made.index_eq_some (hv : v.Made dims) (hp : Inside dims p) {place : Int64} :
    v.index p = some place ↔ Shown p (v.spans dims) ∧ v.offset + dot p v.strides = place := by
  have hlen : p.length = (v.spans dims).length := by rw [hv.length_spans_eq, hp.length_eq]
  rw [index_eq, ← maskShows_spans hp, Shown, ← maskShows_iff hlen]
  split <;> simp [*]

/-- What the spans show lies inside the extents. -/
theorem Made.inside_of_shown (hv : v.Made dims) (h : Shown p (v.spans dims)) : Inside dims p := by
  have hspans := hv.spans_inside
  have hlen := List.Forall₂.length_eq h
  refine List.forall₂_iff_get.mpr ⟨by rw [hlen, hspans.length_eq], fun i hi hi' => ?_⟩
  have hshown := h.get hi' (by omega)
  have hstop := (hspans.get hi (by omega)).2
  simp only [List.get_eq_getElem] at hshown hstop ⊢
  omega

/-- Places that are not negative do not wrap around. -/
theorem Made.exact_of_nonneg (hv : v.Made dims)
    (h : ∀ p place, Inside dims p → v.index p = some place → 0 ≤ place.toInt) : v.Exact dims := by
  have hlen : (v.spans dims).length = v.strides.length := by
    rw [hv.length_spans_eq, hv.length_strides]
  obtain ⟨origin, horigin⟩ := affine_of_nonneg hlen fun p hp =>
    h p _ (hv.inside_of_shown hp) ((hv.index_eq_some (hv.inside_of_shown hp)).mpr ⟨hp, rfl⟩)
  refine ⟨origin, fun p place hp hplace => ?_⟩
  obtain ⟨hshown, rfl⟩ := (hv.index_eq_some hp).mp hplace
  exact horigin p hshown

/-! ## The greatest place -/

theorem foldlM_farthest {spans : List Span} {strides : List Int64}
    (hlen : spans.length = strides.length) (acc : Int64) :
    (spans.zip strides).foldlM (fun acc (r, s) =>
        if r.stop ≤ r.start then none
        else some (acc + .ofNat (if 0 < s then r.stop - 1 else r.start) * s)) acc
      = if ∀ r ∈ spans, r.start < r.stop then some (acc + dot (farthest spans strides) strides)
        else none := by
  induction spans generalizing strides acc with
  | nil => simp [farthest]
  | cons r spans ih =>
    match strides with
    | s :: strides =>
    rw [List.zip_cons_cons, List.foldlM_cons]
    by_cases hr : r.start < r.stop
    · have hr' : ¬r.stop ≤ r.start := Nat.not_le.mpr hr
      simp only [hr', if_false, Option.bind_eq_bind, Option.bind_some, List.forall_mem_cons, hr,
        true_and]
      refine (ih (by simpa using hlen) _).trans ?_
      simp only [farthest, List.zipWith_cons_cons, dot_cons, Int64.add_assoc]
    · have hr' : r.stop ≤ r.start := Nat.not_lt.mp hr
      simp only [hr', if_true, List.forall_mem_cons, hr, false_and, if_false]
      rfl

theorem Made.maxPlace_eq (hv : v.Made dims) :
    v.maxPlace = if ∀ r ∈ v.spans dims, r.start < r.stop
      then some (v.offset + dot (farthest (v.spans dims) v.strides) v.strides) else none := by
  rw [maxPlace, hv.static?]
  exact foldlM_farthest (by rw [hv.length_spans_eq, hv.length_strides]) v.offset

/-- There is no greatest place exactly if no position is visible. -/
theorem Made.maxPlace_eq_none_iff (hv : v.Made dims) :
    v.maxPlace = none ↔ ∀ p, Inside dims p → v.index p = none := by
  rw [hv.maxPlace_eq]
  constructor
  · intro h p hp
    by_contra hshown
    rw [if_pos (hv.spans_nonempty hp hshown)] at h
    cases h
  · intro h
    obtain ⟨r, hr, hle⟩ := hv.exists_empty h
    exact if_neg fun hall => Nat.not_lt.mpr hle (hall r hr)

/-- The greatest place is that of a visible position, and if places do not wrap around, no visible
position has a greater one. -/
theorem Made.maxPlace_greatest (hv : v.Made dims) {m : Int64} (hm : v.maxPlace = some m) :
    (∃ p, Inside dims p ∧ v.index p = some m)
      ∧ (v.Exact dims → ∀ p place, Inside dims p → v.index p = some place → place ≤ m) := by
  rw [hv.maxPlace_eq, Option.ite_none_right_eq_some] at hm
  obtain ⟨hspans, hm⟩ := hm
  have hshown : Shown (farthest (v.spans dims) v.strides) (v.spans dims) :=
    shown_farthest (by rw [hv.length_spans_eq, hv.length_strides]) hspans
  have hinside := hv.inside_of_shown hshown
  have hindex := (hv.index_eq_some hinside).mpr ⟨hshown, Option.some.inj hm⟩
  refine ⟨⟨_, hinside, hindex⟩, ?_⟩
  rintro ⟨origin, horigin⟩ p place hp hplace
  rw [Int64.le_iff_toInt_le, horigin p place hp hplace, horigin _ m hinside hindex]
  exact Int.add_le_add_left (reach_le_farthest ((hv.index_eq_some hp).mp hplace).1 _) origin

/-- The products that the greatest place is made of lie no farther away than the places do. -/
theorem sum_farthest_le {spans : List Span}
    (h : List.Forall₂ (fun n (r : Span) => r.stop ≤ n) dims spans) {strides : List Int64}
    (hstretch : stretch dims strides < 2 ^ 63) :
    (((((spans.zip strides).takeWhile fun (r, _) => r.start < r.stop).map fun (r, s) =>
        residue (if 0 < s then r.stop - 1 else r.start) * s.toInt)).map Int.natAbs).sum
      ≤ stretch dims strides := by
  induction h generalizing strides with
  | nil => exact Nat.zero_le _
  | @cons n r dims spans hr _ ih =>
    match strides with
    | [] => exact Nat.zero_le _
    | s :: strides =>
      rw [stretch_cons] at hstretch ⊢
      rw [List.zip_cons_cons, List.takeWhile_cons]
      by_cases hshown : r.start < r.stop
      · have hcoordinate : (if 0 < s then r.stop - 1 else r.start) ≤ n := by split <;> omega
        simp only [hshown, decide_true, if_true, List.map_cons, List.sum_cons]
        exact Nat.add_le_add (residue_mul_natAbs_le hcoordinate (by omega)) (ih (by omega))
      · simp [hshown]

/-- The greatest place is found, if no position is too far from the beginning of the store. -/
theorem Made.maxPlaceFits (hv : v.Made dims) (h : v.spread dims < 2 ^ 63) :
    v.maxPlaceFits = true := by
  have hspans : List.Forall₂ (fun n (r : Span) => r.stop ≤ n) dims (v.spans dims) :=
    hv.spans_inside.imp fun _ _ hr => hr.2
  rw [View.maxPlaceFits, hv.static?, Option.all_some]
  rw [spread] at h
  refine runningResults_fits Int.natAbs_add_le (Nat.lt_of_le_of_lt ?_ h)
  exact Nat.add_le_add_left (sum_farthest_le hspans (by omega)) _

end View

end TensorGraph
