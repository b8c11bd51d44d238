import Mathlib.Algebra.BigOperators.Group.List.Lemmas
import Mathlib.Algebra.Group.Nat.Defs
import Mathlib.Data.List.Forall2
import TensorGraph.Split
/-!
# Splits of a reduction

A policy ranks the candidates, but whichever it chooses is a candidate: an axis that is folded,
cut by a divisor of its extent.

- `SplitPolicy.choose_eq_some`: what holds of a split that a policy chooses.
- `Split.prod_dims`: cutting an axis keeps the number of positions.
-/

namespace TensorGraph

/-- The split cuts an axis that a reduction from the extents `old` to the extents `new` folds, by a
divisor of its extent. -/
structure Split.Cuts (s : Split) (old new : List Nat) : Prop where
  /-- The axis exists before and after, with different extents. -/
  axis : ∃ n m, old[s.axis]? = some n ∧ new[s.axis]? = some m ∧ n ≠ m
  /-- The inner half divides the extent. -/
  divisor : s.divisor = Nat.gcd 256 (old.getD s.axis 0)

theorem Candidate.mem_ofAxes {old new : List Nat} {strides : List (Option Int64)} {axis : Nat}
    {c : Candidate} (h : c ∈ ofAxes axis old new strides) :
    ∃ k n m, c.split = ⟨axis + k, Nat.gcd 256 n⟩ ∧ old[k]? = some n ∧ new[k]? = some m ∧ n ≠ m := by
  induction old generalizing new strides axis with
  | nil => simp [ofAxes] at h
  | cons n old ih =>
    match new, strides with
    | [], _ => simp [ofAxes] at h
    | _ :: _, [] => simp [ofAxes] at h
    | m :: new, s :: strides =>
      have hrest (h : c ∈ ofAxes (axis + 1) old new strides) : ∃ k n' m',
          c.split = ⟨axis + k, Nat.gcd 256 n'⟩ ∧ (n :: old)[k]? = some n'
            ∧ (m :: new)[k]? = some m' ∧ n' ≠ m' := by
        obtain ⟨k, n', m', hsplit, hold, hnew, hne⟩ := ih h
        exact ⟨k + 1, n', m', by rw [hsplit, Nat.add_assoc, Nat.add_comm 1], hold, hnew, hne⟩
      rw [ofAxes] at h
      split at h
      · exact hrest h
      · next hne =>
        rcases List.mem_cons.mp h with rfl | h
        · exact ⟨0, n, m, rfl, rfl, rfl, hne⟩
        · exact hrest h

/-- The highest candidate is one of the candidates. -/
theorem Candidate.mem_of_best? {cs : List Candidate} {c : Candidate} (h : best? cs = some c) :
    c ∈ cs := by
  cases cs with
  | nil => cases h
  | cons a cs =>
    obtain rfl := Option.some.inj h
    clear h
    induction cs generalizing a with
    | nil => exact List.mem_cons_self
    | cons b cs ih =>
      rw [List.foldl_cons]
      split
      · exact List.mem_cons_of_mem _ (ih b)
      · rcases List.mem_cons.mp (ih a) with h | h
        · exact List.mem_cons.mpr (.inl h)
        · exact List.mem_cons_of_mem _ (List.mem_cons_of_mem _ h)

/-- A policy chooses an axis that is folded, and cuts it by a divisor. -/
theorem SplitPolicy.choose_eq_some {p : SplitPolicy} {old new : List Nat}
    {strides : List (Option Int64)} {s : Split} (h : p.choose old new strides = some s) :
    s.Cuts old new := by
  rw [choose] at h
  obtain ⟨-, h⟩ := Option.ite_none_left_eq_some.mp h
  split at h
  · cases h
  · next c hbest =>
    obtain ⟨-, h⟩ := Option.ite_none_left_eq_some.mp h
    obtain rfl := Option.some.inj h
    obtain ⟨k, n, m, hsplit, hold, hnew, hne⟩ := Candidate.mem_ofAxes (Candidate.mem_of_best? hbest)
    rw [Nat.zero_add] at hsplit
    rw [hsplit]
    exact ⟨⟨n, m, hold, hnew, hne⟩, by simp [List.getD_eq_getElem?_getD, hold]⟩

/-- A policy that asks for more work than there is chooses nothing. -/
theorem SplitPolicy.choose_of_lt {p : SplitPolicy} {old : List Nat} (h : old.prod < p.leastWork)
    (new : List Nat) (strides : List (Option Int64)) : p.choose old new strides = none := by
  have hwork : old.prod / new.prod < p.leastWork := Nat.lt_of_le_of_lt (Nat.div_le_self ..) h
  rw [choose, if_pos (by simp [hwork])]

namespace Split

variable {s : Split} {old new : List Nat}

theorem Cuts.axis_lt (hs : s.Cuts old new) : s.axis < old.length := by
  obtain ⟨n, m, hn, -, -⟩ := hs.axis
  exact (List.getElem?_eq_some_iff.mp hn).1

theorem Cuts.dvd (hs : s.Cuts old new) : s.divisor ∣ old.getD s.axis 0 :=
  hs.divisor ▸ Nat.gcd_dvd_right _ _

/-- The extents around the axis that is cut. -/
theorem Cuts.old_eq (hs : s.Cuts old new) :
    old = old.take s.axis ++ old.getD s.axis 0 :: old.drop (s.axis + 1) := by
  have hlt := hs.axis_lt
  have hget : old.getD s.axis 0 = old[s.axis] := by simp [List.getD_eq_getElem?_getD, hlt]
  rw [hget, ← List.drop_eq_getElem_cons hlt, List.take_append_drop]

/-- The axis that is cut is folded to one. -/
theorem Cuts.folded (hs : s.Cuts old new) (hfold : List.Forall₂ (fun n m => n = m ∨ m = 1) old new) :
    ∃ n, old[s.axis]? = some n ∧ new[s.axis]? = some 1 ∧ n ≠ 1 := by
  obtain ⟨n, m, hn, hm, hne⟩ := hs.axis
  obtain ⟨hold, hn'⟩ := List.getElem?_eq_some_iff.mp hn
  obtain ⟨hnew, hm'⟩ := List.getElem?_eq_some_iff.mp hm
  have hget := (List.forall₂_iff_get.mp hfold).2 s.axis hold hnew
  simp only [List.get_eq_getElem, hn', hm'] at hget
  obtain rfl := hget.resolve_left hne
  exact ⟨n, hn, hm, hne⟩

/-- There are several elements, or none. -/
theorem Cuts.prod_ne_one (hs : s.Cuts old new)
    (hfold : List.Forall₂ (fun n m => n = m ∨ m = 1) old new) : old.prod ≠ 1 := by
  obtain ⟨n, hn, -, hne⟩ := hs.folded hfold
  intro hone
  have hdvd : n ∣ old.prod := List.dvd_prod (List.mem_of_getElem? hn)
  exact hne (Nat.dvd_one.mp (hone ▸ hdvd))

theorem prod_dims (s : Split) (old inner : List Nat) :
    (s.dims old inner).prod
      = (old.take s.axis).prod * (old.getD s.axis 0 / s.divisor) * inner.prod
        * (old.drop (s.axis + 1)).prod := by
  simp [dims, List.prod_append, Nat.mul_assoc]

/-- Cutting the axis keeps the number of positions. -/
theorem Cuts.prod_cut (hs : s.Cuts old new) : (s.dims old [s.divisor]).prod = old.prod := by
  conv_rhs => rw [hs.old_eq, List.prod_append, List.prod_cons]
  rw [prod_dims, List.prod_singleton, Nat.mul_assoc _ _ s.divisor, Nat.div_mul_cancel hs.dvd,
    Nat.mul_assoc]

/-- The first pass of a reduction leaves no more elements than there were. -/
theorem Cuts.prod_inner_le (hs : s.Cuts old new) :
    (s.dims old [1]).prod ≤ old.prod := by
  have hpos : 1 ≤ s.divisor := by
    rw [hs.divisor]
    exact Nat.gcd_pos_of_pos_left _ (by omega)
  rw [← hs.prod_cut, prod_dims, prod_dims, List.prod_singleton, List.prod_singleton]
  exact Nat.mul_le_mul_right _ (Nat.mul_le_mul_left _ hpos)

/-- A unit axis in the place of the inner half does not count. -/
theorem prod_unit (s : Split) (old : List Nat) :
    (s.dims old [1]).prod = (s.dims old []).prod := by
  simp [prod_dims]

/-- The first pass folds the inner half. -/
theorem forall₂_inner (s : Split) (old : List Nat) :
    List.Forall₂ (fun n m => n = m ∨ m = 1) (s.dims old [s.divisor]) (s.dims old [1]) := by
  have hrefl (l : List Nat) : List.Forall₂ (fun n m => n = m ∨ m = 1) l l :=
    List.forall₂_same.mpr fun n _ => .inl rfl
  simp only [dims, List.append_assoc]
  refine List.rel_append (hrefl _) (List.rel_append (hrefl _) (List.rel_append ?_ (hrefl _)))
  exact .cons (.inr rfl) .nil

/-- The second pass folds what the reduction folds, with the outer half in the place of the axis. -/
theorem Cuts.forall₂_outer (hs : s.Cuts old new)
    (hfold : List.Forall₂ (fun n m => n = m ∨ m = 1) old new) :
    List.Forall₂ (fun n m => n = m ∨ m = 1) (s.dims old []) new := by
  obtain ⟨n, m, hn, hm, hne⟩ := hs.axis
  have hlt := hs.axis_lt
  rw [List.forall₂_iff_get] at hfold ⊢
  obtain ⟨hlen, hget⟩ := hfold
  have hdims : s.dims old [] = old.set s.axis (old.getD s.axis 0 / s.divisor) := by
    rw [List.set_eq_take_append_cons_drop, if_pos hlt]
    simp [dims]
  rw [hdims]
  refine ⟨by rw [List.length_set, hlen], ?_⟩
  intro i hi hi'
  have hold := hget i (by simpa using hi) hi'
  simp only [List.get_eq_getElem, List.getElem_set] at hold ⊢
  split
  · next heq =>
    subst heq
    obtain ⟨_, rfl⟩ := List.getElem?_eq_some_iff.mp hn
    obtain ⟨_, rfl⟩ := List.getElem?_eq_some_iff.mp hm
    exact .inr (hold.resolve_left hne)
  · exact hold

end Split

end TensorGraph
