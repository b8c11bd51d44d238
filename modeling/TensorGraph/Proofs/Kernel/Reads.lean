import Mathlib.Data.List.Nodup
import Mathlib.Tactic.Ring
import TensorGraph.Proofs.Meaning.Dense
import TensorGraph.Proofs.Split
/-!
# What a reduction covers

A reduction folds into a position exactly the positions that agree with it on the axes that are
kept, each of them once. A reduction in two passes, with an axis cut between them, covers the same
positions in another order.

- `Kernel.Covers`: the positions that agree with a position, each once.
- `Kernel.covers_reads`: one pass.
- `Split.Cuts.covers_flatMap`: two passes.
-/

namespace TensorGraph

namespace Kernel

/-! ## Agreement on the axes that are kept -/

/-- Coordinates in tensors with the extents `old` and `new` are the same along every axis that has
the same extent in both. -/
def AgreeOn (old new p q : List Nat) : Prop := ∀ a : Nat, old[a]? = new[a]? → p[a]? = q[a]?

/-- The position `k` of a tensor with the extents `old` agrees with the position `flat` of its
reduction to the extents `new` on the axes that are kept. -/
def Agrees (old new : List Nat) (flat k : Nat) : Prop :=
  AgreeOn old new (unravel old k) (unravel new flat)

/-- The positions `ks` are those that agree with the position `flat` on the axes that are kept, each
of them once. -/
structure Covers (old new : List Nat) (flat : Nat) (ks : List Nat) : Prop where
  /-- No position is covered twice. -/
  nodup : ks.Nodup
  /-- A position is covered if it agrees. -/
  mem_iff : ∀ k, k ∈ ks ↔ k < old.prod ∧ Agrees old new flat k

variable {old new p q : List Nat}

theorem Covers.perm {flat : Nat} {ks ks' : List Nat} (h : Covers old new flat ks)
    (h' : Covers old new flat ks') : ks.Perm ks' := by
  refine (List.perm_ext_iff_of_nodup h.nodup h'.nodup).mpr fun k => ?_
  rw [h.mem_iff, h'.mem_iff]

@[simp] theorem agreeOn_nil : AgreeOn [] [] [] [] := fun _ _ => rfl

@[simp] theorem agreeOn_cons {n m i j : Nat} :
    AgreeOn (n :: old) (m :: new) (i :: p) (j :: q) ↔ (n = m → i = j) ∧ AgreeOn old new p q := by
  constructor
  · intro h
    exact ⟨fun hnm => Option.some.inj (h 0 (congrArg some hnm)), fun a => h (a + 1)⟩
  · rintro ⟨hfirst, hrest⟩ a h
    cases a with
    | zero => exact congrArg some (hfirst (Option.some.inj h))
    | succ a => exact hrest a h

theorem agreeOn_append {old' new' p' q' : List Nat} (hnew : new.length = old.length)
    (hp : p.length = old.length) (hq : q.length = old.length) :
    AgreeOn (old ++ old') (new ++ new') (p ++ p') (q ++ q')
      ↔ AgreeOn old new p q ∧ AgreeOn old' new' p' q' := by
  induction old generalizing new p q with
  | nil => simp_all
  | cons n old ih =>
    obtain ⟨m, new, rfl⟩ := List.exists_cons_of_length_eq_add_one hnew
    obtain ⟨i, p, rfl⟩ := List.exists_cons_of_length_eq_add_one hp
    obtain ⟨j, q, rfl⟩ := List.exists_cons_of_length_eq_add_one hq
    simp only [List.length_cons, Nat.add_right_cancel_iff] at hnew hp hq
    simp only [List.cons_append, agreeOn_cons, ih hnew hp hq, and_assoc]

/-- Coordinates that agree with the same extents everywhere are the same. -/
theorem agreeOn_self (dims : List Nat) : AgreeOn dims dims p q ↔ p = q := by
  rw [AgreeOn, List.ext_getElem?_iff]
  simp

/-! ## Steps and coordinates -/

/-- The step of a reduction that reads the coordinates `p`. -/
def stepOf : (old new p : List Nat) → Nat
  | n :: old, m :: new, i :: p =>
    if n = m then stepOf old new p else i * foldCount old new + stepOf old new p
  | _, _, _ => 0

variable (hfold : List.Forall₂ (fun n m => n = m ∨ m = 1) old new)
include hfold

/-- A reduction reads coordinates that agree with the position it computes. -/
theorem agreeOn_stepIndex (hq : Inside new q) (step : Nat) :
    AgreeOn old new (stepIndex old new q step).1 q := by
  induction hfold generalizing q with
  | nil =>
    cases hq
    exact agreeOn_nil
  | @cons n m old new _ _ ih =>
    cases hq with
    | @cons _ j _ q _ hq =>
      rw [stepIndex]
      by_cases hnm : n = m <;> simp [hnm, ih hq]

/-- A step is determined by its coordinates and what exceeds the folded axes. -/
theorem stepOf_stepIndex (hq : Inside new q) (step : Nat) :
    stepOf old new (stepIndex old new q step).1
      + (stepIndex old new q step).2 * foldCount old new = step := by
  induction hfold generalizing q with
  | nil =>
    cases hq
    simp [stepOf, stepIndex, foldCount]
  | @cons n m old new _ _ ih =>
    cases hq with
    | @cons _ j _ q _ hq =>
      have ih := ih hq
      rw [stepIndex, foldCount_cons]
      by_cases hnm : n = m
      · simpa only [hnm, if_true, stepOf] using ih
      · simp only [hnm, if_false, stepOf]
        calc _ = stepOf old new (stepIndex old new q step).1
              + (n * ((stepIndex old new q step).2 / n) + (stepIndex old new q step).2 % n)
                * foldCount old new := by ring
          _ = step := by rw [Nat.div_add_mod, ih]

/-- Coordinates that agree are read, at their own step. -/
theorem stepIndex_stepOf (hp : Inside old p) (hq : Inside new q) (h : AgreeOn old new p q) :
    stepOf old new p < foldCount old new
      ∧ ∀ k, stepIndex old new q (stepOf old new p + k * foldCount old new) = (p, k) := by
  induction hfold generalizing p q with
  | nil =>
    cases hp
    cases hq
    simp [stepOf, stepIndex, foldCount]
  | @cons n m old new _ _ ih =>
    cases hp with
    | @cons _ i _ p hi hp =>
    cases hq with
    | @cons _ j _ q _ hq =>
      obtain ⟨hij, h⟩ := agreeOn_cons.mp h
      obtain ⟨hlt, hindex⟩ := ih hp hq h
      rw [foldCount_cons]
      by_cases hnm : n = m
      · simp only [hnm, if_true, stepOf, stepIndex, hindex]
        exact ⟨hlt, fun k => by rw [hij hnm]⟩
      · simp only [hnm, if_false, stepOf, stepIndex]
        constructor
        · calc i * foldCount old new + stepOf old new p
              < (i + 1) * foldCount old new := by rw [Nat.succ_mul]; omega
            _ ≤ n * foldCount old new := Nat.mul_le_mul_right _ hi
        · intro k
          have hsplit : i * foldCount old new + stepOf old new p + k * (n * foldCount old new)
              = stepOf old new p + (n * k + i) * foldCount old new := by ring
          rw [hsplit, hindex]
          simp only [Nat.mul_add_mod, Nat.mod_eq_of_lt hi, Nat.mul_add_div (Nat.zero_lt_of_lt hi),
            Nat.div_eq_of_lt hi, Nat.add_zero]

/-! ## One pass -/

variable {flat step : Nat}

theorem unravel_readAt (hflat : flat < new.prod) (hstep : step < foldCount old new) :
    unravel old (readAt old new flat step) = (stepIndex old new (unravel new flat) step).1 :=
  have hq := inside_unravel (Nat.zero_lt_of_lt hflat) flat
  unravel_ravel (inside_stepIndex hfold.length_eq hq (Nat.zero_lt_of_lt hstep) step)

/-- A position tells the step at which it is read, as nothing exceeds the folded axes. -/
theorem stepOf_readAt (hflat : flat < new.prod) (hstep : step < foldCount old new) :
    stepOf old new (unravel old (readAt old new flat step)) = step := by
  have hsum := stepOf_stepIndex hfold (inside_unravel (Nat.zero_lt_of_lt hflat) flat) step
  rw [unravel_readAt hfold hflat hstep]
  cases hexcess : (stepIndex old new (unravel new flat) step).2 with
  | zero => simpa [hexcess] using hsum
  | succ k =>
    rw [hexcess, Nat.succ_mul] at hsum
    omega

/-- A reduction in one pass covers the positions that agree. -/
theorem covers_reads (hflat : flat < new.prod) : Covers old new flat (reads old new flat) := by
  have hq : Inside new (unravel new flat) := inside_unravel (Nat.zero_lt_of_lt hflat) flat
  constructor
  · refine List.Nodup.map_on ?_ List.nodup_range
    intro step hstep step' hstep' heq
    rw [List.mem_range] at hstep hstep'
    rw [← stepOf_readAt hfold hflat hstep, heq, stepOf_readAt hfold hflat hstep']
  · intro k
    constructor
    · intro hk
      refine ⟨lt_of_mem_reads hfold.length_eq hflat hk, ?_⟩
      obtain ⟨step, hstep, rfl⟩ := List.mem_map.mp hk
      rw [Agrees, unravel_readAt hfold hflat (List.mem_range.mp hstep)]
      exact agreeOn_stepIndex hfold hq step
    · rintro ⟨hlt, hagrees⟩
      obtain ⟨hstep, hindex⟩ :=
        stepIndex_stepOf hfold (inside_unravel (Nat.zero_lt_of_lt hlt) k) hq hagrees
      refine List.mem_map.mpr ⟨_, List.mem_range.mpr hstep, ?_⟩
      have hcoords := congrArg Prod.fst (hindex 0)
      rw [Nat.zero_mul, Nat.add_zero] at hcoords
      rw [readAt, hcoords, ravel_unravel hlt]

omit hfold in
/-- Where nothing is folded, a position covers itself. -/
theorem covers_singleton {dims : List Nat} (hflat : flat < dims.prod) :
    Covers dims dims flat [flat] := by
  refine ⟨List.nodup_singleton flat, fun k => ?_⟩
  rw [List.mem_singleton, Agrees, agreeOn_self]
  constructor
  · rintro rfl
    exact ⟨hflat, rfl⟩
  · rintro ⟨hk, heq⟩
    rw [← ravel_unravel hk, heq, ravel_unravel hflat]

omit hfold in
/-- Where nothing is folded, a reduction reads the position itself. -/
theorem reads_self {dims : List Nat} (hflat : flat < dims.prod) :
    reads dims dims flat = [flat] := by
  have hfold : List.Forall₂ (fun n m => n = m ∨ m = 1) dims dims :=
    List.forall₂_same.mpr fun n _ => .inl rfl
  exact List.perm_singleton.mp ((covers_reads hfold hflat).perm (covers_singleton hflat))

end Kernel

/-! ## Two passes -/

/-- A folded axis does not count for agreement: what remains are the axes before and after it. -/
theorem Kernel.agrees_append_cons {outer inner outer' inner' : List Nat} {n : Nat}
    (hlen : outer'.length = outer.length) (hold : 0 < (outer ++ n :: inner).prod)
    (hnew : 0 < (outer' ++ 1 :: inner').prod) (flat k : Nat) :
    Agrees (outer ++ n :: inner) (outer' ++ 1 :: inner') flat k
      ↔ Agrees outer outer' (flat / inner'.prod) (k / (n * inner.prod)) ∧ Agrees inner inner' flat k := by
  rw [Agrees, unravel_append_cons hold, unravel_append_cons hnew, agreeOn_append hlen
    (length_unravel ..) ((length_unravel ..).trans hlen), agreeOn_cons, Nat.one_mul]
  have hunit : n = 1 → k / inner.prod % n = flat / inner'.prod % 1 := by
    rintro rfl
    simp [Nat.mod_one]
  exact and_congr Iff.rfl (and_iff_right hunit)

namespace Split

open TensorGraph.Kernel

variable {s : Split} {old new : List Nat} {flat k q : Nat}

/-- The extents up to the outer half of the axis that is cut. -/
def outerDims (s : Split) (old : List Nat) : List Nat :=
  old.take s.axis ++ [old.getD s.axis 0 / s.divisor]

/-- The extents after the axis that is cut. -/
def innerDims (s : Split) (old : List Nat) : List Nat := old.drop (s.axis + 1)

theorem dims_nil (s : Split) (old : List Nat) :
    s.dims old [] = s.outerDims old ++ s.innerDims old := by
  simp [dims, outerDims, innerDims]

theorem dims_singleton (s : Split) (old : List Nat) (c : Nat) :
    s.dims old [c] = s.outerDims old ++ c :: s.innerDims old := by
  simp [dims, outerDims, innerDims]

/-- The position of the first pass that `k` is folded into: what counts along the inner half is
dropped. -/
def firstPass (s : Split) (old : List Nat) (k : Nat) : Nat :=
  k / (s.divisor * (s.innerDims old).prod) * (s.innerDims old).prod + k % (s.innerDims old).prod

theorem firstPass_div (h : 0 < (s.innerDims old).prod) :
    s.firstPass old k / (s.innerDims old).prod = k / (s.divisor * (s.innerDims old).prod) := by
  rw [firstPass, Nat.mul_comm (k / _), Nat.mul_add_div h, Nat.div_eq_of_lt (Nat.mod_lt _ h),
    Nat.add_zero]

theorem unravel_firstPass (h : 0 < (s.innerDims old).prod) :
    unravel (s.innerDims old) (s.firstPass old k) = unravel (s.innerDims old) k := by
  rw [firstPass, unravel_mul_add h, unravel_eq_iff h, Nat.mod_mod]

theorem innerDims_pos {inner : List Nat} (h : 0 < (s.dims old inner).prod) :
    0 < (s.innerDims old).prod := by
  rw [prod_dims] at h
  exact Nat.pos_of_mul_pos_left h

/-- The first pass folds into a position of its result. -/
theorem firstPass_lt (hk : k < (s.dims old [s.divisor]).prod) :
    s.firstPass old k < (s.dims old []).prod := by
  have hinner := innerDims_pos (Nat.zero_lt_of_lt hk)
  rw [dims_singleton, List.prod_append, List.prod_cons] at hk
  rw [dims_nil, List.prod_append, ← Nat.div_lt_iff_lt_mul hinner, firstPass_div hinner]
  exact Nat.div_lt_of_lt_mul (by rwa [Nat.mul_comm])

/-- In the first pass a position agrees with the one it is folded into, and with no other. -/
theorem agrees_inner_iff (hk : k < (s.dims old [s.divisor]).prod) (hq : q < (s.dims old []).prod) :
    Agrees (s.dims old [s.divisor]) (s.dims old [1]) q k ↔ q = s.firstPass old k := by
  have hcut := Nat.zero_lt_of_lt hk
  have hunit : 0 < (s.dims old [1]).prod := s.prod_unit old ▸ Nat.zero_lt_of_lt hq
  have hinner := innerDims_pos hcut
  have hlt := firstPass_lt hk
  rw [dims_singleton] at hcut hunit ⊢
  rw [dims_singleton, agrees_append_cons rfl hcut hunit]
  rw [dims_nil, List.prod_append, ← Nat.div_lt_iff_lt_mul hinner] at hq hlt
  have houter : 0 < (s.outerDims old).prod := Nat.zero_lt_of_lt hq
  simp only [Agrees, agreeOn_self]
  rw [← firstPass_div hinner, ← unravel_firstPass hinner, unravel_eq_iff houter,
    unravel_eq_iff hinner, Nat.mod_eq_of_lt hlt, Nat.mod_eq_of_lt hq]
  constructor
  · rintro ⟨hdiv, hmod⟩
    rw [← Nat.div_add_mod' q (s.innerDims old).prod, ← hdiv, ← hmod, Nat.div_add_mod']
  · rintro rfl
    exact ⟨rfl, rfl⟩

/-- The extents of a reduction around the axis that is cut, which is folded. -/
theorem Cuts.new_eq (hs : s.Cuts old new) (hfold : List.Forall₂ (fun n m => n = m ∨ m = 1) old new) :
    new = new.take s.axis ++ 1 :: new.drop (s.axis + 1) := by
  obtain ⟨-, -, hone, -⟩ := hs.folded hfold
  obtain ⟨hnew, hone⟩ := List.getElem?_eq_some_iff.mp hone
  have hdrop := List.drop_eq_getElem_cons hnew
  rw [hone] at hdrop
  rw [← hdrop, List.take_append_drop]

/-- In the second pass the position that `k` was folded into agrees where `k` does. -/
theorem Cuts.agrees_outer_iff (hs : s.Cuts old new)
    (hfold : List.Forall₂ (fun n m => n = m ∨ m = 1) old new) (hk : k < old.prod)
    (hflat : flat < new.prod) :
    Agrees (s.dims old []) new flat (s.firstPass old k) ↔ Agrees old new flat k := by
  have hpos := hs.old_eq ▸ Nat.zero_lt_of_lt hk
  have hpos' := hs.new_eq hfold ▸ Nat.zero_lt_of_lt hflat
  have hlen : (new.take s.axis).length = (old.take s.axis).length := by
    rw [List.length_take, List.length_take, List.Forall₂.length_eq hfold]
  have houterPos : 0 < (s.dims old []).prod :=
    Nat.zero_lt_of_lt (firstPass_lt (hs.prod_cut.symm ▸ hk))
  have hinner := innerDims_pos houterPos
  have hdims : s.dims old []
      = old.take s.axis ++ old.getD s.axis 0 / s.divisor :: s.innerDims old := by
    simp [dims, innerDims]
  have hquot : s.firstPass old k / (old.getD s.axis 0 / s.divisor * (s.innerDims old).prod)
      = k / (old.getD s.axis 0 * (s.innerDims old).prod) := by
    rw [Nat.mul_comm (_ / _), ← Nat.div_div_eq_div_mul, firstPass_div hinner,
      Nat.div_div_eq_div_mul, Nat.mul_right_comm, Nat.mul_div_cancel' hs.dvd]
  have houter : Agrees (s.dims old []) new flat (s.firstPass old k)
      ↔ Agrees (old.take s.axis) (new.take s.axis) (flat / (new.drop (s.axis + 1)).prod)
          (s.firstPass old k / (old.getD s.axis 0 / s.divisor * (s.innerDims old).prod))
        ∧ Agrees (s.innerDims old) (new.drop (s.axis + 1)) flat (s.firstPass old k) := by
    rw [hdims] at houterPos ⊢
    conv_lhs => rw [hs.new_eq hfold]
    exact agrees_append_cons hlen houterPos hpos' ..
  have hsingle : Agrees old new flat k
      ↔ Agrees (old.take s.axis) (new.take s.axis) (flat / (new.drop (s.axis + 1)).prod)
          (k / (old.getD s.axis 0 * (s.innerDims old).prod))
        ∧ Agrees (s.innerDims old) (new.drop (s.axis + 1)) flat k := by
    conv_lhs => rw [hs.new_eq hfold, hs.old_eq]
    exact agrees_append_cons hlen hpos hpos' ..
  rw [houter, hsingle, hquot, Agrees, Agrees, Agrees, unravel_firstPass hinner]

/-- A reduction in two passes covers the positions that agree. -/
theorem Cuts.covers_flatMap (hs : s.Cuts old new)
    (hfold : List.Forall₂ (fun n m => n = m ∨ m = 1) old new) (hflat : flat < new.prod) :
    Covers old new flat ((reads (s.dims old []) new flat).flatMap
      (reads (s.dims old [s.divisor]) (s.dims old [1]))) := by
  have houter := covers_reads (hs.forall₂_outer hfold) hflat
  have hinner {q : Nat} (hq : q ∈ reads (s.dims old []) new flat) :=
    covers_reads (s.forall₂_inner old) (s.prod_unit old ▸ ((houter.mem_iff q).mp hq).1)
  have hiff {q k : Nat} (hq : q ∈ reads (s.dims old []) new flat) :
      k ∈ reads (s.dims old [s.divisor]) (s.dims old [1]) q
        ↔ k < old.prod ∧ q = s.firstPass old k := by
    rw [(hinner hq).mem_iff, hs.prod_cut]
    refine and_congr_right fun hk => ?_
    exact agrees_inner_iff (hs.prod_cut.symm ▸ hk) ((houter.mem_iff q).mp hq).1
  constructor
  · refine List.nodup_flatMap.mpr ⟨fun q hq => (hinner hq).nodup, ?_⟩
    refine List.Pairwise.imp_of_mem ?_ houter.nodup
    intro q q' hq hq' hne
    refine List.disjoint_left.mpr fun k hk hk' => hne ?_
    rw [((hiff hq).mp hk).2, ((hiff hq').mp hk').2]
  · intro k
    rw [List.mem_flatMap]
    constructor
    · rintro ⟨q, hq, hk⟩
      obtain ⟨hlt, rfl⟩ := (hiff hq).mp hk
      exact ⟨hlt, (hs.agrees_outer_iff hfold hlt hflat).mp ((houter.mem_iff _).mp hq).2⟩
    · rintro ⟨hlt, hagrees⟩
      have hq := (houter.mem_iff (s.firstPass old k)).mpr
        ⟨firstPass_lt (hs.prod_cut.symm ▸ hlt), (hs.agrees_outer_iff hfold hlt hflat).mpr hagrees⟩
      exact ⟨_, hq, (hiff hq).mpr ⟨hlt, rfl⟩⟩

end Split

end TensorGraph
