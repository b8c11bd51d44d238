import Mathlib.Algebra.BigOperators.Ring.List
import TensorGraph.Proofs.Kernel.Reads
/-!
# The order of a reduction

A step of a reduction is a number whose digits are the coordinates along the folded axes. The
position that it reads is a number in another system: its digits are the coordinates along all axes,
the kept ones in between. From step to step the kept coordinates stay, so two steps differ first
where their positions do, and a later step reads a later position.

The steps can share one list of coordinates. Each step writes its digits over those that the step
before it has left, and nothing of the old digits is seen again.

- `Kernel.Sweeps`: the positions that agree with a position, each once and in increasing order.
- `Kernel.ravel_lt_ravel`: a later step reads a later position.
- `Kernel.sweep`: the positions read by steps that share their coordinates.
- `Kernel.Sweeps.eval_reduce`: the elements that a reduction folds, and in which order.
- `Kernel.reads_sweeps`: a reduction sweeps the positions that agree with the one it computes.
-/

namespace TensorGraph

/-- Numbers of two digits are ordered by their first digits, and by the second where these are the
same. -/
theorem mul_add_lt_mul_add_iff {c i i' s s' : Nat} (hs : s < c) (hs' : s' < c) :
    i * c + s < i' * c + s' ↔ i < i' ∨ i = i' ∧ s < s' := by
  rcases Nat.lt_trichotomy i i' with hlt | rfl | hlt
  · have hle : (i + 1) * c ≤ i' * c := Nat.mul_le_mul_right c hlt
    rw [Nat.succ_mul] at hle
    omega
  · omega
  · have hle : (i' + 1) * c ≤ i * c := Nat.mul_le_mul_right c hlt
    rw [Nat.succ_mul] at hle
    omega

namespace Kernel

/-- The positions `ks` sweep the part of a tensor with the extents `old` that a reduction to the
extents `new` folds into the position `flat`: they cover it from its first position to its last. -/
structure Sweeps (old new : List Nat) (flat : Nat) (ks : List Nat) : Prop
    extends Covers old new flat ks where
  /-- The positions increase. -/
  increasing : ks.Pairwise (· < ·)
  /-- There is none if an extent is zero, and only then. -/
  eq_nil_iff : ks = [] ↔ 0 ∈ old

/-- The axes that a reduction folds, outermost first. -/
def foldedAxes (source extents : List Nat) : List Nat :=
  (List.range extents.length).filter fun a => extents[a]? ≠ source[a]?

/-- Writes the last digit of what is left of a step over the coordinate along an axis. -/
def writeDigit (source : List Nat) (axis : Nat) (s : List Nat × Nat) : List Nat × Nat :=
  (s.1.set axis (s.2 % source.getD axis 0), s.2 / source.getD axis 0)

/-- Writes the digits of `step` over the coordinates along the folded axes, the last axis first. -/
def overwrite (source extents index : List Nat) (step : Nat) : List Nat :=
  ((foldedAxes source extents).foldr (writeDigit source) (index, step)).1

/-- The positions that are read at the steps `steps`, if each step writes over the coordinates that
the step before it has left. -/
def sweep (source extents : List Nat) : (index steps : List Nat) → List Nat
  | _, [] => []
  | index, step :: steps =>
    let next := overwrite source extents index step
    ravel source next :: sweep source extents next steps

variable {old new p p' q index : List Nat} {flat step step' : Nat}

/-! ## One list of coordinates -/

theorem foldedAxes_cons (n m : Nat) (old new : List Nat) :
    foldedAxes (n :: old) (m :: new)
      = (if n = m then [] else [0]) ++ (foldedAxes old new).map (· + 1) := by
  have htail : ((List.range new.length).map (· + 1)).filter (fun a => (m :: new)[a]? ≠ (n :: old)[a]?)
      = (foldedAxes old new).map (· + 1) := by
    rw [List.filter_map, foldedAxes]
    rfl
  rw [foldedAxes, List.length_cons, List.range_succ_eq_map, List.filter_cons, htail]
  by_cases hnm : n = m
  · simp [hnm]
  · simp [hnm, Ne.symm hnm]

/-- The first coordinate stays where digits are written behind it. -/
theorem foldr_writeDigit_succ (n i : Nat) (old index axes : List Nat) (step : Nat) :
    (axes.map (· + 1)).foldr (writeDigit (n :: old)) (i :: index, step)
      = (i :: (axes.foldr (writeDigit old) (index, step)).1,
          (axes.foldr (writeDigit old) (index, step)).2) := by
  induction axes with
  | nil => rfl
  | cons axis axes ih =>
    rw [List.map_cons, List.foldr_cons, List.foldr_cons, ih]
    rfl

/-- Digits written axis by axis are the coordinates of the step. -/
theorem foldr_writeDigit (hnew : new.length = old.length) (hindex : index.length = old.length)
    (step : Nat) :
    (foldedAxes old new).foldr (writeDigit old) (index, step) = stepIndex old new index step := by
  induction old generalizing new index with
  | nil =>
    obtain rfl := List.eq_nil_of_length_eq_zero hnew
    rfl
  | cons n old ih =>
    obtain ⟨m, new, rfl⟩ := List.exists_cons_of_length_eq_add_one hnew
    obtain ⟨i, index, rfl⟩ := List.exists_cons_of_length_eq_add_one hindex
    have ih := ih (Nat.succ.inj hnew) (Nat.succ.inj hindex)
    rw [foldedAxes_cons, List.foldr_append, foldr_writeDigit_succ, ih, stepIndex]
    by_cases hnm : n = m
    · simp [hnm]
    · simp [hnm, writeDigit]

theorem overwrite_eq (hnew : new.length = old.length) (hindex : index.length = old.length)
    (step : Nat) : overwrite old new index step = (stepIndex old new index step).1 := by
  rw [overwrite, foldr_writeDigit hnew hindex]

/-- The coordinates of a step are as many as there were. -/
theorem length_stepIndex (old new index : List Nat) (step : Nat) :
    (stepIndex old new index step).1.length = index.length := by
  induction old generalizing new index with
  | nil => rfl
  | cons n old ih =>
    match new, index with
    | [], _ => rfl
    | _ :: _, [] => rfl
    | m :: new, i :: index =>
      rw [stepIndex]
      by_cases hnm : n = m <;> simp [hnm, ih]

/-- A step does not see the digits that another step has left. -/
theorem stepIndex_stepIndex (old new index : List Nat) (step step' : Nat) :
    stepIndex old new (stepIndex old new index step).1 step' = stepIndex old new index step' := by
  induction old generalizing new index with
  | nil => rfl
  | cons n old ih =>
    match new, index with
    | [], _ => rfl
    | _ :: _, [] => rfl
    | m :: new, i :: index =>
      by_cases hnm : n = m <;> simp [stepIndex, hnm, ih]

/-- Steps that share their coordinates read what they read apart. -/
theorem sweep_eq_map (hnew : new.length = old.length) (hindex : index.length = old.length)
    (steps : List Nat) :
    sweep old new index steps = steps.map fun step => ravel old (stepIndex old new index step).1 := by
  induction steps generalizing index with
  | nil => rfl
  | cons step steps ih =>
    have hnext : (stepIndex old new index step).1.length = old.length :=
      (length_stepIndex ..).trans hindex
    rw [sweep, overwrite_eq hnew hindex, ih hnext, List.map_cons]
    simp only [stepIndex_stepIndex]

theorem sweep_eq_reads (hnew : new.length = old.length) (flat : Nat) :
    sweep old new (unravel new flat) (List.range (foldCount old new)) = reads old new flat :=
  sweep_eq_map hnew ((length_unravel new flat).trans hnew) _

/-! ## The order of the positions -/

variable (hfold : List.Forall₂ (fun n m => n = m ∨ m = 1) old new)

include hfold in
/-- Coordinates that agree with the same kept ones come in the order of their steps. -/
theorem ravel_lt_ravel (hp : Inside old p) (hp' : Inside old p') (hq : Inside new q)
    (h : AgreeOn old new p q) (h' : AgreeOn old new p' q)
    (hlt : stepOf old new p < stepOf old new p') : ravel old p < ravel old p' := by
  induction hfold generalizing p p' q with
  | nil =>
    cases hp
    cases hp'
    exact absurd hlt (Nat.lt_irrefl _)
  | @cons n m old new _ hfold ih =>
    cases hp with
    | @cons _ i _ p _ hp =>
    cases hp' with
    | @cons _ i' _ p' _ hp' =>
    cases hq with
    | @cons _ j _ q _ hq =>
      obtain ⟨hij, h⟩ := agreeOn_cons.mp h
      obtain ⟨hij', h'⟩ := agreeOn_cons.mp h'
      rw [ravel_cons (Inside.length_eq hp), ravel_cons (Inside.length_eq hp'),
        mul_add_lt_mul_add_iff (ravel_lt hp) (ravel_lt hp')]
      by_cases hnm : n = m
      · -- a kept axis has the same coordinate in both
        simp only [stepOf, if_pos hnm] at hlt
        exact .inr ⟨(hij hnm).trans (hij' hnm).symm, ih hp hp' hq h h' hlt⟩
      · -- a folded axis is the first digit of both the step and the position
        have hbound := (stepIndex_stepOf hfold hp hq h).1
        have hbound' := (stepIndex_stepOf hfold hp' hq h').1
        simp only [stepOf, if_neg hnm, mul_add_lt_mul_add_iff hbound hbound'] at hlt
        rcases hlt with hlt | ⟨heq, hlt⟩
        · exact .inl hlt
        · exact .inr ⟨heq, ih hp hp' hq h h' hlt⟩

include hfold in
/-- A later step reads a later position. -/
theorem readAt_lt_readAt (hflat : flat < new.prod) (hstep' : step' < foldCount old new)
    (hlt : step < step') : readAt old new flat step < readAt old new flat step' := by
  have hq : Inside new (unravel new flat) := inside_unravel (Nat.zero_lt_of_lt hflat) flat
  have hcount : 0 < foldCount old new := Nat.zero_lt_of_lt hstep'
  have hinside (s : Nat) := inside_stepIndex hfold.length_eq hq hcount s
  have hagrees (s : Nat) := agreeOn_stepIndex hfold hq s
  have hstepOf {s : Nat} (hs : s < foldCount old new) :
      stepOf old new (stepIndex old new (unravel new flat) s).1 = s := by
    rw [← unravel_readAt hfold hflat hs]
    exact stepOf_readAt hfold hflat hs
  refine ravel_lt_ravel hfold (hinside step) (hinside step') hq (hagrees step) (hagrees step') ?_
  rwa [hstepOf (hlt.trans hstep'), hstepOf hstep']

include hfold in
theorem pairwise_reads (hflat : flat < new.prod) : (reads old new flat).Pairwise (· < ·) := by
  refine List.pairwise_map.mpr (List.pairwise_lt_range.imp_of_mem ?_)
  intro step step' _ hstep' hlt
  exact readAt_lt_readAt hfold hflat (List.mem_range.mp hstep') hlt

/-- If there is nothing to fold, an extent is zero. -/
theorem zero_mem_of_foldCount_eq_zero (h : foldCount old new = 0) : 0 ∈ old := by
  obtain ⟨⟨n, m⟩, hmem, rfl⟩ := List.mem_map.mp (List.prod_eq_zero_iff.mp h)
  exact (List.of_mem_zip (List.mem_of_mem_filter hmem)).1

include hfold in
/-- Nothing is read if an extent is zero, and only then. -/
theorem reads_eq_nil_iff (hflat : flat < new.prod) : reads old new flat = [] ↔ 0 ∈ old := by
  constructor
  · intro hnil
    have hrange : List.range (foldCount old new) = [] := List.map_eq_nil_iff.mp hnil
    exact zero_mem_of_foldCount_eq_zero (List.range_eq_nil.mp hrange)
  · intro hzero
    refine List.eq_nil_iff_forall_not_mem.mpr fun k hk => ?_
    have hlt : k < old.prod := lt_of_mem_reads hfold.length_eq hflat hk
    rw [List.prod_eq_zero hzero] at hlt
    exact Nat.not_lt_zero k hlt

include hfold in
theorem sweeps_reads (hflat : flat < new.prod) : Sweeps old new flat (reads old new flat) :=
  ⟨covers_reads hfold hflat, pairwise_reads hfold hflat, reads_eq_nil_iff hfold hflat⟩

/-- There is one sweep of the positions that agree. -/
theorem Sweeps.unique {ks ks' : List Nat} (h : Sweeps old new flat ks) (h' : Sweeps old new flat ks') :
    ks = ks' := by
  refine (h.toCovers.perm h'.toCovers).eq_of_pairwise ?_ h.increasing h'.increasing
  intro k k' _ _ hlt hlt'
  exact absurd hlt (Nat.lt_asymm hlt')

/-- A reduction is evaluated along the sweep of the positions that agree. -/
theorem Sweeps.eval_reduce {α : Type} [Lane α] {x : Kernel α} {ks : List Nat}
    (hfold : List.Forall₂ (fun n m => n = m ∨ m = 1) x.dims new) (hflat : flat < new.prod)
    (h : Sweeps x.dims new flat ks) (inputs : Array (Array α)) (op : ReduceOp) (type : DType) :
    (reduce op new type x).eval inputs flat = (do
      let total ← ks.foldlM
        (fun acc place => do return Lane.fold op acc (← x.eval inputs place)) (Lane.start op)
      return Lane.round type total) := by
  rw [eval, (sweeps_reads hfold hflat).unique h]

include hfold in
/-- A reduction reads the positions that agree with the one it computes, in increasing order and each
of them once, and none if an extent is zero. Its steps may share their coordinates. Positions and
coordinates determine each other whatever the extents are. -/
theorem reads_sweeps (hflat : flat < new.prod) :
    Sweeps old new flat (reads old new flat)
      ∧ sweep old new (unravel new flat) (List.range (foldCount old new)) = reads old new flat
      ∧ ∀ dims : List Nat,
        (∀ k < dims.prod, Inside dims (unravel dims k) ∧ ravel dims (unravel dims k) = k)
        ∧ ∀ p, Inside dims p → ravel dims p < dims.prod ∧ unravel dims (ravel dims p) = p := by
  refine ⟨sweeps_reads hfold hflat, sweep_eq_reads hfold.length_eq.symm flat, fun dims => ⟨?_, ?_⟩⟩
  · exact fun k hk => ⟨inside_unravel (Nat.zero_lt_of_lt hk) k, ravel_unravel hk⟩
  · exact fun p hp => ⟨ravel_lt hp, unravel_ravel hp⟩

/-- The first and the third of four axes are folded. -/
theorem reads_sweeps_everyOther :
    List.Forall₂ (fun n m => n = m ∨ m = 1) [2, 3, 2, 2] [1, 3, 1, 2] ∧ 3 < [1, 3, 1, 2].prod
      ∧ Sweeps [2, 3, 2, 2] [1, 3, 1, 2] 3 [5, 7, 17, 19]
      ∧ sweep [2, 3, 2, 2] [1, 3, 1, 2] [0, 1, 0, 1] (List.range 4) = [5, 7, 17, 19] := by
  have hfold : List.Forall₂ (fun n m => n = m ∨ m = 1) [2, 3, 2, 2] [1, 3, 1, 2] :=
    .cons (.inr rfl) (.cons (.inl rfl) (.cons (.inr rfl) (.cons (.inl rfl) .nil)))
  have hflat : 3 < [1, 3, 1, 2].prod := by decide
  obtain ⟨hsweeps, hsweep, -⟩ := reads_sweeps hfold hflat
  exact ⟨hfold, hflat, hsweeps, hsweep⟩

end Kernel

end TensorGraph
