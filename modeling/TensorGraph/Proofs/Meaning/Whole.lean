import TensorGraph.Lane.Whole
import TensorGraph.Proofs.Graph.Coverage
import TensorGraph.Proofs.Meaning.Tensor
/-!
# Reductions of whole numbers

Where whole numbers are exact, the maximum of a reduction is one of its elements, whatever the groups
in which it is found, and a sum that is rounded once is the rounded sum. A reduction in two passes
rounds the sum of each group before the groups are added, so it is the same sum only where the rounded
sums of the groups still lead there.

- `Dense.IsWhole`: tensors of whole numbers.
- `Dense.reduceTwice`: a reduction in two passes.
- `Dense.SplitsExactly`: rounding the groups does no harm.
- `Dense.IsWhole.reduceTwice_matches_iff`: when two passes give what one does.
- `Tensor.reduce_matches`: the reference reduces in one pass or in two.
-/

namespace TensorGraph

open ExactLane

/-! ## Whole numbers -/

/-- Whole numbers are added. -/
def addition : Folding Int := ⟨(· + ·), 0, 0⟩

theorem lawful_addition : addition.Lawful := ⟨Int.add_comm, Int.add_assoc, Int.zero_add⟩

theorem addition_total_cons (n : Int) (l : List Int) :
    addition.total (n :: l) = n + addition.total l :=
  lawful_addition.total_cons n l

/-- What holds of all terms and is kept by addition holds of their sum. -/
theorem addition_total_induction {P : Int → Prop} (hzero : P 0)
    (hadd : ∀ m n, P m → P n → P (m + n)) {l : List Int} (h : ∀ n ∈ l, P n) :
    P (addition.total l) := by
  induction l with
  | nil => exact hzero
  | cons n l ih =>
    obtain ⟨hn, hl⟩ := List.forall_mem_cons.mp h
    rw [addition_total_cons]
    exact hadd _ _ hn (ih hl)

theorem addition_total_nonneg {l : List Int} (h : ∀ n ∈ l, 0 ≤ n) : 0 ≤ addition.total l :=
  addition_total_induction (Int.le_refl 0) (fun _ _ => Int.add_nonneg) h

/-- A sum without negative terms is zero if all terms are. -/
theorem addition_total_eq_zero {l : List Int} (h : ∀ n ∈ l, 0 ≤ n) :
    addition.total l = 0 ↔ ∀ n ∈ l, n = 0 := by
  induction l with
  | nil => simp [Folding.total, addition]
  | cons n l ih =>
    obtain ⟨hn, hl⟩ := List.forall_mem_cons.mp h
    have hnonneg := addition_total_nonneg hl
    rw [addition_total_cons, List.forall_mem_cons, ← ih hl]
    omega

/-- A sum of truth values is true if one of them is, and so it is for what groups of them store. -/
theorem nearest_total_map_bool {l : List Int} (h : ∀ n ∈ l, 0 ≤ n) :
    DType.bool.nearest (addition.total (l.map DType.bool.nearest))
      = DType.bool.nearest (addition.total l) := by
  have hnearest (n : Int) : DType.bool.nearest n = if n = 0 then 0 else 1 := rfl
  have hmap : ∀ n ∈ l.map DType.bool.nearest, 0 ≤ n := by
    simp only [List.forall_mem_map, hnearest]
    intro n _
    split <;> decide
  have hzero : addition.total (l.map DType.bool.nearest) = 0 ↔ addition.total l = 0 := by
    rw [addition_total_eq_zero hmap, addition_total_eq_zero h]
    simp [hnearest]
  rw [hnearest, hnearest]
  exact if_congr hzero rfl rfl

section Folds

variable {α : Type} [Lane α] [ExactLane α]

/-- A sum of whole numbers is exact. -/
theorem total_sum (l : List Int) :
    (Folding.ofLane .sum).total (l.map ofInt) = (ofInt (addition.total l) : α) := by
  suffices ∀ acc, (l.map ofInt).foldl (Lane.fold .sum) (ofInt acc : α)
      = ofInt (l.foldl (· + ·) acc) by
    rw [Folding.total, Folding.ofLane, start_sum]
    exact this 0
  induction l with
  | nil => exact fun _ => rfl
  | cons n l ih =>
    intro acc
    rw [List.map_cons, List.foldl_cons, fold_sum, ih]
    rfl

/-- The maximum of whole numbers is one of them, and none of them is larger. -/
theorem exists_total_max {l : List Int} (hl : l ≠ []) :
    ∃ m ∈ l, (∀ n ∈ l, n ≤ m) ∧ (Folding.ofLane .max).total (l.map ofInt) = (ofInt m : α) := by
  obtain ⟨k, l, rfl⟩ := List.exists_cons_of_ne_nil hl
  have hstart : (Folding.ofLane .max).total ((k :: l).map ofInt)
      = (l.map ofInt).foldl (Lane.fold .max) (ofInt k : α) :=
    congrArg (List.foldl _ · (l.map ofInt)) (fold_start_max k)
  rw [hstart]
  clear hl hstart
  induction l generalizing k with
  | nil => exact ⟨k, List.mem_cons_self, by simp, rfl⟩
  | cons n l ih =>
    obtain ⟨m, hm, hle, htotal⟩ := ih (max k n)
    obtain ⟨hmax, hle⟩ := List.forall_mem_cons.mp hle
    have hk : k ≤ m := Int.le_trans (Int.le_max_left ..) hmax
    have hn : n ≤ m := Int.le_trans (Int.le_max_right ..) hmax
    refine ⟨m, ?_, List.forall_mem_cons.mpr ⟨hk, List.forall_mem_cons.mpr ⟨hn, hle⟩⟩, ?_⟩
    · rcases List.mem_cons.mp hm with rfl | hm
      · rcases Int.le_total k n with h | h
        · rw [Int.max_eq_right h]
          simp
        · rw [Int.max_eq_left h]
          simp
      · simp [hm]
    · rw [List.map_cons, List.foldl_cons, fold_max]
      exact htotal

end Folds

/-! ## Groups of positions -/

namespace Kernel

theorem foldCount_self (dims : List Nat) : foldCount dims dims = 1 := by
  induction dims with
  | nil => rfl
  | cons n dims ih => rw [foldCount_cons, if_pos rfl, ih]

theorem foldCount_append {old old' new new' : List Nat} (hlength : old.length = new.length) :
    foldCount (old ++ old') (new ++ new') = foldCount old new * foldCount old' new' := by
  simp only [foldCount, List.zip_append hlength, List.filter_append, List.map_append,
    List.prod_append]

end Kernel

namespace Split

variable {s : Split} {old new : List Nat}

/-- The positions that the first pass gathers. -/
def group (s : Split) (old : List Nat) (q : Nat) : List Nat :=
  Kernel.reads (s.dims old [s.divisor]) (s.dims old [1]) q

/-- The results of the first pass that the second one gathers. -/
def groups (s : Split) (old new : List Nat) (i : Nat) : List Nat := Kernel.reads (s.dims old []) new i

theorem Cuts.lt_of_mem_group (hs : s.Cuts old new) {p q : Nat} (hq : q < (s.dims old []).prod)
    (hp : p ∈ s.group old q) : p < old.prod := by
  rw [← hs.prod_cut]
  exact Kernel.lt_of_mem_reads (s.forall₂_inner old).length_eq (s.prod_unit old ▸ hq) hp

section Fits

variable (hs : s.Cuts old new) (hfold : List.Forall₂ (fun n m => n = m ∨ m = 1) old new) {i : Nat}
  (hi : i < new.prod)
include hs hfold hi

theorem Cuts.lt_of_mem_groups {q : Nat} (hq : q ∈ s.groups old new i) : q < (s.dims old []).prod :=
  Kernel.lt_of_mem_reads (hs.forall₂_outer hfold).length_eq hi hq

/-- The groups make up what one pass gathers. -/
theorem Cuts.groups_perm :
    ((s.groups old new i).flatMap (s.group old)).Perm (Kernel.reads old new i) :=
  (hs.covers_flatMap hfold hi).perm (Kernel.covers_reads hfold hi)

end Fits

/-- No group is empty. -/
theorem Cuts.group_ne_nil (hs : s.Cuts old new) (q : Nat) : s.group old q ≠ [] := by
  have hpos : 0 < s.divisor := by
    rw [hs.divisor]
    exact Nat.gcd_pos_of_pos_left _ (by decide)
  have hcount : 0 < Kernel.foldCount (s.dims old [s.divisor]) (s.dims old [1]) := by
    rw [dims, dims, Kernel.foldCount_append (by simp), Kernel.foldCount_append rfl,
      Kernel.foldCount_self, Kernel.foldCount_self, Kernel.foldCount_cons]
    split <;> simp [Kernel.foldCount, hpos]
  intro hnil
  have hlength := congrArg List.length hnil
  rw [group, Kernel.reads, List.length_map, List.length_range] at hlength
  exact Nat.ne_of_gt hcount hlength

end Split

/-! ## Tensors of whole numbers -/

namespace Dense

variable {α : Type} [Lane α] {x : Dense α} {op : ReduceOp} {s : Split} {new ps : List Nat} {i : Nat}

/-- What a reduction makes of the lanes at the positions `ps`. -/
def foldAt (op : ReduceOp) (x : Dense α) (ps : List Nat) : α :=
  Lane.round x.dtype ((Folding.ofLane op).total (ps.map x.lane))

/-- The results of the first pass, without the unit axis that it leaves. -/
def firstPass (op : ReduceOp) (s : Split) (x : Dense α) : Dense α :=
  ⟨s.dims x.dims [], x.dtype, fun q => x.foldAt op (s.group x.dims q)⟩

/-- A reduction in two passes, each rounded to the element type. -/
def reduceTwice (op : ReduceOp) (new : List Nat) (s : Split) (x : Dense α) : Dense α :=
  reduce op new (x.firstPass op s)

theorem lane_reduceTwice (op : ReduceOp) (new : List Nat) (s : Split) (x : Dense α) (i : Nat) :
    (x.reduceTwice op new s).lane i = (x.firstPass op s).foldAt op (s.groups x.dims new i) :=
  lane_reduce ..

theorem lane_firstPass (op : ReduceOp) (s : Split) (x : Dense α) (q : Nat) :
    (x.firstPass op s).lane q = x.foldAt op (s.group x.dims q) := rfl

/-- A reduction in two passes for a split, and in one without. -/
def reduceFor (op : ReduceOp) (new : List Nat) (x : Dense α) : Option Split → Dense α
  | some s => x.reduceTwice op new s
  | none => x.reduce op new

theorem dtype_reduceFor (op : ReduceOp) (new : List Nat) (x : Dense α) (split : Option Split) :
    (x.reduceFor op new split).dtype = x.dtype := by
  cases split <;> rfl

/-- The tensor holds whole numbers of an integer type. -/
structure IsWhole (x : Dense α) : Prop where
  /-- The type is an integer type. -/
  dtype : x.dtype.IsWhole
  /-- The lanes are rounded to it. -/
  rounded : ∀ i < x.dims.prod, Lane.round x.dtype (x.lane i) = x.lane i

theorem IsWhole.of_matches {y : Dense α} {n : Nat} (hx : x.IsWhole) (h : Matches n y x)
    (hn : x.dims.prod = n) (hn' : y.dims.prod = n) : y.IsWhole where
  dtype := h.dtype ▸ hx.dtype
  rounded i hi := by rw [h.dtype, h.lane i (hn' ▸ hi), hx.rounded i (by omega)]

theorem IsWhole.firstPass [LawfulLane α] (hx : x.IsWhole) (op : ReduceOp) (s : Split) :
    (x.firstPass op s).IsWhole where
  dtype := hx.dtype
  rounded _ _ := LawfulLane.round_round ..

variable [ExactLane α]

/-- The whole number at a position. -/
def whole (x : Dense α) (i : Nat) : Int := toInt (x.lane i)

/-- The exact sums of the groups that a reduction in two passes adds. -/
def groupSums (x : Dense α) (s : Split) (new : List Nat) (i : Nat) : List Int :=
  (s.groups x.dims new i).map fun q => addition.total ((s.group x.dims q).map x.whole)

namespace IsWhole

variable (hx : x.IsWhole)
include hx

theorem lane_eq (hi : i < x.dims.prod) : x.lane i = ofInt (x.whole i) := by
  rw [whole, ← hx.rounded i hi, ofInt_toInt hx.dtype]

theorem nearest_whole (hi : i < x.dims.prod) : x.dtype.nearest (x.whole i) = x.whole i := by
  have hround := hx.rounded i hi
  rw [hx.lane_eq hi, round_ofInt hx.dtype] at hround
  rw [← toInt_ofInt (α := α) (x.dtype.nearest (x.whole i)), hround, toInt_ofInt]

theorem map_lane (hps : ∀ p ∈ ps, p < x.dims.prod) : ps.map x.lane = (ps.map x.whole).map ofInt := by
  rw [List.map_map]
  exact List.map_congr_left fun p hp => hx.lane_eq (hps p hp)

/-- A sum is the number of its type that is nearest to the exact sum. -/
theorem foldAt_sum (hps : ∀ p ∈ ps, p < x.dims.prod) :
    x.foldAt .sum ps = ofInt (x.dtype.nearest (addition.total (ps.map x.whole))) := by
  rw [foldAt, hx.map_lane hps, total_sum, round_ofInt hx.dtype]

/-- A maximum is the lane at one of the positions, and no number is larger. -/
theorem exists_foldAt_max (hne : ps ≠ []) (hps : ∀ p ∈ ps, p < x.dims.prod) :
    ∃ p ∈ ps, (∀ q ∈ ps, x.whole q ≤ x.whole p) ∧ x.foldAt .max ps = x.lane p := by
  have hne' : ps.map x.whole ≠ [] := fun h => hne (List.map_eq_nil_iff.mp h)
  obtain ⟨m, hm, hle, htotal⟩ := exists_total_max (α := α) hne'
  obtain ⟨p, hp, rfl⟩ := List.mem_map.mp hm
  refine ⟨p, hp, fun q hq => hle _ (List.mem_map_of_mem hq), ?_⟩
  rw [foldAt, hx.map_lane hps, htotal, ← hx.lane_eq (hps p hp), hx.rounded p (hps p hp)]

/-! ## Two passes -/

variable (hs : s.Cuts x.dims new)
  (hfold : List.Forall₂ (fun n m => n = m ∨ m = 1) x.dims new) (hi : i < new.prod)
include hs

theorem whole_firstPass {q : Nat} (hq : q < (s.dims x.dims []).prod) :
    (x.firstPass .sum s).whole q
      = x.dtype.nearest (addition.total ((s.group x.dims q).map x.whole)) := by
  rw [whole, lane_firstPass, hx.foldAt_sum fun p hp => hs.lt_of_mem_group hq hp, toInt_ofInt]

/-- The maximum of a group is the lane at one of its positions. -/
theorem exists_firstPass_max {q : Nat} (hq : q < (s.dims x.dims []).prod) :
    ∃ p ∈ s.group x.dims q, (∀ k ∈ s.group x.dims q, x.whole k ≤ x.whole p)
      ∧ (x.firstPass .max s).lane q = x.lane p :=
  hx.exists_foldAt_max (hs.group_ne_nil q) fun _ hp => hs.lt_of_mem_group hq hp

variable [LawfulLane α]
include hfold hi

/-- The maximum of the maxima of all groups is the maximum. -/
theorem lane_reduceTwice_max : (x.reduceTwice .max new s).lane i = (x.reduce .max new).lane i := by
  rw [lane_reduceTwice, lane_reduce]
  change _ = x.foldAt .max (Kernel.reads x.dims new i)
  have hlt {q : Nat} (hq : q ∈ s.groups x.dims new i) := hs.lt_of_mem_groups hfold hi hq
  have hmem {k : Nat} : k ∈ Kernel.reads x.dims new i
      ↔ ∃ q ∈ s.groups x.dims new i, k ∈ s.group x.dims q :=
    (hs.groups_perm hfold hi).mem_iff.symm.trans List.mem_flatMap
  have hreads {k : Nat} (hk : k ∈ Kernel.reads x.dims new i) : k < x.dims.prod := by
    obtain ⟨q, hq, hk⟩ := hmem.mp hk
    exact hs.lt_of_mem_group (hlt hq) hk
  by_cases hne : s.groups x.dims new i = []
  · -- there is nothing to fold, in two passes as in one
    have hnil : Kernel.reads x.dims new i = [] := by
      refine List.eq_nil_iff_forall_not_mem.mpr fun k hk => ?_
      obtain ⟨q, hq, -⟩ := hmem.mp hk
      rw [hne] at hq
      cases hq
    rw [hne, hnil]
    rfl
  obtain ⟨q, hq, hqmax, hlane⟩ := (hx.firstPass .max s).exists_foldAt_max hne fun q => hlt
  obtain ⟨p, hp, -, hqlane⟩ := hx.exists_firstPass_max hs (hlt hq)
  have hpmem : p ∈ Kernel.reads x.dims new i := hmem.mpr ⟨q, hq, hp⟩
  obtain ⟨r, hr, hrmax, hrlane⟩ := hx.exists_foldAt_max (List.ne_nil_of_mem hpmem) fun k => hreads
  -- each of the two is among the positions that the other is the largest of
  have hle : x.whole r ≤ x.whole p := by
    obtain ⟨q', hq', hr'⟩ := hmem.mp hr
    obtain ⟨p', hp', hp'max, hq'lane⟩ := hx.exists_firstPass_max hs (hlt hq')
    calc x.whole r ≤ x.whole p' := hp'max r hr'
      _ = (x.firstPass .max s).whole q' := congrArg toInt hq'lane.symm
      _ ≤ (x.firstPass .max s).whole q := hqmax q' hq'
      _ = x.whole p := congrArg toInt hqlane
  rw [hlane, hqlane, hrlane, hx.lane_eq (hreads hpmem), hx.lane_eq (hreads hr),
    Int.le_antisymm (hrmax p hpmem) hle]

/-- In two passes a sum is the number of its type that is nearest to the sum of what is stored for
each group; in one it is nearest to the exact sum. -/
theorem lane_reduceTwice_sum :
    (x.reduceTwice .sum new s).lane i = (x.reduce .sum new).lane i
      ↔ x.dtype.nearest (addition.total ((x.groupSums s new i).map x.dtype.nearest))
        = x.dtype.nearest (addition.total (x.groupSums s new i)) := by
  have hlt {q : Nat} (hq : q ∈ s.groups x.dims new i) := hs.lt_of_mem_groups hfold hi hq
  have hperm := hs.groups_perm hfold hi
  have hreads : ∀ k ∈ Kernel.reads x.dims new i, k < x.dims.prod := fun _ hk =>
    Kernel.lt_of_mem_reads hfold.length_eq hi hk
  have hstored : (s.groups x.dims new i).map (x.firstPass .sum s).whole
      = (x.groupSums s new i).map x.dtype.nearest := by
    rw [groupSums, List.map_map]
    exact List.map_congr_left fun q hq => hx.whole_firstPass hs (hlt hq)
  have hexact : addition.total ((Kernel.reads x.dims new i).map x.whole)
      = addition.total (x.groupSums s new i) := by
    rw [← lawful_addition.total_perm (hperm.map x.whole), List.map_flatMap,
      lawful_addition.total_flatMap, groupSums]
  rw [lane_reduceTwice, lane_reduce]
  change _ = x.foldAt .sum (Kernel.reads x.dims new i) ↔ _
  rw [(hx.firstPass .sum s).foldAt_sum fun _ => hlt, hx.foldAt_sum hreads, ofInt_inj, hstored, hexact]
  rfl

end IsWhole

/-! ## When two passes give what one does -/

/-- Rounding the sums of the groups to 32 bits does not change the rounded sum at any position. -/
def SplitsExactly (x : Dense α) (s : Split) (new : List Nat) : Prop :=
  ∀ i < new.prod, clampInt (addition.total ((x.groupSums s new i).map clampInt))
    = clampInt (addition.total (x.groupSums s new i))

variable (hs : s.Cuts x.dims new) (hfold : List.Forall₂ (fun n m => n = m ∨ m = 1) x.dims new)
include hs hfold

/-- What holds of all elements and is kept by addition holds of the sums of the groups. -/
theorem groupSums_induction {P : Int → Prop} (hzero : P 0) (hadd : ∀ m n, P m → P n → P (m + n))
    (h : ∀ p < x.dims.prod, P (x.whole p)) (hi : i < new.prod) : ∀ n ∈ x.groupSums s new i, P n := by
  refine List.forall_mem_map.mpr fun q hq => addition_total_induction hzero hadd ?_
  exact List.forall_mem_map.mpr fun p hp =>
    h p (hs.lt_of_mem_group (hs.lt_of_mem_groups hfold hi hq) hp)

variable [LawfulLane α]

/-- Two passes give what one does, unless a sum of 32 bits is rounded too often. -/
theorem IsWhole.reduceTwice_matches_iff (hx : x.IsWhole) :
    Matches new.prod (x.reduceTwice op new s) (x.reduce op new)
      ↔ (op = .sum → x.dtype = .i32 → x.SplitsExactly s new) := by
  constructor
  · rintro hmatches rfl htype i hi
    have hlane := (hx.lane_reduceTwice_sum hs hfold hi).mp (hmatches.lane i hi)
    rw [htype] at hlane
    exact hlane
  · refine fun h => ⟨rfl, fun i hi => ?_⟩
    cases op with
    | max => exact hx.lane_reduceTwice_max hs hfold hi
    | sum =>
      refine (hx.lane_reduceTwice_sum hs hfold hi).mpr ?_
      rcases hx.dtype with htype | htype
      · rw [htype]
        exact h rfl htype i hi
      · rw [htype]
        refine nearest_total_map_bool (groupSums_induction hs hfold (Int.le_refl 0)
          (fun _ _ => Int.add_nonneg) (fun p hp => ?_) hi)
        rw [← hx.nearest_whole hp, htype]
        change 0 ≤ if _ then (0 : Int) else 1
        split <;> decide

omit hs in
/-- Whatever split a policy chooses, the reduction gives what it gives in one pass, unless a sum of 32
bits is rounded too often. -/
theorem IsWhole.reduceFor_matches_iff (hx : x.IsWhole) {split : Option Split}
    (hcuts : ∀ s, split = some s → s.Cuts x.dims new) :
    Matches new.prod (x.reduceFor op new split) (x.reduce op new)
      ↔ (op = .sum → x.dtype = .i32 → ∀ s, split = some s → x.SplitsExactly s new) := by
  cases split with
  | none => exact ⟨fun _ _ _ _ => nofun, fun _ => .refl _ _⟩
  | some s =>
    simp only [Option.some.injEq, forall_eq']
    exact hx.reduceTwice_matches_iff (hcuts s rfl) hfold

end Dense

end TensorGraph
