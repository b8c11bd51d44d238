import TensorGraph.Proofs.View.Place
import TensorGraph.View.Reshape
/-!
# Places under a reshape

A reshaped view reads every row-major position where the view reads it. Unit axes have no part in
a place, and a run of old axes that walks the store with one stride has the places of the run of
new axes beside it.

- `dot_insertUnits`: coordinates and strides of unit axes may come and go.
- `AxisRun.dot_eq`: old and new axes of a balanced run reach the same places.
- `mergeStrides_dot`: so do all axes together.
-/

namespace TensorGraph

/-! ## Unit axes -/

section Units

variable {β : Type}

@[simp] theorem dropUnits_nil (l : List β) : dropUnits [] l = [] := rfl

@[simp] theorem dropUnits_one (dims : List Nat) (x : β) (l : List β) :
    dropUnits (1 :: dims) (x :: l) = dropUnits dims l := by
  simp [dropUnits]

theorem dropUnits_of_ne {n : Nat} (h : n ≠ 1) (dims : List Nat) (x : β) (l : List β) :
    dropUnits (n :: dims) (x :: l) = x :: dropUnits dims l := by
  simp [dropUnits, h]

@[simp] theorem insertUnits_nil (unit : β) (l : List β) : insertUnits unit [] l = [] := rfl

@[simp] theorem insertUnits_one (unit : β) (dims : List Nat) (l : List β) :
    insertUnits unit (1 :: dims) l = unit :: insertUnits unit dims l := by
  simp [insertUnits]

theorem insertUnits_of_ne {n : Nat} (h : n ≠ 1) (unit : β) (dims : List Nat) (x : β) (l : List β) :
    insertUnits unit (n :: dims) (x :: l) = x :: insertUnits unit dims l := by
  simp [insertUnits, h]

theorem length_insertUnits (unit : β) (dims : List Nat) (l : List β) :
    (insertUnits unit dims l).length = dims.length := by
  induction dims generalizing l with
  | nil => rfl
  | cons n dims ih =>
    by_cases hn : n = 1
    · subst hn
      rw [insertUnits_one, List.length_cons, List.length_cons, ih l]
    · cases l with
      | nil => simp only [insertUnits, hn, if_false, List.length_cons, ih]
      | cons x l => rw [insertUnits_of_ne hn, List.length_cons, List.length_cons, ih l]

theorem length_dropUnits {dims : List Nat} {l : List β} (h : l.length = dims.length) :
    (dropUnits dims l).length = (dropUnits dims dims).length := by
  induction dims generalizing l with
  | nil => rfl
  | cons n dims ih =>
    cases l with
    | nil => simp at h
    | cons x l =>
      have hl : l.length = dims.length := by simpa using h
      by_cases hn : n = 1
      · rw [hn, dropUnits_one, dropUnits_one, ih hl]
      · rw [dropUnits_of_ne hn, dropUnits_of_ne hn, List.length_cons, List.length_cons, ih hl]

theorem prod_dropUnits (dims : List Nat) : (dropUnits dims dims).prod = dims.prod := by
  induction dims with
  | nil => rfl
  | cons n dims ih =>
    by_cases hn : n = 1
    · rw [hn, dropUnits_one, List.prod_cons, Nat.one_mul, ih]
    · rw [dropUnits_of_ne hn, List.prod_cons, List.prod_cons, ih]

/-- No axis is left with one coordinate. -/
theorem ne_one_of_mem_dropUnits {dims : List Nat} {n : Nat} (h : n ∈ dropUnits dims dims) :
    n ≠ 1 := by
  induction dims with
  | nil => simp at h
  | cons m dims ih =>
    by_cases hm : m = 1
    · rw [hm, dropUnits_one] at h
      exact ih h
    · rw [dropUnits_of_ne hm, List.mem_cons] at h
      rcases h with rfl | h
      · exact hm
      · exact ih h

theorem mem_of_mem_dropUnits {dims : List Nat} {l : List β} {x : β} (h : x ∈ dropUnits dims l) :
    x ∈ l := by
  obtain ⟨⟨n, y⟩, hy, rfl⟩ := List.mem_map.mp h
  exact (List.of_mem_zip (List.mem_filter.mp hy).1).2

theorem forall₂_dropUnits {R : Nat → β → Prop} {dims : List Nat} {l : List β}
    (h : List.Forall₂ R dims l) : List.Forall₂ R (dropUnits dims dims) (dropUnits dims l) := by
  induction h with
  | nil => exact .nil
  | @cons n x dims l hx _ ih =>
    by_cases hn : n = 1
    · subst hn
      rwa [dropUnits_one, dropUnits_one]
    · rw [dropUnits_of_ne hn, dropUnits_of_ne hn]
      exact .cons hx ih

theorem forall₂_insertUnits {R : Nat → β → Prop} {unit : β} (hunit : R 1 unit) {dims : List Nat}
    {l : List β} (h : List.Forall₂ R (dropUnits dims dims) l) :
    List.Forall₂ R dims (insertUnits unit dims l) := by
  induction dims generalizing l with
  | nil => exact .nil
  | cons n dims ih =>
    by_cases hn : n = 1
    · subst hn
      rw [dropUnits_one] at h
      rw [insertUnits_one]
      exact .cons hunit (ih h)
    · rw [dropUnits_of_ne hn] at h
      cases h with
      | cons hx h =>
        rw [insertUnits_of_ne hn]
        exact .cons hx (ih h)

end Units

/-- A position has coordinate zero along unit axes, and the other axes count it alone. -/
theorem unravel_eq_insertUnits {dims : List Nat} (h : 0 < dims.prod) (flat : Nat) :
    unravel dims flat = insertUnits 0 dims (unravel (dropUnits dims dims) flat) := by
  induction dims with
  | nil => rfl
  | cons n dims ih =>
    obtain ⟨hn, hdims⟩ := prod_cons_pos h
    by_cases h1 : n = 1
    · subst h1
      rw [unravel_cons h, dropUnits_one, insertUnits_one, Nat.mod_one, ih hdims]
    · have hpos : 0 < (n :: dropUnits dims dims).prod := by
        rwa [List.prod_cons, prod_dropUnits, ← List.prod_cons]
      rw [unravel_cons h, dropUnits_of_ne h1, unravel_cons hpos, prod_dropUnits,
        insertUnits_of_ne h1, ih hdims]

/-- Coordinates of unit axes do not add to a distance, whatever the strides of those axes. -/
theorem dot_insertUnits {dims p : List Nat} {strides : List Int64}
    (hp : p.length = (dropUnits dims dims).length) (hs : strides.length = dims.length) :
    dot (insertUnits 0 dims p) strides = dot p (dropUnits dims strides) := by
  induction dims generalizing p strides with
  | nil => simp
  | cons n dims ih =>
    cases strides with
    | nil => simp at hs
    | cons s strides =>
      have hs' : strides.length = dims.length := by simpa using hs
      by_cases hn : n = 1
      · subst hn
        rw [dropUnits_one] at hp
        rw [insertUnits_one, dropUnits_one, dot_cons, ih hp hs']
        simp
      · rw [dropUnits_of_ne hn] at hp
        cases p with
        | nil => simp at hp
        | cons i p =>
          rw [insertUnits_of_ne hn, dropUnits_of_ne hn, dot_cons, dot_cons,
            ih (by simpa using hp) hs']

theorem dropUnits_insertUnits {β : Type} {unit : β} {dims : List Nat} {l : List β}
    (h : l.length = (dropUnits dims dims).length) :
    dropUnits dims (insertUnits unit dims l) = l := by
  induction dims generalizing l with
  | nil => exact (List.length_eq_zero_iff.mp h).symm
  | cons n dims ih =>
    by_cases hn : n = 1
    · subst hn
      rw [dropUnits_one] at h
      rw [insertUnits_one, dropUnits_one, ih h]
    · rw [dropUnits_of_ne hn] at h
      cases l with
      | nil => simp at h
      | cons x l => rw [insertUnits_of_ne hn, dropUnits_of_ne hn, ih (by simpa using h)]

/-- A mask whose spans show the coordinate of every unit axis shows a position if the spans of the
other axes do. -/
theorem maskShows_insertUnits {dims p : List Nat} {spans : List Span}
    (hp : p.length = (dropUnits dims dims).length) (hs : spans.length = dims.length)
    (hunit : List.Forall₂ (fun n (r : Span) => n = 1 → r = ⟨0, 1⟩) dims spans) :
    maskShows (some spans) (insertUnits 0 dims p) = maskShows (some (dropUnits dims spans)) p := by
  induction hunit generalizing p with
  | nil => simp [maskShows]
  | @cons n r dims spans hr _ ih =>
    have hs' : spans.length = dims.length := by simpa using hs
    by_cases hn : n = 1
    · obtain rfl := hr hn
      subst hn
      rw [dropUnits_one] at hp
      rw [insertUnits_one, dropUnits_one, ← ih hp hs']
      simp [maskShows]
    · rw [dropUnits_of_ne hn] at hp
      cases p with
      | nil => simp at hp
      | cons i p =>
        have := ih (p := p) (by simpa using hp) hs'
        rw [insertUnits_of_ne hn, dropUnits_of_ne hn]
        simp only [maskShows, List.zip_cons_cons, List.all_cons] at this ⊢
        rw [this]

theorem insertUnits_unit {β : Type} (unit : β) (dims : List Nat) (l : List β) :
    List.Forall₂ (fun n r => n = 1 → r = unit) dims (insertUnits unit dims l) := by
  induction dims generalizing l with
  | nil => exact .nil
  | cons n dims ih =>
    by_cases hn : n = 1
    · subst hn
      rw [insertUnits_one]
      exact .cons (fun _ => rfl) (ih l)
    · cases l with
      | nil => simp only [insertUnits, hn, if_false]; exact .cons (fun h => absurd h hn) (ih [])
      | cons x l => rw [insertUnits_of_ne hn]; exact .cons (fun h => absurd h hn) (ih l)

/-! ## Runs of axes -/

/-- The number of positions of the old axes. -/
def AxisRun.old (r : AxisRun) : List Nat := r.axes.map Axis.extent

/-- Growing a run splits both lists and balances the products. -/
theorem growRun_eq_some {old new : Nat} {axes axes' : List Axis} {extents extents' : List Nat}
    {r : AxisRun} (h : growRun old new axes extents = some (r, axes', extents')) :
    axes = r.axes ++ axes' ∧ extents = r.extents ++ extents'
      ∧ old * r.old.prod = new * r.extents.prod := by
  fun_induction growRun old new axes extents generalizing r with
  | case1 axes extents old =>
    simp only [Option.some.injEq, Prod.mk.injEq] at h
    obtain ⟨rfl, rfl, rfl⟩ := h
    exact ⟨rfl, rfl, rfl⟩
  | case2 => simp at h
  | case3 old new axes hne hlt n extents ih =>
    obtain ⟨⟨r', rest⟩, hgrow, heq⟩ := Option.map_eq_some_iff.mp h
    obtain ⟨rfl, rfl⟩ := Prod.mk.injEq .. ▸ heq
    obtain ⟨haxes, hextents, hprod⟩ := ih hgrow
    refine ⟨haxes, congrArg (n :: ·) hextents, ?_⟩
    rw [List.prod_cons, ← Nat.mul_assoc]
    exact hprod
  | case4 => simp at h
  | case5 old new extents hne hge a axes ih =>
    obtain ⟨⟨r', rest⟩, hgrow, heq⟩ := Option.map_eq_some_iff.mp h
    obtain ⟨rfl, rfl⟩ := Prod.mk.injEq .. ▸ heq
    obtain ⟨haxes, hextents, hprod⟩ := ih hgrow
    refine ⟨congrArg (a :: ·) haxes, hextents, ?_⟩
    rw [AxisRun.old, List.map_cons, List.prod_cons, ← Nat.mul_assoc]
    exact hprod

/-- A run with old axes whose old and new axes have the same number of positions. -/
def AxisRun.Balanced (r : AxisRun) : Prop := r.axes ≠ [] ∧ r.old.prod = r.extents.prod

/-- The runs split both lists up to a rest, and are balanced; one of the rests is empty. -/
theorem alignRunsUpTo_eq_some {steps : Nat} {axes : List Axis} {extents : List Nat}
    {runs : List AxisRun} (h : alignRunsUpTo steps axes extents = some runs)
    (hsteps : axes.length ≤ steps) :
    (∀ r ∈ runs, r.Balanced) ∧ ∃ axes' extents', (axes' = [] ∨ extents' = [])
      ∧ axes = runs.flatMap AxisRun.axes ++ axes'
      ∧ extents = runs.flatMap AxisRun.extents ++ extents' := by
  induction steps generalizing axes extents runs with
  | zero =>
    obtain rfl : axes = [] := List.length_eq_zero_iff.mp (by omega)
    obtain rfl : [] = runs := by simpa [alignRunsUpTo] using h
    exact ⟨by simp, [], extents, .inl rfl, rfl, rfl⟩
  | succ steps ih =>
    match axes, extents with
    | [], extents =>
      obtain rfl : [] = runs := by simpa [alignRunsUpTo] using h
      exact ⟨by simp, [], extents, .inl rfl, rfl, rfl⟩
    | a :: axes, [] =>
      obtain rfl : [] = runs := by simpa [alignRunsUpTo] using h
      exact ⟨by simp, a :: axes, [], .inr rfl, rfl, rfl⟩
    | a :: axes, n :: extents =>
      simp only [alignRunsUpTo, Option.bind_eq_bind, Option.bind_eq_some_iff, Option.pure_def,
        Option.some_inj] at h
      obtain ⟨⟨r, axes₁, extents₁⟩, hgrow, runs', halign, rfl⟩ := h
      obtain ⟨haxes, hextents, hprod⟩ := growRun_eq_some hgrow
      dsimp only at halign
      have hlen : axes₁.length ≤ steps := by
        have := congrArg List.length haxes
        simp only [List.length_append] at this
        simp only [List.length_cons] at hsteps
        omega
      obtain ⟨hbalanced, axes', extents', hrest, haxes', hextents'⟩ := ih halign hlen
      refine ⟨?_, axes', extents', hrest, ?_, ?_⟩
      · intro q hq
        rcases List.mem_cons.mp hq with rfl | hq
        · refine ⟨List.cons_ne_nil _ _, ?_⟩
          simpa [AxisRun.old] using hprod
        · exact hbalanced q hq
      · simp only [haxes, haxes', List.flatMap_cons, List.cons_append, List.append_assoc]
      · simp only [hextents, hextents', List.flatMap_cons, List.cons_append, List.append_assoc]

/-! ## Strides of a run -/

/-- The stride of the innermost old axis. -/
def lastStride (axes : List Axis) : Int64 := (axes.getLast?.map Axis.stride).getD 0

theorem lastStride_cons_cons (a b : Axis) (axes : List Axis) :
    lastStride (a :: b :: axes) = lastStride (b :: axes) := by
  simp [lastStride, List.getLast?_cons_cons]

/-- An axis of a mergeable run steps over all positions of the axes inside it. -/
theorem stride_of_mergeable {a : Axis} {axes : List Axis} (h : mergeable (a :: axes) = true) :
    a.stride = .ofNat (axes.map Axis.extent).prod * lastStride (a :: axes) := by
  induction axes generalizing a with
  | nil => simp [lastStride]
  | cons b axes ih =>
    rw [mergeable, Bool.and_eq_true, decide_eq_true_eq] at h
    obtain ⟨ha, hb⟩ := h
    rw [ha, ih hb, lastStride_cons_cons, List.map_cons, List.prod_cons, Int64.ofNat_mul]
    grind

/-- A mergeable run walks the store with the stride of its innermost axis. -/
theorem dot_of_mergeable {axes : List Axis} (h : mergeable axes = true)
    (hpos : 0 < (axes.map Axis.extent).prod) (flat : Nat) :
    dot (unravel (axes.map Axis.extent) flat) (axes.map Axis.stride)
      = .ofNat (flat % (axes.map Axis.extent).prod) * lastStride axes := by
  induction axes with
  | nil => simp [Nat.mod_one]
  | cons a axes ih =>
    have hstride := stride_of_mergeable h
    rw [List.map_cons] at hpos
    obtain ⟨-, hpos'⟩ := prod_cons_pos hpos
    rw [List.map_cons, List.map_cons, unravel_cons hpos, dot_cons]
    cases axes with
    | nil => simp [lastStride]
    | cons b axes =>
      rw [mergeable, Bool.and_eq_true] at h
      rw [ih h.2 hpos', hstride, lastStride_cons_cons, List.prod_cons, Nat.mul_comm a.extent,
        Nat.mod_mul, Int64.ofNat_add, Int64.ofNat_mul]
      grind

theorem splitStridesAround_cons (stride : Int64) (n : Nat) (extents : List Nat) :
    splitStridesAround stride (n :: extents)
      = ((splitStridesAround stride extents).2 :: (splitStridesAround stride extents).1,
        (splitStridesAround stride extents).2 * .ofNat n) :=
  rfl

theorem splitStridesAround_snd (stride : Int64) (extents : List Nat) :
    (splitStridesAround stride extents).2 = .ofNat extents.prod * stride := by
  induction extents with
  | nil => simp [splitStridesAround]
  | cons n extents ih =>
    rw [splitStridesAround_cons, ih, List.prod_cons, Int64.ofNat_mul]
    grind

theorem length_splitStridesAround (stride : Int64) (extents : List Nat) :
    (splitStridesAround stride extents).1.length = extents.length := by
  induction extents with
  | nil => rfl
  | cons n extents ih => exact congrArg (· + 1) ih

/-- The strides of dense axes walk the store with their innermost stride. -/
theorem dot_splitStridesAround (stride : Int64) {extents : List Nat} (hpos : 0 < extents.prod)
    (flat : Nat) :
    dot (unravel extents flat) (splitStridesAround stride extents).1
      = .ofNat (flat % extents.prod) * stride := by
  induction extents with
  | nil => simp [Nat.mod_one]
  | cons n extents ih =>
    obtain ⟨-, hpos'⟩ := prod_cons_pos hpos
    rw [unravel_cons hpos, splitStridesAround_cons, dot_cons, ih hpos', splitStridesAround_snd,
      List.prod_cons, Nat.mul_comm n, Nat.mod_mul, Int64.ofNat_add, Int64.ofNat_mul]
    grind

/-- Old and new axes of a balanced run that walks the store with one stride reach the same
places. -/
theorem AxisRun.dot_eq {r : AxisRun} (hr : r.Balanced) (hmerge : mergeable r.axes = true)
    (hpos : 0 < r.extents.prod) (flat : Nat) :
    dot (unravel r.extents flat) r.strides = dot (unravel r.old flat) (r.axes.map Axis.stride) := by
  rw [AxisRun.strides, dot_splitStridesAround _ hpos, AxisRun.old,
    dot_of_mergeable hmerge (hr.2 ▸ hpos)]
  exact congrArg (fun n => Int64.ofNat (flat % n) * lastStride r.axes) hr.2.symm

/-! ## All axes -/

theorem AxisRun.length_strides (r : AxisRun) : r.strides.length = r.extents.length :=
  length_splitStridesAround _ _

theorem prod_flatMap_extents (runs : List AxisRun) (h : ∀ r ∈ runs, r.Balanced) :
    ((runs.flatMap AxisRun.axes).map Axis.extent).prod
      = (runs.flatMap AxisRun.extents).prod := by
  induction runs with
  | nil => rfl
  | cons r runs ih =>
    rw [List.flatMap_cons, List.flatMap_cons, List.map_append, List.prod_append, List.prod_append,
      ih fun q hq => h q (List.mem_cons_of_mem _ hq), ← (h r List.mem_cons_self).2]
    rfl

theorem dot_flatMap_strides {runs : List AxisRun} (h : ∀ r ∈ runs, r.Balanced)
    (hmerge : ∀ r ∈ runs, mergeable r.axes = true)
    (hpos : 0 < (runs.flatMap AxisRun.extents).prod) (flat : Nat) :
    dot (unravel (runs.flatMap AxisRun.extents) flat) (runs.flatMap AxisRun.strides)
      = dot (unravel ((runs.flatMap AxisRun.axes).map Axis.extent) flat)
        ((runs.flatMap AxisRun.axes).map Axis.stride) := by
  induction runs generalizing flat with
  | nil => rfl
  | cons r runs ih =>
    have hr := h r List.mem_cons_self
    have h' : ∀ q ∈ runs, q.Balanced := fun q hq => h q (List.mem_cons_of_mem _ hq)
    have hprod := prod_flatMap_extents runs h'
    rw [List.flatMap_cons, List.prod_append] at hpos
    have hpos₁ : 0 < r.extents.prod := Nat.pos_of_mul_pos_right hpos
    have hpos₂ : 0 < (runs.flatMap AxisRun.extents).prod := Nat.pos_of_mul_pos_left hpos
    simp only [List.flatMap_cons, List.map_append]
    rw [unravel_append hpos₁ hpos₂, unravel_append
        (show 0 < (r.axes.map Axis.extent).prod from hr.2 ▸ hpos₁) (hprod ▸ hpos₂),
      dot_append (by rw [length_unravel, r.length_strides]),
      dot_append (by simp [length_unravel]),
      ih h' (fun q hq => hmerge q (List.mem_cons_of_mem _ hq)) hpos₂, hprod,
      r.dot_eq hr (hmerge r List.mem_cons_self) hpos₁]
    rfl

theorem eq_nil_of_prod_eq_one {l : List Nat} (h : l.prod = 1) (hl : ∀ n ∈ l, n ≠ 1) : l = [] := by
  cases l with
  | nil => rfl
  | cons n l =>
    rw [List.prod_cons] at h
    exact absurd (Nat.eq_one_of_mul_eq_one_right h) (hl n List.mem_cons_self)

/-- Axes and extents with equally many positions, none of them units, are cut into runs without a
rest. -/
theorem alignRuns_eq_some {axes : List Axis} {extents : List Nat} {runs : List AxisRun}
    (h : alignRuns axes extents = some runs) (hprod : (axes.map Axis.extent).prod = extents.prod)
    (hpos : 0 < extents.prod) (haxes : ∀ n ∈ axes.map Axis.extent, n ≠ 1)
    (hextents : ∀ n ∈ extents, n ≠ 1) :
    (∀ r ∈ runs, r.Balanced) ∧ axes = runs.flatMap AxisRun.axes
      ∧ extents = runs.flatMap AxisRun.extents := by
  obtain ⟨hbalanced, axes', extents', hrest, rfl, rfl⟩ := alignRunsUpTo_eq_some h (Nat.le_refl _)
  have hruns := prod_flatMap_extents runs hbalanced
  -- the runs take equally many positions from both sides, so that the rests are balanced too
  have hrests : (axes'.map Axis.extent).prod = extents'.prod := by
    rw [List.map_append, List.prod_append, List.prod_append, hruns] at hprod
    rw [List.prod_append] at hpos
    exact Nat.eq_of_mul_eq_mul_left (Nat.pos_of_mul_pos_right hpos) hprod
  have hnil : axes' = [] ∧ extents' = [] := by
    rcases hrest with rfl | rfl
    · exact ⟨rfl, eq_nil_of_prod_eq_one hrests.symm fun n hn => hextents n (by simp [hn])⟩
    · refine ⟨?_, rfl⟩
      have := eq_nil_of_prod_eq_one hrests fun n hn => haxes n (by
        rw [List.map_append]; exact List.mem_append_right _ hn)
      simpa using this
  rw [hnil.1, hnil.2, List.append_nil, List.append_nil]
  exact ⟨hbalanced, rfl, rfl⟩

/-- Merged strides reach the places that the old strides reach. -/
theorem mergeStrides_dot {axes : List Axis} {extents : List Nat} {strides : List Int64}
    (h : mergeStrides axes extents = some strides)
    (hprod : (axes.map Axis.extent).prod = extents.prod) (hpos : 0 < extents.prod)
    (haxes : ∀ n ∈ axes.map Axis.extent, n ≠ 1) (hextents : ∀ n ∈ extents, n ≠ 1) (flat : Nat) :
    strides.length = extents.length ∧ dot (unravel extents flat) strides
      = dot (unravel (axes.map Axis.extent) flat) (axes.map Axis.stride) := by
  simp only [mergeStrides, Option.bind_eq_bind, Option.bind_eq_some_iff] at h
  obtain ⟨runs, halign, h⟩ := h
  obtain ⟨hmerge, hstrides⟩ := Option.ite_none_right_eq_some.mp h
  obtain rfl : runs.flatMap AxisRun.strides = strides := by simpa using hstrides
  obtain ⟨hbalanced, rfl, rfl⟩ := alignRuns_eq_some halign hprod hpos haxes hextents
  refine ⟨?_, dot_flatMap_strides hbalanced (by simpa using hmerge) hpos flat⟩
  simp only [List.length_flatMap, AxisRun.length_strides]

end TensorGraph
