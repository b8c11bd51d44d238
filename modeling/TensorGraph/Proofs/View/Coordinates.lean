import Mathlib.Data.List.Perm.Subperm
import TensorGraph.Proofs.View.Proper
/-!
# What movements do to coordinates

A movement other than padding shows at each position one element of the tensor that it is applied
to. The coordinates of that element follow from those of the position, without a look at strides
and offsets, and the views that movements make find it there.

- `Movement.source`, `Movement.sourceAt`: the element that a position shows, by coordinates and by
  row-major rank.
- `View.Rearranged`: a view that shows what another shows at the sources of its positions.
- `View.Proper.rearranged_permute`, `View.Proper.rearranged_expand`,
  `View.Proper.rearranged_shrink`, `View.Proper.rearranged_stride`: the movements do.
-/

namespace TensorGraph

/-- Whether a movement only rearranges elements that are there: all movements do, except that
padding adds some. -/
def Movement.Rearranges (m : Movement) : Prop := ∀ margins, m ≠ .pad margins

/-- Whether a movement rearranges elements, and names known extents only. -/
def Movement.Plain : Movement → Prop
  | .reshape shape | .expand shape => shape.isStatic = true
  | .permute _ | .shrink _ | .stride _ => True
  | .pad _ => False

theorem Movement.Plain.rearranges {m : Movement} (h : m.Plain) : m.Rearranges := by
  rintro margins rfl
  exact h

/-- The coordinate that a walk by `factor` along an axis of extent `n` reaches in `i` steps. -/
def strideCoordinate (n : Nat) (factor : Int) (i : Nat) : Nat :=
  if factor < 0 then n - 1 - i * factor.natAbs else i * factor.natAbs

/-- The coordinates of the element of a tensor with extents `old` that the movement shows at the
coordinates `p`. Padding has no source for the elements that it adds; elsewhere it shifts. -/
def Movement.source (old : List Nat) : Movement → List Nat → List Nat
  | .reshape shape, p => unravel old (ravel (shape.static?.getD []) p)
  | .permute axes, p => (List.range old.length).map fun a => p.getD (axes.idxOf a) 0
  | .expand _, p => List.zipWith (fun n i => if n = 1 then 0 else i) old p
  | .shrink windows, p => List.zipWith (fun r i => r.start + i) windows p
  | .stride factors, p =>
    List.zipWith (fun (n, m) i => strideCoordinate n m i) (old.zip factors) p
  | .pad margins, p => List.zipWith (fun m i => i - m.before) margins p

/-- The row-major position of the element of a tensor with extents `old` that the movement shows at
the row-major position `flat` of a result with extents `new`. -/
def Movement.sourceAt (m : Movement) (old new : List Nat) (flat : Nat) : Nat :=
  ravel old (m.source old (unravel new flat))

/-- A reshape keeps the rank of every position. -/
theorem Movement.sourceAt_reshape {target : Shape} {old new : List Nat}
    (hnew : target.static? = some new) (hprod : old.prod = new.prod) {flat : Nat}
    (hflat : flat < new.prod) : (Movement.reshape target).sourceAt old new flat = flat := by
  rw [sourceAt, source, hnew, Option.getD_some, ravel_unravel hflat, ravel_unravel (hprod ▸ hflat)]

/-- The view `w` has no mask, and shows at each position what `v` shows at its source. -/
structure View.Rearranged (m : Movement) (old : List Nat) (v w : View) : Prop where
  /-- Every position is visible. -/
  unmasked : w.mask = none
  /-- The source of a position lies inside the tensor, and has its place. -/
  index : ∃ new, w.shape.static? = some new ∧ ∀ p, Inside new p →
    Inside old (m.source old p) ∧ w.index p = v.index (m.source old p)

theorem View.mask_create (shape : Shape) (strides : List Int64) (offset : Int64) :
    (View.create shape strides offset none).mask = none := rfl

/-- A view without a mask shows every position at its place. -/
theorem View.index_unmasked {v : View} (h : v.mask = none) (p : List Nat) :
    v.index p = some (v.offset + dot p v.strides) := by
  rw [View.index_eq, h]
  rfl

/-- A view without a mask that is made from an affine map shows what `v` shows at the sources, if
the affine map says so. -/
theorem View.rearranged_create {m : Movement} {old new : List Nat} {v : View} {shape : Shape}
    {strides : List Int64} {offset : Int64} (hmask : v.mask = none)
    (hnew : shape.static? = some new)
    (h : ∀ p, Inside new p → Inside old (m.source old p)
      ∧ offset + dot p strides = v.offset + dot (m.source old p) v.strides) :
    View.Rearranged m old v (View.create shape strides offset none) := by
  refine ⟨mask_create .., new, by rw [create_shape, hnew], fun p hp => ?_⟩
  obtain ⟨hinside, hplace⟩ := h p hp
  refine ⟨hinside, ?_⟩
  rw [index_create hnew hp _ _ (by simp), index_unmasked hmask, ← hplace]
  simp [maskShows]

/-! ## Sums over axes -/

/-- The sum of a function over axes. -/
def axisSum (f : Nat → Int64) (axes : List Nat) : Int64 := axes.foldr (fun a acc => f a + acc) 0

theorem axisSum_perm (f : Nat → Int64) {axes axes' : List Nat} (h : axes.Perm axes') :
    axisSum f axes = axisSum f axes' := by
  induction h with
  | nil => rfl
  | cons a _ ih => exact congrArg (f a + ·) ih
  | swap a b axes =>
    change f b + (f a + axisSum f axes) = f a + (f b + axisSum f axes)
    grind
  | trans _ _ ih ih' => exact ih.trans ih'

theorem axisSum_congr {f g : Nat → Int64} {axes : List Nat} (h : ∀ a ∈ axes, f a = g a) :
    axisSum f axes = axisSum g axes := by
  induction axes with
  | nil => rfl
  | cons a axes ih =>
    change f a + axisSum f axes = g a + axisSum g axes
    rw [h a List.mem_cons_self, ih fun b hb => h b (List.mem_cons_of_mem _ hb)]

/-- A distance in the store is a sum over the axes. -/
theorem dot_map_range (f : Nat → Nat) (strides : List Int64) :
    dot ((List.range strides.length).map f) strides
      = axisSum (fun a => .ofNat (f a) * strides.getD a 0) (List.range strides.length) := by
  suffices ∀ k, dot ((List.range' k strides.length).map f) strides
      = axisSum (fun a => .ofNat (f a) * strides.getD (a - k) 0)
        (List.range' k strides.length) by
    simpa [List.range_eq_range'] using this 0
  induction strides with
  | nil => intro k; rfl
  | cons s strides ih =>
    intro k
    rw [List.length_cons, List.range'_succ, List.map_cons, dot_cons, ih]
    change _ = .ofNat (f k) * (s :: strides).getD (k - k) 0 + axisSum _ _
    rw [Nat.sub_self, List.getD_cons_zero]
    congr 1
    refine axisSum_congr fun a ha => ?_
    have hle : k + 1 ≤ a := (List.mem_range'_1.mp ha).1
    rw [show a - k = a - (k + 1) + 1 by omega, List.getD_cons_succ]

/-- A distance along axes in another order is a sum over those axes. -/
theorem dot_pick {axes p : List Nat} {strides : List Int64} (hnodup : axes.Nodup)
    (hlt : ∀ a ∈ axes, a < strides.length) (hlen : p.length = axes.length) :
    dot p (View.pick strides axes)
      = axisSum (fun a => .ofNat (p.getD (axes.idxOf a) 0) * strides.getD a 0) axes := by
  induction axes generalizing p with
  | nil => simp [View.pick, axisSum]
  | cons a axes ih =>
    obtain ⟨ha, hnodup⟩ := List.nodup_cons.mp hnodup
    cases p with
    | nil => simp at hlen
    | cons i p =>
      have hget := hlt a List.mem_cons_self
      rw [View.pick, List.filterMap_cons, List.getElem?_eq_getElem hget]
      change .ofNat i * strides[a] + dot p (View.pick strides axes)
        = .ofNat ((i :: p).getD ((a :: axes).idxOf a) 0) * strides.getD a 0 + axisSum _ axes
      have hstride : strides.getD a 0 = strides[a] := by
        simp [List.getD_eq_getElem?_getD, hget]
      rw [List.idxOf_cons_self, List.getD_cons_zero, hstride,
        ih hnodup (fun b hb => hlt b (List.mem_cons_of_mem _ hb)) (by simpa using hlen)]
      congr 1
      refine axisSum_congr fun b hb => ?_
      -- another axis is found one place later
      have hne : a ≠ b := fun h => ha (h ▸ hb)
      rw [List.idxOf_cons_ne _ hne, List.getD_cons_succ]

/-- Distances along the same strides add up coordinate by coordinate. -/
theorem dot_zipWith_add {β : Type} (f : β → Nat) {l : List β} {p : List Nat}
    (h : l.length = p.length) (strides : List Int64) :
    dot (List.zipWith (fun r i => f r + i) l p) strides = dot (l.map f) strides + dot p strides := by
  induction strides generalizing l p with
  | nil => simp
  | cons s strides ih =>
    cases l with
    | nil =>
      obtain rfl := List.length_eq_zero_iff.mp h.symm
      simp
    | cons r l =>
      cases p with
      | nil => simp at h
      | cons i p =>
        simp only [List.zipWith_cons_cons, List.map_cons, dot_cons, Int64.ofNat_add,
          ih (show l.length = p.length by simpa using h)]
        grind

namespace View

variable {v w : View} {old : List Nat}

/-! ## Permuting axes -/

theorem pick_map {β γ : Type} (f : β → γ) (l : List β) (axes : List Nat) :
    pick (l.map f) axes = (pick l axes).map f := by
  induction axes with
  | nil => rfl
  | cons a axes ih =>
    rw [pick, pick, List.filterMap_cons, List.filterMap_cons, List.getElem?_map]
    cases l[a]? with
    | none => exact ih
    | some x => exact congrArg (f x :: ·) ih

/-- An axis is found where it is named. -/
theorem getElem_pick {β : Type} {l : List β} {axes : List Nat} (h : ∀ a ∈ axes, a < l.length)
    {a : Nat} (ha : a ∈ axes) : (pick l axes)[axes.idxOf a]? = l[a]? := by
  induction axes with
  | nil => cases ha
  | cons b axes ih =>
    have hb := h b List.mem_cons_self
    rw [pick, List.filterMap_cons, List.getElem?_eq_getElem hb]
    by_cases hab : b = a
    · subst hab
      rw [List.idxOf_cons_self, List.getElem?_cons_zero, List.getElem?_eq_getElem hb]
    · rw [List.idxOf_cons_ne _ hab, List.getElem?_cons_succ]
      exact ih (fun c hc => h c (List.mem_cons_of_mem _ hc))
        ((List.mem_cons.mp ha).resolve_left fun h => hab h.symm)

theorem inside_iff_get {dims p : List Nat} : Inside dims p ↔ p.length = dims.length
    ∧ ∀ (i n j : Nat), dims[i]? = some n → p[i]? = some j → j < n := by
  rw [Inside, List.forall₂_iff_get]
  constructor
  · rintro ⟨hlen, h⟩
    refine ⟨hlen.symm, fun i n j hn hj => ?_⟩
    obtain ⟨hi, rfl⟩ := List.getElem?_eq_some_iff.mp hn
    obtain ⟨hi', rfl⟩ := List.getElem?_eq_some_iff.mp hj
    exact h i hi hi'
  · rintro ⟨hlen, h⟩
    refine ⟨hlen.symm, fun i hi hi' => ?_⟩
    exact h i _ _ (List.getElem?_eq_getElem hi) (List.getElem?_eq_getElem hi')

/-- Axes that name each axis once are the axes in another order. -/
theorem perm_range {axes : List Nat} {n : Nat} (hnodup : axes.Nodup) (hlt : ∀ a ∈ axes, a < n)
    (hlen : axes.length = n) : axes.Perm (List.range n) := by
  refine (List.subperm_of_subset hnodup fun a ha => ?_).perm_of_length_le ?_
  · exact List.mem_range.mpr (hlt a ha)
  · exact Nat.le_of_eq (by rw [List.length_range, hlen])

/-- The source of a position under a permutation of the axes lies inside the tensor. -/
theorem inside_permuted {axes p : List Nat} (hperm : axes.Perm (List.range old.length))
    (hp : Inside (pick old axes) p) : Inside old ((Movement.permute axes).source old p) := by
  have hlt : ∀ a ∈ axes, a < old.length := fun a ha => List.mem_range.mp (hperm.mem_iff.mp ha)
  refine inside_iff_get.mpr ⟨by simp [Movement.source], fun a n j hn hj => ?_⟩
  obtain ⟨ha, -⟩ := List.getElem?_eq_some_iff.mp hn
  have hmem : a ∈ axes := hperm.mem_iff.mpr (List.mem_range.mpr ha)
  have hidx : axes.idxOf a < p.length := by
    rw [hp.length_eq, length_pick hlt]
    exact List.idxOf_lt_length_iff.mpr hmem
  have hj : p[axes.idxOf a]? = some j := by
    simpa [Movement.source, ha, List.getD_eq_getElem?_getD, hidx] using hj
  refine (inside_iff_get.mp hp).2 _ n j ?_ hj
  rw [getElem_pick hlt hmem, hn]

theorem Proper.rearranged_permute (hv : v.Proper) (hmask : v.mask = none)
    (hold : v.shape.static? = some old) {axes : List Nat} (h : v.permute axes = .ok w) :
    Rearranged (.permute axes) old v w := by
  obtain ⟨hrank, hlt, hnodup, -, rfl⟩ := permute_eq_ok.mp h
  have hdims := Shape.static?_eq_some.mp hold
  have hlen : axes.length = old.length := by rw [hrank, Shape.rank_eq hold]
  have hstrides : v.strides.length = old.length := by rw [hv.length_strides, Shape.rank_eq hold]
  have hlt : ∀ a ∈ axes, a < old.length := hlen ▸ hlt
  have hperm := perm_range hnodup hlt hlen
  rw [hmask, Option.map_none]
  have hnew : Shape.static? ⟨pick v.shape.dims axes⟩ = some (pick old axes) := by
    rw [Shape.static?_eq_some, hdims, pick_map]
  refine rearranged_create hmask hnew fun p hp => ⟨inside_permuted hperm hp, ?_⟩
  have hp' : p.length = axes.length := by rw [hp.length_eq, length_pick hlt]
  rw [dot_pick hnodup (hstrides ▸ hlt) hp', axisSum_perm _ hperm, Movement.source, ← hstrides,
    dot_map_range]

/-! ## Repeating unit axes -/

/-- Along a unit axis there is nothing to go, so repeating it does not matter. -/
theorem dot_repeated {p : List Nat} {strides : List Int64}
    (hunits : List.Forall₂ (fun n s => n = 1 → s = 0) old strides) (hlen : p.length = old.length) :
    dot p strides = dot (List.zipWith (fun n i => if n = 1 then 0 else i) old p) strides := by
  induction hunits generalizing p with
  | nil => simp
  | @cons n s old strides hs _ ih =>
    cases p with
    | nil => simp at hlen
    | cons i p =>
      rw [List.zipWith_cons_cons, dot_cons, dot_cons, ih (by simpa using hlen)]
      by_cases hn : n = 1
      · rw [hs hn]
        simp
      · rw [if_neg hn]

theorem inside_repeated {new p : List Nat} (h : List.Forall₂ (fun n m => n = m ∨ n = 1) old new)
    (hp : Inside new p) :
    Inside old (List.zipWith (fun n i => if n = 1 then 0 else i) old p) := by
  induction h generalizing p with
  | nil =>
    cases hp
    exact .nil
  | @cons n m old new hnm _ ih =>
    cases hp with
    | @cons _ i _ p hi hp =>
      rw [List.zipWith_cons_cons]
      refine .cons ?_ (ih hp)
      split
      · omega
      · rcases hnm with rfl | hn
        · exact hi
        · contradiction

theorem Proper.rearranged_expand (hv : v.Proper) (hmask : v.mask = none)
    (hold : v.shape.static? = some old) {target : Shape} {new : List Nat}
    (hnew : target.static? = some new) (h : v.expand target = .ok w) :
    Rearranged (.expand target) old v w := by
  obtain ⟨hrank, spans, hrepeat, -, rfl⟩ := expand_eq_ok.mp h
  have hforall := forall₂_of_repeatSpans (by rw [← Shape.rank, ← Shape.rank, hrank]) hrepeat
  rw [Shape.static?_eq_some.mp hold, Shape.static?_eq_some.mp hnew, List.forall₂_map_left_iff,
    List.forall₂_map_right_iff] at hforall
  have hforall : List.Forall₂ (fun n m => n = m ∨ n = 1) old new :=
    hforall.imp fun n m h => by simpa using h
  have hunits := hv.units
  rw [Shape.static?_eq_some.mp hold, List.forall₂_map_left_iff] at hunits
  rw [hmask, Option.map_none]
  refine rearranged_create hmask hnew fun p hp => ⟨inside_repeated hforall hp, ?_⟩
  congr 1
  refine dot_repeated (hunits.imp fun n s h hn => h (congrArg _ hn)) ?_
  rw [hp.length_eq, hforall.length_eq]

/-! ## Cutting out spans -/

theorem inside_shrunk {windows : List Span} {p : List Nat} (hlen : windows.length = old.length)
    (hwindows : ∀ q ∈ windows.zip old, q.1.start ≤ q.1.stop ∧ q.1.stop ≤ q.2)
    (hp : Inside (windows.map fun r => r.stop - r.start) p) :
    Inside old (List.zipWith (fun r i => r.start + i) windows p) := by
  induction windows generalizing old p with
  | nil =>
    obtain rfl := List.length_eq_zero_iff.mp hlen.symm
    exact .nil
  | cons r windows ih =>
    cases old with
    | nil => simp at hlen
    | cons n old =>
      cases hp with
      | @cons _ i _ p hi hp =>
        rw [List.zip_cons_cons, List.forall_mem_cons] at hwindows
        obtain ⟨⟨hstart, hstop⟩, hwindows⟩ := hwindows
        rw [List.zipWith_cons_cons]
        refine .cons ?_ (ih (by simpa using hlen) hwindows hp)
        change i < r.stop - r.start at hi
        change r.start ≤ r.stop at hstart
        change r.stop ≤ n at hstop
        omega

theorem Proper.rearranged_shrink (hmask : v.mask = none) (hold : v.shape.static? = some old)
    {windows : List Span} (h : v.shrink windows = .ok w) :
    Rearranged (.shrink windows) old v w := by
  obtain ⟨hrank, dims, hdims, hwindows, -, -, rfl⟩ := shrink_eq_ok.mp h
  obtain rfl : old = dims := Option.some.inj (hold.symm.trans hdims)
  have hlen : windows.length = old.length := by rw [hrank, Shape.rank_eq hold]
  rw [hmask, Option.map_none]
  refine rearranged_create hmask (Shape.static?_ofNats _) fun p hp => ?_
  refine ⟨inside_shrunk hlen hwindows hp, ?_⟩
  have hp' : windows.length = p.length := by simpa using hp.length_eq.symm
  rw [place_eq, Movement.source, dot_zipWith_add Span.start hp']
  grind

/-! ## Walking with strides -/

theorem strideCoordinate_spec {n i : Nat} {m : Int} (hm : m ≠ 0) (hi : i < strideCount n m.natAbs) :
    strideCoordinate n m i < n
      ∧ (Int64.ofNat (strideStart n m) + .ofNat i * .ofInt m : Int64)
        = .ofNat (strideCoordinate n m i) := by
  have hpos : 0 < m.natAbs := Int.natAbs_pos.mpr hm
  -- the walk stays inside the axis
  have hle : i * m.natAbs + 1 ≤ n := by
    rw [strideCount, Nat.lt_iff_add_one_le, Nat.le_div_iff_mul_le hpos, Nat.succ_mul] at hi
    omega
  rw [strideCoordinate, strideStart]
  by_cases hneg : m < 0
  · have hm' : m = -(m.natAbs : Int) := by omega
    rw [if_pos hneg, if_pos hneg]
    refine ⟨by omega, ?_⟩
    have hsum : n - 1 = (n - 1 - i * m.natAbs) + i * m.natAbs := by omega
    generalize hk : n - 1 - i * m.natAbs = k at hsum
    rw [hsum, Int64.ofNat_add, Int64.ofNat_mul]
    generalize m.natAbs = q at hm'
    subst hm'
    rw [← Int64.neg_ofNat]
    grind
  · have hm' : m = (m.natAbs : Int) := by omega
    rw [if_neg hneg, if_neg hneg]
    refine ⟨by omega, ?_⟩
    generalize m.natAbs = q at hm'
    subst hm'
    rw [Int64.ofInt_eq_ofNat, Int64.ofNat_mul]
    simp

theorem stride_spec {factors : List Int} {p : List Nat} {strides : List Int64}
    (hfactors : ∀ m ∈ factors, m ≠ 0) (hlen : factors.length = old.length)
    (hstrides : strides.length = old.length)
    (hp : Inside (List.zipWith (fun n m => strideCount n m.natAbs) old factors) p) :
    Inside old (List.zipWith (fun (n, m) i => strideCoordinate n m i) (old.zip factors) p)
      ∧ dot (List.zipWith strideStart old factors) strides
          + dot p (List.zipWith (fun s m => s * .ofInt m) strides factors)
        = dot (List.zipWith (fun (n, m) i => strideCoordinate n m i) (old.zip factors) p)
          strides := by
  induction old generalizing factors p strides with
  | nil =>
    obtain rfl := List.length_eq_zero_iff.mp hlen
    obtain rfl := List.length_eq_zero_iff.mp hstrides
    exact ⟨.nil, by simp⟩
  | cons n old ih =>
    match factors, strides with
    | m :: factors, s :: strides =>
      cases hp with
      | @cons _ i _ p hi hp =>
        rw [List.forall_mem_cons] at hfactors
        obtain ⟨hlt, hplace⟩ := strideCoordinate_spec hfactors.1 hi
        obtain ⟨hinside, hdot⟩ :=
          ih hfactors.2 (by simpa using hlen) (by simpa using hstrides) hp
        simp only [List.zip_cons_cons, List.zipWith_cons_cons, dot_cons, ← hplace, ← hdot]
        refine ⟨.cons hlt hinside, ?_⟩
        grind

theorem Proper.rearranged_stride (hv : v.Proper) (hmask : v.mask = none)
    (hold : v.shape.static? = some old) {factors : List Int} (h : v.stride factors = .ok w) :
    Rearranged (.stride factors) old v w := by
  obtain ⟨hrank, hfactors, dims, hdims, -, -, rfl⟩ := stride_eq_ok.mp h
  obtain rfl : old = dims := Option.some.inj (hold.symm.trans hdims)
  have hlen : factors.length = old.length := by rw [hrank, Shape.rank_eq hold]
  have hstrides : v.strides.length = old.length := by rw [hv.length_strides, Shape.rank_eq hold]
  rw [hmask, Option.map_none]
  refine rearranged_create hmask (Shape.static?_ofNats _) fun p hp => ?_
  rw [List.take_of_length_le (by simp [hlen, hstrides])] at hp
  obtain ⟨hinside, hdot⟩ := stride_spec hfactors hlen hstrides hp
  refine ⟨hinside, ?_⟩
  rw [place_eq, Movement.source, ← hdot]
  grind

end View

end TensorGraph
