import TensorGraph.Proofs.View.Tame
import TensorGraph.Tracker
/-!
# Trackers under a reshape

A reshape of a tracker succeeds whenever the number of elements stays and no number on the way leaves
its word, and every position keeps its place in the store. Two kinds of positions are excepted: the
single element of a view that hides it, and positions of a pushed view that a signed word cannot count.

- `Tracker.Reachable`: the trackers that movements make from a dense store.
- `Tracker.Over`: the trackers that movements make of the storage of a base.
- `Tracker.ReshapeFits`, `Tracker.reshape_outcome`: whether a reshape is stopped, which does not happen
  where the topmost view is tame (`Tracker.reshapeFits_of_tame`).
- `Tracker.Reachable.locate_of_reshape_iff`: which positions keep their place.
-/

namespace TensorGraph

namespace Tracker

variable {t t' : Tracker} {target : Shape}

/-- The views of the tracker are as the movements make them. -/
structure Proper (t : Tracker) : Prop where
  /-- Each view is as the movements make it. -/
  views : ∀ v ∈ t.stack, v.Proper
  /-- Nothing is pushed on a view with one element, as any shape can be given to it. -/
  several : ∀ v ∈ t.below, v.shape.elements? ≠ some 1

theorem proper_ofShape (shape : Shape) : (ofShape shape).Proper where
  views _ hv := List.mem_singleton.mp hv ▸ View.proper_ofShape shape
  several _ hv := absurd hv List.not_mem_nil

theorem Proper.top (ht : t.Proper) : t.top.Proper := ht.views t.top List.mem_cons_self

theorem Proper.setTop (ht : t.Proper) {top : View} (htop : top.Proper) : (t.setTop top).Proper where
  views v hv := by
    rcases List.mem_cons.mp hv with rfl | hv
    · exact htop
    · exact ht.views v (List.mem_cons_of_mem _ hv)
  several := ht.several

/-! ## Movements -/

/-- The numbers on the way to a reshape to another shape fit into their words. -/
def ReshapeFits (t : Tracker) (target : Shape) : Prop :=
  t.top.reshapeFits target = true
    ∧ (t.top.reshape? target = none → (View.ofShape target).formable = true)

/-- A tame view on top is reshaped inside the words to any shape that is not too broad. -/
theorem reshapeFits_of_tame {old new : List Nat} (ht : t.top.Tame old) (hnew : breadth new < 2 ^ 63) :
    t.ReshapeFits (.ofNats new) :=
  ⟨ht.reshapeFits hnew, fun _ => View.formable_of_breadth (Shape.static?_ofNats new) hnew⟩

/-- What the reshape of a view counts first is what a reshape of a tracker counts. -/
theorem countable_of_reshapeFits {v : View} {n m : Nat} (hsource : v.shape.elements? = some n)
    (htarget : target.elements? = some m) (h : v.reshapeFits target = true) :
    v.shape.countable = true ∧ target.countable = true := by
  obtain ⟨old, hold, -⟩ := Shape.static?_of_elements? hsource
  obtain ⟨new, hnew, -⟩ := Shape.static?_of_elements? htarget
  rw [View.reshapeFits, hold, hnew] at h
  simp only [Bool.and_eq_true] at h
  exact h.1

/-- A reshaped view is made inside the words. -/
theorem formable_of_reshape {v w : View} (hfits : v.reshapeFits target = true)
    (h : v.reshape? target = some w) : w.formable = true := by
  obtain ⟨old, new, hold, hnew, hprod, -⟩ := View.reshape?_eq_some h
  simp only [View.reshapeFits, hold, hnew, h, hprod, Option.all_some, ne_eq, not_true_eq_false,
    decide_false, Bool.false_or, Bool.and_eq_true] at hfits
  exact hfits.2.2

/-- A reshape between shapes with equally many elements does what its topmost view allows, so long as
the numbers fit. -/
theorem reshape_eq {n : Nat} (hne : target ≠ t.shape) (hsource : t.shape.elements? = some n)
    (htarget : target.elements? = some n) :
    t.reshape target = if t.top.reshapeFits target then
        match t.top.reshape? target with
        | some top => .ok (t.setTop top)
        | none => (⟨·, t.stack⟩) <$> (View.ofShape target).formed
      else .error .overflow := by
  rw [reshape, if_neg hne, hsource, htarget, View.tryReshape]
  simp only [ne_eq, not_true_eq_false, if_false]
  split
  · next hcount =>
    -- the view counts the elements as well
    refine (if_neg fun hfits => ?_).symm
    obtain ⟨hcount', hcount''⟩ := countable_of_reshapeFits (v := t.top) hsource htarget hfits
    rw [show t.shape.countable = true from hcount', hcount''] at hcount
    cases hcount
  · split
    · cases t.top.reshape? target with
      | some top => rfl
      | none => cases (View.ofShape target).formed <;> rfl
    · rfl

/-- A reshape to another shape needs the number of elements to stay. -/
theorem elements?_of_reshape (hne : target ≠ t.shape) (h : t.reshape target = .ok t') :
    ∃ n, t.shape.elements? = some n ∧ target.elements? = some n := by
  rw [reshape, if_neg hne] at h
  split at h
  · cases h
  · split at h
    · next old new hsource htarget =>
      split at h
      · cases h
      · next hcount => exact ⟨old, hsource, not_not.mp hcount ▸ htarget⟩
    · cases h

/-- The ways in which a reshape of a tracker succeeds: the shape is the same, the topmost view is
reshaped, or a view is pushed. -/
theorem reshape_eq_ok :
    t.reshape target = .ok t' ↔ (target = t.shape ∧ t' = t) ∨ (target ≠ t.shape
      ∧ (∃ n, t.shape.elements? = some n ∧ target.elements? = some n)
      ∧ t.ReshapeFits target
      ∧ ((∃ top, t.top.reshape? target = some top ∧ t' = t.setTop top)
        ∨ (t.top.reshape? target = none ∧ t' = ⟨.ofShape target, t.stack⟩))) := by
  by_cases hsame : target = t.shape
  · rw [reshape, if_pos hsame]
    simp [hsame, eq_comm]
  simp only [hsame, ne_eq, not_false_eq_true, true_and, false_and, false_or]
  constructor
  · intro h
    obtain ⟨n, hsource, htarget⟩ := elements?_of_reshape hsame h
    refine ⟨⟨n, hsource, htarget⟩, ?_⟩
    rw [reshape_eq hsame hsource htarget] at h
    split at h
    · next hfits =>
      cases htop : t.top.reshape? target with
      | some top =>
        rw [htop] at h
        exact ⟨⟨hfits, by simp [htop]⟩, .inl ⟨top, rfl, (Except.ok.inj h).symm⟩⟩
      | none =>
        rw [htop] at h
        obtain ⟨top, hformed, rfl⟩ := map_eq_ok.mp h
        obtain ⟨hformable, rfl⟩ := View.formed_eq_ok.mp hformed
        exact ⟨⟨hfits, fun _ => hformable⟩, .inr ⟨rfl, rfl⟩⟩
    · cases h
  · rintro ⟨⟨n, hsource, htarget⟩, ⟨hfits, hformable⟩, hcases⟩
    rw [reshape_eq hsame hsource htarget, if_pos hfits]
    rcases hcases with ⟨top, htop, rfl⟩ | ⟨htop, rfl⟩
    · rw [htop]
    · rw [htop, View.formed_eq_ok.mpr ⟨hformable htop, rfl⟩]
      rfl

/-- The other movements change the topmost view only. -/
theorem map_setTop_eq_ok {r : Except MovementError View} :
    t.setTop <$> r = .ok t' ↔ ∃ top, r = .ok top ∧ t.setTop top = t' := map_eq_ok

theorem Proper.reshape (ht : t.Proper) (h : t.reshape target = .ok t') : t'.Proper := by
  rcases reshape_eq_ok.mp h with ⟨-, rfl⟩ | ⟨-, hcount, -, ⟨top, htop, rfl⟩ | ⟨htop, rfl⟩⟩
  · exact ht
  · exact ht.setTop (ht.top.reshape? htop)
  · refine ⟨List.forall_mem_cons.mpr ⟨View.proper_ofShape target, ht.views⟩,
      List.forall_mem_cons.mpr ⟨fun hone => ?_, ht.several⟩⟩
    obtain ⟨n, hsource, htarget⟩ := hcount
    obtain rfl : n = 1 := Option.some.inj (hsource.symm.trans hone)
    obtain ⟨old, hold, hprod⟩ := Shape.static?_of_elements? hsource
    obtain ⟨new, hnew, hprod'⟩ := Shape.static?_of_elements? htarget
    exact View.reshape?_of_single hold hnew (hprod.trans hprod'.symm) hprod' htop

theorem Proper.move (ht : t.Proper) {m : Movement} (h : t.move m = .ok t') : t'.Proper := by
  cases m with
  | reshape shape => exact ht.reshape h
  | permute axes =>
    obtain ⟨top, htop, rfl⟩ := map_setTop_eq_ok.mp h
    exact ht.setTop (ht.top.permute htop)
  | expand shape =>
    obtain ⟨top, htop, rfl⟩ := map_setTop_eq_ok.mp h
    exact ht.setTop (ht.top.expand htop)
  | shrink spans =>
    obtain ⟨top, htop, rfl⟩ := map_setTop_eq_ok.mp h
    exact ht.setTop (ht.top.shrink htop)
  | stride factors =>
    obtain ⟨top, htop, rfl⟩ := map_setTop_eq_ok.mp h
    exact ht.setTop (ht.top.stride htop)
  | pad margins =>
    obtain ⟨top, htop, rfl⟩ := map_setTop_eq_ok.mp h
    exact ht.setTop (ht.top.pad htop)

/-- The trackers that movements make from a dense store with known extents. -/
inductive Reachable : Tracker → Prop
  | ofShape {shape : Shape} (h : shape.isStatic = true) : Reachable (.ofShape shape)
  | move {t t' : Tracker} (m : Movement) (ht : Reachable t) (h : t.move m = .ok t') : Reachable t'

theorem Reachable.proper (ht : t.Reachable) : t.Proper := by
  induction ht with
  | ofShape => exact proper_ofShape _
  | move m _ h ih => exact ih.move h

/-- The trackers that movements make of a dense store of the shape `shape`. -/
inductive Over (shape : Shape) : Tracker → Prop
  /-- The store as it is. -/
  | ofShape : Over shape (.ofShape shape)
  /-- One more movement. -/
  | move {t t' : Tracker} (m : Movement) (ht : Over shape t) (h : t.move m = .ok t') :
    Over shape t'

theorem Over.proper {shape : Shape} (ht : t.Over shape) : t.Proper := by
  induction ht with
  | ofShape => exact proper_ofShape _
  | move m _ h ih => exact ih.move h

theorem Over.reachable {shape : Shape} (ht : t.Over shape) (hshape : shape.isStatic = true) :
    t.Reachable := by
  induction ht with
  | ofShape => exact .ofShape hshape
  | move m _ h ih => exact .move m ih h

/-! ## Places after a reshape -/

theorem shape_reshape (h : t.reshape target = .ok t') : t'.shape = target := by
  rcases reshape_eq_ok.mp h with ⟨rfl, rfl⟩ | ⟨-, -, -, ⟨top, htop, rfl⟩ | ⟨-, rfl⟩⟩
  · rfl
  · exact View.reshape?_shape htop
  · exact View.ofShape_shape target

/-- A reshape that keeps the number of elements succeeds if the numbers on the way fit, and is stopped
otherwise. -/
theorem reshape_outcome {n : Nat} (hold : t.shape.elements? = some n)
    (hnew : target.elements? = some n) :
    ((∃ t', t.reshape target = .ok t') ↔ target = t.shape ∨ t.ReshapeFits target)
      ∧ (¬(target = t.shape ∨ t.ReshapeFits target) → t.reshape target = .error .overflow) := by
  constructor
  · constructor
    · rintro ⟨t', h⟩
      exact (reshape_eq_ok.mp h).imp And.left fun h => h.2.2.1
    · intro h
      by_cases hsame : target = t.shape
      · exact ⟨t, reshape_eq_ok.mpr (.inl ⟨hsame, rfl⟩)⟩
      · have hfits := h.resolve_left hsame
        cases htop : t.top.reshape? target with
        | some top =>
          exact ⟨_, reshape_eq_ok.mpr (.inr ⟨hsame, ⟨n, hold, hnew⟩, hfits, .inl ⟨top, htop, rfl⟩⟩)⟩
        | none =>
          exact ⟨_, reshape_eq_ok.mpr (.inr ⟨hsame, ⟨n, hold, hnew⟩, hfits, .inr ⟨htop, rfl⟩⟩)⟩
  · intro h
    obtain ⟨hne, hfits⟩ := not_or.mp h
    rw [reshape_eq hne hold hnew]
    split
    · next hview =>
      cases htop : t.top.reshape? target with
      | some top => exact absurd ⟨hview, fun hnone => by simp [htop] at hnone⟩ hfits
      | none =>
        have hformable : ¬(View.ofShape target).formable = true := fun hformable =>
          hfits ⟨hview, fun _ => hformable⟩
        dsimp only
        rw [View.formed_eq_error hformable]
        rfl
    · rfl

/-- If it fails, it is stopped. -/
theorem reshape_stopped {n : Nat} (hold : t.shape.elements? = some n)
    (hnew : target.elements? = some n) {cause : MovementError} (h : t.reshape target = .error cause) :
    cause = .overflow ∧ ¬t.ReshapeFits target := by
  obtain ⟨hok, hstopped⟩ := reshape_outcome hold hnew
  by_cases hfits : target = t.shape ∨ t.ReshapeFits target
  · obtain ⟨t', ht'⟩ := hok.mpr hfits
    cases h.symm.trans ht'
  · exact ⟨Except.error.inj (h.symm.trans (hstopped hfits)), fun h => hfits (.inr h)⟩

/-- Where a place that a view gives is found in the store below the view. -/
def descend (below : List View) (place : Int64) : Option Nat :=
  if place < 0 then none else follow below place.toNatClampNeg

theorem follow_cons {v : View} {dims : List Nat} (hs : v.shape.static? = some dims)
    (below : List View) (flat : Nat) :
    follow (v :: below) flat = (v.index (unravel dims flat)).bind (descend below) := by
  simp only [follow, hs, Option.bind_eq_bind, Option.bind_some]
  rfl

theorem ofNat_nonneg {n : Nat} (h : n < 2 ^ 63) : ¬ Int64.ofNat n < 0 := by
  rw [Int64.lt_iff_toInt_lt, Int64.toInt_ofNat_of_lt h]
  simp

theorem ofNat_neg {n : Nat} (h : 2 ^ 63 ≤ n) (h' : n < 2 ^ 64) : Int64.ofNat n < 0 := by
  rw [Int64.lt_iff_toInt_lt, Int64.toInt_ofNat', Int.bmod_def]
  simp only [Int64.size, Int64.toInt_zero]
  omega

/-- Below a dense view, a position is looked for by its rank as a signed word. -/
theorem descend_ofNat (below : List View) {flat : Nat} (h : flat < 2 ^ 64) :
    descend below (.ofNat flat) = if flat < 2 ^ 63 then follow below flat else none := by
  rw [descend]
  split
  · next hlt =>
    rw [if_neg fun hlt' => ofNat_nonneg hlt' hlt]
  · next hlt =>
    have hflat : flat < 2 ^ 63 := by
      by_contra hge
      exact hlt (ofNat_neg (by omega) h)
    rw [if_pos hflat, Int64.toNatClampNeg_ofNat_of_lt hflat]

theorem locate_eq {dims : List Nat} (hs : t.shape.static? = some dims) (flat : Nat) :
    t.locate flat = (t.top.index (unravel dims flat)).bind (descend t.below) :=
  follow_cons hs t.below flat

/-- The store is looked at below the rank of a signed word only. -/
theorem follow_lt {v : View} {below : List View} {flat place : Nat}
    (h : follow (v :: below) flat = some place) : place < 2 ^ 63 := by
  induction below generalizing v flat with
  | nil =>
    simp only [follow, Option.bind_eq_bind, Option.bind_eq_some_iff] at h
    obtain ⟨-, -, p, -, h⟩ := h
    split at h
    · cases h
    · exact Option.some.inj h ▸ Int64.toNatClampNeg_lt p
  | cons w below ih =>
    rw [follow] at h
    simp only [Option.bind_eq_bind, Option.bind_eq_some_iff] at h
    obtain ⟨-, -, p, -, h⟩ := h
    split at h
    · cases h
    · exact ih h

theorem locate_lt {flat place : Nat} (h : t.locate flat = some place) : place < 2 ^ 63 := follow_lt h

/-- Where the topmost view is reshaped, every position keeps its place, unless a hidden single
element comes into view. -/
theorem Proper.locate_setTop (ht : t.Proper) {old new : List Nat}
    (hold : t.shape.static? = some old) (hnew : target.static? = some new) {top : View}
    (htop : t.top.reshape? target = some top) {flat : Nat} (hflat : flat < new.prod) :
    (t.setTop top).locate flat
      = if new.prod = 1 then descend t.below ((t.top.index (unravel old flat)).getD 0)
        else t.locate flat := by
  have hshape : (t.setTop top).shape.static? = some new := by
    rw [shape, Tracker.setTop, View.reshape?_shape htop, hnew]
  rw [locate_eq hshape, locate_eq hold]
  change (top.index (unravel new flat)).bind (descend t.below) = _
  rw [ht.top.index_reshape? htop hold hnew hflat]
  split <;> rfl

/-- Where a view is pushed, a position keeps its place if its rank is a signed word. -/
theorem locate_pushed {new : List Nat} (hnew : target.static? = some new) {flat : Nat}
    (hflat : flat < new.prod) (hword : flat < 2 ^ 64) :
    locate ⟨.ofShape target, t.stack⟩ flat = if flat < 2 ^ 63 then t.locate flat else none := by
  rw [locate_eq (by rw [shape, View.ofShape_shape, hnew]), View.index_ofShape hnew hflat,
    Option.bind_some, descend_ofNat _ hword]
  rfl

/-- The topmost view hides its single element, but what lies below has an element at its origin. -/
def Unveils (t : Tracker) : Prop :=
  ∃ dims, t.shape.static? = some dims ∧ dims.prod = 1 ∧ t.top.index (unravel dims 0) = none
    ∧ (follow t.below 0).isSome

/-- A view has to be pushed for the shape `target`, and the position has a place, but its rank is
no signed word. -/
def Overruns (t : Tracker) (target : Shape) (flat : Nat) : Prop :=
  t.top.reshape? target = none ∧ 2 ^ 63 ≤ flat ∧ (t.locate flat).isSome

/-- A reshape keeps the place of a position exactly if the shape is the same, or neither is a hidden
single element unveiled nor the position beyond the signed words under a pushed view. -/
theorem Reachable.locate_of_reshape_iff (ht : t.Reachable) {n : Nat}
    (hsource : t.shape.elements? = some n) (ht' : t.reshape target = .ok t') (flat : UInt64)
    (hflat : flat.toNat < n) :
    t'.locate flat.toNat = t.locate flat.toNat
      ↔ target = t.shape ∨ ¬(t.Unveils ∨ t.Overruns target flat.toNat) := by
  have htarget : target.elements? = some n := by
    rcases reshape_eq_ok.mp ht' with ⟨rfl, -⟩ | ⟨-, ⟨m, hm, hm'⟩, -⟩
    · exact hsource
    · rwa [Option.some.inj (hsource.symm.trans hm)]
  obtain ⟨old, hold, hprod⟩ := Shape.static?_of_elements? hsource
  obtain ⟨new, hnew, rfl⟩ := Shape.static?_of_elements? htarget
  rcases reshape_eq_ok.mp ht' with ⟨hsame, rfl⟩ | ⟨hne, -, -, ⟨top, htop, rfl⟩ | ⟨htop, rfl⟩⟩
  · simp [hsame]
  · have hover : ¬ t.Overruns target flat.toNat := fun h => by simp [h.1] at htop
    rw [ht.proper.locate_setTop hold hnew htop hflat]
    simp only [hne, hover, or_false, false_or]
    by_cases hone : new.prod = 1
    · -- the single element: it keeps its place unless it is hidden
      have hzero : flat.toNat = 0 := by omega
      rw [if_pos hone, hzero, locate_eq hold]
      have hunveils : t.Unveils ↔ t.top.index (unravel old 0) = none
          ∧ (follow t.below 0).isSome := by
        constructor
        · rintro ⟨dims, hdims, -, h⟩
          obtain rfl : old = dims := Option.some.inj (hold.symm.trans hdims)
          exact h
        · rintro h
          exact ⟨old, hold, hprod.trans hone, h⟩
      have horigin : descend t.below 0 = follow t.below 0 := by
        have := descend_ofNat t.below (show 0 < 2 ^ 64 by decide)
        simpa using this
      rw [hunveils]
      cases t.top.index (unravel old 0) with
      | some place => simp
      | none =>
        rw [Option.getD_none, horigin]
        cases follow t.below 0 <;> simp
    · -- several elements keep their places in the view
      have hunveils : ¬ t.Unveils := by
        rintro ⟨dims, hdims, h1, -⟩
        obtain rfl : old = dims := Option.some.inj (hold.symm.trans hdims)
        exact hone (hprod.symm.trans h1)
      simp [hone, hunveils]
  · -- a view is pushed, which a single element never needs
    have hunveils : ¬ t.Unveils := by
      rintro ⟨dims, hdims, h1, -⟩
      obtain rfl : old = dims := Option.some.inj (hold.symm.trans hdims)
      exact View.reshape?_of_single hold hnew hprod (hprod.symm.trans h1) htop
    rw [locate_pushed hnew hflat flat.toNat_lt]
    simp only [hne, hunveils, Overruns, htop, true_and, false_or]
    split
    · next hlt => simp only [Nat.not_le.mpr hlt, false_and, not_false_eq_true]
    · next hge =>
      simp only [Nat.not_lt.mp hge, true_and]
      cases t.locate flat.toNat <;> simp

end Tracker

end TensorGraph
