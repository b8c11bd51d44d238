import TensorGraph.Proofs.Tracker.Bounds
/-!
# Trackers inside the words

Movements may leave the words, and so may the search for a place. They do not where the shapes are
moderate: a view that reads inside a store with few elements takes short steps, so that it can be given
any other moderate shape.

- `View.Made.tame`: a view that stays in a store with few elements is tame.
- `Tracker.Moderate`, `Tracker.Over.tame`: the trackers that movements make of moderate shapes are tame.
- `Tracker.Tame.reshape`: a tame tracker is reshaped, and stays tame.
- `Tracker.locate_reshape_iff`: whether a reshape is stopped, and which positions keep their place.
-/

namespace TensorGraph

theorem Shape.Moderate.exists_dims {s : Shape} (h : s.Moderate) :
    ∃ dims, s = .ofNats dims ∧ breadth dims ≤ 2 ^ 62 := by
  obtain ⟨dims, hdims, hle⟩ := h
  exact ⟨dims, Shape.eq_ofNats hdims, hle⟩

theorem Shape.Moderate.elements_le {s : Shape} (h : s.Moderate) {n : Nat} (hn : s.elements? = some n) :
    n ≤ 2 ^ 62 := by
  obtain ⟨dims, rfl, hle⟩ := h.exists_dims
  obtain rfl := Option.some.inj ((Shape.elements?_ofNats dims).symm.trans hn)
  exact (prod_le_breadth dims).trans hle

/-! ## Short steps -/

theorem reach_zeros (dims : List Nat) (strides : List Int64) :
    reach (dims.map fun _ => 0) strides = 0 := by
  induction dims generalizing strides with
  | nil => rfl
  | cons n dims ih =>
    cases strides with
    | nil => rfl
    | cons s strides =>
      rw [List.map_cons, reach, ih, Int.natCast_zero, Int.zero_mul, Int.add_zero]

/-- Along each axis, the first and the last coordinate are less than `n` places apart, if all places are
among `n`. -/
theorem steps_lt_of_reach {dims : List Nat} {strides : List Int64} {origin : Int} {n : Nat}
    (hpos : 0 < dims.prod) (hlen : strides.length = dims.length)
    (h : ∀ p, Inside dims p → 0 ≤ origin + reach p strides ∧ origin + reach p strides < n) :
    List.Forall₂ (fun m (s : Int64) => (m - 1) * s.toInt.natAbs < n) dims strides := by
  induction dims generalizing strides with
  | nil =>
    obtain rfl := List.length_eq_zero_iff.mp hlen
    exact .nil
  | cons m dims ih =>
    match strides with
    | s :: strides =>
    obtain ⟨hm, hdims⟩ := prod_cons_pos hpos
    have hzeros := inside_zeros hdims
    refine .cons ?_ (ih hdims (by simpa using hlen) fun p hp => ?_)
    · have hfirst := h (0 :: dims.map fun _ => 0) (.cons hm hzeros)
      have hlast := h ((m - 1) :: dims.map fun _ => 0) (.cons (Nat.sub_lt hm Nat.one_pos) hzeros)
      simp only [reach, reach_zeros] at hfirst hlast
      rw [show (m - 1) * s.toInt.natAbs = (((m - 1 : Nat) : Int) * s.toInt).natAbs by
        rw [Int.natAbs_mul, Int.natAbs_natCast]]
      omega
    · have := h (0 :: p) (.cons hm hp)
      simpa [reach] using this

namespace View

variable {v : View} {dims : List Nat} {n : Nat}

/-- A view that stays in a store with few elements takes short steps. -/
theorem Made.tame (hv : v.Made dims) (hstays : v.StaysIn dims n) (hn : n ≤ 2 ^ 62)
    (hbroad : breadth dims < 2 ^ 63) : v.Tame dims where
  made := hv
  broad := hbroad
  axes hpos hmask := by
    obtain ⟨origin, horigin⟩ :=
      hv.exact_of_nonneg fun p place hp hplace => (hstays p place hp hplace).1
    have hsteps := steps_lt_of_reach (n := n) hpos hv.length_strides fun p hp => by
      have hindex := index_unmasked hmask p
      rw [← horigin p _ hp hindex]
      exact hstays p _ hp hindex
    -- an axis with several coordinates is at most twice as long as its steps
    refine List.forall₂_iff_get.mpr ⟨hv.length_strides.symm, fun i hi hi' => ?_⟩
    have hstep := hsteps.get hi hi'
    have hunit := hv.unitsStill.get hi hi'
    simp only [List.get_eq_getElem] at hstep hunit ⊢
    by_cases hone : dims[i] = 1
    · rw [hunit hone]
      exact short_zero _
    · have hle : dims[i] ≤ 2 * (dims[i] - 1) ∨ dims[i] = 0 := by omega
      rcases hle with hle | hzero
      · calc dims[i] * v.strides[i].toInt.natAbs
            ≤ 2 * (dims[i] - 1) * v.strides[i].toInt.natAbs := Nat.mul_le_mul_right _ hle
          _ = 2 * ((dims[i] - 1) * v.strides[i].toInt.natAbs) := Nat.mul_assoc ..
          _ < 2 ^ 63 := by omega
      · rw [Short, hzero, Nat.zero_mul]
        decide

end View

namespace Tracker

variable {t t' : Tracker} {shape target : Shape} {n : Nat}

/-! ## Tame trackers -/

/-- All views are of moderate shapes. -/
def Moderate (t : Tracker) : Prop := ∀ v ∈ t.stack, v.shape.Moderate

instance (t : Tracker) : Decidable t.Moderate :=
  inferInstanceAs (Decidable (∀ v ∈ t.stack, v.shape.Moderate))

theorem Moderate.top (ht : t.Moderate) : t.shape.Moderate := ht t.top List.mem_cons_self

theorem moderate_ofShape (h : shape.Moderate) : (ofShape shape).Moderate := by
  intro v hv
  obtain rfl := List.mem_singleton.mp hv
  exact h

/-- Every view of the tracker is tame. -/
def Tame (t : Tracker) : Prop := ∀ v ∈ t.stack, ∃ dims, v.Tame dims

theorem Tame.top (ht : t.Tame) : ∃ dims, t.top.Tame dims := ht t.top List.mem_cons_self

theorem tame_ofShape {dims : List Nat} (h : breadth dims < 2 ^ 63) : (ofShape (.ofNats dims)).Tame := by
  intro v hv
  obtain rfl := List.mem_singleton.mp hv
  exact ⟨dims, View.tame_ofShape h⟩

/-- Views that read inside each other are tame, if the store and all of them have few elements. -/
theorem ReadsInside.tame {stack : List View} (h : ReadsInside n stack) (hn : n ≤ 2 ^ 62)
    (hmoderate : ∀ v ∈ stack, v.shape.Moderate) : ∀ v ∈ stack, ∃ dims, v.Tame dims := by
  induction h with
  | nil => nofun
  | @cons v below dims hv _ hstays _ ih =>
    obtain ⟨hshape, hbelow⟩ := List.forall_mem_cons.mp hmoderate
    have hsize : storeSize n below ≤ 2 ^ 62 := by
      cases below with
      | nil => exact hn
      | cons w below =>
        rw [storeSize]
        cases hcount : w.shape.elements? with
        | none => exact Nat.zero_le _
        | some k => exact (hbelow w List.mem_cons_self).elements_le hcount
    have hbroad : breadth dims ≤ 2 ^ 62 := by
      obtain ⟨dims', hdims', hle⟩ := hshape
      rwa [Option.some.inj (hv.static?.symm.trans hdims')]
    exact List.forall_mem_cons.mpr ⟨⟨dims, hv.tame hstays hsize (by omega)⟩, ih hbelow⟩

theorem addressable_of_moderate {s : Shape} (h : s.Moderate) : s.Addressable := by
  obtain ⟨dims, rfl, hle⟩ := h.exists_dims
  refine ⟨dims.prod, Shape.elements?_ofNats dims, ?_⟩
  exact ((prod_le_breadth dims).trans hle).trans (by decide)

/-- However it was made, a tracker of moderate shapes is tame. -/
theorem Over.tame (ht : t.Over shape) (hshape : shape.Moderate) (hstack : t.Moderate) : t.Tame := by
  obtain ⟨top, htop, -⟩ := hstack t.top List.mem_cons_self
  obtain ⟨k, hk, -⟩ := addressable_of_moderate hshape
  have hle := hshape.elements_le hk
  have hreads := ht.readsInside (n := max 1 k) hk (Nat.le_max_right 1 k) (by omega) (by omega)
    (fun v hv => addressable_of_moderate (hstack v (List.mem_cons_of_mem _ hv))) htop
  exact hreads.tame (by omega) hstack

/-! ## Reshapes -/

/-- A tame tracker can be given every shape that is not too broad. -/
theorem Tame.reshapeFits (ht : t.Tame) {new : List Nat} (hnew : breadth new < 2 ^ 63) :
    t.ReshapeFits (.ofNats new) := by
  obtain ⟨dims, htop⟩ := ht.top
  exact reshapeFits_of_tame htop hnew

theorem Tame.reshape (ht : t.Tame) {new : List Nat} (hnew : breadth new < 2 ^ 63)
    (h : t.reshape (.ofNats new) = .ok t') : t'.Tame := by
  obtain ⟨dims, htop⟩ := ht.top
  have hbelow : ∀ v ∈ t.below, ∃ dims, v.Tame dims := fun v hv => ht v (List.mem_cons_of_mem _ hv)
  rcases reshape_eq_ok.mp h with ⟨-, rfl⟩ | ⟨-, -, -, ⟨top, hreshape, rfl⟩ | ⟨-, rfl⟩⟩
  · exact ht
  · exact List.forall_mem_cons.mpr ⟨⟨new, htop.reshape? hnew hreshape⟩, hbelow⟩
  · exact List.forall_mem_cons.mpr ⟨⟨new, View.tame_ofShape hnew⟩, ht⟩

theorem Moderate.reshape (ht : t.Moderate) (htarget : target.Moderate)
    (h : t.reshape target = .ok t') : t'.Moderate := by
  have hbelow : ∀ v ∈ t.below, v.shape.Moderate := fun v hv => ht v (List.mem_cons_of_mem _ hv)
  rcases reshape_eq_ok.mp h with ⟨-, rfl⟩ | ⟨-, -, -, ⟨top, hreshape, rfl⟩ | ⟨-, rfl⟩⟩
  · exact ht
  · exact List.forall_mem_cons.mpr ⟨(View.reshape?_shape hreshape).symm ▸ htarget, hbelow⟩
  · exact List.forall_mem_cons.mpr ⟨htarget, ht⟩

/-- A reshape to a shape with as many elements succeeds with that shape if the numbers on the way fit
into their words, as they do where the base, the views and the shape are moderate, and is stopped
otherwise. It keeps the place of a position exactly if the shape is the same, or neither is a hidden
single element unveiled nor the position beyond the signed words under a pushed view. A place is found
if no position is too far from the beginning of what its view reads. -/
theorem locate_reshape_iff (ht : t.Reachable) (hsource : t.shape.elements? = some n)
    (htarget : target.elements? = some n) :
    ((∃ t', t.reshape target = .ok t') ↔ target = t.shape ∨ t.ReshapeFits target)
      ∧ (¬(target = t.shape ∨ t.ReshapeFits target) → t.reshape target = .error .overflow)
      ∧ (∀ shape, t.Over shape → shape.Moderate → t.Moderate → target.Moderate →
        t.ReshapeFits target)
      ∧ (∀ t', t.reshape target = .ok t' → t'.shape = target
        ∧ ∀ flat : UInt64, flat.toNat < n → (t'.locate flat.toNat = t.locate flat.toNat
          ↔ target = t.shape ∨ ¬(t.Unveils ∨ t.Overruns target flat.toNat)))
      ∧ ∀ u : Tracker, u.Near → ∀ flat, u.lookup flat = .ok (u.locate flat) := by
  obtain ⟨hok, hstopped⟩ := reshape_outcome hsource htarget
  refine ⟨hok, hstopped, ?_, ?_, fun u hu flat => lookup_of_near hu flat⟩
  · rintro shape hover hshape hstack ⟨new, hnew, hle⟩
    obtain rfl := Shape.eq_ofNats hnew
    exact (hover.tame hshape hstack).reshapeFits (by omega)
  · exact fun t' ht' => ⟨shape_reshape ht', fun flat hflat =>
      ht.locate_of_reshape_iff hsource ht' flat hflat⟩

/-- A hidden single element that a reshape unveils: the padded position before the element of a
store with one. -/
def hiddenSingle : Tracker := ⟨⟨.ofNats [1], [0], 0, some [⟨0, 0⟩]⟩, []⟩

theorem hiddenSingle_over : hiddenSingle.Over (.ofNats [1]) :=
  .move (.shrink [⟨0, 1⟩]) (.move (.pad [⟨1, 0⟩]) .ofShape rfl) rfl

theorem locate_reshape_iff_hiddenSingle :
    ∃ t', hiddenSingle.reshape (.ofNats [1, 1]) = .ok t' ∧ t'.shape = .ofNats [1, 1]
      ∧ ∀ flat : UInt64, flat.toNat < 1 →
        (t'.locate flat.toNat = hiddenSingle.locate flat.toNat
          ↔ .ofNats [1, 1] = hiddenSingle.shape
            ∨ ¬(hiddenSingle.Unveils ∨ hiddenSingle.Overruns (.ofNats [1, 1]) flat.toNat)) := by
  obtain ⟨hok, -, hample, hkeeps, -⟩ :=
    locate_reshape_iff (hiddenSingle_over.reachable rfl) rfl (Shape.elements?_ofNats [1, 1])
  have hmoderate : hiddenSingle.Moderate := by
    intro v hv
    obtain rfl := List.mem_singleton.mp hv
    exact ⟨[1], rfl, by decide⟩
  obtain ⟨t', ht'⟩ := hok.mpr (.inr (hample _ hiddenSingle_over ⟨[1], rfl, by decide⟩ hmoderate
    ⟨[1, 1], rfl, by decide⟩))
  exact ⟨t', ht', hkeeps t' ht'⟩

/-- A reshape may unveil a hidden element. -/
theorem reshape_unveils :
    ∃ t t' : Tracker, ∃ target : Shape, t.Reachable ∧ t.shape.elements? = some 1
      ∧ target.elements? = some 1 ∧ t.reshape target = .ok t' ∧ t.locate 0 = none
      ∧ t'.locate 0 = some 0 :=
  ⟨hiddenSingle, ⟨.ofShape (.ofNats [1, 1]), []⟩, .ofNats [1, 1], hiddenSingle_over.reachable rfl, rfl,
    rfl, rfl, rfl, rfl⟩

end Tracker

end TensorGraph
