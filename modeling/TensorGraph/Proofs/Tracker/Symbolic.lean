import Mathlib.Algebra.BigOperators.Ring.List
import Mathlib.Algebra.GroupWithZero.Nat
import TensorGraph.Proofs.Lists
import TensorGraph.Proofs.Tracker.Dense
import TensorGraph.Proofs.View.Axes
/-!
# Dense trackers of symbolic shapes

A symbol counts as one in the strides of a dense store. Hence two symbolic axes that follow each
other have equal strides, and a tracker that swaps them still covers its store densely by its strides,
although it does not show the elements in row-major order.

That is all that can go wrong. Of the movements that symbolic shapes admit, a dense tracker is left
with none that repeats an axis, and with a permutation that at most swaps symbolic axes. It shows the
elements in row-major order, whatever the symbols stand for, exactly if these axes keep their order.

- `Tracker.origin`: the position of the dense store that a position shows after movements.
- `Tracker.Carried`: what permutations and repetitions make of a dense tracker.
- `Tracker.contiguous_iff_keepsSymbols`: when a dense tracker shows its store in row-major order.
-/

namespace TensorGraph

/-- The extent, with its symbol read as a number. -/
def Extent.value (σ : String → Nat) : Extent → Nat
  | .static n => n
  | .symbolic name => σ name

/-- The extents of a shape, with the symbols read as numbers. -/
def Shape.values (s : Shape) (σ : String → Nat) : List Nat := s.dims.map (Extent.value σ)

/-- The number of elements of a shape where each symbol counts as one, as it does in strides. -/
def Shape.knownCount (s : Shape) : Nat := (s.values fun _ => 1).prod

/-- Whether the axis `a` has a symbolic extent. -/
def Shape.isSymbolicAt (s : Shape) (a : Nat) : Bool := s.dims[a]?.any fun d => d.static? = none

/-- The symbolic axes come in the order in which the shape has them. -/
def Shape.KeepsSymbols (s : Shape) (axes : List Nat) : Prop :=
  (axes.filter s.isSymbolicAt).Pairwise (· < ·)

instance (s : Shape) (axes : List Nat) : Decidable (s.KeepsSymbols axes) :=
  inferInstanceAs (Decidable (List.Pairwise _ _))

/-- Whether shapes with symbolic extents admit the movement. -/
def Movement.admitsSymbols : Movement → Bool
  | .permute _ | .expand _ => true
  | .reshape _ | .shrink _ | .stride _ | .pad _ => false

/-- The axes of a tensor after a movement, each named by the axis that it was. -/
def Movement.carry (axes : List Nat) : Movement → List Nat
  | .permute order => View.pick axes order
  | .reshape _ | .expand _ | .shrink _ | .stride _ | .pad _ => axes

namespace Tracker

/-- The coordinates of the element of `t` that its tracker shows at the coordinates `p` after the
movements. -/
def origin (σ : String → Nat) : Tracker → List Movement → List Nat → List Nat
  | _, [], p => p
  | t, m :: moves, p =>
    match t.move m with
    | .ok t' => m.source (t.shape.values σ) (origin σ t' moves p)
    | .error _ => p

theorem origin_cons {t t' : Tracker} {m : Movement} (h : t.move m = .ok t') (σ : String → Nat)
    (moves : List Movement) (p : List Nat) :
    origin σ t (m :: moves) p = m.source (t.shape.values σ) (origin σ t' moves p) := by
  rw [origin, h]

/-- The last movement is the first to be undone. -/
theorem origin_snoc {t t' t'' : Tracker} {moves : List Movement} {m : Movement}
    (h : moves.foldlM move t = .ok t') (hm : t'.move m = .ok t'') (σ : String → Nat)
    (p : List Nat) :
    origin σ t (moves ++ [m]) p = origin σ t moves (m.source (t'.shape.values σ) p) := by
  induction moves generalizing t with
  | nil =>
    obtain rfl : t = t' := Except.ok.inj h
    exact origin_cons hm σ [] p
  | cons m' moves ih =>
    rw [List.foldlM_cons] at h
    obtain ⟨t₁, ht₁, h⟩ := bind_eq_ok.mp h
    rw [List.cons_append, origin_cons ht₁, origin_cons ht₁, ih h]

end Tracker

/-! ## Strides of symbolic shapes -/

/-- Whatever the symbols stand for, a shape is empty if a known extent is zero. -/
theorem Shape.prod_values_eq_zero {s : Shape} {σ : String → Nat} (hσ : ∀ name, 0 < σ name) :
    (s.values σ).prod = 0 ↔ .static 0 ∈ s.dims := by
  have hvalue (d : Extent) : d.value σ = 0 ↔ d = .static 0 := by
    cases d with
    | static n => simp [Extent.value]
    | symbolic name => simp [Extent.value, (hσ name).ne']
  simp only [values, List.prod_eq_zero_iff, List.mem_map, hvalue]
  exact ⟨fun ⟨_, hd, h⟩ => h ▸ hd, fun h => ⟨_, h, rfl⟩⟩

theorem Shape.knownCount_eq_zero {s : Shape} {σ : String → Nat} (hσ : ∀ name, 0 < σ name) :
    s.knownCount = 0 ↔ (s.values σ).prod = 0 := by
  rw [knownCount, prod_values_eq_zero fun _ => Nat.one_pos, prod_values_eq_zero hσ]

theorem denseStridesCount_symbolic (name : String) (dims : List Extent) :
    denseStridesCount (.symbolic name :: dims)
      = ((denseStridesCount dims).2 :: denseStrides dims, (denseStridesCount dims).2) := rfl

/-- A symbol counts as one in the number of elements that strides are made from. -/
theorem denseStridesCount_eq_value (dims : List Extent) :
    (denseStridesCount dims).2 = .ofNat (dims.map (Extent.value fun _ => 1)).prod := by
  induction dims with
  | nil => rfl
  | cons d dims ih =>
    rw [List.map_cons, List.prod_cons]
    cases d with
    | static n =>
      rw [denseStridesCount_cons, Extent.value]
      split
      · next h => rw [ih, h, Nat.one_mul]
      · rw [ih, Nat.mul_comm, Int64.ofNat_mul]
    | symbolic name => rw [denseStridesCount_symbolic, Extent.value, Nat.one_mul, ih]

/-- The dense stride of an axis is its weight, a symbol counting as one. -/
theorem getElem?_denseStrides (dims : List Extent) (a : Nat) :
    (denseStrides dims)[a]? = dims[a]?.map fun d => if d = .static 1 then 0
      else .ofNat (weight (dims.map (Extent.value fun _ => 1)) a) := by
  induction dims generalizing a with
  | nil => rfl
  | cons d dims ih =>
    cases a with
    | zero =>
      have hweight : weight ((d :: dims).map (Extent.value fun _ => 1)) 0
          = (dims.map (Extent.value fun _ => 1)).prod := by
        simp [weight]
      rw [List.getElem?_cons_zero, Option.map_some, hweight, ← denseStridesCount_eq_value]
      cases d with
      | static n =>
        rw [denseStrides, denseStridesCount_cons]
        simp only [Extent.static.injEq]
        split <;> rfl
      | symbolic name =>
        have hne : Extent.symbolic name ≠ .static 1 := by simp
        rw [denseStrides, denseStridesCount_symbolic, if_neg hne]
        rfl
    | succ a =>
      have htail : (denseStrides (d :: dims))[a + 1]? = (denseStrides dims)[a]? := by
        cases d with
        | static n =>
          rw [denseStrides, denseStridesCount_cons]
          split <;> rfl
        | symbolic name => rfl
      rw [htail, ih]
      simp [weight]

/-- Counts below the range of a word are told apart by their words. -/
theorem ofNat_inj_of_lt {m n : Nat} (hm : m < 2 ^ 64) (hn : n < 2 ^ 64)
    (h : Int64.ofNat m = .ofNat n) : m = n := by
  have hbits : BitVec.ofNat 64 m = BitVec.ofNat 64 n := by
    rw [← Int64.toBitVec_ofNat', ← Int64.toBitVec_ofNat', h]
  have hnat := congrArg BitVec.toNat hbits
  rwa [BitVec.toNat_ofNat, BitVec.toNat_ofNat, Nat.mod_eq_of_lt hm, Nat.mod_eq_of_lt hn] at hnat

/-- Unit axes of a view have no stride to set to zero. -/
theorem zeroUnits_of_units {dims : List Extent} {strides : List Int64}
    (h : List.Forall₂ (fun d s => d = .static 1 → s = 0) dims strides) :
    ((dims.zip strides).map fun (d, s) => if d = .static 1 then 0 else s) = strides := by
  induction h with
  | nil => rfl
  | @cons d s dims strides hd _ ih =>
    rw [List.zip_cons_cons, List.map_cons, ih]
    congr 1
    by_cases h : d = .static 1
    · exact (if_pos h).trans (hd h).symm
    · exact if_neg h

/-! ## Repeated axes -/

/-- Repeated unit axes that are repeated once more count from the first ones. -/
theorem zipWith_repeated {ds es : List Extent}
    (h : List.Forall₂ (fun d e => d = e ∨ d = .static 1) ds es) (σ : String → Nat) (p : List Nat) :
    List.zipWith (fun n i => if n = 1 then 0 else i) (ds.map (Extent.value σ))
        (List.zipWith (fun n i => if n = 1 then 0 else i) (es.map (Extent.value σ)) p)
      = List.zipWith (fun n i => if n = 1 then 0 else i) (ds.map (Extent.value σ)) p := by
  induction h generalizing p with
  | nil => rfl
  | @cons d e ds es hde _ ih =>
    cases p with
    | nil => rfl
    | cons i p =>
      simp only [List.map_cons, List.zipWith_cons_cons, ih]
      congr 1
      rcases hde with rfl | rfl
      · split <;> rfl
      · rfl

/-- The coordinate of a unit axis is zero anyway. -/
theorem zipWith_of_inside {dims p : List Nat} (h : Inside dims p) :
    List.zipWith (fun n i => if n = 1 then 0 else i) dims p = p := by
  induction h with
  | nil => rfl
  | @cons n i dims p hi _ ih =>
    rw [List.zipWith_cons_cons, ih]
    split
    · next hn =>
      obtain rfl : i = 0 := by omega
      rfl
    · rfl

/-! ## Movements of a dense tracker -/

namespace Tracker

/-- The tracker `t` comes from the dense tracker of `s` by permutations and repetitions: each of its
axes is one of `s`, and each of its positions shows the one of `s` that `back` says. -/
structure Carried (s : Shape) (back : (String → Nat) → List Nat → List Nat) (axes : List Nat)
    (t : Tracker) : Prop where
  /-- The topmost view is in canonical form. -/
  proper : t.top.Proper
  /-- Every position is visible. -/
  mask : t.top.mask = none
  /-- Each axis of `s` is there once. -/
  perm : axes.Perm (List.range s.rank)
  /-- Each axis has the stride that it has in `s`. -/
  strides : t.top.strides = View.pick (denseStrides s.dims) axes
  /-- Each axis has the extent that it has in `s`, unless it is a unit axis that is repeated. -/
  repeats : List.Forall₂ (fun d e => d = e ∨ d = .static 1) (View.pick s.dims axes) t.shape.dims
  /-- The position of `s` has the same coordinates, but for those of repeated axes. -/
  places : ∀ σ p, Inside (t.shape.values σ) p → Inside (s.values σ) (back σ p)
    ∧ View.pick (back σ p) axes
      = List.zipWith (fun n i => if n = 1 then 0 else i) (View.pick (s.values σ) axes) p

variable {s : Shape} {back : (String → Nat) → List Nat → List Nat} {axes : List Nat}
  {t t' : Tracker}

namespace Carried

theorem lt_rank (h : Carried s back axes t) : ∀ a ∈ axes, a < s.dims.length :=
  fun _ ha => List.mem_range.mp (h.perm.mem_iff.mp ha)

theorem length_dims (h : Carried s back axes t) : t.shape.dims.length = axes.length := by
  rw [← h.repeats.length_eq, length_pick h.lt_rank]

/-- The dense tracker itself. -/
theorem start (s : Shape) : Carried s (fun _ p => p) (List.range s.rank) (ofShape s) where
  proper := View.proper_ofShape s
  mask := rfl
  perm := .refl _
  strides := by
    rw [Shape.rank, ← length_denseStrides, View.pick_range, ofShape, View.ofShape_eq]
  repeats := by
    rw [Shape.rank, View.pick_range, shape_ofShape]
    exact List.forall₂_same.mpr fun d _ => .inl rfl
  places σ p hp := by
    rw [shape_ofShape] at hp
    have hrank : s.rank = (s.values σ).length := by simp [Shape.values, Shape.rank]
    refine ⟨hp, ?_⟩
    rw [hrank, View.pick_range, ← hp.length_eq, View.pick_range, zipWith_of_inside hp]

/-- A permutation carries the axes along. -/
theorem permute (h : Carried s back axes t) {order : List Nat}
    (hmove : t.move (.permute order) = .ok t') :
    Carried s (fun σ p => back σ ((Movement.permute order).source (t.shape.values σ) p))
      (View.pick axes order) t' := by
  obtain ⟨top, htop, rfl⟩ := map_setTop_eq_ok.mp hmove
  have hproper := h.proper.permute htop
  obtain ⟨hrank, hlt, hnodup, -, rfl⟩ := View.permute_eq_ok.mp htop
  have hlen : order.length = t.shape.dims.length := hrank
  have hlt : ∀ i ∈ order, i < axes.length := by rwa [← h.length_dims, ← hlen]
  have horder : order.Perm (List.range axes.length) :=
    View.perm_range hnodup hlt (hlen.trans h.length_dims)
  have hstrides : View.pick t.top.strides order
      = View.pick (denseStrides s.dims) (View.pick axes order) := by
    rw [h.strides, View.pick_pick (by simpa [length_denseStrides] using h.lt_rank)]
  rw [h.mask] at hproper ⊢
  constructor
  case proper => exact hproper
  case mask => rfl
  case perm =>
    have hpick := View.pick_perm horder axes
    rw [View.pick_range] at hpick
    exact hpick.trans h.perm
  case strides =>
    rw [← hstrides]
    exact zeroUnits_of_units (forall₂_pick h.proper.units)
  case repeats =>
    rw [← View.pick_pick h.lt_rank]
    exact forall₂_pick h.repeats
  case places =>
    intro σ p hp
    -- a position comes from the one whose coordinates it permutes
    have hvalues : (⟨View.pick t.shape.dims order⟩ : Shape).values σ
        = View.pick (t.shape.values σ) order := View.pick_map .. |>.symm
    have hp : Inside (View.pick (t.shape.values σ) order) p := hvalues ▸ hp
    have hlenσ : (t.shape.values σ).length = axes.length := by
      rw [Shape.values, List.length_map, h.length_dims]
    have hsource := View.inside_permuted (hlenσ ▸ horder) hp
    obtain ⟨hinside, hpick⟩ := h.places σ _ hsource
    refine ⟨hinside, ?_⟩
    have hplen : p.length = order.length := by
      rw [hp.length_eq, length_pick (by rwa [hlenσ])]
    have hback := View.pick_permuted (hlenσ ▸ horder) hplen
    have hlts : ∀ a ∈ axes, a < (s.values σ).length := by
      simpa [Shape.values] using h.lt_rank
    have hlens : (View.pick (s.values σ) axes).length
        = ((Movement.permute order).source (t.shape.values σ) p).length := by
      rw [length_pick hlts, hsource.length_eq, hlenσ]
    rw [← View.pick_pick (by rwa [hinside.length_eq]), hpick, View.pick_zipWith _ hlens, hback,
      View.pick_pick hlts]

/-- A repetition of unit axes leaves the axes where they are. -/
theorem expand (h : Carried s back axes t) {target : Shape}
    (hmove : t.move (.expand target) = .ok t') :
    Carried s (fun σ p => back σ ((Movement.expand target).source (t.shape.values σ) p)) axes
      t' := by
  obtain ⟨top, htop, rfl⟩ := map_setTop_eq_ok.mp hmove
  have hproper := h.proper.expand htop
  obtain ⟨hrank, spans, hrepeat, -, rfl⟩ := View.expand_eq_ok.mp htop
  have hforall := View.forall₂_of_repeatSpans (by rw [← Shape.rank, ← Shape.rank, hrank]) hrepeat
  rw [h.mask] at hproper ⊢
  -- an axis that is a unit axis now was one before
  have hunits : List.Forall₂ (fun d s => d = .static 1 → s = 0) target.dims t.top.strides := by
    have hback : List.Forall₂ (fun e d => d = e ∨ d = .static 1) target.dims t.shape.dims :=
      hforall.flip
    refine (forall₂_comp hback h.proper.units).imp ?_
    rintro e s ⟨d, rfl | hd, hs⟩ he
    · exact hs he
    · exact hs hd
  constructor
  case proper => exact hproper
  case mask => rfl
  case perm => exact h.perm
  case strides =>
    rw [← h.strides]
    exact zeroUnits_of_units hunits
  case repeats =>
    refine (forall₂_comp h.repeats hforall).imp ?_
    rintro d e ⟨_, rfl | hd, hde⟩
    · exact hde
    · exact .inr hd
  case places =>
    intro σ p hp
    have hvalues : List.Forall₂ (fun n m => n = m ∨ n = 1) (t.shape.values σ) (target.values σ) := by
      rw [Shape.values, Shape.values, List.forall₂_map_left_iff, List.forall₂_map_right_iff]
      refine hforall.imp ?_
      rintro d e (rfl | rfl)
      · exact .inl rfl
      · exact .inr rfl
    obtain ⟨hinside, hpick⟩ := h.places σ _ (View.inside_repeated hvalues hp)
    refine ⟨hinside, hpick.trans ?_⟩
    rw [Shape.values, View.pick_map]
    exact zipWith_repeated h.repeats σ p

/-! ### Contiguous trackers -/

/-- Each axis of a contiguous tracker has the stride of a dense store, and that of its axis in `s`. -/
theorem strides_eq (h : Carried s back axes t) (hcontiguous : t.contiguous = true) :
    View.pick (denseStrides s.dims) axes = denseStrides t.shape.dims := by
  rw [← h.strides, eq_ofShape hcontiguous, shape_ofShape, ofShape, View.ofShape_eq]

/-- No axis of a contiguous tracker is repeated: along a repeated axis there is nothing to go, but
along the axes of a dense store there is. -/
theorem dims_eq (h : Carried s back axes t) (hcontiguous : t.contiguous = true)
    (hpos : 0 < t.shape.knownCount) (hlt : t.shape.knownCount < 2 ^ 64) :
    t.shape.dims = View.pick s.dims axes := by
  have hunits : List.Forall₂ (fun d s => d = .static 1 → s = 0) (View.pick s.dims axes)
      (View.pick (denseStrides s.dims) axes) := by
    refine forall₂_pick ?_
    have hproper := (View.proper_ofShape s).units
    rwa [View.ofShape_eq] at hproper
  rw [h.strides_eq hcontiguous] at hunits
  refine List.ext_getElem h.repeats.length_eq.symm fun i hi hi' => ?_
  rcases h.repeats.get hi' hi with heq | hunit
  · exact heq.symm
  · by_contra hne
    have hi'' : i < (denseStrides t.shape.dims).length := by rwa [length_denseStrides]
    have hzero : (denseStrides t.shape.dims)[i] = 0 := hunits.get hi' hi'' hunit
    have hstride : (denseStrides t.shape.dims)[i]?
        = some (.ofNat (weight (t.shape.values fun _ => 1) i)) := by
      rw [getElem?_denseStrides, List.getElem?_eq_getElem hi, Option.map_some, if_neg]
      · rfl
      · rintro hone
        exact hne (hone.trans hunit.symm)
    rw [List.getElem?_eq_getElem hi'', hzero] at hstride
    have hle : weight (t.shape.values fun _ => 1) i ≤ t.shape.knownCount := weight_le hpos i
    have hstride : Int64.ofNat 0 = .ofNat (weight (t.shape.values fun _ => 1) i) :=
      Option.some.inj hstride
    have hweight := ofNat_inj_of_lt (by omega) (by omega) hstride
    exact absurd hweight (weight_pos hpos i).ne

theorem values_eq (hdims : t.shape.dims = View.pick s.dims axes) (σ : String → Nat) :
    t.shape.values σ = View.pick (s.values σ) axes := by
  rw [Shape.values, hdims, Shape.values, View.pick_map]

theorem knownCount_eq (h : Carried s back axes t) (hdims : t.shape.dims = View.pick s.dims axes)
    (σ : String → Nat) : (t.shape.values σ).prod = (s.values σ).prod := by
  have hrank : s.rank = (s.values σ).length := by simp [Shape.values, Shape.rank]
  rw [values_eq hdims, (View.pick_perm h.perm (s.values σ)).prod_eq, hrank, View.pick_range]

/-- An axis of a contiguous tracker weighs what its axis in `s` weighs, a symbol counting as one. -/
theorem weight_eq (h : Carried s back axes t) (hcontiguous : t.contiguous = true)
    (hpos : 0 < t.shape.knownCount) (hlt : t.shape.knownCount < 2 ^ 64) {i a : Nat}
    (ha : axes[i]? = some a) {d : Extent} (hd : s.dims[a]? = some d) (hunit : d ≠ .static 1) :
    weight (s.values fun _ => 1) a = weight (t.shape.values fun _ => 1) i := by
  have hdims := h.dims_eq hcontiguous hpos hlt
  have hcount : (s.values fun _ => 1).prod = t.shape.knownCount :=
    (h.knownCount_eq hdims fun _ => 1).symm
  have hi : t.shape.dims[i]? = some d := by
    rw [hdims, View.getElem?_pick h.lt_rank, ha]
    exact hd
  have hold : (View.pick (denseStrides s.dims) axes)[i]?
      = some (.ofNat (weight (s.values fun _ => 1) a)) := by
    rw [View.getElem?_pick (by simpa [length_denseStrides] using h.lt_rank), ha, Option.bind_some,
      getElem?_denseStrides, hd, Option.map_some, if_neg hunit]
    rfl
  have hnew : (denseStrides t.shape.dims)[i]?
      = some (.ofNat (weight (t.shape.values fun _ => 1) i)) := by
    rw [getElem?_denseStrides, hi, Option.map_some, if_neg hunit]
    rfl
  rw [h.strides_eq hcontiguous, hnew] at hold
  have hle := weight_le (hcount ▸ hpos) a
  have hle' := weight_le hpos i
  exact ofNat_inj_of_lt (by omega) (Nat.lt_of_le_of_lt hle' hlt) (Option.some.inj hold).symm

/-- If the symbolic axes keep their order, so do all axes with more than one coordinate. -/
theorem keepsNonunits (h : Carried s back axes t) (hcontiguous : t.contiguous = true)
    (hpos : 0 < t.shape.knownCount) (hlt : t.shape.knownCount < 2 ^ 64) (hkeeps : s.KeepsSymbols axes)
    (σ : String → Nat) :
    (axes.filter fun a => (s.values σ)[a]?.any (· ≠ 1)).Pairwise (· < ·) := by
  have hdims := h.dims_eq hcontiguous hpos hlt
  have hrank : s.rank = (s.values fun _ => 1).length := by simp [Shape.values, Shape.rank]
  have hcount : 0 < (s.values fun _ => 1).prod := by
    rw [← h.knownCount_eq hdims]
    exact hpos
  have hnodup : axes.Nodup := h.perm.nodup_iff.mpr List.nodup_range
  rw [Shape.KeepsSymbols, List.pairwise_filter, List.pairwise_iff_getElem] at hkeeps
  refine pairwise_filter_of_inversions hnodup fun i j hi hj hij hlt' hx hy => ?_
  -- both axes have one coordinate where a symbol counts as one, so both are symbolic
  obtain ⟨d, hd⟩ : ∃ d, s.dims[axes[i]]? = some d :=
    ⟨_, List.getElem?_eq_getElem (h.lt_rank _ (List.getElem_mem hi))⟩
  obtain ⟨e, he⟩ : ∃ e, s.dims[axes[j]]? = some e :=
    ⟨_, List.getElem?_eq_getElem (h.lt_rank _ (List.getElem_mem hj))⟩
  have hdunit : d ≠ .static 1 := by
    rintro rfl
    simp [Shape.values, hd, Extent.value] at hx
  have heunit : e ≠ .static 1 := by
    rintro rfl
    simp [Shape.values, he, Extent.value] at hy
  have hweights := units_of_inversion hcount (hrank ▸ h.perm) hij (List.getElem?_eq_getElem hj) hlt'
    (m := d.value fun _ => 1) (n := e.value fun _ => 1) (by simp [Shape.values, hd])
    (by simp [Shape.values, he])
    (by rw [← values_eq hdims]
        exact h.weight_eq hcontiguous hpos hlt (List.getElem?_eq_getElem hi) hd hdunit)
    (by rw [← values_eq hdims]
        exact h.weight_eq hcontiguous hpos hlt (List.getElem?_eq_getElem hj) he heunit)
  have hsymbolic {d : Extent} (hone : (d.value fun _ => 1) = 1) (hunit : d ≠ .static 1) :
      d.static? = none := by
    cases d with
    | static n => exact absurd (congrArg Extent.static hone) hunit
    | symbolic name => rfl
  refine absurd (hkeeps i j hi hj hij ?_ ?_) hlt'.not_gt
  · simp [Shape.isSymbolicAt, hd, hsymbolic hweights.1 hdunit]
  · simp [Shape.isSymbolicAt, he, hsymbolic hweights.2 heunit]

/-- The position of `s` that a position shows has the same coordinates. -/
theorem pick_back (h : Carried s back axes t) (hdims : t.shape.dims = View.pick s.dims axes)
    {σ : String → Nat} {p : List Nat} (hp : Inside (t.shape.values σ) p) :
    View.pick (back σ p) axes = p := by
  rw [(h.places σ p hp).2, ← values_eq hdims, zipWith_of_inside hp]

/-- If the axes with more than one coordinate keep their order, positions are shown in row-major
order. -/
theorem ravel_back (h : Carried s back axes t) (hdims : t.shape.dims = View.pick s.dims axes)
    {σ : String → Nat}
    (hsorted : (axes.filter fun a => (s.values σ)[a]?.any (· ≠ 1)).Pairwise (· < ·)) {p : List Nat}
    (hp : Inside (t.shape.values σ) p) :
    ravel (s.values σ) (back σ p) = ravel (t.shape.values σ) p := by
  have hrank : s.rank = (s.values σ).length := by simp [Shape.values, Shape.rank]
  rw [← ravel_pick (h.places σ p hp).1 (hrank ▸ h.perm) hsorted, h.pick_back hdims hp,
    values_eq hdims]

/-- If positions are shown in row-major order, an axis with more than one coordinate weighs what its
axis in `s` weighs. -/
theorem weight_eq_of_ravel_back (h : Carried s back axes t)
    (hdims : t.shape.dims = View.pick s.dims axes) {σ : String → Nat}
    (hpos : 0 < (t.shape.values σ).prod)
    (hback : ∀ p, Inside (t.shape.values σ) p →
      ravel (s.values σ) (back σ p) = ravel (t.shape.values σ) p)
    {i a n : Nat} (ha : axes[i]? = some a) (hn : (s.values σ)[a]? = some n) (hmany : 1 < n) :
    weight (s.values σ) a = weight (t.shape.values σ) i := by
  have hrank : s.rank = (s.values σ).length := by simp [Shape.values, Shape.rank]
  have hperm : axes.Perm (List.range (s.values σ).length) := hrank ▸ h.perm
  have hlt : ∀ b ∈ axes, b < (s.values σ).length := fun b hb => List.mem_range.mp (hperm.mem_iff.mp hb)
  have hlen : (t.shape.values σ).length = (s.values σ).length := by
    rw [values_eq hdims, length_pick hlt, hperm.length_eq, List.length_range]
  have hi : (t.shape.values σ)[i]? = some n := by
    rw [values_eq hdims, View.getElem?_pick hlt, ha]
    exact hn
  have hstep := inside_step hpos hi hmany
  -- the step along the axis comes from the step along its axis in `s`
  have hsource : back σ (step (t.shape.values σ).length i) = step (s.values σ).length a := by
    have hinside := (h.places σ _ hstep).1
    refine View.eq_of_pick_eq (hinside.length_eq ▸ hperm) ?_ ?_
    · rw [length_step, hinside.length_eq]
    · rw [h.pick_back hdims hstep, pick_step hperm ha, hlen]
  calc weight (s.values σ) a = ravel (s.values σ) (step (s.values σ).length a) :=
        (ravel_step (hlt a (List.mem_of_getElem? ha))).symm
    _ = ravel (t.shape.values σ) (step (t.shape.values σ).length i) := by
        rw [← hsource, hback _ hstep]
    _ = weight (t.shape.values σ) i := ravel_step (List.getElem?_eq_some_iff.mp hi).1

/-- If positions are shown in row-major order, at least where symbols stand for two, the symbolic axes
keep their order. -/
theorem keepsSymbols (h : Carried s back axes t) (hdims : t.shape.dims = View.pick s.dims axes)
    (hpos : 0 < (t.shape.values fun _ => 2).prod)
    (hback : ∀ p, Inside (t.shape.values fun _ => 2) p →
      ravel (s.values fun _ => 2) (back (fun _ => 2) p) = ravel (t.shape.values fun _ => 2) p) :
    s.KeepsSymbols axes := by
  have hrank : s.rank = (s.values fun _ => 2).length := by simp [Shape.values, Shape.rank]
  have hnodup : axes.Nodup := h.perm.nodup_iff.mpr List.nodup_range
  have hvalue {a : Nat} (ha : s.isSymbolicAt a = true) : (s.values fun _ => 2)[a]? = some 2 := by
    obtain ⟨d, hd, hsymbolic⟩ := Option.any_eq_true .. |>.mp ha
    rw [Shape.values, List.getElem?_map, hd]
    cases d with
    | static n => cases hsymbolic
    | symbolic name => rfl
  refine pairwise_filter_of_inversions hnodup fun i j hi hj hij hlt' hx hy => ?_
  have hcount : 0 < (s.values fun _ => 2).prod := by rwa [← h.knownCount_eq hdims]
  have hi' := h.weight_eq_of_ravel_back hdims hpos hback (List.getElem?_eq_getElem hi) (hvalue hx)
    Nat.one_lt_two
  have hj' := h.weight_eq_of_ravel_back hdims hpos hback (List.getElem?_eq_getElem hj) (hvalue hy)
    Nat.one_lt_two
  rw [values_eq hdims] at hi' hj'
  have htwo := units_of_inversion hcount (hrank ▸ h.perm) hij (List.getElem?_eq_getElem hj) hlt'
    (hvalue hx) (hvalue hy) hi' hj'
  omega

end Carried

/-- Each of the movements carries the axes along. -/
theorem carried_run {moves : List Movement} (hmoves : ∀ m ∈ moves, m.admitsSymbols = true)
    (hrun : moves.foldlM move (ofShape s) = .ok t) :
    Carried s (fun σ => origin σ (ofShape s) moves)
      (moves.foldl Movement.carry (List.range s.rank)) t := by
  induction moves using List.reverseRecOn generalizing t with
  | nil =>
    obtain rfl : ofShape s = t := Except.ok.inj hrun
    exact .start s
  | append_singleton moves m ih =>
    rw [List.foldlM_append] at hrun
    obtain ⟨t₀, hfirst, hlast⟩ := bind_eq_ok.mp hrun
    rw [List.foldlM_cons] at hlast
    obtain ⟨t₁, hmove, hnil⟩ := bind_eq_ok.mp hlast
    obtain rfl : t₁ = t := Except.ok.inj hnil
    have h := ih (fun m' hm' => hmoves m' (List.mem_append_left _ hm')) hfirst
    have horigin : (fun σ => origin σ (ofShape s) (moves ++ [m]))
        = fun σ p => origin σ (ofShape s) moves (m.source (t₀.shape.values σ) p) :=
      funext fun σ => funext fun p => origin_snoc hfirst hmove σ p
    rw [horigin, List.foldl_append]
    have hm := hmoves m (by simp)
    cases m with
    | permute order => exact h.permute hmove
    | expand target => exact h.expand hmove
    | reshape | shrink | stride | pad => cases hm

/-- Permutations and repetitions of unit axes have led to a contiguous tracker, and signed words count
the elements of its known axes. Then it shows its store in row-major order, whatever the symbols
stand for, exactly if the symbolic axes come in their order, or no element is there. -/
theorem contiguous_iff_keepsSymbols {s : Shape} {moves : List Movement} {t : Tracker}
    (hmoves : ∀ m ∈ moves, m.admitsSymbols = true) (hrun : moves.foldlM move (ofShape s) = .ok t)
    (hcontiguous : t.contiguous = true) (hlt : t.shape.knownCount < 2 ^ 64) :
    (∀ σ : String → Nat, (∀ name, 0 < σ name) → ∀ flat < (t.shape.values σ).prod,
      ravel (s.values σ) (origin σ (ofShape s) moves (unravel (t.shape.values σ) flat)) = flat)
    ↔ t.shape.knownCount = 0 ∨ s.KeepsSymbols (moves.foldl Movement.carry (List.range s.rank)) := by
  have h := carried_run hmoves hrun
  generalize moves.foldl Movement.carry (List.range s.rank) = axes at h ⊢
  constructor
  · intro hrow
    rcases Nat.eq_zero_or_pos t.shape.knownCount with hzero | hpos
    · exact .inl hzero
    · right
      have htwo : 0 < (t.shape.values fun _ => 2).prod :=
        Nat.pos_of_ne_zero fun hzero =>
          hpos.ne' ((Shape.knownCount_eq_zero fun _ => Nat.two_pos).mpr hzero)
      refine h.keepsSymbols (h.dims_eq hcontiguous hpos hlt) htwo fun p hp => ?_
      have hflat := hrow (fun _ => 2) (fun _ => Nat.two_pos) _ (ravel_lt hp)
      rwa [unravel_ravel hp] at hflat
  · intro hkeeps σ hσ flat hflat
    have hpos : 0 < t.shape.knownCount := by
      refine Nat.pos_of_ne_zero fun hzero => ?_
      rw [(Shape.knownCount_eq_zero hσ).mp hzero] at hflat
      exact Nat.not_lt_zero _ hflat
    have hkeeps := hkeeps.resolve_left hpos.ne'
    have hinside := inside_unravel (Nat.zero_lt_of_lt hflat) flat
    rw [h.ravel_back (h.dims_eq hcontiguous hpos hlt)
      (h.keepsNonunits hcontiguous hpos hlt hkeeps σ) hinside, ravel_unravel hflat]

/-- A unit axis may change places with a symbolic one. -/
theorem contiguous_iff_keepsSymbols_movedUnit :
    ∃ t, [Movement.permute [1, 0, 2]].foldlM move
        (ofShape ⟨[.static 1, .symbolic "n", .static 2]⟩) = .ok t
      ∧ t.contiguous = true
      ∧ ∀ σ : String → Nat, (∀ name, 0 < σ name) → ∀ flat < (t.shape.values σ).prod,
        ravel (Shape.values ⟨[.static 1, .symbolic "n", .static 2]⟩ σ)
          (origin σ (ofShape ⟨[.static 1, .symbolic "n", .static 2]⟩) [.permute [1, 0, 2]]
            (unravel (t.shape.values σ) flat)) = flat := by
  refine ⟨ofShape ⟨[.symbolic "n", .static 1, .static 2]⟩, by decide, by decide, ?_⟩
  exact (contiguous_iff_keepsSymbols (by decide) (by decide) (by decide) (by decide)).mpr
    (.inr (by decide))

/-- Two symbolic axes that change places leave a contiguous tracker, which does not show the elements
in row-major order where the symbols stand for two and three. -/
theorem contiguous_transposed :
    ∃ t, [Movement.permute [1, 0]].foldlM move (ofShape ⟨[.symbolic "n", .symbolic "m"]⟩) = .ok t
      ∧ t.contiguous = true
      ∧ ¬∀ σ : String → Nat, (∀ name, 0 < σ name) → ∀ flat < (t.shape.values σ).prod,
        ravel (Shape.values ⟨[.symbolic "n", .symbolic "m"]⟩ σ)
          (origin σ (ofShape ⟨[.symbolic "n", .symbolic "m"]⟩) [.permute [1, 0]]
            (unravel (t.shape.values σ) flat)) = flat := by
  refine ⟨ofShape ⟨[.symbolic "m", .symbolic "n"]⟩, by decide, by decide, fun h => ?_⟩
  have hflat := h (fun name => if name = "n" then 2 else 3) (fun name => by split <;> omega)
    1 (by decide)
  revert hflat
  decide

/-- Axes with the same symbol that change places even leave the tracker as it was. -/
example : (ofShape ⟨[.symbolic "n", .symbolic "n"]⟩).move (.permute [1, 0])
    = .ok (ofShape ⟨[.symbolic "n", .symbolic "n"]⟩) := by decide

end Tracker

end TensorGraph
