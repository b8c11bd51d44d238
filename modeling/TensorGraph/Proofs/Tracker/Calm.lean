import TensorGraph.Proofs.Tracker.Simplify
/-!
# Places found inside the words

The place of a position is summed up axis by axis. A view that hides nothing walks from place to place of
the store on the way, which stays inside the words if the store does. A view that hides positions may
step far beyond the store along a margin, and come back along another axis, so its positions have to be
near by themselves.

- `View.Made.indexFits`: places inside a store are found inside the words.
- `View.Near.reshape?`: a reshape does not take hidden positions farther away.
- `Tracker.Calm`, `Tracker.Calm.reshape`: trackers of moderate shapes whose hidden positions are near.
- `Tracker.Over.found`: such trackers find all their positions once their views are merged.
-/

namespace TensorGraph

/-! ## Sums on the way to a place -/

theorem dot_zeros (dims : List Nat) (strides : List Int64) : dot (dims.map fun _ => 0) strides = 0 := by
  induction dims generalizing strides with
  | nil => rfl
  | cons n dims ih =>
    cases strides with
    | nil => rfl
    | cons s strides =>
      rw [List.map_cons, dot_cons, ih]
      simp

/-- If no corner of a box lies outside the first half of the words, nothing does that is computed on the
way to the place of one of its positions. -/
theorem runningResults_inside {dims p : List Nat} {strides : List Int64} {start : Int}
    (h : ∀ q, Inside dims q → 0 ≤ start + reach q strides ∧ start + reach q strides < 2 ^ 63)
    (hp : Inside dims p) :
    (runningResults (· + ·) start (List.zipWith (fun i (s : Int64) => residue i * s.toInt) p strides)).all
      fitsWord = true := by
  induction hp generalizing strides start with
  | nil => rfl
  | @cons n i dims p hi hp ih =>
    cases strides with
    | nil => rfl
    | cons s strides =>
      have hzeros := inside_zeros (Inside.prod_pos hp)
      have hfirst := h _ (.cons (Nat.zero_lt_of_lt hi) hzeros)
      have hlast := h _ (.cons hi hzeros)
      simp only [reach, reach_zeros, Int.natCast_zero, Int.zero_mul, Int.add_zero] at hfirst hlast
      -- a coordinate that is no signed word only goes along an axis without a stride
      have hstep : residue i * s.toInt = i * s.toInt := by
        by_cases hs : s.toInt = 0
        · rw [hs, Int.mul_zero, Int.mul_zero]
        · have hle : i ≤ (i * s.toInt).natAbs := by
            rw [Int.natAbs_mul, Int.natAbs_natCast]
            exact Nat.le_mul_of_pos_right i (Int.natAbs_pos.mpr hs)
          rw [residue_eq (by omega)]
      rw [List.zipWith_cons_cons, runningResults, List.all_cons, List.all_cons, hstep,
        fitsWord_of_natAbs (by omega), fitsWord_of_natAbs (by omega), ih fun q hq => ?_]
      · rfl
      · have hcorner := h (i :: q) (.cons hi hq)
        rwa [reach, ← Int.add_assoc] at hcorner

/-! ## Views -/

theorem stretch_insertUnits (dims : List Nat) (strides : List Int64) :
    stretch dims (insertUnits 0 dims strides) = stretch (dropUnits dims dims) strides := by
  induction dims generalizing strides with
  | nil => rfl
  | cons n dims ih =>
    by_cases hn : n = 1
    · subst hn
      rw [insertUnits_one, dropUnits_one, stretch_cons, ih]
      simp
    · rw [dropUnits_of_ne hn]
      cases strides with
      | nil =>
        have hrest := ih []
        rw [stretch_nil_right] at hrest ⊢
        simp only [insertUnits, hn, if_false, stretch_cons, hrest]
        simp
      | cons s strides => rw [insertUnits_of_ne hn, stretch_cons, stretch_cons, ih]

theorem stretch_dropUnits_le (dims : List Nat) (strides : List Int64) :
    stretch (dropUnits dims dims) (dropUnits dims strides) ≤ stretch dims strides := by
  induction dims generalizing strides with
  | nil => exact Nat.le_refl 0
  | cons n dims ih =>
    cases strides with
    | nil => simp [dropUnits]
    | cons s strides =>
      by_cases hn : n = 1
      · subst hn
        rw [dropUnits_one, dropUnits_one, stretch_cons]
        exact (ih strides).trans (Nat.le_add_left _ _)
      · rw [dropUnits_of_ne hn, dropUnits_of_ne hn, stretch_cons, stretch_cons]
        exact Nat.add_le_add_left (ih strides) _

namespace View

variable {v w : View} {dims : List Nat} {n : Nat} {target : Shape}

/-- The places of a view that hides nothing are found inside the words, if they lie inside a store whose
places are words. -/
theorem Made.indexFits (hv : v.Made dims) (hstays : v.StaysIn dims n) (hn : n ≤ 2 ^ 63)
    (hmask : v.mask = none) {p : List Nat} (hp : Inside dims p) : v.indexFits p = true := by
  obtain ⟨origin, horigin⟩ :=
    hv.exact_of_nonneg fun q place hq hplace => (hstays q place hq hplace).1
  have hplace (q : List Nat) (hq : Inside dims q) :
      0 ≤ origin + reach q v.strides ∧ origin + reach q v.strides < n := by
    have hindex := index_unmasked hmask q
    rw [← horigin q _ hq hindex]
    exact hstays q _ hq hindex
  have horigin : origin = v.offset.toInt := by
    have hfirst := horigin _ _ (inside_zeros hp.prod_pos) (index_unmasked hmask _)
    rw [reach_zeros, Int.add_zero, dot_zeros, Int64.add_zero] at hfirst
    exact hfirst.symm
  rw [View.indexFits, placeSums, ← horigin, runningResults_inside (fun q hq => ?_) hp, Bool.or_true]
  have := hplace q hq
  omega

/-- A reshape does not take hidden positions farther away. -/
theorem Near.reshape? (hv : v.mask = none ∨ v.Near) (hw : v.reshape? target = some w) :
    w.mask = none ∨ w.Near := by
  obtain ⟨old, new, hold, hnew, -, ⟨-, rfl⟩ | ⟨-, hunits, rfl⟩ | ⟨-, -, strides, -, rfl⟩⟩ :=
    reshape?_eq_some hw
  · exact .inl rfl
  · rcases hv with hmask | ⟨dims, hdims, hspread⟩
    · exact .inl (by rw [hmask]; rfl)
    · obtain rfl := Option.some.inj (hold.symm.trans hdims)
      refine .inr ⟨new, by rw [create_shape, hnew], lt_of_le_of_lt ?_ hspread⟩
      refine (spread_create_le ..).trans (Nat.add_le_add_left ?_ _)
      rw [stretch_insertUnits, ← hunits]
      exact stretch_dropUnits_le old v.strides
  · exact .inl rfl

end View

namespace Tracker

variable {t t' : Tracker} {shape target : Shape} {dims : List Nat} {n : Nat}

/-- Once its views are merged, the tracker finds the places of all its positions inside the words. -/
def Found (t : Tracker) (dims : List Nat) : Prop :=
  ∀ flat < dims.prod, t.simplify.lookup flat = .ok (t.simplify.locate flat)

/-! ## Calm trackers -/

/-- All views are of moderate shapes, and where one of them hides something, no position is too far
away. -/
structure Calm (t : Tracker) : Prop where
  /-- The shapes. -/
  moderate : t.Moderate
  /-- The views that hide something. -/
  near : ∀ v ∈ t.stack, v.mask = none ∨ v.Near

instance (t : Tracker) : Decidable t.Calm :=
  decidable_of_iff (t.Moderate ∧ ∀ v ∈ t.stack, v.mask = none ∨ v.Near)
    ⟨fun h => ⟨h.1, h.2⟩, fun h => ⟨h.moderate, h.near⟩⟩

theorem calm_ofShape (h : shape.Moderate) : (ofShape shape).Calm :=
  ⟨moderate_ofShape h, List.forall_mem_singleton.mpr (.inl rfl)⟩

theorem Calm.reshape (ht : t.Calm) (htarget : target.Moderate) (h : t.reshape target = .ok t') :
    t'.Calm := by
  refine ⟨ht.moderate.reshape htarget h, ?_⟩
  obtain ⟨htop, hbelow⟩ := List.forall_mem_cons.mp ht.near
  rcases reshape_eq_ok.mp h with ⟨-, rfl⟩ | ⟨-, -, -, ⟨top, hreshape, rfl⟩ | ⟨-, rfl⟩⟩
  · exact ht.near
  · exact List.forall_mem_cons.mpr ⟨View.Near.reshape? htop hreshape, hbelow⟩
  · exact List.forall_mem_cons.mpr ⟨.inl rfl, ht.near⟩

/-- A row-major position is followed down a stack of views that read inside each other. -/
theorem ReadsInside.followFits {stack : List View} (h : ReadsInside n stack) (hn : n ≤ 2 ^ 63)
    (hshape : ∀ v ∈ stack, v.shape.Addressable) (hnear : ∀ v ∈ stack, v.mask = none ∨ v.Near)
    {flat : Nat} (hflat : flat < storeSize n stack) : Tracker.followFits stack flat = true := by
  induction h generalizing flat with
  | nil => rfl
  | @cons v below dims hv _ hstays _ ih =>
    obtain ⟨-, hshape⟩ := List.forall_mem_cons.mp hshape
    obtain ⟨hmask, hnear⟩ := List.forall_mem_cons.mp hnear
    rw [storeSize, Shape.elements?_eq hv.static?, Option.getD_some] at hflat
    have hinside := inside_unravel (Nat.zero_lt_of_lt hflat) flat
    have hsize : storeSize n below ≤ 2 ^ 63 := by
      cases below with
      | nil => exact hn
      | cons w below =>
        obtain ⟨k, hk, hle⟩ := hshape w List.mem_cons_self
        rwa [storeSize, hk]
    have hfits : v.indexFits (unravel dims flat) = true := by
      rcases hmask with hmask | hmask
      · exact hv.indexFits hstays hsize hmask hinside
      · exact hmask.indexFits hv.static? (unravel_le dims flat)
    rw [Tracker.followFits, hv.static?, Option.all_some, hfits, Bool.true_and]
    cases hindex : v.index (unravel dims flat) with
    | none => rfl
    | some place =>
      obtain ⟨hnonneg, hlt⟩ := hstays _ place hinside hindex
      have hcoe := coe_toNatClampNeg hnonneg
      rw [Option.all_some, ih hshape hnear (by omega), Bool.or_true]

/-- The places of a dense store are found, if signed words can count them. -/
theorem lookup_ofShape (hs : shape.static? = some dims) (hle : dims.prod ≤ 2 ^ 63) {flat : Nat}
    (hflat : flat < dims.prod) : (ofShape shape).lookup flat = .ok ((ofShape shape).locate flat) := by
  have hcount := Shape.elements?_eq hs
  have hreads : ReadsInside dims.prod [.ofShape shape] :=
    .cons (View.made_ofShape hs) (Nat.zero_lt_of_lt hflat) (View.staysIn_ofShape hs hle) .nil
  refine if_pos (hreads.followFits hle (List.forall_mem_singleton.mpr ⟨_, hcount, hle⟩)
    (List.forall_mem_singleton.mpr (.inl rfl)) ?_)
  rwa [storeSize, show (View.ofShape shape).shape.elements? = _ from hcount, Option.getD_some]

/-- Views that read inside each other still do when a dense view on top is merged into them. -/
theorem ReadsInside.merge {top : View} {below : List View} (h : ReadsInside n (top :: below))
    (hcalm : Calm ⟨top, below⟩) :
    ReadsInside n (Tracker.merge top below).stack ∧ (Tracker.merge top below).Calm := by
  induction below generalizing top with
  | nil => exact ⟨h, hcalm⟩
  | cons v below ih =>
    obtain ⟨hshape, hmoderate⟩ := List.forall_mem_cons.mp hcalm.moderate
    obtain ⟨-, hnear⟩ := List.forall_mem_cons.mp hcalm.near
    cases h with
    | cons htop hpos hstays hbelow =>
      rw [Tracker.merge]
      split
      · exact ⟨.cons htop hpos hstays hbelow, hcalm⟩
      split
      · exact ih hbelow ⟨hmoderate, hnear⟩
      · split
        · next w hw =>
          cases hbelow with
          | cons hv hpos hstays hbelow =>
            obtain ⟨-, hmoderate⟩ := List.forall_mem_cons.mp hmoderate
            obtain ⟨hmask, hnear⟩ := List.forall_mem_cons.mp hnear
            refine ih (.cons (hv.reshape? hw htop.static?) hpos (hstays.reshape? hv hpos hw htop.static?)
              hbelow) ⟨List.forall_mem_cons.mpr ⟨?_, hmoderate⟩,
                List.forall_mem_cons.mpr ⟨View.Near.reshape? hmask hw, hnear⟩⟩
            exact View.reshape?_shape hw ▸ hshape
        · exact ⟨.cons htop hpos hstays hbelow, hcalm⟩

/-- However it was made, a calm tracker over a base of a moderate shape finds the places of its positions
once its views are merged. -/
theorem Over.found (ht : t.Over shape) (hshape : shape.Moderate) (hcalm : t.Calm)
    (hs : t.shape.static? = some dims) : t.Found dims := by
  intro flat hflat
  obtain ⟨k, hk, -⟩ := addressable_of_moderate hshape
  have hle := hshape.elements_le hk
  have hreads := ht.readsInside (n := max 1 k) hk (Nat.le_max_right 1 k) (by omega) (by omega)
    (fun v hv => addressable_of_moderate (hcalm.moderate v (List.mem_cons_of_mem _ hv))) hs
  obtain ⟨hreads, hcalm⟩ := hreads.merge hcalm
  refine if_pos (hreads.followFits (by omega)
    (fun v hv => addressable_of_moderate (hcalm.moderate v hv)) hcalm.near ?_)
  have hcount : (merge t.top t.below).top.shape.elements? = some dims.prod :=
    Shape.elements?_eq (static?_simplify hs)
  rwa [stack, storeSize, hcount, Option.getD_some]

end Tracker

end TensorGraph
