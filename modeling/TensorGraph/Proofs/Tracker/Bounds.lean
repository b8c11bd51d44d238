import TensorGraph.Proofs.View.Greatest
/-!
# Reads stay inside the storage

Padding and flips give places before the store or behind it, but only at hidden positions. So each
view of a tracker reads inside the view below it, and the lowest inside the store of the base, as
long as signed words can count the elements of the base and of the views that others are pushed on.

- `Tracker.ReadsInside`: each view of a stack reads inside the one below it.
- `Tracker.Over.readsInside`: movements keep that.
- `Tracker.lookup_of_near`, `Tracker.sizeFits_of_near`: what is near is found inside the words.
- `Tracker.stays_inside`: what is found lies inside the size of the tracker, and that in the store.
-/

namespace TensorGraph

/-! ## Views that read inside a store -/

/-- Every visible position of a view with the extents `dims` has a place in a store of `n`
elements. -/
def View.StaysIn (dims : List Nat) (v : View) (n : Nat) : Prop :=
  ∀ p place, Inside dims p → v.index p = some place → 0 ≤ place.toInt ∧ place.toInt < n

namespace View

variable {v w : View} {old new : List Nat} {n : Nat}

/-- No position is too far from the beginning of what the view reads. -/
def Near (v : View) : Prop := ∃ dims, v.shape.static? = some dims ∧ v.spread dims < 2 ^ 63

instance (v : View) : Decidable v.Near :=
  decidable_of_iff (v.shape.static?.any (v.spread · < 2 ^ 63) = true)
    (by simp [Near, Option.any_eq_true])

/-- The places of such a view are found inside the words. -/
theorem Near.indexFits (h : v.Near) (hdims : v.shape.static? = some old) {p : List Nat}
    (hp : List.Forall₂ (· ≤ ·) p old) : v.indexFits p = true := by
  obtain ⟨dims, hdims', hspread⟩ := h
  obtain rfl := Option.some.inj (hdims.symm.trans hdims')
  have hlookup := lookup_of_spread hspread hp
  rw [lookup] at hlookup
  split at hlookup
  · assumption
  · cases hlookup

theorem StaysIn.mono (h : v.StaysIn old n) {m : Nat} (hnm : n ≤ m) : v.StaysIn old m :=
  fun p place hp hplace => ⟨(h p place hp hplace).1, by have := (h p place hp hplace).2; omega⟩

/-- A view that shows at each position what another one shows somewhere stays where that one does. -/
theorem StaysIn.of_shows (h : v.StaysIn old n)
    (hw : ∀ p, Inside new p → ∀ place, w.index p = some place →
      ∃ q, Inside old q ∧ v.index q = some place) : w.StaysIn new n := by
  intro p place hp hplace
  obtain ⟨q, hq, hindex⟩ := hw p hp place hplace
  exact h q place hq hindex

/-- What shows at each position what another view shows at its source is made, and shows nothing else. -/
theorem Moved.exists_source {result : Except MovementError View} {wellFormed fits roomy : Prop}
    {source : List Nat → List Nat}
    (hmoved : Moved result wellFormed fits roomy new fun p => v.index (source p))
    (hw : result = .ok w)
    (hsource : ∀ p, Inside new p → Inside old (source p)) :
    w.Made new ∧ ∀ p, Inside new p → ∀ place, w.index p = some place →
      ∃ q, Inside old q ∧ v.index q = some place := by
  refine ⟨hmoved.made w hw, fun p hp place hplace => ?_⟩
  rw [hmoved.index w hw p hp] at hplace
  exact ⟨source p, hsource p hp, hplace⟩

/-- No elements can always be given another shape by one view. -/
theorem reshape?_of_empty {target : Shape} (hold : v.shape.static? = some old)
    (hnew : target.static? = some new) (hprod : old.prod = new.prod) (hzero : new.prod = 0) :
    v.reshape? target ≠ none := by
  simp only [View.reshape?, hold, hnew, Option.bind_eq_bind, Option.bind_some, hprod, ne_eq,
    not_true_eq_false, if_false, hzero, decide_true, Bool.or_true, if_true]
  exact Option.some_ne_none _

/-- A reshaped view stays inside the store: the one element that it may unveil is the first. -/
theorem StaysIn.reshape? (h : v.StaysIn old n) (hv : v.Made old) (hpos : 0 < n) {target : Shape}
    (hw : v.reshape? target = some w) (hnew : target.static? = some new) : w.StaysIn new n := by
  intro p place hp hplace
  obtain ⟨old', new', hold', hnew', hprod, -⟩ := reshape?_eq_some hw
  obtain rfl : old = old' := Option.some.inj (hv.static?.symm.trans hold')
  obtain rfl : new = new' := Option.some.inj (hnew.symm.trans hnew')
  have hflat := ravel_lt hp
  have hinside := inside_unravel (hprod ▸ Nat.zero_lt_of_lt hflat) (ravel new p)
  rw [← unravel_ravel hp, hv.proper.index_reshape? hw hold' hnew hflat] at hplace
  split at hplace
  · cases hindex : v.index (unravel old (ravel new p)) with
    | some place' =>
      rw [hindex] at hplace
      obtain rfl := Option.some.inj hplace
      exact h _ _ hinside hindex
    | none =>
      rw [hindex] at hplace
      obtain rfl := Option.some.inj hplace
      exact ⟨Int.le_refl 0, Int.natCast_pos.mpr hpos⟩
  · exact h _ _ hinside hplace

/-- A dense view stays inside a store with as many elements, if signed words can count them. -/
theorem staysIn_ofShape {shape : Shape} (hs : shape.static? = some new) (hle : new.prod ≤ 2 ^ 63) :
    (ofShape shape).StaysIn new new.prod := by
  intro p place hp hplace
  have hflat := ravel_lt hp
  rw [← unravel_ravel hp, index_ofShape hs hflat] at hplace
  obtain rfl := Option.some.inj hplace
  rw [Int64.toInt_ofNat_of_lt (Nat.lt_of_lt_of_le hflat hle)]
  omega

theorem made_ofShape {shape : Shape} (hs : shape.static? = some new) : (ofShape shape).Made new :=
  Proper.made (proper_ofShape shape) hs

end View

theorem Shape.exists_static? {s : Shape} (h : ∀ d ∈ s.dims, ∃ n, d = .static n) :
    ∃ dims, s.static? = some dims := by
  obtain ⟨dims, hdims⟩ := exists_forall₂ h
  refine ⟨dims, Shape.static?_eq_some.mpr ?_⟩
  rwa [← List.forall₂_eq_eq_eq, List.forall₂_map_right_iff]

namespace Tracker

variable {t t' : Tracker} {shape : Shape} {n : Nat} {dims : List Nat}

/-! ## Movements of known extents -/

theorem shape_expand {target : Shape} (h : t.move (.expand target) = .ok t') : t'.shape = target := by
  obtain ⟨top, htop, rfl⟩ := map_setTop_eq_ok.mp h
  obtain ⟨-, -, -, -, rfl⟩ := View.expand_eq_ok.mp htop
  exact View.create_shape ..

/-- Movements to known extents start from known extents. -/
theorem exists_dims_of_move {m : Movement} (h : t.move m = .ok t')
    (hs : t'.shape.static? = some dims) : ∃ old, t.shape.static? = some old := by
  cases m with
  | reshape target =>
    rw [shape_reshape h] at hs
    rcases reshape_eq_ok.mp h with ⟨rfl, -⟩ | ⟨-, ⟨n, hn, -⟩, -⟩
    · exact ⟨dims, hs⟩
    · obtain ⟨old, hold, -⟩ := Shape.static?_of_elements? hn
      exact ⟨old, hold⟩
  | permute axes =>
    obtain ⟨top, htop, rfl⟩ := map_setTop_eq_ok.mp h
    obtain ⟨hlen, hlt, hnodup, -, rfl⟩ := View.permute_eq_ok.mp htop
    have hdims : View.pick t.top.shape.dims axes = dims.map .static := by
      rw [← Shape.static?_eq_some.mp hs, shape, setTop, View.create_shape]
    have hperm := View.perm_range hnodup (hlen ▸ hlt) hlen
    -- every extent is picked, so all are known
    refine Shape.exists_static? fun d hd => ?_
    have hd : d ∈ View.pick t.top.shape.dims (List.range t.top.shape.rank) := by
      rwa [Shape.rank, View.pick_range]
    rw [← (View.pick_perm hperm t.top.shape.dims).mem_iff, hdims] at hd
    obtain ⟨n, -, rfl⟩ := List.mem_map.mp hd
    exact ⟨n, rfl⟩
  | expand target =>
    rw [shape_expand h] at hs
    obtain ⟨top, htop, rfl⟩ := map_setTop_eq_ok.mp h
    obtain ⟨hrank, spans, hrepeat, -⟩ := View.expand_eq_ok.mp htop
    have hforall := View.forall₂_of_repeatSpans (by rw [← Shape.rank, ← Shape.rank, hrank]) hrepeat
    rw [Shape.static?_eq_some.mp hs] at hforall
    refine Shape.exists_static? fun d hd => ?_
    obtain ⟨e, he, hde⟩ := exists_of_forall₂_left hforall hd
    obtain ⟨n, -, rfl⟩ := List.mem_map.mp he
    rcases hde with rfl | rfl
    · exact ⟨n, rfl⟩
    · exact ⟨1, rfl⟩
  | shrink windows =>
    obtain ⟨top, htop, rfl⟩ := map_setTop_eq_ok.mp h
    obtain ⟨-, old, hold, -⟩ := View.shrink_eq_ok.mp htop
    exact ⟨old, hold⟩
  | stride factors =>
    obtain ⟨top, htop, rfl⟩ := map_setTop_eq_ok.mp h
    obtain ⟨-, -, old, hold, -⟩ := View.stride_eq_ok.mp htop
    exact ⟨old, hold⟩
  | pad margins =>
    obtain ⟨top, htop, rfl⟩ := map_setTop_eq_ok.mp h
    obtain ⟨-, old, hold, -⟩ := View.pad_eq_ok.mp htop
    exact ⟨old, hold⟩

/-- Movements leave the views below the topmost one. -/
theorem below_subset_of_move {m : Movement} (h : t.move m = .ok t') : t.below ⊆ t'.below := by
  have htop {r : Except MovementError View} (hr : t.setTop <$> r = .ok t') : t.below ⊆ t'.below := by
    obtain ⟨w, -, rfl⟩ := map_setTop_eq_ok.mp hr
    exact List.Subset.refl _
  cases m with
  | reshape target =>
    rcases reshape_eq_ok.mp h with ⟨-, rfl⟩ | ⟨-, -, -, ⟨w, -, rfl⟩ | ⟨-, rfl⟩⟩
    · exact List.Subset.refl _
    · exact List.Subset.refl _
    · exact List.subset_cons_self _ _
  | permute axes => exact htop h
  | expand target => exact htop h
  | shrink windows => exact htop h
  | stride factors => exact htop h
  | pad margins => exact htop h

/-- A movement other than a reshape leaves all but the topmost view, and shows there only what was shown
before. -/
theorem exists_source_of_move {old : List Nat} (hv : t.top.Made old) {m : Movement}
    (hm : ∀ target, m ≠ .reshape target) (hmove : t.move m = .ok t')
    (hs : t'.shape.static? = some dims) :
    t'.below = t.below ∧ t'.top.Made dims ∧ ∀ p, Inside dims p → ∀ place,
      t'.top.index p = some place → ∃ q, Inside old q ∧ t.top.index q = some place := by
  have htop {r : Except MovementError View} (hr : t.setTop <$> r = .ok t')
      (hw : ∀ w, r = .ok w → ∃ new, w.Made new ∧ ∀ p, Inside new p → ∀ place,
        w.index p = some place → ∃ q, Inside old q ∧ t.top.index q = some place) :
      t'.below = t.below ∧ t'.top.Made dims ∧ ∀ p, Inside dims p → ∀ place,
        t'.top.index p = some place → ∃ q, Inside old q ∧ t.top.index q = some place := by
    obtain ⟨w, hw', rfl⟩ := map_setTop_eq_ok.mp hr
    obtain ⟨new, hmade, hsource⟩ := hw w hw'
    obtain rfl : dims = new := Option.some.inj (hs.symm.trans hmade.static?)
    exact ⟨rfl, hmade, hsource⟩
  cases m with
  | reshape target => exact absurd rfl (hm target)
  | permute axes =>
    refine htop hmove fun w hw => ⟨_, (hv.permute axes).exists_source hw fun p hp => ?_⟩
    exact View.inside_permuted ((hv.permute axes).accepted.mp ⟨w, hw⟩).1 hp
  | expand target =>
    obtain rfl := Shape.eq_ofNats (shape_expand hmove ▸ hs)
    refine htop hmove fun w hw => ⟨_, (hv.expand dims).exists_source hw fun p hp => ?_⟩
    exact View.inside_repeated ((hv.expand dims).accepted.mp ⟨w, hw⟩).1 hp
  | shrink windows =>
    refine htop hmove fun w hw => ⟨_, (hv.shrink windows).exists_source hw fun p hp => ?_⟩
    have hwindows := List.forall₂_iff_zip.mp ((hv.shrink windows).accepted.mp ⟨w, hw⟩).1.flip
    exact View.inside_shrunk hwindows.1 (fun q hq => hwindows.2 hq) hp
  | stride factors =>
    refine htop hmove fun w hw => ⟨_, (hv.stride factors).exists_source hw fun p hp => ?_⟩
    obtain ⟨⟨hlen, hfactors⟩, -⟩ := (hv.stride factors).accepted.mp ⟨w, hw⟩
    exact (View.stride_spec hfactors hlen hv.length_strides hp).1
  | pad margins =>
    refine htop hmove fun w hw => ⟨_, (hv.pad margins).made w hw, fun p hp place hplace => ?_⟩
    rw [(hv.pad margins).index w hw p hp] at hplace
    obtain ⟨q, hq, hindex⟩ := Option.bind_eq_some_iff.mp hplace
    exact ⟨q, (View.unpad_eq_some hq).2.1, hindex⟩

/-! ## Stacks -/

/-- The number of elements that a view on top of `below` is read from: those of the view below it,
or of the store. -/
def storeSize (n : Nat) : List View → Nat
  | [] => n
  | v :: _ => v.shape.elements?.getD 0

/-- Each view of a stack reads inside the one below it, and the lowest inside a store of `n`
elements; what is read inside of has elements. -/
inductive ReadsInside (n : Nat) : List View → Prop
  /-- The store itself. -/
  | nil : ReadsInside n []
  /-- One more view. -/
  | cons {v : View} {below : List View} {dims : List Nat} (hv : v.Made dims)
    (hpos : 0 < storeSize n below) (h : v.StaysIn dims (storeSize n below))
    (hbelow : ReadsInside n below) : ReadsInside n (v :: below)

/-- The topmost view of a stack of views that read inside each other. -/
theorem ReadsInside.top {v : View} {below : List View} (h : ReadsInside n (v :: below))
    (hs : v.shape.static? = some dims) :
    v.Made dims ∧ 0 < storeSize n below ∧ v.StaysIn dims (storeSize n below)
      ∧ ReadsInside n below := by
  cases h with
  | cons hv hpos h hbelow =>
    obtain rfl := Option.some.inj (hv.static?.symm.trans hs)
    exact ⟨hv, hpos, h, hbelow⟩

/-- What a movement other than a reshape makes of the topmost view reads inside the same view. -/
theorem ReadsInside.move_top {old : List Nat} (h : ReadsInside n t.stack)
    (hold : t.shape.static? = some old) {m : Movement} (hm : ∀ target, m ≠ .reshape target)
    (hmove : t.move m = .ok t') (hs : t'.shape.static? = some dims) :
    ReadsInside n t'.stack := by
  obtain ⟨hv, hpos, hstays, hbelow⟩ := h.top hold
  obtain ⟨hsame, hmade, hsource⟩ := exists_source_of_move hv hm hmove hs
  rw [stack, hsame]
  exact .cons hmade hpos (hstays.of_shows hsource) hbelow

/-- A reshape gives the topmost view another shape, or pushes a dense view on it. -/
theorem ReadsInside.reshape {old : List Nat} (h : ReadsInside n t.stack)
    (hold : t.shape.static? = some old) {target : Shape} (hmove : t.reshape target = .ok t')
    (hbelow : ∀ v ∈ t'.below, v.shape.Addressable) (hs : t'.shape.static? = some dims) :
    ReadsInside n t'.stack := by
  obtain ⟨hv, hpos, hstays, hrest⟩ := h.top hold
  rw [shape_reshape hmove] at hs
  rcases reshape_eq_ok.mp hmove with ⟨-, rfl⟩ | ⟨-, ⟨k, hk, hk'⟩, -, ⟨w, hw, rfl⟩ | ⟨hw, rfl⟩⟩
  · exact h
  · exact .cons (hv.reshape? hw hs) hpos (hstays.reshape? hv hpos hw hs) hrest
  · have hprod : dims.prod = k := Option.some.inj ((Shape.elements?_eq hs).symm.trans hk')
    have hsize : storeSize n t.stack = dims.prod := by
      have hk : t.top.shape.elements? = some k := hk
      rw [stack, storeSize, hk, Option.getD_some, hprod]
    obtain ⟨k', hk'', hle⟩ := hbelow t.top List.mem_cons_self
    obtain rfl : k = k' := Option.some.inj (hk.symm.trans hk'')
    refine .cons (View.made_ofShape hs) ?_ ?_ h
    · change 0 < storeSize n t.stack
      rw [hsize]
      refine Nat.pos_of_ne_zero fun hzero => ?_
      have hcount : old.prod = dims.prod :=
        Option.some.inj ((Shape.elements?_eq hold).symm.trans (hk.trans (congrArg _ hprod.symm)))
      exact View.reshape?_of_empty hold hs hcount hzero hw
    · change (View.ofShape target).StaysIn dims (storeSize n t.stack)
      rw [hsize]
      exact View.staysIn_ofShape hs (by rwa [hprod])

/-! ## Runs -/

/-- However it was made, a tracker reads inside a store that has elements, those of its base among
them. -/
theorem Over.readsInside (ht : t.Over shape) {k : Nat} (hk : shape.elements? = some k) (hkn : k ≤ n)
    (hpos : 0 < n) (hle : n ≤ 2 ^ 63) (hbelow : ∀ v ∈ t.below, v.shape.Addressable)
    (hs : t.shape.static? = some dims) : ReadsInside n t.stack := by
  induction ht generalizing dims with
  | ofShape =>
    rw [shape_ofShape] at hs
    obtain rfl : k = dims.prod := Option.some.inj (hk.symm.trans (Shape.elements?_eq hs))
    have hstays := View.staysIn_ofShape hs (hkn.trans hle)
    exact .cons (View.made_ofShape hs) hpos (hstays.mono hkn) .nil
  | @move t t' m ht hmove ih =>
    obtain ⟨old, hold⟩ := exists_dims_of_move hmove hs
    have hbelow' : ∀ v ∈ t.below, v.shape.Addressable := fun v hv =>
      hbelow v (below_subset_of_move hmove hv)
    have hreads := ih hbelow' hold
    by_cases hm : ∃ target, m = .reshape target
    · obtain ⟨target, rfl⟩ := hm
      exact hreads.reshape hold hmove hbelow hs
    · exact hreads.move_top hold (fun target h => hm ⟨target, h⟩) hmove hs

/-! ## Places in the store -/

theorem bottom_cons (top v : View) (below : List View) :
    bottom ⟨top, v :: below⟩ = bottom ⟨v, below⟩ :=
  List.getLastD_cons ..

theorem not_lt_zero {place : Int64} (h : 0 ≤ place.toInt) : ¬place < 0 := by
  rw [Int64.lt_iff_toInt_lt, Int64.toInt_zero]
  exact Int.not_lt.mpr h

theorem coe_toNatClampNeg {place : Int64} (h : 0 ≤ place.toInt) :
    (place.toNatClampNeg : Int) = place.toInt :=
  Int.toNat_of_nonneg h

theorem ReadsInside.bottom {top : View} {below : List View} (h : ReadsInside n (top :: below)) :
    ∃ lowest, (bottom ⟨top, below⟩).Made lowest ∧ (bottom ⟨top, below⟩).StaysIn lowest n := by
  induction below generalizing top with
  | nil =>
    cases h with
    | cons hv _ h => exact ⟨_, hv, h⟩
  | cons v below ih =>
    cases h with
    | cons _ _ _ hbelow =>
      rw [bottom_cons]
      exact ih hbelow

/-- What a stack finds is found below the place that its topmost view gives. -/
theorem ReadsInside.follow_top {top : View} {below : List View}
    (h : ReadsInside n (top :: below)) (hs : top.shape.static? = some dims) {flat o : Nat}
    (hflat : flat < dims.prod) (hfollow : follow (top :: below) flat = some o) :
    ∃ p place, Inside dims p ∧ top.index p = some place
      ∧ (place.toNatClampNeg : Int) = place.toInt ∧ place.toNatClampNeg < storeSize n below
      ∧ follow below place.toNatClampNeg = some o := by
  obtain ⟨-, -, hstays, hbelow⟩ := h.top hs
  rw [follow_cons hs] at hfollow
  obtain ⟨place, hplace, ho⟩ := Option.bind_eq_some_iff.mp hfollow
  have hinside := inside_unravel (Nat.zero_lt_of_lt hflat) flat
  obtain ⟨hnonneg, hlt⟩ := hstays _ place hinside hplace
  have hcoe := coe_toNatClampNeg hnonneg
  rw [descend, if_neg (not_lt_zero hnonneg)] at ho
  exact ⟨_, place, hinside, hplace, hcoe, by omega, ho⟩

/-- What a stack finds is the place of a visible position of the lowest view. -/
theorem ReadsInside.exists_place {top : View} {below : List View}
    (h : ReadsInside n (top :: below)) (hs : top.shape.static? = some dims) {flat o : Nat}
    (hflat : flat < dims.prod) (hfollow : follow (top :: below) flat = some o) {lowest : List Nat}
    (hlowest : (Tracker.bottom ⟨top, below⟩).shape.static? = some lowest) :
    ∃ p place, Inside lowest p ∧ (Tracker.bottom ⟨top, below⟩).index p = some place
      ∧ place.toInt = o := by
  induction below generalizing top dims flat with
  | nil =>
    obtain rfl : dims = lowest := Option.some.inj (hs.symm.trans hlowest)
    obtain ⟨p, place, hp, hplace, hcoe, -, ho⟩ := h.follow_top hs hflat hfollow
    exact ⟨p, place, hp, hplace, by rw [← hcoe, Option.some.inj ho]⟩
  | cons v below ih =>
    obtain ⟨-, place, -, -, -, hlt, ho⟩ := h.follow_top hs hflat hfollow
    obtain ⟨-, -, -, hbelow⟩ := h.top hs
    rw [bottom_cons] at hlowest ⊢
    cases hbelow with
    | @cons _ _ dims' hv hpos hstays hbelow =>
      rw [storeSize, Shape.elements?_eq hv.static?, Option.getD_some] at hlt
      exact ih (.cons hv hpos hstays hbelow) hv.static? hlt ho hlowest

/-- The size of a tracker is that of a part of the store, with all visible places. -/
theorem exists_size {lowest : List Nat} (hmade : t.bottom.Made lowest)
    (hstays : t.bottom.StaysIn lowest n) :
    ∃ size, t.size = some size ∧ size ≤ n
      ∧ ∀ p place, Inside lowest p → t.bottom.index p = some place → place.toInt < size := by
  rw [size, Shape.elements?_eq hmade.static?, Option.map_some]
  refine ⟨_, rfl, ?_⟩
  split
  · next hzero =>
    exact ⟨Nat.zero_le n, fun p place hp _ => absurd hzero (Nat.ne_of_gt hp.prod_pos)⟩
  · cases hmax : t.bottom.maxPlace with
    | none =>
      refine ⟨Nat.zero_le n, fun p place hp hplace => ?_⟩
      rw [hmade.maxPlace_eq_none_iff.mp hmax p hp] at hplace
      cases hplace
    | some m =>
      obtain ⟨⟨q, hq, hm⟩, hgreatest⟩ := hmade.maxPlace_greatest hmax
      obtain ⟨hnonneg, hlt⟩ := hstays q m hq hm
      have hexact := hmade.exact_of_nonneg fun p place hp hplace => (hstays p place hp hplace).1
      have hm := coe_toNatClampNeg hnonneg
      simp only [not_lt_zero hnonneg, if_false]
      refine ⟨by omega, fun p place hp hplace => ?_⟩
      have hle := Int64.le_iff_toInt_le.mp (hgreatest hexact p place hp hplace)
      omega

/-- What is found lies inside the storage. -/
theorem Over.locate_lt (ht : t.Over shape) (hn : shape.elements? = some n) (hpos : 0 < n)
    (hle : n ≤ 2 ^ 63) (hbelow : ∀ v ∈ t.below, v.shape.Addressable)
    (hs : t.shape.static? = some dims) {flat o : Nat} (hflat : flat < dims.prod)
    (ho : t.locate flat = some o) : o < n := by
  have hreads := ht.readsInside hn (Nat.le_refl n) hpos hle hbelow hs
  obtain ⟨lowest, hmade, hstays⟩ := hreads.bottom
  obtain ⟨p, place, hp, hplace, heq⟩ := hreads.exists_place hs hflat ho hmade.static?
  have := (hstays p place hp hplace).2
  omega

/-! ## Places that are found -/

/-- No view has a position that is too far from the beginning of what the view reads. -/
def Near (t : Tracker) : Prop := ∀ v ∈ t.stack, v.Near

/-- A position of a stack is looked for inside the words, if its views do not go too far. -/
theorem followFits_of_near {stack : List View} (h : ∀ v ∈ stack, v.Near) (flat : Nat) :
    followFits stack flat = true := by
  induction stack generalizing flat with
  | nil => rfl
  | cons v below ih =>
    obtain ⟨hv, hbelow⟩ := List.forall_mem_cons.mp h
    have ⟨dims, hdims, _⟩ := hv
    have hfits := hv.indexFits hdims (unravel_le dims flat)
    rw [followFits, hdims, Option.all_some, hfits, Bool.true_and]
    cases v.index (unravel dims flat) with
    | none => rfl
    | some place => rw [Option.all_some, ih hbelow, Bool.or_true]

/-- A place is found if none is too far away. -/
theorem lookup_of_near (h : t.Near) (flat : Nat) : t.lookup flat = .ok (t.locate flat) :=
  if_pos (followFits_of_near h flat)

theorem bottom_mem_stack (t : Tracker) : t.bottom ∈ t.stack := by
  obtain ⟨top, below⟩ := t
  induction below generalizing top with
  | nil => exact List.mem_cons_self
  | cons v below ih => exact bottom_cons top v below ▸ List.mem_cons_of_mem _ (ih v)

/-- The size is found if no position is too far away and the lowest view has few enough elements. -/
theorem sizeFits_of_near {lowest : List Nat} (h : t.Near) (hmade : t.bottom.Made lowest)
    (hcount : t.bottom.shape.countable = true) : t.sizeFits = true := by
  obtain ⟨dims, hdims, hspread⟩ := h t.bottom t.bottom_mem_stack
  obtain rfl := Option.some.inj (hmade.static?.symm.trans hdims)
  rw [sizeFits, hcount, hmade.maxPlaceFits hspread, Bool.or_true, Bool.and_true]

/-- A tracker over the storage of a base with elements that signed words can count reads inside it,
as long as no view is pushed on one with more elements than that: each view gives places in the view
below it, what is found lies inside the size of the tracker, and that inside the storage. The
greatest place of a view is that of a visible position, if there is one, and no visible position has
a greater one if places do not wrap around. Nothing of this is stopped by a number that leaves its
word where no position is too far from the beginning of what its view reads. -/
theorem stays_inside :
    (∀ shape n t, Over shape t → shape.elements? = some n → 0 < n → n ≤ 2 ^ 63 →
      (∀ v ∈ t.below, v.shape.Addressable) → ∀ dims, t.shape.static? = some dims →
        ReadsInside n t.stack
          ∧ (∃ size, t.size = some size ∧ size ≤ n
            ∧ ∀ flat < dims.prod, ∀ o, t.locate flat = some o → o < size)
          ∧ (t.Near → (∀ flat, t.lookup flat = .ok (t.locate flat))
            ∧ (t.bottom.shape.countable = true → t.sizeFits = true)))
      ∧ ∀ v dims, View.Made dims v →
        (v.maxPlace = none ↔ ∀ p, Inside dims p → v.index p = none)
          ∧ (∀ m, v.maxPlace = some m →
            (∃ p, Inside dims p ∧ v.index p = some m)
              ∧ (v.Exact dims → ∀ p place, Inside dims p → v.index p = some place → place ≤ m))
          ∧ (v.spread dims < 2 ^ 63 → v.maxPlaceFits = true
            ∧ ∀ p, Inside dims p → v.lookup p = .ok (v.index p)) := by
  refine ⟨fun shape n t ht hn hpos hle hbelow dims hs => ?_, fun v dims hv => ?_⟩
  · have hreads := ht.readsInside hn (Nat.le_refl n) hpos hle hbelow hs
    obtain ⟨lowest, hmade, hstays⟩ := hreads.bottom
    obtain ⟨size, hsize, hsize_le, hlt⟩ := exists_size hmade hstays
    refine ⟨hreads, ⟨size, hsize, hsize_le, fun flat hflat o ho => ?_⟩,
      fun hnear => ⟨lookup_of_near hnear, sizeFits_of_near hnear hmade⟩⟩
    obtain ⟨p, place, hp, hplace, heq⟩ := hreads.exists_place hs hflat ho hmade.static?
    have := hlt p place hp hplace
    omega
  · refine ⟨hv.maxPlace_eq_none_iff, fun m hm => hv.maxPlace_greatest hm,
      fun hspread => ⟨hv.maxPlaceFits hspread, fun p hp => ?_⟩⟩
    exact View.lookup_of_spread hspread (hp.imp fun _ _ => Nat.le_of_lt).flip

/-- The transpose of two rows of three, every second of its elements from the last one on, between
two hidden positions. The place of the first hidden position lies behind the view below. -/
def walkedBack : Tracker :=
  ⟨⟨.ofNats [5], [-2], 7, some [⟨1, 4⟩]⟩, [⟨.ofNats [3, 2], [1, 3], 0, none⟩]⟩

theorem walkedBack_over : walkedBack.Over (.ofNats [2, 3]) :=
  have hturned : Over (.ofNats [2, 3]) ⟨⟨.ofNats [3, 2], [1, 3], 0, none⟩, []⟩ :=
    .move (.permute [1, 0]) .ofShape rfl
  have hcounted : Over (.ofNats [2, 3])
      ⟨.ofShape (.ofNats [6]), [⟨.ofNats [3, 2], [1, 3], 0, none⟩]⟩ :=
    .move (.reshape (.ofNats [6])) hturned (by decide +kernel)
  .move (.pad [⟨1, 1⟩]) (.move (.stride [-2]) hcounted rfl) rfl

theorem stays_inside_walkedBack :
    walkedBack.Over (.ofNats [2, 3]) ∧ (∀ v ∈ walkedBack.below, v.shape.Addressable)
      ∧ walkedBack.shape.static? = some [5] ∧ ReadsInside 6 walkedBack.stack
      ∧ (∃ size, walkedBack.size = some size ∧ size ≤ 6
        ∧ ∀ flat < 5, ∀ o, walkedBack.locate flat = some o → o < size)
      ∧ (∀ flat, walkedBack.lookup flat = .ok (walkedBack.locate flat))
      ∧ walkedBack.sizeFits = true := by
  have hbelow : ∀ v ∈ walkedBack.below, v.shape.Addressable := by
    intro v hv
    obtain rfl := List.mem_singleton.mp hv
    exact ⟨6, rfl, by decide⟩
  have hnear : walkedBack.Near :=
    List.forall_mem_cons.mpr ⟨⟨[5], rfl, by decide⟩,
      List.forall_mem_cons.mpr ⟨⟨[3, 2], rfl, by decide⟩, List.forall_mem_nil _⟩⟩
  obtain ⟨hreads, hsize, hfound⟩ :=
    stays_inside.1 _ 6 walkedBack walkedBack_over rfl (by decide) (by decide) hbelow [5] rfl
  obtain ⟨hlookup, hsizeFits⟩ := hfound hnear
  exact ⟨walkedBack_over, hbelow, rfl, hreads, hsize, hlookup, hsizeFits (by decide)⟩

/-- A store with more elements than signed words can count has no size, although its first element
is found, and a place of its only view is negative. -/
theorem size_wraps :
    ∃ t : Tracker, t.Over (.ofNats [2 ^ 63 + 4]) ∧ t.size = some 0 ∧ t.locate 0 = some 0
      ∧ ∃ place, t.top.index [2 ^ 63] = some place ∧ place < 0 :=
  ⟨.ofShape (.ofNats [2 ^ 63 + 4]), .ofShape, by decide +kernel, by decide +kernel, _, rfl,
    by decide +kernel⟩

end Tracker

end TensorGraph
