import TensorGraph.Proofs.Tracker.Bounds
import TensorGraph.Proofs.Tracker.Dense
import TensorGraph.Proofs.View.Coordinates
/-!
# Trackers into a store

A tracker into a store finds each position of its shape inside the store, or nowhere. Movements keep
that, as long as the rank of every position is a signed word and no single element is hidden. Without
padding nothing is hidden, and a movement finds at each position what the tracker found at its source.

- `Tracker.Into`: trackers into a store of a given size.
- `Tracker.Into.move`: movements keep them so.
- `Tracker.Into.locate_reshape`, `Tracker.Into.locate_move`: what a movement finds.
- `Tracker.Bare`, `Tracker.Bare.move`: trackers that hide nothing.
-/

namespace TensorGraph.Tracker

variable {t t' : Tracker} {dims new : List Nat} {n : Nat}

/-! ## Single elements -/

/-- A view that hides nothing hides no single element. -/
theorem not_unveils_of_unmasked (h : t.top.mask = none) : ¬t.Unveils := by
  rintro ⟨dims, -, -, hnone, -⟩
  rw [View.index_unmasked h] at hnone
  cases hnone

/-- Several elements, or none, are no single element. -/
theorem not_unveils_of_prod (hs : t.shape.static? = some dims) (h : dims.prod ≠ 1) : ¬t.Unveils := by
  rintro ⟨dims', hs', hone, -⟩
  obtain rfl : dims = dims' := Option.some.inj (hs.symm.trans hs')
  exact h hone

theorem mask_ofShape (shape : Shape) : (ofShape shape).top.mask = none := by
  change (View.ofShape shape).mask = none
  rw [View.ofShape_eq]

/-- A dense store is read where it stands. -/
theorem locate_ofShape {shape : Shape} (hs : shape.static? = some dims) (hle : dims.prod ≤ 2 ^ 63)
    {flat : Nat} (h : flat < dims.prod) : (ofShape shape).locate flat = some flat := by
  rw [locate_eq (by rw [shape_ofShape, hs])]
  change ((View.ofShape shape).index _).bind (descend []) = _
  rw [View.index_ofShape hs h, Option.bind_some, descend_ofNat _ (by omega), if_pos (by omega)]
  rfl

/-- A reshape keeps the place of every position, masked or not, unless the tracker hides a single
element, or a view is pushed with more positions than signed words can count. -/
theorem Proper.locate_reshape (ht : t.Proper) {target : Shape} (h : t.reshape target = .ok t')
    (hold : t.shape.static? = some dims) (hnew : target.static? = some new)
    (hpushed : t.top.reshape? target = none → dims.prod ≤ 2 ^ 63) (hveiled : ¬t.Unveils) :
    new.prod = dims.prod ∧ ∀ flat < dims.prod, t'.locate flat = t.locate flat := by
  rcases reshape_eq_ok.mp h with ⟨rfl, rfl⟩ | ⟨-, ⟨n, hsource, htarget⟩, -, hcases⟩
  · obtain rfl := Option.some.inj (hold.symm.trans hnew)
    exact ⟨rfl, fun _ _ => rfl⟩
  have hprod : new.prod = dims.prod := by
    rw [Shape.elements?_eq hold] at hsource
    rw [Shape.elements?_eq hnew] at htarget
    exact Option.some.inj (htarget.trans hsource.symm)
  refine ⟨hprod, fun flat hflat => ?_⟩
  rcases hcases with ⟨top, htop, rfl⟩ | ⟨htop, rfl⟩
  · rw [ht.locate_setTop hold hnew htop (hprod ▸ hflat)]
    split
    · next hone =>
      obtain rfl : flat = 0 := by omega
      rw [locate_eq hold]
      cases hindex : t.top.index (unravel dims 0) with
      | some place => rfl
      | none =>
        -- what the reshape unveils has no place either
        have hbelow : follow t.below 0 = none := by
          cases hfollow : follow t.below 0 with
          | none => rfl
          | some place =>
            exact absurd ⟨dims, hold, hprod.symm.trans hone, hindex, by rw [hfollow]; rfl⟩ hveiled
        have horigin : descend t.below 0 = follow t.below 0 := by
          simpa using descend_ofNat t.below (show 0 < 2 ^ 64 by decide)
        rw [Option.getD_none, horigin, hbelow]
        rfl
    · rfl
  · have hle := hpushed htop
    rw [locate_pushed hnew (hprod ▸ hflat) (by omega), if_pos (by omega)]

/-- After a reshape no single element is hidden that was not hidden before. -/
theorem Proper.not_unveils_reshape (ht : t.Proper) {target : Shape} (h : t.reshape target = .ok t')
    (hveiled : ¬t.Unveils) : ¬t'.Unveils := by
  rcases reshape_eq_ok.mp h with ⟨-, rfl⟩ | ⟨-, -, -, ⟨top, htop, rfl⟩ | ⟨-, rfl⟩⟩
  · exact hveiled
  · rintro ⟨new, hnew, hone, hnone, -⟩
    have htarget : target.static? = some new := by rw [← View.reshape?_shape htop]; exact hnew
    obtain ⟨old, -, hold, -⟩ := View.reshape?_eq_some htop
    have hindex := ht.top.index_reshape? htop hold htarget (show 0 < new.prod by omega)
    rw [if_pos hone] at hindex
    cases hindex.symm.trans hnone
  · exact not_unveils_of_unmasked (mask_ofShape target)

/-! ## Trackers into a store -/

/-- The tracker has the extents `dims`, and finds each position in a store of `n` elements, or hides
it. -/
structure Into (t : Tracker) (dims : List Nat) (n : Nat) : Prop where
  /-- Movements have made the tracker. -/
  proper : t.Proper
  /-- The topmost view has these extents. -/
  made : t.top.Made dims
  /-- The rank of a position is a signed word. -/
  addressable : dims.prod ≤ 2 ^ 63
  /-- Every place is in the store. -/
  place_lt : ∀ {flat place}, flat < dims.prod → t.locate flat = some place → place < n
  /-- No single element is hidden. -/
  visible : ¬t.Unveils

theorem Into.shape (ht : t.Into dims n) : t.shape.static? = some dims := ht.made.static?

theorem Into.elements? (ht : t.Into dims n) : t.shape.elements? = some dims.prod :=
  Shape.elements?_eq ht.shape

theorem Into.shape_addressable (ht : t.Into dims n) : t.shape.Addressable :=
  ⟨dims.prod, ht.elements?, ht.addressable⟩

theorem into_ofShape {shape : Shape} (hs : shape.static? = some dims) (hle : dims.prod ≤ 2 ^ 63) :
    (ofShape shape).Into dims dims.prod where
  proper := proper_ofShape shape
  made := View.made_ofShape hs
  addressable := hle
  place_lt hflat hplace := by
    rw [locate_ofShape hs hle hflat] at hplace
    exact Option.some.inj hplace ▸ hflat
  visible := not_unveils_of_unmasked (mask_ofShape shape)

theorem Into.locate_of_contiguous (ht : t.Into dims n) (h : t.contiguous = true) {flat : Nat}
    (hflat : flat < dims.prod) : t.locate flat = some flat := by
  rw [eq_ofShape h]
  exact locate_ofShape ht.shape ht.addressable hflat

/-! ## Movements -/

/-- A reshape keeps the place of every position. -/
theorem Into.locate_reshape (ht : t.Into dims n) {target : Shape} (h : t.reshape target = .ok t')
    (hnew : target.static? = some new) :
    dims.prod = new.prod ∧ ∀ flat < new.prod, t'.locate flat = t.locate flat := by
  obtain ⟨hprod, hlocate⟩ :=
    ht.proper.locate_reshape h ht.shape hnew (fun _ => ht.addressable) ht.visible
  exact ⟨hprod.symm, hprod ▸ hlocate⟩

theorem Into.reshape (ht : t.Into dims n) {target : Shape} (h : t.reshape target = .ok t')
    (hnew : target.static? = some new) : t'.Into new n := by
  obtain ⟨hprod, hlocate⟩ := ht.locate_reshape h hnew
  refine ⟨ht.proper.reshape h, ?_, hprod ▸ ht.addressable, fun hflat hplace => ?_,
    ht.proper.not_unveils_reshape h ht.visible⟩
  · rcases reshape_eq_ok.mp h with ⟨rfl, rfl⟩ | ⟨-, -, -, ⟨top, htop, rfl⟩ | ⟨-, rfl⟩⟩
    · obtain rfl : dims = new := Option.some.inj (ht.shape.symm.trans hnew)
      exact ht.made
    · exact ht.made.reshape? htop hnew
    · exact View.made_ofShape hnew
  · rw [hlocate _ hflat] at hplace
    exact ht.place_lt (hprod ▸ hflat) hplace

/-- A movement leads into the same store, if it hides no single element. -/
theorem Into.move (ht : t.Into dims n) {m : Movement} (h : t.move m = .ok t')
    (hnew : t'.shape.static? = some new) (hle : new.prod ≤ 2 ^ 63) (hveiled : ¬t'.Unveils) :
    t'.Into new n := by
  by_cases hm : ∃ target, m = .reshape target
  · obtain ⟨target, rfl⟩ := hm
    exact ht.reshape h (shape_reshape h ▸ hnew)
  · obtain ⟨hbelow, hmade, hsource⟩ :=
      exists_source_of_move ht.made (fun target htarget => hm ⟨target, htarget⟩) h hnew
    refine ⟨ht.proper.move h, hmade, hle, fun {flat place} hflat hplace => ?_, hveiled⟩
    rw [locate_eq hnew, hbelow] at hplace
    obtain ⟨p, hp, hdescend⟩ := Option.bind_eq_some_iff.mp hplace
    -- the place was found at another position before
    obtain ⟨q, hq, hindex⟩ := hsource _ (inside_unravel (Nat.zero_lt_of_lt hflat) flat) p hp
    refine ht.place_lt (ravel_lt hq) ?_
    rw [locate_eq ht.shape, unravel_ravel hq, hindex]
    exact hdescend

/-! ## Movements of trackers without masks -/

/-- Where the topmost view is rearranged, each position is found where its source was. -/
theorem Into.locate_setTop (ht : t.Into dims n) {m : Movement} {top : View}
    (htop : View.Rearranged m dims t.top top) (hnew : top.shape.static? = some new) {flat : Nat}
    (hflat : flat < new.prod) :
    m.sourceAt dims new flat < dims.prod
      ∧ (t.setTop top).locate flat = t.locate (m.sourceAt dims new flat) := by
  obtain ⟨new', hnew', h⟩ := htop.index
  obtain rfl : new = new' := Option.some.inj (hnew.symm.trans hnew')
  obtain ⟨hinside, hindex⟩ := h _ (inside_unravel (Nat.zero_lt_of_lt hflat) flat)
  refine ⟨ravel_lt hinside, ?_⟩
  rw [locate_eq (t := t.setTop top) hnew, locate_eq ht.shape, Movement.sourceAt,
    unravel_ravel hinside]
  change (top.index (unravel new flat)).bind (descend t.below) = _
  rw [hindex]

/-- A reshape of a view that hides nothing gives one that hides nothing. -/
theorem unmasked_reshape {target : Shape} (hmask : t.top.mask = none)
    (h : t.reshape target = .ok t') : t'.top.mask = none := by
  rcases reshape_eq_ok.mp h with ⟨-, rfl⟩ | ⟨-, -, -, ⟨top, htop, rfl⟩ | ⟨-, rfl⟩⟩
  · exact hmask
  · exact View.reshape?_mask htop hmask
  · exact mask_ofShape target

/-- A movement that rearranges a view that hides nothing gives one that hides nothing. -/
theorem unmasked_move (hmask : t.top.mask = none) {m : Movement} (hm : m.Rearranges)
    (h : t.move m = .ok t') : t'.top.mask = none := by
  cases m with
  | reshape target => exact unmasked_reshape hmask h
  | permute axes =>
    obtain ⟨w, hw, rfl⟩ := map_setTop_eq_ok.mp h
    obtain ⟨-, -, -, -, rfl⟩ := View.permute_eq_ok.mp hw
    rw [hmask]
    exact View.mask_create ..
  | expand target =>
    obtain ⟨w, hw, rfl⟩ := map_setTop_eq_ok.mp h
    obtain ⟨-, -, -, -, rfl⟩ := View.expand_eq_ok.mp hw
    rw [hmask]
    exact View.mask_create ..
  | shrink windows =>
    obtain ⟨w, hw, rfl⟩ := map_setTop_eq_ok.mp h
    obtain ⟨-, -, -, -, -, -, rfl⟩ := View.shrink_eq_ok.mp hw
    rw [hmask]
    exact View.mask_create ..
  | stride factors =>
    obtain ⟨w, hw, rfl⟩ := map_setTop_eq_ok.mp h
    obtain ⟨-, -, -, -, -, -, rfl⟩ := View.stride_eq_ok.mp hw
    rw [hmask]
    exact View.mask_create ..
  | pad margins => exact absurd rfl (hm margins)

/-- No view hides a position. -/
def Bare (t : Tracker) : Prop := ∀ v ∈ t.stack, v.mask = none

theorem Bare.top (ht : t.Bare) : t.top.mask = none := ht t.top List.mem_cons_self

theorem bare_ofShape (shape : Shape) : (ofShape shape).Bare :=
  List.forall_mem_singleton.mpr (mask_ofShape shape)

theorem Bare.reshape {target : Shape} (ht : t.Bare) (h : t.reshape target = .ok t') : t'.Bare := by
  refine List.forall_mem_cons.mpr ⟨unmasked_reshape ht.top h, ?_⟩
  rcases reshape_eq_ok.mp h with ⟨-, rfl⟩ | ⟨-, -, -, ⟨top, -, rfl⟩ | ⟨-, rfl⟩⟩
  · exact (List.forall_mem_cons.mp ht).2
  · exact (List.forall_mem_cons.mp ht).2
  · exact ht

/-- Without padding nothing is hidden. -/
theorem Bare.move (ht : t.Bare) {m : Movement} (hm : m.Rearranges) (h : t.move m = .ok t') :
    t'.Bare := by
  cases m with
  | reshape target => exact ht.reshape h
  | pad margins => exact absurd rfl (hm margins)
  | permute | expand | shrink | stride =>
    refine List.forall_mem_cons.mpr ⟨unmasked_move ht.top hm h, ?_⟩
    obtain ⟨w, -, rfl⟩ := map_setTop_eq_ok.mp h
    exact (List.forall_mem_cons.mp ht).2

/-- A movement that rearranges finds at each position what was found at its source. -/
theorem Into.locate_move (ht : t.Into dims n) (hmask : t.top.mask = none) {m : Movement}
    (hm : m.Rearranges) (h : t.move m = .ok t') (hnew : t'.shape.static? = some new) :
    ∀ flat < new.prod, m.sourceAt dims new flat < dims.prod
      ∧ t'.locate flat = t.locate (m.sourceAt dims new flat) := by
  have htop {r : Except MovementError View} (hr : t.setTop <$> r = .ok t')
      (hrearranged : ∀ w, r = .ok w → w.shape.static? = some new →
        View.Rearranged m dims t.top w) :
      ∀ flat < new.prod, m.sourceAt dims new flat < dims.prod
        ∧ t'.locate flat = t.locate (m.sourceAt dims new flat) := by
    obtain ⟨w, hw, rfl⟩ := map_setTop_eq_ok.mp hr
    exact fun flat hflat => ht.locate_setTop (hrearranged w hw hnew) hnew hflat
  cases m with
  | reshape target =>
    rw [shape_reshape h] at hnew
    obtain ⟨hprod, hlocate⟩ := ht.locate_reshape h hnew
    intro flat hflat
    rw [Movement.sourceAt_reshape hnew hprod hflat, hprod]
    exact ⟨hflat, hlocate flat hflat⟩
  | permute axes =>
    exact htop h fun w hw _ => ht.proper.top.rearranged_permute hmask ht.shape hw
  | expand target =>
    refine htop h fun w hw htarget => ?_
    have hshape : w.shape = target := by
      obtain ⟨-, -, -, -, rfl⟩ := View.expand_eq_ok.mp hw
      exact View.create_shape ..
    exact ht.proper.top.rearranged_expand hmask ht.shape (hshape ▸ htarget) hw
  | shrink windows =>
    exact htop h fun w hw _ => View.Proper.rearranged_shrink hmask ht.shape hw
  | stride factors =>
    exact htop h fun w hw _ => ht.proper.top.rearranged_stride hmask ht.shape hw
  | pad margins => exact absurd rfl (hm margins)

/-- A plain movement leads to known extents. -/
theorem Into.exists_dims_move (ht : t.Into dims n) (hmask : t.top.mask = none) {m : Movement}
    (hm : m.Plain) (h : t.move m = .ok t') : ∃ new, t'.shape.static? = some new := by
  have htop {r : Except MovementError View} (hr : t.setTop <$> r = .ok t')
      (hshape : ∀ w, r = .ok w → ∃ new, w.shape.static? = some new) :
      ∃ new, t'.shape.static? = some new := by
    obtain ⟨w, hw, rfl⟩ := map_setTop_eq_ok.mp hr
    exact hshape w hw
  have hrearranged {w : View} (hw : View.Rearranged m dims t.top w) :
      ∃ new, w.shape.static? = some new := by
    obtain ⟨new, hnew, -⟩ := hw.index
    exact ⟨new, hnew⟩
  cases m with
  | reshape target =>
    rw [shape_reshape h]
    exact Option.isSome_iff_exists.mp hm
  | permute axes =>
    exact htop h fun w hw => hrearranged (ht.proper.top.rearranged_permute hmask ht.shape hw)
  | expand target =>
    refine htop h fun w hw => ?_
    obtain ⟨-, -, -, -, rfl⟩ := View.expand_eq_ok.mp hw
    rw [View.create_shape]
    exact Option.isSome_iff_exists.mp hm
  | shrink windows =>
    exact htop h fun w hw =>
      hrearranged (View.Proper.rearranged_shrink hmask ht.shape hw)
  | stride factors =>
    exact htop h fun w hw => hrearranged (ht.proper.top.rearranged_stride hmask ht.shape hw)
  | pad margins => exact hm.elim

end TensorGraph.Tracker
