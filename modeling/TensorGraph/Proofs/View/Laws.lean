import TensorGraph.Proofs.View.Axes
import TensorGraph.Proofs.View.Words
/-!
# What movements do to a masked view

A movement takes the mask of a view along: spans change places with their axes, are repeated, cut,
thinned out or shifted, so that a position of the result is visible exactly if its source is. The
result is made like the view itself, and an argument is refused only if it is malformed. A movement
with a well-formed argument may still be stopped, where a number on the way leaves its word.

- `View.Made`: a view with known extents, made from a stride for each axis and a mask inside them.
- `View.Affords`: whether what a movement computes on the way fits into the words.
- `unpad`: the position that a padded position comes from, if it is none of those added.
- `View.Made.laws`: what each movement accepts, which extents it gives, and what it shows.
-/

namespace TensorGraph

/-- A view with the extents `dims` in canonical form, made from a stride for each axis and from a
mask inside the extents. -/
def View.Made (dims : List Nat) (v : View) : Prop :=
  ∃ strides offset mask, strides.length = dims.length
    ∧ (∀ spans, mask = some spans → Fits (dims.map .static) spans)
    ∧ v = create (.ofNats dims) strides offset mask

/-! ## Canonical forms -/

/-- The strides with those of unit axes set to zero. -/
def zeroUnits (dims : List Extent) (strides : List Int64) : List Int64 :=
  (dims.zip strides).map fun (d, s) => if d = .static 1 then 0 else s

theorem zeroUnits_zeroUnits (dims : List Extent) (strides : List Int64) :
    zeroUnits dims (zeroUnits dims strides) = zeroUnits dims strides := by
  induction dims generalizing strides with
  | nil => rfl
  | cons d dims ih =>
    cases strides with
    | nil => rfl
    | cons s strides =>
      have ih := ih strides
      simp only [zeroUnits, List.zip_cons_cons, List.map_cons] at ih ⊢
      rw [ih]
      split <;> rfl

section Create

variable {shape : Shape} {strides : List Int64} {offset : Int64} {spans : List Span}

theorem View.create_none : View.create shape strides offset none
    = ⟨shape, zeroUnits shape.dims strides, offset, none⟩ := rfl

theorem View.create_hidden (h : spans.any (fun r => r.stop ≤ r.start) = true) :
    View.create shape strides offset (some spans)
      = ⟨shape, spans.map fun _ => 0, 0, some (spans.map fun _ => ⟨0, 0⟩)⟩ :=
  if_pos h

theorem View.create_full (h : ¬spans.any (fun r => r.stop ≤ r.start) = true)
    (hfull : (spans.zip shape.dims).all (fun (r, d) => d.static?.any fun n => r = ⟨0, n⟩) = true) :
    View.create shape strides offset (some spans) = View.create shape strides offset none :=
  (if_neg h).trans (if_pos hfull)

theorem View.create_masked (h : ¬spans.any (fun r => r.stop ≤ r.start) = true)
    (hfull : ¬(spans.zip shape.dims).all (fun (r, d) => d.static?.any fun n => r = ⟨0, n⟩) = true) :
    View.create shape strides offset (some spans)
      = ⟨shape, zeroUnits shape.dims strides, offset, some spans⟩ :=
  (if_neg h).trans (if_neg hfull)

/-- A canonical form is its own canonical form. -/
theorem View.create_create (mask : Option (List Span)) :
    let v := View.create shape strides offset mask
    View.create shape v.strides v.offset v.mask = v := by
  have hnone : View.create shape (zeroUnits shape.dims strides) offset none
      = View.create shape strides offset none := by
    rw [create_none, create_none, zeroUnits_zeroUnits]
  cases mask with
  | none => exact hnone
  | some spans =>
    dsimp only
    by_cases hempty : spans.any (fun r => r.stop ≤ r.start) = true
    · -- what is hidden altogether stays so
      obtain ⟨r, hr, -⟩ := List.any_eq_true.mp hempty
      have hempty' : (spans.map fun _ => (⟨0, 0⟩ : Span)).any (fun r => r.stop ≤ r.start) = true :=
        List.any_eq_true.mpr ⟨⟨0, 0⟩, List.mem_map.mpr ⟨r, hr, rfl⟩, by simp⟩
      rw [create_hidden hempty, create_hidden hempty', List.map_map, List.map_map]
      rfl
    · by_cases hfull : (spans.zip shape.dims).all
          (fun (r, d) => d.static?.any fun n => r = ⟨0, n⟩) = true
      · rw [create_full hempty hfull]
        exact hnone
      · rw [create_masked hempty hfull, create_masked hempty hfull, zeroUnits_zeroUnits]

end Create

namespace View

variable {v w : View} {old new : List Nat}

theorem Made.static? (hv : v.Made old) : v.shape.static? = some old := by
  obtain ⟨strides, offset, mask, -, -, rfl⟩ := hv
  rw [create_shape, Shape.static?_ofNats]

theorem Made.rank (hv : v.Made old) : v.shape.rank = old.length := Shape.rank_eq hv.static?

theorem Made.proper (hv : v.Made old) : v.Proper := by
  obtain ⟨strides, offset, mask, hstrides, hmask, rfl⟩ := hv
  exact proper_create (by rw [hstrides, Shape.rank_eq (Shape.static?_ofNats old)]) hmask

theorem Made.length_strides (hv : v.Made old) : v.strides.length = old.length := by
  rw [hv.proper.length_strides, hv.rank]

theorem Made.fits (hv : v.Made old) {spans : List Span} (h : v.mask = some spans) :
    Fits (old.map .static) spans :=
  Shape.static?_eq_some.mp hv.static? ▸ hv.proper.fits spans h

theorem Made.length_spans (hv : v.Made old) {spans : List Span} (h : v.mask = some spans) :
    spans.length = old.length := by
  rw [hv.proper.length_spans h, hv.rank]

/-- A proper view in canonical form is made from its own strides, offset and mask. -/
theorem Proper.made {shape : Shape} {strides : List Int64} {offset : Int64}
    {mask : Option (List Span)} (h : (create shape strides offset mask).Proper)
    (hshape : shape.static? = some new) : (create shape strides offset mask).Made new := by
  obtain rfl := Shape.eq_ofNats hshape
  refine ⟨_, _, _, ?_, fun spans hspans => ?_, (create_create ..).symm⟩
  · rw [h.length_strides, create_shape, Shape.rank_eq hshape]
  · have := h.fits spans hspans
    rwa [create_shape] at this

/-- The number of spans of a mask, if it has one, after its spans were moved. -/
theorem length_of_map {f : List Span → List Span} {mask : Option (List Span)} {n : Nat}
    (h : ∀ spans, mask = some spans → (f spans).length = n) :
    ∀ spans, mask.map f = some spans → spans.length = n := by
  intro spans hspans
  obtain ⟨spans, hmask, rfl⟩ := Option.map_eq_some_iff.mp hspans
  exact h spans hmask

/-- What a view in canonical form shows, in terms of what another view shows at a source of the
position: they agree if the masks and the places do. -/
theorem index_create_eq {shape : Shape} {p q : List Nat} (hs : shape.static? = some new)
    (hp : Inside new p) {strides : List Int64} {offset : Int64} {mask : Option (List Span)}
    (hlen : ∀ spans, mask = some spans → spans.length = new.length)
    (hmask : maskShows mask p = maskShows v.mask q)
    (hplace : offset + dot p strides = v.offset + dot q v.strides) :
    (create shape strides offset mask).index p = v.index q := by
  rw [index_create hs hp strides offset hlen, index_eq, hmask, hplace]

/-- The numbers that a movement of a view with the extents `old` computes on the way fit into their
words. -/
def Affords (v : View) (old : List Nat) : Movement → Prop
  | .reshape target => v.reshapeFits target = true
  | .permute axes => (v.permuted axes).formable = true
  | .expand target => ∀ spans, repeatSpans v.shape target v.mask.isSome v.shape.dims target.dims
      (v.mask.getD []) = .ok spans → (v.expanded target spans).formable = true
  | .shrink windows => (v.placeSums (windows.map Span.start)).all fitsWord = true
      ∧ (v.shrunk windows).formable = true
  | .stride factors => (strideSums v.offset.toInt (old.zip (v.strides.zip factors))).all fitsWord = true
      ∧ (v.strided old factors).formable = true
  | .pad margins => (∀ m ∈ margins, m.before = 0 ∧ m.after = 0)
      ∨ (v.padSums margins).all fitsWord = true
        ∧ (padCounts old (v.spans old) margins).all fitsCount = true
        ∧ (v.padded old margins).formable = true

/-- How far the places of a view with the extents `old` may lie from the beginning of the store. -/
def spread (v : View) (old : List Nat) : Nat :=
  v.offset.toInt.natAbs + stretch old v.strides

theorem stretch_zeroUnits_le (bounds : List Nat) (dims : List Extent) (strides : List Int64) :
    stretch bounds (zeroUnits dims strides) ≤ stretch bounds strides := by
  induction dims generalizing bounds strides with
  | nil => simp [zeroUnits]
  | cons d dims ih =>
    match bounds, strides with
    | [], _ => simp
    | _ :: _, [] => simp [zeroUnits]
    | n :: bounds, s :: strides =>
      have ih := ih bounds strides
      rw [zeroUnits, List.zip_cons_cons, List.map_cons, stretch_cons, stretch_cons]
      refine Nat.add_le_add ?_ ih
      dsimp only
      split
      · simp
      · exact Nat.le_refl _

/-- A canonical form lies no farther from the beginning of the store than what it is made from. -/
theorem spread_create_le (shape : Shape) (strides : List Int64) (offset : Int64)
    (mask : Option (List Span)) (bounds : List Nat) :
    (create shape strides offset mask).spread bounds
      ≤ offset.toInt.natAbs + stretch bounds strides := by
  have hshown := Nat.add_le_add_left (stretch_zeroUnits_le bounds shape.dims strides)
    offset.toInt.natAbs
  cases mask with
  | none => exact hshown
  | some spans =>
    by_cases hempty : spans.any (fun r => r.stop ≤ r.start) = true
    · -- what is hidden altogether has no strides
      rw [create_hidden hempty, spread, List.map_const', stretch_zeros]
      exact Nat.zero_le _
    · by_cases hfull : (spans.zip shape.dims).all
          (fun (r, d) => d.static?.any fun n => r = ⟨0, n⟩) = true
      · rw [create_full hempty hfull]
        exact hshown
      · rw [create_masked hempty hfull]
        exact hshown

/-- What is known of a movement: the arguments that are accepted are the well-formed ones, so long as
the numbers on the way fit, and the result is a view with the extents `new` that shows `shows p` at
each position `p`. -/
structure Moved (result : Except MovementError View) (wellFormed fits roomy : Prop) (new : List Nat)
    (shows : List Nat → Option Int64) : Prop where
  /-- The movement succeeds exactly on well-formed arguments for which the numbers fit. -/
  accepted : (∃ w, result = .ok w) ↔ wellFormed ∧ fits
  /-- It is stopped if they do not fit. -/
  stopped : wellFormed → ¬fits → result = .error .overflow
  /-- They fit if extents, strides and offset are small enough. -/
  ample : wellFormed → roomy → fits
  /-- The result is made like the view that is moved. -/
  made : ∀ w, result = .ok w → w.Made new
  /-- The result shows at each position what it should. -/
  index : ∀ w, result = .ok w → ∀ p, Inside new p → w.index p = shows p

/-- Sums and differences along strides that do not go far are words. -/
theorem runningResults_strides {f : Int → Int → Int}
    (hf : ∀ a x, (f a x).natAbs ≤ a.natAbs + x.natAbs) {start : Int} {bounds p : List Nat}
    {strides : List Int64} (hp : List.Forall₂ (· ≤ ·) p bounds)
    (h : start.natAbs + stretch bounds strides < 2 ^ 63) :
    (runningResults f start (List.zipWith (fun i (s : Int64) => residue i * s.toInt) p strides)).all
      fitsWord = true := by
  refine runningResults_fits hf (Nat.lt_of_le_of_lt (Nat.add_le_add_left ?_ _) h)
  replace h : stretch bounds strides < 2 ^ 63 := Nat.lt_of_le_of_lt (Nat.le_add_left _ _) h
  induction hp generalizing strides with
  | nil => exact Nat.le_refl 0
  | @cons i n p bounds hi _ ih =>
    cases strides with
    | nil => exact Nat.le_refl 0
    | cons s strides =>
      rw [stretch_cons] at h
      simp only [List.zipWith_cons_cons, List.sum_cons, List.map_cons, stretch_cons]
      exact Nat.add_le_add (residue_mul_natAbs_le hi (by omega)) (ih (by omega))

/-- The place of a position is found, if no position is too far from the beginning of the store. -/
theorem lookup_of_spread (h : v.spread old < 2 ^ 63) {p : List Nat} (hp : List.Forall₂ (· ≤ ·) p old) :
    v.lookup p = .ok (v.index p) := by
  refine if_pos ?_
  rw [indexFits, placeSums, runningResults_strides Int.natAbs_add_le hp h, Bool.or_true]

/-! ## Axes in another order -/

/-- Spans that go with their axes show what they showed. -/
theorem maskShows_pick {axes p : List Nat} {spans : List Span}
    (hperm : axes.Perm (List.range old.length)) (hspans : spans.length = old.length)
    (hp : p.length = axes.length) :
    maskShows (some (pick spans axes)) p
      = maskShows (some spans) ((Movement.permute axes).source old p) := by
  have hsource : ((Movement.permute axes).source old p).length = spans.length := by
    rw [hspans, Movement.source, List.length_map, List.length_range]
  have hzip : p.zip (pick spans axes)
      = pick (((Movement.permute axes).source old p).zip spans) axes := by
    rw [pick_zip hsource, pick_permuted hperm hp]
  have hlen : (((Movement.permute axes).source old p).zip spans).length = old.length := by
    rw [List.length_zip, hsource, Nat.min_self, hspans]
  have hrange : pick (((Movement.permute axes).source old p).zip spans) (List.range old.length)
      = ((Movement.permute axes).source old p).zip spans := by
    rw [← hlen, pick_range]
  simp only [maskShows, hzip]
  rw [(pick_perm hperm _).all_eq, hrange]

theorem Made.permute (hv : v.Made old) (axes : List Nat) :
    Moved (v.permute axes) (axes.Perm (List.range old.length)) (v.Affords old (.permute axes))
      (breadth old < 2 ^ 63) (pick old axes)
      fun p => v.index ((Movement.permute axes).source old p) := by
  have hperm_iff : axes.Perm (List.range old.length)
      ↔ axes.length = v.shape.rank ∧ (∀ a ∈ axes, a < axes.length) ∧ axes.Nodup := by
    rw [hv.rank]
    constructor
    · intro hperm
      have hlen : axes.length = old.length := by rw [hperm.length_eq, List.length_range]
      refine ⟨hlen, fun a ha => ?_, hperm.nodup_iff.mpr List.nodup_range⟩
      rw [hlen]
      exact List.mem_range.mp (hperm.mem_iff.mp ha)
    · rintro ⟨hlen, hlt, hnodup⟩
      exact perm_range hnodup (hlen ▸ hlt) hlen
  have hshape : Shape.static? ⟨pick v.shape.dims axes⟩ = some (pick old axes) := by
    rw [Shape.static?_eq_some, Shape.static?_eq_some.mp hv.static?, pick_map]
  constructor
  case accepted =>
    constructor
    · rintro ⟨w, hw⟩
      obtain ⟨hlen, hlt, hnodup, hformable, rfl⟩ := permute_eq_ok.mp hw
      exact ⟨hperm_iff.mpr ⟨hlen, hlt, hnodup⟩, hformable⟩
    · rintro ⟨hperm, hfits⟩
      obtain ⟨hlen, hlt, hnodup⟩ := hperm_iff.mp hperm
      exact ⟨_, permute_eq_ok.mpr ⟨hlen, hlt, hnodup, hfits, rfl⟩⟩
  case stopped =>
    intro hperm hfits
    obtain ⟨hlen, hlt, hnodup⟩ := hperm_iff.mp hperm
    rw [View.permute, requireRank_eq_ok.mpr hlen, ok_bind, if_pos (by simpa using ⟨hlt, hnodup⟩)]
    exact formed_eq_error hfits
  case ample =>
    intro hperm hbroad
    have hpermuted : (v.permuted axes).shape.static? = some (pick old axes) :=
      (congrArg _ (create_shape ..)).trans hshape
    refine formable_of_breadth hpermuted ?_
    rwa [breadth_perm (pick_perm hperm old), pick_range]
  case made =>
    intro w hw
    have hproper := hv.proper.permute hw
    obtain ⟨-, -, -, -, rfl⟩ := permute_eq_ok.mp hw
    exact hproper.made hshape
  case index =>
    intro w hw p hp
    obtain ⟨hlen, hlt, hnodup, -, rfl⟩ := permute_eq_ok.mp hw
    have hperm := hperm_iff.mpr ⟨hlen, hlt, hnodup⟩
    have hlt : ∀ a ∈ axes, a < old.length := fun a ha => List.mem_range.mp (hperm.mem_iff.mp ha)
    have hp' : p.length = axes.length := by rw [hp.length_eq, length_pick hlt]
    refine index_create_eq hshape hp ?_ ?_ ?_
    · refine length_of_map fun spans hspans => ?_
      rw [length_pick (by rwa [hv.length_spans hspans]), length_pick hlt]
    · cases hmask : v.mask with
      | none => rfl
      | some spans => exact maskShows_pick hperm (hv.length_spans hmask) hp'
    · rw [dot_pick hnodup (by rwa [hv.length_strides]) hp', axisSum_perm _ hperm, Movement.source,
        ← hv.length_strides, dot_map_range]

/-! ## Repeating unit axes -/

/-- Masks show the same if they do so along the first axis and along the others. -/
theorem maskShows_cons_congr {r r' : Span} {spans spans' : List Span} {i i' : Nat} {p p' : List Nat}
    (h : (r'.start ≤ i' ∧ i' < r'.stop) ↔ (r.start ≤ i ∧ i < r.stop))
    (hrest : maskShows (some spans') p' = maskShows (some spans) p) :
    maskShows (some (r' :: spans')) (i' :: p') = maskShows (some (r :: spans)) (i :: p) := by
  simp only [maskShows, List.zip_cons_cons, List.all_cons] at hrest ⊢
  rw [hrest]
  congr 1
  exact Bool.eq_iff_iff.mpr (by simpa using h)

/-- A repeated span shows its coordinates if the one coordinate of the unit axis was visible. -/
theorem repeatSpan_shows {n m i : Nat} {r : Span} (hnm : n = m ∨ n = 1) (hr : r.stop ≤ n)
    (hi : i < m) :
    ((repeatSpan (.static n) (.static m) r).start ≤ i
        ∧ i < (repeatSpan (.static n) (.static m) r).stop)
      ↔ (r.start ≤ (if n = 1 then 0 else i) ∧ (if n = 1 then 0 else i) < r.stop) := by
  rw [repeatSpan]
  by_cases heq : n = m
  · subst heq
    rw [if_pos rfl]
    split
    · next h1 => rw [show i = 0 by omega]
    · rfl
  · have h1 : n = 1 := hnm.resolve_left heq
    subst h1
    rw [if_neg (fun h => heq (Extent.static.inj h)), if_pos rfl]
    split
    · next hfull =>
      subst hfull
      simp only [Extent.static?, Option.getD_some]
      omega
    · next hpart =>
      -- a span of a unit axis other than the full one is empty
      have : ¬(r.start = 0 ∧ r.stop = 1) := fun h => hpart (by obtain ⟨a, b⟩ := r; simp_all)
      simp only [Nat.not_lt_zero, and_false, false_iff]
      omega

theorem maskShows_repeatSpans {source target : Shape} {masked : Bool} {spans spans' : List Span}
    {p : List Nat} (h : List.Forall₂ (fun n m => n = m ∨ n = 1) old new)
    (hfits : Fits (old.map .static) spans)
    (hrepeat : repeatSpans source target masked (old.map .static) (new.map .static) spans
      = .ok spans') (hp : Inside new p) :
    maskShows (some spans') p
      = maskShows (some spans) (List.zipWith (fun n i => if n = 1 then 0 else i) old p) := by
  induction h generalizing spans spans' p with
  | nil =>
    cases hp
    rfl
  | @cons n m old new hnm _ ih =>
    cases hp with
    | @cons _ i _ p hi hp =>
      rw [List.map_cons] at hfits
      cases hfits with
      | @cons _ r _ spans hr hfits =>
        obtain ⟨-, rest, hrest, rfl⟩ := repeatSpans_cons_eq_ok.mp hrepeat
        exact maskShows_cons_congr (repeatSpan_shows hnm (hr n rfl) hi) (ih hfits hrest hp)

/-- Only unit axes are repeated, so the spans of known extents can be. -/
theorem repeatSpans_isOk (source target : Shape) (masked : Bool)
    (h : List.Forall₂ (fun n m => n = m ∨ n = 1) old new) (spans : List Span) :
    ∃ spans', repeatSpans source target masked (old.map .static) (new.map .static) spans
      = .ok spans' := by
  induction h generalizing spans with
  | nil => exact ⟨spans, rfl⟩
  | @cons n m old new hnm _ ih =>
    obtain ⟨rest, hrest⟩ := ih spans.tail
    refine ⟨_, repeatSpans_cons_eq_ok.mpr ⟨?_, rest, hrest, rfl⟩⟩
    rcases hnm with rfl | rfl
    · exact .inl rfl
    · exact .inr ⟨rfl, fun _ => nofun⟩

theorem Made.expand (hv : v.Made old) (new : List Nat) :
    Moved (v.expand (.ofNats new)) (List.Forall₂ (fun n m => n = m ∨ n = 1) old new)
      (v.Affords old (.expand (.ofNats new))) (breadth new < 2 ^ 63) new
      fun p => v.index ((Movement.expand (.ofNats new)).source old p) := by
  have hdims := Shape.static?_eq_some.mp hv.static?
  have hnew := Shape.static?_ofNats new
  have hforall {spans spans' : List Span} {masked : Bool}
      (hrank : (Shape.ofNats new).rank = v.shape.rank)
      (h : repeatSpans v.shape (.ofNats new) masked v.shape.dims (Shape.ofNats new).dims spans
        = .ok spans') : List.Forall₂ (fun n m => n = m ∨ n = 1) old new := by
    have := forall₂_of_repeatSpans (by rw [← Shape.rank, ← Shape.rank, hrank]) h
    rw [hdims, Shape.ofNats, List.forall₂_map_left_iff, List.forall₂_map_right_iff] at this
    exact this.imp fun n m h => by simpa using h
  have hrank (h : List.Forall₂ (fun n m => n = m ∨ n = 1) old new) :
      (Shape.ofNats new).rank = v.shape.rank := by
    rw [hv.rank, Shape.rank_eq hnew, h.length_eq]
  have hrepeats (h : List.Forall₂ (fun n m => n = m ∨ n = 1) old new) :
      ∃ spans, repeatSpans v.shape (.ofNats new) v.mask.isSome v.shape.dims (Shape.ofNats new).dims
        (v.mask.getD []) = .ok spans :=
    hdims ▸ repeatSpans_isOk v.shape (.ofNats new) v.mask.isSome h (v.mask.getD [])
  constructor
  case accepted =>
    constructor
    · rintro ⟨w, hw⟩
      obtain ⟨hrank, spans, hrepeat, hformable, rfl⟩ := expand_eq_ok.mp hw
      refine ⟨hforall hrank hrepeat, fun spans' hspans' => ?_⟩
      obtain rfl := Except.ok.inj (hrepeat.symm.trans hspans')
      exact hformable
    · rintro ⟨h, hfits⟩
      obtain ⟨spans, hspans⟩ := hrepeats h
      exact ⟨_, expand_eq_ok.mpr ⟨hrank h, spans, hspans, hfits spans hspans, rfl⟩⟩
  case stopped =>
    intro h hfits
    obtain ⟨spans, hspans⟩ := hrepeats h
    rw [View.expand, requireRank_eq_ok.mpr (hrank h), ok_bind, hspans, ok_bind]
    refine formed_eq_error fun hformable => hfits fun spans' hspans' => ?_
    obtain rfl := Except.ok.inj (hspans.symm.trans hspans')
    exact hformable
  case ample =>
    intro _ hbroad spans _
    exact formable_of_breadth ((congrArg _ (create_shape ..)).trans hnew) hbroad
  case made =>
    intro w hw
    have hproper := hv.proper.expand hw
    obtain ⟨-, spans, -, -, rfl⟩ := expand_eq_ok.mp hw
    exact hproper.made hnew
  case index =>
    intro w hw p hp
    obtain ⟨hrank, spans, hrepeat, -, rfl⟩ := expand_eq_ok.mp hw
    have h := hforall hrank hrepeat
    have hunits := hv.proper.units
    rw [hdims, List.forall₂_map_left_iff] at hunits
    have hp' : p.length = old.length := by rw [hp.length_eq, h.length_eq]
    -- a repeated axis has the stride zero, so its coordinate does not count
    cases hmask : v.mask with
    | none =>
      refine index_create_eq hnew hp (by simp) (by rw [hmask]; rfl) ?_
      rw [Movement.source, ← dot_repeated (hunits.imp fun n s h hn => h (congrArg _ hn)) hp']
    | some spans₀ =>
      rw [hdims, hmask] at hrepeat
      refine index_create_eq hnew hp ?_ ?_ ?_
      · rintro _ ⟨⟩
        have hfits := fits_repeatSpans (by simp [h.length_eq, Shape.ofNats]) (hv.fits hmask) hrepeat
        simpa [Shape.ofNats] using hfits.length_eq.symm
      · rw [hmask]
        exact maskShows_repeatSpans h (hv.fits hmask) hrepeat hp
      · rw [Movement.source, ← dot_repeated (hunits.imp fun n s h hn => h (congrArg _ hn)) hp']

/-! ## Cutting out spans -/

/-- A clipped span shows the coordinates that the span shows inside the window. -/
theorem clipSpan_shows {r window : Span} {i : Nat} (hwindow : window.start ≤ window.stop)
    (hi : i < window.stop - window.start) :
    ((clipSpan r window).start ≤ i ∧ i < (clipSpan r window).stop)
      ↔ (r.start ≤ window.start + i ∧ window.start + i < r.stop) := by
  simp only [clipSpan]
  omega

theorem maskShows_clipSpan {windows spans : List Span} {p : List Nat}
    (h : List.Forall₂ (fun n (r : Span) => r.start ≤ r.stop ∧ r.stop ≤ n) old windows)
    (hspans : spans.length = old.length)
    (hp : Inside (windows.map fun r => r.stop - r.start) p) :
    maskShows (some (List.zipWith clipSpan spans windows)) p
      = maskShows (some spans) (List.zipWith (fun r i => r.start + i) windows p) := by
  induction h generalizing spans p with
  | nil =>
    cases hp
    rw [List.length_eq_zero_iff.mp hspans]
    rfl
  | @cons n window old windows hwindow _ ih =>
    cases hp with
    | @cons _ i _ p hi hp =>
      cases spans with
      | nil => simp at hspans
      | cons r spans =>
        exact maskShows_cons_congr (clipSpan_shows hwindow.1 hi) (ih (by simpa using hspans) hp)

theorem Made.shrink (hv : v.Made old) (windows : List Span) :
    Moved (v.shrink windows)
      (List.Forall₂ (fun n (r : Span) => r.start ≤ r.stop ∧ r.stop ≤ n) old windows)
      (v.Affords old (.shrink windows)) (breadth old < 2 ^ 63 ∧ v.spread old < 2 ^ 63)
      (windows.map fun r => r.stop - r.start)
      fun p => v.index ((Movement.shrink windows).source old p) := by
  have hiff : List.Forall₂ (fun n (r : Span) => r.start ≤ r.stop ∧ r.stop ≤ n) old windows
      ↔ windows.length = v.shape.rank
        ∧ ∀ q ∈ windows.zip old, q.1.start ≤ q.1.stop ∧ q.1.stop ≤ q.2 := by
    have hflip : List.Forall₂ (fun n (r : Span) => r.start ≤ r.stop ∧ r.stop ≤ n) old windows
        ↔ List.Forall₂ (fun (r : Span) n => r.start ≤ r.stop ∧ r.stop ≤ n) windows old :=
      ⟨fun h => h.flip, fun h => h.flip⟩
    rw [hflip, hv.rank, List.forall₂_iff_zip]
    simp
  constructor
  case accepted =>
    constructor
    · rintro ⟨w, hw⟩
      obtain ⟨hlen, dims, hdims, hwindows, hwords, hformable, rfl⟩ := shrink_eq_ok.mp hw
      obtain rfl : old = dims := Option.some.inj (hv.static?.symm.trans hdims)
      exact ⟨hiff.mpr ⟨hlen, hwindows⟩, hwords, hformable⟩
    · rintro ⟨h, hwords, hformable⟩
      obtain ⟨hlen, hwindows⟩ := hiff.mp h
      exact ⟨_, shrink_eq_ok.mpr ⟨hlen, old, hv.static?, hwindows, hwords, hformable, rfl⟩⟩
  case stopped =>
    intro h hfits
    obtain ⟨hlen, hwindows⟩ := hiff.mp h
    rw [shrink_eq hlen hv.static? hwindows]
    by_cases hwords : (v.placeSums (windows.map Span.start)).all fitsWord = true
    · rw [requireWords_eq_ok.mpr hwords, ok_bind]
      exact formed_eq_error fun hformable => hfits ⟨hwords, hformable⟩
    · rw [requireWords_eq_error hwords, error_bind]
  case ample =>
    rintro h ⟨hbroad, hspread⟩
    constructor
    · -- no window starts behind the end of its axis
      refine runningResults_strides Int.natAbs_add_le ?_ hspread
      rw [List.forall₂_map_left_iff]
      exact h.flip.imp fun r n hr => hr.1.trans hr.2
    · refine formable_of_breadth ((congrArg _ (create_shape ..)).trans (Shape.static?_ofNats _)) ?_
      refine Nat.lt_of_le_of_lt (breadth_le_breadth ?_) hbroad
      rw [List.forall₂_map_left_iff]
      exact h.flip.imp fun r n hr => by omega
  case made =>
    intro w hw
    have hproper := hv.proper.shrink hw
    obtain ⟨-, -, -, -, -, -, rfl⟩ := shrink_eq_ok.mp hw
    exact hproper.made (Shape.static?_ofNats _)
  case index =>
    intro w hw p hp
    obtain ⟨hlen, dims, hdims, hwindows, -, -, rfl⟩ := shrink_eq_ok.mp hw
    obtain rfl : old = dims := Option.some.inj (hv.static?.symm.trans hdims)
    have h := hiff.mpr ⟨hlen, hwindows⟩
    refine index_create_eq (Shape.static?_ofNats _) hp ?_ ?_ ?_
    · refine length_of_map fun spans hspans => ?_
      simp [hv.length_spans hspans, h.length_eq]
    · cases hmask : v.mask with
      | none => rfl
      | some spans => exact maskShows_clipSpan h (hv.length_spans hmask) hp
    · have hp' : windows.length = p.length := by simpa using hp.length_eq.symm
      rw [place_eq, Movement.source, dot_zipWith_add Span.start hp']
      grind

/-! ## Walking with strides -/

/-- The multiples of a step below `n` are those before `strideCount`. -/
theorem lt_strideCount {n step i : Nat} (hstep : 0 < step) :
    i < strideCount n step ↔ i * step < n := by
  rw [strideCount, Nat.lt_iff_add_one_le, Nat.le_div_iff_mul_le hstep, Nat.succ_mul]
  omega

/-- A thinned out span shows the steps whose coordinates the span shows. -/
theorem strideSpan_shows {n i : Nat} {m : Int} {r : Span} (hm : m ≠ 0) (hr : r.stop ≤ n)
    (hi : i < strideCount n m.natAbs) :
    ((strideSpan n m r).start ≤ i ∧ i < (strideSpan n m r).stop)
      ↔ (r.start ≤ strideCoordinate n m i ∧ strideCoordinate n m i < r.stop) := by
  have hstep : 0 < m.natAbs := Int.natAbs_pos.mpr hm
  rw [lt_strideCount hstep] at hi
  rw [strideSpan, strideCoordinate]
  by_cases hneg : m < 0
  · rw [if_neg (by omega), if_pos hneg, ← Nat.not_lt, lt_strideCount hstep, lt_strideCount hstep]
    omega
  · rw [if_pos (by omega), if_neg hneg, ← Nat.not_lt, lt_strideCount hstep, lt_strideCount hstep]
    omega

theorem maskShows_strideSpan {factors : List Int} {spans : List Span} {p : List Nat}
    (hfactors : ∀ m ∈ factors, m ≠ 0) (hlen : factors.length = old.length)
    (hfits : Fits (old.map .static) spans)
    (hp : Inside (List.zipWith (fun n m => strideCount n m.natAbs) old factors) p) :
    maskShows (some (List.zipWith (fun (n, m) r => strideSpan n m r) (old.zip factors) spans)) p
      = maskShows (some spans)
        (List.zipWith (fun (n, m) i => strideCoordinate n m i) (old.zip factors) p) := by
  induction old generalizing factors spans p with
  | nil =>
    cases hp
    rfl
  | cons n old ih =>
    cases factors with
    | nil => simp at hlen
    | cons m factors =>
      rw [List.map_cons] at hfits
      cases hfits with
      | @cons _ r _ spans hr hfits =>
        cases hp with
        | @cons _ i _ p hi hp =>
          rw [List.forall_mem_cons] at hfactors
          exact maskShows_cons_congr (strideSpan_shows hfactors.1 (hr n rfl) hi)
            (ih hfactors.2 (by simpa using hlen) hfits hp)

/-- An axis that is walked from its end ends within its extent. -/
theorem residue_pred_mul_natAbs_le {n : Nat} {s : Int} (hn : n < 2 ^ 63) :
    ((residue n - 1) * s).natAbs ≤ n * s.natAbs ∨ n = 0 := by
  rcases Nat.eq_zero_or_pos n with hzero | hpos
  · exact .inr hzero
  · refine .inl ?_
    rw [Int.natAbs_mul, residue_eq hn]
    exact Nat.mul_le_mul_right _ (by omega)

/-- The numbers on the way to a walk fit if no stride of it is too long. -/
theorem strideSums_fits {factors : List Int} {strides : List Int64} {offset : Int}
    (hbroad : ∀ n ∈ old, n < 2 ^ 63)
    (hspread : offset.natAbs + stretch old strides < 2 ^ 63)
    (hlong : ∀ q ∈ strides.zip factors, (q.1.toInt * q.2).natAbs < 2 ^ 63) :
    (strideSums offset (old.zip (strides.zip factors))).all fitsWord = true := by
  induction old generalizing strides factors offset with
  | nil => rfl
  | cons n old ih =>
    match strides, factors with
    | [], _ => rfl
    | _ :: _, [] => rfl
    | s :: strides, m :: factors =>
      obtain ⟨hn, hbroad⟩ := List.forall_mem_cons.mp hbroad
      rw [List.zip_cons_cons, List.forall_mem_cons] at hlong
      rw [stretch_cons] at hspread
      have hword := fitsWord_of_natAbs hlong.1
      rw [List.zip_cons_cons, List.zip_cons_cons, strideSums]
      split
      · next hback =>
        have hstep := (residue_pred_mul_natAbs_le (s := s.toInt) hn).resolve_right (by omega)
        have hlast : (residue n - 1).natAbs < 2 ^ 63 := by rw [residue_eq hn]; omega
        dsimp only
        have hsum := Int.natAbs_add_le offset ((residue n - 1) * s.toInt)
        simp only [List.all_cons, Bool.and_eq_true]
        exact ⟨hword, fitsWord_of_natAbs hlast, fitsWord_of_natAbs (by omega),
          fitsWord_of_natAbs (by omega), ih hbroad (by omega) hlong.2⟩
      · rw [List.all_cons, hword, Bool.true_and]
        exact ih hbroad (by omega) hlong.2

/-- A walk has no more steps along an axis than the axis has coordinates. -/
theorem strideCount_le {n step : Nat} (hstep : 0 < step) : strideCount n step ≤ n := by
  by_contra hlt
  have h : n * step < n := (lt_strideCount hstep).mp (Nat.lt_of_not_le hlt)
  exact absurd (Nat.le_mul_of_pos_right n hstep) (Nat.not_le.mpr h)

theorem Made.stride (hv : v.Made old) (factors : List Int) :
    Moved (v.stride factors) (factors.length = old.length ∧ ∀ m ∈ factors, m ≠ 0)
      (v.Affords old (.stride factors))
      (breadth old < 2 ^ 63 ∧ v.spread old < 2 ^ 63
        ∧ ∀ q ∈ v.strides.zip factors, (q.1.toInt * q.2).natAbs < 2 ^ 63)
      (List.zipWith (fun n m => strideCount n m.natAbs) old factors)
      fun p => v.index ((Movement.stride factors).source old p) := by
  have htake (hlen : factors.length = old.length) :
      (List.zipWith (fun n (m : Int) => strideCount n m.natAbs) old factors).take
          (List.zipWith (fun s m => s * Int64.ofInt m) v.strides factors).length
        = List.zipWith (fun n m => strideCount n m.natAbs) old factors :=
    List.take_of_length_le (by simp [hlen, hv.length_strides])
  constructor
  case accepted =>
    constructor
    · rintro ⟨w, hw⟩
      obtain ⟨hlen, hfactors, dims, hdims, hwords, hformable, rfl⟩ := stride_eq_ok.mp hw
      obtain rfl : old = dims := Option.some.inj (hv.static?.symm.trans hdims)
      exact ⟨⟨hlen.trans hv.rank, hfactors⟩, hwords, hformable⟩
    · rintro ⟨⟨hlen, hfactors⟩, hwords, hformable⟩
      exact ⟨_, stride_eq_ok.mpr ⟨hlen.trans hv.rank.symm, hfactors, old, hv.static?, hwords,
        hformable, rfl⟩⟩
  case stopped =>
    rintro ⟨hlen, hfactors⟩ hfits
    have hzero : ¬factors.any (· = 0) = true := fun hany => by
      obtain ⟨m, hm, h0⟩ := List.any_eq_true.mp hany
      exact hfactors m hm (by simpa using h0)
    rw [View.stride, requireRank_eq_ok.mpr (hlen.trans hv.rank.symm), ok_bind, if_neg hzero,
      knownDims_eq_ok.mpr hv.static?]
    change (requireWords _ >>= fun _ => (v.strided old factors).formed) = _
    by_cases hwords : (strideSums v.offset.toInt (old.zip (v.strides.zip factors))).all fitsWord = true
    · rw [requireWords_eq_ok.mpr hwords, ok_bind]
      exact formed_eq_error fun hformable => hfits ⟨hwords, hformable⟩
    · rw [requireWords_eq_error hwords, error_bind]
  case ample =>
    rintro ⟨hlen, hfactors⟩ ⟨hbroad, hspread, hlong⟩
    refine ⟨strideSums_fits (fun n hn => (le_breadth_of_mem hn).trans_lt hbroad) hspread hlong, ?_⟩
    refine formable_of_breadth ((congrArg _ (create_shape ..)).trans (Shape.static?_ofNats _)) ?_
    rw [htake hlen]
    refine Nat.lt_of_le_of_lt (breadth_le_breadth ?_) hbroad
    refine List.forall₂_iff_get.mpr ⟨by simp [hlen], fun i hi hi' => ?_⟩
    have hi'' : i < factors.length := hlen ▸ hi'
    simp only [List.get_eq_getElem, List.getElem_zipWith]
    exact strideCount_le (Int.natAbs_pos.mpr (hfactors _ (List.getElem_mem hi'')))
  case made =>
    intro w hw
    have hproper := hv.proper.stride hw
    obtain ⟨hlen, -, dims, hdims, -, -, rfl⟩ := stride_eq_ok.mp hw
    obtain rfl : old = dims := Option.some.inj (hv.static?.symm.trans hdims)
    refine hproper.made ?_
    rw [Shape.static?_ofNats, htake (hlen.trans hv.rank)]
  case index =>
    intro w hw p hp
    obtain ⟨hlen, hfactors, dims, hdims, -, -, rfl⟩ := stride_eq_ok.mp hw
    obtain rfl : old = dims := Option.some.inj (hv.static?.symm.trans hdims)
    have hlen : factors.length = old.length := hlen.trans hv.rank
    rw [htake hlen]
    refine index_create_eq (Shape.static?_ofNats _) hp ?_ ?_ ?_
    · refine length_of_map fun spans hspans => ?_
      simp [hv.length_spans hspans, hlen]
    · cases hmask : v.mask with
      | none => rfl
      | some spans => exact maskShows_strideSpan hfactors hlen (hv.fits hmask) hp
    · rw [place_eq, Movement.source, ← (stride_spec hfactors hlen hv.length_strides hp).2]
      grind

/-! ## Padding -/

/-- The position of a tensor with extents `old` that the padded position `p` comes from, if `p` is
none of those that the margins add. -/
def unpad : List Margin → List Nat → List Nat → Option (List Nat)
  | m :: margins, n :: old, i :: p =>
    if m.before ≤ i ∧ i - m.before < n then (unpad margins old p).map ((i - m.before) :: ·)
    else none
  | [], [], [] => some []
  | _, _, _ => none

theorem unpad_cons {m : Margin} {n i : Nat} (margins : List Margin) (old p : List Nat) :
    unpad (m :: margins) (n :: old) (i :: p)
      = if m.before ≤ i ∧ i - m.before < n then (unpad margins old p).map ((i - m.before) :: ·)
        else none := rfl

theorem unpad_eq_some {margins : List Margin} {p q : List Nat} (h : unpad margins old p = some q) :
    margins.length = q.length ∧ Inside old q
      ∧ p = List.zipWith (fun m i => m.before + i) margins q := by
  fun_induction unpad margins old p generalizing q with
  | case1 m margins n old i p hin ih =>
    obtain ⟨q', hq', rfl⟩ := Option.map_eq_some_iff.mp h
    obtain ⟨hlen, hinside, hp⟩ := ih hq'
    refine ⟨congrArg (· + 1) hlen, ?_, ?_⟩
    · exact List.Forall₂.cons hin.2 hinside
    · rw [List.zipWith_cons_cons, ← hp]
      congr 1
      omega
  | case2 => cases h
  | case3 =>
    obtain rfl := Option.some.inj h
    exact ⟨rfl, .nil, rfl⟩
  | case4 => cases h

/-- Without margins every position comes from itself. -/
theorem unpad_of_none {margins : List Margin} {p : List Nat} (hlen : margins.length = old.length)
    (hzero : ∀ m ∈ margins, m.before = 0) (hp : Inside old p) : unpad margins old p = some p := by
  induction hp generalizing margins with
  | nil =>
    obtain rfl := List.length_eq_zero_iff.mp hlen
    rfl
  | @cons n i old p hi hp ih =>
    cases margins with
    | nil => simp at hlen
    | cons m margins =>
      rw [List.forall_mem_cons] at hzero
      rw [unpad_cons, ih (by simpa using hlen) hzero.2, hzero.1]
      simp [hi]

/-- Shifted spans show what the spans show at the positions that are not added. -/
theorem maskShows_shifted {margins : List Margin} {spans : List Span} {p : List Nat}
    (hlen : margins.length = old.length) (hp : p.length = old.length)
    (hfits : Fits (old.map .static) spans) :
    maskShows (some (List.zipWith (fun r m => ⟨r.start + m.before, r.stop + m.before⟩) spans margins))
        p = (unpad margins old p).any (maskShows (some spans)) := by
  induction old generalizing margins spans p with
  | nil =>
    obtain rfl := List.length_eq_zero_iff.mp hlen
    obtain rfl := List.length_eq_zero_iff.mp hp
    cases hfits
    rfl
  | cons n old ih =>
    match margins, p with
    | m :: margins, i :: p =>
      rw [List.map_cons] at hfits
      cases hfits with
      | @cons _ r _ spans hr hfits =>
        have hr : r.stop ≤ n := hr n rfl
        have hrest := ih (by simpa using hlen) (by simpa using hp) hfits
        rw [unpad_cons]
        split
        · next hin =>
          have hshows : (r.start + m.before ≤ i ∧ i < r.stop + m.before)
              ↔ (r.start ≤ i - m.before ∧ i - m.before < r.stop) := by omega
          cases hq : unpad margins old p with
          | none =>
            rw [hq] at hrest
            simp only [maskShows, List.zipWith_cons_cons, List.zip_cons_cons, List.all_cons] at hrest ⊢
            rw [hrest]
            simp
          | some q =>
            rw [hq] at hrest
            exact maskShows_cons_congr hshows hrest
        · next hout =>
          -- nothing shows in a margin
          have hhidden : ¬(r.start + m.before ≤ i ∧ i < r.stop + m.before) := by omega
          simp only [maskShows, List.zipWith_cons_cons, List.zip_cons_cons, List.all_cons,
            Option.any_none, Bool.and_eq_false_iff, decide_eq_false_iff_not]
          omega

/-- The spans of a view, masked or not, show what the view shows. -/
theorem maskShows_spans {q : List Nat} (hq : Inside old q) :
    maskShows (some (v.spans old)) q = maskShows v.mask q := by
  rw [spans]
  cases v.mask with
  | some spans => rfl
  | none =>
    rw [Option.getD_none, maskShows_full hq]
    · rfl
    · simp [List.all_eq_true, List.zip_map', Extent.static?]

theorem foldl_margins (margins : List Margin) (strides : List Int64) (offset : Int64) :
    (margins.zip strides).foldl (fun acc (m, s) => acc - .ofNat m.before * s) offset
      = offset - dot (margins.map Margin.before) strides := by
  induction margins generalizing strides offset with
  | nil => simp
  | cons m margins ih =>
    cases strides with
    | nil => simp
    | cons s strides =>
      rw [List.zip_cons_cons, List.foldl_cons, ih, List.map_cons, dot_cons]
      grind

/-- The spans lie in the extents, and none of them is reversed. -/
theorem Made.spans_inside (hv : v.Made old) :
    List.Forall₂ (fun n (r : Span) => r.start ≤ r.stop ∧ r.stop ≤ n) old (v.spans old) := by
  have hfits := hv.proper.fits_spans hv.static?
  rw [Fits, List.forall₂_map_left_iff] at hfits
  have hle : ∀ r ∈ v.spans old, r.start ≤ r.stop := by
    intro r hr
    by_contra hreversed
    rw [spans] at hr
    cases hmask : v.mask with
    | none =>
      rw [hmask, Option.getD_none] at hr
      obtain ⟨n, -, rfl⟩ := List.mem_map.mp hr
      exact hreversed (Nat.zero_le n)
    | some spans =>
      rw [hmask, Option.getD_some] at hr
      obtain ⟨-, hall⟩ := hv.proper.collapsed spans hmask ⟨r, hr, by omega⟩
      exact hreversed (by rw [hall r hr])
  refine (List.forall₂_iff_get.mpr ⟨hfits.length_eq, fun i h h' => ⟨?_, ?_⟩⟩)
  · exact hle _ (List.getElem_mem _)
  · exact hfits.get h h' _ rfl

/-- A view with a margin shows a margin, so it keeps a mask. -/
theorem Made.padded_masked (hv : v.Made old) {margins : List Margin}
    (hlen : margins.length = old.length) {m : Margin} (hm : m ∈ margins)
    (hne : ¬(m.before = 0 ∧ m.after = 0)) : (v.padded old margins).mask ≠ none := by
  rw [padded]
  obtain ⟨i, hi, rfl⟩ := List.mem_iff_getElem.mp hm
  have hinside := hv.spans_inside
  have hspans : (v.spans old).length = old.length := hinside.length_eq.symm
  have hr := hinside.get (i := i) (by omega) (by omega)
  by_cases hempty : (List.zipWith (fun (r : Span) (m : Margin) =>
      (⟨r.start + m.before, r.stop + m.before⟩ : Span)) (v.spans old) margins).any
      (fun r => r.stop ≤ r.start) = true
  · rw [create_hidden hempty]
    exact Option.some_ne_none _
  · -- the span of the axis does not reach over its margins
    rw [create_masked hempty]
    · exact Option.some_ne_none _
    · intro hfull
      have hat := List.all_eq_true.mp hfull
        (⟨(v.spans old)[i].start + margins[i].before, (v.spans old)[i].stop + margins[i].before⟩,
          .static (old[i] + margins[i].before + margins[i].after))
        (List.mem_iff_getElem.mpr ⟨i, by simp [Shape.ofNats, hlen, hspans]; omega, by
          simp [Shape.ofNats]⟩)
      simp only [Extent.static?, Option.any_some, decide_eq_true_eq, Span.mk.injEq] at hat
      simp only [List.get_eq_getElem] at hr
      omega

/-- A pad that does not start far before the view computes words. -/
theorem padSums_fit {margins : List Margin} (hspread : v.spread (margins.map Margin.before) < 2 ^ 63) :
    (v.padSums margins).all fitsWord = true := by
  have hmap : List.zipWith (fun (m : Margin) (s : Int64) => residue m.before * s.toInt) margins
      v.strides = List.zipWith (fun i (s : Int64) => residue i * s.toInt)
        (margins.map Margin.before) v.strides := by rw [List.zipWith_map_left]
  rw [padSums, hmap]
  exact runningResults_strides Int.natAbs_sub_le (List.forall₂_same.mpr fun i _ => Nat.le_refl i)
    hspread

/-- A pad to extents that can be counted computes counts, as an end of a span lies before the end of its
axis. -/
theorem Made.padCounts_fit (hv : v.Made old) {margins : List Margin}
    (hbroad : ∀ q ∈ old.zip margins, q.1 + q.2.before + q.2.after < 2 ^ 64) :
    (padCounts old (v.spans old) margins).all fitsCount = true := by
  have hinside := hv.spans_inside
  have hspans := hinside.length_eq
  have hcount (i : Nat) (h : i < old.length) (h' : i < margins.length) :
      old[i] + margins[i].before + margins[i].after < 2 ^ 64 :=
    hbroad (old[i], margins[i]) (List.mem_iff_getElem.mpr ⟨i, by simp; omega, by simp⟩)
  rw [padCounts, List.all_append, Bool.and_eq_true]
  constructor
  · refine List.all_eq_true.mpr fun n hn => ?_
    obtain ⟨i, hi, rfl⟩ := List.mem_iff_getElem.mp hn
    simp only [List.length_zipWith] at hi
    rw [List.getElem_zipWith]
    exact fitsCount_of_lt (hcount i (by omega) (by omega))
  · refine List.all_eq_true.mpr fun n hn => ?_
    obtain ⟨i, hi, rfl⟩ := List.mem_iff_getElem.mp hn
    simp only [List.length_zipWith] at hi
    have hcount := hcount i (by omega) (by omega)
    have hr := hinside.get (i := i) (by omega) (by omega)
    simp only [List.get_eq_getElem] at hr
    rw [List.getElem_zipWith]
    exact fitsCount_of_lt (by omega)

theorem Made.pad (hv : v.Made old) (margins : List Margin) :
    Moved (v.pad margins) (margins.length = old.length) (v.Affords old (.pad margins))
      ((∀ q ∈ old.zip margins, q.1 + q.2.before + q.2.after < 2 ^ 64)
        ∧ v.spread (margins.map Margin.before) < 2 ^ 63)
      (List.zipWith (fun n m => n + m.before + m.after) old margins)
      fun p => (unpad margins old p).bind v.index := by
  have hzero (hall : margins.all (fun m => m.before = 0 && m.after = 0) = true) :
      ∀ m ∈ margins, m.before = 0 ∧ m.after = 0 := by
    intro m hm
    simpa using List.all_eq_true.mp hall m hm
  have hsame (hlen : margins.length = old.length)
      (hall : ∀ m ∈ margins, m.before = 0 ∧ m.after = 0) :
      List.zipWith (fun n m => n + m.before + m.after) old margins = old := by
    refine List.ext_getElem (by simp [hlen]) fun i h h' => ?_
    have := hall margins[i] (List.getElem_mem _)
    simp [this]
  constructor
  case accepted =>
    constructor
    · rintro ⟨w, hw⟩
      obtain ⟨hlen, dims, hdims, hfits, rfl⟩ := pad_eq_ok.mp hw
      obtain rfl : old = dims := Option.some.inj (hv.static?.symm.trans hdims)
      refine ⟨hlen.trans hv.rank, ?_⟩
      by_cases hall : margins.all (fun m => m.before = 0 && m.after = 0) = true
      · exact .inl (hzero hall)
      · rw [if_neg hall] at hfits
        exact .inr (hfits hall)
    · rintro ⟨hlen, hfits⟩
      refine ⟨_, pad_eq_ok.mpr ⟨hlen.trans hv.rank.symm, old, hv.static?, fun hall => ?_, rfl⟩⟩
      rw [if_neg hall]
      exact hfits.resolve_left fun h => hall (by simpa using h)
  case stopped =>
    intro hlen hfits
    have hall : ¬margins.all (fun m => m.before = 0 && m.after = 0) = true := fun hall =>
      hfits (.inl (hzero hall))
    rw [View.pad, requireRank_eq_ok.mpr (hlen.trans hv.rank.symm), ok_bind,
      knownDims_eq_ok.mpr hv.static?, ok_bind, if_neg hall]
    by_cases hwords : (v.padSums margins).all fitsWord = true
    · rw [requireWords_eq_ok.mpr hwords, ok_bind]
      by_cases hcounts : (padCounts old (v.spans old) margins).all fitsCount = true
      · rw [requireCounts_eq_ok.mpr hcounts, ok_bind]
        exact formed_eq_error fun hformable => hfits (.inr ⟨hwords, hcounts, hformable⟩)
      · rw [requireCounts_eq_error hcounts, error_bind]
    · rw [requireWords_eq_error hwords, error_bind]
  case ample =>
    rintro hlen ⟨hbroad, hspread⟩
    by_cases hall : ∀ m ∈ margins, m.before = 0 ∧ m.after = 0
    · exact .inl hall
    obtain ⟨m, hm, hne⟩ : ∃ m ∈ margins, ¬(m.before = 0 ∧ m.after = 0) := by
      by_contra hnone
      exact hall fun m hm => not_not.mp fun hne => hnone ⟨m, hm, hne⟩
    refine .inr ⟨padSums_fit hspread, hv.padCounts_fit hbroad, ?_⟩
    rw [formable, Option.isNone_eq_false_iff.mpr
      (Option.isSome_iff_ne_none.mpr (hv.padded_masked hlen hm hne)), Bool.and_false]
    rfl
  case made =>
    intro w hw
    have hproper := hv.proper.pad hw
    obtain ⟨hlen, dims, hdims, -, rfl⟩ := pad_eq_ok.mp hw
    obtain rfl : old = dims := Option.some.inj (hv.static?.symm.trans hdims)
    split
    · next hall => rwa [hsame (hlen.trans hv.rank) (hzero hall)]
    · next hall =>
      rw [if_neg hall] at hproper
      exact hproper.made (Shape.static?_ofNats _)
  case index =>
    intro w hw p hp
    obtain ⟨hlen, dims, hdims, -, rfl⟩ := pad_eq_ok.mp hw
    obtain rfl : old = dims := Option.some.inj (hv.static?.symm.trans hdims)
    have hlen : margins.length = old.length := hlen.trans hv.rank
    split
    -- with no margin anywhere the view stays as it is
    · next hall =>
      rw [hsame hlen (hzero hall)] at hp
      rw [unpad_of_none hlen (fun m hm => (hzero hall m hm).1) hp, Option.bind_some]
    · have hfits := hv.proper.fits_spans hv.static?
      have hp' : p.length = old.length := by rw [hp.length_eq]; simp [hlen]
      rw [index_create (Shape.static?_ofNats _) hp, maskShows_shifted hlen hp' hfits]
      · -- a position in a margin has no place, and any other has that of its source
        cases hq : unpad margins old p with
        | none => rfl
        | some q =>
          obtain ⟨hqlen, hinside, rfl⟩ := unpad_eq_some hq
          rw [Option.any_some, maskShows_spans hinside, Option.bind_some, index_eq, foldl_margins,
            dot_zipWith_add Margin.before hqlen]
          congr 2
          grind
      · rintro _ ⟨⟩
        have := hfits.length_eq
        simp only [List.length_map] at this
        simp [← this, hlen]

/-! ## All movements -/

/-- What each movement with known extents does to a view with the extents `old`, and where the view is
read inside the words. -/
structure Laws (old : List Nat) (v : View) : Prop where
  /-- The place of a position is found if none is too far from the beginning of the store. -/
  lookup : v.spread old < 2 ^ 63 → ∀ p, Inside old p → v.lookup p = .ok (v.index p)
  /-- Axes in another order show a position at the inversely permuted coordinates. -/
  permute : ∀ axes, Moved (v.permute axes) (axes.Perm (List.range old.length))
    (v.Affords old (.permute axes)) (breadth old < 2 ^ 63) (pick old axes)
    fun p => v.index ((Movement.permute axes).source old p)
  /-- Repeated unit axes show their one coordinate. -/
  expand : ∀ new, Moved (v.expand (.ofNats new)) (List.Forall₂ (fun n m => n = m ∨ n = 1) old new)
    (v.Affords old (.expand (.ofNats new))) (breadth new < 2 ^ 63) new
    fun p => v.index (List.zipWith (fun n i => if n = 1 then 0 else i) old p)
  /-- A window shows a position at the coordinates counted from its starts. -/
  shrink : ∀ windows, Moved (v.shrink windows)
    (List.Forall₂ (fun n (r : Span) => r.start ≤ r.stop ∧ r.stop ≤ n) old windows)
    (v.Affords old (.shrink windows)) (breadth old < 2 ^ 63 ∧ v.spread old < 2 ^ 63)
    (windows.map fun r => r.stop - r.start)
    fun p => v.index (List.zipWith (fun r i => r.start + i) windows p)
  /-- A walk shows a position at the coordinates that it reaches from the start, or from the end
  if it walks backwards. -/
  stride : ∀ factors, Moved (v.stride factors)
    (factors.length = old.length ∧ ∀ m ∈ factors, m ≠ 0) (v.Affords old (.stride factors))
    (breadth old < 2 ^ 63 ∧ v.spread old < 2 ^ 63
      ∧ ∀ q ∈ v.strides.zip factors, (q.1.toInt * q.2).natAbs < 2 ^ 63)
    (List.zipWith (fun n m => strideCount n m.natAbs) old factors)
    fun p => v.index (List.zipWith (fun (n, m) i => strideCoordinate n m i) (old.zip factors) p)
  /-- A padded view shows a position at the coordinates without the leading margins, and hides the
  positions that are added. -/
  pad : ∀ margins, Moved (v.pad margins) (margins.length = old.length) (v.Affords old (.pad margins))
    ((∀ q ∈ old.zip margins, q.1 + q.2.before + q.2.after < 2 ^ 64)
      ∧ v.spread (margins.map Margin.before) < 2 ^ 63)
    (List.zipWith (fun n m => n + m.before + m.after) old margins)
    fun p => (unpad margins old p).bind v.index

/-- Every movement is refused exactly for a malformed argument, and stopped otherwise exactly if a
number on the way leaves its word, which it does not where extents, strides and offset are small.
Otherwise it makes a view in canonical form, with the extents that the argument asks for and a mask
inside them, which shows at each position what the view shows at its source. The place of a position is
found if none is too far away. -/
theorem Made.laws (hv : v.Made old) : Laws old v where
  lookup hspread _ hp := lookup_of_spread hspread (hp.flip.imp fun _ _ h => Nat.le_of_lt h)
  permute := hv.permute
  expand := hv.expand
  shrink := hv.shrink
  stride := hv.stride
  pad := hv.pad

/-- Five elements of which the first and the last are hidden. -/
def veiled : View := create (.ofNats [5]) [1] 0 (some [⟨1, 4⟩])

/-- Walked backwards in steps of two, only the middle one of them is left to see. -/
theorem veiled_walked : veiled.Made [5] ∧ ∃ w, veiled.stride [-2] = .ok w ∧ w.Made [3]
    ∧ w.index [0] = none ∧ w.index [1] = some 2 ∧ w.index [2] = none := by
  have hmade : veiled.Made [5] := by
    refine ⟨[1], 0, some [⟨1, 4⟩], rfl, ?_, rfl⟩
    rintro _ ⟨⟩
    exact fits_static_iff.mpr ⟨rfl, by decide⟩
  have hlaw := hmade.laws.stride [-2]
  obtain ⟨w, hw⟩ := hlaw.accepted.mpr ⟨⟨rfl, by decide⟩, hlaw.ample ⟨rfl, by decide⟩ (by decide)⟩
  have hindex (i : Nat) (hi : i < 3) : w.index [i] = veiled.index [strideCoordinate 5 (-2) i] :=
    hlaw.index w hw [i] (List.Forall₂.cons hi .nil)
  refine ⟨hmade, w, hw, hlaw.made w hw, ?_, ?_, ?_⟩
  · rw [hindex 0 (by decide)]
    decide
  · rw [hindex 1 (by decide)]
    decide
  · rw [hindex 2 (by decide)]
    decide

/-- Rows of three whose strides grow beyond the words if only every `2 ^ 62`-th of them is kept. -/
theorem stride_overflows : (ofShape (.ofNats [4, 3])).Made [4, 3]
    ∧ (ofShape (.ofNats [4, 3])).stride [2 ^ 62, 1] = .error .overflow := by
  refine ⟨⟨[3, 1], 0, none, rfl, nofun, rfl⟩, ?_⟩
  decide +kernel

end View

end TensorGraph
