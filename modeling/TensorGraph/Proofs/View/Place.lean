import TensorGraph.Proofs.Position
import TensorGraph.View.Basic
/-!
# Places of a view

The place of a position is an affine function of its coordinates, and the canonical form of a view
does not change the places of visible positions.

- `dot`: the part of a place that depends on the coordinates.
- `dot_denseStrides`: the dense strides of a shape count its positions.
- `View.index_create`: what a view in canonical form shows, in terms of what it was made from.
-/

namespace TensorGraph

/-- The distance in the store that the coordinates `p` make up along `strides`. -/
def dot : List Nat → List Int64 → Int64
  | i :: p, s :: strides => .ofNat i * s + dot p strides
  | _, _ => 0

@[simp] theorem dot_nil (strides : List Int64) : dot [] strides = 0 := by
  cases strides <;> rfl

@[simp] theorem dot_cons (i : Nat) (p : List Nat) (s : Int64) (strides : List Int64) :
    dot (i :: p) (s :: strides) = .ofNat i * s + dot p strides := rfl

@[simp] theorem dot_nil_right (p : List Nat) : dot p [] = 0 := by
  cases p <;> rfl

/-- The coordinates of two groups of axes add up apart. -/
theorem dot_append {p : List Nat} {strides : List Int64} (h : p.length = strides.length)
    (q : List Nat) (rest : List Int64) :
    dot (p ++ q) (strides ++ rest) = dot p strides + dot q rest := by
  induction p generalizing strides with
  | nil =>
    cases strides with
    | nil => simp
    | cons s strides => simp at h
  | cons i p ih =>
    cases strides with
    | nil => simp at h
    | cons s strides =>
      have hp : p.length = strides.length := by simpa using h
      simp only [List.cons_append, dot_cons, ih hp]
      grind

theorem View.place_eq (v : View) (p : List Nat) : v.place p = v.offset + dot p v.strides := by
  suffices ∀ (strides : List Int64) (acc : Int64),
      (p.zip strides).foldl (fun acc q => acc + .ofNat q.1 * q.2) acc = acc + dot p strides from
    this v.strides v.offset
  intro strides
  induction p generalizing strides with
  | nil => simp
  | cons i p ih =>
    cases strides with
    | nil => simp
    | cons s strides =>
      intro acc
      rw [List.zip_cons_cons, List.foldl_cons, ih, dot_cons]
      grind

/-! ## Shapes with known extents -/

theorem Shape.static?_eq_some {s : Shape} {dims : List Nat} :
    s.static? = some dims ↔ s.dims = dims.map .static := by
  rw [Shape.static?]
  generalize s.dims = l
  induction l generalizing dims with
  | nil => cases dims <;> simp
  | cons e l ih =>
    rw [List.mapM_cons]
    cases e with
    | static n =>
      cases dims with
      | nil => cases h : l.mapM Extent.static? <;> simp [Extent.static?]
      | cons m dims =>
        cases h : l.mapM Extent.static? with
        | none =>
          have hl : l ≠ dims.map .static := fun hl => by simp [ih.mpr hl] at h
          simp [Extent.static?, hl]
        | some ns =>
          have hl : ns = dims ↔ l = dims.map .static := by rw [← ih, h, Option.some_inj]
          simp [Extent.static?, hl]
    | symbolic name => cases dims <;> simp [Extent.static?]

@[simp] theorem Shape.static?_ofNats (dims : List Nat) : (Shape.ofNats dims).static? = some dims :=
  Shape.static?_eq_some.mpr rfl

theorem Shape.eq_ofNats {s : Shape} {dims : List Nat} (h : s.static? = some dims) :
    s = .ofNats dims :=
  Shape.ext (Shape.static?_eq_some.mp h)

theorem Shape.elements?_eq {s : Shape} {dims : List Nat} (h : s.static? = some dims) :
    s.elements? = some dims.prod :=
  congrArg (Option.map List.prod) h

theorem Shape.elements?_ofNats (dims : List Nat) : (Shape.ofNats dims).elements? = some dims.prod :=
  elements?_eq (static?_ofNats dims)

theorem Shape.static?_of_elements? {s : Shape} {n : Nat} (h : s.elements? = some n) :
    ∃ dims, s.static? = some dims ∧ dims.prod = n :=
  Option.map_eq_some_iff.mp h

theorem Shape.rank_eq {s : Shape} {dims : List Nat} (h : s.static? = some dims) :
    s.rank = dims.length := by
  rw [Shape.rank, Shape.static?_eq_some.mp h, List.length_map]

/-! ## Dense strides -/

theorem denseStridesCount_cons (n : Nat) (dims : List Extent) :
    denseStridesCount (.static n :: dims)
      = if n = 1 then (0 :: denseStrides dims, (denseStridesCount dims).2)
        else ((denseStridesCount dims).2 :: denseStrides dims,
          (denseStridesCount dims).2 * .ofNat n) :=
  rfl

theorem denseStridesCount_snd (dims : List Nat) :
    (denseStridesCount (dims.map .static)).2 = .ofNat dims.prod := by
  induction dims with
  | nil => rfl
  | cons n dims ih =>
    rw [List.map_cons, denseStridesCount_cons, ih, List.prod_cons]
    split
    · next h => rw [h, Nat.one_mul]
    · rw [Nat.mul_comm, Int64.ofNat_mul]

theorem denseStrides_cons (n : Nat) (dims : List Nat) :
    denseStrides ((n :: dims).map .static)
      = (if n = 1 then 0 else .ofNat dims.prod) :: denseStrides (dims.map .static) := by
  rw [denseStrides, List.map_cons, denseStridesCount_cons, denseStridesCount_snd]
  split <;> rfl

theorem length_denseStrides (dims : List Extent) : (denseStrides dims).length = dims.length := by
  induction dims with
  | nil => rfl
  | cons d dims ih =>
    cases d with
    | static n =>
      rw [denseStrides, denseStridesCount_cons]
      split <;> exact congrArg (· + 1) ih
    | symbolic name => exact congrArg (· + 1) ih

/-- Along the dense strides of a shape, a position is as far from the origin as its row-major
rank says. -/
theorem dot_denseStrides {dims : List Nat} (h : 0 < dims.prod) (flat : Nat) :
    dot (unravel dims flat) (denseStrides (dims.map .static)) = .ofNat (flat % dims.prod) := by
  induction dims with
  | nil => simp [Nat.mod_one]
  | cons n dims ih =>
    obtain ⟨hn, hdims⟩ := prod_cons_pos h
    rw [unravel_cons h, denseStrides_cons, dot_cons, ih hdims, List.prod_cons, Nat.mul_comm n,
      Nat.mod_mul]
    split
    · next h1 =>
      subst h1
      simp [Nat.mod_one]
    · rw [Int64.ofNat_add, Int64.ofNat_mul]; grind

/-! ## Views in canonical form -/

/-- Whether a mask shows the position `p`. -/
def maskShows (mask : Option (List Span)) (p : List Nat) : Bool :=
  match mask with
  | none => true
  | some spans => (p.zip spans).all fun (i, r) => r.start ≤ i && i < r.stop

theorem maskShows_iff {spans : List Span} {p : List Nat} (h : p.length = spans.length) :
    maskShows (some spans) p = true
      ↔ List.Forall₂ (fun (i : Nat) (r : Span) => r.start ≤ i ∧ i < r.stop) p spans := by
  rw [List.forall₂_iff_zip]
  simp [maskShows, h]

theorem View.index_eq (v : View) (p : List Nat) :
    v.index p = if maskShows v.mask p then some (v.offset + dot p v.strides) else none := by
  rw [View.index, View.place_eq]
  rfl

/-- A mask with an empty span shows nothing. -/
theorem maskShows_eq_false {spans : List Span} {p : List Nat} (h : p.length = spans.length)
    {r : Span} (hr : r ∈ spans) (hempty : r.stop ≤ r.start) : maskShows (some spans) p = false := by
  rw [← Bool.not_eq_true, maskShows_iff h]
  intro hall
  obtain ⟨k, hk, rfl⟩ := List.mem_iff_getElem.mp hr
  have := hall.get (i := k) (by omega) hk
  simp only [List.get_eq_getElem] at this
  omega

/-- A mask that spans every axis shows everything. -/
theorem maskShows_full {dims p : List Nat} (hp : Inside dims p) {spans : List Span}
    (h : (spans.zip (dims.map Extent.static)).all
      (fun (r, d) => d.static?.any fun n => r = ⟨0, n⟩) = true) :
    maskShows (some spans) p = true := by
  rw [maskShows]
  induction hp generalizing spans with
  | nil => rfl
  | @cons n i dims p hi hp ih =>
    cases spans with
    | nil => rfl
    | cons r spans =>
      simp only [List.map_cons, List.zip_cons_cons, List.all_cons, Extent.static?,
        Bool.and_eq_true, Option.any_some, decide_eq_true_eq] at h ⊢
      obtain ⟨rfl, h⟩ := h
      exact ⟨⟨Nat.zero_le i, hi⟩, ih h⟩

/-- The strides of unit axes do not matter, because their coordinates are zero. -/
theorem dot_zeroUnits {dims p : List Nat} (hp : Inside dims p) (strides : List Int64) :
    dot p (((dims.map Extent.static).zip strides).map fun (d, s) =>
      if d = .static 1 then 0 else s) = dot p strides := by
  induction hp generalizing strides with
  | nil => simp
  | @cons n i dims p hi hp ih =>
    cases strides with
    | nil => simp
    | cons s strides =>
      rw [List.map_cons, List.zip_cons_cons, List.map_cons, dot_cons, dot_cons, ih]
      by_cases h : n = 1
      · obtain rfl : i = 0 := by omega
        simp [h]
      · simp [h]

/-- What a view in canonical form shows at a position: the affine place it was made from, where
the mask it was made from shows the position. -/
theorem View.index_create {shape : Shape} {dims p : List Nat} (hs : shape.static? = some dims)
    (hp : Inside dims p) (strides : List Int64) (offset : Int64) {mask : Option (List Span)}
    (hmask : ∀ spans, mask = some spans → spans.length = dims.length) :
    (View.create shape strides offset mask).index p
      = if maskShows mask p then some (offset + dot p strides) else none := by
  simp only [View.create, Shape.static?_eq_some.mp hs]
  cases mask with
  | none => simp [View.index_eq, maskShows, dot_zeroUnits hp]
  | some spans =>
    have hlen : p.length = spans.length := by rw [hp.length_eq, hmask spans rfl]
    by_cases hempty : spans.any (fun r => r.stop ≤ r.start) = true
    · -- an empty span hides every position before and after
      obtain ⟨r, hr, hstop⟩ := List.any_eq_true.mp hempty
      have hr' : (⟨0, 0⟩ : Span) ∈ spans.map fun _ => (⟨0, 0⟩ : Span) :=
        List.mem_map.mpr ⟨r, hr, rfl⟩
      rw [View.index_eq, maskShows_eq_false hlen hr (by simpa using hstop)]
      simp only [hempty, if_true]
      rw [maskShows_eq_false (by simpa using hlen) hr' (Nat.le_refl _)]
      rfl
    · simp only [hempty]
      split
      · next h => exact absurd h (by simp)
      · split
        · next hfull =>
          rw [View.index_eq, maskShows_full hp hfull]
          simp [maskShows, dot_zeroUnits hp]
        · rw [View.index_eq]
          simp [dot_zeroUnits hp]

theorem View.index_ofShape {shape : Shape} {dims : List Nat} (hs : shape.static? = some dims)
    {flat : Nat} (h : flat < dims.prod) :
    (View.ofShape shape).index (unravel dims flat) = some (.ofNat flat) := by
  have hpos : 0 < dims.prod := Nat.zero_lt_of_lt h
  rw [View.ofShape, View.index_create hs (inside_unravel hpos flat) _ _ (by simp),
    Shape.static?_eq_some.mp hs, dot_denseStrides hpos, Nat.mod_eq_of_lt h]
  simp [maskShows]

/-- A view that covers a dense store keeps the row-major rank of a position. -/
theorem View.index_of_contiguous {v : View} {dims : List Nat} (hs : v.shape.static? = some dims)
    (hv : v.contiguous = true) {flat : Nat} (h : flat < dims.prod) :
    v.index (unravel dims flat) = some (.ofNat flat) := by
  simp only [View.contiguous, decide_eq_true_eq] at hv
  obtain ⟨hoffset, hmask, hstrides⟩ := hv
  rw [View.index_eq, hoffset, hmask, hstrides, Shape.static?_eq_some.mp hs,
    dot_denseStrides (Nat.zero_lt_of_lt h), Nat.mod_eq_of_lt h]
  simp [maskShows]

end TensorGraph
