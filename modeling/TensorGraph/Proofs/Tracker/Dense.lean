import TensorGraph.Buffer
import TensorGraph.Proofs.Tracker.Reshape
/-!
# Dense trackers

A tracker that covers a dense store through one view is the tracker of that store. It takes every
shape with as many elements, and reaches as many elements of the store as its shape has, so long
as a signed word can count them.

- `Tracker.eq_ofShape`: a contiguous tracker is that of a dense store.
- `Tracker.reshape_ofShape`: a dense tracker stays dense under a reshape.
- `Tracker.size_of_contiguous`: what a contiguous tracker reaches.
-/

namespace TensorGraph

/-- The number of elements is known, and the rank of each of them is a signed word. -/
def Shape.Addressable (s : Shape) : Prop := ∃ n, s.elements? = some n ∧ n ≤ 2 ^ 63

theorem Shape.Addressable.exists_dims {s : Shape} (h : s.Addressable) :
    ∃ dims, s.static? = some dims ∧ dims.prod ≤ 2 ^ 63 := by
  obtain ⟨n, hn, hle⟩ := h
  obtain ⟨dims, hdims, rfl⟩ := Shape.static?_of_elements? hn
  exact ⟨dims, hdims, hle⟩

theorem Shape.Addressable.isStatic {s : Shape} (h : s.Addressable) : s.isStatic = true := by
  obtain ⟨dims, hdims, -⟩ := h.exists_dims
  exact Option.isSome_iff_exists.mpr ⟨dims, hdims⟩

theorem zeroUnits_denseStrides (dims : List Extent) :
    ((dims.zip (denseStrides dims)).map fun (d, s) => if d = .static 1 then 0 else s)
      = denseStrides dims := by
  induction dims with
  | nil => rfl
  | cons d dims ih =>
    cases d with
    | static n =>
      rw [denseStrides, denseStridesCount_cons]
      split
      · next h =>
        simp only [List.zip_cons_cons, List.map_cons, h, if_true]
        exact congrArg (0 :: ·) ih
      · next h =>
        simp only [List.zip_cons_cons, List.map_cons, Extent.static.injEq, h, if_false]
        exact congrArg (_ :: ·) ih
    | symbolic name =>
      have hcons : denseStrides (.symbolic name :: dims)
          = (denseStridesCount dims).2 :: denseStrides dims := rfl
      rw [hcons, List.zip_cons_cons, List.map_cons, ih]
      simp

theorem View.ofShape_eq (shape : Shape) :
    View.ofShape shape = ⟨shape, denseStrides shape.dims, 0, none⟩ := by
  rw [View.ofShape, View.create.eq_def]
  simp only [zeroUnits_denseStrides]

theorem View.contiguous_ofShape (shape : Shape) : (View.ofShape shape).contiguous = true := by
  rw [View.ofShape_eq, View.contiguous]
  simp

theorem View.eq_ofShape {v : View} (h : v.contiguous = true) : v = .ofShape v.shape := by
  simp only [View.contiguous, decide_eq_true_eq] at h
  obtain ⟨hoffset, hmask, hstrides⟩ := h
  rw [View.ofShape_eq]
  exact View.ext rfl hstrides hoffset hmask

theorem View.reshape?_ofShape {source target : Shape} {n : Nat} (hsource : source.elements? = some n)
    (htarget : target.elements? = some n) :
    (View.ofShape source).reshape? target = some (.ofShape target) := by
  obtain ⟨old, hold, hprod⟩ := Option.map_eq_some_iff.mp hsource
  obtain ⟨new, hnew, rfl⟩ := Option.map_eq_some_iff.mp htarget
  simp only [View.reshape?, View.ofShape_shape, hold, hnew, Option.bind_eq_bind, Option.bind_some,
    hprod, ne_eq, not_true_eq_false, View.contiguous_ofShape, Bool.true_or, if_true, if_false]
  rfl

namespace Tracker

variable {t : Tracker}

theorem contiguous_ofShape (shape : Shape) : (ofShape shape).contiguous = true :=
  View.contiguous_ofShape shape

theorem shape_ofShape (shape : Shape) : (ofShape shape).shape = shape := View.ofShape_shape shape

/-- A contiguous tracker is that of a dense store of its shape. -/
theorem eq_ofShape (h : t.contiguous = true) : t = .ofShape t.shape := by
  simp only [contiguous, Bool.and_eq_true, List.isEmpty_iff] at h
  exact Tracker.ext (View.eq_ofShape h.2) h.1

theorem reshape_ofShape {source target : Shape} {n : Nat} (hsource : source.elements? = some n)
    (htarget : target.elements? = some n) (hfits : (ofShape source).ReshapeFits target) :
    (ofShape source).reshape target = .ok (.ofShape target) := by
  rw [reshape_eq_ok]
  by_cases hsame : target = source
  · subst hsame
    exact .inl ⟨(shape_ofShape target).symm, rfl⟩
  · rw [shape_ofShape]
    exact .inr ⟨hsame, ⟨n, hsource, htarget⟩, hfits,
      .inl ⟨_, View.reshape?_ofShape hsource htarget, rfl⟩⟩

/-- A dense store that is not too broad takes every other shape that is not. -/
theorem reshapeFits_ofShape {old new : List Nat} (hold : breadth old < 2 ^ 63)
    (hnew : breadth new < 2 ^ 63) : (ofShape (.ofNats old)).ReshapeFits (.ofNats new) :=
  reshapeFits_of_tame (t := ofShape (.ofNats old)) (View.tame_ofShape hold) hnew

/-! ## What a dense tracker reaches -/

/-- The greatest place of a dense store is that of its last element. -/
theorem foldlM_denseStrides {dims : List Nat} (hpos : 0 < dims.prod) (hle : dims.prod ≤ 2 ^ 63)
    (acc : Int64) :
    ((dims.map fun n => (⟨0, n⟩ : Span)).zip (denseStrides (dims.map .static))).foldlM
      (fun acc (r, s) =>
        if r.stop ≤ r.start then none
        else some (acc + .ofNat (if 0 < s then r.stop - 1 else r.start) * s)) acc
      = some (acc + .ofNat (dims.prod - 1)) := by
  induction dims generalizing acc with
  | nil => simp
  | cons n dims ih =>
    obtain ⟨hn, hdims⟩ := prod_cons_pos hpos
    have hle' : dims.prod ≤ 2 ^ 63 := by
      refine Nat.le_trans ?_ hle
      rw [List.prod_cons]
      exact Nat.le_mul_of_pos_left _ hn
    have hn' : ¬n ≤ 0 := Nat.not_le.mpr hn
    rw [denseStrides_cons, List.map_cons, List.zip_cons_cons, List.foldlM_cons]
    simp only [hn', if_false, Option.bind_eq_bind, Option.bind_some]
    refine (ih hdims hle' _).trans ?_
    by_cases hone : n = 1
    · simp [hone]
    · -- an axis of more than one coordinate has a stride of at most half the count
      have hstride : dims.prod < 2 ^ 63 := by
        rw [List.prod_cons] at hle
        have : 2 * dims.prod ≤ n * dims.prod := Nat.mul_le_mul_right _ (by omega)
        omega
      have hpositive : 0 < Int64.ofNat dims.prod := by
        rw [Int64.lt_iff_toInt_lt, Int64.toInt_ofNat_of_lt hstride, Int64.toInt_zero]
        exact Int.natCast_pos.mpr hdims
      rw [if_neg hone, if_pos hpositive, List.prod_cons]
      have hcount : n * dims.prod - 1 = (n - 1) * dims.prod + (dims.prod - 1) := by
        obtain ⟨k, rfl⟩ : ∃ k, n = k + 1 := ⟨n - 1, by omega⟩
        rw [Nat.add_sub_cancel, Nat.succ_mul]
        omega
      rw [hcount, Int64.ofNat_add, Int64.ofNat_mul]
      grind

/-- A dense store with a count that signed words can reach is reached wholly. -/
theorem size_ofShape {shape : Shape} {n : Nat} (h : shape.elements? = some n) (hle : n ≤ 2 ^ 63) :
    (ofShape shape).size = some n := by
  obtain ⟨dims, hdims, rfl⟩ := Option.map_eq_some_iff.mp h
  have hbottom : (ofShape shape).bottom = .ofShape shape := rfl
  rw [size, hbottom, View.ofShape_shape, h, Option.map_some]
  congr 1
  split
  · next hzero => exact hzero.symm
  · next hzero =>
    have hpos : 0 < dims.prod := Nat.pos_of_ne_zero hzero
    have hmax : (View.ofShape shape).maxPlace = some (.ofNat (dims.prod - 1)) := by
      simp only [View.maxPlace, View.ofShape_eq, View.spans, hdims, Option.bind_eq_bind,
        Option.bind_some, Option.getD_none, Shape.static?_eq_some.mp hdims]
      rw [foldlM_denseStrides hpos hle]
      simp
    have hlast : dims.prod - 1 < 2 ^ 63 := by omega
    rw [hmax]
    simp only
    rw [if_neg (ofNat_nonneg hlast), Int64.toNatClampNeg_ofNat_of_lt hlast]
    omega

theorem size_of_contiguous (h : t.contiguous = true) {n : Nat} (hn : t.shape.elements? = some n)
    (hle : n ≤ 2 ^ 63) : t.size = some n := by
  rw [eq_ofShape h]
  exact size_ofShape hn hle

end Tracker

/-- A buffer that covers its base densely has as many elements as the base. -/
theorem Buffer.elements?_of_isContiguous {b : Buffer} (h : b.isContiguous = true)
    (hshape : b.shape.Addressable) (hbase : b.base.shape.Addressable) :
    b.shape.elements? = b.base.shape.elements? := by
  simp only [isContiguous, Bool.and_eq_true, decide_eq_true_eq] at h
  obtain ⟨hcontiguous, hsize⟩ := h
  obtain ⟨m, hm, hmle⟩ := hshape
  obtain ⟨n, hn, hnle⟩ := hbase
  rw [Base.tracker, Tracker.size_ofShape hn hnle, Tracker.size_of_contiguous hcontiguous hm hmle]
    at hsize
  rw [hm, hn, hsize]

end TensorGraph
