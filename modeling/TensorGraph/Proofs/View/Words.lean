import Mathlib.Algebra.BigOperators.Group.List.Basic
import Mathlib.Algebra.Order.Group.Nat
import TensorGraph.Proofs.View.Place
/-!
# Numbers inside the words

What is computed on the way to a view or to a place fits into the words, unless extents, strides or
offsets are huge. The zero extents of a shape are no help: the extents around them are multiplied all
the same, so they are counted as one here.

- `breadth`: the number of positions of a shape, with zero extents counted as one.
- `Shape.Moderate`: shapes that are far from too broad.
- `denseFits_of_breadth`, `Shape.countable_of_breadth`: the strides and the elements of a shape that is
  not too broad are counted inside the words.
- `residue_mul_natAbs_le`: how far a coordinate goes along a stride.
- `stretch`: how far coordinates may lie from the origin.
- `runningResults_fits`: sums and differences of few, small numbers are words.
-/

namespace TensorGraph

open scoped CoreArithmetic

/-! ## Words -/

theorem fitsWord_of_natAbs {n : Int} (h : n.natAbs < 2 ^ 63) : fitsWord n = true := by
  rw [fitsWord, decide_eq_true_eq]
  omega

theorem fitsCount_of_lt {n : Nat} (h : n < 2 ^ 64) : fitsCount n = true := by
  rw [fitsCount, decide_eq_true_eq]
  omega

/-- A signed word stands for itself. -/
theorem residue_eq {n : Nat} (h : n < 2 ^ 63) : residue n = n := Int64.toInt_ofNat_of_lt h

theorem toInt_ofNat_natAbs {n : Nat} (h : n < 2 ^ 63) : (Int64.ofNat n).toInt.natAbs = n := by
  rw [Int64.toInt_ofNat_of_lt h, Int.natAbs_natCast]

/-- A coordinate goes no farther along a stride than the extent does, if that is a word. -/
theorem residue_mul_natAbs_le {i n : Nat} {s : Int} (hi : i ≤ n) (h : n * s.natAbs < 2 ^ 63) :
    (residue i * s).natAbs ≤ n * s.natAbs := by
  rcases Nat.eq_zero_or_pos s.natAbs with hs | hs
  · rw [Int.natAbs_mul, hs, Nat.mul_zero, Nat.mul_zero]
  · have hn : n ≤ n * s.natAbs := Nat.le_mul_of_pos_right n hs
    rw [Int.natAbs_mul, residue_eq (by omega), Int.natAbs_natCast]
    exact Nat.mul_le_mul_right _ hi

/-- Wrapping brings no number farther away from zero. -/
theorem natAbs_bmod_le (x : Int) : (x.bmod (2 ^ 64)).natAbs ≤ x.natAbs := by
  rw [Int.bmod_def]
  omega

theorem natAbs_toInt_add_le (a b : Int64) :
    (a + b).toInt.natAbs ≤ a.toInt.natAbs + b.toInt.natAbs := by
  rw [Int64.toInt_add]
  exact (natAbs_bmod_le _).trans (Int.natAbs_add_le _ _)

theorem natAbs_toInt_sub_le (a b : Int64) :
    (a - b).toInt.natAbs ≤ a.toInt.natAbs + b.toInt.natAbs := by
  rw [Int64.toInt_sub]
  exact (natAbs_bmod_le _).trans (Int.natAbs_sub_le _ _)

theorem natAbs_toInt_mul_le (a b : Int64) :
    (a * b).toInt.natAbs ≤ a.toInt.natAbs * b.toInt.natAbs := by
  rw [Int64.toInt_mul, ← Int.natAbs_mul]
  exact natAbs_bmod_le _

theorem natAbs_toInt_ofNat_le (n : Nat) : (Int64.ofNat n).toInt.natAbs ≤ n := by
  rw [Int64.toInt_ofNat']
  exact natAbs_bmod_le _

/-- How far the coordinates `p` may lie from the origin along axes with the strides `strides`. -/
def stretch (p : List Nat) (strides : List Int64) : Nat :=
  (List.zipWith (fun n (s : Int64) => n * s.toInt.natAbs) p strides).sum

@[simp] theorem stretch_nil (strides : List Int64) : stretch [] strides = 0 := rfl

@[simp] theorem stretch_nil_right (p : List Nat) : stretch p [] = 0 := by
  cases p <;> rfl

@[simp] theorem stretch_cons (n : Nat) (p : List Nat) (s : Int64) (strides : List Int64) :
    stretch (n :: p) (s :: strides) = n * s.toInt.natAbs + stretch p strides := by
  rw [stretch, List.zipWith_cons_cons, List.sum_cons, stretch]

theorem stretch_zeros (p : List Nat) (k : Nat) : stretch p (List.replicate k 0) = 0 := by
  induction k generalizing p with
  | zero => exact stretch_nil_right p
  | succ k ih =>
    cases p with
    | nil => rfl
    | cons n p =>
      rw [List.replicate_succ, stretch_cons, ih, Int64.toInt_zero, Int.natAbs_zero, Nat.mul_zero]

/-- The place of coordinates is no farther away than they may lie. -/
theorem natAbs_dot_le (p : List Nat) (strides : List Int64) :
    (dot p strides).toInt.natAbs ≤ stretch p strides := by
  induction p generalizing strides with
  | nil => simp
  | cons n p ih =>
    cases strides with
    | nil => simp
    | cons s strides =>
      rw [dot_cons, stretch_cons]
      refine (natAbs_toInt_add_le _ _).trans (Nat.add_le_add ?_ (ih strides))
      exact (natAbs_toInt_mul_le _ _).trans (Nat.mul_le_mul_right _ (natAbs_toInt_ofNat_le n))

/-- Sums and differences of small numbers are words. -/
theorem runningResults_fits {f : Int → Int → Int} (hf : ∀ a x, (f a x).natAbs ≤ a.natAbs + x.natAbs)
    {start : Int} {operands : List Int}
    (h : start.natAbs + (operands.map Int.natAbs).sum < 2 ^ 63) :
    (runningResults f start operands).all fitsWord = true := by
  induction operands generalizing start with
  | nil => rfl
  | cons x operands ih =>
    rw [List.map_cons, List.sum_cons] at h
    have hx := hf start x
    rw [runningResults, List.all_cons, List.all_cons, ih (by omega), fitsWord_of_natAbs (by omega),
      fitsWord_of_natAbs (by omega)]
    rfl

/-! ## Shapes -/

/-- The number of positions of a shape with the extents `dims`, with zero extents counted as one. -/
def breadth (dims : List Nat) : Nat := (dims.map (max 1)).prod

@[simp] theorem breadth_nil : breadth [] = 1 := rfl

@[simp] theorem breadth_cons (n : Nat) (dims : List Nat) :
    breadth (n :: dims) = max 1 n * breadth dims := rfl

theorem breadth_append (dims dims' : List Nat) :
    breadth (dims ++ dims') = breadth dims * breadth dims' := by
  rw [breadth, List.map_append, List.prod_append]
  rfl

theorem breadth_pos (dims : List Nat) : 0 < breadth dims := by
  induction dims with
  | nil => exact Nat.zero_lt_one
  | cons n dims ih => exact Nat.mul_pos (by omega) ih

theorem prod_le_breadth (dims : List Nat) : dims.prod ≤ breadth dims := by
  induction dims with
  | nil => exact Nat.le_refl 1
  | cons n dims ih => exact Nat.mul_le_mul (Nat.le_max_right 1 n) ih

/-- Without zero extents, nothing is counted besides the positions. -/
theorem breadth_eq_prod {dims : List Nat} (h : 0 < dims.prod) : breadth dims = dims.prod := by
  induction dims with
  | nil => rfl
  | cons n dims ih =>
    obtain ⟨hn, hdims⟩ := prod_cons_pos h
    rw [breadth_cons, ih hdims, List.prod_cons, Nat.max_eq_right hn]

theorem le_breadth_of_mem {dims : List Nat} {n : Nat} (h : n ∈ dims) : n ≤ breadth dims := by
  induction dims with
  | nil => cases h
  | cons m dims ih =>
    rw [breadth_cons]
    have hpos := breadth_pos dims
    rcases List.mem_cons.mp h with rfl | h
    · exact (Nat.le_max_right 1 n).trans (Nat.le_mul_of_pos_right _ hpos)
    · exact (ih h).trans (Nat.le_mul_of_pos_left _ (by omega))

theorem breadth_tail_le (n : Nat) (dims : List Nat) : breadth dims ≤ breadth (n :: dims) :=
  Nat.le_mul_of_pos_left _ (by omega)

/-- The order of the extents does not matter. -/
theorem breadth_perm {dims dims' : List Nat} (h : dims.Perm dims') : breadth dims = breadth dims' :=
  (h.map (max 1)).prod_eq

/-- A shape whose extents are no greater is no broader. -/
theorem breadth_le_breadth {dims dims' : List Nat} (h : List.Forall₂ (· ≤ ·) dims dims') :
    breadth dims ≤ breadth dims' := by
  induction h with
  | nil => exact Nat.le_refl 1
  | @cons n m dims dims' hnm _ ih =>
    exact Nat.mul_le_mul (by omega) ih

/-- The extents are known, and with zero extents counted as one, at most half of the positions that a
signed word can count are there. -/
def Shape.Moderate (s : Shape) : Prop := ∃ dims, s.static? = some dims ∧ breadth dims ≤ 2 ^ 62

instance (s : Shape) : Decidable s.Moderate :=
  decidable_of_iff (s.static?.any (breadth · ≤ 2 ^ 62) = true)
    (by simp [Shape.Moderate, Option.any_eq_true])

/-- The strides of a shape that is not too broad are found inside the words. -/
theorem denseFits_of_breadth {dims : List Nat} (h : breadth dims < 2 ^ 63) :
    denseFits (dims.map .static) = true := by
  rw [denseFits]
  induction dims with
  | nil => rfl
  | cons n dims ih =>
    have hrest := (breadth_tail_le n dims).trans_lt h
    have hle : n ≤ breadth (n :: dims) := le_breadth_of_mem List.mem_cons_self
    have hn := hle.trans_lt h
    rw [List.map_cons, denseProducts]
    split
    · exact ih hrest
    · rw [List.all_cons, ih hrest, Bool.and_true, denseStridesCount_snd, residue_eq hn]
      have hprod := (prod_le_breadth dims).trans_lt hrest
      refine fitsWord_of_natAbs ?_
      rw [Int.natAbs_mul, toInt_ofNat_natAbs hprod, Int.natAbs_natCast]
      refine Nat.lt_of_le_of_lt ?_ h
      rw [Nat.mul_comm]
      exact Nat.mul_le_mul (Nat.le_max_right 1 n) (prod_le_breadth dims)

theorem Shape.leading_ofNats (dims : List Nat) : (ofNats dims).leading = dims := by
  rw [leading, ofNats]
  induction dims with
  | nil => rfl
  | cons n dims ih =>
    rw [List.map_cons, List.takeWhile_cons_of_pos rfl, List.filterMap_cons_some (by rfl), ih]

theorem runningProducts_fits {start : Nat} {ns : List Nat} (h : start * breadth ns < 2 ^ 64) :
    (runningProducts start ns).all fitsCount = true := by
  induction ns generalizing start with
  | nil => rfl
  | cons n ns ih =>
    have hle : start * n * breadth ns ≤ start * breadth (n :: ns) := by
      rw [breadth_cons, ← Nat.mul_assoc]
      exact Nat.mul_le_mul_right _ (Nat.mul_le_mul_left _ (Nat.le_max_right 1 n))
    have hfirst : start * n ≤ start * n * breadth ns := Nat.le_mul_of_pos_right _ (breadth_pos ns)
    rw [runningProducts, List.all_cons, ih (by omega), fitsCount_of_lt (by omega)]
    rfl

/-- The elements of a shape that is not too broad are counted inside the words. -/
theorem Shape.countable_of_breadth {dims : List Nat} (h : breadth dims < 2 ^ 64) :
    (ofNats dims).countable = true := by
  rw [countable, leading_ofNats]
  exact runningProducts_fits (by rwa [Nat.one_mul])

/-- The strides of a dense store of the shape can be found inside the words. -/
def Shape.Formable (s : Shape) : Prop := denseFits s.dims = true

theorem Shape.formable_of_breadth {s : Shape} {dims : List Nat} (hs : s.static? = some dims)
    (h : breadth dims < 2 ^ 63) : s.Formable := by
  rw [Formable, Shape.static?_eq_some.mp hs]
  exact denseFits_of_breadth h

theorem Shape.Moderate.formable {s : Shape} (h : s.Moderate) : s.Formable := by
  obtain ⟨dims, hdims, hle⟩ := h
  exact formable_of_breadth hdims (by omega)

/-- Without offset and mask a view can be made exactly of a shape whose strides can be found. -/
theorem View.formable_create (shape : Shape) (strides : List Int64) :
    (create shape strides 0 none).formable = true ↔ shape.Formable := by
  simp [create, formable, Shape.Formable]

theorem View.formable_ofShape {shape : Shape} :
    (ofShape shape).formable = true ↔ shape.Formable := formable_create ..

/-- A view of a shape that is not too broad can be made. -/
theorem View.formable_of_breadth {v : View} {dims : List Nat} (hs : v.shape.static? = some dims)
    (h : breadth dims < 2 ^ 63) : v.formable = true := by
  rw [formable, Shape.formable_of_breadth hs h, Bool.or_true]

end TensorGraph
