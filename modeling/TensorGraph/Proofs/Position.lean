import Mathlib.Algebra.Group.Nat.Defs
import Mathlib.Data.List.Forall2
import TensorGraph.Position
/-!
# Row-major order

Coordinates and row-major positions determine each other.

- `Inside`: coordinates that lie inside the extents of a tensor.
- `unravel_ravel`, `ravel_unravel`: `unravel` and `ravel` are inverse to each other on positions
  inside the tensor.
- `unravel_append`: the axes of two groups are counted apart, the inner group fastest.
-/

namespace TensorGraph

/-- The coordinates `p` lie inside a tensor with extents `dims`: there is one for each axis, and it
is less than the extent. -/
def Inside (dims p : List Nat) : Prop := List.Forall₂ (fun n i => i < n) dims p

theorem Inside.length_eq {dims p : List Nat} (h : Inside dims p) : p.length = dims.length :=
  (List.Forall₂.length_eq h).symm

/-- The parts of a nonempty tensor with one more axis. -/
theorem prod_cons_pos {n : Nat} {dims : List Nat} (h : 0 < (n :: dims).prod) :
    0 < n ∧ 0 < dims.prod := by
  rw [List.prod_cons] at h
  exact ⟨Nat.pos_of_mul_pos_right h, Nat.pos_of_mul_pos_left h⟩

/-! ## Coordinates of a position -/

theorem unravelRest_cons (n : Nat) (dims : List Nat) (flat : Nat) :
    unravelRest (n :: dims) flat
      = if n = 0 then (0 :: unravel dims flat, (unravelRest dims flat).2)
        else ((unravelRest dims flat).2 % n :: unravel dims flat, (unravelRest dims flat).2 / n) :=
  rfl

/-- What exceeds the extents is the quotient by the number of elements. -/
theorem unravelRest_snd {dims : List Nat} (h : 0 < dims.prod) (flat : Nat) :
    (unravelRest dims flat).2 = flat / dims.prod := by
  induction dims with
  | nil => simp [unravelRest]
  | cons n dims ih =>
    obtain ⟨hn, hdims⟩ := prod_cons_pos h
    rw [unravelRest_cons, if_neg (Nat.ne_of_gt hn), List.prod_cons, Nat.mul_comm,
      ← Nat.div_div_eq_div_mul, ih hdims]

@[simp] theorem unravel_nil (flat : Nat) : unravel [] flat = [] := rfl

theorem unravel_cons {n : Nat} {dims : List Nat} (h : 0 < (n :: dims).prod) (flat : Nat) :
    unravel (n :: dims) flat = flat / dims.prod % n :: unravel dims flat := by
  obtain ⟨hn, hdims⟩ := prod_cons_pos h
  rw [unravel, unravelRest_cons, if_neg (Nat.ne_of_gt hn), unravelRest_snd hdims]

/-- The axes of two groups are counted apart: the inner group takes the remainder by its number of
elements, the outer group the quotient. -/
theorem unravel_append {outer inner : List Nat} (ho : 0 < outer.prod) (hi : 0 < inner.prod)
    (flat : Nat) :
    unravel (outer ++ inner) flat = unravel outer (flat / inner.prod) ++ unravel inner flat := by
  induction outer with
  | nil => rfl
  | cons n outer ih =>
    obtain ⟨hn, ho⟩ := prod_cons_pos ho
    have hpos : 0 < (n :: (outer ++ inner)).prod := by
      rw [List.prod_cons, List.prod_append]
      exact Nat.mul_pos hn (Nat.mul_pos ho hi)
    have hn' : 0 < (n :: outer).prod := by
      rw [List.prod_cons]
      exact Nat.mul_pos hn ho
    rw [List.cons_append, unravel_cons hpos, unravel_cons hn', ih ho, List.prod_append,
      Nat.mul_comm outer.prod, Nat.div_div_eq_div_mul, List.cons_append]

/-- The coordinates around an axis. -/
theorem unravel_append_cons {outer inner : List Nat} {n : Nat} (h : 0 < (outer ++ n :: inner).prod)
    (flat : Nat) :
    unravel (outer ++ n :: inner) flat
      = unravel outer (flat / (n * inner.prod)) ++ (flat / inner.prod % n) :: unravel inner flat := by
  rw [List.prod_append] at h
  have hinner := Nat.pos_of_mul_pos_left h
  rw [unravel_append (Nat.pos_of_mul_pos_right h) hinner, List.prod_cons, unravel_cons hinner]

theorem length_unravel (dims : List Nat) (flat : Nat) :
    (unravel dims flat).length = dims.length := by
  induction dims with
  | nil => rfl
  | cons n dims ih =>
    rw [unravel, unravelRest_cons]
    split <;> exact congrArg (· + 1) ih

/-- Coordinates repeat after the last position. -/
theorem unravel_mul_add {dims : List Nat} (h : 0 < dims.prod) (k flat : Nat) :
    unravel dims (k * dims.prod + flat) = unravel dims flat := by
  induction dims generalizing k with
  | nil => rfl
  | cons n dims ih =>
    obtain ⟨-, hdims⟩ := prod_cons_pos h
    rw [unravel_cons h, unravel_cons h, List.prod_cons, ← Nat.mul_assoc, ih hdims,
      Nat.mul_comm (k * n), Nat.mul_add_div hdims, Nat.mul_comm k, Nat.mul_add_mod]

/-- Coordinates do not go beyond the extents. -/
theorem unravel_le (dims : List Nat) (flat : Nat) :
    List.Forall₂ (· ≤ ·) (unravel dims flat) dims := by
  rw [unravel]
  induction dims with
  | nil => exact .nil
  | cons n dims ih =>
    rw [unravelRest_cons]
    split
    · exact .cons (Nat.zero_le n) ih
    · exact .cons (Nat.le_of_lt (Nat.mod_lt _ (by omega))) ih

/-- The coordinates of a position of a nonempty tensor lie inside it. -/
theorem inside_unravel {dims : List Nat} (h : 0 < dims.prod) (flat : Nat) :
    Inside dims (unravel dims flat) := by
  induction dims with
  | nil => exact List.Forall₂.nil
  | cons n dims ih =>
    obtain ⟨hn, hdims⟩ := prod_cons_pos h
    rw [unravel_cons h]
    exact List.Forall₂.cons (Nat.mod_lt _ hn) (ih hdims)

/-! ## The position of coordinates -/

theorem foldl_ravel (dims p : List Nat) (h : p.length = dims.length) (acc : Nat) :
    (dims.zip p).foldl (fun acc (d, i) => acc * d + i) acc = acc * dims.prod + ravel dims p := by
  induction dims generalizing p acc with
  | nil => simp [ravel]
  | cons n dims ih =>
    cases p with
    | nil => simp at h
    | cons i p =>
      have hp : p.length = dims.length := by simpa using h
      rw [ravel, List.zip_cons_cons, List.foldl_cons, List.foldl_cons, ih p hp, ih p hp,
        List.prod_cons]
      simp only [Nat.zero_mul, Nat.zero_add, Nat.add_mul, Nat.mul_assoc, Nat.add_assoc]

theorem ravel_cons {dims p : List Nat} (h : p.length = dims.length) (n i : Nat) :
    ravel (n :: dims) (i :: p) = i * dims.prod + ravel dims p := by
  rw [ravel, List.zip_cons_cons, List.foldl_cons, foldl_ravel dims p h]
  simp

/-- Coordinates inside a tensor have a position inside it. -/
theorem ravel_lt {dims p : List Nat} (h : Inside dims p) : ravel dims p < dims.prod := by
  induction h with
  | nil => simp [ravel]
  | @cons n i dims p hi hp ih =>
    rw [ravel_cons (Inside.length_eq hp), List.prod_cons]
    calc i * dims.prod + ravel dims p < i * dims.prod + dims.prod := by omega
      _ = (i + 1) * dims.prod := (Nat.succ_mul i dims.prod).symm
      _ ≤ n * dims.prod := Nat.mul_le_mul_right _ hi

theorem Inside.prod_pos {dims p : List Nat} (h : Inside dims p) : 0 < dims.prod :=
  Nat.lt_of_le_of_lt (Nat.zero_le _) (ravel_lt h)

/-- Only the remainder by the number of elements is told by coordinates. -/
theorem ravel_unravel_mod {dims : List Nat} (h : 0 < dims.prod) (flat : Nat) :
    ravel dims (unravel dims flat) = flat % dims.prod := by
  induction dims with
  | nil => simp [ravel, Nat.mod_one]
  | cons n dims ih =>
    obtain ⟨-, hdims⟩ := prod_cons_pos h
    rw [unravel_cons h, ravel_cons (length_unravel dims flat), ih hdims, List.prod_cons,
      Nat.mul_comm n, Nat.mod_mul, Nat.mul_comm dims.prod, Nat.add_comm]

theorem ravel_unravel {dims : List Nat} {flat : Nat} (h : flat < dims.prod) :
    ravel dims (unravel dims flat) = flat := by
  rw [ravel_unravel_mod (Nat.zero_lt_of_lt h), Nat.mod_eq_of_lt h]

/-- Two positions have the same coordinates if they differ by a multiple of the number of elements. -/
theorem unravel_eq_iff {dims : List Nat} (h : 0 < dims.prod) {k l : Nat} :
    unravel dims k = unravel dims l ↔ k % dims.prod = l % dims.prod := by
  constructor
  · intro heq
    rw [← ravel_unravel_mod h, heq, ravel_unravel_mod h]
  · intro heq
    rw [← Nat.div_add_mod' k dims.prod, ← Nat.div_add_mod' l dims.prod, unravel_mul_add h,
      unravel_mul_add h, heq]

theorem unravel_ravel {dims p : List Nat} (h : Inside dims p) :
    unravel dims (ravel dims p) = p := by
  -- the digits of a smaller axis do not see what a larger axis adds
  suffices ∀ k, unravel dims (k * dims.prod + ravel dims p) = p by simpa using this 0
  induction h with
  | nil => intro k; rfl
  | @cons n i dims p hi hp ih =>
    intro k
    have hn : 0 < n := Nat.zero_lt_of_lt hi
    have hdims : 0 < dims.prod := Inside.prod_pos hp
    have hsplit : k * (n :: dims).prod + ravel (n :: dims) (i :: p)
        = (k * n + i) * dims.prod + ravel dims p := by
      rw [ravel_cons (Inside.length_eq hp), List.prod_cons, Nat.add_mul, Nat.mul_assoc, Nat.add_assoc]
    have hquot : ((k * n + i) * dims.prod + ravel dims p) / dims.prod = k * n + i := by
      rw [Nat.mul_comm, Nat.mul_add_div hdims, Nat.div_eq_of_lt (ravel_lt hp), Nat.add_zero]
    rw [hsplit, unravel_cons (by rw [List.prod_cons]; exact Nat.mul_pos hn hdims), hquot, ih]
    congr 1
    rw [Nat.mul_comm k, Nat.mul_add_mod, Nat.mod_eq_of_lt hi]

end TensorGraph
