import Mathlib.Algebra.Group.Nat.Defs
import TensorGraph.Proofs.Kernel.Check
/-!
# The form of kernels

A kernel that is made of elementwise operations only has one size throughout, that of its leaves. One
reduction may stand in it in several places; below it the size is another.

- `Kernel.Above`: kernels of elementwise operations on given parts.
- `Kernel.Disciplined`: kernels with one reduction at most.
- `Kernel.Above.disciplined`: elementwise operations on leaves and on copies of one reduction.
- `Tree.Pointwise.exists_kernel`: an elementwise tree is such a kernel if its leaves are its parts.
-/

namespace TensorGraph

variable {α : Type}

namespace Kernel

/-! ## Nodes -/

/-- The kernels below the root. -/
def sources : Kernel α → List (Kernel α)
  | read .. => []
  | literal .. => []
  | unary _ _ x => [x]
  | binary _ _ x y => [x, y]
  | ternary _ _ x y z => [x, y, z]
  | reduce _ _ _ x => [x]

/-- Whether the root is a reduction. -/
def isReduce : Kernel α → Bool
  | reduce .. => true
  | _ => false

/-- Whether the kernel reads an input or repeats a scalar. -/
def isLeaf (k : Kernel α) : Bool := k.sources.isEmpty

/-- Whether the root is an elementwise operation. -/
def isElementwise (k : Kernel α) : Bool := !k.isReduce && !k.isLeaf

/-- The kernel and all kernels in it. -/
def nodes : Kernel α → List (Kernel α)
  | unary op type x => unary op type x :: x.nodes
  | binary op type x y => binary op type x y :: (x.nodes ++ y.nodes)
  | ternary op type x y z => ternary op type x y z :: (x.nodes ++ (y.nodes ++ z.nodes))
  | reduce op extents type x => reduce op extents type x :: x.nodes
  | leaf => [leaf]

/-- The kernels in a kernel that no reduction has below it. -/
def above : Kernel α → List (Kernel α)
  | unary op type x => unary op type x :: x.above
  | binary op type x y => binary op type x y :: (x.above ++ y.above)
  | ternary op type x y z => ternary op type x y z :: (x.above ++ (y.above ++ z.above))
  | k => [k]

variable {k x : Kernel α} {dims : List Nat} {P Q : Kernel α → Prop}

/-- A property that a kernel inherits from the kernels below its root holds of all kernels. -/
theorem ind {motive : Kernel α → Prop}
    (h : ∀ k : Kernel α, (∀ x ∈ k.sources, motive x) → motive k) (k : Kernel α) : motive k := by
  induction k with
  | read => exact h _ (by simp [sources])
  | literal => exact h _ (by simp [sources])
  | unary _ _ x hx => exact h _ (by simpa [sources] using hx)
  | binary _ _ x y hx hy => exact h _ (by simp [sources, hx, hy])
  | ternary _ _ x y z hx hy hz => exact h _ (by simp [sources, hx, hy, hz])
  | reduce _ _ _ x hx => exact h _ (by simpa [sources] using hx)

theorem nodes_eq (k : Kernel α) : k.nodes = k :: k.sources.flatMap nodes := by
  cases k <;> simp [nodes, sources]

theorem mem_nodes {u : Kernel α} : u ∈ k.nodes ↔ u = k ∨ ∃ x ∈ k.sources, u ∈ x.nodes := by
  rw [nodes_eq, List.mem_cons, List.mem_flatMap]

theorem nodes_trans {u w : Kernel α} (hu : u ∈ k.nodes) (hw : w ∈ u.nodes) : w ∈ k.nodes := by
  induction k using ind with
  | h k ih =>
    rcases mem_nodes.mp hu with rfl | ⟨x, hx, hu⟩
    · exact hw
    · exact mem_nodes.mpr (.inr ⟨x, hx, ih x hx hu⟩)

theorem mem_above (hk : k.isElementwise = true) {u : Kernel α} :
    u ∈ k.above ↔ u = k ∨ ∃ x ∈ k.sources, u ∈ x.above := by
  cases k <;> simp [above, sources, isElementwise, isReduce, isLeaf] at hk ⊢

theorem above_eq (hk : k.isElementwise = false) : k.above = [k] := by
  cases k <;> simp [above, sources, isElementwise, isReduce, isLeaf] at hk ⊢

theorem nodes_of_isLeaf (h : k.isLeaf = true) : k.nodes = [k] := by
  cases k <;> simp [isLeaf, sources, nodes] at h ⊢

theorem isReduce_of_isElementwise (h : k.isElementwise = true) : k.isReduce = false := by
  rw [isElementwise, Bool.and_eq_true, Bool.not_eq_true'] at h
  exact h.1

theorem isReduce_of_isLeaf (h : k.isLeaf = true) : k.isReduce = false := by
  cases k <;> simp [isLeaf, sources, isReduce] at h ⊢

theorem isElementwise_of_isLeaf (h : k.isLeaf = true) : k.isElementwise = false := by
  rw [isElementwise, h, Bool.not_true, Bool.and_false]

/-- An elementwise operation has the extents of a source. -/
theorem exists_dims_eq (hk : k.isElementwise = true) : ∃ x ∈ k.sources, k.dims = x.dims := by
  cases k <;> simp [sources, dims, isElementwise, isReduce, isLeaf] at hk ⊢

/-! ## Elementwise operations on parts -/

/-- A kernel of elementwise operations on parts with the extents `dims` that satisfy `P`. -/
inductive Above (P : Kernel α → Prop) (dims : List Nat) : Kernel α → Prop
  /-- A part. -/
  | part {k : Kernel α} (hP : P k) (hdims : k.dims = dims) : Above P dims k
  /-- An elementwise operation. -/
  | node {k : Kernel α} (hk : k.isElementwise = true) (h : ∀ x ∈ k.sources, Above P dims x) :
    Above P dims k

theorem Above.dims_eq (h : k.Above P dims) : k.dims = dims := by
  induction h with
  | part _ hdims => exact hdims
  | node hk _ ih =>
    obtain ⟨x, hx, hdims⟩ := exists_dims_eq hk
    exact hdims.trans (ih x hx)

theorem Above.imp (h : k.Above P dims) (himp : ∀ u, P u → Q u) : k.Above Q dims := by
  induction h with
  | part hP hdims => exact .part (himp _ hP) hdims
  | node hk _ ih => exact .node hk ih

/-- What holds of all kernels in the parts and of elementwise operations holds of all kernels. -/
theorem Above.forall_nodes (h : k.Above P dims) (hpart : ∀ u, P u → ∀ w ∈ u.nodes, Q w)
    (hnode : ∀ u, u.isElementwise = true → (∀ x ∈ u.sources, x.Above P dims) → Q u) :
    ∀ w ∈ k.nodes, Q w := by
  induction h with
  | part hP => exact hpart _ hP
  | @node k hk h ih =>
    intro w hw
    rcases mem_nodes.mp hw with rfl | ⟨x, hx, hw⟩
    · exact hnode w hk h
    · exact ih x hx w hw

theorem Above.dims_above (h : k.Above P dims) (hP : ∀ u, P u → u.isElementwise = false) :
    ∀ w ∈ k.above, w.dims = dims := by
  induction h with
  | @part k hk hdims =>
    intro w hw
    rw [above_eq (hP k hk), List.mem_singleton] at hw
    exact hw ▸ hdims
  | @node k hk h ih =>
    intro w hw
    rcases (mem_above hk).mp hw with rfl | ⟨x, hx, hw⟩
    · exact (Above.node hk h).dims_eq
    · exact ih x hx w hw

/-- A kernel without reductions. -/
abbrev Flat (dims : List Nat) (k : Kernel α) : Prop := k.Above (fun u => u.isLeaf = true) dims

/-- A reduction of a kernel without reductions. -/
def Folds (k : Kernel α) : Prop :=
  k.isReduce = true ∧ ∃ x dims, k.sources = [x] ∧ x.Flat dims

/-- A part of a kernel in which the reduction `r` stands. -/
def PartOf (r : Option (Kernel α)) (k : Kernel α) : Prop :=
  k.isLeaf = true ∨ r = some k ∧ k.Folds

/-! ## Discipline -/

/-- The sources of every operation have the same extents. -/
def Aligned (k : Kernel α) : Prop :=
  ∀ u ∈ k.nodes, ∀ x ∈ u.sources, ∀ y ∈ u.sources, x.dims = y.dims

/-- How a kernel is built that the fusion makes for an output of `n` elements. -/
structure Disciplined (fusion : Fusion) (n : Nat) (k : Kernel α) : Prop where
  /-- The sources of every operation have the same extents. -/
  aligned : k.Aligned
  /-- No reduction is below another. -/
  nested : ∀ u ∈ k.nodes, u.isReduce = true → ∀ x ∈ u.sources, ∀ w ∈ x.nodes, w.isReduce = false
  /-- All reductions are copies of one. -/
  copies : ∃ r, ∀ u ∈ k.nodes, u.isReduce = true → u = r
  /-- What is not below a reduction has as many elements as the output. -/
  size : ∀ u ∈ k.above, u.dims.prod = n
  /-- Unless operations are merged, there is one. -/
  single : fusion.joinsElementwise = false → k.nodes.filter (fun u => !u.isLeaf) = [k]
  /-- Unless a reduction is merged into its reader, no elementwise operation is above one. -/
  below : fusion.joinsReduction = false → ∀ u ∈ k.nodes, u.isElementwise = true →
    ∀ w ∈ u.nodes, w.isReduce = false

theorem Above.flat_isReduce (h : k.Flat dims) : ∀ u ∈ k.nodes, u.isReduce = false :=
  Above.forall_nodes h
    (fun u hu w hw => by
      rw [nodes_of_isLeaf hu, List.mem_singleton] at hw
      exact hw ▸ isReduce_of_isLeaf hu)
    fun _ hu _ => isReduce_of_isElementwise hu

/-- The sources of an elementwise operation on parts have the same extents. -/
theorem Above.aligned (h : k.Above P dims) (hP : ∀ u, P u → u.Aligned) : k.Aligned :=
  Above.forall_nodes h hP fun _ _ hx x hxs y hys => (hx x hxs).dims_eq.trans (hx y hys).dims_eq.symm

theorem aligned_of_isLeaf (h : k.isLeaf = true) : k.Aligned := by
  intro u hu x hx
  rw [nodes_of_isLeaf h, List.mem_singleton] at hu
  subst hu
  rw [isLeaf, List.isEmpty_iff] at h
  rw [h] at hx
  cases hx

theorem Folds.aligned (h : k.Folds) : k.Aligned := by
  obtain ⟨-, x, dims, hx, hflat⟩ := h
  intro u hu
  rcases mem_nodes.mp hu with rfl | ⟨y, hy, hu⟩
  · simp [hx]
  · obtain rfl : y = x := by simpa [hx] using hy
    exact hflat.aligned (fun _ => aligned_of_isLeaf) u hu

theorem PartOf.aligned {r : Option (Kernel α)} (h : k.PartOf r) : k.Aligned := by
  rcases h with hleaf | ⟨-, hfolds⟩
  · exact aligned_of_isLeaf hleaf
  · exact hfolds.aligned

/-- The reductions in a kernel with parts around `r` are copies of `r`. -/
theorem Above.eq_of_isReduce {r : Option (Kernel α)} (h : k.Above (PartOf r) dims) :
    ∀ u ∈ k.nodes, u.isReduce = true → r = some u ∧ u.Folds := by
  refine Above.forall_nodes h (fun u hu w hw hreduce => ?_) fun u hu _ hreduce => ?_
  · rcases hu with hleaf | ⟨hr, hfolds⟩
    · rw [nodes_of_isLeaf hleaf, List.mem_singleton] at hw
      rw [hw, isReduce_of_isLeaf hleaf] at hreduce
      cases hreduce
    · obtain ⟨-, x, xdims, hx, hflat⟩ := id hfolds
      rcases mem_nodes.mp hw with rfl | ⟨y, hy, hw⟩
      · exact ⟨hr, hfolds⟩
      · obtain rfl : y = x := by simpa [hx] using hy
        rw [hflat.flat_isReduce w hw] at hreduce
        cases hreduce
  · rw [isReduce_of_isElementwise hu] at hreduce
    cases hreduce

/-- Elementwise operations on leaves and on copies of one reduction. -/
theorem Above.disciplined {r : Option (Kernel α)} (h : k.Above (PartOf r) dims) (fusion : Fusion)
    (hsingle : fusion.joinsElementwise = false → ∀ x ∈ k.sources, x.isLeaf = true)
    (hroot : k.isLeaf = false)
    (hbelow : fusion.joinsReduction = false → r = none ∨ k.isReduce = true) :
    k.Disciplined fusion dims.prod where
  aligned := h.aligned fun _ => PartOf.aligned
  nested u hu hreduce x hx w hw := by
    obtain ⟨-, -, y, ydims, hy, hflat⟩ := h.eq_of_isReduce u hu hreduce
    obtain rfl : x = y := by simpa [hy] using hx
    exact hflat.flat_isReduce w hw
  copies := by
    refine ⟨r.getD k, fun u hu hreduce => ?_⟩
    rw [(h.eq_of_isReduce u hu hreduce).1]
    rfl
  size u hu := by
    refine congrArg List.prod (h.dims_above (fun w hw => ?_) u hu)
    rcases hw with hleaf | ⟨-, hreduce, -⟩
    · exact isElementwise_of_isLeaf hleaf
    · rw [isElementwise, hreduce]
      rfl
  single hfusion := by
    have hsources : (k.sources.flatMap nodes).filter (fun u => !u.isLeaf) = [] := by
      rw [List.filter_eq_nil_iff]
      intro u hu
      obtain ⟨x, hx, hu⟩ := List.mem_flatMap.mp hu
      have hleaf := hsingle hfusion x hx
      rw [nodes_of_isLeaf hleaf, List.mem_singleton] at hu
      simp [hu, hleaf]
    rw [nodes_eq, List.filter_cons_of_pos (by simp [hroot]), hsources]
  below hfusion u hu helementwise w hw := by
    have hnodes := nodes_trans hu hw
    cases hreduce : w.isReduce with
    | false => rfl
    | true =>
      obtain ⟨hr, hfolds⟩ := h.eq_of_isReduce w hnodes hreduce
      rcases hbelow hfusion with hnone | hroot
      · rw [hnone] at hr
        cases hr
      · -- the root is the reduction, and the elementwise operation is below it
        obtain ⟨-, -, x, xdims, hx, hflat⟩ := h.eq_of_isReduce k (mem_nodes.mpr (.inl rfl)) hroot
        rcases mem_nodes.mp hu with rfl | ⟨y, hy, hu⟩
        · rw [isReduce_of_isElementwise helementwise] at hroot
          cases hroot
        · obtain rfl : y = x := by simpa [hx] using hy
          rw [hflat.flat_isReduce w (nodes_trans hu hw)] at hreduce
          cases hreduce

/-! ## Checked nodes -/

/-- A node for an elementwise operation on sources of fitting types has these sources. -/
theorem ofNode_elementwise {inputs : Nat} {code : Opcode} {arg : Arg α} {ks : List (Kernel α)}
    {d : DType} (hcode : code.isElementwise = true) (harity : code.arity = some ks.length)
    (htype : Tree.nodeType code arg (ks.map dtype) = some d) :
    ∃ k, ofNode inputs code arg ks = .ok k ∧ k.dtype = d ∧ k.isElementwise = true
      ∧ k.sources = ks := by
  cases code with
  | load => cases hcode
  | reduce => cases hcode
  | leaf => cases hcode
  | unary op =>
    obtain ⟨x, rfl⟩ : ∃ x, ks = [x] := List.length_eq_one_iff.mp (Option.some.inj harity).symm
    exact ⟨unary op d x, ofNode_eq_ok.mpr (.unary htype), rfl, rfl, rfl⟩
  | binary op =>
    obtain ⟨x, y, rfl⟩ : ∃ x y, ks = [x, y] := List.length_eq_two.mp (Option.some.inj harity).symm
    exact ⟨binary op _ x y, rfl, Option.some.inj htype, rfl, rfl⟩
  | ternary op =>
    obtain ⟨x, y, z, rfl⟩ : ∃ x y z, ks = [x, y, z] :=
      List.length_eq_three.mp (Option.some.inj harity).symm
    exact ⟨ternary op _ x y z, rfl, Option.some.inj htype, rfl, rfl⟩

/-- The sources of a checked node are sources that it was checked with. -/
theorem mem_of_mem_sources {inputs : Nat} {code : Opcode} {arg : Arg α} {ks : List (Kernel α)}
    {k x : Kernel α} (h : ofNode inputs code arg ks = .ok k) (hx : x ∈ k.sources) : x ∈ ks := by
  cases ofNode_eq_ok.mp h with
  | slot => cases hx
  | literal => cases hx
  | _ => exact hx

/-- The kernels below the root are those of the trees below the root. -/
theorem ofTree_of_mem_sources {inputs : Nat} {t : Tree α} {k x : Kernel α}
    (h : ofTree inputs t = .ok k) (hx : x ∈ k.sources) : ∃ u ∈ t.sources, ofTree inputs u = .ok x := by
  cases t with
  | buffer b => cases h
  | node code arg issuer ts =>
    obtain ⟨ks, hks, hnode⟩ := ofTree_node_eq_ok.mp h
    obtain ⟨u, hu, hux⟩ := exists_of_forall₂_left hks.flip (mem_of_mem_sources hnode hx)
    exact ⟨u, hu, hux⟩

/-- The root of a kernel is an elementwise operation if that of its tree is. -/
theorem isElementwise_ofTree {inputs : Nat} {t : Tree α} {k : Kernel α} (h : ofTree inputs t = .ok k)
    (hcode : t.codeIs Opcode.isElementwise = true) : k.isElementwise = true := by
  cases t with
  | buffer b => cases h
  | node code arg issuer ts =>
    obtain ⟨ks, -, hnode⟩ := ofTree_node_eq_ok.mp h
    replace hcode : code.isElementwise = true := hcode
    cases ofNode_eq_ok.mp hnode with
    | slot => cases hcode
    | literal => cases hcode
    | reduce => cases hcode
    | _ => rfl

end Kernel

/-! ## Trees -/

variable {inputs : Nat} {dims : List Nat} {P : Kernel α → Prop} {m : Nat → Option (Tree α)}
  {t : Tree α} {shape : Shape}

namespace Tree

/-- Where parts stand for the leaves, an elementwise tree is a kernel of elementwise operations on
parts. -/
theorem Pointwise.exists_kernel (h : t.Pointwise shape) {d : DType} (htype : t.type = some d)
    (hm : ∀ b ∈ t.leaves, ∃ k, Kernel.ofTree inputs ((m b.id).getD (.buffer b)) = .ok k
      ∧ k.dtype = b.dtype ∧ k.Above P dims) :
    ∃ k, Kernel.ofTree inputs (t.substitute m) = .ok k ∧ k.dtype = d ∧ k.Above P dims := by
  induction h generalizing d with
  | buffer =>
    obtain rfl := Option.some.inj htype
    exact hm _ (by simp)
  | @node code arg issuer sources hcode harity h ih =>
    rw [type_node, Option.bind_eq_some_iff] at htype
    obtain ⟨ds, hds, htype⟩ := htype
    rw [types_eq_some] at hds
    have hsource : ∀ u ∈ sources, ∃ k, Kernel.ofTree inputs (u.substitute m) = .ok k
        ∧ u.type = some k.dtype ∧ k.Above P dims := by
      intro u hu
      obtain ⟨e, -, he⟩ := exists_of_forall₂_left hds hu
      obtain ⟨k, hk, hdtype, habove⟩ := ih u hu he fun b hb => hm b (by simpa using ⟨u, hu, hb⟩)
      exact ⟨k, hk, by rw [he, hdtype], habove⟩
    obtain ⟨ks, hks⟩ := exists_forall₂ hsource
    -- kernels have the types of the trees that they are made of
    have htypes : ks.map Kernel.dtype = ds := by
      have := types_eq_some.mpr ((List.forall₂_map_right_iff).mpr (hks.imp fun u k hk => hk.2.1))
      exact Option.some.inj (this.symm.trans (types_eq_some.mpr hds))
    obtain ⟨k, hk, hdtype, helementwise, hkids⟩ : ∃ k, Kernel.ofNode inputs code arg ks = .ok k
        ∧ k.dtype = d ∧ k.isElementwise = true ∧ k.sources = ks :=
      Kernel.ofNode_elementwise hcode (by rw [harity, hks.length_eq]) (htypes ▸ htype)
    refine ⟨k, ?_, hdtype, .node helementwise ?_⟩
    · rw [substitute_node]
      refine Kernel.ofTree_node_eq_ok.mpr ⟨ks, ?_, hk⟩
      rw [List.forall₂_map_left_iff]
      exact hks.imp fun u k hk => hk.1
    · intro x hx
      rw [hkids] at hx
      obtain ⟨u, -, hu⟩ := exists_of_forall₂_left hks.flip hx
      exact hu.2.2

end Tree

end TensorGraph
