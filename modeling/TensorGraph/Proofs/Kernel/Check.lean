import TensorGraph.Kernel.Basic
import TensorGraph.Proofs.Outcome
import TensorGraph.Proofs.Tree
/-!
# Checked trees

A kernel has the sources of the tree that it was made from, and the element type that the rules
give the tree.

- `Kernel.ofTrees_eq_ok`: several trees are kernels if each of them is.
- `Kernel.Checked`: what a checked node is made from.
- `Kernel.type_ofTree`: the element type of a kernel is that of its tree.
-/

namespace TensorGraph.Kernel

variable {α : Type} {inputs : Nat}

theorem ofTrees_eq_ok {ts : List (Tree α)} {ks : List (Kernel α)} :
    ofTrees inputs ts = .ok ks ↔ List.Forall₂ (fun t k => ofTree inputs t = .ok k) ts ks := by
  induction ts generalizing ks with
  | nil => simp [ofTrees, eq_comm]
  | cons t ts ih =>
    simp only [ofTrees, bind_eq_ok, pure_eq_ok, Except.ok.injEq, List.forall₂_cons_left_iff, ← ih]
    grind

theorem ofTree_node_eq_ok {code : Opcode} {arg : Arg α} {issuer : Option Nat}
    {sources : List (Tree α)} {k : Kernel α} :
    ofTree inputs (.node code arg issuer sources) = .ok k ↔
      ∃ ks, List.Forall₂ (fun t k => ofTree inputs t = .ok k) sources ks
        ∧ ofNode inputs code arg ks = .ok k := by
  simp only [ofTree, bind_eq_ok, ofTrees_eq_ok]

theorem knownDims_eq_ok {shape : Shape} {extents : List Nat} :
    knownDims shape = .ok extents ↔ shape.static? = some extents := by
  rw [knownDims]
  cases shape.static? <;> simp

theorem ofSlot_eq_ok {arg : Arg α} {k : Kernel α} : ofSlot inputs arg = .ok k ↔
    ∃ r extents, arg = .slot r ∧ 0 < r.slot ∧ r.slot ≤ inputs
      ∧ r.tracker.shape.static? = some extents
      ∧ k = read (r.slot - 1) r.tracker extents r.dtype := by
  cases arg with
  | slot r =>
    by_cases hslot : 0 < r.slot ∧ r.slot ≤ inputs
    · have hcond : (decide (r.slot = 0) || decide (inputs < r.slot)) = false := by
        simp only [Bool.or_eq_false_iff, decide_eq_false_iff_not]
        omega
      simp only [ofSlot, hcond]
      change (do return read (r.slot - 1) r.tracker (← knownDims r.tracker.shape) r.dtype)
        = Except.ok k ↔ _
      rw [bind_eq_ok]
      constructor
      · rintro ⟨extents, hextents, ⟨⟩⟩
        exact ⟨r, extents, rfl, hslot.1, hslot.2, knownDims_eq_ok.mp hextents, rfl⟩
      · rintro ⟨_, extents, ⟨⟩, -, -, hextents, rfl⟩
        exact ⟨extents, knownDims_eq_ok.mpr hextents, rfl⟩
    · have hcond : (decide (r.slot = 0) || decide (inputs < r.slot)) = true := by
        simp only [Bool.or_eq_true, decide_eq_true_eq]
        omega
      simp only [ofSlot, hcond]
      constructor
      · exact nofun
      · rintro ⟨_, _, ⟨⟩, h⟩
        exact absurd ⟨h.1, h.2.1⟩ hslot
  | _ => simp [ofSlot]

theorem ofLiteral_eq_ok {arg : Arg α} {k : Kernel α} : ofLiteral arg = .ok k ↔
    ∃ l extents, arg = .literal l ∧ l.tracker.shape.static? = some extents
      ∧ k = literal l.value l.tracker extents l.dtype := by
  cases arg with
  | literal l =>
    simp only [ofLiteral, bind_eq_ok]
    constructor
    · rintro ⟨extents, hextents, ⟨⟩⟩
      exact ⟨l, extents, rfl, knownDims_eq_ok.mp hextents, rfl⟩
    · rintro ⟨_, extents, ⟨⟩, hextents, rfl⟩
      exact ⟨extents, knownDims_eq_ok.mpr hextents, rfl⟩
  | _ => simp [ofLiteral]

theorem ofUnary_eq_ok {op : UnaryOp} {arg : Arg α} {x k : Kernel α} : ofUnary op arg x = .ok k ↔
    ∃ type, Tree.nodeType (.unary op) arg [x.dtype] = some type ∧ k = unary op type x := by
  cases op <;> cases arg <;> simp [ofUnary, Tree.nodeType, eq_comm]

theorem ofReduce_eq_ok {op : ReduceOp} {arg : Arg α} {x k : Kernel α} : ofReduce op arg x = .ok k ↔
    ∃ shape extents, arg = .shape shape ∧ shape.static? = some extents
      ∧ extents.length = x.dims.length ∧ k = reduce op extents x.dtype x := by
  cases arg with
  | shape shape =>
    simp only [ofReduce, Arg.shape?, bind_eq_ok, knownDims_eq_ok]
    constructor
    · rintro ⟨extents, hextents, h⟩
      split at h
      · cases h
      · next hlength =>
        exact ⟨shape, extents, rfl, hextents, by simpa using hlength, (Except.ok.inj h).symm⟩
    · rintro ⟨_, extents, ⟨⟩, hextents, hlength, rfl⟩
      exact ⟨extents, hextents, by simp [hlength]⟩
  | _ => simp [ofReduce, Arg.shape?]

/-- What a checked node is made from. -/
inductive Checked (inputs : Nat) : Opcode → Arg α → List (Kernel α) → Kernel α → Prop
  /-- The read of an input. -/
  | slot {r : SlotRead} {extents : List Nat} {ks : List (Kernel α)} (hpos : 0 < r.slot)
    (hslot : r.slot ≤ inputs) (hshape : r.tracker.shape.static? = some extents) :
    Checked inputs (.leaf .slot) (.slot r) ks (read (r.slot - 1) r.tracker extents r.dtype)
  /-- A literal. -/
  | literal {l : Literal α} {extents : List Nat} {ks : List (Kernel α)}
    (hshape : l.tracker.shape.static? = some extents) :
    Checked inputs (.leaf .literal) (.literal l) ks (literal l.value l.tracker extents l.dtype)
  /-- An operation on one element, with the target of a conversion or the type of its source. -/
  | unary {op : UnaryOp} {arg : Arg α} {x : Kernel α} {type : DType}
    (htype : Tree.nodeType (.unary op) arg [x.dtype] = some type) :
    Checked inputs (.unary op) arg [x] (unary op type x)
  /-- An operation on two elements. -/
  | binary {op : BinaryOp} {arg : Arg α} {x y : Kernel α} :
    Checked inputs (.binary op) arg [x, y] (binary op (x.dtype.wider y.dtype) x y)
  /-- An operation on three elements. -/
  | ternary {op : TernaryOp} {arg : Arg α} {x y z : Kernel α} :
    Checked inputs (.ternary op) arg [x, y, z]
      (ternary op ((x.dtype.wider y.dtype).wider z.dtype) x y z)
  /-- A reduction that keeps the number of axes. -/
  | reduce {op : ReduceOp} {shape : Shape} {extents : List Nat} {x : Kernel α}
    (hshape : shape.static? = some extents) (hrank : extents.length = x.dims.length) :
    Checked inputs (.reduce op) (.shape shape) [x] (reduce op extents x.dtype x)

/-- A node is checked in one of these ways. -/
theorem ofNode_eq_ok {code : Opcode} {arg : Arg α} {ks : List (Kernel α)} {k : Kernel α} :
    ofNode inputs code arg ks = .ok k ↔ Checked inputs code arg ks k := by
  constructor
  · intro h
    rw [ofNode.eq_def] at h
    split at h
    · obtain ⟨r, extents, rfl, hpos, hslot, hshape, rfl⟩ := ofSlot_eq_ok.mp h
      exact .slot hpos hslot hshape
    · obtain ⟨l, extents, rfl, hshape, rfl⟩ := ofLiteral_eq_ok.mp h
      exact .literal hshape
    · obtain ⟨type, htype, rfl⟩ := ofUnary_eq_ok.mp h
      exact .unary htype
    · cases h
    · cases h
      exact .binary
    · cases h
    · cases h
      exact .ternary
    · cases h
    · obtain ⟨shape, extents, rfl, hshape, hrank, rfl⟩ := ofReduce_eq_ok.mp h
      exact .reduce hshape hrank
    · cases h
    · cases h
  · rintro (⟨hpos, hslot, hshape⟩ | hshape | htype | - | - | ⟨hshape, hrank⟩)
    · exact ofSlot_eq_ok.mpr ⟨_, _, rfl, hpos, hslot, hshape, rfl⟩
    · exact ofLiteral_eq_ok.mpr ⟨_, _, rfl, hshape, rfl⟩
    · exact ofUnary_eq_ok.mpr ⟨_, htype, rfl⟩
    · rfl
    · rfl
    · exact ofReduce_eq_ok.mpr ⟨_, _, rfl, hshape, hrank, rfl⟩

/-- The element type of a node follows from those of its sources. -/
theorem nodeType_ofNode {code : Opcode} {arg : Arg α} {ks : List (Kernel α)} {k : Kernel α}
    (h : ofNode inputs code arg ks = .ok k) :
    Tree.nodeType code arg (ks.map dtype) = some k.dtype := by
  cases ofNode_eq_ok.mp h with
  | unary htype => exact htype
  | _ => rfl

theorem type_ofTree {t : Tree α} {k : Kernel α} (h : ofTree inputs t = .ok k) :
    t.type = some k.dtype := by
  induction t generalizing k with
  | buffer b => cases h
  | node code arg issuer sources ih =>
    obtain ⟨ks, hks, hnode⟩ := ofTree_node_eq_ok.mp h
    have htypes : Tree.types sources = some (ks.map dtype) := by
      rw [Tree.types_eq_some, List.forall₂_map_right_iff]
      refine List.forall₂_iff_zip.mpr ⟨hks.length_eq, fun hmem => ?_⟩
      exact ih _ (List.of_mem_zip hmem).1 (List.forall₂_zip hks hmem)
    rw [Tree.type_node, htypes]
    exact nodeType_ofNode hnode

end TensorGraph.Kernel
