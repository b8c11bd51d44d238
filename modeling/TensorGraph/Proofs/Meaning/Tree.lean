import TensorGraph.Proofs.Meaning.Dense
/-!
# What trees mean

Given the lanes of every base, a buffer means what its tracker finds there, and a tree means what
its operations make of its leaves, one operation after the other. So a tree that stands in the
place of a leaf and matches it leaves the meaning as it is.

- `Tree.dense`: the meaning of a tree.
- `Tree.Shaped`: trees whose parts fit together.
- `Tree.Pointwise.matches_substitute`: elementwise trees with their leaves replaced.
-/

namespace TensorGraph

variable {α : Type}

/-- The tracker of the buffer finds every position of the extents `dims` in the storage of the
base, or hides it. -/
def Buffer.Into (b : Buffer) (dims : List Nat) : Prop :=
  ∃ n, b.base.shape.elements? = some n ∧ b.tracker.Into dims n

theorem Buffer.Into.shape {b : Buffer} {dims : List Nat} (h : b.Into dims) :
    b.shape.static? = some dims := by
  obtain ⟨n, -, ht⟩ := h
  exact ht.shape

theorem Buffer.Into.eq {b : Buffer} {dims dims' : List Nat} (h : b.Into dims) (h' : b.Into dims') :
    dims = dims' :=
  Option.some.inj (h.shape.symm.trans h'.shape)

variable [Lane α]

/-- The lanes that a buffer shows; a hidden position shows zero. -/
def Buffer.dense (v : Valuation α) (b : Buffer) : Dense α where
  dims := b.shape.static?.getD []
  dtype := b.dtype
  lane i := (b.tracker.locate i).elim (Lane.round b.dtype Lane.zero) (v b.base.id)

theorem Buffer.dims_dense {b : Buffer} {dims : List Nat} (hs : b.shape.static? = some dims)
    (v : Valuation α) : (b.dense v).dims = dims := by
  rw [dense, hs]
  rfl

namespace Tree

mutual

/-- The meaning of a tree. -/
def dense (v : Valuation α) : Tree α → Dense α
  | buffer b => b.dense v
  | node code arg _ sources => Dense.node code arg (denseAll v sources)

/-- The meanings of several trees. -/
def denseAll (v : Valuation α) : List (Tree α) → List (Dense α)
  | [] => []
  | t :: ts => dense v t :: denseAll v ts

end

variable {v v' : Valuation α} {t : Tree α} {dims : List Nat}

@[simp] theorem dense_buffer (v : Valuation α) (b : Buffer) :
    (buffer b : Tree α).dense v = b.dense v := by
  rw [dense]

@[simp] theorem dense_node (v : Valuation α) (code : Opcode) (arg : Arg α) (issuer : Option Nat)
    (sources : List (Tree α)) :
    (node code arg issuer sources).dense v = Dense.node code arg (sources.map (dense v)) := by
  have hall (ts : List (Tree α)) : denseAll v ts = ts.map (dense v) := by
    induction ts with
    | nil => rw [denseAll, List.map_nil]
    | cons t ts ih => rw [denseAll, ih, List.map_cons]
  rw [dense, hall]

@[simp] theorem dense_issuedFor (v : Valuation α) (id : Nat) (t : Tree α) :
    (t.issuedFor id).dense v = t.dense v := by
  cases t <;> simp [issuedFor]

/-- The meaning of a tree depends on the lanes of the bases below its leaves. -/
theorem dense_congr (h : ∀ b ∈ t.leaves, v b.base.id = v' b.base.id) : t.dense v = t.dense v' := by
  induction t with
  | buffer b =>
    have hb := h b (by simp)
    simp only [dense_buffer, Buffer.dense, hb]
  | node code arg issuer sources ih =>
    rw [dense_node, dense_node]
    congr 1
    refine List.map_congr_left fun t ht => ih t ht fun b hb => h b ?_
    rw [leaves_node, List.mem_flatMap]
    exact ⟨t, ht, hb⟩

/-- The type of the meaning is the element type of the tree. -/
theorem dtype_dense {d : DType} (h : t.type = some d) : (t.dense v).dtype = d := by
  induction t generalizing d with
  | buffer b =>
    rw [type_buffer, Option.some_inj] at h
    rw [dense_buffer, ← h]
    rfl
  | node code arg issuer sources ih =>
    rw [type_node, Option.bind_eq_some_iff] at h
    obtain ⟨ds, hds, htype⟩ := h
    have htypes : (sources.map (dense v)).map Dense.dtype = ds := by
      rw [types_eq_some] at hds
      rw [List.map_map, ← List.forall₂_eq_eq_eq, List.forall₂_map_left_iff]
      refine List.forall₂_iff_zip.mpr ⟨hds.length_eq, fun hmem => ?_⟩
      exact ih _ (List.of_mem_zip hmem).1 (List.forall₂_zip hds hmem)
    rw [dense_node, Dense.dtype_node, htypes, htype, Option.getD_some]

/-! ## Trees whose parts fit together -/

/-- The tree has the extents `dims`, and its operations those that they need. -/
inductive Shaped : List Nat → Tree α → Prop
  /-- A buffer that finds its positions or hides them. -/
  | buffer {dims : List Nat} {b : Buffer} (h : b.Into dims) : Shaped dims (.buffer b)
  /-- An elementwise operation on sources of the same extents. -/
  | node {dims : List Nat} {code : Opcode} {arg : Arg α} {issuer : Option Nat}
    {sources : List (Tree α)} (hcode : code.isElementwise = true)
    (harity : code.arity = some sources.length) (h : ∀ t ∈ sources, Shaped dims t) :
    Shaped dims (.node code arg issuer sources)
  /-- A reduction that folds axes to unit axes. -/
  | reduce {old new : List Nat} {op : ReduceOp} {shape : Shape} {issuer : Option Nat} {t : Tree α}
    (h : Shaped old t) (hshape : shape.static? = some new)
    (hfold : List.Forall₂ (fun n m => n = m ∨ m = 1) old new) :
    Shaped new (.node (.reduce op) (.shape shape) issuer [t])

omit [Lane α] in
/-- An elementwise operation has a source. -/
theorem sources_ne_nil {code : Opcode} {sources : List (Tree α)} (hcode : code.isElementwise = true)
    (harity : code.arity = some sources.length) : sources ≠ [] := by
  rintro rfl
  cases code <;> simp [Opcode.isElementwise, Opcode.arity] at hcode harity

theorem Shaped.dims_dense (h : t.Shaped dims) (v : Valuation α) : (t.dense v).dims = dims := by
  induction h with
  | @buffer dims b h =>
    rw [dense_buffer]
    exact Buffer.dims_dense h.shape v
  | @node dims code arg issuer sources hcode harity h ih =>
    obtain ⟨u, us, rfl⟩ := List.exists_cons_of_ne_nil (sources_ne_nil hcode harity)
    rw [dense_node, Dense.node_of_isElementwise hcode]
    exact ih u List.mem_cons_self
  | reduce h hshape hfold =>
    rw [dense_node]
    change (Option.getD _ []) = _
    rw [hshape]
    rfl

omit [Lane α] in
theorem Shaped.into (h : t.Shaped dims) {b : Buffer} (hb : b ∈ t.leaves) : ∃ dims, b.Into dims := by
  induction h with
  | @buffer dims c h =>
    obtain rfl := List.mem_singleton.mp hb
    exact ⟨dims, h⟩
  | node _ _ _ ih =>
    rw [leaves_node, List.mem_flatMap] at hb
    obtain ⟨u, hu, hb⟩ := hb
    exact ih u hu hb
  | reduce _ _ _ ih => exact ih (by simpa using hb)

omit [Lane α] in
theorem Shaped.issuedFor (h : t.Shaped dims) (id : Nat) : (t.issuedFor id).Shaped dims := by
  cases h with
  | buffer h => exact .buffer h
  | node hcode harity h => exact .node hcode harity h
  | reduce h hshape hfold => exact .reduce h hshape hfold

omit [Lane α] in
/-- An elementwise tree whose leaves find their positions or hide them. -/
theorem Pointwise.shaped {shape : Shape} (h : t.Pointwise shape)
    (hleaves : ∀ b ∈ t.leaves, b.Into dims) : t.Shaped dims := by
  induction h with
  | buffer h => exact .buffer (hleaves _ (by simp))
  | node hcode harity _ ih =>
    refine .node hcode harity fun u hu => ih u hu fun b hb => hleaves b ?_
    rw [leaves_node, List.mem_flatMap]
    exact ⟨u, hu, hb⟩

/-! ## Replaced leaves -/

/-- What stands for the leaf `b` after a substitution. -/
abbrev standsFor (m : Nat → Option (Tree α)) (b : Buffer) : Tree α := (m b.id).getD (.buffer b)

omit [Lane α] in
/-- An elementwise tree takes the extents of the trees that stand for its leaves. -/
theorem Pointwise.shaped_substitute {shape : Shape} (h : t.Pointwise shape)
    {m : Nat → Option (Tree α)} (hm : ∀ b ∈ t.leaves, (standsFor m b).Shaped dims) :
    (t.substitute m).Shaped dims := by
  induction h with
  | buffer => exact hm _ (by simp)
  | node hcode harity _ ih =>
    rw [substitute_node]
    refine .node hcode (by rw [List.length_map, harity]) fun u hu => ?_
    obtain ⟨s, hs, rfl⟩ := List.mem_map.mp hu
    refine ih s hs fun b hb => hm b ?_
    rw [leaves_node, List.mem_flatMap]
    exact ⟨s, hs, hb⟩

/-- An elementwise tree means the same after trees that match its leaves have taken their place. -/
theorem Pointwise.matches_substitute {shape : Shape} (h : t.Pointwise shape)
    {m : Nat → Option (Tree α)} {n : Nat}
    (hm : ∀ b ∈ t.leaves, Dense.Matches n ((standsFor m b).dense v) (b.dense v)) :
    Dense.Matches n ((t.substitute m).dense v) (t.dense v) := by
  induction h with
  | buffer =>
    rw [dense_buffer]
    exact hm _ (by simp)
  | @node code arg issuer sources hcode _ _ ih =>
    rw [substitute_node, dense_node, dense_node, Dense.node_of_isElementwise hcode,
      Dense.node_of_isElementwise hcode]
    refine Dense.matches_pointwise ?_ code arg
    rw [List.map_map, List.forall₂_map_left_iff, List.forall₂_map_right_iff, List.forall₂_same]
    intro u hu
    refine ih u hu fun b hb => hm b ?_
    rw [leaves_node, List.mem_flatMap]
    exact ⟨u, hu, hb⟩

end Tree

end TensorGraph
