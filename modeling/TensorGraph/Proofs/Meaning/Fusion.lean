import TensorGraph.Proofs.Graph.Reduce
import TensorGraph.Proofs.Meaning.Growth
import TensorGraph.Proofs.Schedule.Static
/-!
# Fusion keeps the meaning

The operation that a base is lowered to makes the lanes of the base. A producer that joins makes the
lanes that would be read through its buffer, and so does a reduction that joins, so that a fused
tree still makes the lanes of the base.

- `Tree.Yields`: a tree that makes the lanes of a base.
- `Graph.Meaningful.yields_lowered`: what a base is lowered to.
- `Buffer.Fuses.yields`: the tree of the kernel of a base.
-/

namespace TensorGraph

open TensorGraph.Graph

variable {α : Type} [Lane α] {devices : Registry α} {W W' : Census} {v : Valuation α}
  {g : Graph α} {b : Buffer} {base : Base} {dims old new : List Nat} {op t : Tree α}

/-- The tree fits together and makes the lanes of the base, in extents of as many elements. -/
structure Tree.Yields (v : Valuation α) (base : Base) (dims : List Nat) (t : Tree α) : Prop where
  /-- The parts of the tree fit together. -/
  shaped : t.Shaped dims
  /-- The elements have the type of the base. -/
  type : t.type = some base.dtype
  /-- There are as many elements. -/
  size : base.shape.elements? = some dims.prod
  /-- The lanes are those of the base. -/
  lane : ∀ i < dims.prod, (t.dense v).lane i = v base.id i

namespace Tree

/-- A tree in the place of a buffer that covers its base densely matches it if it makes the lanes of
the base. -/
theorem Yields.matches_dense (h : t.Yields v b.base old) (hb : b.Into new)
    (hdense : b.isContiguous = true) (hprod : old.prod = new.prod) :
    Dense.Matches old.prod (t.dense v) (b.dense v) := by
  refine ⟨dtype_dense h.type, fun i hi => ?_⟩
  rw [hb.lane_of_isContiguous hdense v (hprod ▸ hi)]
  exact h.lane i hi

/-- A tree that matches one that makes the lanes of a base makes them, too. -/
theorem Yields.of_matches {t' : Tree α} (h : t.Yields v base old) (hshaped : t'.Shaped new)
    (htype : t'.type = t.type) (hprod : new.prod = old.prod)
    (hmatches : Dense.Matches old.prod (t'.dense v) (t.dense v)) : t'.Yields v base new where
  shaped := hshaped
  type := htype.trans h.type
  size := by rw [h.size, hprod]
  lane i hi := by
    have hi : i < old.prod := hprod ▸ hi
    exact (hmatches.lane i hi).trans (h.lane i hi)

omit [Lane α] in
theorem Pointwise.into {shape : Shape} (h : t.Pointwise shape) (hdims : shape.static? = some dims)
    (hb : b ∈ t.leaves) (hinto : ∃ dims, b.Into dims) : b.Into dims := by
  obtain ⟨dims', hinto⟩ := hinto
  have hshape := hinto.shape
  rw [h.shape_eq hb, hdims] at hshape
  exact Option.some.inj hshape ▸ hinto

/-- An operation that is no load makes the lanes of its base if it means them. -/
theorem Form.yields (hform : op.Form base) (hload : op.codeIs Opcode.isLoad = false)
    (hdims : base.shape.static? = some dims) (hleaves : ∀ c ∈ op.leaves, ∃ dims, c.Into dims)
    (hlane : ∀ i, v base.id i = (op.dense v).lane i) : op.Yields v base dims where
  shaped := by
    cases hform with
    | load => cases hload
    | pointwise hpointwise =>
      exact hpointwise.shaped fun c hc => hpointwise.into hdims hc (hleaves c hc)
    | @reduce rop issuer c hfold _ =>
      obtain ⟨cdims, hc⟩ := hleaves c (by simp)
      refine .reduce (.buffer hc) hdims (Shape.foldsTo_ofNats.mp ?_)
      rw [← Shape.eq_ofNats hc.shape, ← Shape.eq_ofNats hdims]
      exact hfold
  type := hform.type_eq hload
  size := Shape.elements?_eq hdims
  lane i _ := (hlane i).symm

end Tree

/-! ## Lowering -/

namespace Graph

theorem Meaningful.static? (h : Meaningful devices (W, v) g) (hb : W.Lists b) :
    ∃ dims, b.base.shape.static? = some dims ∧ dims.prod ≤ 2 ^ 63 :=
  (h.addressable hb).exists_dims

/-- What stands for an operation that is no load makes the lanes of its base. -/
theorem Meaningful.yields (h : Meaningful devices (W, v) g) (hb : W.Lists b)
    (hop : g.op? b = some op) (hload : op.codeIs Opcode.isLoad = false)
    (hdims : b.base.shape.static? = some dims) : op.Yields v b.base dims := by
  refine (h.1.computes_op? hb hop).form.yields hload hdims (fun c hc => h.leaf_into hb hop hc) ?_
  cases h.op_means hb hop with
  | kernel _ hlane => exact hlane
  | _ => cases hload

theorem Meaningful.leaves_lowered (h : Meaningful devices (W, v) g) (hb : W.Lists b)
    (hop : (g.op? b).map b.lowered = some op) :
    ∀ c ∈ op.leaves, W.Lists c ∧ ∃ dims, c.Into dims := by
  obtain ⟨op', hop', rfl⟩ := Option.map_eq_some_iff.mp hop
  rw [Buffer.leaves_lowered]
  exact fun c hc => ⟨((h.1.computes_op? hb hop').older c hc).1, h.leaf_into hb hop' hc⟩

/-- The operation that a base is lowered to makes the lanes of the base, unless it is a load. -/
theorem Meaningful.yields_lowered [LawfulLane α] (h : Meaningful devices (W, v) g)
    (hb : W.Lists b) (hop : (g.op? b).map b.lowered = some op)
    (hload : op.codeIs Opcode.isLoad = false) (hdims : b.base.shape.static? = some dims) :
    op.Form b.base ∧ op.Yields v b.base dims := by
  obtain ⟨op', hop', rfl⟩ := Option.map_eq_some_iff.mp hop
  by_cases hload' : op'.codeIs Opcode.isLoad = false
  · rw [b.lowered_eq hload']
    exact ⟨(h.1.computes_op? hb hop').form, h.yields hb hop' hload' hdims⟩
  cases h.op_means hb hop' with
  | const => cases hload
  | empty => cases hload
  | rand => cases hload
  | kernel hload'' => exact absurd hload'' hload'
  | @copy _ arg issuer c hcopy hshape hdtype hlane =>
    rcases hcopy with rfl | rfl
    · cases hload
    -- a dense copy is the identity on its source
    have hc : W.Lists c := ((h.1.computes_op? hb hop').older c (by simp)).1
    have hform : (b.lowered (.node (.load .contiguous) arg issuer [.buffer c])).Form b.base := by
      refine .pointwise (.node rfl rfl ?_) rfl (congrArg some hdtype)
      intro u hu
      obtain rfl := List.mem_singleton.mp hu
      exact .buffer hshape
    refine ⟨hform, hform.yields hload hdims (fun d hd => ?_) fun i => ?_⟩
    · rw [Buffer.leaves_lowered] at hd
      exact h.leaf_into hb hop' hd
    · rw [Buffer.lowered, Tree.dense_node, Dense.node_of_isElementwise rfl,
        Dense.lane_pointwise (d := c.dtype) rfl]
      exact (hlane i).trans (h.round_dense hc i).symm

end Graph

/-! ## Producers -/

/-- A reduction makes the lanes of its base with its producer in the place of its input, too. -/
theorem Tree.JoinsProducer.yields (h : Meaningful devices (W, v) g) (hform : op.Form base)
    (hleaves : ∀ c ∈ op.leaves, W.Lists c) (hcode : op.codeIs Opcode.isReduce = true)
    (hop : op.Yields v base new) (hjoins : JoinsProducer g op t) : t.Yields v base new := by
  cases hjoins with
  | alone => exact hop
  | @joined code arg issuer b rest producer hrealized htracker hproducer hcode' =>
    cases hop.shaped with
    | node helementwise =>
      cases code <;> first | cases hcode; done | cases helementwise
    | @reduce old _ rop shape _ _ hb hshape hfold =>
      have hlist := hleaves b (by simp)
      have hload := codeIs_eq_false hcode' fun _ => Opcode.isLoad_of_isElementwise
      have hinto : b.Into old := by
        cases hb with
        | buffer hb => exact hb
      have hdims : b.base.shape.static? = some old := by
        have := hinto.shape
        rwa [Buffer.shape, htracker, Base.tracker, Tracker.shape_ofShape] at this
      have hyields := h.yields hlist hproducer hload hdims
      have hdense : b.isContiguous = true := by
        rw [Buffer.isContiguous, htracker, Bool.and_eq_true]
        exact ⟨Tracker.contiguous_ofShape _, decide_eq_true rfl⟩
      have hmatches := hyields.matches_dense hinto hdense rfl
      refine hop.of_matches (.reduce hyields.shaped hshape hfold) ?_ rfl ?_
      · rw [type_node, type_node, types_eq_some.mpr (.cons hyields.type .nil),
          types_eq_some.mpr (.cons (type_buffer b) .nil)]
        rfl
      · rw [dense_node, dense_node, List.map_singleton, List.map_singleton, dense_buffer,
          Dense.node, Dense.node, hshape, Option.getD_some]
        exact Dense.matches_reduce hfold.length_eq (hyields.shaped.dims_dense v)
          (hinto.dims_dense v) hmatches
          rop

/-! ## Reductions that join -/

/-- What stands for a leaf of a fused tree has the extents `dims` and matches the leaf. -/
structure Tree.Replaces (v : Valuation α) (dims : List Nat) (b : Buffer) (t : Tree α) : Prop where
  /-- The parts of the tree fit together. -/
  shaped : t.Shaped dims
  /-- The elements have the type of the leaf. -/
  type : t.type = some b.dtype
  /-- The lanes are those of the leaf. -/
  lanes : Dense.Matches dims.prod (t.dense v) (b.dense v)

/-- A reshaped leaf takes the place of the leaf. -/
theorem Buffer.Into.replaces (hb : b.Into old) {c : Buffer} {shape : Shape}
    (h : b.Moved (.reshape shape) c) (hnew : shape.static? = some new) :
    (Tree.buffer c).Replaces v new b where
  shaped := .buffer (hb.reshaped h hnew).1
  type := by
    rw [Tree.type_buffer, dtype, h.base]
    rfl
  lanes := by
    rw [Tree.dense_buffer]
    exact hb.matches_reshaped h hnew v

/-- A reduction that joins takes the place of its leaf. -/
theorem Tree.Joined.Fits.replaces (h : Meaningful devices (W, v) g) {a : Joined α}
    (ha : a.Fits g) (hlist : W.Lists a.leaf) (hinto : a.leaf.Into old)
    (hdims : a.leaf.base.shape.static? = some new) :
    a.tree.Replaces v new a.leaf ∧ new.prod = old.prod := by
  obtain ⟨rop, hrop, hcode, hjoins⟩ := ha.tree
  have hload := codeIs_eq_false hcode fun _ => Opcode.isLoad_of_isReduce
  have hcomputes := h.1.computes_op? hlist hrop
  have hyields := hjoins.yields h hcomputes.form (fun c hc => (hcomputes.older c hc).1) hcode
    (h.yields hlist hrop hload hdims)
  have hprod : new.prod = old.prod := by
    have hsize := hinto.elements?_of_isContiguous ha.dense (h.addressable hlist)
    rw [Shape.elements?_eq hdims] at hsize
    exact Option.some.inj hsize
  exact ⟨⟨hyields.shaped, hyields.type, hyields.matches_dense hinto ha.dense hprod⟩, hprod⟩

/-- The shape in which an elementwise tree is evaluated has as many elements as the output. -/
theorem Tree.innerShape_static? (h : Meaningful devices (W, v) g)
    (hleaves : ∀ c ∈ op.leaves, W.Lists c ∧ c.Into dims) {output shape : Shape}
    {joined : Option (Joined α)} (hpointwise : op.Pointwise output)
    (hdims : output.static? = some dims) (hle : dims.prod ≤ 2 ^ 63)
    (hfits : ∀ a ∈ joined, a.leaf ∈ op.leaves ∧ a.Fits g)
    (hinner : innerShape output joined = .ok shape) :
    ∃ inner, shape.static? = some inner ∧ inner.prod = dims.prod := by
  have helements := Shape.elements?_eq hdims
  have hsize := innerShape_elements? hpointwise ⟨_, helements, hle⟩
    (fun c hc => h.addressable (hleaves c hc).1) hfits hinner
  exact Shape.static?_of_elements? (hsize.trans helements)

/-- An elementwise tree makes the lanes of its base with a reduction in the place of a leaf and the
other leaves reshaped, too. -/
theorem Tree.JoinsReduction.yields (h : Meaningful devices (W, v) g)
    (hleaves : ∀ c ∈ op.leaves, W.Lists c ∧ c.Into dims) {shape : Shape}
    {joined : Option (Joined α)} (hpointwise : op.Pointwise base.shape)
    (hop : op.Yields v base dims) (hdims : base.shape.static? = some dims) (hle : dims.prod ≤ 2 ^ 63)
    (hjoins : op.JoinsReduction W' g base.shape joined shape t) :
    ∃ inner, t.Yields v base inner := by
  obtain ⟨hfits, hinner, m, rfl, hm⟩ := hjoins
  obtain ⟨inner, hshape, hprod⟩ := innerShape_static? h hleaves hpointwise hdims hle hfits hinner
  have hreplaces : ∀ c ∈ op.leaves, (standsFor m c).Replaces v inner c := by
    intro c hc
    obtain ⟨hlist, hinto⟩ := hleaves c hc
    rcases hm c hc with ⟨a, ha, rfl, hmap⟩ | ⟨-, d, hmap, -, hmoved⟩
    · have hbase : a.leaf.base.shape.static? = some inner :=
        shape_eq_of_joined hinner ha (hpointwise.shape_eq hc) ▸ hshape
      rw [standsFor, hmap, Option.getD_some]
      exact ((hfits a ha).2.replaces h hlist hinto hbase).1
    · rw [standsFor, hmap, Option.getD_some]
      exact hinto.replaces hmoved hshape
  refine ⟨inner, hop.of_matches (hpointwise.shaped_substitute fun c hc => (hreplaces c hc).shaped)
    ?_ hprod (hpointwise.matches_substitute fun c hc => hprod ▸ (hreplaces c hc).lanes)⟩
  exact type_substitute fun c hc => (hreplaces c hc).type

/-! ## Kernels -/

/-- The tree of the kernel of a base makes the lanes of the base. -/
theorem Buffer.Fuses.yields [LawfulLane α] (h : Meaningful devices (W, v) g) (hb : W.Lists b)
    (hbase : b = b.base.buffer) (hop : (g.op? b).map b.lowered = some op)
    (hfuses : b.Fuses W' g op t) : ∃ inner, t.Yields v b.base inner := by
  obtain ⟨dims, hdims, hle⟩ := h.static? hb
  have hload : op.codeIs Opcode.isLoad = false := by
    cases hfuses with
    | pointwise hcode => exact Tree.codeIs_eq_false hcode fun _ => Opcode.isLoad_of_isElementwise
    | reduce hcode => exact Tree.codeIs_eq_false hcode fun _ => Opcode.isLoad_of_isReduce
  obtain ⟨hform, hyields⟩ := h.yields_lowered hb hop hload hdims
  have hleaves := h.leaves_lowered hb hop
  cases hfuses with
  | pointwise hcode hjoins =>
    have hpointwise := hform.of_isElementwise hcode
    have hshape : b.shape = b.base.shape := by
      rw [hbase]
      exact Tracker.shape_ofShape _
    rw [hshape] at hjoins
    refine hjoins.yields h (fun c hc => ⟨(hleaves c hc).1, ?_⟩) hpointwise hyields hdims hle
    exact hpointwise.into hdims hc (hleaves c hc).2
  | reduce hcode hjoins =>
    exact ⟨dims, hjoins.yields h hform (fun c hc => (hleaves c hc).1) hcode hyields⟩

end TensorGraph
