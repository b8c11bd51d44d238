import TensorGraph.Kernel.Eval
import TensorGraph.Proofs.Graph.Operations
import TensorGraph.Proofs.Kernel.Form
import TensorGraph.Proofs.Schedule.Static
import TensorGraph.Proofs.Tracker.Simplify
/-!
# The kernels of a graph

Where all extents are known, every operation that is no load is lowered to a kernel that is built with
discipline: one reduction at most stands in it, and what is not below it has the size of the output.

- `Graph.Typed`: graphs whose extents are known, with loads as the constructors make them.
- `Buffer.Fuses.disciplined`: the kernel of a base.
- `Graph.Typed.stopped_of_unlowerable`: every base can be lowered, unless a number leaves its word.
- `Session.Reachable.lowers_disciplined`: what a reachable session lowers its bases to.
-/

namespace TensorGraph

open TensorGraph.Graph

variable {α : Type} {W W' : Census} {g : Graph α} {b : Buffer} {base : Base} {op t : Tree α}
  {dims : List Nat}

/-- All extents are known, shapes have few enough elements, a scalar load carries a scalar, and a
dense copy is of the shape and the type of its source. -/
structure Graph.Typed (g : Graph α) : Prop where
  /-- The rank of every position of a base is a signed word. -/
  bases : ∀ e ∈ g.cores, e.base.shape.Addressable
  /-- The rank of every position of a leaf is a signed word. -/
  leaves : ∀ e ∈ g.cores, ∀ b ∈ e.leaves, b.shape.Addressable
  /-- A scalar load carries a scalar. -/
  scalars : ∀ e ∈ g.cores, ∀ op, e.op = some op → op.codeIs (· = .load .const) = true →
    op.arg.scalar?.isSome = true
  /-- A dense copy is of the shape and the type of its source. -/
  copies : ∀ e ∈ g.cores, ∀ op, e.op = some op → op.codeIs (· = .load .contiguous) = true →
    ∀ b ∈ op.leaves, b.shape = e.base.shape ∧ b.dtype = e.base.dtype

/-! ## Leaves -/

/-- A leaf that is resolved is a leaf of a kernel. -/
theorem Graph.exists_kernel_leaf {slots : List Buffer} {c : Buffer} {u : Tree α}
    (hu : g.resolveLeaf slots c = .ok u) (hdims : c.shape.static? = some dims)
    (hmem : g.isFolded c = false → ∃ s ∈ slots, s.id = c.base.id) :
    ∃ k, Kernel.ofTree slots.length u = .ok k ∧ k.dtype = c.dtype ∧ k.isLeaf = true
      ∧ k.dims = dims := by
  have hshape := Tracker.static?_simplify hdims
  rcases resolveLeaf_eq_ok hu with ⟨-, value, -, rfl⟩ | ⟨hfolded, rfl⟩
  · refine ⟨.literal value c.tracker.simplify dims c.dtype, ?_, rfl, rfl, rfl⟩
    exact Kernel.ofTree_node_eq_ok.mpr ⟨[], .nil, Kernel.ofNode_eq_ok.mpr (.literal hshape)⟩
  · obtain ⟨s, hs, hid⟩ := hmem hfolded
    have hlt := List.findIdx_lt_length_of_exists (p := fun s => decide (s.id = c.base.id))
      ⟨s, hs, decide_eq_true hid⟩
    refine ⟨.read (slots.findIdx fun s => decide (s.id = c.base.id)) c.tracker.simplify dims c.dtype,
      ?_, rfl, rfl, rfl⟩
    exact Kernel.ofTree_node_eq_ok.mpr ⟨[], .nil,
      Kernel.ofNode_eq_ok.mpr (.slot (Nat.succ_pos _) hlt hshape)⟩

/-! ## Lowered operations -/

/-- What a base is lowered to computes the base as its operation does. -/
theorem Graph.Typed.computes_lowered (h : g.Typed) (hg : g.WellFormed W) {e : Entry α}
    (he : e ∈ g.cores) (hop : e.op = some op) :
    (e.base.buffer.lowered op).Computes W e.base := by
  have hcomputes := hg.computes e he op hop
  have hcopies := h.copies e he op hop
  rw [Buffer.lowered.eq_def]
  split
  · next arg issuer sources =>
    obtain ⟨hform, -, holder⟩ := hcomputes
    cases hform with
    | pointwise _ hcode => cases hcode
    | load harity hbuffers =>
      -- a dense copy is the identity on its source
      obtain ⟨u, rfl⟩ := List.length_eq_one_iff.mp (harity 1 rfl)
      obtain ⟨c, rfl⟩ := hbuffers u List.mem_cons_self
      obtain ⟨hshape, hdtype⟩ := hcopies rfl c (by simp)
      constructor
      case form =>
        refine .pointwise (.node rfl rfl fun u hu => ?_) rfl (congrArg some hdtype)
        obtain rfl := List.mem_singleton.mp hu
        exact .buffer hshape
      case single => exact fun _ u hu => ⟨c, List.mem_singleton.mp hu⟩
      case older => simpa using holder
  · exact hcomputes

/-! ## Kernels -/

/-- The leaves of a tree are leaves of kernels after a substitution. -/
def Tree.Leafy (inputs : Nat) (m : Nat → Option (Tree α)) (t : Tree α) : Prop :=
  ∀ c ∈ t.leaves, ∀ dims, c.shape.static? = some dims →
    ∃ k, Kernel.ofTree inputs ((m c.id).getD (.buffer c)) = .ok k ∧ k.dtype = c.dtype
      ∧ k.isLeaf = true ∧ k.dims = dims

/-- A reduction, alone or with its producer, is a reduction of a kernel without reductions. -/
theorem Tree.JoinsProducer.exists_kernel (hg : g.WellFormed W) {inputs : Nat}
    {m : Nat → Option (Tree α)} (hop : op.Computes W base) (hcode : op.codeIs Opcode.isReduce = true)
    (hdims : base.shape.static? = some dims) (hstatic : ∀ c ∈ op.leaves, c.shape.isStatic = true)
    (hjoins : JoinsProducer g op t) (hleafy : t.Leafy inputs m) :
    ∃ k, Kernel.ofTree inputs (t.substitute m) = .ok k ∧ k.dtype = base.dtype ∧ k.Folds
      ∧ k.dims = dims := by
  obtain ⟨hform, -, holder⟩ := hop
  obtain ⟨rop, issuer, b, rfl, hfold, htype⟩ := hform.of_isReduce hcode
  obtain ⟨old, hold⟩ := Option.isSome_iff_exists.mp (hstatic b (by simp))
  -- what is reduced has no reductions
  have hsource : ∃ u k, t = .node (.reduce rop) (.shape base.shape) issuer [u]
      ∧ Kernel.ofTree inputs (u.substitute m) = .ok k ∧ k.dtype = b.dtype ∧ k.Flat old := by
    cases hjoins with
    | alone =>
      obtain ⟨k, hk, hdtype, hleaf, hkdims⟩ := hleafy b (by simp) old hold
      exact ⟨.buffer b, k, rfl, hk, hdtype, .part hleaf hkdims⟩
    | @joined code arg issuer _ rest producer hrealized htracker hproducer hcode' =>
      obtain ⟨hpointwise, hptype⟩ := hg.pointwise_op? (holder b (by simp)).1 hproducer hcode'
      have hshape : b.base.shape = b.shape := by
        rw [Buffer.shape, htracker]
        exact (Tracker.shape_ofShape _).symm
      obtain ⟨k, hk, hdtype, hflat⟩ := hpointwise.exists_kernel (P := fun u => u.isLeaf = true) hptype
        fun c hc => by
          have hc' : c.shape.static? = some old := by rw [hpointwise.shape_eq hc, hshape, hold]
          obtain ⟨k, hk, hdtype, hleaf, hkdims⟩ := hleafy c (by simpa using hc) old hc'
          exact ⟨k, hk, hdtype, .part hleaf hkdims⟩
      exact ⟨producer, k, rfl, hk, hdtype, hflat⟩
  obtain ⟨u, k, rfl, hk, hdtype, hflat⟩ := hsource
  have hrank : dims.length = k.dims.length := by
    rw [hflat.dims_eq, ← Shape.rank_eq hdims, ← Shape.rank_eq hold]
    exact hfold.length_eq.symm
  refine ⟨.reduce rop dims k.dtype k, ?_, hdtype.trans htype, ⟨rfl, k, old, rfl, hflat⟩, rfl⟩
  rw [substitute_node]
  exact Kernel.ofTree_node_eq_ok.mpr ⟨[k], .cons hk .nil,
    Kernel.ofNode_eq_ok.mpr (.reduce hdims hrank)⟩

/-- The leaves of a tree that is compiled are leaves of kernels. -/
theorem Graph.exists_leafy (hg : g.WellFormed W) (hlists : ∀ c ∈ t.leaves, W.Lists c)
    {compiled : Compiled α} (h : g.resolve t = .ok compiled) :
    ∃ m, compiled.tree = t.substitute m ∧ t.Leafy compiled.slots.length m := by
  obtain ⟨hslots, m, htree, hm⟩ := resolve_eq_ok hlists h
  refine ⟨m, htree, fun c hc dims hdims => ?_⟩
  obtain ⟨u, hu, hresolved⟩ := hm c hc
  rw [hu, Option.getD_some]
  refine exists_kernel_leaf hresolved hdims fun hfolded => ⟨c.base.buffer, ?_, rfl⟩
  rw [hslots, hg.mem_slots fun d hd => hlists d (Tree.mem_leaves_of_mem_buffers hd)]
  exact ⟨c, (mem_buffers_of_lists hlists).mpr hc, hfolded, rfl⟩

/-- Where all sources of the root are buffers that become leaves, all sources of the kernel are leaves. -/
theorem Tree.isLeaf_of_mem_sources {inputs : Nat} {m : Nat → Option (Tree α)} {k x : Kernel α}
    {code : Opcode} (hcode : t.code? = some code) (hsources : ∀ u ∈ t.sources, ∃ c, u = .buffer c)
    (hm : ∀ c ∈ t.leaves, ∃ k, Kernel.ofTree inputs ((m c.id).getD (.buffer c)) = .ok k
      ∧ k.isLeaf = true)
    (hk : Kernel.ofTree inputs (t.substitute m) = .ok k) (hx : x ∈ k.sources) : x.isLeaf = true := by
  cases t with
  | buffer c => cases hcode
  | node code arg issuer ts =>
    obtain ⟨u, hu, hux⟩ := Kernel.ofTree_of_mem_sources hk hx
    rw [substitute_node] at hu
    obtain ⟨t, ht, rfl⟩ := List.mem_map.mp hu
    obtain ⟨c, rfl⟩ := hsources t ht
    obtain ⟨k', hk', hleaf⟩ := hm c (by
      rw [leaves_node, List.mem_flatMap]
      exact ⟨_, ht, by simp⟩)
    rw [substitute_buffer] at hux
    obtain rfl := Except.ok.inj (hux.symm.trans hk')
    exact hleaf

namespace Graph.Typed

variable (h : g.Typed) (hg : g.WellFormed W)
include h hg

/-- The rank of every position of a base that was handed out is a signed word. -/
theorem addressable (hb : W.Lists b) : b.base.shape.Addressable := by
  obtain ⟨e, he, hbase⟩ := hg.census_base _ _ hb
  exact hbase ▸ h.bases e he

/-- So is that of every position of a leaf. -/
theorem leaf_addressable (hb : W.Lists b) (hop : g.op? b = some op) :
    ∀ c ∈ op.leaves, c.shape.Addressable := by
  obtain ⟨e, he, hbase⟩ := hg.census_base _ _ hb
  rw [hg.op?_eq he hbase] at hop
  exact fun c hc => h.leaves e he c (Entry.leaves_eq hop ▸ hc)

end Graph.Typed

/-- A reduction that joins is a reduction of a kernel without reductions, of the extents of its base. -/
theorem Tree.Joined.Fits.exists_kernel (h : g.Typed) (hg : g.WellFormed W) {inputs : Nat}
    {m : Nat → Option (Tree α)} {a : Joined α} (ha : a.Fits g) (hlist : W.Lists a.leaf)
    (hdims : a.leaf.base.shape.static? = some dims) (hleafy : a.tree.Leafy inputs m) :
    ∃ k, Kernel.ofTree inputs (a.tree.substitute m) = .ok k ∧ k.dtype = a.leaf.dtype ∧ k.Folds
      ∧ k.dims = dims := by
  obtain ⟨op, hop, hcode, hjoins⟩ := ha.tree
  exact hjoins.exists_kernel hg (hg.computes_op? hlist hop) hcode hdims
    (fun c hc => (h.leaf_addressable hg hlist hop c hc).isStatic) hleafy

/-- What stands for the leaves of an elementwise tree are leaves of kernels, or the reduction that
joins. -/
theorem Tree.JoinsReduction.exists_parts (h : g.Typed) (hg : g.WellFormed W)
    (hlists : ∀ c ∈ op.leaves, W.Lists c) {output shape : Shape} (hpointwise : op.Pointwise output)
    (hdims : shape.static? = some dims) {joined : Option (Joined α)}
    (hjoins : op.JoinsReduction W g output joined shape t) {inputs : Nat}
    {m : Nat → Option (Tree α)} (hleafy : t.Leafy inputs m) :
    ∃ m' r, t.substitute m = op.substitute m' ∧ (joined = none → r = none)
      ∧ ∀ c ∈ op.leaves, ∃ k, Kernel.ofTree inputs ((m' c.id).getD (.buffer c)) = .ok k
        ∧ k.dtype = c.dtype ∧ k.dims = dims ∧ k.PartOf r := by
  obtain ⟨hfits, hinner, m₀, rfl, hm₀⟩ := hjoins
  have hleaves {c : Buffer} (hc : c ∈ op.leaves) {u : Tree α} (hu : m₀ c.id = some u) :
      ∀ d ∈ u.leaves, d ∈ (op.substitute m₀).leaves := fun d hd =>
    mem_leaves_substitute.mpr ⟨c, hc, by rwa [hu]⟩
  refine ⟨followedBy m₀ m,
    joined.bind fun a => (Kernel.ofTree inputs (a.tree.substitute m)).toOption,
    substitute_substitute m₀ m op, fun hnone => by rw [hnone]; rfl, fun c hc => ?_⟩
  rw [followedBy]
  rcases hm₀ c hc with ⟨a, ha, rfl, hmap⟩ | ⟨-, d, hmap, -, hmoved⟩
  · have hbase : a.leaf.base.shape.static? = some dims :=
      shape_eq_of_joined hinner ha (hpointwise.shape_eq hc) ▸ hdims
    obtain ⟨k, hk, hdtype, hfolds, hkdims⟩ := (hfits a ha).2.exists_kernel h hg (hlists _ hc) hbase
      fun d hd => hleafy d (hleaves hc hmap d hd)
    refine ⟨k, by rw [hmap]; exact hk, hdtype, hkdims, .inr ⟨?_, hfolds⟩⟩
    rw [show joined = some a from ha, Option.bind_some, hk]
    rfl
  · have hshape : d.shape.static? = some dims := by
      rw [← hdims, ← Tracker.shape_reshape hmoved.tracker]
      rfl
    obtain ⟨k, hk, hdtype, hleaf, hkdims⟩ := hleafy d (hleaves hc hmap d (by simp)) dims hshape
    refine ⟨k, by rw [hmap]; exact hk, hdtype.trans ?_, hkdims, .inl hleaf⟩
    rw [Buffer.dtype, hmoved.base]
    rfl

/-- Reductions are merged only where elementwise operations are. -/
theorem Fusion.joinsElementwise_of_joinsReduction {fusion : Fusion}
    (h : fusion.joinsReduction = true) : fusion.joinsElementwise = true := by
  cases fusion with
  | none => cases h
  | _ => rfl

/-- An elementwise tree with a reduction that joins is a kernel with discipline. -/
theorem Tree.JoinsReduction.disciplined (h : g.Typed) (hg : g.WellFormed W)
    (hop : op.Computes W base) (hcode : op.codeIs Opcode.isElementwise = true)
    (houtput : base.shape.Addressable) {shape : Shape} {joined : Option (Joined α)}
    (hjoins : op.JoinsReduction W g base.shape joined shape t)
    (hfusion : joined ≠ none → base.config.fusion.joinsReduction = true)
    {inputs : Nat} {m : Nat → Option (Tree α)} (hleafy : t.Leafy inputs m) {n : Nat}
    (hn : base.shape.elements? = some n) :
    ∃ k, Kernel.ofTree inputs (t.substitute m) = .ok k ∧ k.Disciplined base.config.fusion n := by
  have hpointwise := hop.form.of_isElementwise hcode
  have hlists := fun c hc => (hop.older c hc).1
  have hsize := innerShape_elements? hpointwise houtput (fun c hc => h.addressable hg (hlists c hc))
    hjoins.fits hjoins.inner
  obtain ⟨dims, hdims, rfl⟩ := Shape.static?_of_elements? (hsize.trans hn)
  -- the tree is the operation, with a leaf or the reduction `r` in the place of each leaf
  obtain ⟨m', r, htree, hnone, hparts⟩ := hjoins.exists_parts h hg hlists hpointwise hdims hleafy
  rw [htree]
  obtain ⟨k, hk, -, habove⟩ := hpointwise.exists_kernel (hop.form.type_eq
    (codeIs_eq_false hcode fun _ => Opcode.isLoad_of_isElementwise)) fun c hc => by
      obtain ⟨k, hk, hdtype, hkdims, hpart⟩ := hparts c hc
      exact ⟨k, hk, hdtype, .part hpart hkdims⟩
  obtain ⟨code, hsome, helementwise⟩ := codeIs_eq_true.mp hcode
  have hroot : k.isElementwise = true := Kernel.isElementwise_ofTree hk (by
    rw [codeIs, code?_substitute hsome]
    exact helementwise)
  refine ⟨k, hk, habove.disciplined _ (fun hsingle x hx => ?_) ?_ fun hfalse => .inl (hnone ?_)⟩
  · -- no reduction joins either
    have hr : r = none := hnone (by
      by_contra hne
      rw [Fusion.joinsElementwise_of_joinsReduction (hfusion hne)] at hsingle
      cases hsingle)
    refine isLeaf_of_mem_sources hsome (hop.single hsingle) (fun c hc => ?_) hk hx
    obtain ⟨k', hk', -, -, hleaf | ⟨hsome', -⟩⟩ := hparts c hc
    · exact ⟨k', hk', hleaf⟩
    · rw [hr] at hsome'
      cases hsome'
  · rw [Kernel.isElementwise, Bool.and_eq_true, Bool.not_eq_true'] at hroot
    simpa using hroot.2
  · by_contra hne
    rw [hfusion hne] at hfalse
    cases hfalse

/-- A reduction, alone or with its producer, is a kernel with discipline. -/
theorem Tree.JoinsProducer.disciplined (h : g.Typed) (hg : g.WellFormed W) (hb : W.Lists b)
    (hop : g.op? b = some op) (hcode : op.codeIs Opcode.isReduce = true)
    (hjoins : JoinsProducer g op t)
    (hfusion : b.base.config.fusion.joinsElementwise = false → t = op)
    {inputs : Nat} {m : Nat → Option (Tree α)} (hleafy : t.Leafy inputs m) {n : Nat}
    (hn : b.base.shape.elements? = some n) :
    ∃ k, Kernel.ofTree inputs (t.substitute m) = .ok k
      ∧ k.Disciplined b.base.config.fusion n := by
  obtain ⟨dims, hdims, rfl⟩ := Shape.static?_of_elements? hn
  have hstatic := fun c hc => (h.leaf_addressable hg hb hop c hc).isStatic
  have hcomputes := hg.computes_op? hb hop
  obtain ⟨k, hk, -, hfolds, hkdims⟩ := hjoins.exists_kernel hg hcomputes hcode hdims hstatic hleafy
  have habove : k.Above (Kernel.PartOf (some k)) dims := .part (.inr ⟨rfl, hfolds⟩) hkdims
  refine ⟨k, hk, habove.disciplined _ (fun hsingle x hx => ?_) ?_ fun _ => .inr hfolds.1⟩
  · obtain rfl := hfusion hsingle
    obtain ⟨code, hsome, -⟩ := codeIs_eq_true.mp hcode
    refine isLeaf_of_mem_sources hsome (hcomputes.single hsingle) (fun c hc => ?_) hk hx
    obtain ⟨cdims, hcdims⟩ := Option.isSome_iff_exists.mp (hstatic c hc)
    obtain ⟨k', hk', -, hleaf, -⟩ := hleafy c hc cdims hcdims
    exact ⟨k', hk', hleaf⟩
  · cases hleaf : k.isLeaf with
    | false => rfl
    | true =>
      have hreduce := hfolds.1
      rw [Kernel.isReduce_of_isLeaf hleaf] at hreduce
      cases hreduce

/-- The tree of the kernel of a base is a kernel with discipline. -/
theorem Buffer.Fuses.disciplined (h : g.Typed) (hg : g.WellFormed W) {e : Entry α} (he : e ∈ g.cores)
    (hop : e.op = some op) (hfuses : e.base.buffer.Fuses W g (e.base.buffer.lowered op) t)
    {inputs : Nat} {m : Nat → Option (Tree α)} (hleafy : t.Leafy inputs m) {n : Nat}
    (hn : e.base.shape.elements? = some n) :
    ∃ k, Kernel.ofTree inputs (t.substitute m) = .ok k
      ∧ k.Disciplined e.base.config.fusion n := by
  have hshape : e.base.buffer.shape = e.base.shape := Tracker.shape_ofShape _
  cases hfuses with
  | pointwise hcode hjoins hfusion =>
    rw [hshape] at hjoins
    exact hjoins.disciplined h hg (h.computes_lowered hg he hop) hcode (h.bases e he) hfusion hleafy hn
  | reduce hcode hjoins hfusion =>
    have hlowered := eq_of_lowered_isReduce hcode
    rw [hlowered] at hcode hjoins hfusion
    exact hjoins.disciplined h hg (hg.base_listed e he) ((hg.op?_eq he rfl).trans hop) hcode hfusion
      hleafy hn

/-! ## Lowering -/

/-- Whatever has no operation has a result. -/
def Graph.Sourced (g : Graph α) : Prop := ∀ e ∈ g.cores, e.op = none → e.result ≠ none

/-- Every base with an operation can be lowered, unless a number leaves its word, which none does where
shapes are moderate. -/
theorem Graph.Typed.stopped_of_unlowerable (h : g.Typed) (hg : g.WellFormed W) (hsourced : g.Sourced)
    {e : Entry α} (he : e ∈ g.cores) (hop : e.op = some op) {cause : Error}
    (hunlowerable : e.base.buffer.Unlowerable g cause) :
    cause = .movement .overflow ∧ ¬g.Moderate := by
  have hopEq : g.op? e.base.buffer = some op := (hg.op?_eq he rfl).trans hop
  have hcomputes := h.computes_lowered hg he hop
  have hshape : e.base.buffer.shape = e.base.shape := Tracker.shape_ofShape _
  cases hunlowerable with
  | vacant hvacant => cases hopEq.symm.trans hvacant
  | uncomputable hop' hcode =>
    rw [hopEq, Option.map_some] at hop'
    obtain rfl := Option.some.inj hop'
    cases hcode.symm.trans hcomputes.form.isComputable
  | unjoinable hop' hcode hjoin =>
    rw [hopEq, Option.map_some] at hop'
    obtain rfl := Option.some.inj hop'
    rw [hshape] at hjoin
    have hpointwise := hcomputes.form.of_isElementwise hcode
    have hlists := fun c hc => (hcomputes.older c hc).1
    refine ⟨(hjoin.stopped hpointwise (h.bases e he) fun c hc => h.addressable hg (hlists c hc)).1,
      fun hmoderate => ?_⟩
    refine Tree.not_unjoinable hpointwise (hmoderate.bases e he) (fun c hc => ?_) hjoin
    rw [Buffer.leaves_lowered] at hc
    have hb := hg.base_listed e he
    exact ⟨hmoderate.base hg (hg.older_base hb hopEq c hc).1,
      ((hmoderate.obeys hg).leaf hg hb hopEq c hc).2⟩
  | unsimplified hop' hfuses hleaf hstuck =>
    refine ⟨rfl, fun hmoderate => ?_⟩
    obtain ⟨-, htame⟩ := hfuses.obeys (hmoderate.obeys hg) hg (hg.base_listed e he)
      (hshape ▸ hmoderate.bases e he) hop' _ hleaf
    cases hstuck.symm.trans htame.simplifies
  | unresolved hleaf herror =>
    obtain ⟨f, hf, hbase⟩ := hleaf
    refine absurd herror (resolveLeaf_ne_error (fun hconstant => ?_) fun hnone => ?_)
    · obtain ⟨op', hop', hcode⟩ := isConstant_eq_true.mp hconstant
      rw [loadedScalar?, hop']
      exact h.scalars f hf op' ((hg.op?_eq hf hbase).symm.trans hop') hcode
    · rw [hg.op?_eq hf hbase] at hnone
      rw [isRealized, hg.result?_eq hf hbase]
      exact Option.isSome_iff_ne_none.mpr (hsourced f hf hnone)

/-- A unit with a disciplined kernel, for an output of `n` elements. -/
def Item.Disciplined (item : Item α) (n : Nat) : Prop :=
  ∃ k, Kernel.ofTree item.slots.length item.tree = .ok k ∧ k.Disciplined item.output.config.fusion n

/-- A base is lowered to a disciplined kernel, unless its operation is a load, or a number leaves its
word. -/
theorem Graph.Typed.sat_lower (h : g.Typed) (hg : g.WellFormed W) (hsourced : g.Sourced)
    {e : Entry α} (he : e ∈ g.cores) (hop : e.op = some op)
    (hload : (e.base.buffer.lowered op).codeIs Opcode.isLoad = false) {n : Nat}
    (hn : e.base.shape.elements? = some n) (held : List Buffer) :
    Sat (e.base.buffer.lower held) g
      (fun item _ => item.output = e.base.buffer ∧ item.Disciplined n)
      fun cause _ => cause = .movement .overflow ∧ ¬g.Moderate := by
  refine (Buffer.sat_lower hg (hg.base_listed e he) held).imp ?_ ?_
  · rintro item g' ⟨W', hviewed, hlowers⟩
    have hcores := hviewed.same.cores
    have hg' := hviewed.wellFormed
    have ht' : g'.Typed := ⟨hcores ▸ h.bases, hcores ▸ h.leaves, hcores ▸ h.scalars, hcores ▸ h.copies⟩
    have he' : e ∈ g'.cores := hcores.symm ▸ he
    have hop' : (g'.op? e.base.buffer).map e.base.buffer.lowered = some (e.base.buffer.lowered op) := by
      rw [hg'.op?_eq he' rfl, hop]
      rfl
    cases hlowers.of_viewed hcores (.refl W') with
    | load hop'' hcode =>
      obtain rfl := Option.some.inj (hop'.symm.trans hop'')
      cases hload.symm.trans hcode
    | @kernel op'' fused compiled hop'' hfuses hcompiled _ =>
      obtain rfl := Option.some.inj (hop'.symm.trans hop'')
      have hlists := hfuses.lists hg' (hg'.base_listed e he') hop'
      obtain ⟨m, htree, hleafy⟩ := exists_leafy hg' hlists hcompiled
      obtain ⟨k, hk, hdisciplined⟩ := hfuses.disciplined ht' hg' he' hop hleafy hn
      exact ⟨rfl, k, htree ▸ hk, hdisciplined⟩
  · rintro _ _ ⟨-, -, hunlowerable⟩
    exact h.stopped_of_unlowerable hg hsourced he hop hunlowerable

/-- The interpreter finds nothing to refuse in a kernel with discipline: it goes on to the elements. -/
theorem Kernel.Disciplined.run_eq [Lane α] {tree : Tree α} {shape : Shape} {fusion : Fusion}
    {k : Kernel α} {n : Nat} {blocks : List (Block α)} (h : k.Disciplined fusion n)
    (hk : ofTree blocks.length tree = .ok k) (hn : shape.elements? = some n) (dtype : DType) :
    run tree shape dtype blocks = do
      let lanes ← blocks.mapM blockLanes
      let elements ← (Array.range n).mapM (k.eval lanes.toArray)
      return .ofLanes dtype elements := by
  obtain ⟨dims, hdims, rfl⟩ := Shape.static?_of_elements? hn
  have hsize : k.dims.prod = dims.prod := h.size k (by cases k <;> simp [above])
  rw [run, knownDims_eq_ok.mpr hdims]
  change (blocks.mapM blockLanes >>= fun lanes => ofTree blocks.length tree >>= fun k => _) = _
  rw [hk]
  refine bind_congr fun lanes => ?_
  change (if k.dims.prod ≠ dims.prod then _ else _) = _
  rw [if_neg (not_not.mpr hsize)]

namespace Session

variable [Lane α] {devices : Registry α} {s : Session α}

/-- In a reachable session whose graph has known extents, every base with an operation that is no load
is lowered to a kernel with discipline, and the interpreter finds nothing to refuse in it. Or lowering is
stopped because a number leaves its word, which none does where shapes are moderate. -/
theorem Reachable.lowers_disciplined (hs : s.Reachable devices) (ht : s.engine.graph.Typed)
    {e : Entry α} (he : e ∈ s.engine.graph.entries) (hop : e.op = some op)
    (hload : (e.base.buffer.lowered op).codeIs Opcode.isLoad = false) (held : List Buffer) :
    (((e.base.buffer.lower held).run s.engine.graph).1 = .error (.movement .overflow)
        ∧ ¬s.engine.graph.Moderate)
      ∨ ∃ item k n, ((e.base.buffer.lower held).run s.engine.graph).1 = .ok item
        ∧ Kernel.ofTree item.slots.length item.tree = .ok k ∧ e.base.shape.elements? = some n
        ∧ k.Disciplined e.base.config.fusion n
        ∧ ∀ blocks, blocks.length = item.slots.length → ∀ dtype,
          Kernel.run item.tree e.base.shape dtype blocks = do
            let lanes ← blocks.mapM Kernel.blockLanes
            let elements ← (Array.range n).mapM (k.eval lanes.toArray)
            return .ofLanes dtype elements := by
  obtain ⟨W, hsound⟩ := hs.sound
  have hg := hsound.1.wellFormed
  have he' : e.core ∈ s.engine.graph.cores := mem_cores.mpr ⟨e, he, rfl⟩
  have hsourced : s.engine.graph.Sourced := fun c hc hnone => (hsound.1.results c hc).mpr (.inl hnone)
  obtain ⟨n, hn, -⟩ := ht.bases _ he'
  have h := ht.sat_lower hg hsourced he' hop hload hn held
  rw [Sat] at h
  rcases hrun : (e.core.base.buffer.lower held).run s.engine.graph with ⟨cause | item, g'⟩ <;>
    rw [hrun] at h
  · obtain ⟨rfl, hmoderate⟩ := h
    exact .inl ⟨congrArg Prod.fst hrun, hmoderate⟩
  · obtain ⟨houtput, k, hk, hdisciplined⟩ := h
    rw [houtput] at hdisciplined
    exact .inr ⟨item, k, n, congrArg Prod.fst hrun, hk, hn, hdisciplined, fun blocks hblocks dtype =>
      hdisciplined.run_eq (hblocks ▸ hk) hn dtype⟩

theorem typed_negatedOnes : negatedOnes.engine.graph.Typed where
  bases := List.forall_mem_cons.mpr ⟨⟨2, rfl, by decide⟩,
    List.forall_mem_cons.mpr ⟨⟨1, rfl, by decide⟩, by rintro _ ⟨⟩⟩⟩
  leaves := List.forall_mem_cons.mpr ⟨List.forall_mem_cons.mpr ⟨⟨2, rfl, by decide⟩, by rintro _ ⟨⟩⟩,
    List.forall_mem_cons.mpr ⟨by rintro _ ⟨⟩, by rintro _ ⟨⟩⟩⟩
  scalars := List.forall_mem_cons.mpr ⟨by rintro _ ⟨⟩ ⟨⟩,
    List.forall_mem_cons.mpr ⟨by rintro _ ⟨⟩ -; rfl, by rintro _ ⟨⟩⟩⟩
  copies := List.forall_mem_cons.mpr ⟨by rintro _ ⟨⟩ ⟨⟩,
    List.forall_mem_cons.mpr ⟨by rintro _ ⟨⟩ ⟨⟩, by rintro _ ⟨⟩⟩⟩

/-- The base that holds the negated constant. -/
def negatedBase : Base := ⟨4, .ofNats [2], .f32, "cpu", {}⟩

theorem lowers_disciplined_negatedOnes :
    ∃ item k n, ((negatedBase.buffer.lower []).run negatedOnes.engine.graph).1 = .ok item
      ∧ Kernel.ofTree item.slots.length item.tree = .ok k ∧ negatedBase.shape.elements? = some n
      ∧ k.Disciplined negatedBase.config.fusion n
      ∧ ∀ blocks, blocks.length = item.slots.length → ∀ dtype,
        Kernel.run item.tree negatedBase.shape dtype blocks = do
          let lanes ← blocks.mapM Kernel.blockLanes
          let elements ← (Array.range n).mapM (k.eval lanes.toArray)
          return .ofLanes dtype elements := by
  have hs : negatedOnes.Reachable [] := .step (.step .start _) _
  exact (Reachable.lowers_disciplined hs typed_negatedOnes (e := ⟨negatedBase, _, _, _, _⟩)
    (List.Mem.head _) rfl rfl []).resolve_left fun h => h.2 (by decide +kernel)

/-- The session after a sum of nothing, in more places than signed words can count, was cut down to a
view without elements, and the view was negated. -/
def emptiedSum : Session Float :=
  let run (s : Session Float) (c : Command Float) : Session Float := (s.step [] c).2
  let s := run {} (.define "x" (.constant 1 (.ofNats [0, 9223372036854775810]) .f32 "cpu" {}))
  let s := run s (.define "q" (.reduce "x" .sum (.ofNats [1, 9223372036854775810])))
  let s := run s (.define "v" (.move "q" (.shrink [⟨0, 1⟩, ⟨0, 0⟩])))
  run s (.define "n" (.elementwise "v" (.unary .neg) [] (.ok .none)))

/-- Beyond the signed words a base without elements is lowered to a kernel of many. -/
theorem lowers_emptiedSum :
    emptiedSum.Reachable []
      ∧ (emptiedSum.buffers.lookup "n").map (fun b => b.base.shape.elements?) = some (some 0)
      ∧ (emptiedSum.buffers.lookup "n").map (fun b =>
          ((b.lower emptiedSum.held).run emptiedSum.engine.graph).1.toOption.map fun item =>
            (Kernel.ofTree item.slots.length item.tree).toOption.map fun k => k.dims.prod)
        = some (some (some 9223372036854775810)) := by
  refine ⟨.step (.step (.step (.step .start _) _) _) _, ?_, ?_⟩ <;> decide +kernel

end Session

end TensorGraph
