import TensorGraph.Proofs.Meaning.Graph
/-!
# How meaning grows

A view that is handed out, a base that is added and a result that is filled in leave the meaning of
all older bases as it is.

- `Buffer.Into.moved`: what a view shows after a movement.
- `Graph.Meaningful.viewed`, `Graph.Meaningful.added`, `Graph.Meaningful.uploaded`,
  `Graph.Meaningful.setResult`: the ways in which a graph goes on.
-/

namespace TensorGraph

open TensorGraph.Graph

variable {α : Type} [Lane α] {v : Valuation α}

/-! ## What buffers show -/

namespace Buffer

variable {b c : Buffer} {dims new : List Nat}

theorem lane_dense (v : Valuation α) (b : Buffer) (i : Nat) : (b.dense v).lane i
    = (b.tracker.locate i).elim (Lane.round b.dtype Lane.zero) (v b.base.id) := rfl

theorem Into.dims_dense (hb : b.Into dims) (v : Valuation α) : (b.dense v).dims = dims :=
  Buffer.dims_dense hb.shape v

/-- The handle on a base shows the lanes of the base. -/
theorem into_base {base : Base} (hs : base.shape.static? = some dims) (hle : dims.prod ≤ 2 ^ 63) :
    base.buffer.Into dims :=
  ⟨dims.prod, Shape.elements?_eq hs, Tracker.into_ofShape hs hle⟩

theorem lane_base {base : Base} (hs : base.shape.static? = some dims) (hle : dims.prod ≤ 2 ^ 63)
    (v : Valuation α) {i : Nat} (hi : i < dims.prod) :
    (base.buffer.dense v).lane i = v base.id i := by
  change ((Tracker.ofShape base.shape).locate i).elim _ _ = _
  rw [Tracker.locate_ofShape hs hle hi]
  rfl

/-- A buffer that covers its base densely shows the lanes of the base. -/
theorem Into.lane_of_isContiguous (hb : b.Into dims) (h : b.isContiguous = true) (v : Valuation α)
    {i : Nat} (hi : i < dims.prod) : (b.dense v).lane i = v b.base.id i := by
  obtain ⟨n, -, ht⟩ := hb
  have hcontiguous : b.tracker.contiguous = true := by
    simp only [isContiguous, Bool.and_eq_true] at h
    exact h.1
  rw [lane_dense, ht.locate_of_contiguous hcontiguous hi]
  rfl

omit [Lane α] in
/-- A buffer that covers its base densely has as many elements as the base. -/
theorem Into.elements?_of_isContiguous (hb : b.Into dims) (h : b.isContiguous = true)
    (hbase : b.base.shape.Addressable) : b.base.shape.elements? = some dims.prod := by
  obtain ⟨n, -, ht⟩ := hb
  rw [← Buffer.elements?_of_isContiguous h ht.shape_addressable hbase]
  exact ht.elements?

/-- A view after a movement finds every position that it does not hide. -/
theorem Into.moved (hb : b.Into dims) {m : Movement} (h : b.Moved m c)
    (hnew : c.shape.static? = some new) (hle : new.prod ≤ 2 ^ 63) (hveiled : ¬c.tracker.Unveils) :
    c.Into new := by
  obtain ⟨n, hn, ht⟩ := hb
  exact ⟨n, by rw [h.base, hn], ht.move h.tracker hnew hle hveiled⟩

/-- Where nothing is hidden, a view after a movement shows at each position what was shown at its
source. -/
theorem Into.lane_moved (hb : b.Into dims) (hmask : b.tracker.top.mask = none) {m : Movement}
    (hm : m.Rearranges) (h : b.Moved m c) (hnew : c.shape.static? = some new) (v : Valuation α)
    {i : Nat} (hi : i < new.prod) : m.sourceAt dims new i < dims.prod
      ∧ (c.dense v).lane i = (b.dense v).lane (m.sourceAt dims new i) := by
  obtain ⟨n, -, ht⟩ := hb
  obtain ⟨hlt, hlocate⟩ := ht.locate_move hmask hm h.tracker hnew i hi
  have hdtype : c.dtype = b.dtype := by rw [dtype, h.base]; rfl
  refine ⟨hlt, ?_⟩
  rw [lane_dense, lane_dense, hlocate, h.base, hdtype]

/-- A reshaped buffer has as many elements. -/
theorem Into.reshaped (hb : b.Into dims) {shape : Shape} (h : b.Moved (.reshape shape) c)
    (hnew : shape.static? = some new) : c.Into new ∧ dims.prod = new.prod := by
  obtain ⟨n, hn, ht⟩ := hb
  exact ⟨⟨n, by rw [h.base, hn], ht.reshape h.tracker hnew⟩, (ht.locate_reshape h.tracker hnew).1⟩

/-- A reshaped buffer shows the same lanes. -/
theorem Into.matches_reshaped (hb : b.Into dims) {shape : Shape} (h : b.Moved (.reshape shape) c)
    (hnew : shape.static? = some new) (v : Valuation α) :
    Dense.Matches new.prod (c.dense v) (b.dense v) := by
  obtain ⟨n, -, ht⟩ := hb
  obtain ⟨-, hlocate⟩ := ht.locate_reshape h.tracker hnew
  have hdtype : c.dtype = b.dtype := by rw [dtype, h.base]; rfl
  refine ⟨hdtype, fun i hi => ?_⟩
  rw [lane_dense, lane_dense, hlocate i hi, h.base, hdtype]

end Buffer

/-- A tree with an operation at its root is rounded. -/
theorem Tree.round_dense [LawfulLane α] {t : Tree α} {d : DType} (htype : t.type = some d)
    {code : Opcode} (hcode : t.code? = some code) (i : Nat) :
    Lane.round d ((t.dense v).lane i) = (t.dense v).lane i := by
  rw [← dtype_dense (v := v) htype]
  cases t with
  | buffer b => cases hcode
  | node => rw [dense_node]; exact Dense.round_node ..

/-! ## Ways to go on -/

omit [Lane α] in
theorem update_lane (v : Valuation α) (id : Nat) (l : Nat → α) (i : Nat) :
    Function.update v id l id i = l i := by
  rw [Function.update_self]

theorem round_update {dtype : DType} {l : Nat → α} (hround : ∀ i, Lane.round dtype (l i) = l i)
    (v : Valuation α) (id i : Nat) :
    Lane.round dtype (Function.update v id l id i) = Function.update v id l id i := by
  rw [update_lane]
  exact hround i

namespace Graph

variable {devices : Registry α} {fixed : Nat → Prop} {W W' : Census} {g g' : Graph α}

omit [Lane α] in
theorem WellFormed.entry_lt (hg : g.WellFormed W) {e : Entry α} (he : e ∈ g.cores) :
    e.base.id < g.next :=
  hg.lt_next (hg.base_listed e he)

omit [Lane α] in
theorem WellFormed.base_lt (hg : g.WellFormed W) {b : Buffer} (hb : W.Lists b) :
    b.base.id < g.next :=
  hg.lt_next (hg.lists_base hb)

/-- What a buffer shows is rounded to its element type. -/
theorem Meaningful.round_dense [LawfulLane α] (h : Meaningful devices (W, v) g) {b : Buffer}
    (hb : W.Lists b) (i : Nat) :
    Lane.round b.dtype ((b.dense v).lane i) = (b.dense v).lane i := by
  rw [Buffer.lane_dense]
  cases b.tracker.locate i with
  | none => exact LawfulLane.round_round _ _
  | some place => exact h.rounded hb place

/-- Handing out views changes no meaning. -/
theorem Meaningful.viewed (h : Meaningful devices (W, v) g) (hviewed : Viewed W g W' g') :
    Progress devices fixed (W, v) g (W', v) g' where
  leads := hviewed.leads
  means _ he := h.2 _ (hviewed.same.cores ▸ he)
  agrees _ _ := rfl
  fixed _ he _ := hviewed.same.cores ▸ he

/-- A new base changes no meaning but its own. -/
theorem Meaningful.extend (h : Meaningful devices (W, v) g) (hleads : Leads W g W' g')
    {e₀ : Entry α} (hcores : g'.cores = e₀ :: g.cores) {l : Nat → α}
    (hmeans : e₀.Means devices (Function.update v g.next l)) :
    Progress devices fixed (W, v) g (W', Function.update v g.next l) g' where
  leads := hleads
  means e he := by
    rw [hcores] at he
    rcases List.mem_cons.mp he with rfl | he
    · exact hmeans
    · have hlt := h.1.entry_lt he
      refine (h.2 e he).congr (Function.update_of_ne (Nat.ne_of_lt hlt) l v).symm fun b hb => ?_
      have hlt' := h.1.leaf_base_lt he hb
      exact (Function.update_of_ne (Nat.ne_of_lt (Nat.lt_trans hlt' hlt)) l v).symm
  agrees id hid := Function.update_of_ne (Nat.ne_of_lt hid) l v
  fixed e he _ := hcores ▸ List.mem_cons_of_mem _ he

variable {op : Tree α} {shape : Shape} {dtype : DType} {device : String} {config : Config}
  {b : Buffer}

/-- A base that is added means what its operation makes. -/
theorem Meaningful.added (h : Meaningful devices (W, v) g)
    (hadded : Added W g op shape dtype device config W' b g') (haddressable : shape.Addressable)
    (hserved : devices.Serves device) (hleaves : ∀ c ∈ op.leaves, ∃ dims, c.Into dims)
    {l : Nat → α} (hround : ∀ i, Lane.round dtype (l i) = l i)
    (hmeans : (op.issuedFor g.next).Means (Function.update v g.next l)
      (g.nextBase shape dtype device config)) :
    Progress devices fixed (W, v) g (W', Function.update v g.next l) g' := by
  have hcores := cores_insert g (some op) none shape dtype device config
  rw [← hadded.graph_eq] at hcores
  refine h.extend (hadded.leads h.1) hcores ?_
  constructor
  case addressable => exact haddressable
  case served => exact hserved
  case rounded => exact round_update hround v g.next
  case leaves =>
    intro c hc
    refine hleaves c ?_
    rw [Entry.leaves, Option.map_some, Option.elim_some, Tree.leaves_issuedFor] at hc
    exact hc
  case op => exact fun op' hop' => Option.some.inj hop' ▸ hmeans
  case result => rintro _ ⟨⟩
  case folded => rintro _ ⟨⟩
  case source => rintro ⟨⟩

/-- A base that a kernel computes has the lanes of its operation. -/
theorem Meaningful.added_kernel [LawfulLane α] (h : Meaningful devices (W, v) g)
    (hadded : Added W g op shape dtype device config W' b g') (haddressable : shape.Addressable)
    (hserved : devices.Serves device) (hleaves : ∀ c ∈ op.leaves, ∃ dims, c.Into dims)
    (hload : op.codeIs Opcode.isLoad = false) {code : Opcode} (hcode : op.code? = some code)
    (htype : op.type = some dtype) :
    Progress devices fixed (W, v) g (W', Function.update v g.next (op.dense v).lane) g' := by
  refine h.added hadded haddressable hserved hleaves (Tree.round_dense htype hcode) ?_
  have hdense : op.dense (Function.update v g.next (op.dense v).lane) = op.dense v := by
    refine Tree.dense_congr fun c hc => ?_
    obtain ⟨hlist, -⟩ := hadded.computes.older c hc
    exact Function.update_of_ne (Nat.ne_of_lt (h.1.base_lt hlist)) _ v
  refine .kernel ?_ fun i => ?_
  · cases op <;> exact hload
  · rw [Tree.dense_issuedFor, hdense]
    exact update_lane ..

/-- What the handle on a base that was added shows. -/
theorem Added.shows (hadded : Added W g op shape dtype device config W' b g') {dims : List Nat}
    (hs : shape.static? = some dims) (hle : dims.prod ≤ 2 ^ 63) (v : Valuation α) (l : Nat → α) :
    b.Into dims ∧ b.dtype = dtype ∧ b.config = config ∧ b.tracker = .ofShape shape
      ∧ ∀ i < dims.prod, (b.dense (Function.update v g.next l)).lane i = l i := by
  rw [hadded.buffer_eq]
  refine ⟨Buffer.into_base hs hle, rfl, rfl, rfl, fun i hi => ?_⟩
  rw [Buffer.lane_base hs hle _ hi]
  exact update_lane ..

/-- An uploaded base means its block. -/
theorem Meaningful.uploaded (h : Meaningful devices (W, v) g) {block : Block α} {l : Nat → α}
    (haddressable : shape.Addressable) (hserved : devices.Serves device)
    (hround : ∀ i, Lane.round dtype (l i) = l i) (hhost : block.isKernelInput = true)
    (hblock : block.Holds (Function.update v g.next l) (g.nextBase shape dtype device config)) :
    Progress devices fixed (W, v) g
      (W.add (g.nextBase shape dtype device config).buffer, Function.update v g.next l)
      (g.insert none (some block) shape dtype device config).2 := by
  have hleads : Leads W g (W.add (g.nextBase shape dtype device config).buffer)
      (g.insert none (some block) shape dtype device config).2 :=
    ⟨h.1.insert nofun, h.1.grows_add rfl, grows_insert ..⟩
  refine h.extend hleads (cores_insert ..) ?_
  constructor
  case addressable => exact haddressable
  case served => exact hserved
  case rounded => exact round_update hround v g.next
  case leaves => exact fun c hc => absurd hc List.not_mem_nil
  case op =>
    intro op' hop'
    cases hop'
  case result => exact fun block' h' => Option.some.inj h' ▸ hblock
  case folded =>
    intro block' h' hfolded
    obtain rfl := Option.some.inj h'
    rw [hhost] at hfolded
    cases hfolded
  case source => exact fun _ h' => absurd h' (Option.some_ne_none block)

/-- A result that holds the lanes of its base may be filled in. -/
theorem Meaningful.setResult (h : Meaningful devices (W, v) g) (hb : W.Lists b)
    (hrealized : g.isRealized b = false) (hfixed : ¬fixed b.base.id) {block : Block α}
    (hblock : block.Holds v b.base) (hfolded : block.isKernelInput = false →
      ∃ op, g.op? b = some op ∧ op.codeIs (· = .load .const) = true) :
    Progress devices fixed (W, v) g (W, v) (g.setResult b.base.id block) where
  leads := ⟨h.1.setResult _ block, .refl W, h.1.grows_setResult hrealized block⟩
  means e he := by
    rw [cores_setResult] at he
    obtain ⟨f, hf, rfl⟩ := List.mem_map.mp he
    have hmeans := h.2 f hf
    split
    · next hid =>
      obtain ⟨f', hf', hbase, hop, -, -⟩ := h.entry hb
      obtain rfl : f' = f := h.1.eq_of_id_eq hf' hf (by rw [hbase, hid])
      refine ⟨hmeans.addressable, hmeans.served, hmeans.rounded, hmeans.leaves, hmeans.op, ?_, ?_,
        nofun⟩
      · exact fun block' h' => Option.some.inj h' ▸ hbase ▸ hblock
      · intro block' h' hblock'
        obtain ⟨op, hop', hconst⟩ := hfolded (Option.some.inj h' ▸ hblock')
        exact ⟨op, hop ▸ hop', hconst⟩
    · exact hmeans
  agrees _ _ := rfl
  fixed e he hid := by
    rw [cores_setResult]
    have hne : e.base.id ≠ b.base.id := fun heq => hfixed (heq ▸ hid)
    exact List.mem_map.mpr ⟨e, he, if_neg hne⟩

end Graph

end TensorGraph
