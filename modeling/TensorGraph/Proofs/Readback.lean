import TensorGraph.Proofs.Engine.Waits
import TensorGraph.Proofs.Meaning.Session
import TensorGraph.Proofs.Schedule.Copy
/-!
# Reading back

A buffer is read back from the result of its base where it covers the base densely, and through a
kernel that copies it elsewhere. Whatever a load or a loader has made, both ways give what the buffer
shows, except that a folded scalar is not repeated where nothing has to be copied. Arithmetic that leaves
the words may stop a copy, but not that of a calm view.

- `Block.Fills`: the results that loads may give to a base.
- `Graph.Stores`: a base with such a result.
- `Buffer.Copyable.run`: the kernel that copies.
- `Session.Reachable.reads_stored`: what reading a buffer back gives.
-/

namespace TensorGraph

open TensorGraph.Graph TensorGraph.Engine World

variable {α : Type} [Lane α] {v : Valuation α} {base : Base} {block : Block α} {dims : List Nat}
  {g g' : Graph α} {b c : Buffer} {place k : Nat}

/-! ## Results -/

/-- The block may be the result of the base, with the lanes of the base: one scalar for all of them, or
as many elements as there are positions. -/
inductive Block.Fills (v : Valuation α) (base : Base) : Block α → Prop
  /-- A folded scalar. -/
  | scalar {value : α} (hlane : ∀ i, v base.id i = Lane.round base.dtype value) :
    Fills v base (.constant value base.dtype)
  /-- Elements in some storage. -/
  | elements {block : Block α} {data : HostData α} (hinput : block.isKernelInput = true)
    (hdtype : block.dtype = base.dtype) (hsize : base.shape.elements? = some block.size)
    (hread : block.read = .ok data) (hdata : data.dtype = base.dtype)
    (hcount : data.size = block.size)
    (hlane : ∀ i < block.size, data.lanes[i]? = some (v base.id i)
      ∧ Lane.round base.dtype (v base.id i) = v base.id i) : Fills v base block

namespace Block

/-- What the block is read as. -/
theorem Fills.read (h : block.Fills v base) : ∃ data, block.read = .ok data
    ∧ data.dtype = base.dtype ∧ data.size = block.size
    ∧ ∀ i < block.size, data.lanes[i]? = some (v base.id i) := by
  cases h with
  | @scalar value hlane =>
    refine ⟨.ofLanes base.dtype #[value], rfl, rfl, HostData.size_ofLanes _ _, fun i hi => ?_⟩
    obtain rfl : i = 0 := Nat.lt_one_iff.mp hi
    simp [HostData.ofLanes, hlane]
  | elements _ _ _ hread hdata hcount hlane =>
    exact ⟨_, hread, hdata, hcount, fun i hi => (hlane i hi).1⟩

/-- A block with one element for each position is read back as its elements. -/
theorem Fills.toArray (h : block.Fills v base) (hsize : block.size = dims.prod) :
    ∃ array, block.toArray dims = .ok array ∧ array.shape = dims ∧ array.dtype = base.dtype
      ∧ ∀ i < dims.prod, array.lanes[i]? = some (v base.id i) := by
  obtain ⟨data, hread, hdtype, hcount, hlane⟩ := h.read
  have hcount' : data.size = dims.prod := hcount.trans hsize
  refine ⟨⟨dims, data, hcount'⟩, ?_, rfl, hdtype, fun i hi => hlane i (hsize ▸ hi)⟩
  simp only [Block.toArray, hsize, ne_eq, not_true_eq_false, if_false, hread]
  exact dif_pos hcount'

/-- A block with another number of elements is not read back. -/
theorem toArray_of_ne (h : block.size ≠ dims.prod) :
    block.toArray dims = .error (.readLength block.size dims) := by
  simp only [Block.toArray, ne_eq, h.symm, not_false_eq_true, if_true]
  rfl

/-- A folded scalar is everywhere. -/
theorem Fills.lane_of_constant (h : block.Fills v base) {value : α}
    (hconstant : block.constant? = some value) (i : Nat) :
    v base.id i = Lane.round base.dtype value := by
  cases h with
  | scalar hlane => exact Option.some.inj hconstant ▸ hlane i
  | elements hinput =>
    rw [isKernelInput, hconstant] at hinput
    cases hinput

/-- A kernel sees the elements of a storage, perhaps not rounded yet. -/
theorem Fills.blockLanes (h : block.Fills v base) (hinput : block.isKernelInput = true) :
    ∃ lanes, Kernel.blockLanes block = .ok lanes ∧ ∀ i < block.size,
      ∃ x, lanes[i]? = some x ∧ Lane.round base.dtype x = v base.id i := by
  cases h with
  | scalar => cases hinput
  | @elements _ data _ hdtype _ hread _ _ hlane =>
    obtain ⟨size, dtype, storage⟩ := block
    obtain rfl : dtype = base.dtype := hdtype
    cases storage with
    | constant => cases hinput
    | host stored =>
      refine ⟨stored.lanes, rfl, fun i hi => ?_⟩
      obtain ⟨hget, hround⟩ := hlane i hi
      obtain rfl := Except.ok.inj hread
      rw [HostData.convert] at hget
      split at hget
      · exact ⟨_, hget, hround⟩
      · simp only [HostData.ofLanes, Array.getElem?_map, Option.map_eq_some_iff] at hget
        exact hget
    | foreign copy =>
      have hcopy : copy base.dtype = .ok data := hread
      refine ⟨data.lanes, by simp only [Kernel.blockLanes, hcopy], fun i hi => ?_⟩
      exact ⟨_, (hlane i hi).1, (hlane i hi).2⟩

end Block

/-- The result of the base of `b` is the block, which holds the lanes of the base. A scalar load carries
the scalar that it has made. -/
structure Graph.Stores (v : Valuation α) (g : Graph α) (b : Buffer) (block : Block α) : Prop where
  /-- The result. -/
  result : g.result? b = some block
  /-- The lanes. -/
  fills : block.Fills v b.base
  /-- The scalar of a scalar load is everywhere. -/
  loaded : g.isConstant b = true → ∃ value, g.loadedScalar? b = some value
    ∧ ∀ i, v b.base.id i = Lane.round b.dtype value

/-! ## The kernel that copies -/

omit [Lane α] in
theorem Graph.resolve_copyOf (g : Graph α) (b : Buffer) (id : Nat) :
    g.resolve (.copyOf b id) = (fun u => ⟨.node (.unary .noop) .none (some id) [u], g.slots [b]⟩)
      <$> g.resolveLeaf (g.slots [b]) b := by
  simp only [resolve, Tree.buffers_copyOf, List.mapM_cons, List.mapM_nil]
  cases g.resolveLeaf (g.slots [b]) b with
  | error cause => rfl
  | ok u => simp [Tree.copyOf, Tree.replacement]

omit [Lane α] in
theorem Graph.slots_of_isFolded (h : g.isFolded b = true) : g.slots [b] = [] := by
  simp [slots, h, Tree.firstVisits]

omit [Lane α] in
theorem Graph.slots_of_not_isFolded (h : g.isFolded b = false) : g.slots [b] = [b.root] := by
  simp [slots, h, Tree.firstVisits]

/-- Once the base has a result, or before that, the leaf of the copy becomes the scalar that is everywhere
in the base, or a slot. -/
theorem Graph.Stores.resolved (h : g.Stores v b block) (hop : g'.op? b = g.op? b)
    (hresult : g'.result? b = none ∨ g'.result? b = g.result? b) {id : Nat} {compiled : Compiled α}
    (hcompiled : g'.resolve (.copyOf b id) = .ok compiled) :
    (∃ value, compiled = ⟨.node (.unary .noop) .none (some id) [.literalOf b value], []⟩
        ∧ ∀ i, v b.base.id i = Lane.round b.dtype value)
      ∨ (g'.isFolded b = false
        ∧ compiled = ⟨.node (.unary .noop) .none (some id) [.readOf b 0], [b.root]⟩) := by
  rw [resolve_copyOf, map_eq_ok] at hcompiled
  obtain ⟨u, hu, rfl⟩ := hcompiled
  rcases resolveLeaf_eq_ok hu with ⟨hfolded, value, hvalue, rfl⟩ | ⟨hfolded, rfl⟩
  · rw [slots_of_isFolded hfolded]
    refine .inl ⟨value, rfl, ?_⟩
    rcases Option.or_eq_some_iff.mp hvalue with hscalar | ⟨hnone, hscalar⟩
    · obtain ⟨block', hblock', hconstant⟩ := Option.bind_eq_some_iff.mp hscalar
      rcases hresult with hnone | hsame
      · rw [hnone] at hblock'
        cases hblock'
      obtain rfl : block' = block := Option.some.inj (hblock'.symm.trans (hsame.trans h.result))
      exact h.fills.lane_of_constant hconstant
    · rw [isFolded, hnone, Option.isSome_none, Bool.or_false, isConstant, hop] at hfolded
      rw [loadedScalar?, hop] at hscalar
      obtain ⟨value', hloaded, hlane⟩ := h.loaded hfolded
      obtain rfl : value' = value := Option.some.inj (hloaded.symm.trans hscalar)
      exact hlane
  · rw [slots_of_not_isFolded hfolded]
    refine .inr ⟨hfolded, ?_⟩
    simp [List.findIdx_cons, b.id_root]

/-- The leaf of the copy can be resolved. -/
theorem Graph.Stores.exists_resolve (h : g.Stores v b block) (hop : g'.op? b = g.op? b)
    (hresult : g'.result? b = g.result? b ∨ g'.op? b ≠ none) (id : Nat) :
    ∃ compiled, g'.resolve (.copyOf b id) = .ok compiled := by
  rw [resolve_copyOf]
  cases hu : g'.resolveLeaf (g'.slots [b]) b with
  | ok u => exact ⟨_, rfl⟩
  | error cause =>
    exfalso
    rcases resolveLeaf_eq_error hu with ⟨hconstant, -, hnone⟩ | ⟨hvacant, hwaits⟩
    · rw [isConstant, hop] at hconstant
      obtain ⟨value, hloaded, -⟩ := h.loaded hconstant
      rw [loadedScalar?, hop] at hnone
      cases hnone.symm.trans hloaded
    · rcases hresult with hsame | hop'
      · rw [isRealized, hsame, h.result] at hwaits
        cases hwaits
      · exact hop' hvacant

/-- Every position of the buffer that is not hidden has a place in the block, or the block takes
none. -/
def Buffer.Placed (b : Buffer) (block : Block α) (dims : List Nat) : Prop :=
  ∀ i < dims.prod, ∀ place, b.tracker.locate i = some place →
    place < block.size ∨ block.isKernelInput = false

/-- However the tracker was made, positions have places in what fills a base with elements, if no view
below the topmost one has more positions than signed words count. -/
theorem Block.Fills.placed (h : block.Fills v b.base) (hover : b.tracker.Over b.base.shape)
    (hbase : b.base.shape.Addressable) (hpos : b.base.shape.elements? ≠ some 0)
    (hbelow : ∀ u ∈ b.tracker.below, u.shape.Addressable) (hs : b.shape.static? = some dims) :
    b.Placed block dims := by
  intro i hi place hplace
  cases h with
  | scalar => exact .inr rfl
  | elements _ _ hsize =>
    obtain ⟨n, hn, hle⟩ := hbase
    have hn0 : 0 < n := Nat.pos_of_ne_zero fun hzero => hpos (hzero ▸ hn)
    obtain rfl := Option.some.inj (hsize.symm.trans hn)
    exact .inl (hover.locate_lt hn hn0 hle hbelow hs hi hplace)

/-- What the buffer shows is rounded to the type of its elements. -/
theorem Block.Fills.rounded [LawfulLane α] (h : block.Fills v b.base)
    (hplaced : b.Placed block dims) {i : Nat} (hi : i < dims.prod) :
    Lane.round b.dtype ((b.dense v).lane i) = (b.dense v).lane i := by
  simp only [Buffer.dense]
  cases hlocate : b.tracker.locate i with
  | none => exact LawfulLane.round_round _ _
  | some place =>
    change Lane.round b.dtype (v b.base.id place) = v b.base.id place
    cases h with
    | scalar hlane =>
      rw [hlane]
      exact LawfulLane.round_round _ _
    | elements hinput _ _ _ _ _ hlane =>
      rcases hplaced i hi place hlocate with hlt | hfolded
      · exact (hlane place hlt).2
      · rw [hinput] at hfolded
        cases hfolded

namespace Kernel

/-- The identity on a leaf that computes rounded lanes gives these lanes, unless it is stopped. -/
theorem run_noop {calm : Prop} {u : Tree α} {id : Nat} {shape : Shape} {blocks : List (Block α)}
    {lanes : List (Array α)} {k : Kernel α} {x : Dense α} (hdims : x.dims = dims)
    (hshape : shape.static? = some dims) (hlanes : blocks.mapM blockLanes = .ok lanes)
    (hk : ofTree blocks.length u = .ok k) (hx : k.Computes calm lanes.toArray x)
    (hround : ∀ i < dims.prod, Lane.round x.dtype (x.lane i) = x.lane i) :
    Gives calm (.ofLanes x.dtype ((Array.range dims.prod).map x.lane))
      (run (.node (.unary .noop) .none (some id) [u]) shape x.dtype blocks) := by
  have hnode : ofTree blocks.length (.node (.unary .noop) .none (some id) [u])
      = .ok (unary .noop k.dtype k) :=
    ofTree_node_eq_ok.mpr ⟨[k], .cons hk .nil, rfl⟩
  have hcomputes : (unary .noop k.dtype k).Computes calm lanes.toArray x := by
    refine ⟨hx.dims, hx.dtype, fun i hi => ?_⟩
    have heval : (unary .noop k.dtype k).eval lanes.toArray i
        = Lane.round x.dtype <$> k.eval lanes.toArray i := by
      rw [eval, hx.dtype]
      rfl
    rw [heval, ← hround i (hdims ▸ hi)]
    exact (hx.eval i hi).map (Lane.round x.dtype)
  exact run_gives hlanes hnode hcomputes hshape (congrArg List.prod hdims) x.dtype

end Kernel

/-- A buffer whose dense copy is made by a kernel. -/
structure Buffer.Copyable (v : Valuation α) (block : Block α) (dims : List Nat) (b c : Buffer) :
    Prop where
  /-- Movements have made the tracker. -/
  proper : b.tracker.Proper
  /-- The extents are known. -/
  shape : b.shape.static? = some dims
  /-- The rank of a position is a signed word. -/
  addressable : dims.prod ≤ 2 ^ 63
  /-- The copy has the extents. -/
  copyShape : c.shape.static? = some dims
  /-- The copy has elements of the same type. -/
  copyType : c.dtype = b.dtype
  /-- The lanes of the base. -/
  fills : block.Fills v b.base
  /-- A position that is not hidden has a place in the storage. -/
  placed : b.Placed block dims

/-- The kernel that copies gives what the buffer shows, unless it cannot find a position. -/
theorem Buffer.Copyable.run [LawfulLane α] (h : b.Copyable v block dims c) {id : Nat}
    {compiled : Compiled α} {blocks : List (Block α)}
    (hcompiled : (∃ value, compiled = ⟨.node (.unary .noop) .none (some id) [.literalOf b value], []⟩
        ∧ (∀ i, v b.base.id i = Lane.round b.dtype value) ∧ blocks = [])
      ∨ (block.isKernelInput = true ∧ blocks = [block]
        ∧ compiled = ⟨.node (.unary .noop) .none (some id) [.readOf b 0], [b.root]⟩)) :
    Kernel.Gives (b.tracker.Found dims)
      (.ofLanes b.dtype ((Array.range dims.prod).map (b.dense v).lane))
      (Kernel.run compiled.tree c.shape c.dtype blocks) := by
  have hdims := Buffer.dims_dense h.shape v
  have hround : ∀ i < dims.prod, Lane.round (b.dense v).dtype ((b.dense v).lane i) = (b.dense v).lane i :=
    fun i hi => h.fills.rounded h.placed hi
  rw [h.copyType]
  rcases hcompiled with ⟨value, rfl, hlane, rfl⟩ | ⟨hinput, rfl, rfl⟩
  · -- the kernel repeats a literal
    have hkernel : ∃ k, Kernel.ofTree 0 (Tree.literalOf b value) = .ok k
        ∧ k.Computes (b.tracker.Found dims) #[] (b.dense v) :=
      Kernel.ofTree_literal h.proper h.shape h.addressable (fun hfound => hfound) fun _ _ place _ =>
        hlane place
    obtain ⟨k, hk, hcomputes⟩ := hkernel
    have hblocks : ([] : List (Block α)).mapM Kernel.blockLanes = .ok [] := rfl
    exact Kernel.run_noop hdims h.copyShape hblocks hk hcomputes hround
  · -- the kernel reads the block where the view finds its positions
    obtain ⟨l, hl, hlanes⟩ := h.fills.blockLanes hinput
    have hfetch : ∀ flat < dims.prod, ∀ place, b.tracker.locate flat = some place →
        ∃ x, Kernel.fetch #[l] 0 place = .ok x ∧ Lane.round b.dtype x = v b.base.id place := by
      intro flat hflat place hplace
      obtain hlt | hfolded := h.placed flat hflat place hplace
      · obtain ⟨x, hx, hxround⟩ := hlanes place hlt
        have hget : [l][0]? = some l := rfl
        exact ⟨x, Kernel.fetch_eq_ok hget hx, hxround⟩
      · rw [hinput] at hfolded
        cases hfolded
    have hkernel : ∃ k, Kernel.ofTree 1 (Tree.readOf b 0) = .ok k
        ∧ k.Computes (b.tracker.Found dims) #[l] (b.dense v) :=
      Kernel.ofTree_slot h.proper h.shape h.addressable (fun hfound => hfound) Nat.one_pos hfetch
    obtain ⟨k, hk, hcomputes⟩ := hkernel
    have hblocks : [block].mapM Kernel.blockLanes = .ok [l] := by
      simp only [List.mapM_cons, List.mapM_nil, hl]
      rfl
    exact Kernel.run_noop hdims h.copyShape hblocks hk hcomputes hround

/-! ## The unit of the copy -/

namespace Run

variable {devices : Registry α} {e : Engine α} {realize : Realizer α} {compiled : Compiled α}

/-- The kernel of the copy is run as it was scheduled, unless the base has become a folded scalar. -/
theorem sat_compiled_copy (h : e.graph.Stores v b block) (hop : g.op? b = e.graph.op? b)
    (hresult : g.result? b = none ∨ g.result? b = e.graph.result? b)
    (hcompiled : g.compile (.copyOf b c.id) = .ok compiled) :
    Sat (Run.compiled (.copyOf b c compiled)) e (fun kernel e' => e' = e
      ∧ ((∃ value, kernel = ⟨.node (.unary .noop) .none (some c.id) [.literalOf b value], []⟩
          ∧ ∀ i, v b.base.id i = Lane.round b.dtype value)
        ∨ (block.isKernelInput = true
          ∧ kernel = ⟨.node (.unary .noop) .none (some c.id) [.readOf b 0], [b.root]⟩)))
      fun _ _ => False := by
  have hfolded : e.graph.foldedScalar? b.root = block.constant? := by
    rw [foldedScalar?, result?_root, h.result]
    rfl
  obtain ⟨hresolved, hsimple⟩ := compile_eq_ok.mp hcompiled
  rw [Run.compiled, sat_bind, sat_graph]
  rcases h.resolved hop hresult hresolved with ⟨value, rfl, hlane⟩ | ⟨-, rfl⟩
  · exact ⟨rfl, .inl ⟨value, rfl, hlane⟩⟩
  · change Sat (if (([b.root] : List Buffer).any fun slot => (e.graph.foldedScalar? slot).isSome) = true
      then ofExcept (e.graph.compile (.copyOf b c.id)) else _) e _ _
    rw [List.any_cons, List.any_nil, Bool.or_false, hfolded]
    split
    · next hconstant =>
      -- the scalar takes the place of the slot
      obtain ⟨anew, hanew⟩ := h.exists_resolve rfl (.inl rfl) c.id
      rw [compile_eq_ok.mpr ⟨hanew, hsimple⟩]
      rcases h.resolved rfl (.inr rfl) hanew with hliteral | ⟨hslot, -⟩
      · exact ⟨rfl, .inl hliteral⟩
      · rw [isFolded, foldedScalar?, h.result, Option.bind_some, hconstant, Bool.or_true] at hslot
        cases hslot
    · next hconstant =>
      refine ⟨rfl, .inr ⟨?_, rfl⟩⟩
      rw [Block.isKernelInput]
      simpa using hconstant

variable [LawfulLane α]

/-- The unit of the copy computes what the buffer shows, unless it cannot find a position. -/
theorem sat_execute_copy (h : e.graph.Stores v b block) (hop : g.op? b = e.graph.op? b)
    (hresult : g.result? b = none ∨ g.result? b = e.graph.result? b)
    (hcompiled : g.compile (.copyOf b c.id) = .ok compiled) (hcopy : b.Copyable v block dims c)
    (hserved : devices.Serves c.device) (held : List Buffer) :
    Sat (execute devices realize held (.copyOf b c compiled)) e
      (fun copied e' => e'.graph = e.graph ∧ copied = .ofHost
        (.ofLanes b.dtype ((Array.range dims.prod).map (b.dense v).lane)))
      fun f _ => f = .overflow ∧ ¬b.tracker.Found dims := by
  obtain ⟨name, capabilities, counted, hserved⟩ := hserved
  have hfind : devices.find (Item.copyOf b c compiled).output.device
      = .ok (.interpreter name capabilities counted Takeover.never) := hserved
  have hload : (Item.copyOf b c compiled).load? = none := by
    rcases h.resolved hop hresult (compile_eq_ok.mp hcompiled).1 with ⟨value, rfl, -⟩ | ⟨-, rfl⟩ <;> rfl
  rw [sat_execute_kernel hfind hload, sat_bind]
  refine (sat_compiled_copy h hop hresult hcompiled).imp ?_ fun _ _ h => h.elim
  rintro kernel e ⟨rfl, hkernel⟩
  have hinputs : Sat (kernel.slots.mapM (slotInput c)) e (fun blocks e' => e' = e
      ∧ Kernel.Gives (b.tracker.Found dims)
        (.ofLanes b.dtype ((Array.range dims.prod).map (b.dense v).lane))
        (Kernel.run kernel.tree c.shape c.dtype blocks)) fun _ _ => False := by
    rcases hkernel with ⟨value, rfl, hlane⟩ | ⟨hinput, rfl⟩
    · exact ⟨rfl, hcopy.run (.inl ⟨value, rfl, hlane, rfl⟩)⟩
    · have hslot : Sat (slotInput c b.root) e (fun block' e' => block' = block ∧ e' = e)
          fun _ _ => False := by
        rw [slotInput, sat_bind, sat_graph, result?_root, h.result]
        simp only [hinput, if_true]
        exact ⟨rfl, rfl⟩
      change Sat (List.mapM (slotInput c) [b.root]) e _ _
      rw [List.mapM_cons, sat_bind]
      refine hslot.imp ?_ fun _ _ h => h
      rintro _ _ ⟨rfl, rfl⟩
      exact ⟨rfl, hcopy.run (.inr ⟨hinput, rfl, rfl⟩)⟩
  rw [sat_bind]
  refine hinputs.imp ?_ fun _ _ h => h.elim
  rintro blocks e ⟨rfl, hrun⟩
  have hanswer : (Backend.interpreter name capabilities counted .never).execute kernel.tree c blocks
      (Device.args c.device) = Backend.interpret kernel.tree c blocks := rfl
  rw [Backend.interpret] at hanswer
  generalize Kernel.run kernel.tree c.shape c.dtype blocks = r at hrun hanswer
  cases hrun with
  | met =>
    refine Backend.sat_ask_execute rfl (fun copied hcopied => ⟨rfl, ?_⟩) fun cause hcause => ?_
    · exact Except.ok.inj (hcopied.symm.trans hanswer)
    · cases hcause.symm.trans hanswer
  | stopped hlost =>
    refine Backend.sat_ask_execute rfl (fun copied hcopied => ?_) fun cause hcause => ⟨?_, hlost⟩
    · cases hcopied.symm.trans hanswer
    · obtain rfl := Except.error.inj (hcause.symm.trans hanswer)
      rfl

/-- The unit of the copy succeeds, with a result that shows what the buffer shows, unless it cannot find a
position. -/
theorem sat_runUnit_copy (h : e.graph.Stores v b block) (hop : g.op? b = e.graph.op? b)
    (hresult : g.result? b = none ∨ g.result? b = e.graph.result? b)
    (hcompiled : g.compile (.copyOf b c.id) = .ok compiled) (hcopy : b.Copyable v block dims c)
    (hserved : devices.Serves c.device) (hwaits : e.graph.isRealized c = false)
    (held : List Buffer) :
    Sat (runUnit devices realize held (.copyOf b c compiled)) e
      (fun _ e' => e'.graph = e.graph.setResult c.base.id (.ofHost
        (.ofLanes b.dtype ((Array.range dims.prod).map (b.dense v).lane))))
      fun f _ => f = .overflow ∧ ¬b.tracker.Found dims := by
  have hbegin : Sat (begin (Item.copyOf b c compiled)) e (fun _ e' => e'.graph = e.graph)
      fun _ _ => False := rfl
  rw [runUnit, sat_bind, sat_graph]
  change Sat (if !e.graph.isRealized c then _ else _) e _ _
  rw [hwaits]
  refine sat_bind.mpr (hbegin.imp ?_ fun _ _ h => h.elim)
  intro context e₁ hgraph
  have hstores : e₁.graph.Stores v b block := hgraph ▸ h
  refine sat_bind.mpr (sat_attempt.mpr ((sat_execute_copy hstores (hgraph ▸ hop) (hgraph ▸ hresult)
    hcompiled hcopy hserved held).imp ?_ ?_))
  rotate_left
  · rintro _ e₂ ⟨rfl, hlost⟩
    refine ⟨fun cause hcause => ?_, fun _ => ⟨rfl, hlost⟩⟩
    cases hcause
  rintro copied e₂ ⟨hgraph₂, rfl⟩
  have hwaits₂ : e₂.graph.isRealized (Item.copyOf b c compiled).output = false := by
    rw [hgraph₂, hgraph]
    exact hwaits
  refine Sat.imp (sat_finish hwaits₂ context _) ?_ fun _ _ h => h.elim
  rintro _ _ rfl
  change Graph.setResult e₂.graph c.base.id _ = _
  rw [hgraph₂, hgraph]

end Run

/-! ## Copies that wait -/

/-- The base `c` waits for a dense copy of `b`. -/
structure Buffer.AwaitsCopy (W : Census) (g : Graph α) (b c : Buffer) : Prop where
  /-- What is copied was handed out. -/
  source : W.Lists b
  /-- So was the copy. -/
  lists : W.Lists c
  /-- The copy is a base. -/
  base : c = c.base.buffer
  /-- The copy has the shape of what is copied. -/
  shape : c.shape = b.shape
  /-- The types are the same. -/
  dtype : c.dtype = b.dtype
  /-- The devices are the same. -/
  device : c.device = b.device
  /-- The operation of the copy. -/
  op : ∃ arg issuer, g.op? c = some (.node (.load .contiguous) arg issuer [.buffer b])
  /-- The copy is newer. -/
  newer : b.base.id < c.base.id
  /-- There is no copy yet. -/
  waits : g.isRealized c = false
  /-- What is copied is read as it is. -/
  available : g.Available b

variable {W W' : Census}

omit [Lane α] in
theorem Graph.Available.of_leads (h : g.Available b) (hg : g.WellFormed W) (hb : W.Lists b)
    (hleads : Leads W g W' g') : g'.Available b := by
  rcases h with hrealized | ⟨op, load, hop, hload⟩
  · exact .inl (hleads.isRealized hg hb hrealized)
  · exact .inr ⟨op, load, (hleads.op?_eq hg hb).trans hop, hload⟩

omit [Lane α] in
/-- The copy still waits while other bases get results. -/
theorem Buffer.AwaitsCopy.of_advances {e e' : Engine α} {allowed : List (Event α) → Prop}
    (h : b.AwaitsCopy W e.graph c) (hg : e.graph.WellFormed W)
    (hadvances : Advances (· = c.base.id) allowed W e W' e') : b.AwaitsCopy W' e'.graph c := by
  have hleads := hadvances.graph
  obtain ⟨arg, issuer, hop⟩ := h.op
  exact ⟨hleads.census.lists h.source, hleads.census.lists h.lists, h.base, h.shape, h.dtype,
    h.device, ⟨arg, issuer, (hleads.op?_eq hg h.lists).trans hop⟩, h.newer,
    hadvances.isRealized_eq hg h.lists rfl h.waits, h.available.of_leads hg h.source hleads⟩

omit [Lane α] in
/-- A buffer that does not cover its base densely gets a copy, unless the strides of the copy leave the
words. -/
theorem Buffer.sat_contiguous_awaits (hg : g.WellFormed W) (hb : W.Lists b)
    (havailable : g.Available b) :
    Sat (b.contiguous : Build α Buffer) g
      (fun c g' => (b.isContiguous = true ∧ c = b ∧ g' = g) ∨ (b.isContiguous = false
        ∧ ∃ W', Built W g W' g' ∧ b.AwaitsCopy W' g' c))
      fun cause _ => cause = .movement .overflow ∧ ¬b.shape.Formable := by
  refine (sat_contiguous hg hb).imp ?_ fun _ _ h => h.2
  rintro c g' (hdense | ⟨hsparse, W', hadded⟩)
  · exact .inl hdense
  have hbuilt := hadded.built hg
  have hc : c = (g.nextBase b.shape b.dtype b.device b.config).buffer := hadded.buffer_eq
  have hcores := cores_insert g (some (.node (.load .contiguous) .none none [.buffer b])) none
    b.shape b.dtype b.device b.config
  rw [← hadded.graph_eq] at hcores
  have hmem := hcores ▸ List.mem_cons_self
  have hcbase : g.nextBase b.shape b.dtype b.device b.config = c.base := by rw [hc]; rfl
  refine .inr ⟨hsparse, W', hbuilt, hbuilt.census.lists hb, hadded.lists, by rw [hc]; rfl, ?_, by
    rw [hc]; rfl, by rw [hc]; rfl, ⟨.none, some g.next, ?_⟩, ?_, ?_,
    havailable.of_leads hg hb hbuilt.toLeads⟩
  · rw [hc]
    exact Tracker.shape_ofShape _
  · exact (hbuilt.wellFormed.op?_eq hmem hcbase).trans rfl
  · rw [hc]
    exact hg.lt_next (hg.lists_base hb)
  · rw [isRealized, hbuilt.wellFormed.result?_eq hmem hcbase]
    rfl

/-- A result that is there at the end was there when the base got one. -/
theorem Graph.Stores.of_leads (h : g'.Stores v b block) (hg : g.WellFormed W)
    (hb : W.Lists b) (hleads : Leads W g W' g') (hrealized : g.isRealized b = true) :
    g.Stores v b block := by
  obtain ⟨block', hblock'⟩ := Option.isSome_iff_exists.mp hrealized
  obtain rfl : block' = block :=
    Option.some.inj ((hleads.result?_eq_some hg hb hblock').symm.trans h.result)
  refine ⟨hblock', h.fills, fun hconstant => ?_⟩
  have hop := hleads.op?_eq hg hb
  rw [loadedScalar?, ← hop]
  rw [isConstant, ← hop] at hconstant
  exact h.loaded hconstant

namespace Run

variable [LawfulLane α] {devices : Registry α} {e : Engine α} {realize : Realizer α}
  {compiled : Compiled α}

/-- The elements that a buffer shows, as the result of its copy. -/
def copied (v : Valuation α) (b : Buffer) (dims : List Nat) : Block α :=
  .ofHost (.ofLanes b.dtype ((Array.range dims.prod).map (b.dense v).lane))

/-- Once the base has its result, the unit of the copy gives the copy what the buffer shows, unless it
cannot find a position. -/
theorem sat_runUnit_awaits (hrealize : RealizesBelow realize) (h : Orderly W e)
    (hc : b.AwaitsCopy W e.graph c) (hs : b.shape.static? = some dims) (hle : dims.prod ≤ 2 ^ 63)
    (hserved : devices.Serves b.device) (hrealized : e.graph.isRealized b = true)
    (hop : g.op? b = e.graph.op? b)
    (hresult : g.result? b = none ∨ g.result? b = e.graph.result? b)
    (hcompiled : g.compile (.copyOf b c.id) = .ok compiled)
    (hdue : (Item.copyOf b c compiled).Due W e.graph k) (held : List Buffer) :
    Sat (runUnit devices realize held (.copyOf b c compiled)) e
      (fun _ e' => e'.graph.Stores v b block → b.Placed block dims →
        e'.graph.result? c = some (copied v b dims))
      fun f e' => e'.graph.Stores v b block → b.Placed block dims →
        f = .overflow ∧ ¬b.tracker.Found dims := by
  by_cases hknown : e.graph.Stores v b block ∧ b.Placed block dims
  · obtain ⟨hstores, hplaced⟩ := hknown
    have hcopy : b.Copyable v block dims c :=
      ⟨h.wellFormed.proper hc.source, hs, hle, hc.shape ▸ hs, hc.dtype, hstores.fills, hplaced⟩
    refine (sat_runUnit_copy hstores hop hresult hcompiled hcopy (hc.device ▸ hserved) hc.waits
      held).imp ?_ fun _ _ h _ _ => h
    intro _ e' hgraph _ _
    rw [hgraph]
    exact h.wellFormed.result?_setResult hc.lists _
  · -- the result of the base is there already, and is not the block
    have hother {W' : Census} {e' : Engine α} (hleads : Leads W e.graph W' e'.graph)
        (hstores : e'.graph.Stores v b block) (hplaced : b.Placed block dims) : False :=
      hknown ⟨hstores.of_leads h.wellFormed hc.source hleads hrealized, hplaced⟩
    have hsupplied : (Item.copyOf b c compiled).Supplied e.graph := fun d hd =>
      List.mem_singleton.mp hd ▸ hrealized
    have hkeeps : Keeps (fun _ => False) W e (runUnit devices realize held (.copyOf b c compiled))
        fun _ _ _ => True :=
      (keeps_runUnit devices hrealize h hdue hsupplied nofun held).imp fun _ _ _ _ _ => trivial
    refine Sat.imp hkeeps ?_ ?_
    · rintro _ e' ⟨W', hadvances, -⟩ hstores hplaced
      exact (hother (Advances.graph hadvances) hstores hplaced).elim
    · rintro _ e' ⟨-, W', hfails⟩ hstores hplaced
      exact (hother (Advances.graph hfails) hstores hplaced).elim

/-- The units of a copy give it what the buffer shows, unless a position cannot be found. -/
theorem sat_runUnits_awaits (hrealize : RealizesBelow realize) (h : Orderly W e)
    (hc : b.AwaitsCopy W e.graph c) (hs : b.shape.static? = some dims) (hle : dims.prod ≤ 2 ^ 63)
    (hserved : devices.Serves b.device)
    (hcompiled : e.graph.compile (.copyOf b c.id) = .ok compiled) {items : List (Item α)}
    (hitems : (e.graph.isRealized b = true ∧ items = [.copyOf b c compiled])
      ∨ (e.graph.isRealized b = false ∧ ∃ op, e.graph.op? b = some op
        ∧ op.codeIs Opcode.isLoad = true
        ∧ items = [.loadOf b.base.buffer op, .copyOf b c compiled]))
    (hdue : ∀ item ∈ items, item.Due W e.graph c.base.id) (held : List Buffer) :
    Sat (items.forM (runUnit devices realize held)) e
      (fun _ e' => e'.graph.Stores v b block → b.Placed block dims →
        e'.graph.result? c = some (copied v b dims))
      fun f e' => e'.graph.Stores v b block → b.Placed block dims →
        f = .overflow ∧ ¬b.tracker.Found dims := by
  rcases hitems with ⟨hrealized, rfl⟩ | ⟨hwaits, op, hop, hload, rfl⟩
  · exact sat_bind.mpr ((sat_runUnit_awaits hrealize h hc hs hle hserved hrealized rfl (.inr rfl)
      hcompiled (hdue _ List.mem_cons_self) held).imp (fun _ _ h => h) fun _ _ h => h)
  have hdue₀ : (Item.loadOf b.base.buffer op).Due W e.graph c.base.id := hdue _ List.mem_cons_self
  have hsupplied : (Item.loadOf b.base.buffer op).Supplied e.graph := nofun
  have hfirst : Keeps (· = c.base.id) W e (runUnit devices realize held (.loadOf b.base.buffer op))
      fun _ _ e' => e'.graph.isRealized b = true := by
    refine keeps_runUnit devices hrealize h hdue₀ hsupplied ?_ held
    rintro id rfl
    exact ⟨le_refl _, h.wellFormed.lt_next (h.wellFormed.lists_base hc.lists), hc.newer.ne'⟩
  have hlasts := waits_runUnit devices hrealize h hdue₀ hsupplied held
  refine sat_bind.mpr (Sat.imp (hfirst.and hlasts) ?_ ?_)
  · rintro _ e₁ ⟨⟨W₁, hadvances, hrealized⟩, -⟩
    have hleads := Advances.graph hadvances
    have hnone : e.graph.result? b = none := by
      rw [isRealized, Option.isSome_eq_false_iff, Option.isNone_iff_eq_none] at hwaits
      exact hwaits
    exact sat_bind.mpr ((sat_runUnit_awaits hrealize (Advances.orderly hadvances)
      (hc.of_advances h.wellFormed hadvances) hs hle hserved hrealized
      (hleads.op?_eq h.wellFormed hc.source).symm (.inl hnone) hcompiled
      ((hdue _ (by simp)).of_leads h.wellFormed hleads) held).imp (fun _ _ h => h) fun _ _ h => h)
  · rintro _ e' ⟨-, hfails⟩ hstores _
    change e'.graph.isRealized b = false at hfails
    rw [isRealized, hstores.result] at hfails
    cases hfails

/-- Realizing the copy succeeds once the base has a result that may be its, unless the tracker of the
leaf cannot be simplified inside the words, or not be followed. -/
theorem sat_realizeUpTo_awaits (depth : Nat) (h : Orderly W e) (hc : b.AwaitsCopy W e.graph c)
    (hroot : b.root = b.base.buffer) (hs : b.shape.static? = some dims) (hle : dims.prod ≤ 2 ^ 63)
    (hserved : devices.Serves b.device) (held : List Buffer) :
    Sat (realizeUpTo devices (depth + 1) held c) e
      (fun block' e' => e'.graph.Stores v b block → b.Placed block dims → block' = copied v b dims)
      fun f e' => e'.graph.Stores v b block → b.Placed block dims →
        f = .overflow ∧ (b.tracker.simplifies = false ∨ ¬b.tracker.Found dims) := by
  have hnone : e.graph.result? c = none := by
    have hwaits := hc.waits
    rwa [isRealized, Option.isSome_eq_false_iff, Option.isNone_iff_eq_none] at hwaits
  obtain ⟨arg, issuer, hop⟩ := hc.op
  rw [realizeUpTo, sat_bind, sat_graph, hnone]
  refine sat_bind.mpr (sat_build.mpr (((Buffer.sat_schedule_copy hc.available hc.shape hop hc.base
    hroot hc.newer hc.waits held).and (Buffer.sat_schedule_planned h.wellFormed hc.lists held)).imp
    ?_ ?_))
  · rintro items _ ⟨⟨rfl, compiled, hcompiled, hitems⟩, W', hviewed, hscheduled, hplanned⟩
    have hadvances : Advances (· = c.base.id) Event.Calm W e W' e := h.built hviewed.built
    have hdue : ∀ item ∈ items, item.Due W' e.graph c.base.id :=
      hscheduled.due hviewed.wellFormed (hviewed.census.lists hc.lists) hplanned (.copy hop hc.newer)
    refine sat_bind.mpr ((sat_runUnits_awaits (realizesBelow_realizeUpTo devices depth)
      hadvances.orderly (hc.of_advances h.wellFormed hadvances) hs hle hserved hcompiled hitems hdue
      _).imp ?_ fun _ _ h hstores hplaced => (h hstores hplaced).imp_right .inr)
    intro _ e' hunits
    rw [sat_bind, sat_graph]
    split
    · next block' hblock' =>
      intro hstores hplaced
      exact Option.some.inj (hblock'.symm.trans (hunits hstores hplaced))
    · next hnone =>
      intro hstores hplaced
      cases hnone.symm.trans (hunits hstores hplaced)
  · rintro cause _ ⟨⟨rfl, hcause⟩, -⟩ hstores _
    obtain ⟨compiled, hresolved⟩ := hstores.exists_resolve rfl (.inl rfl) c.id
    rcases compile_eq_error hcause with ⟨d, hd, hleaf⟩ | ⟨rfl, d, hd, hstuck⟩
    · obtain rfl : d = b := by simpa [Tree.copyOf] using hd
      rw [resolve_copyOf, ← Tree.buffers_copyOf d c.id, hleaf] at hresolved
      cases hresolved
    · obtain rfl : d = b := by simpa [Tree.copyOf] using hd
      exact ⟨rfl, .inl hstuck⟩

end Run

/-! ## Reading back -/

/-- The array has what the buffer shows: zero at hidden positions, and elsewhere the lanes of the
base. -/
structure HostArray.Shows (v : Valuation α) (b : Buffer) (array : HostArray α) : Prop where
  /-- The extents are those of the buffer. -/
  shape : b.shape.static? = some array.shape
  /-- The types are the same. -/
  dtype : array.dtype = b.dtype
  /-- There is a lane for each position. -/
  lanes : ∀ i < array.shape.prod, array.lanes[i]? = some ((b.dense v).lane i)

/-- The buffer is read straight from a folded scalar, which has to be repeated. -/
def Buffer.Unrepeated (b : Buffer) (block : Block α) (dims : List Nat) : Prop :=
  b.isContiguous = true ∧ block.isKernelInput = false ∧ dims.prod ≠ 1

/-- A dense copy of the buffer is stopped: its strides leave the words, or the tracker cannot be simplified
inside them, or not be followed to all positions. -/
def Buffer.Stuck (b : Buffer) (dims : List Nat) : Prop :=
  ¬b.shape.Formable ∨ b.tracker.simplifies = false ∨ ¬b.tracker.Found dims

/-- A calm buffer can be copied. -/
theorem Buffer.not_stuck_of_calm (hover : b.tracker.Over b.base.shape) (hbase : b.base.shape.Moderate)
    (hcalm : b.tracker.Calm) (hs : b.shape.static? = some dims) : ¬b.Stuck dims := by
  rintro (hformable | hsimple | hlost)
  · exact hformable hcalm.moderate.top.formable
  · cases hsimple.symm.trans (hover.tame hbase hcalm.moderate).simplifies
  · exact hlost (hover.found hbase hcalm hs)

namespace Run

variable {devices : Registry α} {e : Engine α} {array : HostArray α}

/-- The copy is read back as what the buffer shows. -/
theorem toArray_copied [LawfulLane α] (hs : b.shape.static? = some dims)
    (hfills : block.Fills v b.base) (hplaced : b.Placed block dims) :
    ∃ array, (copied v b dims).toArray dims = .ok array ∧ array.Shows v b := by
  let data : HostData α := .ofLanes b.dtype ((Array.range dims.prod).map (b.dense v).lane)
  have hsize : data.size = dims.prod := by simp [data]
  refine ⟨⟨dims, data, hsize⟩, ?_, hs, rfl, fun i hi => ?_⟩
  · change (if dims.prod ≠ data.size then _ else _) = _
    rw [hsize, if_neg (fun h => h rfl)]
    have hread : (copied v b dims).read = .ok data := congrArg Except.ok (if_pos rfl)
    simp only [hread]
    exact dif_pos hsize
  · have hi' : i < dims.prod := hi
    change (data.lanes)[i]? = _
    simp only [data, HostData.ofLanes, Array.getElem?_map, Array.getElem?_range, if_pos hi',
      Option.map_some, hfills.rounded hplaced hi']

/-- A buffer that covers its base densely is read back from the result of the base, unless that has to
be repeated. -/
theorem toArray_dense (hdense : b.isContiguous = true) (hs : b.shape.static? = some dims)
    (hle : dims.prod ≤ 2 ^ 63) (hbase : b.base.shape.Addressable)
    (hfills : block.Fills v b.base) :
    (∃ array, block.toArray dims = .ok array ∧ array.Shows v b ∧ ¬b.Unrepeated block dims)
      ∨ ∃ cause, block.toArray dims = .error cause ∧ b.Unrepeated block dims := by
  have hcount : b.base.shape.elements? = some dims.prod := by
    rw [← Buffer.elements?_of_isContiguous hdense ⟨_, Shape.elements?_eq hs, hle⟩ hbase]
    exact Shape.elements?_eq hs
  by_cases hsize : block.size = dims.prod
  · obtain ⟨array, harray, rfl, hdtype, hlanes⟩ := hfills.toArray hsize
    refine .inl ⟨array, harray, ⟨hs, hdtype, fun i hi => ?_⟩, ?_⟩
    · have hcontiguous : b.tracker.contiguous = true :=
        (Bool.and_eq_true_iff.mp hdense).1
      have hlocate : b.tracker.locate i = some i := by
        rw [Tracker.eq_ofShape hcontiguous]
        exact Tracker.locate_ofShape hs hle hi
      rw [hlanes i hi, Buffer.dense]
      simp only [hlocate, Option.elim_some]
    · rintro ⟨-, hinput, hone⟩
      cases hfills with
      | scalar => exact hone hsize.symm
      | elements hinput' => cases hinput.symm.trans hinput'
  · refine .inr ⟨_, Block.toArray_of_ne hsize, hdense, ?_⟩
    cases hfills with
    | scalar => exact ⟨rfl, fun hone => hsize hone.symm⟩
    | elements _ _ hcount' => exact absurd (Option.some.inj (hcount'.symm.trans hcount)) hsize

/-- A buffer on a base that a load computes is read back as what it shows, unless a scalar has to be
repeated and is not, or the copy is stopped. -/
theorem sat_readBack [LawfulLane α] (depth : Nat) (h : Orderly W e) (hb : W.Lists b)
    (havailable : e.graph.Available b) (hserved : devices.Serves b.device)
    (hs : b.shape.static? = some dims) (hle : dims.prod ≤ 2 ^ 63)
    (hbase : b.base.shape.Addressable) (held : List Buffer) :
    Sat (readBack (realizeUpTo devices (depth + 1)) held b) e
      (fun array e' => e'.graph.Stores v b block → b.Placed block dims →
        array.Shows v b ∧ ¬b.Unrepeated block dims)
      fun f e' => e'.graph.Stores v b block → b.Placed block dims →
        b.Unrepeated block dims ∨ f = .overflow ∧ b.Stuck dims := by
  have hdims : Sat (knownDims b "reading back") e (fun dims' e' => dims' = dims ∧ e' = e)
      fun _ _ => False := by
    rw [knownDims, hs]
    exact ⟨rfl, rfl⟩
  rw [readBack, sat_bind]
  refine hdims.imp ?_ fun _ _ h => h.elim
  rintro dims e ⟨rfl, rfl⟩
  refine sat_bind.mpr (sat_build.mpr ((Buffer.sat_contiguous_awaits h.wellFormed hb
    havailable).imp ?_ ?_))
  rotate_left
  · rintro _ g ⟨rfl, hformable⟩ - -
    exact .inr ⟨rfl, .inl hformable⟩
  rintro c g (⟨hdense, hsame, rfl⟩ | ⟨hsparse, W', hbuilt, hc⟩)
  · -- the block of the base is read as it is, and comes up short only for an unrepeated scalar
    obtain rfl : b = c := hsame.symm
    refine sat_bind.mpr ((sat_realizeUpTo devices depth h hb (b :: held)).imp ?_ ?_)
    · intro block' e' hblock'
      cases harray : block'.toArray dims with
      | ok array =>
        rintro hstores -
        obtain rfl : block' = block := Option.some.inj (hblock'.symm.trans hstores.result)
        rcases toArray_dense hdense hs hle hbase hstores.fills with
          ⟨array', harray', hshows⟩ | ⟨cause, hcause, -⟩
        · exact Except.ok.inj (harray.symm.trans harray') ▸ hshows
        · cases harray.symm.trans hcause
      | error cause =>
        rintro hstores -
        obtain rfl : block' = block := Option.some.inj (hblock'.symm.trans hstores.result)
        rcases toArray_dense hdense hs hle hbase hstores.fills with
          ⟨array', harray', -⟩ | ⟨cause, -, hunrepeated⟩
        · cases harray.symm.trans harray'
        · exact .inl hunrepeated
    · rintro _ e' hwaits hstores -
      rw [isRealized, hstores.result] at hwaits
      cases hwaits
  · -- a new base copies what is shown, so that the block that is read is the copy
    have hadvances : Advances (fun _ => False) Event.Calm W e W' { e with graph := g } :=
      h.built hbuilt
    have h' : Orderly W' { e with graph := g } := hadvances.orderly
    have hread {block' : Block α} {e' : Engine α} (hstores : e'.graph.Stores v b block)
        (hplaced : b.Placed block dims) (hcopied : block' = copied v b dims) :
        ∃ array, block'.toArray dims = .ok array ∧ array.Shows v b := by
      obtain ⟨array, harray, hshows⟩ := toArray_copied hs hstores.fills hplaced
      exact ⟨array, hcopied ▸ harray, hshows⟩
    have hrealize : Sat (realizeUpTo devices (depth + 1) (b :: held) c) { e with graph := g }
        (fun block' e' => e'.graph.Stores v b block → b.Placed block dims →
          block' = copied v b dims)
        fun f e' => e'.graph.Stores v b block → b.Placed block dims →
          f = .overflow ∧ (b.tracker.simplifies = false ∨ ¬b.tracker.Found dims) :=
      sat_realizeUpTo_awaits depth h' hc (h.wellFormed.root_eq hb) hs hle hserved _
    refine sat_bind.mpr (hrealize.imp ?_ ?_)
    · intro block' e' hcopied
      cases harray : block'.toArray dims with
      | ok array =>
        intro hstores hplaced
        obtain ⟨array', harray', hshows⟩ := hread hstores hplaced (hcopied hstores hplaced)
        refine ⟨Except.ok.inj (harray.symm.trans harray') ▸ hshows, ?_⟩
        rintro ⟨hdense, -⟩
        cases hsparse.symm.trans hdense
      | error cause =>
        intro hstores hplaced
        obtain ⟨array', harray', -⟩ := hread hstores hplaced (hcopied hstores hplaced)
        cases harray.symm.trans harray'
    · intro _ e' hfails hstores hplaced
      exact .inr ((hfails hstores hplaced).imp_right .inr)

end Run

omit [Lane α] in
theorem Run.sat_depth {e : Engine α} {post : Nat → Engine α → Prop}
    {fail : Failure → Engine α → Prop} :
    Sat Run.depth e post fail ↔ post (e.graph.next + 1) e := Iff.rfl

namespace Session

variable [LawfulLane α] {devices : Registry α} {s : Session α} {name : String}

/-- Reading back a buffer whose base has a result or is computed by a load. -/
theorem Orderly.sat_readBack (v : Valuation α) (block : Block α) (hs : s.Orderly W)
    (hname : s.Names name b) (havailable : s.engine.graph.Available b) (hserved : devices.Serves b.device)
    (hshape : b.shape.static? = some dims) (hle : dims.prod ≤ 2 ^ 63)
    (hbase : b.base.shape.Addressable) :
    Sat ((Command.readBack name).perform devices) s
      (fun answer s' => s'.engine.graph.Stores v b block → b.Placed block dims →
        ∃ array, answer = .array array ∧ array.Shows v b ∧ ¬b.Unrepeated block dims)
      fun cause s' => s'.engine.graph.Stores v b block → b.Placed block dims →
        b.Unrepeated block dims ∨ cause = .failed .overflow ∧ b.Stuck dims := by
  have hbuffer : Sat (Act.buffer name) s (fun c s' => c = b ∧ s' = s) fun _ _ => False := by
    rw [Act.sat_buffer, show s.buffers.lookup name = some b from hname]
    exact ⟨rfl, rfl⟩
  have hengine : Sat (b.readBack devices s.held) s.engine
      (fun array e' => e'.graph.Stores v b block → b.Placed block dims →
        array.Shows v b ∧ ¬b.Unrepeated block dims)
      fun f e' => e'.graph.Stores v b block → b.Placed block dims →
        b.Unrepeated block dims ∨ f = .overflow ∧ b.Stuck dims := by
    rw [Buffer.readBack, sat_bind, Run.sat_depth]
    exact Run.sat_readBack _ hs.1 (hname.lists hs) havailable hserved hshape hle hbase _
  refine sat_bind.mpr (hbuffer.imp ?_ fun _ _ h => h.elim)
  rintro _ _ ⟨rfl, rfl⟩
  rw [sat_bind, Act.sat_held, sat_bind]
  refine Act.sat_engine.mpr (hengine.imp ?_ ?_)
  · intro array e' hshows hstores hplaced
    exact ⟨array, rfl, hshows hstores hplaced⟩
  · intro f e' hfails hstores hplaced
    exact (hfails hstores hplaced).imp_right (And.imp_left (congrArg Refusal.failed))

/-- In a reachable session a buffer whose base is computed by a load, or has a result already, is read
back as what it shows, whether its base is read as it is or a kernel makes a dense copy; but a folded
scalar is not repeated where no copy is made, and arithmetic that leaves the words may stop a copy, though
not if the base is moderate and the views are calm. Positions have places in the result if the base has
elements and no view has more positions than signed words count. -/
theorem Reachable.reads_stored (hs : s.Reachable devices) (hname : s.Names name b)
    (havailable : s.engine.graph.Available b) (hserved : devices.Serves b.device)
    (hshape : b.shape.static? = some dims) (hle : dims.prod ≤ 2 ^ 63)
    (hbase : b.base.shape.Addressable)
    (hstores : (s.step devices (.readBack name)).2.engine.graph.Stores v b block)
    (hplaced : (b.base.shape.elements? ≠ some 0 ∧ ∀ u ∈ b.tracker.below, u.shape.Addressable)
      ∨ b.Placed block dims) :
    ((∃ array, (s.step devices (.readBack name)).1.result = .ok (.array array) ∧ array.Shows v b)
        ↔ ¬b.Unrepeated block dims)
      ∨ (s.step devices (.readBack name)).1.result = .error (.failed .overflow)
        ∧ ¬(b.base.shape.Moderate ∧ b.tracker.Calm) := by
  obtain ⟨W, hsound⟩ := hs.sound
  have hover := hsound.1.wellFormed.over (hname.lists hsound)
  replace hplaced : b.Placed block dims := hplaced.elim
    (fun h => hstores.fills.placed hover hbase h.1 h.2 hshape) id
  have hperform := Orderly.sat_readBack v block hsound hname havailable hserved hshape hle hbase
  have hresult : (s.step devices (.readBack name)).1.result
      = (((Command.readBack name).perform devices).run s).1 := rfl
  have hstate : (s.step devices (.readBack name)).2
      = (((Command.readBack name).perform devices).run s).2 := rfl
  rw [hstate] at hstores
  rw [hresult]
  rw [Sat] at hperform
  rcases hrun : ((Command.readBack name).perform devices).run s with ⟨cause | answer, s'⟩ <;>
    rw [hrun] at hperform hstores
  · rcases hperform hstores hplaced with hunrepeated | ⟨rfl, hstuck⟩
    · refine .inl ⟨?_, fun h => absurd hunrepeated h⟩
      rintro ⟨_, hok, -⟩
      cases hok
    · exact .inr ⟨rfl, fun h => Buffer.not_stuck_of_calm hover h.1 h.2 hshape hstuck⟩
  · obtain ⟨array, rfl, hshows, hrepeated⟩ := hperform hstores hplaced
    exact .inl ⟨fun _ => hrepeated, fun _ => ⟨array, rfl, hshows⟩⟩

/-- Two lanes are uploaded, and a hidden position is put before them. -/
def paddedPair : Session Int :=
  let s := (({} : Session Int).step hostDevices uploadPair).2
  (s.step hostDevices (.define "y" (.move "x" (.pad [⟨1, 0⟩])))).2

theorem reads_stored_paddedPair : ∃ b v array, paddedPair.Names "y" b
    ∧ (paddedPair.step hostDevices (.readBack "y")).1.result = .ok (.array array)
    ∧ array.Shows v b := by
  have hs : paddedPair.Reachable hostDevices := .step (.step .start _) _
  have hfacts : (paddedPair.buffers.lookup "y").map (fun b =>
      (b.shape.static?, b.base.shape.elements?, b.device, b.dtype))
      = some (some [3], some 2, "cpu", .i32) := by decide +kernel
  have hplaces : (paddedPair.buffers.lookup "y").map (fun b => (b.isContiguous,
      paddedPair.engine.graph.isRealized b, decide (b.base.shape.Moderate ∧ b.tracker.Calm)))
      = some (false, true, true) := by decide +kernel
  have hstored : (paddedPair.buffers.lookup "y").bind (fun b =>
      ((paddedPair.step hostDevices (.readBack "y")).2.engine.graph.result? b).map fun block =>
        (block.isKernelInput, block.dtype, block.size))
      = some (true, .i32, 2) := by decide +kernel
  have hread : (paddedPair.buffers.lookup "y").bind (fun b =>
      ((paddedPair.step hostDevices (.readBack "y")).2.engine.graph.result? b).map fun block =>
        block.read.toOption.map fun data => (data.dtype, data.lanes))
      = some (some (.i32, #[3, 4])) := by decide +kernel
  have hconstant : (paddedPair.buffers.lookup "y").map (fun b =>
      (paddedPair.step hostDevices (.readBack "y")).2.engine.graph.isConstant b) = some false := by
    decide +kernel
  obtain ⟨b, hb, hfacts⟩ := Option.map_eq_some_iff.mp hfacts
  simp only [hb, Option.map_some, Option.bind_some, Option.some.injEq, Prod.mk.injEq]
    at hfacts hplaces hstored hread hconstant
  obtain ⟨hshape, hbase, hdevice, hdtype⟩ := hfacts
  obtain ⟨hsparse, hrealized, hcalm⟩ := hplaces
  replace hcalm := of_decide_eq_true hcalm
  obtain ⟨block, hblock, hstored⟩ := Option.map_eq_some_iff.mp hstored
  simp only [Prod.mk.injEq] at hstored
  obtain ⟨hinput, hblockType, hsize⟩ := hstored
  simp only [hblock, Option.map_some, Option.some.injEq] at hread
  obtain ⟨data, hdata, hread⟩ := Option.map_eq_some_iff.mp hread
  simp only [Prod.mk.injEq] at hread
  obtain ⟨hdataType, hlanes⟩ := hread
  have hdata : block.read = .ok data := by
    cases hresult : block.read with
    | ok data' =>
      rw [hresult] at hdata
      exact congrArg Except.ok (Option.some.inj hdata)
    | error cause =>
      rw [hresult] at hdata
      cases hdata
  let v : Valuation Int := fun _ i => #[3, 4].getD i 0
  have hfills : block.Fills v b.base := by
    have hlane : ∀ i < 2, (#[3, 4] : Array Int)[i]? = some (#[3, 4].getD i 0) := by decide
    refine .elements hinput (hblockType.trans hdtype.symm) (hsize ▸ hbase) hdata
      (hdataType.trans hdtype.symm) (by rw [HostData.size, hlanes, hsize]; rfl) fun i hi => ⟨?_, rfl⟩
    rw [hlanes]
    exact hlane i (hsize ▸ hi)
  have hbelow : ∀ u ∈ b.tracker.below, u.shape.Addressable := fun u hu =>
    Tracker.addressable_of_moderate (hcalm.2.moderate u (List.mem_cons_of_mem _ hu))
  have hreads := Reachable.reads_stored hs hb (.inl hrealized) (hdevice ▸ serves_cpu) hshape
    (by decide) ⟨2, hbase, by decide⟩
    ⟨hblock, hfills, fun h => absurd (hconstant.symm.trans h) Bool.false_ne_true⟩
    (.inl ⟨by simp [hbase], hbelow⟩)
  obtain ⟨array, harray, hshows⟩ := (hreads.resolve_right fun h => h.2 hcalm).mpr fun h =>
    Bool.false_ne_true (hsparse.symm.trans h.1)
  exact ⟨b, v, array, hb, harray, hshows⟩

/-- A loader gives a folded scalar to a base of three elements. -/
def foldedFives : Session Int :=
  (({} : Session Int).step hostDevices (.define "x" (.load .custom (.ofNats [3]) .i32 "cpu"
    (.ok (.loader (.fixed (.constant 5 .i32)))) [] {}))).2

/-- The scalar is the result, and is not read back. -/
theorem misreads_foldedFives : ∃ b block, foldedFives.Names "x" b
    ∧ b.shape.static? = some [3] ∧ b.device = "cpu" ∧ foldedFives.engine.graph.Available b
    ∧ (foldedFives.step hostDevices (.readBack "x")).2.engine.graph.Stores (fun _ _ => 5) b block
    ∧ b.Placed block [3]
    ∧ ∀ array, (foldedFives.step hostDevices (.readBack "x")).1.result ≠ .ok (.array array) := by
  have hfacts : (foldedFives.buffers.lookup "x").map (fun b => (b.shape.static?, b.device, b.dtype))
      = some (some [3], "cpu", .i32) := by decide +kernel
  have hop : (foldedFives.buffers.lookup "x").bind (fun b =>
      (foldedFives.engine.graph.op? b).bind Tree.code?) = some (.load .custom) := by decide +kernel
  have hstored : (foldedFives.buffers.lookup "x").bind (fun b =>
      ((foldedFives.step hostDevices (.readBack "x")).2.engine.graph.result? b).map fun block =>
        (block.constant?, block.dtype, block.size))
      = some (some 5, .i32, 1) := by decide +kernel
  have hconstant : (foldedFives.buffers.lookup "x").map (fun b =>
      (foldedFives.step hostDevices (.readBack "x")).2.engine.graph.isConstant b) = some false := by
    decide +kernel
  have hrefused : (foldedFives.step hostDevices (.readBack "x")).1.lanes? = none := by decide +kernel
  obtain ⟨b, hb, hfacts⟩ := Option.map_eq_some_iff.mp hfacts
  simp only [hb, Option.map_some, Option.bind_some, Option.some.injEq, Prod.mk.injEq]
    at hfacts hop hstored hconstant
  obtain ⟨hshape, hdevice, hdtype⟩ := hfacts
  obtain ⟨op, hop, hcode⟩ := Option.bind_eq_some_iff.mp hop
  obtain ⟨block, hblock, hstored⟩ := Option.map_eq_some_iff.mp hstored
  simp only [Prod.mk.injEq] at hstored
  obtain ⟨hscalar, hblockType, hsize⟩ := hstored
  have hfolded : block = .constant 5 b.dtype := by
    obtain ⟨size, dtype, storage⟩ := block
    cases storage with
    | constant value =>
      obtain rfl : value = 5 := Option.some.inj hscalar
      rw [hdtype, Block.constant, ← hblockType, ← hsize]
    | host => cases hscalar
    | foreign => cases hscalar
  refine ⟨b, block, hb, hshape, hdevice, .inr ⟨op, .custom, hop, hcode, nofun⟩, ⟨hblock, ?_, ?_⟩,
    ?_, fun array harray => ?_⟩
  · rw [hfolded]
    exact .scalar fun _ => rfl
  · exact fun h => absurd (hconstant.symm.trans h) Bool.false_ne_true
  · intro i _ place _
    right
    rw [Block.isKernelInput, hscalar]
    rfl
  · rw [Reply.lanes?, harray] at hrefused
    cases hrefused

end Session

end TensorGraph
