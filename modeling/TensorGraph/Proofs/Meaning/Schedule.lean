import TensorGraph.Proofs.Kernel.Eval
import TensorGraph.Proofs.Meaning.Fusion
import TensorGraph.Proofs.Schedule.Discipline
import TensorGraph.Proofs.Schedule.Plan
/-!
# Schedules keep the meaning

Every base of a graph that means something can be lowered, unless a number leaves its word, and the
kernel that it is lowered to computes its lanes from those of the bases behind the slots.

- `Graph.Meaningful.typed`, `Graph.Meaningful.stopped_of_stuck`: scheduling fails only if it is stopped.
- `Item.Delivers`: a kernel that computes the lanes of its output.
- `Buffer.Lowers.delivers`: the kernel of a base.
-/

namespace TensorGraph

open TensorGraph.Graph

variable {α : Type} [Lane α] {devices : Registry α} {W W' : Census} {v : Valuation α}
  {g : Graph α} {b : Buffer} {dims : List Nat} {op t : Tree α} {calm : Prop}

/-- The block has the lanes of the base in host memory. -/
def Block.Supplies (v : Valuation α) (base : Base) (block : Block α) : Prop :=
  ∃ data, block.storage = .host data ∧ ∀ n, base.shape.elements? = some n →
    ∀ i < n, data.lanes[i]? = some (v base.id i)

/-- On blocks with the lanes of the bases behind its slots the kernel computes the lanes of its
output, unless it is stopped, which nothing does if the graph is `calm`. -/
def Item.Delivers (calm : Prop) (v : Valuation α) (item : Item α) : Prop :=
  ∀ blocks, List.Forall₂ (fun slot block => block.Supplies v slot.base) item.slots blocks →
    ∃ data, Kernel.Gives calm data (Kernel.run item.tree item.output.shape item.output.dtype blocks)
      ∧ (Block.ofHost data).Holds v item.output.base

/-! ## Leaves of kernels -/

namespace Graph

/-- The operation of a scalar load carries the scalar that is everywhere. -/
theorem Meaningful.loaded (h : Meaningful devices (W, v) g) (hb : W.Lists b)
    (hconstant : g.isConstant b = true) :
    ∃ value, g.loadedScalar? b = some value ∧ ∀ i, v b.base.id i = Lane.round b.dtype value := by
  obtain ⟨op, hop, hcode⟩ := isConstant_eq_true.mp hconstant
  rw [loadedScalar?, hop]
  exact (h.op_means hb hop).exists_scalar hcode

/-- The scalar of a folded result is everywhere. -/
theorem Meaningful.folded (h : Meaningful devices (W, v) g) (hb : W.Lists b) {value : α}
    (hvalue : g.foldedScalar? b = some value) :
    ∀ n, b.base.shape.elements? = some n → ∀ i < n, v b.base.id i = Lane.round b.dtype value := by
  obtain ⟨block, hblock, hconstant⟩ := Option.bind_eq_some_iff.mp hvalue
  obtain ⟨e, he, hbase, -, hresult, hmeans⟩ := h.entry hb
  have hholds := hmeans.result block (hresult ▸ hblock)
  rw [hbase] at hholds
  intro n hn i hi
  rcases hholds.stored with ⟨value', hstorage, hone, hlane⟩ | ⟨data, hstorage, -⟩
  · obtain rfl : value' = value := by
      rw [Block.constant?, hstorage] at hconstant
      exact Option.some.inj hconstant
    have hsize := hholds.size
    rw [hn, hone] at hsize
    obtain rfl : n = 1 := Option.some.inj hsize
    obtain rfl : i = 0 := by omega
    exact hlane
  · rw [Block.constant?, hstorage] at hconstant
    cases hconstant

end Graph

omit [Lane α] in
/-- A slot that holds the lanes of its base is fetched from. -/
theorem Kernel.fetch_eq_ok {lanes : List (Array α)} {slot place : Nat} {l : Array α} {x : α}
    (hl : lanes[slot]? = some l) (hx : l[place]? = some x) :
    fetch lanes.toArray slot place = .ok x := by
  have hget : lanes.toArray.getD slot #[] = l := by
    rw [Array.getD_eq_getD_getElem?, List.getElem?_toArray, hl, Option.getD_some]
  rw [fetch, hget]
  simp only [hx]

/-- A leaf that is resolved is a kernel that computes what the leaf shows. -/
theorem Graph.Meaningful.resolved (h : Meaningful devices (W, v) g) (hb : W.Lists b)
    (hinto : b.Into dims) (hfound : calm → b.tracker.Found dims) {slots : List Buffer}
    {lanes : List (Array α)} {u : Tree α}
    (hslots : ∀ s ∈ slots, W.Lists s) (hmem : g.isFolded b = false → b.base.buffer ∈ slots)
    (hlanes : List.Forall₂ (fun s l => ∀ n, s.base.shape.elements? = some n →
      ∀ i < n, l[i]? = some (v s.base.id i)) slots lanes)
    (hu : g.resolveLeaf slots b = .ok u) :
    ∃ k, Kernel.ofTree slots.length u = .ok k ∧ k.Computes calm lanes.toArray (b.dense v) := by
  obtain ⟨size, hsize, ht⟩ := hinto
  rcases resolveLeaf_eq_ok hu with ⟨hfolded, value, hvalue, rfl⟩ | ⟨hfolded, rfl⟩
  · have hlane : ∀ n, b.base.shape.elements? = some n →
        ∀ i < n, v b.base.id i = Lane.round b.dtype value := by
      rcases Option.or_eq_some_iff.mp hvalue with hscalar | ⟨hnone, hscalar⟩
      · exact h.folded hb hscalar
      · rw [isFolded, hnone, Option.isSome_none, Bool.or_false] at hfolded
        obtain ⟨value', hloaded, hlane⟩ := h.loaded hb hfolded
        obtain rfl : value' = value := Option.some.inj (hloaded.symm.trans hscalar)
        exact fun _ _ i _ => hlane i
    exact Kernel.ofTree_literal ht.proper ht.shape ht.addressable hfound fun flat hflat place hplace =>
      hlane size hsize place (ht.place_lt hflat hplace)
  · have hslot : b.base.buffer ∈ slots := hmem hfolded
    have hexists : ∃ s ∈ slots, decide (s.id = b.base.id) = true := ⟨_, hslot, decide_eq_true rfl⟩
    have hlt := List.findIdx_lt_length_of_exists hexists
    have hid := List.findIdx_getElem (w := hlt)
    set slot := slots.findIdx fun s => decide (s.id = b.base.id) with hslotDef
    have hget : slots[slot] = b.base.buffer :=
      (hslots _ (List.getElem_mem hlt)).eq (hslots _ hslot) (of_decide_eq_true hid)
    have hlt' : slot < lanes.length := hlanes.length_eq ▸ hlt
    have hlane := hlanes.get hlt hlt'
    simp only [List.get_eq_getElem, hget] at hlane
    refine Kernel.ofTree_slot ht.proper ht.shape ht.addressable hfound hlt
      fun flat hflat place hplace => ?_
    refine ⟨_, Kernel.fetch_eq_ok (List.getElem?_eq_getElem hlt') ?_, h.rounded hb place⟩
    exact hlane size hsize place (ht.place_lt hflat hplace)

/-! ## Slots -/

omit [Lane α] in
/-- Blocks that supply the lanes of bases are read as these lanes. -/
theorem Kernel.exists_blockLanes {slots : List Buffer} {blocks : List (Block α)}
    (h : List.Forall₂ (fun slot block => block.Supplies v slot.base) slots blocks) :
    ∃ lanes, blocks.mapM blockLanes = .ok lanes
      ∧ List.Forall₂ (fun s l => ∀ n, s.base.shape.elements? = some n →
        ∀ i < n, l[i]? = some (v s.base.id i)) slots lanes := by
  induction h with
  | nil => exact ⟨[], rfl, .nil⟩
  | @cons slot block slots blocks hsupplies _ ih =>
    obtain ⟨data, hstorage, hlane⟩ := hsupplies
    obtain ⟨lanes, hlanes, hall⟩ := ih
    refine ⟨data.lanes :: lanes, ?_, .cons hlane hall⟩
    rw [mapM_eq_ok] at hlanes ⊢
    exact .cons (by rw [blockLanes, hstorage]) hlanes

/-! ## Units -/

/-- A unit that gives its base the lanes that the valuation says: a load of the operation of the
base, or a kernel. -/
inductive Item.Sound (calm : Prop) (v : Valuation α) (g : Graph α) (item : Item α) : Prop
  /-- A load; a dense copy is made by a kernel. -/
  | load {op : LoadOp} (hload : item.load? = some op) (hne : op ≠ .contiguous)
    (hop : g.op? item.output = some item.tree)
  /-- A kernel; a scalar load does not get a slot. -/
  | kernel (hload : item.load? = none) (hdelivers : item.Delivers calm v)
    (hslots : ∀ s ∈ item.slots, g.isConstant s = false)

namespace Buffer

/-- The data that a run of a kernel gives hold the lanes of the output. -/
theorem holds_ofLanes {base : Base} (hdims : base.shape.static? = some dims) {lane : Nat → α}
    (hlane : ∀ i < dims.prod, Lane.round base.dtype (lane i) = v base.id i) :
    (Block.ofHost (.ofLanes base.dtype ((Array.range dims.prod).map lane))).Holds v base where
  size := by simp [Shape.elements?_eq hdims, Block.ofHost]
  dtype := rfl
  stored := by
    refine .inr ⟨_, rfl, rfl, rfl, fun i hi => ?_⟩
    have hi : i < dims.prod := by simpa [Block.ofHost] using hi
    simp [HostData.ofLanes, hi, hlane i hi]

/-- The kernel of a base computes the lanes of the base, and is not stopped if the graph is calm. -/
theorem Fuses.delivers [LawfulLane α] (h : Meaningful devices (W, v) g) (hcalm : calm → g.Calm)
    (hb : W.Lists b) (hbase : b = b.base.buffer) (hop : (g.op? b).map b.lowered = some op)
    (hfuses : b.Fuses W g op t) {compiled : Compiled α} (hcompiled : g.resolve t = .ok compiled) :
    Item.Delivers calm v { tree := compiled.tree, output := b, inputs := t.buffers,
                           slots := compiled.slots, fused := t } := by
  intro blocks hblocks
  have hlists := hfuses.lists h.1 hb hop
  have hbuffers : ∀ c ∈ t.buffers, W.Lists c := fun c hc =>
    hlists c (Tree.mem_leaves_of_mem_buffers hc)
  obtain ⟨dims, hdims, -⟩ := h.static? hb
  obtain ⟨inner, hyields⟩ := hfuses.yields h hb hbase hop
  obtain ⟨lanes, hlanes, hslots⟩ := Kernel.exists_blockLanes hblocks
  obtain ⟨hslotsEq, m, htree, hm⟩ := resolve_eq_ok hlists hcompiled
  have hprod : inner.prod = dims.prod := by
    have hsize := hyields.size
    rw [Shape.elements?_eq hdims] at hsize
    exact (Option.some.inj hsize).symm
  -- every leaf is resolved to a kernel that computes what its buffer shows
  have hleaf : ∀ c ∈ t.leaves, ∃ k, Kernel.ofTree blocks.length (Tree.standsFor m c) = .ok k
      ∧ k.Computes calm lanes.toArray (c.dense v) := by
    intro c hc
    obtain ⟨u, hu, hresolved⟩ := hm c hc
    obtain ⟨cdims, hinto⟩ := hyields.shaped.into hc
    have hfound (hcalm' : calm) : c.tracker.Found cdims := by
      have hobeys := (hcalm hcalm').obeys
      have hshape : b.shape.Moderate := by
        rw [hbase]
        exact (Tracker.moderate_ofShape (hobeys.base h.1 hb)).top
      have hleaf := hfuses.obeys hobeys h.1 hb hshape hop c hc
      exact (h.1.over (hlists c hc)).found (hobeys.base h.1 (hlists c hc)) hleaf hinto.shape
    rw [Tree.standsFor, hu, Option.getD_some, ← hblocks.length_eq]
    refine h.resolved (hlists c hc) hinto hfound ?_ ?_ hslots hresolved
    · intro s hs
      obtain ⟨d, hd, -, rfl⟩ := (h.1.mem_slots hbuffers).mp (hslotsEq ▸ hs)
      exact h.1.lists_base (hbuffers d hd)
    · intro hfolded
      have hmem := (mem_buffers_of_lists hlists).mpr hc
      exact hslotsEq ▸ (h.1.mem_slots hbuffers).mpr ⟨c, hmem, hfolded, rfl⟩
  obtain ⟨k, hk, hcomputes⟩ := hyields.shaped.exists_kernel hyields.type hleaf
  have hshape : b.shape.static? = some dims := by
    rw [hbase]
    change (Tracker.ofShape b.base.shape).shape.static? = _
    rw [Tracker.shape_ofShape, hdims]
  refine ⟨_, Kernel.run_gives hlanes (htree ▸ hk) hcomputes hshape ?_ _, ?_⟩
  · rw [hyields.shaped.dims_dense, hprod]
  · refine holds_ofLanes hdims fun i hi => ?_
    rw [hyields.lane i (hprod ▸ hi)]
    exact h.rounded hb i

/-- A base is lowered to a unit that gives it its lanes. -/
theorem Lowers.sound [LawfulLane α] (h : Meaningful devices (W, v) g) (hcalm : calm → g.Calm)
    (hb : W.Lists b) (hbase : b = b.base.buffer) {item : Item α} (hlowers : b.Lowers W g item) :
    item.Sound calm v g := by
  cases hlowers with
  | @load op hop hcode =>
    obtain ⟨op', hop', rfl⟩ := Option.map_eq_some_iff.mp hop
    obtain ⟨heq, load, hsome, hne⟩ := lowered_of_load hcode
    rw [heq]
    have hload : op'.code?.bind Opcode.load? = some load := by
      rw [hsome]
      rfl
    exact .load hload hne hop'
  | @kernel op fused compiled hop hfuse hcompiled =>
    refine .kernel (hfuse.load?_eq_none hcompiled) (hfuse.delivers h hcalm hb hbase hop hcompiled) ?_
    intro s hs
    have hlists := hfuse.lists h.1 hb hop
    obtain ⟨hslotsEq, -⟩ := resolve_eq_ok hlists hcompiled
    rw [hslotsEq, h.1.mem_slots fun c hc => hlists c (Tree.mem_leaves_of_mem_buffers hc)] at hs
    obtain ⟨c, -, hfolded, rfl⟩ := hs
    exact (Bool.or_eq_false_iff.mp hfolded).1

end Buffer

/-! ## Scheduling -/

namespace Graph

/-- A graph that means something has known extents, and loads as the constructors make them. -/
theorem Meaningful.typed (h : Meaningful devices (W, v) g) : g.Typed where
  bases e he := (h.2 e he).addressable
  leaves e he b hb := by
    obtain ⟨dims, n, -, hinto⟩ := (h.2 e he).leaves b hb
    exact hinto.shape_addressable
  scalars e he op hop hconst := by
    obtain ⟨value, hvalue, -⟩ := ((h.2 e he).op op hop).exists_scalar hconst
    exact Option.isSome_of_eq_some hvalue
  copies e he op hop := ((h.2 e he).op op hop).eq_of_contiguous

/-- A base is stuck only because a number leaves its word, which none does where shapes are moderate. -/
theorem Meaningful.stopped_of_stuck (h : Meaningful devices (W, v) g) {c : Buffer} {cause : Error}
    (hstuck : Plan.Stuck g c cause) : cause = .movement .overflow ∧ ¬g.Moderate := by
  obtain ⟨⟨e, he, rfl⟩, hrealized, hunlowerable⟩ := hstuck
  have hsourced : g.Sourced := fun f hf => (h.2 f hf).source
  cases hop : e.op with
  | none =>
    rw [isRealized, h.1.result?_eq he rfl] at hrealized
    exact absurd (by simpa using hrealized) (hsourced e he hop)
  | some op => exact h.typed.stopped_of_unlowerable h.1 hsourced he hop hunlowerable

end Graph

end TensorGraph
