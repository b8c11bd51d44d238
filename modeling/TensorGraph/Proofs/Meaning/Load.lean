import TensorGraph.Proofs.Engine.Keeps
import TensorGraph.Proofs.Graph.Moderate
import TensorGraph.Proofs.Meaning.Build
import TensorGraph.Proofs.Meaning.Schedule
import TensorGraph.Proofs.Schedule.Within
/-!
# Requests and loads

The interpreter answers every request, and a load makes the lanes that its base means. Nothing stops a
computation but a number that leaves its word, and none does under a rule that keeps graphs calm.

- `Graph.steady`: what is known about a graph while buffers are realized.
- `Run.Delivers`: computations that succeed and keep the meaning of the graph.
- `Block.Holds.toArray`: a block that holds the lanes of a base is read back as these lanes.
- `Run.delivers_readBack`: reading a buffer back, given how to realize buffers.
- `Run.delivers_runLoad`: the result of a load.
-/

namespace TensorGraph

open TensorGraph.Graph World

variable {α : Type} [Lane α] {devices : Registry α} {fixed fixed' : Nat → Prop}
  {rule : Rule} {w : Census × Valuation α} {v : Valuation α} {e : Engine α} {b : Buffer} {base : Base}
  {dims : List Nat}

/-! ## Blocks -/

namespace Block

/-- Data in host memory with the lanes of a base hold them. -/
theorem holds_ofHost {data : HostData α} (hsize : base.shape.elements? = some data.size)
    (hdtype : data.dtype = base.dtype)
    (hlane : ∀ i < data.size, data.lanes[i]? = some (v base.id i)) :
    (ofHost data).Holds v base :=
  ⟨hsize, hdtype, .inr ⟨data, rfl, hdtype, rfl, hlane⟩⟩

/-- Rounded lanes hold the lanes of a base. -/
theorem holds_ofLanes {lanes : Array α} (hsize : base.shape.elements? = some lanes.size)
    (hlane : ∀ i (hi : i < lanes.size), Lane.round base.dtype lanes[i] = v base.id i) :
    (ofHost (.ofLanes base.dtype lanes)).Holds v base := by
  refine holds_ofHost (by rw [HostData.size_ofLanes, hsize]) rfl fun i hi => ?_
  rw [HostData.size_ofLanes] at hi
  simp [HostData.ofLanes, hi, hlane i hi]

theorem Holds.read {block : Block α} (h : block.Holds v base) :
    ∃ data, block.read = .ok data ∧ data.dtype = base.dtype ∧ data.size = block.size
      ∧ ∀ i < block.size, data.lanes[i]? = some (v base.id i) := by
  rcases h.stored with ⟨value, hstorage, hone, hlane⟩ | ⟨data, hstorage, hdtype, hsize, hlane⟩
  · refine ⟨.ofLanes block.dtype #[value], by rw [Block.read, hstorage], h.dtype, ?_, ?_⟩
    · rw [HostData.size_ofLanes, hone]
      rfl
    · intro i hi
      obtain rfl : i = 0 := by omega
      simp [HostData.ofLanes, hlane, h.dtype]
  · refine ⟨data, ?_, hdtype, hsize, hlane⟩
    have hsame : data.dtype = block.dtype := hdtype.trans h.dtype.symm
    simp only [Block.read, hstorage, HostData.convert, hsame, if_true]

/-- A block that holds the lanes of a base is read back as these lanes. -/
theorem Holds.toArray {block : Block α} (h : block.Holds v base)
    (hsize : base.shape.elements? = some dims.prod) :
    ∃ array, block.toArray dims = .ok array ∧ array.shape = dims ∧ array.dtype = base.dtype
      ∧ ∀ i < dims.prod, array.lanes[i]? = some (v base.id i) := by
  obtain ⟨data, hread, hdtype, hdata, hlane⟩ := h.read
  have hprod : block.size = dims.prod := Option.some.inj (h.size.symm.trans hsize)
  have hdata' : data.size = dims.prod := hdata.trans hprod
  refine ⟨⟨dims, data, hdata'⟩, ?_, rfl, hdtype, fun i hi => hlane i (hprod ▸ hi)⟩
  simp only [Block.toArray, hprod, ne_eq, not_true_eq_false, if_false, hread]
  exact dif_pos hdata'

end Block

/-- Lanes for all positions make an array. -/
theorem HostArray.ofLanes_eq_ok {lanes : Array α} (dtype : DType) (h : lanes.size = dims.prod) :
    ofLanes dims dtype lanes = .ok ⟨dims, .ofLanes dtype lanes, by rw [HostData.size_ofLanes, h]⟩ :=
  dif_pos _

/-- The generator makes as many words as are asked for. -/
theorem ChaCha.size_words (seed : UInt64) (n : Nat) : (words seed n).size = n := by
  simp only [words, Array.take_eq_extract, Array.size_extract, Array.size_flatMap, Vector.size_toArray,
    Array.map_const', Array.size_range, Array.sum_replicate_nat]
  omega

/-! ## Computations that succeed -/

/-- What is known about a graph while buffers are realized: it means something, and obeys the rule. -/
def Graph.steady (devices : Registry α) (rule : Rule) (fixed : Nat → Prop) :
    World (Census × Valuation α) (Graph α) :=
  (meaning devices fixed).also fun g => g.Obeys rule

/-- What is known does not depend on what stays. -/
abbrev Graph.Steady (devices : Registry α) (rule : Rule) (w : Census × Valuation α) (g : Graph α) :
    Prop :=
  Meaningful devices w g ∧ g.Obeys rule

theorem Graph.steady_sound {w' : Census × Valuation α} {g g' : Graph α}
    (h : (steady devices rule fixed).Leads w g w' g') : Steady devices rule w' g' :=
  ⟨h.1.meaningful, h.2⟩

namespace Run

variable {β : Type}

/-- The computation `x` succeeds and satisfies `post`, or is stopped, unless the rule keeps graphs calm.
The graph keeps its meaning, and the entries of the bases with a number in `fixed` stay as they
are. -/
abbrev Delivers (devices : Registry α) (rule : Rule) (fixed : Nat → Prop) (w : Census × Valuation α)
    (e : Engine α) (x : Run α β) (post : β → Census × Valuation α → Engine α → Prop) : Prop :=
  ((steady devices rule fixed).comap Engine.graph).Keeps w e x post fun f => f = .overflow ∧ ¬rule.IsCalm

variable {x : Run α β} {post : β → Census × Valuation α → Engine α → Prop}

theorem Delivers.mono (h : Delivers devices rule fixed w e x post)
    (hfixed : ∀ id, fixed' id → fixed id) : Delivers devices rule fixed' w e x post := by
  refine Sat.imp h ?_ ?_
  · rintro c e' ⟨w', ⟨hprogress, hobeys⟩, hpost⟩
    exact ⟨w', ⟨hprogress.mono hfixed, hobeys⟩, hpost⟩
  · rintro f e' ⟨hfail, w', hprogress, hobeys⟩
    exact ⟨hfail, w', hprogress.mono hfixed, hobeys⟩

variable (h : Steady devices rule w e.graph) {name : String} {capabilities : Capabilities}
  {counted : Bool} (device : String)
include h

theorem delivers_pure {c : β} (hpost : post c w e) : Delivers devices rule fixed w e (pure c) post :=
  keeps_pure (R := (steady devices rule fixed).comap Engine.graph) h hpost

theorem delivers_graph :
    Delivers devices rule fixed w e Run.graph fun g w' e' => g = e.graph ∧ w' = w ∧ e' = e :=
  keeps_graph (R := (steady devices rule fixed).comap Engine.graph) h

theorem delivers_ofExcept {r : Except Error β} {c : β} (hr : r = .ok c) :
    Delivers devices rule fixed w e (ofExcept r) fun c' w' e' => c' = c ∧ w' = w ∧ e' = e := by
  subst hr
  exact delivers_pure h ⟨rfl, rfl, rfl⟩

/-! ## Requests -/

/-- An upload to the interpreter keeps the data as they are. -/
theorem delivers_askUpload (array : HostArray α) :
    Delivers devices rule fixed w e
      ((Backend.interpreter name capabilities counted .never).ask device (.upload array))
      fun block w' e' => block = .ofHost array.data ∧ w' = w ∧ e'.graph = e.graph := by
  refine (keeps_record (R := steady devices rule fixed) h _).bind ?_
  rintro _ w _ hleads ⟨rfl, rfl⟩
  exact keeps_pure (steady_sound hleads) ⟨rfl, rfl, rfl⟩

theorem delivers_askAllocate (size : Nat) (dtype : DType) :
    Delivers devices rule fixed w e
      ((Backend.interpreter name capabilities counted .never).ask device (.allocate size dtype))
      fun block w' e' => block = .ofHost (.ofLanes dtype (.replicate size Lane.zero)) ∧ w' = w
        ∧ e'.graph = e.graph := by
  refine (keeps_record (R := steady devices rule fixed) h _).bind ?_
  rintro _ w _ hleads ⟨rfl, rfl⟩
  exact keeps_pure (steady_sound hleads) ⟨rfl, rfl, rfl⟩

/-- The interpreter runs a kernel as it is evaluated. -/
theorem delivers_askExecute {tree : Tree α} {output : Buffer} {inputs : List (Block α)}
    {data : HostData α}
    (hrun : Kernel.Gives rule.IsCalm data (Kernel.run tree output.shape output.dtype inputs)) :
    Delivers devices rule fixed w e
      ((Backend.interpreter name capabilities counted .never).ask device
        (.execute tree output inputs))
      fun block w' e' => block = .ofHost data ∧ w' = w ∧ e'.graph = e.graph := by
  have hanswer : (Backend.interpreter name capabilities counted .never).execute tree output inputs
      (Device.args device) = Backend.interpret tree output inputs := rfl
  refine (keeps_record (R := steady devices rule fixed) h _).bind ?_
  rintro _ w _ hleads ⟨rfl, rfl⟩
  simp only [hanswer, Backend.interpret]
  generalize Kernel.run tree output.shape output.dtype inputs = r at hrun
  cases hrun with
  | met => exact keeps_pure (steady_sound hleads) ⟨rfl, rfl, rfl⟩
  | stopped hcalm => exact keeps_throw (steady_sound hleads) ⟨rfl, hcalm⟩

end Run

/-! ## Dense copies -/

/-- The buffer `c` covers its base densely and shows what `b` shows; it is on the same base, or on one
that was added for the copy. -/
structure Buffer.Copied (w : Census × Valuation α) (g : Graph α) (dims : List Nat) (b c : Buffer)
    (w' : Census × Valuation α) (g' : Graph α) : Prop where
  /-- The copy was handed out. -/
  lists : w'.1.Lists c
  /-- The copy finds its positions or hides them. -/
  into : c.Into dims
  /-- The copy covers its base. -/
  dense : c.isContiguous = true
  /-- The copy shows the same lanes. -/
  lanes : Dense.Matches dims.prod (c.dense w'.2) (b.dense w.2)
  /-- The base of the copy. -/
  base : c.base.id = b.base.id ∨ c.base.id = g.next
    ∧ ∃ arg issuer, g'.op? c = some (.node (.load .contiguous) arg issuer [.buffer b])

theorem Graph.Steady.keeps_contiguous [LawfulLane α] {g : Graph α}
    (hs : Steady devices rule w g) (hb : w.1.Lists b) (hinto : b.Into dims)
    (hleaf : rule.leaves b.tracker) :
    (steady devices rule fixed).Keeps w g b.contiguous
      (fun c w' g' => Buffer.Copied w g dims b c w' g')
      fun f => f.failure = .overflow ∧ ¬rule.IsCalm := by
  obtain ⟨W, v⟩ := w
  obtain ⟨h, hobeys⟩ := hs
  have hinto' : b.Into (b.dense v).dims := by
    rw [hinto.dims_dense v]
    exact hinto
  have hshows : b.Shows v ⟨b.tracker, b.config, b.dense v⟩ := ⟨rfl, rfl, hinto', .refl _ _⟩
  have hcopy := Buffer.shows_contiguous fixed h hb hshows
  refine ((Sat.and hcopy (Buffer.sat_contiguous h.1 hb)).and
    (Buffer.obeys_contiguous hobeys h.1 hb hleaf)).imp ?_ ?_
  rotate_left
  · rintro _ _ ⟨⟨-, rfl, rfl, hformable⟩, -⟩
    exact ⟨⟨rfl, fun hcalm => hformable (hcalm _ hleaf).moderate.top.formable⟩, (W, v), h.refl, hobeys⟩
  rintro c g' ⟨⟨⟨w', hprogress, hlist, t, ht, hc⟩, hcases⟩, hobeys'⟩
  obtain rfl := Option.some.inj ht
  have hc' : c.Into dims := hinto.dims_dense v ▸ hc.into
  have hmatches : Dense.Matches dims.prod (c.dense w'.2) (b.dense v) :=
    hinto.dims_dense v ▸ hc.lanes
  refine ⟨w', ⟨hprogress, hobeys'⟩, hlist, hc', ?_, hmatches, ?_⟩
  · rcases hcases with ⟨hdense, rfl, -⟩ | ⟨-, W', hadded⟩
    · exact hdense
    · rw [hadded.buffer_eq, Buffer.isContiguous, Bool.and_eq_true]
      exact ⟨Tracker.contiguous_ofShape _, decide_eq_true rfl⟩
  · rcases hcases with ⟨-, rfl, -⟩ | ⟨-, W', hadded⟩
    · exact .inl rfl
    · refine .inr ⟨by rw [hadded.buffer_eq]; rfl, .none, some g.next, ?_⟩
      have hcores := cores_insert g (some (.node (.load .contiguous) .none none [.buffer b])) none
        b.shape b.dtype b.device b.config
      rw [← hadded.graph_eq] at hcores
      refine (hprogress.meaningful.1.op?_eq (hcores ▸ List.mem_cons_self) ?_).trans rfl
      rw [hadded.buffer_eq]
      rfl

namespace Run

/-- Buffers whose realizations nest no deeper than `depth` are realized to blocks that hold their
lanes. What is realized besides lies below, so that entries above may stay as they are. -/
def RealizesUpTo (devices : Registry α) (rule : Rule) (depth : Nat) (realize : Realizer α) : Prop :=
  ∀ {w : Census × Valuation α} {e : Engine α} {fixed : Nat → Prop} {k : Nat} {b : Buffer},
    Steady devices rule w e.graph → w.1.Lists b → k ≤ depth → b.Within e.graph k →
    (∀ id, fixed id → k ≤ id ∧ id < e.graph.next ∧ id ≠ b.base.id) → ∀ held,
    Delivers devices rule fixed w e (realize held b) fun block w' _ => block.Holds w'.2 b.base

theorem delivers_knownDims (h : Steady devices rule w e.graph) (hdims : b.shape.static? = some dims)
    (task : String) :
    Delivers devices rule fixed w e (knownDims b task)
      fun ds w' e' => ds = dims ∧ w' = w ∧ e' = e := by
  rw [knownDims, hdims]
  exact delivers_pure h ⟨rfl, rfl, rfl⟩

/-- Reading a buffer back gives the lanes that it shows. -/
theorem delivers_readBack [LawfulLane α] {depth k : Nat} {realize : Realizer α}
    (hrealize : RealizesUpTo devices rule depth realize) (h : Steady devices rule w e.graph)
    (hb : w.1.Lists b) (hinto : b.Into dims) (hleaf : rule.leaves b.tracker)
    (hk : k ≤ depth) (hlt : b.base.id < k)
    (hfixed : ∀ id, fixed id → k ≤ id ∧ id < e.graph.next) (held : List Buffer) :
    Delivers devices rule fixed w e (readBack realize held b) fun array _ _ => array.shape = dims
      ∧ array.dtype = b.dtype ∧ ∀ i < dims.prod, array.lanes[i]? = some ((b.dense w.2).lane i) := by
  rw [readBack]
  refine (delivers_knownDims h hinto.shape _).look ?_
  rintro dims rfl
  have hcontiguous : Delivers devices rule fixed w e (build b.contiguous) fun c w' e' =>
      Buffer.Copied w e.graph dims b c w' e'.graph :=
    keeps_build (h.keeps_contiguous hb hinto hleaf)
  refine hcontiguous.bind ?_
  rintro c w₁ e₁ hleads₁ ⟨hc, hcinto, hdense, hmatches, hcases⟩
  have hprogress₁ : Progress devices fixed w e.graph w₁ e₁.graph := hleads₁.1
  have h₁ : Steady devices rule w₁ e₁.graph := steady_sound hleads₁
  have hwithin : c.Within e₁.graph k := by
    rcases hcases with hid | ⟨-, arg, issuer, hop⟩
    · exact .base (hid ▸ hlt)
    · exact .copy hop hlt
  have hfixed₁ : ∀ id, fixed id → k ≤ id ∧ id < e₁.graph.next ∧ id ≠ c.base.id := by
    intro id hid
    obtain ⟨hle, hnext⟩ := hfixed id hid
    have hgrows := hprogress₁.leads.grows.next_le
    rcases hcases with hid' | ⟨hid', -⟩ <;> exact ⟨hle, by omega, by omega⟩
  refine (hrealize h₁ hc hk hwithin hfixed₁ _).bind ?_
  intro block w₂ e₂ hleads₂ hblock
  have hprogress₂ : Progress devices fixed w₁ e₁.graph w₂ e₂.graph := hleads₂.1
  have hsize := hcinto.elements?_of_isContiguous hdense (h₁.1.addressable hc)
  obtain ⟨array, harray, hshape, hdtype, hlane⟩ := hblock.toArray hsize
  rw [harray]
  refine delivers_pure (steady_sound hleads₂)
    ⟨hshape, hdtype.trans hmatches.dtype, fun i hi => ?_⟩
  rw [hlane i hi, hprogress₂.agrees _ (h₁.1.1.base_lt hc), ← hmatches.lane i hi,
    hcinto.lane_of_isContiguous hdense _ hi]

/-! ## Loads -/

variable [LawfulLane α] {depth : Nat} {realize : Realizer α} {output : Buffer} {tree : Tree α}
  {name : String} {capabilities : Capabilities} {counted : Bool}

/-- The result of a load holds the lanes of its base, and it is folded only if the load is a
scalar. -/
theorem delivers_runLoad (hrealize : RealizesUpTo devices rule depth realize)
    (h : Steady devices rule w e.graph) (hout : w.1.Lists output)
    (hbase : output = output.base.buffer) (hop : e.graph.op? output = some tree) {op : LoadOp}
    (hcode : tree.code? = some (.load op)) (hne : op ≠ .contiguous)
    (hk : output.base.id ≤ depth)
    (hfixed : ∀ id, fixed id → output.base.id ≤ id ∧ id < e.graph.next) (held : List Buffer) :
    Delivers devices rule fixed w e
      (runLoad realize held (.interpreter name capabilities counted .never) output op tree)
      fun block w' _ => block.Holds w'.2 output.base
        ∧ (block.isKernelInput = false → tree.codeIs (· = .load .const) = true) := by
  have hmeans := h.1.op_means hout hop
  obtain ⟨dims, hdims, -⟩ := h.1.static? hout
  have hsize := Shape.elements?_eq hdims
  have hshape : output.shape.static? = some dims := by
    rw [hbase]
    exact (congrArg Shape.static? (Tracker.shape_ofShape _)).trans hdims
  cases hmeans with
  | @const value issuer hscalar hlane =>
    obtain ⟨rfl⟩ := hcode
    have hone : output.base.shape.elements? = some 1 := by
      rw [hscalar]
      rfl
    rw [runLoad.eq_def]
    dsimp only [Tree.arg, Arg.scalar?]
    split
    · exact delivers_pure h
        ⟨⟨hone, rfl, .inl ⟨value, rfl, rfl, hlane 0⟩⟩, fun _ => rfl⟩
    · refine (delivers_askUpload h ..).imp ?_
      rintro _ w' e' - ⟨rfl, rfl, -⟩
      refine ⟨Block.holds_ofLanes hone fun i hi => ?_, fun _ => rfl⟩
      rw [hlane, Array.getElem_replicate]
  | @empty arg issuer sources hlane =>
    obtain ⟨rfl⟩ := hcode
    refine (delivers_knownDims h hshape _).look ?_
    rintro dims rfl
    refine (delivers_askAllocate h ..).imp ?_
    rintro _ w' e' - ⟨rfl, rfl, -⟩
    refine ⟨Block.holds_ofLanes ?_ fun i hi => ?_,
      fun hfolded => (Bool.false_ne_true hfolded.symm).elim⟩
    · rw [hsize, Array.size_replicate]
    · rw [hlane, Array.getElem_replicate]
  | @rand seed issuer sources n hn hlane =>
    obtain ⟨rfl⟩ := hcode
    obtain rfl : n = dims.prod := Option.some.inj (hn.symm.trans hsize)
    refine (delivers_knownDims h hshape _).look ?_
    rintro dims rfl
    have hwords : ((ChaCha.words seed dims.prod).map fun word => (Lane.sample word : α)).size
        = dims.prod := by
      rw [Array.size_map, ChaCha.size_words]
    refine (delivers_ofExcept h (HostArray.ofLanes_eq_ok output.dtype hwords)).look ?_
    rintro _ rfl
    refine (delivers_askUpload h ..).imp ?_
    rintro _ w' e' - ⟨rfl, rfl, -⟩
    refine ⟨Block.holds_ofLanes (by rw [hsize, hwords]) fun i hi => ?_,
      fun hfolded => (Bool.false_ne_true hfolded.symm).elim⟩
    rw [hlane, Tensor.randomLane, Array.getElem?_eq_getElem hi, Option.getD_some]
  | @copy _ arg issuer b hcopy hsource hdtype hlane =>
    obtain ⟨rfl⟩ := hcode
    obtain rfl : op = .copy := hcopy.resolve_right hne
    -- the source is on an older base, so that reading it back delivers
    obtain ⟨hlist, hlt⟩ := h.1.1.older_base hout hop b (by simp)
    obtain ⟨bdims, hinto⟩ := h.1.leaf_into hout hop (c := b) (by simp)
    have hleaf : rule.leaves b.tracker := h.2.leaf h.1.1 hout hop b (by simp)
    obtain rfl : dims = bdims := by
      have hshape := hinto.shape
      rw [hsource, hdims] at hshape
      exact Option.some.inj hshape
    refine (delivers_readBack hrealize h hlist hinto hleaf hk hlt hfixed held).bind ?_
    rintro array w₁ e₁ hleads ⟨harray, hdtype', hlane'⟩
    have hprogress : Progress devices fixed w e.graph w₁ e₁.graph := hleads.1
    refine (delivers_askUpload (steady_sound hleads) ..).imp ?_
    rintro _ w' e' - ⟨rfl, rfl, -⟩
    have hcount : array.data.size = dims.prod := by rw [array.size_eq, harray]
    refine ⟨Block.holds_ofHost (by rw [hsize, hcount]) (hdtype'.trans hdtype) fun i hi => ?_,
      fun hfolded => (Bool.false_ne_true hfolded.symm).elim⟩
    -- the lanes of bases that were there before are those they were
    rw [hprogress.agrees _ (h.1.1.base_lt hout), hlane]
    exact hlane' i (hcount ▸ hi)
  | kernel hload =>
    rw [Tree.codeIs, hcode] at hload
    cases hload

end Run

end TensorGraph
