import Mathlib.Logic.Function.Basic
import TensorGraph.Device.Catalogue
import TensorGraph.Proofs.Graph.Build
import TensorGraph.Proofs.Meaning.Tensor
import TensorGraph.Proofs.World
/-!
# What graphs mean

Beside a graph of plain operations runs a valuation, which gives every base its lanes: those that
its operation makes of older bases. Results that are filled in hold these lanes. A valuation is
never revised; it only grows with the bases.

- `Tree.Means`: the operation of a base makes the lanes of the base.
- `Entry.Means`: what a valuation says about a base and its result.
- `Graph.meaning`: what is known about a graph with a valuation.
-/

namespace TensorGraph

open TensorGraph.Graph

variable {α : Type} [Lane α] {v v' : Valuation α}

/-- The device is served by the interpreter, with whatever capabilities. -/
def Registry.Serves (devices : Registry α) (device : String) : Prop :=
  ∃ name capabilities counted,
    devices.find device = .ok (.interpreter name capabilities counted Takeover.never)

/-! ## Bases -/

/-- The block holds the lanes of the base: a scalar as a constant, or all lanes in host memory. -/
structure Block.Holds (v : Valuation α) (base : Base) (block : Block α) : Prop where
  /-- There is one element for each position. -/
  size : base.shape.elements? = some block.size
  /-- The elements have the type of the base. -/
  dtype : block.dtype = base.dtype
  /-- The elements are those of the base. -/
  stored : (∃ value, block.storage = .constant value ∧ block.size = 1
      ∧ v base.id 0 = Lane.round base.dtype value)
    ∨ ∃ data, block.storage = .host data ∧ data.dtype = base.dtype ∧ data.size = block.size
      ∧ ∀ i < block.size, data.lanes[i]? = some (v base.id i)

/-- The operation makes the lanes of the base. -/
inductive Tree.Means (v : Valuation α) (base : Base) : Tree α → Prop
  /-- A scalar. -/
  | const {value : α} {issuer : Option Nat} (hshape : base.shape = .scalar)
    (h : ∀ i, v base.id i = Lane.round base.dtype value) :
    Means v base (.node (.load .const) (.scalar value) issuer [])
  /-- Zeros. -/
  | empty {arg : Arg α} {issuer : Option Nat} {sources : List (Tree α)}
    (h : ∀ i, v base.id i = Lane.round base.dtype Lane.zero) :
    Means v base (.node (.load .empty) arg issuer sources)
  /-- Random samples. -/
  | rand {seed : UInt64} {issuer : Option Nat} {sources : List (Tree α)} {n : Nat}
    (hsize : base.shape.elements? = some n)
    (h : ∀ i, v base.id i = Lane.round base.dtype (Tensor.randomLane seed n i)) :
    Means v base (.node (.load .rand) (.seed seed) issuer sources)
  /-- A copy of a buffer. -/
  | copy {op : LoadOp} {arg : Arg α} {issuer : Option Nat} {b : Buffer}
    (hop : op = .copy ∨ op = .contiguous) (hshape : b.shape = base.shape)
    (hdtype : b.dtype = base.dtype) (h : ∀ i, v base.id i = (b.dense v).lane i) :
    Means v base (.node (.load op) arg issuer [.buffer b])
  /-- An operation that a kernel computes. -/
  | kernel {op : Tree α} (hload : op.codeIs Opcode.isLoad = false)
    (h : ∀ i, v base.id i = (op.dense v).lane i) : Means v base op

/-- What a valuation says about a base. -/
structure Entry.Means (devices : Registry α) (v : Valuation α) (e : Entry α) : Prop where
  /-- The rank of every position is a signed word. -/
  addressable : e.base.shape.Addressable
  /-- The device is served by the interpreter. -/
  served : devices.Serves e.base.device
  /-- The lanes are rounded to the element type. -/
  rounded : ∀ i, Lane.round e.base.dtype (v e.base.id i) = v e.base.id i
  /-- The leaves of the operation find their positions or hide them. -/
  leaves : ∀ b ∈ e.leaves, ∃ dims, b.Into dims
  /-- The operation makes the lanes. -/
  op : ∀ op, e.op = some op → op.Means v e.base
  /-- The result holds the lanes. -/
  result : ∀ block, e.result = some block → block.Holds v e.base
  /-- Only a scalar load is folded. -/
  folded : ∀ block, e.result = some block → block.isKernelInput = false →
    ∃ op, e.op = some op ∧ op.codeIs (· = .load .const) = true
  /-- A base without an operation has a result. -/
  source : e.op = none → e.result ≠ none

theorem Buffer.dense_congr {b : Buffer} (h : v b.base.id = v' b.base.id) :
    b.dense v = b.dense v' := by
  rw [dense, dense, h]

theorem Block.Holds.congr {base : Base} {block : Block α}
    (h : v base.id = v' base.id) (hblock : block.Holds v base) : block.Holds v' base := by
  obtain ⟨hsize, hdtype, hstored⟩ := hblock
  exact ⟨hsize, hdtype, h ▸ hstored⟩

theorem Tree.Means.congr {base : Base} {op : Tree α}
    (hbase : v base.id = v' base.id) (hleaves : ∀ b ∈ op.leaves, v b.base.id = v' b.base.id)
    (h : op.Means v base) : op.Means v' base := by
  cases h with
  | const hshape h => exact .const hshape fun i => hbase ▸ h i
  | empty h => exact .empty fun i => hbase ▸ h i
  | rand hsize h => exact .rand hsize fun i => hbase ▸ h i
  | @copy _ _ _ b hop hshape hdtype h =>
    have hb := Buffer.dense_congr (hleaves b (by simp))
    exact .copy hop hshape hdtype fun i => hbase ▸ hb ▸ h i
  | kernel hload h =>
    exact .kernel hload fun i => hbase ▸ Tree.dense_congr hleaves ▸ h i

/-- A scalar load carries the scalar that is everywhere. -/
theorem Tree.Means.exists_scalar {base : Base} {op : Tree α} (h : op.Means v base)
    (hconst : op.codeIs (· = .load .const) = true) :
    ∃ value, op.arg.scalar? = some value ∧ ∀ i, v base.id i = Lane.round base.dtype value := by
  cases h with
  | const _ hlane => exact ⟨_, rfl, hlane⟩
  | empty => cases hconst
  | rand => cases hconst
  | copy hop => rcases hop with rfl | rfl <;> cases hconst
  | kernel hload =>
    have hload' := codeIs_mono (q := Opcode.isLoad) hconst fun _ h => of_decide_eq_true h ▸ rfl
    cases hload.symm.trans hload'

/-- A dense copy is of the shape and the type of its source. -/
theorem Tree.Means.eq_of_contiguous {base : Base} {op : Tree α} (h : op.Means v base)
    (hcopy : op.codeIs (· = .load .contiguous) = true) :
    ∀ b ∈ op.leaves, b.shape = base.shape ∧ b.dtype = base.dtype := by
  cases h with
  | const => cases hcopy
  | empty => cases hcopy
  | rand => cases hcopy
  | copy _ hshape hdtype =>
    intro b hb
    obtain rfl := by simpa using hb
    exact ⟨hshape, hdtype⟩
  | kernel hload =>
    have hload' := codeIs_mono (q := Opcode.isLoad) hcopy fun _ h => of_decide_eq_true h ▸ rfl
    cases hload.symm.trans hload'

theorem Entry.Means.congr {devices : Registry α} {e : Entry α}
    (hbase : v e.base.id = v' e.base.id) (hleaves : ∀ b ∈ e.leaves, v b.base.id = v' b.base.id)
    (h : e.Means devices v) : e.Means devices v' where
  addressable := h.addressable
  served := h.served
  rounded i := hbase ▸ h.rounded i
  leaves := h.leaves
  op op hop := by
    exact (h.op op hop).congr hbase fun b hb => hleaves b (Entry.leaves_eq hop ▸ hb)
  result block hblock := (h.result block hblock).congr hbase
  folded := h.folded
  source := h.source

/-! ## Graphs -/

namespace Graph

/-- Between two graphs that mean something, bases were added or results filled in, but the entries
of the bases with a number in `fixed` stayed as they were. -/
structure Progress (devices : Registry α) (fixed : Nat → Prop) (w : Census × Valuation α)
    (g : Graph α) (w' : Census × Valuation α) (g' : Graph α) : Prop where
  /-- The later graph is well-formed, and buffers and bases stay. -/
  leads : Leads w.1 g w'.1 g'
  /-- The later graph means something. -/
  means : ∀ e ∈ g'.cores, e.Means devices w'.2
  /-- The valuation is not revised. -/
  agrees : ∀ id < g.next, w'.2 id = w.2 id
  /-- Some entries stay. -/
  fixed : ∀ e ∈ g.cores, fixed e.base.id → e ∈ g'.cores

variable {devices : Registry α} {fixed fixed' : Nat → Prop} {w w' w'' : Census × Valuation α}
  {g g' g'' : Graph α}

theorem Progress.trans (h : Progress devices fixed w g w' g')
    (h' : Progress devices fixed w' g' w'' g'') : Progress devices fixed w g w'' g'' where
  leads := h.leads.trans h'.leads
  means := h'.means
  agrees id hid :=
    (h'.agrees id (Nat.lt_of_lt_of_le hid h.leads.grows.next_le)).trans (h.agrees id hid)
  fixed e he hfixed := h'.fixed e (h.fixed e he hfixed) hfixed

theorem Progress.mono (h : Progress devices fixed w g w' g') (hfixed : ∀ id, fixed' id → fixed id) :
    Progress devices fixed' w g w' g' :=
  ⟨h.leads, h.means, h.agrees, fun e he hid => h.fixed e he (hfixed _ hid)⟩

/-- What is known about a graph with a valuation: it is well-formed, and its bases mean what the
valuation says. -/
def meaning (devices : Registry α) (fixed : Nat → Prop) : World (Census × Valuation α) (Graph α) where
  Sound w g := g.WellFormed w.1 ∧ ∀ e ∈ g.cores, e.Means devices w.2
  Leads := Progress devices fixed
  refl h := ⟨h.1.viewed.leads, h.2, fun _ _ => rfl, fun _ he _ => he⟩
  trans := Progress.trans
  Fails := Progress devices fixed
  fails h := h
  trans_fails := Progress.trans
  sound_fails h := ⟨h.leads.wellFormed, h.means⟩

/-- What is known does not depend on what stays. -/
abbrev Meaningful (devices : Registry α) (w : Census × Valuation α) (g : Graph α) : Prop :=
  g.WellFormed w.1 ∧ ∀ e ∈ g.cores, e.Means devices w.2

theorem Progress.meaningful (h : Progress devices fixed w g w' g') : Meaningful devices w' g' :=
  ⟨h.leads.wellFormed, h.means⟩

theorem Meaningful.refl (h : Meaningful devices w g) : Progress devices fixed w g w g :=
  (meaning devices fixed).refl h

/-- The base of a buffer that was handed out, with its entry. -/
theorem Meaningful.entry (h : Meaningful devices w g) {b : Buffer} (hb : w.1.Lists b) :
    ∃ e ∈ g.cores, e.base = b.base ∧ g.op? b = e.op ∧ g.result? b = e.result
      ∧ e.Means devices w.2 := by
  obtain ⟨e, he, hbase⟩ := h.1.census_base _ _ hb
  exact ⟨e, he, hbase, h.1.op?_eq he hbase, h.1.result?_eq he hbase, h.2 e he⟩

theorem Meaningful.op_means (h : Meaningful devices w g) {b : Buffer} (hb : w.1.Lists b)
    {op : Tree α} (hop : g.op? b = some op) : op.Means w.2 b.base := by
  obtain ⟨e, -, hbase, hop', -, hmeans⟩ := h.entry hb
  exact hbase ▸ hmeans.op op (hop' ▸ hop)

theorem Meaningful.leaf_into (h : Meaningful devices w g) {b : Buffer} (hb : w.1.Lists b)
    {op : Tree α} (hop : g.op? b = some op) {c : Buffer} (hc : c ∈ op.leaves) :
    ∃ dims, c.Into dims := by
  obtain ⟨e, -, -, hop', -, hmeans⟩ := h.entry hb
  have hleaves := Entry.leaves_eq (hop'.symm.trans hop)
  exact hmeans.leaves c (hleaves ▸ hc)

theorem Meaningful.rounded (h : Meaningful devices w g) {b : Buffer} (hb : w.1.Lists b) (i : Nat) :
    Lane.round b.dtype (w.2 b.base.id i) = w.2 b.base.id i := by
  obtain ⟨e, -, hbase, -, -, hmeans⟩ := h.entry hb
  have := hmeans.rounded i
  rwa [hbase] at this

theorem Meaningful.served (h : Meaningful devices w g) {b : Buffer} (hb : w.1.Lists b) :
    devices.Serves b.device := by
  obtain ⟨e, -, hbase, -, -, hmeans⟩ := h.entry hb
  rw [Buffer.device, ← hbase]
  exact hmeans.served

theorem Meaningful.addressable (h : Meaningful devices w g) {b : Buffer} (hb : w.1.Lists b) :
    b.base.shape.Addressable := by
  obtain ⟨e, -, hbase, -, -, hmeans⟩ := h.entry hb
  exact hbase ▸ hmeans.addressable

end Graph

end TensorGraph
