import Mathlib.Logic.Relation
import TensorGraph.Lane.Binary64
import TensorGraph.Proofs.Graph.Moderate
import TensorGraph.Proofs.Kernel.Check
import TensorGraph.Proofs.Session
/-!
# Operations of reachable graphs

In whatever order a session builds and realizes, each base has an operation of one of three forms,
which reads older buffers and has the element type of the base. So no base depends on itself, and
an elementwise operation is refused only for its arguments.

- `Entry.Sound`: what is asked of a base and its operation.
- `Session.Reachable.graph_sound`: the bases of a reachable session.
-/

namespace TensorGraph

open TensorGraph.Graph

variable {α : Type} {W : Census} {g : Graph α} {b : Buffer} {t : Tree α}

/-! ## Reductions stand at the root -/

theorem Tree.Pointwise.isReduce_eq_false {shape : Shape} (h : t.Pointwise shape) {u : Tree α}
    (hu : u ∈ t.nodes) : u.codeIs Opcode.isReduce = false := by
  induction h with
  | buffer => simp [nodes] at hu
  | @node code arg issuer sources hcode _ _ ih =>
    rw [nodes, nodesAll_eq, List.mem_cons, List.mem_flatMap] at hu
    rcases hu with rfl | ⟨s, hs, hu⟩
    · exact Opcode.isReduce_of_isElementwise hcode
    · exact ih s hs hu

/-- Below the root of an operation there is no reduction. -/
theorem Tree.Form.isReduce_eq_false {base : Base} (h : t.Form base) {u : Tree α}
    (hu : u ∈ t.nodes.tail) : u.codeIs Opcode.isReduce = false := by
  cases h with
  | @load op arg issuer sources _ h =>
    rw [nodes, List.tail_cons, nodesAll_eq, List.mem_flatMap] at hu
    obtain ⟨s, hs, hu⟩ := hu
    obtain ⟨b, rfl⟩ := h s hs
    simp [nodes] at hu
  | pointwise h => exact h.isReduce_eq_false (List.mem_of_mem_tail hu)
  | reduce => simp [nodes, nodesAll] at hu

/-! ## Element types -/

theorem Graph.type_resolveLeaf {slots : List Buffer} (h : g.resolveLeaf slots b = .ok t) :
    t.type = some b.dtype := by
  rcases resolveLeaf_eq_ok h with ⟨-, value, -, rfl⟩ | ⟨-, rfl⟩
  · rfl
  · rfl

/-- A compiled tree has the element type of the tree. -/
theorem Graph.type_resolve (ht : ∀ b ∈ t.leaves, W.Lists b) {c : Compiled α}
    (h : g.resolve t = .ok c) : c.tree.type = t.type := by
  obtain ⟨-, m, htree, hm⟩ := resolve_eq_ok ht h
  rw [htree]
  refine Tree.type_substitute fun b hb => ?_
  obtain ⟨u, hu, hleaf⟩ := hm b hb
  rw [hu]
  exact type_resolveLeaf hleaf

/-! ## Bases -/

/-- What a base and its operation are like in a graph. -/
structure Entry.Sound (g : Graph α) (e : Entry α) : Prop where
  /-- The operation has one of the three forms. -/
  form : ∀ op, e.op = some op → op.Form e.base
  /-- A reduction stands at the root only. -/
  root : ∀ op, e.op = some op → ∀ t ∈ op.nodes.tail, t.codeIs Opcode.isReduce = false
  /-- A kernel of the operation, alone or compiled, has the element type of the base. -/
  type : ∀ op, e.op = some op → op.codeIs Opcode.isLoad = false → op.type = some e.base.dtype
    ∧ ∀ compiled inputs kernel, g.resolve op = .ok compiled →
      Kernel.ofTree inputs compiled.tree = .ok kernel → kernel.dtype = e.base.dtype
  /-- What the operation reads is older than the base. -/
  older : ∀ b ∈ e.leaves, b.id < e.base.id ∧ b.base.id < e.base.id

theorem Graph.WellFormed.entry_sound (hg : g.WellFormed W) {e : Entry α} (he : e ∈ g.entries) :
    e.Sound g := by
  have hcomputes {op : Tree α} (hop : e.op = some op) : op.Computes W e.base :=
    hg.computes e.core (mem_cores.mpr ⟨e, he, rfl⟩) op hop
  constructor
  case form => exact fun op hop => (hcomputes hop).form
  case root => exact fun op hop t ht => (hcomputes hop).form.isReduce_eq_false ht
  case type =>
    intro op hop hload
    have htype := (hcomputes hop).form.type_eq hload
    refine ⟨htype, fun compiled inputs kernel hcompiled hkernel => ?_⟩
    have h := type_resolve (fun b hb => ((hcomputes hop).older b hb).1) hcompiled
    rw [Kernel.type_ofTree hkernel, htype] at h
    exact Option.some.inj h
  case older =>
    have he' : e.core ∈ g.cores := mem_cores.mpr ⟨e, he, rfl⟩
    exact fun b hb => ⟨(hg.older_leaf he' hb).2, hg.leaf_base_lt he' hb⟩

/-- The base with number `i` reads the base with number `j`. -/
def Graph.Reads (g : Graph α) (i j : Nat) : Prop :=
  ∃ e ∈ g.entries, e.base.id = i ∧ ∃ b ∈ e.leaves, b.base.id = j

/-- No base depends on itself. -/
theorem Graph.WellFormed.acyclic (hg : g.WellFormed W) (i : Nat) :
    ¬Relation.TransGen g.Reads i i := by
  have hlt {i j : Nat} (h : Relation.TransGen g.Reads i j) : j < i := by
    induction h with
    | single h =>
      obtain ⟨e, he, rfl, b, hb, rfl⟩ := h
      exact ((hg.entry_sound he).older b hb).2
    | tail _ h ih =>
      obtain ⟨e, he, rfl, b, hb, rfl⟩ := h
      exact Nat.lt_trans ((hg.entry_sound he).older b hb).2 ih
  exact fun h => Nat.lt_irrefl i (hlt h)

/-! ## Refusals -/

/-- An elementwise operation on operands with few enough elements is refused exactly for its code, the
number of its operands, their shapes, or a conversion without a target, unless a number leaves its word,
which none does where shapes are moderate. -/
theorem Buffer.elementwise_refused_iff (hg : g.WellFormed W) {others : List Buffer}
    (hbs : ∀ c ∈ b :: others, W.Lists c ∧ c.shape.Addressable ∧ c.base.shape.Addressable)
    (held : List Buffer) (code : Opcode) (arg : Arg α) :
    ((∃ cause, cause ≠ .movement .overflow
        ∧ ((b.elementwise held code others arg).run g).1 = .error cause)
      ↔ b.Mismatched code others arg)
      ∧ (g.Moderate → (∀ c ∈ b :: others, c.shape.Moderate) →
        ((b.elementwise held code others arg).run g).1 ≠ .error (.movement .overflow)) := by
  have h := Buffer.sat_elementwise hg (fun c hc => (hbs c hc).1) held code arg
  rw [Sat] at h
  rcases hrun : (b.elementwise held code others arg).run g with ⟨cause | c, g'⟩ <;> rw [hrun] at h
  · obtain ⟨-, hrefused⟩ := h
    constructor
    · cases hrefused with
      | mismatched hmismatched hne => exact iff_of_true ⟨cause, hne, rfl⟩ hmismatched
      | unexpressed hmatch hc hunexpressed =>
        obtain ⟨hlist, hshape, hbase⟩ := hbs _ hc
        obtain rfl := hunexpressed.stopped hg hlist hshape hbase
        exact iff_of_false (by rintro ⟨_, hne, ⟨⟩⟩; exact hne rfl) hmatch
      | unformable hmatch =>
        exact iff_of_false (by rintro ⟨_, hne, ⟨⟩⟩; exact hne rfl) hmatch
    · rintro hmoderate hshapes ⟨⟩
      exact hmoderate.not_refused_overflow hg (fun c hc => ⟨(hbs c hc).1, hshapes c hc⟩) hrefused
  · exact ⟨iff_of_false (by rintro ⟨_, -, ⟨⟩⟩) h.1, by rintro - - ⟨⟩⟩

/-! ## Reachable sessions -/

namespace Session

/-- What the graph of a session is like. -/
structure Sound (s : Session α) : Prop where
  /-- Each base and its operation are as they should be. -/
  bases : ∀ e ∈ s.engine.graph.entries, e.Sound s.engine.graph
  /-- The handle on a base covers its storage. -/
  handles : ∀ b, s.Owns b → ∀ e ∈ s.engine.graph.entries, b.id = e.base.id →
    b.base = e.base ∧ b.tracker = .ofShape e.base.shape
  /-- No base depends on itself. -/
  acyclic : ∀ i, ¬Relation.TransGen s.engine.graph.Reads i i
  /-- An elementwise operation on operands with few enough elements is refused only for what it is
  asked, or stopped because a number leaves its word. -/
  refused : ∀ b others, (∀ c ∈ b :: others, s.Owns c ∧ c.shape.Addressable
    ∧ c.base.shape.Addressable) → ∀ held code arg,
      (∃ cause, cause ≠ .movement .overflow
          ∧ ((b.elementwise held code others arg).run s.engine.graph).1 = .error cause)
        ↔ b.Mismatched code others arg
  /-- It is not stopped where shapes are moderate. -/
  unstopped : s.engine.graph.Moderate → ∀ b others, (∀ c ∈ b :: others, s.Owns c
    ∧ c.shape.Moderate) → ∀ held code arg,
      ((b.elementwise held code others arg).run s.engine.graph).1 ≠ .error (.movement .overflow)

/-- Whatever commands a session takes, its graph is sound. -/
theorem Reachable.graph_sound [Lane α] {devices : Registry α} {s : Session α}
    (hs : s.Reachable devices) : s.Sound := by
  obtain ⟨W, hsound⟩ := hs.sound
  have hg := hsound.1.wellFormed
  constructor
  case bases => exact fun e he => hg.entry_sound he
  case handles =>
    intro b hb e he hid
    have hbase := hg.base_listed e.core (mem_cores.mpr ⟨e, he, rfl⟩)
    obtain rfl : b = e.base.buffer := (hb.lists hsound).eq hbase hid
    exact ⟨rfl, rfl⟩
  case acyclic => exact hg.acyclic
  case refused =>
    intro b others hbs held code arg
    refine (Buffer.elementwise_refused_iff hg (fun c hc => ?_) held code arg).1
    obtain ⟨howns, haddressable⟩ := hbs c hc
    exact ⟨howns.lists hsound, haddressable⟩
  case unstopped =>
    intro hmoderate b others hbs held code arg
    have hlists : ∀ c ∈ b :: others, W.Lists c := fun c hc => (hbs c hc).1.lists hsound
    refine (Buffer.elementwise_refused_iff hg (fun c hc => ⟨hlists c hc, ?_, ?_⟩) held code arg).2
      hmoderate fun c hc => (hbs c hc).2
    · exact Tracker.addressable_of_moderate (hbs c hc).2
    · exact Tracker.addressable_of_moderate (hmoderate.base hg (hlists c hc))

/-- The session after a constant was built and negated. -/
def negatedOnes : Session Float :=
  let s := (({} : Session Float).step [] (.define "x" (.constant 1 (.ofNats [2]) .f32 "cpu" {}))).2
  (s.step [] (.define "y" (.elementwise "x" (.unary .neg) [] (.ok .none)))).2

theorem graph_sound_negatedOnes : negatedOnes.Sound := by
  have hs : negatedOnes.Reachable [] := .step (.step .start _) _
  exact Reachable.graph_sound hs

/-- The session after a constant of more elements than signed words can count was negated, and a view
without elements was taken of the result. -/
def overflowed : Session Float :=
  let run (s : Session Float) (c : Command Float) : Session Float := (s.step [] c).2
  let s := run {} (.define "a" (.constant 1 (.ofNats [9223372036854775810]) .f32 "cpu" {}))
  let s := run s (.define "b" (.elementwise "a" (.unary .neg) [] (.ok .none)))
  run s (.define "c" (.move "b" (.shrink [⟨0, 0⟩])))

/-- The view without elements. -/
def emptyView : Buffer :=
  ⟨5, ⟨⟨.ofNats [0], [1], 0, none⟩, []⟩, ⟨4, .ofNats [9223372036854775810], .f32, "cpu", {}⟩⟩

/-- Beyond the signed words a view without elements passes for a dense copy of its base, whose
operation does not take its shape. -/
theorem elementwise_refuses_overflowed :
    overflowed.Reachable [] ∧ overflowed.Owns emptyView ∧ emptyView.shape.isStatic = true
      ∧ emptyView.base.shape.isStatic = true
      ∧ ¬emptyView.Mismatched (.unary .neg) [] (.none : Arg Float)
      ∧ ((emptyView.elementwise overflowed.held (.unary .neg) [] .none).run
          overflowed.engine.graph).1
        = .error (.movement (.elementCount (.ofNats [9223372036854775810]) 9223372036854775810
            (.ofNats [0]) 0)) := by
  refine ⟨?_, ?_, rfl, rfl, ?_, rfl⟩
  · exact .step (.step (.step .start _) _) _
  · exact .held (List.Mem.head _)
  · simp [Buffer.Mismatched, Opcode.isElementwise, Opcode.arity]

end Session

end TensorGraph
