import TensorGraph.Proofs.Graph.Moderate
import TensorGraph.Proofs.Schedule.Lower
/-!
# Lowering where all extents are known

If all extents are known, and shapes have few enough elements, every reduction joins that may, and
every leaf is resolved, unless arithmetic leaves the words, which it does not where shapes are moderate.

- `Buffer.Fuses.lists`: a kernel reads buffers that were handed out.
- `Tree.innerShape_elements?`: the shape in which an elementwise tree is evaluated.
- `Tree.Unjoinable.stopped`, `Tree.not_unjoinable`: a reduction joins, unless it is stopped.
- `Buffer.Fuses.obeys`: what a kernel reads obeys the rules that the graph obeys.
- `Graph.resolveLeaf_ne_error`: a leaf is always resolved.
-/

namespace TensorGraph

open TensorGraph.Graph

variable {α : Type} {W : Census} {g : Graph α} {b : Buffer} {base : Base} {op t : Tree α}
  {output shape : Shape} {joined : Option (Tree.Joined α)}

/-! ## Operations -/

namespace Tree

theorem Form.isComputable (h : op.Form base) :
    op.codeIs (fun c => c.isLoad || c.isElementwise || c.isReduce) = true := by
  cases h with
  | load => rfl
  | pointwise _ hcode =>
    exact codeIs_mono hcode fun _ hcode => by rw [hcode, Bool.or_true, Bool.true_or]
  | reduce => rfl

end Tree

/-- A kernel reads buffers that were handed out. -/
theorem Buffer.Fuses.lists (hg : g.WellFormed W) (hb : W.Lists b)
    (hop : (g.op? b).map b.lowered = some op) (hfuses : b.Fuses W g op t) :
    ∀ c ∈ t.leaves, W.Lists c := by
  obtain ⟨op', hop', rfl⟩ := Option.map_eq_some_iff.mp hop
  have holder := hg.older_base hb hop'
  rw [← leaves_lowered b] at holder
  exact fun c hc => (hfuses.leaves hg (.refl W) holder c hc).1

/-! ## Reductions that join -/

namespace Tree

/-- The shape in which a tree is evaluated is that of the output, or of the reduction that joins. -/
theorem innerShape_eq_ok (h : innerShape output joined = .ok shape) :
    (joined = none ∧ shape = output) ∨ ∃ a, joined = some a ∧ (a.leaf.shape = output →
      shape = a.leaf.base.shape) := by
  rw [innerShape.eq_def] at h
  split at h
  · exact .inl ⟨rfl, (Except.ok.inj h).symm⟩
  · next a =>
    refine .inr ⟨a, rfl, fun houtput => ?_⟩
    split at h
    · next hsame => rw [← Except.ok.inj h, ← houtput, hsame]
    · rw [if_neg (not_not.mpr houtput)] at h
      exact (Except.ok.inj h).symm

/-- With a reduction that joins through a leaf of the shape of the output, it is that of the reduction. -/
theorem shape_eq_of_joined (h : innerShape output joined = .ok shape) {a : Joined α}
    (ha : a ∈ joined) (houtput : a.leaf.shape = output) : shape = a.leaf.base.shape := by
  rcases innerShape_eq_ok h with ⟨hnone, -⟩ | ⟨a', ha', heq⟩
  · rw [hnone] at ha
    cases ha
  · obtain rfl : a' = a := Option.some.inj (ha'.symm.trans ha)
    exact heq houtput

/-- An elementwise tree is evaluated in a shape with as many elements as the output. -/
theorem innerShape_elements? (hpointwise : op.Pointwise output) (houtput : output.Addressable)
    (hbases : ∀ c ∈ op.leaves, c.base.shape.Addressable)
    (hfits : ∀ a ∈ joined, a.leaf ∈ op.leaves ∧ a.Fits g)
    (h : innerShape output joined = .ok shape) : shape.elements? = output.elements? := by
  rcases innerShape_eq_ok h with ⟨-, rfl⟩ | ⟨a, rfl, heq⟩
  · rfl
  · obtain ⟨hleaf, hfits⟩ := hfits a rfl
    have hshape := hpointwise.shape_eq hleaf
    rw [heq hshape, ← Buffer.elements?_of_isContiguous hfits.dense (hshape ▸ houtput) (hbases _ hleaf),
      hshape]

/-- If a reduction does not join, a leaf is stopped on the way to the shape in which the tree is
evaluated, which has as many elements. -/
theorem Unjoinable.stopped (hpointwise : op.Pointwise output) (houtput : output.Addressable)
    (hbases : ∀ c ∈ op.leaves, c.base.shape.Addressable) {e : Error}
    (h : Unjoinable g op output joined e) : e = .movement .overflow
      ∧ ∃ shape, innerShape output joined = .ok shape ∧ ∃ c ∈ op.leaves, ∃ n,
        c.tracker.shape.elements? = some n ∧ shape.elements? = some n
          ∧ c.tracker.reshape shape = .error .overflow := by
  obtain ⟨hfits, herror | ⟨shape, hinner, c, hc, cause, hcause, rfl⟩⟩ := h
  · cases joined with
    | none => cases herror
    | some a =>
      rw [innerShape, if_neg (not_not.mpr (hpointwise.shape_eq (hfits a rfl).1))] at herror
      split at herror <;> cases herror
  · obtain ⟨n, hn, -⟩ := id houtput
    have hsource : c.tracker.shape.elements? = some n := by
      rw [← hn, ← hpointwise.shape_eq hc]
      rfl
    have htarget := (innerShape_elements? hpointwise houtput hbases hfits hinner).trans hn
    obtain ⟨rfl, -⟩ := Tracker.reshape_stopped hsource htarget hcause
    exact ⟨rfl, shape, hinner, c, hc, n, hsource, htarget, hcause⟩

/-- Whatever joins, an elementwise tree is evaluated in the shape of the output or of a base. -/
theorem innerShape_eq_or (h : innerShape output joined = .ok shape) :
    shape = output ∨ ∃ a ∈ joined, shape = a.leaf.base.shape := by
  rw [innerShape.eq_def] at h
  split at h
  · exact .inl (Except.ok.inj h).symm
  · next a =>
    split at h
    · exact .inl (Except.ok.inj h).symm
    · split at h
      · cases h
      · exact .inr ⟨a, rfl, (Except.ok.inj h).symm⟩

/-- Where shapes are moderate, a reduction always joins. -/
theorem not_unjoinable (hpointwise : op.Pointwise output) (houtput : output.Moderate)
    (hop : ∀ c ∈ op.leaves, c.base.shape.Moderate ∧ c.tracker.Tame) {e : Error} :
    ¬Unjoinable g op output joined e := by
  intro hjoin
  obtain ⟨-, shape, hinner, c, hc, n, hsource, htarget, hcause⟩ := hjoin.stopped hpointwise
    (Tracker.addressable_of_moderate houtput)
    fun c hc => Tracker.addressable_of_moderate (hop c hc).1
  have hshape : shape.Moderate := by
    rcases innerShape_eq_or hinner with rfl | ⟨a, ha, rfl⟩
    · exact houtput
    · exact (hop _ (hjoin.fits a ha).1).1
  exact (hop c hc).2.not_stopped hshape hsource htarget hcause

end Tree

/-! ## Kernels that obey a rule -/

section Obeys

variable {r : Rule} (h : g.Obeys r) (hg : g.WellFormed W)
include h hg

theorem Tree.JoinsProducer.obeys (hop : ∀ c ∈ op.leaves, W.Lists c ∧ r.leaves c.tracker)
    (hjoins : JoinsProducer g op t) : ∀ c ∈ t.leaves, r.leaves c.tracker := by
  cases hjoins with
  | alone => exact fun c hc => (hop c hc).2
  | @joined code arg issuer b rest producer _ _ hproducer =>
    intro c hc
    exact h.leaf hg (hop b (by simp)).1 hproducer c (by simpa using hc)

theorem Tree.JoinsReduction.obeys {W' : Census}
    (hop : ∀ c ∈ op.leaves, W.Lists c ∧ r.leaves c.tracker) (houtput : r.bases output)
    (hjoins : op.JoinsReduction W' g output joined shape t) : ∀ c ∈ t.leaves, r.leaves c.tracker := by
  have hshape : r.bases shape := by
    rcases innerShape_eq_or hjoins.inner with rfl | ⟨a, ha, rfl⟩
    · exact houtput
    · exact h.base hg (hop _ (hjoins.fits a ha).1).1
  obtain ⟨m, rfl, hm⟩ := hjoins.replaced
  intro c hc
  obtain ⟨d, hd, hc⟩ := mem_leaves_substitute.mp hc
  rcases hm d hd with ⟨a, ha, rfl, hreduction⟩ | ⟨-, d', hd', -, hmoved⟩
  · obtain ⟨rop, hrop, -, hproducer⟩ := (hjoins.fits a ha).2.tree
    rw [hreduction, Option.getD_some] at hc
    have hleaf := (hop _ hd).1
    refine hproducer.obeys h hg (fun x hx => ⟨(hg.older_base hleaf hrop x hx).1, ?_⟩) c hc
    exact h.leaf hg hleaf hrop x hx
  · rw [hd', Option.getD_some, leaves_buffer, List.mem_singleton] at hc
    subst hc
    exact r.reshape (hop d hd).2 hshape hmoved.tracker

/-- What a kernel reads obeys the rule, reshaped or not. -/
theorem Buffer.Fuses.obeys {W' : Census} (hb : W.Lists b) (hshape : r.bases b.shape)
    (hop : (g.op? b).map b.lowered = some op) (hfuses : b.Fuses W' g op t) :
    ∀ c ∈ t.leaves, r.leaves c.tracker := by
  obtain ⟨op', hop', rfl⟩ := Option.map_eq_some_iff.mp hop
  have hleaves : ∀ c ∈ (b.lowered op').leaves, W.Lists c ∧ r.leaves c.tracker := by
    rw [leaves_lowered]
    exact fun c hc => ⟨(hg.older_base hb hop' c hc).1, h.leaf hg hb hop' c hc⟩
  cases hfuses with
  | pointwise _ hjoins => exact hjoins.obeys h hg hleaves hshape
  | reduce _ hjoins => exact hjoins.obeys h hg hleaves

end Obeys

/-! ## Leaves -/

namespace Graph

variable {slots : List Buffer} {leaf : Buffer}

theorem isConstant_eq_true : g.isConstant b = true
    ↔ ∃ op, g.op? b = some op ∧ op.codeIs (· = .load .const) = true := by
  rw [isConstant]
  cases g.op? b <;> simp

/-- A leaf is resolved if its base has a result or an operation, and a scalar if it is a scalar
load. -/
theorem resolveLeaf_ne_error {e : Error}
    (hscalar : g.isConstant leaf = true → (g.loadedScalar? leaf).isSome = true)
    (hsource : g.op? leaf = none → g.isRealized leaf = true) : g.resolveLeaf slots leaf ≠ .error e := by
  intro herror
  rcases resolveLeaf_eq_error herror with ⟨hconstant, -, hnone⟩ | ⟨hnone, hrealized⟩
  · have hsome := hscalar hconstant
    rw [hnone] at hsome
    cases hsome
  · rw [hsource hnone] at hrealized
    cases hrealized

/-- The slots are the bases of the leaves that do not become literals. -/
theorem mem_slots {leaves : List Buffer} (hleaves : ∀ c ∈ leaves, W.Lists c ∧ W.Lists c.base.buffer)
    {s : Buffer} : s ∈ g.slots leaves ↔ ∃ c ∈ leaves, g.isFolded c = false ∧ s = c.base.buffer := by
  have hroots : ∀ d ∈ (leaves.filter fun b => !g.isFolded b).map Buffer.root, W.Lists d := by
    intro d hd
    obtain ⟨c, hc, rfl⟩ := List.mem_map.mp hd
    obtain ⟨hlist, hbase⟩ := hleaves c (List.mem_filter.mp hc).1
    exact hlist.root_eq hbase ▸ hbase
  rw [slots, Tree.mem_firstVisits_iff fun d hd e he h => (hroots d hd).eq (hroots e he) h]
  constructor
  · intro hs
    obtain ⟨c, hc, rfl⟩ := List.mem_map.mp hs
    obtain ⟨hc, hfolded⟩ := List.mem_filter.mp hc
    obtain ⟨hlist, hbase⟩ := hleaves c hc
    exact ⟨c, hc, by simpa using hfolded, hlist.root_eq hbase⟩
  · rintro ⟨c, hc, hfolded, rfl⟩
    refine List.mem_map.mpr ⟨c, List.mem_filter.mpr ⟨hc, by simpa using hfolded⟩, ?_⟩
    exact (hleaves c hc).1.root_eq (hleaves c hc).2

theorem WellFormed.mem_slots (hg : g.WellFormed W) {leaves : List Buffer}
    (hleaves : ∀ c ∈ leaves, W.Lists c) {s : Buffer} :
    s ∈ g.slots leaves ↔ ∃ c ∈ leaves, g.isFolded c = false ∧ s = c.base.buffer :=
  Graph.mem_slots fun c hc => ⟨hleaves c hc, hg.lists_base (hleaves c hc)⟩

end Graph

end TensorGraph
