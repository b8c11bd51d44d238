import TensorGraph.Proofs.Schedule.Plan
import TensorGraph.Proofs.Schedule.Static
/-!
# Slots and leaves

The slots of a kernel are numbered when its base is scheduled. When the kernel runs, a base behind a
slot may have become a folded constant, and the slots are numbered anew. Either way every leaf of the
tree gets what belongs to its base: a literal, or a read of the result among the inputs.

- `Buffer.Resolved`: what stands for a leaf, with the blocks that are passed along.
- `Graph.LinesUp`: trees and inputs that fit together.
- `Graph.linesUp_of_resolve`: resolving lines them up, and they stay so in later graphs.
- `Graph.exists_resolve_again`: slots can be resolved anew once all results are there.
-/

namespace TensorGraph

open TensorGraph.Graph

variable {α : Type} {W W₀ : Census} {g g₀ g' : Graph α} {b : Buffer} {t : Tree α}
  {inputs : List (Block α)} {c : Compiled α} {m : Nat → Option (Tree α)} {block : Block α}

/-! ## Arguments of kernels -/

/-- What stands for the leaf `b` where the blocks `inputs` are passed along. -/
inductive Buffer.Resolved (g : Graph α) (inputs : List (Block α)) (b : Buffer) : Tree α → Prop
  /-- A literal: the folded result of the base, or the scalar of a scalar load. -/
  | literal {value : α} (h : g.foldedScalar? b = some value
      ∨ g.isConstant b = true ∧ g.loadedScalar? b = some value) :
    Resolved g inputs b (.literalOf b value)
  /-- A read of the result of the base. -/
  | read {i : Nat} {block : Block α} (hblock : inputs[i]? = some block)
    (hresult : g.result? b = some block) : Resolved g inputs b (.readOf b i)

/-- The block may be passed along for the slot `s`: it is the result there, and no constant. -/
def Graph.Binds (g : Graph α) (s : Buffer) (block : Block α) : Prop :=
  g.result? s = some block ∧ block.constant? = none

/-- The tree `t` with its leaves replaced by `m` reads the blocks `inputs`. -/
structure Graph.LinesUp (g : Graph α) (t : Tree α) (m : Nat → Option (Tree α))
    (inputs : List (Block α)) : Prop where
  /-- Every leaf is replaced by what belongs to its base. -/
  leaves : ∀ b ∈ t.leaves, ∃ u, m b.id = some u ∧ b.Resolved g inputs u
  /-- Every input is read for some leaf. -/
  used : ∀ i < inputs.length, ∃ b ∈ t.leaves, m b.id = some (.readOf b i)
  /-- No input is a folded constant. -/
  unfolded : ∀ block ∈ inputs, block.constant? = none

namespace Graph

/-! ## Later graphs -/

/-- The base that is found under a number is found later, with its operation and its result. -/
theorem Grows.exists_find? (h : g.Grows g') (hg' : g'.WellFormed W) {id : Nat} {e : Entry α}
    (hfind : g.cores.find? (fun f => f.base.id = id) = some e) :
    ∃ e', g'.cores.find? (fun f => f.base.id = id) = some e' ∧ e'.op = e.op
      ∧ ∀ block, e.result = some block → e'.result = some block := by
  obtain ⟨e', he', hbase, hop, hkept⟩ := h.kept e (List.mem_of_find?_eq_some hfind)
  have hid : e'.base.id = id := by
    rw [hbase]
    simpa using List.find?_some hfind
  exact ⟨e', hid ▸ hg'.find?_eq he', hop, hkept⟩

theorem Grows.op?_eq_some (h : g.Grows g') (hg' : g'.WellFormed W) {op : Tree α}
    (hop : g.op? b = some op) : g'.op? b = some op := by
  rw [op?_eq] at hop ⊢
  obtain ⟨e, hfind, hop⟩ := Option.bind_eq_some_iff.mp hop
  obtain ⟨e', hfind', hsame, -⟩ := h.exists_find? hg' hfind
  exact Option.bind_eq_some_iff.mpr ⟨e', hfind', hsame.trans hop⟩

theorem Grows.result?_eq_some (h : g.Grows g') (hg' : g'.WellFormed W)
    (hblock : g.result? b = some block) : g'.result? b = some block := by
  rw [result?_eq] at hblock ⊢
  obtain ⟨e, hfind, hresult⟩ := Option.bind_eq_some_iff.mp hblock
  obtain ⟨e', hfind', -, hkept⟩ := h.exists_find? hg' hfind
  exact Option.bind_eq_some_iff.mpr ⟨e', hfind', hkept block hresult⟩

theorem Grows.foldedScalar?_eq_some (h : g.Grows g') (hg' : g'.WellFormed W) {value : α}
    (hvalue : g.foldedScalar? b = some value) : g'.foldedScalar? b = some value := by
  obtain ⟨block, hblock, hconstant⟩ := Option.bind_eq_some_iff.mp hvalue
  exact Option.bind_eq_some_iff.mpr ⟨block, h.result?_eq_some hg' hblock, hconstant⟩

theorem Grows.loadedScalar?_eq_some (h : g.Grows g') (hg' : g'.WellFormed W) {value : α}
    (hvalue : g.loadedScalar? b = some value) : g'.loadedScalar? b = some value := by
  obtain ⟨op, hop, hscalar⟩ := Option.bind_eq_some_iff.mp hvalue
  exact Option.bind_eq_some_iff.mpr ⟨op, h.op?_eq_some hg' hop, hscalar⟩

theorem Grows.isConstant_eq_true (h : g.Grows g') (hg' : g'.WellFormed W)
    (hconstant : g.isConstant b = true) : g'.isConstant b = true := by
  obtain ⟨op, hop, hcode⟩ := Graph.isConstant_eq_true.mp hconstant
  exact Graph.isConstant_eq_true.mpr ⟨op, h.op?_eq_some hg' hop, hcode⟩

/-- What becomes a literal goes on doing so. -/
theorem Grows.isFolded_eq_true (h : g.Grows g') (hg' : g'.WellFormed W)
    (hfolded : g.isFolded b = true) : g'.isFolded b = true := by
  rw [isFolded, Bool.or_eq_true] at hfolded ⊢
  refine hfolded.imp (h.isConstant_eq_true hg') fun hscalar => ?_
  obtain ⟨value, hvalue⟩ := Option.isSome_iff_exists.mp hscalar
  rw [h.foldedScalar?_eq_some hg' hvalue]
  rfl

/-- Results are filled in once, so that what has lined up stays so. -/
theorem LinesUp.of_grows (hlines : g.LinesUp t m inputs) (h : g.Grows g') (hg' : g'.WellFormed W) :
    g'.LinesUp t m inputs where
  leaves b hb := by
    obtain ⟨u, hu, hresolved⟩ := hlines.leaves b hb
    refine ⟨u, hu, ?_⟩
    cases hresolved with
    | literal hvalue =>
      refine .literal (hvalue.imp (h.foldedScalar?_eq_some hg') ?_)
      exact fun hload => ⟨h.isConstant_eq_true hg' hload.1, h.loadedScalar?_eq_some hg' hload.2⟩
    | read hblock hresult => exact .read hblock (h.result?_eq_some hg' hresult)
  used := hlines.used
  unfolded := hlines.unfolded

/-! ## Resolving -/

/-- A base is found among slots by its number. -/
theorem findIdx_slots {slots : List Buffer} (hnodup : (slots.map Buffer.id).Nodup) {i : Nat}
    (hi : i < slots.length) : (slots.findIdx fun s => s.id = slots[i].id) = i := by
  rw [List.findIdx_eq hi]
  refine ⟨by simp, fun j hj => ?_⟩
  have hne := List.pairwise_iff_getElem.mp hnodup j i (by simp; omega) (by simpa) hj
  simpa using hne

/-- The slots are the bases of the leaves that do not become literals. -/
theorem mem_slots_of_resolve (hg : g.WellFormed W) (ht : ∀ b ∈ t.leaves, W.Lists b)
    (hc : g.resolve t = .ok c) {s : Buffer} :
    s ∈ c.slots ↔ ∃ b ∈ t.leaves, g.isFolded b = false ∧ s = b.base.buffer := by
  rw [(resolve_eq_ok ht hc).1, hg.mem_slots fun b hb => ht b (Tree.mem_leaves_of_mem_buffers hb)]
  simp only [mem_buffers_of_lists ht]

/-- Whatever graph the tree `t` was resolved in, the results of the slots line up with its leaves. -/
theorem linesUp_of_resolve (hg₀ : g₀.WellFormed W₀) (hleads : Leads W₀ g₀ W g)
    (ht : ∀ b ∈ t.leaves, W₀.Lists b) (hc : g₀.resolve t = .ok c)
    (hinputs : List.Forall₂ g.Binds c.slots inputs) :
    ∃ m, c.tree = t.substitute m ∧ g.LinesUp t m inputs := by
  obtain ⟨hslots, m, htree, hm⟩ := resolve_eq_ok ht hc
  refine ⟨m, htree, ?_⟩
  have hmem {s : Buffer} := mem_slots_of_resolve hg₀ ht hc (s := s)
  have hnodup : (c.slots.map Buffer.id).Nodup := hslots ▸ Tree.nodup_firstVisits [] _
  constructor
  case leaves =>
    intro b hb
    obtain ⟨u, hu, hleaf⟩ := hm b hb
    refine ⟨u, hu, ?_⟩
    rcases resolveLeaf_eq_ok hleaf with ⟨hfolded, value, hvalue, rfl⟩ | ⟨hfolded, rfl⟩
    · rcases Option.or_eq_some_iff.mp hvalue with hscalar | ⟨hnone, hloaded⟩
      · exact .literal (.inl (hleads.grows.foldedScalar?_eq_some hleads.wellFormed hscalar))
      · rw [isFolded, hnone, Option.isSome_none, Bool.or_false] at hfolded
        exact .literal (.inr ⟨hleads.grows.isConstant_eq_true hleads.wellFormed hfolded,
          hleads.grows.loadedScalar?_eq_some hleads.wellFormed hloaded⟩)
    · -- the slots are in the order of the results, so that the index finds the result of the base
      obtain ⟨i, hi, hslot⟩ := List.mem_iff_getElem.mp (hmem.mpr ⟨b, hb, hfolded, rfl⟩)
      have hindex : (c.slots.findIdx fun s => s.id = b.base.id) = i := by
        rw [← findIdx_slots hnodup hi, hslot]
        rfl
      have hi' : i < inputs.length := hinputs.length_eq ▸ hi
      have hresult := (hinputs.get hi hi').1
      rw [List.get_eq_getElem, hslot] at hresult
      rw [hindex]
      exact .read (List.getElem?_eq_getElem hi') hresult
  case used =>
    intro i hi'
    have hi : i < c.slots.length := hinputs.length_eq.symm ▸ hi'
    obtain ⟨b, hb, hfolded, hslot⟩ := hmem.mp (List.getElem_mem hi)
    obtain ⟨u, hu, hleaf⟩ := hm b hb
    refine ⟨b, hb, ?_⟩
    rcases resolveLeaf_eq_ok hleaf with ⟨htrue, -⟩ | ⟨-, rfl⟩
    · rw [hfolded] at htrue
      cases htrue
    · have hindex : (c.slots.findIdx fun s => s.id = b.base.id) = i := by
        rw [← findIdx_slots hnodup hi, hslot]
        rfl
      rw [hu, hindex]
  case unfolded =>
    intro block hblock
    obtain ⟨s, -, -, hunfolded⟩ := exists_of_forall₂_right hinputs hblock
    exact hunfolded

/-- A tree that was resolved can be resolved anew once its leaves have results. -/
theorem exists_resolve_again (hg₀ : g₀.WellFormed W₀) (hleads : Leads W₀ g₀ W g)
    (ht : ∀ b ∈ t.leaves, W₀.Lists b) (hc : g₀.resolve t = .ok c)
    (hrealized : ∀ b ∈ t.leaves, g.isRealized b = true) : ∃ c', g.resolve t = .ok c' := by
  cases hagain : g.resolve t with
  | ok c' => exact ⟨c', rfl⟩
  | error cause =>
    obtain ⟨b, hb, herror⟩ := resolve_eq_error hagain
    obtain ⟨-, m, -, hm⟩ := resolve_eq_ok ht hc
    obtain ⟨u, -, hleaf⟩ := hm b hb
    exfalso
    rcases resolveLeaf_eq_error herror with ⟨hconstant, hfolded, hloaded⟩ | ⟨-, hwaits⟩
    · -- the scalar that the leaf had is still there
      have hop := hleads.op?_eq hg₀ (ht b hb)
      rw [isConstant, hop] at hconstant
      rw [loadedScalar?, hop] at hloaded
      rcases resolveLeaf_eq_ok hleaf with ⟨-, value, hvalue, -⟩ | ⟨hunfolded, -⟩
      · rcases Option.or_eq_some_iff.mp hvalue with hscalar | ⟨-, hscalar⟩
        · have hlater := hleads.grows.foldedScalar?_eq_some hleads.wellFormed hscalar
          cases hfolded.symm.trans hlater
        · cases hloaded.symm.trans hscalar
      · have hconstant : g₀.isConstant b = true := hconstant
        rw [isFolded, hconstant] at hunfolded
        cases hunfolded
    · rw [hrealized b hb] at hwaits
      cases hwaits

end Graph

end TensorGraph
