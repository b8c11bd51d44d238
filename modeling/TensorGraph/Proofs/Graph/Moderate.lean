import TensorGraph.Proofs.Graph.Rule
import TensorGraph.Proofs.Tracker.Dense
/-!
# Graphs of moderate shapes

Arithmetic that leaves the words stops building, and nothing else does that a shape with few enough
elements could cause. Where all shapes of a graph are moderate, those of the views of its leaves
included, arithmetic stays inside the words; where its leaves are calm as well, their positions are found.

- `Graph.Moderate`: the bases and the leaves of a graph are of moderate shapes.
- `Graph.Moderate.obeys`: so what is read has tame trackers.
- `Graph.Calm`: the leaves of the graph are calm, too.
- `Buffer.Unexpressed.stopped`, `Graph.Moderate.not_unexpressed`: writing an operand out.
- `Graph.Moderate.not_refused_overflow`: an elementwise operation.
- `Buffer.Roomy.cuts`: the shapes that a reduction cuts axes to.
-/

namespace TensorGraph

open TensorGraph.Graph

variable {α : Type} {W W' : Census} {g g' : Graph α} {b : Buffer} {op : Tree α}

/-- All bases are of moderate shapes, and so are all views of the leaves of their operations. -/
structure Graph.Moderate (g : Graph α) : Prop where
  /-- The shapes of the bases. -/
  bases : ∀ e ∈ g.cores, e.base.shape.Moderate
  /-- The shapes of the leaves. -/
  leaves : ∀ e ∈ g.cores, ∀ b ∈ e.leaves, b.tracker.Moderate

namespace Graph

instance (g : Graph α) : Decidable g.Moderate :=
  decidable_of_iff ((∀ e ∈ g.cores, e.base.shape.Moderate)
      ∧ ∀ e ∈ g.cores, ∀ b ∈ e.leaves, b.tracker.Moderate)
    ⟨fun h => ⟨h.1, h.2⟩, fun h => ⟨h.bases, h.leaves⟩⟩

namespace Moderate

variable (h : g.Moderate) (hg : g.WellFormed W)
include h hg

theorem base (hb : W.Lists b) : b.base.shape.Moderate := by
  obtain ⟨e, he, hbase⟩ := hg.census_base _ _ hb
  exact hbase ▸ h.bases e he

/-- A buffer of moderate shapes has a tame tracker. -/
theorem tame (hb : W.Lists b) (ht : b.tracker.Moderate) : b.tracker.Tame :=
  (hg.over hb).tame (h.base hg hb) ht

theorem obeys : g.Obeys .tame where
  bases := h.bases
  leaves e he b hb := ⟨h.leaves e he b hb, h.tame hg (hg.older_leaf he hb).1 (h.leaves e he b hb)⟩

end Moderate

end Graph

/-! ## Calm graphs -/

/-- A tracker of moderate shapes that hides nothing is calm. -/
theorem Tracker.Moderate.calm {t : Tracker} (ht : t.Moderate) (hbare : t.Bare) : t.Calm :=
  ⟨ht, fun v hv => .inl (hbare v hv)⟩

namespace Graph

/-- All bases are of moderate shapes, and the leaves of their operations are calm. -/
structure Calm (g : Graph α) : Prop where
  /-- The shapes of the bases. -/
  bases : ∀ e ∈ g.cores, e.base.shape.Moderate
  /-- The leaves. -/
  leaves : ∀ e ∈ g.cores, ∀ b ∈ e.leaves, b.tracker.Calm

instance (g : Graph α) : Decidable g.Calm :=
  decidable_of_iff ((∀ e ∈ g.cores, e.base.shape.Moderate)
      ∧ ∀ e ∈ g.cores, ∀ b ∈ e.leaves, b.tracker.Calm)
    ⟨fun h => ⟨h.1, h.2⟩, fun h => ⟨h.bases, h.leaves⟩⟩

theorem Obeys.calm {r : Rule} (h : g.Obeys r) (hr : r.IsCalm) : g.Calm where
  bases e he := hr.moderate (h.bases e he)
  leaves e he b hb := hr _ (h.leaves e he b hb)

theorem Calm.moderate (h : g.Calm) : g.Moderate :=
  ⟨h.bases, fun e he b hb => (h.leaves e he b hb).moderate⟩

/-- A graph of moderate shapes that reads nothing masked is calm. -/
theorem Moderate.calm (h : g.Moderate) (hbare : g.Obeys .bare) : g.Calm :=
  ⟨h.bases, fun e he b hb => (h.leaves e he b hb).calm (hbare.leaves e he b hb)⟩

theorem Calm.obeys (h : g.Calm) : g.Obeys .calm := ⟨h.bases, h.leaves⟩

end Graph

/-- A tame tracker is reshaped to a moderate shape with as many elements. -/
theorem Tracker.Tame.not_stopped {t : Tracker} (ht : t.Tame) {target : Shape}
    (htarget : target.Moderate) {n : Nat} (hsource : t.shape.elements? = some n)
    (hcount : target.elements? = some n) {cause : MovementError} :
    t.reshape target ≠ .error cause := by
  intro hcause
  obtain ⟨dims, rfl, hle⟩ := htarget.exists_dims
  exact (Tracker.reshape_stopped hsource hcount hcause).2 (ht.reshapeFits (by omega))

/-! ## Elementwise operations -/

section Elementwise

variable (hg : g.WellFormed W) (hb : W.Lists b) (hshape : b.shape.Addressable)
  (hbase : b.base.shape.Addressable)
include hg hb hshape hbase

/-- The leaves of an operand that is written out have as many elements as the operand. -/
theorem Buffer.elements?_of_leaf (hdense : b.isContiguous = true) (hop : g.op? b = some op)
    (hcode : op.codeIs Opcode.isElementwise = true) {c : Buffer} (hc : c ∈ op.leaves) :
    c.tracker.shape.elements? = b.shape.elements? := by
  have hleaf : c.shape = b.base.shape := (hg.pointwise_op? hb hop hcode).1.shape_eq hc
  rw [Buffer.elements?_of_isContiguous hdense hshape hbase, ← hleaf]
  rfl

/-- An operand with few enough elements can be written out, unless it is stopped. -/
theorem Buffer.Unexpressed.stopped {cause : MovementError} (h : b.Unexpressed g cause) :
    cause = .overflow := by
  obtain ⟨hdense, -, op, hop, hcode, c, hc, hcause⟩ := h
  have hleaf := Buffer.elements?_of_leaf hg hb hshape hbase hdense hop hcode hc
  obtain ⟨n, hn, -⟩ := hshape
  exact (Tracker.reshape_stopped (hleaf.trans hn) hn hcause).1

end Elementwise

namespace Graph.Moderate

variable (h : g.Moderate) (hg : g.WellFormed W)
include h hg

/-- An operand of a moderate shape can be written out. -/
theorem not_unexpressed (hb : W.Lists b) (hshape : b.shape.Moderate) {cause : MovementError} :
    ¬b.Unexpressed g cause := by
  rintro ⟨hdense, -, op, hop, hcode, c, hc, hcause⟩
  have haddressable := Tracker.addressable_of_moderate hshape
  have hleaf := Buffer.elements?_of_leaf hg hb haddressable
    (Tracker.addressable_of_moderate (h.base hg hb)) hdense hop hcode hc
  obtain ⟨n, hn, -⟩ := haddressable
  have htame := ((h.obeys hg).leaf hg hb hop c hc).2
  exact htame.not_stopped hshape (hleaf.trans hn) hn hcause

/-- An elementwise operation on operands of moderate shapes is not stopped. -/
theorem not_refused_overflow {others : List Buffer}
    (hbs : ∀ c ∈ b :: others, W.Lists c ∧ c.shape.Moderate) {code : Opcode} {arg : Arg α} :
    ¬b.Refused g code others arg (.movement .overflow) := by
  intro hrefused
  cases hrefused with
  | mismatched _ he => exact he rfl
  | unexpressed _ hc hunexpressed =>
    exact absurd hunexpressed (h.not_unexpressed hg (hbs _ hc).1 (hbs _ hc).2)
  | unformable _ hformable => exact absurd (hbs b List.mem_cons_self).2.formable hformable

end Graph.Moderate

/-! ## Reductions -/

/-- The buffer is calm, and the shapes that a reduction gives it are moderate: it has elements, or its
extents leave room for the inner half of an axis without coordinates. -/
structure Buffer.Roomy (b : Buffer) : Prop where
  /-- The views. -/
  calm : b.tracker.Calm
  /-- The shapes that an axis is cut to. -/
  roomy : ∀ old, b.shape.static? = some old → 0 < old.prod ∨ 256 * breadth old ≤ 2 ^ 62

/-- What a moderate shape is folded to is moderate. -/
theorem Shape.Moderate.folded {source target : Shape} (h : source.Moderate)
    (hfold : source.FoldsTo target) : target.Moderate := by
  obtain ⟨old, rfl, hle⟩ := h.exists_dims
  obtain ⟨new, hnew⟩ := hfold.exists_dims (Shape.static?_ofNats old)
  rw [Shape.eq_ofNats hnew, Shape.foldsTo_ofNats] at hfold
  exact ⟨new, hnew, (breadth_fold_le hfold).trans hle⟩

namespace Buffer.Roomy

variable (h : b.Roomy)
include h

theorem splittable (hg : g.Moderate) (hwell : g.WellFormed W) (hb : W.Lists b) : b.Splittable where
  tame := hg.tame hwell hb h.calm.moderate
  roomy old hold := (h.roomy old hold).imp_right (by omega)

/-- Whatever axis is cut, the shapes stay moderate. -/
theorem cuts : Graph.Rule.calm.Cuts b := by
  intro old new s hold hs
  have hcut : breadth (s.dims old [s.divisor]) ≤ 2 ^ 62 := by
    obtain ⟨old', hold', hle⟩ := h.calm.moderate.top
    obtain rfl : old = old' := Option.some.inj (hold.symm.trans hold')
    exact hs.breadth_cut_le hle (h.roomy old hold)
  have hunit : breadth (s.dims old [1]) ≤ 2 ^ 62 :=
    (breadth_fold_le (s.forall₂_inner old)).trans hcut
  exact ⟨⟨_, Shape.static?_ofNats _, hcut⟩, ⟨_, Shape.static?_ofNats _, hunit⟩,
    ⟨_, Shape.static?_ofNats _, s.breadth_unit old ▸ hunit⟩⟩

end Buffer.Roomy

end TensorGraph
