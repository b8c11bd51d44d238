import TensorGraph.Graph.Basic
/-!
# Slots

Before a tree becomes a kernel, its buffers are replaced by what a device understands: literals
for constants, and reads of numbered slots for everything else. All views of one base share a
slot.

- `Graph.isFolded`: whether a buffer becomes a literal.
- `Graph.slots`: the bases that get a slot, in slot order.
- `Graph.resolve`: the compiled tree and its slots.
- `Graph.compile`: the same, stopped where simplifying a tracker leaves the words.
-/

namespace TensorGraph

/-- A tree for a device with the bases behind its slots. -/
structure Compiled (α : Type) where
  /-- The tree, without buffers. -/
  tree : Tree α
  /-- The bases behind the slots from `1` on. -/
  slots : List Buffer

namespace Graph

variable {α : Type}

/-- Whether the base of a buffer is a scalar load. -/
def isConstant (g : Graph α) (b : Buffer) : Bool :=
  (g.op? b).any fun op => op.codeIs (· = .load .const)

/-- The scalar of a base that was realized to a folded constant. -/
def foldedScalar? (g : Graph α) (b : Buffer) : Option α := (g.result? b).bind Block.constant?

/-- The scalar that a scalar load carries. -/
def loadedScalar? (g : Graph α) (b : Buffer) : Option α := (g.op? b).bind fun op => op.arg.scalar?

/-- Whether a buffer becomes a literal. -/
def isFolded (g : Graph α) (b : Buffer) : Bool := g.isConstant b || (g.foldedScalar? b).isSome

/-- The bases of the leaves that do not become literals, in the order of their first visit. -/
def slots (g : Graph α) (leaves : List Buffer) : List Buffer :=
  Tree.firstVisits [] ((leaves.filter fun b => !g.isFolded b).map Buffer.root)

/-- What stands for the leaf `b` in a compiled tree with the given slots. -/
def resolveLeaf (g : Graph α) (slots : List Buffer) (b : Buffer) : Except Error (Tree α) :=
  if g.isFolded b then
    match (g.foldedScalar? b).or (g.loadedScalar? b) with
    | some value =>
      .ok (.node (.leaf .literal) (.literal ⟨value, b.dtype, b.tracker.simplify⟩) none [])
    | none => .error (.noScalar (g.summary b))
  else if (g.op? b).isNone && !g.isRealized b then
    .error (.noSource (g.summary b))
  else
    let slot := slots.findIdx fun s => s.id = b.base.id
    .ok (.node (.leaf .slot) (.slot ⟨slot + 1, b.dtype, b.tracker.simplify⟩) none [])

/-- The tree with its buffers replaced by literals and reads of slots. -/
def resolve (g : Graph α) (tree : Tree α) : Except Error (Compiled α) := do
  let leaves := tree.buffers
  let slots := g.slots leaves
  let pairs ← leaves.mapM fun b => do return (b.id, ← g.resolveLeaf slots b)
  return ⟨tree.substitute (Tree.replacement pairs), slots⟩

/-- Stops at the first leaf that cannot be resolved, or whose tracker cannot be simplified inside the
words. -/
def requireSimple (g : Graph α) (slots : List Buffer) : List Buffer → Except Error Unit
  | [] => .ok ()
  | b :: leaves => do
    let _ ← g.resolveLeaf slots b
    if b.tracker.simplifies then g.requireSimple slots leaves else .error (.movement .overflow)

/-- The tree with its buffers replaced, if all trackers of its leaves can be simplified inside the
words. -/
def compile (g : Graph α) (tree : Tree α) : Except Error (Compiled α) := do
  g.requireSimple (g.slots tree.buffers) tree.buffers
  g.resolve tree

end Graph

end TensorGraph
