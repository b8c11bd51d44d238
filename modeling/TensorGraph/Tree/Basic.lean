import TensorGraph.Loader
/-!
# Operation trees

An operation tree is an expression over buffers: its inner nodes are operations, and a leaf is a
buffer that is read where it stands. A compiled tree has no buffers left; slot references and
literals stand in their place.

- `Arg`: what a node carries besides its sources.
- `Tree`: the trees. A node remembers the base whose construction issued it, so that an operation
  can be recognized wherever a substitution has put it.
- `Tree.leaves`, `Tree.buffers`: the buffers of a tree, with and without repetition.
- `Tree.substitute`: replaces buffers by trees.
-/

namespace TensorGraph

/-- A read of a kernel input. Slot `0` is the output of the kernel, and slot `i + 1` its input
with index `i`. -/
structure SlotRead where
  /-- The slot. -/
  slot : Nat
  /-- The type that the elements are read as. -/
  dtype : DType
  /-- How positions are found in the slot. -/
  tracker : Tracker
deriving DecidableEq, Repr

/-- A scalar repeated at every visible position. -/
structure Literal (α : Type) where
  /-- The scalar. -/
  value : α
  /-- The type that it is read as. -/
  dtype : DType
  /-- Which positions are visible. -/
  tracker : Tracker

/-- What a node carries besides its sources. -/
inductive Arg (α : Type) where
  /-- Nothing. -/
  | none
  /-- A scalar. -/
  | scalar (value : α)
  /-- The seed of a generator. -/
  | seed (seed : UInt64)
  /-- The target of a conversion. -/
  | target (dtype : DType)
  /-- The output shape of a reduction. -/
  | shape (shape : Shape)
  /-- A read of a kernel input. -/
  | slot (read : SlotRead)
  /-- A literal. -/
  | literal (literal : Literal α)
  /-- A loader. -/
  | loader (loader : Loader α)

namespace Arg

variable {α : Type}

/-- The scalar, if the argument is one. -/
def scalar? : Arg α → Option α
  | scalar value => some value
  | _ => Option.none

/-- The shape, if the argument is one. -/
def shape? : Arg α → Option Shape
  | shape s => some s
  | _ => Option.none

/-- Whether there is no argument. -/
def isNone : Arg α → Bool
  | none => true
  | _ => false

end Arg

/-- An expression over buffers. -/
inductive Tree (α : Type) where
  /-- A buffer. -/
  | buffer (b : Buffer)
  /-- An operation on sources, issued for the base `issuer` if it belongs to one. -/
  | node (code : Opcode) (arg : Arg α) (issuer : Option Nat) (sources : List (Tree α))

namespace Tree

variable {α : Type}

/-- The operation at the root, if the root is no buffer. -/
def code? : Tree α → Option Opcode
  | buffer _ => none
  | node code _ _ _ => some code

/-- The argument at the root. -/
def arg : Tree α → Arg α
  | buffer _ => .none
  | node _ arg _ _ => arg

/-- The trees below the root. -/
def sources : Tree α → List (Tree α)
  | buffer _ => []
  | node _ _ _ sources => sources

/-- The buffer, if the tree is one. -/
def buffer? : Tree α → Option Buffer
  | buffer b => some b
  | node _ _ _ _ => none

/-- Whether the operation at the root satisfies `p`. -/
def codeIs (p : Opcode → Bool) (t : Tree α) : Bool := t.code?.any p

/-- The tree with its root marked as issued for the base `id`. -/
def issuedFor (id : Nat) : Tree α → Tree α
  | buffer b => buffer b
  | node code arg _ sources => node code arg (some id) sources

mutual

/-- The buffers of a tree from left to right, once for each place. -/
def leaves : Tree α → List Buffer
  | buffer b => [b]
  | node _ _ _ sources => leavesAll sources

/-- The buffers of several trees from left to right. -/
def leavesAll : List (Tree α) → List Buffer
  | [] => []
  | t :: ts => leaves t ++ leavesAll ts

end

/-- The buffers of a list that are the first of their number, unless the number is in `seen`. -/
def firstVisits (seen : List Nat) : List Buffer → List Buffer
  | [] => []
  | b :: bs => if b.id ∈ seen then firstVisits seen bs else b :: firstVisits (b.id :: seen) bs

/-- The buffers of a tree in the order of their first visit, each once. -/
def buffers (t : Tree α) : List Buffer := firstVisits [] t.leaves

mutual

/-- The tree with buffers replaced. What replaces a buffer is not searched again. -/
def substitute (m : Nat → Option (Tree α)) : Tree α → Tree α
  | buffer b => (m b.id).getD (buffer b)
  | node code arg issuer sources => node code arg issuer (substituteAll m sources)

/-- Several trees with buffers replaced. -/
def substituteAll (m : Nat → Option (Tree α)) : List (Tree α) → List (Tree α)
  | [] => []
  | t :: ts => substitute m t :: substituteAll m ts

end

/-- The replacement that a list of pairs describes; the first pair of a number counts. -/
def replacement (pairs : List (Nat × Tree α)) (id : Nat) : Option (Tree α) := pairs.lookup id

mutual

/-- The operations of a tree, each before its sources. -/
def nodes : Tree α → List (Tree α)
  | buffer _ => []
  | node code arg issuer sources => node code arg issuer sources :: nodesAll sources

/-- The operations of several trees. -/
def nodesAll : List (Tree α) → List (Tree α)
  | [] => []
  | t :: ts => nodes t ++ nodesAll ts

end

end Tree

end TensorGraph
