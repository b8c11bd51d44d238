import TensorGraph.Tree.Basic
/-!
# The graph

The graph holds what the program knows about every base: its operation, its result once it has
one, and who has registered as a reader. A reader is a view of the base, or another base whose
operation has a leaf on it.

- `Graph.insert`: adds a base and registers it with the bases it reads.
- `Graph.live`: the numbers of the bases and views that some handle keeps alive.
- `Graph.readers`: the live readers of a base.
-/

namespace TensorGraph

/-- What is known about a base. -/
structure Entry (α : Type) where
  /-- The facts that never change. -/
  base : Base
  /-- The operation that computes the base, if it was not uploaded. -/
  op : Option (Tree α)
  /-- The result, once the base is realized. -/
  result : Option (Block α)
  /-- The numbers of the views and bases that registered as readers. -/
  readers : List Nat
  /-- How often the loader of the base was called. -/
  calls : Nat

/-- All bases, the newest first. -/
structure Graph (α : Type) where
  /-- The number of the next base or view. -/
  next : Nat := 1
  /-- The bases, the newest first. -/
  entries : List (Entry α) := []

namespace Graph

variable {α : Type}

/-- The entry of the base with number `id`. -/
def find? (g : Graph α) (id : Nat) : Option (Entry α) := g.entries.find? fun e => e.base.id = id

/-- The graph with the entry of the base `id` changed. -/
def modify (g : Graph α) (id : Nat) (f : Entry α → Entry α) : Graph α :=
  { g with entries := g.entries.map fun e => if e.base.id = id then f e else e }

/-- The operation of the base of a buffer. -/
def op? (g : Graph α) (b : Buffer) : Option (Tree α) := (g.find? b.base.id).bind Entry.op

/-- The result of the base of a buffer. -/
def result? (g : Graph α) (b : Buffer) : Option (Block α) := (g.find? b.base.id).bind Entry.result

/-- Whether the base of a buffer has a result. -/
def isRealized (g : Graph α) (b : Buffer) : Bool := (g.result? b).isSome

/-- The graph with the result of the base `id` filled in. -/
def setResult (g : Graph α) (id : Nat) (block : Block α) : Graph α :=
  g.modify id fun e => { e with result := some block }

/-- The number of earlier calls of the loader of the base `id`. -/
def calls (g : Graph α) (id : Nat) : Nat := ((g.find? id).map Entry.calls).getD 0

/-- The graph after another call of the loader of the base `id`. -/
def countCall (g : Graph α) (id : Nat) : Graph α :=
  g.modify id fun e => { e with calls := e.calls + 1 }

/-- What the base of a buffer has to show. -/
def state (g : Graph α) (b : Buffer) : Buffer.State :=
  match g.result? b, (g.op? b).bind Tree.code? with
  | some block, _ => .realized block.size
  | none, some code => .pending code
  | none, none => .vacant

/-- The description of a buffer. -/
def summary (g : Graph α) (b : Buffer) : Buffer.Summary := b.summary (g.state b)

/-- The graph with `reader` registered as a reader of the base `id`. -/
def register (g : Graph α) (id reader : Nat) : Graph α :=
  g.modify id fun e =>
    if reader ∈ e.readers then e else { e with readers := e.readers ++ [reader] }

/-- Adds a base and returns the handle on it. The base is registered as a reader of every base
that its operation has a leaf on, and its operation is marked as issued for it. -/
def insert (g : Graph α) (op : Option (Tree α)) (result : Option (Block α)) (shape : Shape)
    (dtype : DType) (device : String) (config : Config) : Buffer × Graph α :=
  let base : Base := ⟨g.next, shape, dtype, device, config⟩
  let op := op.map (Tree.issuedFor base.id)
  let g := (op.elim [] Tree.buffers).foldl (fun g leaf => g.register leaf.base.id base.id) g
  (base.buffer, { next := base.id + 1, entries := ⟨base, op, result, [], 0⟩ :: g.entries })

/-- Adds a view of the base of `b` and returns the handle on it. -/
def insertView (g : Graph α) (b : Buffer) (tracker : Tracker) : Buffer × Graph α :=
  let g' := g.register b.base.id g.next
  (⟨g.next, tracker, b.base⟩, { g' with next := g.next + 1 })

/-! ## Liveness -/

end Graph

/-- The numbers of the base and of the view that a handle keeps alive. -/
def Buffer.keepsAlive (b : Buffer) : List Nat := [b.id, b.base.id]

/-- The buffers that the operation of a base holds. -/
def Entry.leaves {α : Type} (e : Entry α) : List Buffer := e.op.elim [] Tree.leaves

namespace Graph

variable {α : Type}

/-- The numbers kept alive by those in `ids`: a live base keeps the leaves of its operation alive.
The entries come newest first, and an operation reads older bases only, so that one pass is
enough. -/
def spread (entries : List (Entry α)) (ids : List Nat) : List Nat :=
  entries.foldl
    (fun ids e => if e.base.id ∈ ids then ids ++ e.leaves.flatMap Buffer.keepsAlive else ids) ids

/-- The numbers of all bases and views that the handles `held` keep alive. -/
def live (g : Graph α) (held : List Buffer) : List Nat :=
  spread g.entries (held.flatMap Buffer.keepsAlive)

/-- The live readers of the base of a buffer. -/
def readers (g : Graph α) (held : List Buffer) (b : Buffer) : List Nat :=
  let live := g.live held
  ((g.find? b.base.id).elim [] Entry.readers).filter (· ∈ live)

/-- The number of live readers of the base of a buffer. -/
def readerCount (g : Graph α) (held : List Buffer) (b : Buffer) : Nat := (g.readers held b).length

/-- The number of live readers of the base of a buffer other than the buffer itself. -/
def otherReaderCount (g : Graph α) (held : List Buffer) (b : Buffer) : Nat :=
  ((g.readers held b).filter (· ≠ b.id)).length

end Graph

end TensorGraph
