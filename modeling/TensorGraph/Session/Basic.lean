import TensorGraph.Engine.Realize
/-!
# Sessions

A session is an engine together with the handles that a user holds: buffers under names, and
schedules under names of their own. What is held decides which readers of a base are alive, and
with it how later operations are merged.

- `Session`: the state.
- `Session.held`: the handles that keep bases and views alive.
- `Act`: a computation on a session that may be refused; what it did until then remains.
-/

namespace TensorGraph

/-- An engine with named buffers and named schedules. -/
structure Session (α : Type) where
  /-- The graph and the journal. -/
  engine : Engine α := {}
  /-- The named buffers. -/
  buffers : List (String × Buffer) := []
  /-- The named schedules. -/
  schedules : List (String × List (Item α)) := []

/-- Why a session does not do what it is asked. -/
inductive Refusal where
  /-- No buffer has the name. -/
  | unknownName (name : String)
  /-- The base of the buffer has no operation. -/
  | noOperation
  /-- The engine failed. -/
  | failed (cause : Failure)
deriving DecidableEq, Repr

/-- A computation on a session that may be refused; what it did until then remains. -/
abbrev Act (α : Type) := ExceptT Refusal (StateM (Session α))

/-- The pairs without those of a key. -/
def forget {β : Type} (name : String) (pairs : List (String × β)) : List (String × β) :=
  pairs.filter fun p => p.1 ≠ name

namespace Session

variable {α : Type}

/-- The handles that the session holds. -/
def held (s : Session α) : List Buffer :=
  s.buffers.map Prod.snd ++ s.schedules.flatMap fun (_, items) => items.flatMap Item.handles

/-- The session with a buffer under a name, which loses its former meaning. -/
def bind (s : Session α) (name : String) (b : Buffer) : Session α :=
  { s with buffers := (name, b) :: forget name s.buffers }

/-- The session without the buffer of a name. -/
def drop (s : Session α) (name : String) : Session α :=
  { s with buffers := forget name s.buffers }

/-- The session with a schedule kept under a name. -/
def keep (s : Session α) (name : String) (items : List (Item α)) : Session α :=
  { s with schedules := (name, items) :: forget name s.schedules }

/-- The session without the schedule of a name. -/
def release (s : Session α) (name : String) : Session α :=
  { s with schedules := forget name s.schedules }

end Session

namespace Act

variable {α β : Type}

/-- The graph as it is now. -/
def graph : Act α (Graph α) := do return (← get).engine.graph

/-- The handles that the session holds now. -/
def held : Act α (List Buffer) := do return (← get).held

/-- The buffer of a name. -/
def buffer (name : String) : Act α Buffer := do
  match (← get).buffers.lookup name with
  | some b => return b
  | none => throw (.unknownName name)

/-- The operation of the base of a buffer. -/
def operation (b : Buffer) : Act α (Tree α) := do
  match (← graph).op? b with
  | some op => return op
  | none => throw .noOperation

/-- A computation of the engine. -/
def engine (r : Run α β) : Act α β := do
  let s ← get
  let (result, engine) := r.run s.engine
  set { s with engine := engine }
  match result with
  | .ok b => return b
  | .error cause => throw (.failed cause)

/-- A computation on the graph. -/
def build (b : Build α β) : Act α β := engine (Run.build b)

/-- The value of a result, or its error. -/
def ofExcept (r : Except Error β) : Act α β := engine (Run.ofExcept r)

end Act

end TensorGraph
