import TensorGraph.Device.Backend
import TensorGraph.Schedule
/-!
# The engine

The engine is the state of a running program: the graph, and a journal of what was done. The
journal tells when a unit of work began and how it ended, and which requests backends and loaders
received.

- `Event`: an entry of the journal.
- `Engine`: the state.
- `Run`: a computation on the state that may fail; what it did until then remains.
- `Engine.trace`, `Engine.tally`: the two readings of the journal.
-/

namespace TensorGraph

/-- What is known about a unit of work when it begins. -/
structure UnitRecord where
  /-- The number of the unit; units are numbered from one in the order in which they begin. -/
  number : Nat
  /-- The number of the base that the unit realizes. -/
  output : Nat
  /-- The device that it runs on. -/
  device : String
  /-- The load, if the unit is one. -/
  load : Option LoadOp
  /-- The number of slots of the kernel; none for a load. -/
  inputs : Nat
deriving DecidableEq, Repr

/-- What a backend is asked for. -/
inductive Query (α : Type) where
  /-- To store an array. -/
  | upload (array : HostArray α)
  /-- To provide storage. -/
  | allocate (size : Nat) (dtype : DType)
  /-- To run a tree. -/
  | execute (tree : Tree α) (output : Buffer) (inputs : List (Block α))

/-- A request to a backend or to a loader. -/
inductive Request (α : Type) where
  /-- A backend is asked for something. -/
  | query (query : Query α)
  /-- A loader is called for the result of a base. -/
  | call (output : Buffer) (sources : List Buffer)

/-- An entry of the journal. -/
inductive Event (α : Type) where
  /-- A unit begins; the tree is the one it was scheduled with. -/
  | before (context : UnitRecord) (tree : Tree α)
  /-- A unit ends, with the error if it failed. -/
  | after (context : UnitRecord) (failure : Option Error)
  /-- A backend or a loader receives a request. -/
  | request (device : String) (counted : Bool) (request : Request α)

/-- The state of a running program. -/
structure Engine (α : Type) where
  /-- The graph. -/
  graph : Graph α := {}
  /-- What was done, the first event first. -/
  journal : List (Event α) := []
  /-- The number of units that have begun. -/
  units : Nat := 0

/-- A computation on the state that may fail; what it did until then remains. -/
abbrev Run (α : Type) := ExceptT Failure (StateM (Engine α))

/-- How often the counted backends were asked for what, and the arguments of the last request. -/
structure Tally where
  /-- The number of uploads. -/
  uploads : Nat := 0
  /-- The number of allocations. -/
  allocations : Nat := 0
  /-- The number of executions. -/
  executions : Nat := 0
  /-- The arguments of the last request, if there was one. -/
  latestArgs : Option DeviceArgs := none
deriving DecidableEq, Repr

/-- The tally after another request to the device `device`. -/
def Tally.add {α : Type} (t : Tally) (device : String) (query : Query α) : Tally :=
  let t := { t with latestArgs := some (Device.args device) }
  match query with
  | .upload _ => { t with uploads := t.uploads + 1 }
  | .allocate _ _ => { t with allocations := t.allocations + 1 }
  | .execute _ _ _ => { t with executions := t.executions + 1 }

/-- The tally after an event. -/
def Tally.after {α : Type} (t : Tally) : Event α → Tally
  | .request device true (.query query) => t.add device query
  | _ => t

/-- Whether the event is the beginning or the end of a unit. -/
def Event.isTrace {α : Type} : Event α → Bool
  | .request _ _ _ => false
  | .before _ _ | .after _ _ => true

namespace Engine

variable {α : Type}

/-- The beginnings and ends of units, in order. -/
def trace (e : Engine α) : List (Event α) := e.journal.filter Event.isTrace

/-- The requests to counted backends. -/
def tally (e : Engine α) : Tally := e.journal.foldl Tally.after {}

/-- The state with an event added to the journal. -/
def record (e : Engine α) (event : Event α) : Engine α := { e with journal := e.journal ++ [event] }

end Engine

namespace Run

variable {α β : Type}

/-- Stops with an error. -/
def fail (cause : Error) : Run α β := throw (.error cause)

/-- The value of a result, or a stop with the failure that its error causes. -/
def ofExcept : Except Error β → Run α β
  | .ok b => pure b
  | .error cause => throw cause.failure

/-- A computation on the graph. -/
def build (b : Build α β) : Run α β := do
  let e ← get
  let (result, graph) := b.run e.graph
  set { e with graph := graph }
  ofExcept result

/-- The graph as it is now. -/
def graph : Run α (Graph α) := do return (← get).graph

/-- Adds an event to the journal. -/
def record (event : Event α) : Run α Unit := modify fun e => e.record event

/-- Changes the graph. -/
def modifyGraph (f : Graph α → Graph α) : Run α Unit :=
  modify fun e => { e with graph := f e.graph }

/-- The result of a computation or its error. Nothing else is held up. -/
def attempt (r : Run α β) : Run α (Except Error β) := fun e =>
  match r e with
  | (.ok b, e) => (.ok (.ok b), e)
  | (.error (.error cause), e) => (.ok (.error cause), e)
  | (.error failure, e) => (.error failure, e)

end Run

end TensorGraph
