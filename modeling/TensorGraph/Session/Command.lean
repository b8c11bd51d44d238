import TensorGraph.Session.Basic
/-!
# Commands

What a user may ask of a session. Buffers are spoken of by name.

- `Argument`: what an operation is told beside its operands.
- `Recipe`: how a buffer is made.
- `Command`: a request.
- `Answer`, `Reply`: what comes back.
-/

namespace TensorGraph

/-- An argument as it is asked for: the movements that make its tracker may be refused. -/
abbrev Argument (α : Type) := Except MovementError (Arg α)

/-- How a buffer is made from data, from a load, or from named buffers. -/
inductive Recipe (α : Type) where
  /-- Lanes stored on a device. -/
  | upload (shape : List Nat) (dtype : DType) (lanes : Array α) (device : String) (config : Config)
  /-- A scalar repeated to a shape. -/
  | constant (value : α) (shape : Shape) (dtype : DType) (device : String) (config : Config)
  /-- A load. -/
  | load (op : LoadOp) (shape : Shape) (dtype : DType) (device : String) (arg : Argument α)
    (sources : List String) (config : Config)
  /-- A scalar repeated to the shape of `x`. -/
  | constantLike (x : String) (value : α)
  /-- A copy of `x` on another device. -/
  | copy (x device : String)
  /-- The view of `x` after a movement. -/
  | move (x : String) (movement : Movement)
  /-- The elements of `x` in row-major order. -/
  | contiguous (x : String)
  /-- The base of `x`. -/
  | root (x : String)
  /-- The buffer `x` itself. -/
  | same (x : String)
  /-- An operation element by element on `x` and others. -/
  | elementwise (x : String) (code : Opcode) (others : List String) (arg : Argument α)
  /-- A reduction of `x` to a shape. -/
  | reduce (x : String) (op : ReduceOp) (target : Shape)

/-- What takes the place of a leaf: the operation of a named buffer, or the buffer itself. -/
structure Substitution where
  /-- The name of the leaf. -/
  leaf : String
  /-- The name of what takes its place. -/
  replacement : String
  /-- Whether the operation takes its place, if there is one. -/
  byOperation : Bool
deriving DecidableEq, Repr

/-- A request to a session. -/
inductive Command (α : Type) where
  /-- Makes a buffer and gives it a name. -/
  | define (name : String) (recipe : Recipe α)
  /-- Describes a buffer. -/
  | inspect (x : String)
  /-- Describes a buffer in short. -/
  | summarize (x : String)
  /-- Shows how a buffer finds its elements. -/
  | locate (x : String)
  /-- Lets a buffer go. -/
  | drop (x : String)
  /-- Lists the units that realize a buffer, and keeps them under a name. -/
  | schedule (x : String) (keep : Option String)
  /-- Lets a schedule go. -/
  | release (name : String)
  /-- Realizes the base of a buffer. -/
  | realize (x : String)
  /-- Reads the elements of a buffer back. -/
  | readBack (x : String)
  /-- Counts the requests to the counted devices. -/
  | count
  /-- Shows the operation of a buffer. -/
  | operation (x : String)
  /-- Shows the operation of a buffer with leaves replaced; of two entries for one leaf, the later
  counts. -/
  | substitute (x : String) (entries : List Substitution)
  /-- Shows the operation of a buffer as a reduction that its producer has joined. -/
  | joinProducer (x : String) (fusion : Fusion)
  /-- Shows the operation of a buffer as an elementwise one that a reduction has joined; the shape
  is that of the base unless another is given. -/
  | joinReduction (x : String) (output : Option Shape) (fusion : Fusion)
  /-- Shows the compiled operation of a buffer. -/
  | resolve (x : String)

/-- The description of a buffer. -/
structure Info (α : Type) where
  /-- The buffer. -/
  buffer : Buffer
  /-- The operation of its base. -/
  op : Option (Tree α)
  /-- The result of its base. -/
  result : Option (Block α)
  /-- The number of live readers of its base. -/
  readers : Nat

/-- What a session answers to a request that it meets. -/
inductive Answer (α : Type) where
  /-- The description of a buffer. -/
  | info (info : Info α)
  /-- A short description of a buffer. -/
  | summary (summary : Buffer.Summary)
  /-- How a buffer finds its elements. -/
  | tracker (tracker : Tracker)
  /-- Whether there was something to let go. -/
  | dropped (existed : Bool)
  /-- The units that realize a buffer. -/
  | schedule (items : List (Item α))
  /-- The result of a base. -/
  | block (block : Block α)
  /-- The elements of a buffer. -/
  | array (array : HostArray α)
  /-- The requests to the counted devices. -/
  | tally (tally : Tally)
  /-- An operation. -/
  | operation (tree : Tree α)
  /-- An operation before and after its leaves were replaced. -/
  | substituted (before after : Tree α)
  /-- An operation with the producers that have joined it. -/
  | fused (tree : Tree α)
  /-- A compiled operation. -/
  | compiled (compiled : Compiled α)

/-- What comes back for a request: an answer or a refusal, and what the engine ran meanwhile. -/
structure Reply (α : Type) where
  /-- The answer, if the request was met. -/
  result : Except Refusal (Answer α)
  /-- The beginnings and ends of the units that ran. -/
  trace : List (Event α)

end TensorGraph
