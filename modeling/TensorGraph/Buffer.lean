import TensorGraph.Config
import TensorGraph.DType
import TensorGraph.Opcode
import TensorGraph.Text.Quoted
import TensorGraph.Tracker
/-!
# Buffers

A buffer is a handle on a tensor of the graph. It is either a base, which owns an operation and a
result, or a view of one: a tracker over the storage of the base. Bases and views are numbered
from one counter, and the handle on a base carries the number of the base.

- `Base`: what is fixed about a base from the start.
- `Buffer`: a handle, with its tracker.
- `Buffer.Summary`: a description of a buffer and its state, with its text.
-/

namespace TensorGraph

/-- The facts about a base that never change. -/
structure Base where
  /-- The number of the base. -/
  id : Nat
  /-- The shape of its storage. -/
  shape : Shape
  /-- The type of its elements. -/
  dtype : DType
  /-- The device that it lives on. -/
  device : String
  /-- How its operations are merged and split. -/
  config : Config

/-- A handle on a base or on a view of one. -/
structure Buffer where
  /-- The number of the base or view. -/
  id : Nat
  /-- How positions are found in the storage of the base. -/
  tracker : Tracker
  /-- The base. -/
  base : Base

/-- The tracker of the whole storage of a base. -/
def Base.tracker (b : Base) : Tracker := .ofShape b.shape

/-- The handle on a base. -/
def Base.buffer (b : Base) : Buffer := ⟨b.id, b.tracker, b⟩

namespace Buffer

/-- The logical shape. -/
def shape (b : Buffer) : Shape := b.tracker.shape

/-- The type of the elements. -/
def dtype (b : Buffer) : DType := b.base.dtype

/-- The device that the base lives on. -/
def device (b : Buffer) : String := b.base.device

/-- How operations on the buffer are merged and split. -/
def config (b : Buffer) : Config := b.base.config

/-- Whether the handle is one on the base itself. -/
def isBase (b : Buffer) : Bool := b.id = b.base.id

/-- The handle on the base; of a base the same handle. -/
def root (b : Buffer) : Buffer := if b.isBase then b else b.base.buffer

/-- Whether the buffer covers exactly the storage of its base, in row-major order. -/
def isContiguous (b : Buffer) : Bool :=
  b.tracker.contiguous && b.base.tracker.size = b.tracker.size

/-- What a base has to show for itself. -/
inductive State where
  /-- A result with so many elements. -/
  | realized (size : Nat)
  /-- An operation that is still to be done. -/
  | pending (code : Opcode)
  /-- Neither a result nor an operation. -/
  | vacant
deriving DecidableEq, Repr

/-- A description of a buffer and of the state of its base. -/
structure Summary where
  /-- The number of the base or view. -/
  id : Nat
  /-- The logical shape. -/
  shape : Shape
  /-- The type of the elements. -/
  dtype : DType
  /-- The device that the base lives on. -/
  device : String
  /-- The number of the base, for a view. -/
  base : Option Nat
  /-- What the base has to show. -/
  state : State
deriving DecidableEq, Repr

/-- The description of a buffer whose base is in the state `state`. -/
def summary (b : Buffer) (state : State) : Summary where
  id := b.id
  shape := b.shape
  dtype := b.dtype
  device := b.device
  base := if b.isBase then none else some b.base.id
  state := state

namespace State

/-- The text of a state. -/
def text : State → String
  | realized size => s!"realized: {size}"
  | pending code => "op: " ++ code.describe
  | vacant => "op: \"none\""

end State

namespace Summary

/-- The text of a description. -/
def text (s : Summary) : String :=
  s!"LazyBuffer \x7b id: BufferId({s.id}), shape: {s.shape}, dtype: {s.dtype}, device: "
    ++ Text.quoted s.device
    ++ (s.base.elim "" fun id => s!", base: BufferId({id})")
    ++ ", " ++ s.state.text ++ " \x7d"

instance : ToString Summary := ⟨text⟩

end Summary

end Buffer

end TensorGraph
