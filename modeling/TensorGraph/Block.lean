import TensorGraph.Host
/-!
# Blocks

A block is what realizing a base leaves behind: elements in some storage, or a folded constant
that takes none.

- `Storage`: where the elements are.
- `Block`: a storage with its declared size and element type.
- `Block.toArray`: reads a block back under a shape.
-/

namespace TensorGraph

open scoped CoreArithmetic

/-- Where the elements of a block are. -/
inductive Storage (α : Type) where
  /-- Nowhere: the block is one scalar. -/
  | constant (value : α)
  /-- In host memory. -/
  | host (data : HostData α)
  /-- On a device that gives them out as elements of the type asked for. -/
  | foreign (read : DType → Except BackendError (HostData α))

/-- The result of realizing a base. -/
structure Block (α : Type) where
  /-- The declared number of elements. -/
  size : Nat
  /-- The declared type of the elements. -/
  dtype : DType
  /-- Where the elements are. -/
  storage : Storage α

namespace Block

variable {α : Type}

/-- A folded constant. -/
def constant (value : α) (dtype : DType) : Block α := ⟨1, dtype, .constant value⟩

/-- The block of elements in host memory. -/
def ofHost (data : HostData α) : Block α := ⟨data.size, data.dtype, .host data⟩

/-- The scalar of a folded constant. -/
def constant? (b : Block α) : Option α :=
  match b.storage with
  | .constant value => some value
  | _ => none

/-- Whether the block can be passed to a kernel, which a folded constant cannot. -/
def isKernelInput (b : Block α) : Bool := b.constant?.isNone

/-- Whether the elements are in host memory. -/
def inHostMemory (b : Block α) : Bool :=
  match b.storage with
  | .host _ => true
  | _ => false

/-- The elements as elements of the declared type. -/
def read [Lane α] (b : Block α) : Except BackendError (HostData α) :=
  match b.storage with
  | .constant value => .ok (.ofLanes b.dtype #[value])
  | .host data => .ok (data.convert b.dtype)
  | .foreign read => read b.dtype

/-- The elements under a shape with as many positions. -/
def toArray [Lane α] (b : Block α) (shape : List Nat) : Except Error (HostArray α) := do
  if shape.prod ≠ b.size then throw (.readLength b.size shape)
  match b.read with
  | .ok data => HostArray.ofData shape data
  | .error cause => throw (.storage cause)

end Block

end TensorGraph
