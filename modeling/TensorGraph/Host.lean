import TensorGraph.Error
import TensorGraph.Lane.Basic
/-!
# Arrays in host memory

- `HostData`: packed elements of one type.
- `HostArray`: elements under a shape with as many positions.
-/

namespace TensorGraph

open scoped CoreArithmetic

/-- Packed elements of one type. -/
structure HostData (α : Type) where
  /-- The type of the elements. -/
  dtype : DType
  /-- The elements, each as a lane. -/
  lanes : Array α
deriving DecidableEq

namespace HostData

variable {α : Type} [Lane α]

/-- Elements of type `dtype`, each lane rounded to it. -/
def ofLanes (dtype : DType) (lanes : Array α) : HostData α := ⟨dtype, lanes.map (Lane.round dtype)⟩

omit [Lane α] in
/-- The number of elements. -/
def size (d : HostData α) : Nat := d.lanes.size

/-- The elements as elements of type `dtype`. -/
def convert (d : HostData α) (dtype : DType) : HostData α :=
  if d.dtype = dtype then d else ofLanes dtype d.lanes

@[simp] theorem size_ofLanes (dtype : DType) (lanes : Array α) :
    (ofLanes dtype lanes).size = lanes.size := by simp [ofLanes, size]

end HostData

/-- Elements in row-major order under a shape. -/
structure HostArray (α : Type) where
  /-- The extents of the axes. -/
  shape : List Nat
  /-- The elements. -/
  data : HostData α
  /-- There is one element for each position. -/
  size_eq : data.size = shape.prod
deriving DecidableEq

namespace HostArray

variable {α : Type}

/-- The elements under a shape, if their number is right. -/
def ofData (shape : List Nat) (data : HostData α) : Except Error (HostArray α) :=
  if h : data.size = shape.prod then .ok ⟨shape, data, h⟩
  else .error (.dataLength data.size shape)

/-- Lanes rounded to a type under a shape, if their number is right. -/
def ofLanes [Lane α] (shape : List Nat) (dtype : DType) (lanes : Array α) :
    Except Error (HostArray α) :=
  ofData shape (.ofLanes dtype lanes)

/-- The array with the same value at each position. -/
def filled [Lane α] (shape : List Nat) (dtype : DType) (value : α) : HostArray α where
  shape := shape
  data := .ofLanes dtype (Array.replicate shape.prod value)
  size_eq := by simp

/-- The array without axes that holds one value. -/
def scalar [Lane α] (dtype : DType) (value : α) : HostArray α := filled [] dtype value

/-- The type of the elements. -/
def dtype (a : HostArray α) : DType := a.data.dtype

/-- The elements as lanes. -/
def lanes (a : HostArray α) : Array α := a.data.lanes

/-- The number of elements. -/
def size (a : HostArray α) : Nat := a.data.size

/-- The same elements under another shape, if their number is right. -/
def reshape (a : HostArray α) (shape : List Nat) : Except Error (HostArray α) := ofData shape a.data

end HostArray

end TensorGraph
