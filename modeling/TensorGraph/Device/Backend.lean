import TensorGraph.Kernel.Eval
/-!
# Devices

A device is named `backend` or `backend:ordinal`. The part before the colon selects a backend, and
the part after it is passed on to the backend.

The registry stays the same for as long as a program runs, and a backend answers the same request in
the same way each time. So what fails on a device fails there again; only a loader may do otherwise on
a later call.

- `Device.backend`, `Device.args`: the two parts of a device name.
- `Backend`: what a backend can do.
- `Registry`: backends by name.
-/

namespace TensorGraph

namespace Device

/-- The part of a device name before the first colon. -/
def backend (device : String) : String := String.ofList (device.toList.takeWhile (· ≠ ':'))

/-- The part of a device name after the first colon, if there is a colon. -/
def ordinal? (device : String) : Option String :=
  match device.toList.dropWhile (· ≠ ':') with
  | [] => none
  | _ :: rest => some (String.ofList rest)

/-- The arguments that a device name passes to its backend, by name. -/
def args (device : String) : List (String × String) :=
  (ordinal? device).toList.map fun ordinal => ("device", ordinal)

end Device

/-- The arguments of a request to a backend, by name. -/
abbrev DeviceArgs := List (String × String)

/-- What a backend says about itself. -/
structure Capabilities where
  /-- Trees are compiled into kernels, not interpreted against host data. -/
  compiled : Bool := true
  /-- Every scalar, a NaN or an infinity too, may be written into a kernel. -/
  foldsNonFinite : Bool := true
deriving DecidableEq, Repr

/-- Whether a scalar load may become a folded constant. -/
def Capabilities.foldsConstants (c : Capabilities) : Bool := c.compiled && c.foldsNonFinite

/-- What computes and stores on a device. -/
structure Backend (α : Type) where
  /-- The name in error messages. -/
  name : String
  /-- What the backend says about itself. -/
  capabilities : Capabilities := {}
  /-- Whether the requests to the backend are counted. -/
  counted : Bool := false
  /-- Stores an array. -/
  upload : HostArray α → DeviceArgs → Except BackendError (Block α)
  /-- Provides storage for so many elements. -/
  allocate : Nat → DType → DeviceArgs → Except BackendError (Block α)
  /-- Runs a compiled tree for the output buffer on the blocks of its slots. -/
  execute : Tree α → Buffer → List (Block α) → DeviceArgs → Except BackendError (Block α)

/-- Backends by name. -/
abbrev Registry (α : Type) := List (String × Backend α)

namespace Registry

variable {α : Type}

/-- The names of all backends, in alphabetical order. -/
def names (r : Registry α) : List String := (r.map Prod.fst).mergeSort fun a b => a ≤ b

/-- The backend that serves a device. -/
def find (r : Registry α) (device : String) : Except Error (Backend α) :=
  match r.lookup (Device.backend device) with
  | some backend => .ok backend
  | none => .error (.unknownDevice device)

end Registry

end TensorGraph
