import TensorGraph.Device.Backend
/-!
# The interpreter

A backend that keeps everything in host memory and evaluates trees directly. A tree may be
taken over before the interpreter sees it.

- `Backend.interpreter`: the backend.
-/

namespace TensorGraph

/-- Takes over the execution of a tree, or leaves it to the interpreter. -/
abbrev Takeover (α : Type) :=
  Tree α → Buffer → List (Block α) → Option (Except BackendError (Block α))

namespace Backend

variable {α : Type} [Lane α]

/-- Evaluates a tree for an output buffer. A failure says which tree was evaluated for what. -/
def interpret (tree : Tree α) (output : Buffer) (inputs : List (Block α)) :
    Except BackendError (Block α) :=
  match Kernel.run tree output.shape output.dtype inputs with
  | .ok data => .ok (.ofHost data)
  | .error fault =>
    .error (fault.report.addNote
      s!"while computing buf{output.id} {output.shape} {output.dtype} from {tree}")

/-- The backend that evaluates trees over host memory, unless they are taken over. -/
def interpreter (name : String) (capabilities : Capabilities) (counted : Bool)
    (takeover : Takeover α) : Backend α where
  name := name
  capabilities := capabilities
  counted := counted
  upload array _ := .ok (.ofHost array.data)
  allocate size dtype _ := .ok (.ofHost (.ofLanes dtype (Array.replicate size Lane.zero)))
  execute tree output inputs _ := (takeover tree output inputs).getD (interpret tree output inputs)

end Backend

end TensorGraph
