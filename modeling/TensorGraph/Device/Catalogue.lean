import TensorGraph.Device.Interpreter
/-!
# The catalogue of backends

The backends that a session starts with:

- `cpu`: the interpreter;
- `count`: the same with its requests counted, `interp` one that says it does not compile, and
  `finite` one that does not fold scalars that are not finite, both counted too;
- `takeover`: the interpreter with three operations taken over at the root of a tree;
- `broken`: a backend that fails at everything.
-/

namespace TensorGraph

variable {α : Type} [Lane α]

/-- Takes nothing over. -/
def Takeover.never : Takeover α := fun _ _ _ => none

/-- Takes over negation, which becomes a constant, and the sine and the square root, which fail. -/
def Takeover.threeOps (minusOne : α) : Takeover α := fun tree output _ =>
  match tree.code? with
  | some (.unary .neg) => some (.ok (.constant minusOne output.dtype))
  | some (.unary .sin) => some (.error (.execution "no sine unit"))
  | some (.unary .sqrt) => some (.error (.unimplemented "sqrt" "no root unit"))
  | _ => none

/-- The backend that fails at everything. -/
def Backend.broken : Backend α where
  name := "broken-backend"
  upload _ _ := .error (.unimplemented "from_host" "uploads are disabled")
  allocate size dtype _ := .error (.execution s!"no memory for {size} {dtype}")
  execute tree _ inputs _ := .error (.execution s!"{tree} rejected with {inputs.length} input(s)")

/-- The backends that a session starts with. -/
def Registry.catalogue (minusOne : α) : Registry α :=
  [("cpu", .interpreter "cpu" {} false Takeover.never),
    ("count", .interpreter "counting" {} true Takeover.never),
    ("interp", .interpreter "counting" { compiled := false } true Takeover.never),
    ("finite", .interpreter "counting" { foldsNonFinite := false } true Takeover.never),
    ("takeover", .interpreter "cpu" {} false (Takeover.threeOps minusOne)),
    ("broken", .broken)]

end TensorGraph
