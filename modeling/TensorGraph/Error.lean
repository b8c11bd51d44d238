import TensorGraph.Buffer
/-!
# Errors

Everything that can go wrong, as a cause with its data. The wording is in `Error.message`, and
`Error.kind` groups the causes.

- `BackendError`: a device refuses or fails a request.
- `Error`: a failure of building, scheduling or realizing.
- `Failure`: an error, or what nothing handles: a panic, or arithmetic that leaves the words.
- `Error.failure`: the failure that an error causes.
-/

namespace TensorGraph

/-- Why a device did not do what was asked. -/
inductive BackendError where
  /-- The device has no way to do it. -/
  | unimplemented (op reason : String)
  /-- The device tried and failed. -/
  | execution (detail : String)
  /-- Arithmetic left the words on the device. -/
  | overflow
deriving DecidableEq, Repr

namespace BackendError

/-- The text of a device's failure. -/
def message : BackendError → String
  | unimplemented op reason => s!"{op} is not implemented: {reason}"
  | execution detail => s!"backend execution failure: {detail}"
  | overflow => "arithmetic overflow"

/-- The failure with a note added to its text. -/
def addNote (note : String) : BackendError → BackendError
  | unimplemented op reason => unimplemented op s!"{reason} ({note})"
  | execution detail => execution s!"{detail} ({note})"
  | overflow => overflow

end BackendError

/-- Why a tensor could not be built, scheduled or realized. -/
inductive Error where
  /-- A movement is refused. -/
  | movement (cause : MovementError)
  /-- A load is given another number of sources than it takes. -/
  | loadSources (op : LoadOp) (expected given : Nat)
  /-- An operation does not work element by element. -/
  | notElementwise (code : Opcode)
  /-- An elementwise operation is given another number of operands than it takes. -/
  | operandCount (code : Opcode) (given : Nat)
  /-- An operand has another shape than the first. -/
  | operandShape (code : Opcode) (operand first : Shape)
  /-- A conversion names no target type. -/
  | castTarget
  /-- A reduction changes the number of axes. -/
  | reduceRank (output input : Shape)
  /-- A reduction changes an extent to something other than one. -/
  | reduceExtent (input output : Shape)
  /-- A reshaped reduction is read in another shape than the kernel writes. -/
  | joinedShape (read written : Shape)
  /-- A base without a result has no operation either. -/
  | noOperation (base : Buffer.Summary)
  /-- An operation that no base can have. -/
  | notComputable (code : Opcode)
  /-- A base depends on one that was built after it. -/
  | outOfOrder (base : Nat)
  /-- A constant without a scalar. -/
  | noScalar (leaf : Buffer.Summary)
  /-- A leaf with neither an operation nor a result. -/
  | noSource (leaf : Buffer.Summary)
  /-- A random load without a seed. -/
  | noSeed (given : String)
  /-- A copy without a source. -/
  | noCopySource
  /-- A custom load without a loader. -/
  | noLoader
  /-- A dense copy that was not lowered to a kernel. -/
  | denseLoad
  /-- An input of a kernel has no result. -/
  | unrealizedInput (input : Buffer.Summary) (output : Nat)
  /-- An input of a kernel is a folded constant. -/
  | foldedInput (input : Buffer.Summary) (output : Nat)
  /-- A base received a second result. -/
  | realizedTwice (base : Nat)
  /-- A schedule ended without the result it is for. -/
  | unrealized (buffer : Buffer.Summary)
  /-- A task needs known extents. -/
  | symbolic (task : String) (shape : Shape)
  /-- No device of that name exists. -/
  | unknownDevice (device : String)
  /-- A device failed. -/
  | backend (name : String) (cause : BackendError)
  /-- Storage could not be read. -/
  | storage (cause : BackendError)
  /-- Data of another length than the shape asks for. -/
  | dataLength (given : Nat) (shape : List Nat)
  /-- A result is read in a shape with another number of elements. -/
  | readLength (size : Nat) (shape : List Nat)
  /-- A loader reports an error of its own. -/
  | loader (text : String)
deriving DecidableEq, Repr

/-- The groups of causes that callers tell apart. -/
inductive Error.Kind where
  /-- A malformed argument or an inconsistent graph. -/
  | invariantViolation
  /-- A symbolic extent where a known one is needed. -/
  | unsupportedShape
  /-- A leaf that is neither a constant nor a reference to storage. -/
  | unhandledLeaf
  /-- A device that does not exist. -/
  | unknownDevice
  /-- A failure of a device. -/
  | backend (cause : BackendError)
  /-- A failure of a storage. -/
  | storage (cause : BackendError)
  /-- Anything else. -/
  | other
deriving DecidableEq, Repr

namespace Error

/-- The group of a cause. -/
def kind : Error → Kind
  | movement cause => if cause.isSymbolic then .unsupportedShape else .invariantViolation
  | symbolic _ _ => .unsupportedShape
  | noScalar _ | noSource _ => .unhandledLeaf
  | unknownDevice _ => .unknownDevice
  | backend _ cause => .backend cause
  | storage cause => .storage cause
  | dataLength _ _ | readLength _ _ | loader _ => .other
  | _ => .invariantViolation

/-- What a cause says, without the group it belongs to. -/
def detail : Error → String
  | movement cause => cause.detail
  | loadSources op expected given => s!"{op.name} load takes {expected} source(s), got {given}"
  | notElementwise code => s!"{code} is not an elementwise op"
  | operandCount code given =>
    let arity := code.arity.elim "None" fun n => s!"Some({n})"
    s!"{code} takes {arity} operand(s), got {given}"
  | operandShape code operand first => s!"{code} operand shape {operand} does not match {first}"
  | castTarget => "CAST needs a target dtype"
  | reduceRank output input => s!"reduce output {output} must keep the rank of {input}"
  | reduceExtent input output => s!"cannot reduce {input} to {output}"
  | joinedShape read written =>
    s!"absorbed reduce is read as {read} but the kernel writes {written}"
  | noOperation base => s!"unrealized base {base} has no operation"
  | notComputable code => s!"{code} cannot be the operation of a buffer"
  | outOfOrder base => s!"buf{base} depends on a later base"
  | noScalar leaf => s!"constant {leaf} carries no scalar value"
  | noSource leaf => s!"{leaf} has neither an operation nor a result"
  | noSeed given => s!"RAND load needs a seed, got {given}"
  | noCopySource => "FROM load has no source buffer"
  | noLoader => "CUSTOM load has no loader"
  | denseLoad => "CONTIGUOUS reached the realizer without being lowered"
  | unrealizedInput input output => s!"input {input} of buf{output} is unrealized"
  | foldedInput input output => s!"input {input} of buf{output} is not a kernel argument"
  | realizedTwice base => s!"buf{base} was realized twice"
  | unrealized buffer => s!"schedule left {buffer} unrealized"
  | symbolic task shape => s!"unsupported shape {shape}: {task} needs static dimensions"
  | unknownDevice device => "no backend registered for device \x60" ++ device ++ "\x60"
  | backend name cause => "backend \x60" ++ name ++ "\x60 failed: " ++ cause.message
  | storage cause => cause.message
  | dataLength given shape =>
    s!"host data length ({given}) does not match shape {Text.numbers shape}"
  | readLength size shape =>
    s!"cannot read {size} elements back as shape {Text.numbers shape}"
  | loader text => text

/-- The text of a cause. Malformed arguments and unhandled leaves are announced as such. -/
def message (e : Error) : String :=
  match e.kind with
  | .invariantViolation => "invariant violation: " ++ e.detail
  | .unhandledLeaf => "unhandled buffer kind: " ++ e.detail
  | _ => e.detail

/-- The text of a cause followed by that of what caused it. -/
def trail : Error → String
  | e@(backend _ cause) => e.message ++ ": " ++ cause.message
  | e => e.message

end Error

/-- How a realization ends early. -/
inductive Failure where
  /-- An error, which a loader may handle. -/
  | error (cause : Error)
  /-- A panic of a loader, which nothing handles. -/
  | panic (text : String)
  /-- Arithmetic that leaves the words, which nothing handles either. -/
  | overflow
deriving DecidableEq, Repr

/-- The failure that an error causes: nothing handles it where arithmetic leaves the words. -/
def Error.failure : Error → Failure
  | .movement .overflow | .backend _ .overflow | .storage .overflow => .overflow
  | cause => .error cause

end TensorGraph
