import TensorGraph.Kernel.Basic
/-!
# Evaluating kernels

A kernel is evaluated position by position. Every node is rounded to its own element type, so that
a kernel of many operations has the same elements as a chain of kernels of one operation each.

Ranks of positions and numbers of elements are counted without bound here. They are machine words where
the extents of a source that are not zero multiply to less than `2 ^ 64`. A place that cannot be found
inside the words is a fault, which stops the evaluation where the place is looked for.

- `Kernel.find`: the place of a position in an input.
- `Kernel.reads`: the positions of its source that a reduction folds, in order.
- `Kernel.eval`: the element at a position.
- `Kernel.run`: all elements, rounded to the output type.
-/

namespace TensorGraph.Kernel

open scoped CoreArithmetic

variable {α : Type} [Lane α]

/-- The coordinates for step `step` of a reduction from the extents `source` to the extents
`extents`: along folded axes they count the steps, the last axis fastest, and along the others
they are those of `index`. The second component is what of `step` exceeds the folded axes. -/
def stepIndex : (source extents index : List Nat) → Nat → List Nat × Nat
  | n :: source, m :: extents, i :: index, step =>
    let (coords, rest) := stepIndex source extents index step
    if n = m then (i :: coords, rest) else (rest % n :: coords, rest / n)
  | _, _, index, step => (index, step)

/-- The number of elements folded into one by a reduction from the extents `source` to the extents
`extents`. -/
def foldCount (source extents : List Nat) : Nat :=
  (((source.zip extents).filter fun (n, m) => n ≠ m).map Prod.fst).prod

/-- The position that a reduction reads at step `step` for the output position `flat`. -/
def readAt (source extents : List Nat) (flat step : Nat) : Nat :=
  ravel source (stepIndex source extents (unravel extents flat) step).1

/-- The positions that a reduction folds into the output position `flat`, in order. -/
def reads (source extents : List Nat) (flat : Nat) : List Nat :=
  (List.range (foldCount source extents)).map (readAt source extents flat)

/-- The place of a position, or `none` where it is hidden. -/
def find (tracker : Tracker) (flat : Nat) : Except Fault (Option Nat) :=
  (tracker.lookup flat).mapError fun _ => .overflow

/-- The lane at a place of an input. -/
def fetch (inputs : Array (Array α)) (input place : Nat) : Except Fault α :=
  let lanes := inputs.getD input #[]
  match lanes[place]? with
  | some x => .ok x
  | none => .error (.pastEnd (input + 1) place lanes.size)

/-- The element at the row-major position `flat`. Where a condition decides, only the operand that
it chooses is evaluated. -/
def eval (inputs : Array (Array α)) : Kernel α → Nat → Except Fault α
  | read input tracker _ type, flat => do
    match ← find tracker flat with
    | some place => Lane.round type <$> fetch inputs input place
    | none => return Lane.round type Lane.zero
  | literal value tracker _ type, flat => do
    return Lane.round type (if (← find tracker flat).isSome then value else Lane.zero)
  | unary op type x, flat => do
    return Lane.round type (Lane.unary op (← x.eval inputs flat))
  | binary op type x y, flat => do
    return Lane.round type (Lane.binary op (← x.eval inputs flat) (← y.eval inputs flat))
  | ternary .mulAcc type x y z, flat => do
    return Lane.round type
      (Lane.mulAcc (← x.eval inputs flat) (← y.eval inputs flat) (← z.eval inputs flat))
  | ternary .select type x y z, flat => do
    if Lane.isTrue (← x.eval inputs flat) then
      return Lane.round type (← y.eval inputs flat)
    else
      return Lane.round type (← z.eval inputs flat)
  | reduce op extents type x, flat => do
    let total ← (reads x.dims extents flat).foldlM
      (fun acc place => do return Lane.fold op acc (← x.eval inputs place)) (Lane.start op)
    return Lane.round type total

/-- The lanes that a kernel sees of an input: those stored in host memory as they are, those of a
foreign storage as elements of the declared type. -/
def blockLanes (block : Block α) : Except Fault (Array α) :=
  match block.storage with
  | .constant value => .ok #[value]
  | .host data => .ok data.lanes
  | .foreign copy =>
    match copy block.dtype with
    | .ok data => .ok data.lanes
    | .error cause => .error (.storage cause)

/-- Runs the kernel of a tree on the given inputs, for an output of shape `shape` and element type
`dtype`. -/
def run (tree : Tree α) (shape : Shape) (dtype : DType) (inputs : List (Block α)) :
    Except Fault (HostData α) := do
  let count := (← knownDims shape).prod
  let lanes ← inputs.mapM blockLanes
  let kernel ← ofTree inputs.length tree
  if kernel.dims.prod ≠ count then throw (.elementCount kernel.dims.prod count)
  let elements ← (Array.range count).mapM (kernel.eval lanes.toArray)
  return .ofLanes dtype elements

end TensorGraph.Kernel
