import TensorGraph.Engine.Basic
import TensorGraph.Random.ChaCha
/-!
# Realizing buffers

To realize a buffer is to run the units of its schedule in order, skipping those whose base has
got a result in the meantime. A unit that loads from other buffers realizes these first, through
schedules of their own, so that realizations nest.

- `Run.runUnit`: one unit, between its two events.
- `Buffer.realize`: the result of the base of a buffer.
- `Buffer.readBack`: the elements of a buffer.
- `Buffer.upload`: a base with the elements of an array.
-/

namespace TensorGraph

open scoped CoreArithmetic

/-- How to realize a buffer while the given handles are alive. -/
abbrev Realizer (α : Type) := (held : List Buffer) → Buffer → Run α (Block α)

namespace Backend

variable {α : Type}

/-- Enters a request in the journal, and turns a failure into an error of the backend, unless arithmetic
has left the words. -/
def ask (b : Backend α) (device : String) (query : Query α) : Run α (Block α) := do
  Run.record (.request device b.counted (.query query))
  let args := Device.args device
  let result := match query with
    | .upload array => b.upload array args
    | .allocate size dtype => b.allocate size dtype args
    | .execute tree output inputs => b.execute tree output inputs args
  match result with
  | .ok block => return block
  | .error cause => throw (Error.backend b.name cause).failure

end Backend

namespace Run

variable {α : Type} [Lane α]

omit [Lane α] in
/-- The extents of a buffer as numbers. -/
def knownDims (b : Buffer) (task : String) : Run α (List Nat) :=
  match b.shape.static? with
  | some dims => return dims
  | none => fail (.symbolic task b.shape)

/-- The elements of a buffer: those of a dense copy, if it does not cover its base densely. -/
def readBack (realize : Realizer α) (held : List Buffer) (b : Buffer) : Run α (HostArray α) := do
  let dims ← knownDims b "reading back"
  let dense ← build b.contiguous
  let block ← realize (b :: held) dense
  ofExcept (block.toArray dims)

/-- Does what a loader says, reading sources back where it asks for them. -/
def follow (realize : Realizer α) (held sources : List Buffer) :
    Script α sources.length → Run α (Block α)
  | .finish block => return block
  | .fail cause => fail cause
  | .panic text => throw (.panic text)
  | .read source next => do
    let read ← attempt (readBack realize held sources[source])
    follow realize held sources (next read)

/-- The result of a custom load: its sources are realized before the loader is called. -/
def callLoader (realize : Realizer α) (held : List Buffer) (output : Buffer) (loader : Loader α)
    (sources : List Buffer) : Run α (Block α) := do
  sources.forM fun source => do
    let _ ← realize held source
  let earlier := (← graph).calls output.base.id
  modifyGraph fun g => g.countCall output.base.id
  record (.request output.device false (.call output sources))
  follow realize held sources (loader.script earlier output sources)

/-- The result of a load. -/
def runLoad (realize : Realizer α) (held : List Buffer) (backend : Backend α) (output : Buffer)
    (op : LoadOp) (tree : Tree α) : Run α (Block α) := do
  match op with
  | .empty =>
    let dims ← knownDims output "EMPTY"
    backend.ask output.device (.allocate dims.prod output.dtype)
  | .rand =>
    let dims ← knownDims output "RAND"
    match tree.arg with
    | .seed seed =>
      let lanes := (ChaCha.words seed dims.prod).map Lane.sample
      let array ← ofExcept (HostArray.ofLanes dims output.dtype lanes)
      backend.ask output.device (.upload array)
    | arg => fail (.noSeed arg.describe)
  | .const =>
    match tree.arg.scalar? with
    | some value =>
      if backend.capabilities.foldsConstants then return .constant value output.dtype
      else backend.ask output.device (.upload (.scalar output.dtype value))
    | none => fail (.noScalar ((← graph).summary output))
  | .copy =>
    match tree.sources.head?.bind Tree.buffer? with
    | some source => backend.ask output.device (.upload (← readBack realize held source))
    | none => fail .noCopySource
  | .custom =>
    match tree.arg with
    | .loader loader => callLoader realize held output loader (tree.sources.filterMap Tree.buffer?)
    | _ => fail .noLoader
  | .contiguous => fail .denseLoad

omit [Lane α] in
/-- The compiled tree of a unit. If a base behind a slot has become a folded constant since the
unit was scheduled, the slots are resolved anew. -/
def compiled (item : Item α) : Run α (Compiled α) := do
  let g ← graph
  if item.slots.any fun slot => (g.foldedScalar? slot).isSome then ofExcept (g.compile item.fused)
  else return ⟨item.tree, item.slots⟩

omit [Lane α] in
/-- The block that a kernel reads through a slot. -/
def slotInput (output slot : Buffer) : Run α (Block α) := do
  let g ← graph
  match g.result? slot with
  | none => fail (.unrealizedInput (g.summary slot) output.id)
  | some block =>
    if block.isKernelInput then return block else fail (.foldedInput (g.summary slot) output.id)

/-- The result of a unit. -/
def execute (devices : Registry α) (realize : Realizer α) (held : List Buffer) (item : Item α) :
    Run α (Block α) := do
  let backend ← ofExcept (devices.find item.output.device)
  match item.load? with
  | some op => runLoad realize held backend item.output op item.tree
  | none =>
    let kernel ← compiled item
    let inputs ← kernel.slots.mapM (slotInput item.output)
    backend.ask item.output.device (.execute kernel.tree item.output inputs)

omit [Lane α] in
/-- Enters the beginning of a unit in the journal. -/
def begin (item : Item α) : Run α UnitRecord := do
  let number := (← get).units + 1
  let context : UnitRecord :=
    { number, output := item.output.id, device := item.output.device, load := item.load?,
      inputs := item.slots.length }
  modify fun e => { e with units := number }
  record (.before context item.tree)
  return context

omit [Lane α] in
/-- Fills in the result of a unit. -/
def finish (item : Item α) (block : Block α) : Run α Unit := do
  if (← graph).isRealized item.output then fail (.realizedTwice item.output.id)
  modifyGraph fun g => g.setResult item.output.base.id block

/-- Runs a unit unless its base has a result. The end of a unit that panics, or whose arithmetic leaves
the words, is not entered in the journal. -/
def runUnit (devices : Registry α) (realize : Realizer α) (held : List Buffer) (item : Item α) :
    Run α Unit := do
  if !(← graph).isRealized item.output then
    let context ← begin item
    match ← attempt (execute devices realize held item) with
    | .ok block =>
      record (.after context none)
      finish item block
    | .error cause =>
      record (.after context (some cause))
      fail cause

/-- Realizes a buffer, with nested realizations up to a depth. -/
def realizeUpTo (devices : Registry α) : Nat → Realizer α
  | 0, _, b => do fail (.unrealized ((← graph).summary b))
  | depth + 1, held, b => do
    if let some block := (← graph).result? b then return block
    let items ← build (b.schedule held)
    let held := b :: held ++ items.flatMap Item.handles
    items.forM (runUnit devices (realizeUpTo devices depth) held)
    let g ← graph
    match g.result? b with
    | some block => return block
    | none => fail (.unrealized (g.summary b))

omit [Lane α] in
/-- A depth that no realization exceeds: a nested realization is for a base that is older than the
one that needs it, or for a dense copy of a view of such a base. -/
def depth : Run α Nat := do return (← graph).next + 1

end Run

namespace Buffer

variable {α : Type} [Lane α]

/-- The result of the base of a buffer, computed unless it is there already. -/
def realize (devices : Registry α) (held : List Buffer) (b : Buffer) : Run α (Block α) := do
  Run.realizeUpTo devices (← Run.depth) held b

/-- The elements of a buffer. -/
def readBack (devices : Registry α) (held : List Buffer) (b : Buffer) : Run α (HostArray α) := do
  Run.readBack (Run.realizeUpTo devices (← Run.depth)) held b

omit [Lane α] in
/-- A base with the elements of an array, and no operation. -/
def upload (devices : Registry α) (array : HostArray α) (device : String) (config : Config) :
    Run α Buffer := do
  let backend ← Run.ofExcept (devices.find device)
  let block ← backend.ask device (.upload array)
  Run.build do
    requireFormable (.ofNats array.shape)
    modifyGet fun g =>
      g.insert none (some block) (.ofNats array.shape) array.dtype device config

end Buffer

end TensorGraph
