import TensorGraph.Session.Command
/-!
# Steps of a session

A session takes one command after the other. A refused command leaves the names as they are, but
not the engine: views that it made keep their numbers, and results that it computed stay.

- `Session.step`: the reply to a command, and the session after it.
- `Session.runAll`: the replies to a list of commands.
-/

namespace TensorGraph

variable {α : Type} [Lane α]

/-- The argument, unless it is refused. -/
def Act.argument (arg : Argument α) : Act α (Arg α) := Act.ofExcept (arg.mapError .movement)

/-- Makes a buffer. The further operands are looked up before the buffer that is operated on, and
the argument comes last. -/
def Recipe.make (devices : Registry α) : Recipe α → Act α Buffer
  | upload shape dtype lanes device config => do
    let array ← Act.ofExcept (HostArray.ofLanes shape dtype lanes)
    Act.engine (Buffer.upload devices array device config)
  | constant value shape dtype device config =>
    Act.build (Buffer.constant value shape dtype device config)
  | load op shape dtype device arg sources config => do
    let sources ← sources.mapM Act.buffer
    Act.build (Buffer.load op shape dtype device (← Act.argument arg) sources config)
  | constantLike x value => do
    let b ← Act.buffer x
    Act.build (b.constantLike value)
  | copy x device => do
    let b ← Act.buffer x
    Act.build (b.copyTo device)
  | move x movement => do
    let b ← Act.buffer x
    Act.build (b.move movement)
  | contiguous x => do
    let b ← Act.buffer x
    Act.build b.contiguous
  | root x => do return (← Act.buffer x).root
  | same x => Act.buffer x
  | elementwise x code others arg => do
    let others ← others.mapM Act.buffer
    let b ← Act.buffer x
    Act.build (b.elementwise (← Act.held) code others (← Act.argument arg))
  | reduce x op target => do
    let b ← Act.buffer x
    Act.build (b.reduce op target)

namespace Act

omit [Lane α]

/-- The description of a buffer. -/
def info (b : Buffer) : Act α (Info α) := do
  let g ← graph
  return ⟨b, g.op? b, g.result? b, g.readerCount (← held) b⟩

/-- The number of a leaf with the tree that takes its place. -/
def substitution (entry : Substitution) : Act α (Nat × Tree α) := do
  let leaf ← buffer entry.leaf
  let b ← buffer entry.replacement
  let op := (← graph).op? b
  return (leaf.id, if entry.byOperation then op.getD (.buffer b) else .buffer b)

end Act

/-- Does what a command asks for. -/
def Command.perform (devices : Registry α) : Command α → Act α (Answer α)
  | define name recipe => do
    let b ← recipe.make devices
    modify fun s => s.bind name b
    return .info (← Act.info b)
  | inspect x => do return .info (← Act.info (← Act.buffer x))
  | summarize x => do
    let b ← Act.buffer x
    return .summary ((← Act.graph).summary b)
  | locate x => do return .tracker (← Act.buffer x).tracker
  | drop x => do
    let existed := ((← get).buffers.lookup x).isSome
    modify fun s => s.drop x
    return .dropped existed
  | schedule x name => do
    let b ← Act.buffer x
    let items ← Act.build (b.schedule (← Act.held))
    if let some name := name then modify fun s => s.keep name items
    return .schedule items
  | release name => do
    let existed := ((← get).schedules.lookup name).isSome
    modify fun s => s.release name
    return .dropped existed
  | realize x => do
    let b ← Act.buffer x
    return .block (← Act.engine (b.realize devices (← Act.held)))
  | readBack x => do
    let b ← Act.buffer x
    return .array (← Act.engine (b.readBack devices (← Act.held)))
  | count => do return .tally (← get).engine.tally
  | operation x => do return .operation (← Act.operation (← Act.buffer x))
  | substitute x entries => do
    let op ← Act.operation (← Act.buffer x)
    let pairs ← entries.mapM Act.substitution
    return .substituted op (op.substitute (Tree.replacement pairs.reverse))
  | joinProducer x fusion => do
    let op ← Act.operation (← Act.buffer x)
    return .fused (op.joinProducer (← Act.graph) (← Act.held) fusion)
  | joinReduction x output fusion => do
    let b ← Act.buffer x
    let op ← Act.operation b
    let output := output.getD b.base.shape
    return .fused (← Act.build (op.joinReduction (← Act.held) output fusion))
  | resolve x => do
    let op ← Act.operation (← Act.buffer x)
    return .compiled (← Act.ofExcept ((← Act.graph).compile op))

namespace Session

/-- The reply to a command, and the session after it. -/
def step (devices : Registry α) (s : Session α) (c : Command α) : Reply α × Session α :=
  let (result, s') := (c.perform devices).run s
  let news := s'.engine.journal.drop s.engine.journal.length
  (⟨result, news.filter Event.isTrace⟩, s')

/-- The replies to a list of commands. -/
def runAll (devices : Registry α) (s : Session α) : List (Command α) → List (Reply α)
  | [] => []
  | c :: cs =>
    let (reply, s) := s.step devices c
    reply :: s.runAll devices cs

end Session

end TensorGraph
