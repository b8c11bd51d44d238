import TensorGraph.Graph.Basic
import TensorGraph.Split
/-!
# Building a graph

The operations that add bases and views to a graph. Nothing is computed: a base remembers its
operation, and an elementwise operand that nobody else reads becomes part of the operation of its
reader. An operation that is refused, or stopped by arithmetic that leaves the words, may already have
added views on the way; they stay, and their numbers stay taken.

- `Buffer.move`: a view after a movement.
- `Buffer.load`, `Buffer.constant`: bases from loads.
- `Buffer.elementwise`: an operation element by element.
- `Buffer.reduce`: a reduction, in two passes where the policy asks for it.
- `Buffer.contiguous`: a dense copy of a view.
-/

namespace TensorGraph

/-- A computation on a graph that may be refused; what it did to the graph until then remains. -/
abbrev Build (α : Type) := ExceptT Error (StateM (Graph α))

namespace Buffer

variable {α : Type}

/-- Stops unless a base of that shape can be made inside the words. -/
def requireFormable (shape : Shape) : Build α Unit :=
  if (View.ofShape shape).formable then pure () else throw (.movement .overflow)

/-- Adds a base that some operation computes. -/
def compute (op : Tree α) (shape : Shape) (dtype : DType) (device : String) (config : Config) :
    Build α Buffer := do
  requireFormable shape
  modifyGet fun g => g.insert (some op) none shape dtype device config

/-- The view with the tracker `tracker`; the same handle if that is its tracker already. -/
def withTracker (b : Buffer) (tracker : Tracker) : Build α Buffer :=
  if tracker = b.tracker then pure b else modifyGet fun g => g.insertView b tracker

/-- The view after a movement. -/
def move (b : Buffer) (m : Movement) : Build α Buffer :=
  match b.tracker.move m with
  | .ok tracker => b.withTracker tracker
  | .error cause => throw (.movement cause)

/-- Adds a base with a load as its operation. -/
def load (op : LoadOp) (shape : Shape) (dtype : DType) (device : String) (arg : Arg α)
    (sources : List Buffer) (config : Config) : Build α Buffer := do
  if let some expected := (Opcode.load op).arity then
    if expected ≠ sources.length then throw (.loadSources op expected sources.length)
  compute (.node (.load op) arg none (sources.map .buffer)) shape dtype device config

/-- A scalar repeated to a shape. -/
def constant (value : α) (shape : Shape) (dtype : DType) (device : String) (config : Config) :
    Build α Buffer := do
  let scalar ← load .const .scalar dtype device (.scalar value) [] config
  let ones ← scalar.move (.reshape (.ofNats (List.replicate shape.rank 1)))
  ones.move (.expand shape)

/-- A scalar repeated to the shape of a buffer. -/
def constantLike (b : Buffer) (value : α) : Build α Buffer :=
  constant value b.shape b.dtype b.device b.config

/-- A copy on another device. -/
def copyTo (b : Buffer) (device : String) : Build α Buffer :=
  load .copy b.shape b.dtype device .none [b] b.config

/-- The buffer itself if it covers its base densely, otherwise a dense copy. -/
def contiguous (b : Buffer) : Build α Buffer :=
  if b.isContiguous then pure b
  else load .contiguous b.shape b.dtype b.device .none [b] b.config

/-! ## Elementwise operations -/

/-- The operation of the base in the shape of the buffer: where the two differ, every leaf of
the operation is reshaped. -/
def express (b : Buffer) (op : Tree α) : Build α (Tree α) := do
  if b.shape = b.base.shape then return op
  let pairs ← op.buffers.mapM fun leaf => do
    return (leaf.id, Tree.buffer (← leaf.move (.reshape b.shape)))
  return op.substitute (Tree.replacement pairs)

/-- Whether an operand is written out in the operation that reads it: it is an elementwise
operation without a result, read densely and by nobody else. -/
def isInlinable (b : Buffer) (g : Graph α) (held : List Buffer) (op : Tree α) : Bool :=
  !g.isRealized b && b.isContiguous && op.codeIs Opcode.isElementwise
    && g.otherReaderCount held b = 0

/-- The tree that stands for an operand: its operation if it is inlined, else the buffer. -/
def operand (merge : Bool) (held : List Buffer) (b : Buffer) : Build α (Tree α) := do
  let g ← get
  match g.op? b with
  | some op => if merge && b.isInlinable g held op then b.express op else return .buffer b
  | none => return .buffer b

/-- The trees that stand for operands, from left to right. The views made for one operand are
alive when the next is looked at. -/
def operands (merge : Bool) (held : List Buffer) : List Buffer → Build α (List (Tree α))
  | [] => return []
  | b :: bs => do
    let tree ← operand merge held b
    let trees ← operands merge (held ++ tree.leaves) bs
    return tree :: trees

/-- The element type of an elementwise operation: the target of a conversion, else the widest
type of the operands. -/
def resultType (b : Buffer) (code : Opcode) (operands : List Buffer) (arg : Arg α) :
    Except Error DType :=
  match code, arg with
  | .unary .cast, .target dtype => .ok dtype
  | .unary .cast, _ => .error .castTarget
  | _, _ => .ok ((DType.widest (operands.map Buffer.dtype)).getD b.dtype)

/-- An operation element by element on `b` and `others`, while the handles `held` are alive. -/
def elementwise (held : List Buffer) (b : Buffer) (code : Opcode) (others : List Buffer)
    (arg : Arg α) : Build α Buffer := do
  if !code.isElementwise then throw (.notElementwise code)
  let all := b :: others
  if code.arity ≠ some all.length then throw (.operandCount code all.length)
  if let some other := all.find? fun c => c.shape ≠ b.shape then
    throw (.operandShape code other.shape b.shape)
  let dtype ← resultType b code all arg
  let sources ← operands b.config.fusion.joinsElementwise (held ++ all) all
  compute (.node code arg none sources) b.shape dtype b.device b.config

/-! ## Reductions -/

/-- A reduction in one pass; the buffer itself if nothing is left to fold. -/
def reduceOnce (b : Buffer) (op : ReduceOp) (target : Shape) : Build α Buffer :=
  if target = b.shape then pure b
  else
    compute (.node (.reduce op) (.shape target) none [.buffer b]) target b.dtype b.device b.config

/-- A reduction in two passes. -/
def reduceTwice (b : Buffer) (op : ReduceOp) (target : Shape) (old : List Nat) (s : Split) :
    Build α Buffer := do
  let cut ← b.move (.reshape (s.shape old [s.divisor]))
  let inner ← cut.reduceOnce op (s.shape old [1])
  let outer ← inner.move (.reshape (s.shape old []))
  outer.reduceOnce op target

/-- Stops unless the elements of a reduction can be counted inside the words; those of the source are
counted only if the result has any. -/
def requireCountable (source target : Shape) : Build α Unit :=
  if target.countable && (target.elements? = some 0 || source.countable) then pure ()
  else throw (.movement .overflow)

/-- Folds each axis whose extent is one in `target` and another in the buffer. -/
def reduce (b : Buffer) (op : ReduceOp) (target : Shape) : Build α Buffer := do
  if target.rank ≠ b.shape.rank then throw (.reduceRank target b.shape)
  if (b.shape.dims.zip target.dims).any fun (d, e) => d ≠ e && e ≠ .static 1 then
    throw (.reduceExtent b.shape target)
  if target = b.shape then return b
  match b.shape.static?, target.static? with
  | some old, some new =>
    requireCountable b.shape target
    match b.config.split.choose old new b.tracker.axisStrides with
    | some s => b.reduceTwice op target old s
    | none => b.reduceOnce op target
  | _, _ => b.reduceOnce op target

end Buffer

end TensorGraph
