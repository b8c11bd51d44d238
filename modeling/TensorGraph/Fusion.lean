import TensorGraph.Graph.Build
/-!
# Fusion

The producer of a leaf may join the kernel that reads the leaf, and is then computed there.

- `Tree.joinProducer`: the elementwise producer of a reduction's input joins the reduction.
- `Tree.joinReduction`: one reduction, with its own producer, joins the elementwise
  operation that reads it.
-/

namespace TensorGraph

namespace Graph

variable {α : Type}

/-- The operation that joins the reduction which reads `b`: an elementwise one without a result,
read as it is stored and by this reduction only. -/
def producer? (g : Graph α) (held : List Buffer) (b : Buffer) : Option (Tree α) :=
  if g.isRealized b || b.tracker ≠ b.base.tracker || 1 < g.otherReaderCount held b then none
  else (g.op? b).filter fun op => op.codeIs Opcode.isElementwise

/-- Whether the leaf `b` is a reduction that may join the operation which reads it: it has no
result and is read densely and by this operation only. -/
def isJoinable (g : Graph α) (held : List Buffer) (b : Buffer) : Bool :=
  !g.isRealized b && b.isContiguous && (g.op? b).any (fun op => op.codeIs Opcode.isReduce)
    && g.otherReaderCount held b ≤ 1

end Graph

namespace Tree

variable {α : Type}

/-- The reduction `op` with the producer of its input as its source, where that may join. -/
def joinProducer (op : Tree α) (g : Graph α) (held : List Buffer) (fusion : Fusion) : Tree α :=
  match op with
  | .node code arg issuer (.buffer b :: rest) =>
    if !fusion.joinsElementwise then op
    else match g.producer? held b with
      | some producer => .node code arg issuer [producer]
      | none => .node code arg issuer (.buffer b :: rest)
  | _ => op

/-- A reduction that joins the tree which reads it. -/
structure Joined (α : Type) where
  /-- The leaf that reads the reduction. -/
  leaf : Buffer
  /-- The reduction, perhaps with its own producer. -/
  tree : Tree α

/-- The first reduction among the leaves that may join their reader. -/
def joined? (g : Graph α) (held leaves : List Buffer) (fusion : Fusion) : Option (Joined α) :=
  if !fusion.joinsReduction then none
  else do
    let b ← leaves.find? (g.isJoinable held)
    let op ← g.op? b
    return ⟨b, op.joinProducer g held fusion⟩

/-- The shape in which a tree with output shape `output` is evaluated: if the reduction that joins
was reshaped before it was read, the shape of the reduction. -/
def innerShape (output : Shape) : Option (Joined α) → Except Error Shape
  | none => .ok output
  | some a =>
    if a.leaf.shape = a.leaf.base.shape then .ok output
    else if a.leaf.shape ≠ output then .error (.joinedShape a.leaf.shape output)
    else .ok a.leaf.base.shape

/-- The elementwise tree `op` with at most one reduction put in the place of its leaf, and every
other leaf reshaped to the shape in which the tree is evaluated. -/
def joinReduction (op : Tree α) (held : List Buffer) (output : Shape) (fusion : Fusion) :
    Build α (Tree α) := do
  let leaves := op.buffers
  let joined := joined? (← get) held leaves fusion
  let shape ← innerShape output joined
  let others := leaves.filter fun b => joined.all fun a => a.leaf.id ≠ b.id
  let pairs ← others.mapM fun b => do
    return (b.id, Tree.buffer (← b.move (.reshape shape)))
  let reductions := joined.toList.map fun a => (a.leaf.id, a.tree)
  return op.substitute (replacement (reductions ++ pairs))

end Tree

end TensorGraph
