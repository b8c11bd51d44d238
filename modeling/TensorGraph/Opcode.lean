/-!
# Operation codes

An operation of a tensor graph belongs to one of six disjoint categories: loads, which make a
tensor from nothing or from whole tensors; unary, binary and ternary operations, which work
element by element; reductions along axes; and the two leaves of a compiled kernel.

- `Opcode`: an operation with its category.
- `Opcode.arity`: the number of sources an operation takes, where it is fixed.
- `Opcode.name`: the name in printed trees.
-/

namespace TensorGraph

/-- Operations that produce a tensor without computing it element by element from others. -/
inductive LoadOp where
  /-- Storage whose contents do not matter. -/
  | empty
  /-- Uniform samples from a seeded generator. -/
  | rand
  /-- One scalar. -/
  | const
  /-- A copy of a tensor that lives on another device. -/
  | copy
  /-- A result supplied by a loader. -/
  | custom
  /-- A dense copy of a view. -/
  | contiguous
deriving DecidableEq, Repr

/-- Operations on one element. -/
inductive UnaryOp where
  /-- The element itself. -/
  | noop
  /-- The power of two. -/
  | exp2
  /-- The logarithm to base two. -/
  | log2
  /-- Conversion to another element type. -/
  | cast
  /-- The sine. -/
  | sin
  /-- The square root. -/
  | sqrt
  /-- The reciprocal. -/
  | recip
  /-- The negation. -/
  | neg
deriving DecidableEq, Repr

/-- Operations on two elements. -/
inductive BinaryOp where
  /-- The sum. -/
  | add
  /-- The difference. -/
  | sub
  /-- The product. -/
  | mul
  /-- The quotient. -/
  | div
  /-- The larger of the two. -/
  | max
  /-- The remainder of the division that truncates. -/
  | mod
  /-- One if the first is less than the second, else zero. -/
  | cmpLt
deriving DecidableEq, Repr

/-- Operations on three elements. -/
inductive TernaryOp where
  /-- The product of the first two plus the third. -/
  | mulAcc
  /-- The second where the first is not zero, else the third. -/
  | select
deriving DecidableEq, Repr

/-- Operations that fold all elements along some axes. -/
inductive ReduceOp where
  /-- The sum of the elements. -/
  | sum
  /-- The largest element. -/
  | max
deriving DecidableEq, Repr

/-- The leaves of a compiled kernel. -/
inductive LeafOp where
  /-- Reads an input slot. -/
  | slot
  /-- Repeats a literal. -/
  | literal
deriving DecidableEq, Repr

/-- An operation with its category. -/
inductive Opcode where
  /-- A load. -/
  | load (op : LoadOp)
  /-- An operation on one element. -/
  | unary (op : UnaryOp)
  /-- An operation on two elements. -/
  | binary (op : BinaryOp)
  /-- An operation on three elements. -/
  | ternary (op : TernaryOp)
  /-- A reduction. -/
  | reduce (op : ReduceOp)
  /-- A leaf of a compiled kernel. -/
  | leaf (op : LeafOp)
deriving DecidableEq, Repr

/-- The name of a load. -/
def LoadOp.name : LoadOp → String
  | empty => "EMPTY"
  | rand => "RAND"
  | const => "CONST"
  | copy => "FROM"
  | custom => "CUSTOM"
  | contiguous => "CONTIGUOUS"

/-- The name of a unary operation. -/
def UnaryOp.name : UnaryOp → String
  | noop => "NOOP"
  | exp2 => "EXP2"
  | log2 => "LOG2"
  | cast => "CAST"
  | sin => "SIN"
  | sqrt => "SQRT"
  | recip => "RECIP"
  | neg => "NEG"

/-- The name of a binary operation. -/
def BinaryOp.name : BinaryOp → String
  | add => "ADD"
  | sub => "SUB"
  | mul => "MUL"
  | div => "DIV"
  | max => "MAX"
  | mod => "MOD"
  | cmpLt => "CMPLT"

/-- The name of a ternary operation. -/
def TernaryOp.name : TernaryOp → String
  | mulAcc => "MULACC"
  | select => "WHERE"

/-- The name of a reduction; the maximum is told apart from the binary one. -/
def ReduceOp.name : ReduceOp → String
  | sum => "SUM"
  | max => "RMAX"

/-- The name of a leaf of a compiled kernel. -/
def LeafOp.name : LeafOp → String
  | slot => "MEM"
  | literal => "CONST"

namespace Opcode

/-- Whether the operation works element by element. -/
def isElementwise : Opcode → Bool
  | unary _ | binary _ | ternary _ => true
  | load _ | reduce _ | leaf _ => false

/-- Whether the operation is a reduction. -/
def isReduce : Opcode → Bool
  | reduce _ => true
  | _ => false

/-- Whether the operation is a load. -/
def isLoad : Opcode → Bool
  | load _ => true
  | _ => false

/-- The load, if the operation is one. -/
def load? : Opcode → Option LoadOp
  | load op => some op
  | _ => none

/-- The number of sources that the operation takes; a custom load takes any number. -/
def arity : Opcode → Option Nat
  | unary _ | reduce _ => some 1
  | binary _ => some 2
  | ternary _ => some 3
  | leaf _ => some 0
  | load .copy | load .contiguous => some 1
  | load .empty | load .rand | load .const => some 0
  | load .custom => none

/-- The name of the operation in printed trees and messages. -/
def name : Opcode → String
  | load op => op.name
  | unary op => op.name
  | binary op => op.name
  | ternary op => op.name
  | reduce op => op.name
  | leaf op => op.name

instance : ToString Opcode := ⟨name⟩

/-- The operation spelled with its category, as descriptions of buffers show it. -/
def describe : Opcode → String
  | load .empty => "Load(Empty)"
  | load .rand => "Load(Rand)"
  | load .const => "Load(Const)"
  | load .copy => "Load(From)"
  | load .custom => "Load(Custom)"
  | load .contiguous => "Load(Contiguous)"
  | unary .noop => "Unary(Noop)"
  | unary .exp2 => "Unary(Exp2)"
  | unary .log2 => "Unary(Log2)"
  | unary .cast => "Unary(Cast)"
  | unary .sin => "Unary(Sin)"
  | unary .sqrt => "Unary(Sqrt)"
  | unary .recip => "Unary(Recip)"
  | unary .neg => "Unary(Neg)"
  | binary .add => "Binary(Add)"
  | binary .sub => "Binary(Sub)"
  | binary .mul => "Binary(Mul)"
  | binary .div => "Binary(Div)"
  | binary .max => "Binary(Max)"
  | binary .mod => "Binary(Mod)"
  | binary .cmpLt => "Binary(CmpLt)"
  | ternary .mulAcc => "Ternary(MulAcc)"
  | ternary .select => "Ternary(Where)"
  | reduce .sum => "Reduce(Sum)"
  | reduce .max => "Reduce(Max)"
  | leaf .slot => "Buffer(Mem)"
  | leaf .literal => "Buffer(Const)"

end Opcode

end TensorGraph
