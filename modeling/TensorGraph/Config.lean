import TensorGraph.Arithmetic
/-!
# Configuration

What a tensor carries along to decide how its operations are merged into kernels.

- `Fusion`: how far neighbouring operations are merged.
- `SplitPolicy`: when a reduction is done in two passes.
- `Config`: both together.
-/

namespace TensorGraph

open scoped CoreArithmetic

/-- How far neighbouring operations are merged into one kernel. -/
inductive Fusion where
  /-- Each operation is its own kernel. -/
  | none
  /-- Chains of elementwise operations are one kernel, and the elementwise producer of a reduction
  joins it. -/
  | elementwise
  /-- One reduction, too, joins the elementwise operation that reads it. -/
  | oneReduce
deriving DecidableEq, Repr

namespace Fusion

/-- The fusion of a numeric level; every level above two is the strongest. -/
def ofLevel : Nat → Fusion
  | 0 => none
  | 1 => elementwise
  | _ => oneReduce

/-- The numeric level. -/
def level : Fusion → Nat
  | none => 0
  | elementwise => 1
  | oneReduce => 2

/-- Whether elementwise operations are merged. -/
def joinsElementwise : Fusion → Bool
  | none => false
  | elementwise | oneReduce => true

/-- Whether one reduction is merged into its reader. -/
def joinsReduction : Fusion → Bool
  | oneReduce => true
  | none | elementwise => false

end Fusion

/-- The thresholds from which on a reduction is done in two passes. -/
structure SplitPolicy where
  /-- The least number of elements folded into one. -/
  leastWork : Nat := 32768
  /-- The least common divisor of 256 and the extent of the axis that is split. -/
  leastDivisor : Nat := 16
  /-- The least quotient of divisor and stride of the axis that is split. -/
  leastScore : Float := 0.1

namespace SplitPolicy

/-- The greatest amount of work that a word of 64 bits can name, which no reduction reaches. -/
def disabledWork : Nat := 2 ^ (64 : Nat) - 1

/-- The policy that never splits. -/
def disabled : SplitPolicy := { leastWork := disabledWork }

/-- Whether two policies have the same thresholds. -/
def same (a b : SplitPolicy) : Bool :=
  a.leastWork = b.leastWork && a.leastDivisor = b.leastDivisor && a.leastScore == b.leastScore

end SplitPolicy

/-- What decides how the operations of a tensor are merged and split. -/
structure Config where
  /-- How far operations are merged. -/
  fusion : Fusion := .oneReduce
  /-- When a reduction is done in two passes. -/
  split : SplitPolicy := {}

/-- Whether two configurations decide alike. -/
def Config.same (a b : Config) : Bool := a.fusion = b.fusion && a.split.same b.split

end TensorGraph
