import TensorGraph.Lane.Basic
/-!
# Lanes of whole numbers

Where whole numbers are exact, so are their sums, and an integer type rounds to the nearest of its
values: truth values tell zero from the rest, and 32-bit integers clamp.

The carrier `Whole` holds every whole number exactly, and one lane below all of them, from which a
maximum starts. A floating-point type holds every whole number, and an operation that leads out of the
whole numbers passes its operand on.

- `clampInt`: a whole number in the range of 32 bits.
- `ExactLane`: carriers in which whole numbers are exact.
- `Whole`: the lanes.
- The instances `Lane Whole`, `LawfulLane Whole` and `ExactLane Whole`.
-/

namespace TensorGraph

/-- The whole number of 32 bits nearest to `n`. -/
def clampInt (n : Int) : Int := max (-2147483648) (min n 2147483647)

theorem clampInt_clampInt (n : Int) : clampInt (clampInt n) = clampInt n := by
  unfold clampInt
  omega

/-! ## Carriers in which whole numbers are exact -/

/-- The value of an element type nearest to a whole number. -/
def DType.nearest : DType → Int → Int
  | .bool, n => if n = 0 then 0 else 1
  | .i32, n => clampInt n
  | .f32, n => n
  | .f64, n => n

/-- The values of the type are whole numbers. -/
def DType.IsWhole (d : DType) : Prop := d = .i32 ∨ d = .bool

/-- Lanes in which whole numbers and their sums are exact. -/
class ExactLane (α : Type) [Lane α] where
  /-- The lane of a whole number. -/
  ofInt : Int → α
  /-- The whole number of a lane, if it has one. -/
  toInt : α → Int
  /-- Whole numbers have lanes of their own. -/
  toInt_ofInt (n : Int) : toInt (ofInt n) = n
  /-- An integer type rounds whole numbers to the nearest of its values. -/
  round_ofInt {d : DType} (hd : d.IsWhole) (n : Int) : Lane.round d (ofInt n) = ofInt (d.nearest n)
  /-- What is rounded to an integer type is a whole number. -/
  ofInt_toInt {d : DType} (hd : d.IsWhole) (x : α) : ofInt (toInt (Lane.round d x)) = Lane.round d x
  /-- A sum starts from zero. -/
  start_sum : Lane.start .sum = ofInt 0
  /-- A sum of whole numbers is exact. -/
  fold_sum (m n : Int) : Lane.fold .sum (ofInt m) (ofInt n) = ofInt (m + n)
  /-- A maximum starts below all whole numbers. -/
  fold_start_max (n : Int) : Lane.fold .max (Lane.start .max) (ofInt n) = ofInt n
  /-- The maximum of whole numbers is one of them. -/
  fold_max (m n : Int) : Lane.fold .max (ofInt m) (ofInt n) = ofInt (max m n)

variable {α : Type} [Lane α] [ExactLane α]

theorem ExactLane.ofInt_inj {m n : Int} : (ofInt m : α) = ofInt n ↔ m = n :=
  ⟨fun h => by rw [← toInt_ofInt (α := α) m, h, toInt_ofInt], congrArg ofInt⟩

/-- The first step of a reduction gives its operand. -/
theorem ExactLane.fold_start (op : ReduceOp) (n : Int) :
    Lane.fold op (Lane.start op) (ofInt n : α) = ofInt n := by
  cases op with
  | sum => rw [start_sum, fold_sum, Int.zero_add]
  | max => exact fold_start_max n

/-! ## Whole numbers and the lane below them -/

/-- A whole number, or the lane below all of them. -/
inductive Whole where
  /-- The lane below all whole numbers. -/
  | least
  /-- A whole number. -/
  | num (n : Int)
deriving DecidableEq, Repr

namespace Whole

/-- The whole number; the lane below all of them counts as zero. -/
def toInt : Whole → Int
  | least => 0
  | num n => n

/-- The larger of two lanes. -/
def maximum : Whole → Whole → Whole
  | least, y => y
  | x, least => x
  | num m, num n => num (max m n)

/-- The lane of an element type nearest to a lane. -/
def round : DType → Whole → Whole
  | .bool, x => if x = num 0 then num 0 else num 1
  | .i32, least => num (-2147483648)
  | .i32, num n => num (clampInt n)
  | .f32, x => x
  | .f64, x => x

/-- An operation on one lane. -/
def compute : UnaryOp → Whole → Whole
  | .neg, num n => num (-n)
  | _, x => x

/-- An operation on two lanes. -/
def binary : BinaryOp → Whole → Whole → Whole
  | .add, x, y => num (x.toInt + y.toInt)
  | .sub, x, y => num (x.toInt - y.toInt)
  | .mul, x, y => num (x.toInt * y.toInt)
  | .div, x, y => num (x.toInt.tdiv y.toInt)
  | .max, x, y => maximum x y
  | .mod, x, y => num (x.toInt.tmod y.toInt)
  | .cmpLt, x, y => if maximum x y = x then num 0 else num 1

/-- One step of a reduction. -/
def fold : ReduceOp → Whole → Whole → Whole
  | .sum, x, y => num (x.toInt + y.toInt)
  | .max, x, y => maximum x y

/-- The text of a lane. -/
def text : Whole → String
  | least => "-inf"
  | num n => toString n

end Whole

instance : Lane Whole where
  zero := .num 0
  round := Whole.round
  compute := Whole.compute
  binary := Whole.binary
  mulAcc x y z := .num (x.toInt * y.toInt + z.toInt)
  isTrue x := x ≠ .num 0
  start
    | .sum => .num 0
    | .max => .least
  fold := Whole.fold
  sample word := .num word.toNat
  text := Whole.text
  describe := Whole.text

instance : LawfulLane Whole where
  round_round d x := by
    cases d with
    | bool =>
      by_cases hx : x = .num 0
      · rw [hx]
        rfl
      · have hone : Lane.round .bool x = .num 1 := if_neg hx
        rw [hone]
        rfl
    | i32 =>
      cases x with
      | least => decide
      | num n => exact congrArg Whole.num (clampInt_clampInt n)
    | f32 => rfl
    | f64 => rfl

instance : ExactLane Whole where
  ofInt := .num
  toInt := Whole.toInt
  toInt_ofInt _ := rfl
  round_ofInt {d} hd n := by
    rcases hd with rfl | rfl
    · rfl
    · by_cases hn : n = 0
      · rw [hn]
        rfl
      · exact (if_neg (mt Whole.num.inj hn)).trans (congrArg Whole.num (if_neg hn).symm)
  ofInt_toInt {d} hd x := by
    rcases hd with rfl | rfl
    · cases x <;> rfl
    · by_cases hx : x = .num 0
      · rw [hx]
        rfl
      · have hone : Lane.round .bool x = .num 1 := if_neg hx
        rw [hone]
        rfl
  start_sum := rfl
  fold_sum _ _ := rfl
  fold_start_max _ := rfl
  fold_max _ _ := rfl

end TensorGraph
