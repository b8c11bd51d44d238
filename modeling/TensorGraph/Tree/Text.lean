import TensorGraph.Tree.Basic
/-!
# The text of trees

A tree is written between parentheses: the operation, its argument if it has one, and its sources,
with a space before each. Buffers appear by number.

- `Tree.text`: the text of a tree.
- `Text.record`: a name with fields between braces.
- `Arg.describe`: a longer description of an argument, for messages.
-/

namespace TensorGraph

variable {α : Type} [Lane α]

/-- The text of an argument in a tree. -/
def Arg.text : Arg α → String
  | none => ""
  | scalar value => Lane.text value
  | seed s => s!"seed={s}"
  | target dtype => dtype.name
  | shape s => s.text
  | slot r => s!"{r.slot} {r.dtype} {r.tracker.shape}"
  | literal l => s!"{Lane.text l.value} {l.dtype} {l.tracker.shape}"
  | loader _ => "custom"

mutual

/-- The text of a tree. -/
def Tree.text : Tree α → String
  | .buffer b => s!"buf{b.id}"
  | .node code arg _ sources =>
    "(" ++ code.name ++ (if arg.isNone then "" else " " ++ arg.text) ++ Tree.textAll sources ++ ")"

/-- The texts of several trees, with a space before each. -/
def Tree.textAll : List (Tree α) → String
  | [] => ""
  | t :: ts => " " ++ Tree.text t ++ Tree.textAll ts

end

instance : ToString (Tree α) := ⟨Tree.text⟩

/-- The name of a record and its fields between braces. -/
def Text.record (name : String) (fields : List (String × String)) : String :=
  let fields := fields.map fun (field, text) => field ++ ": " ++ text
  name ++ " \x7b " ++ ", ".intercalate fields ++ " \x7d"

/-- The description of an extent. -/
def Extent.describe : Extent → String
  | static n => s!"Static({n})"
  | symbolic name => s!"Dynamic(DimSymbol({Text.quoted name}))"

/-- The description of a shape. -/
def Shape.describe (s : Shape) : String :=
  Text.record "Shape" [("dims", Text.sequence (s.dims.map Extent.describe))]

/-- The description of a mask. -/
def describeMask : Option (List Span) → String
  | none => "None"
  | some spans =>
    "Some(" ++ Text.sequence (spans.map fun r => s!"({r.start}, {r.stop})") ++ ")"

/-- The description of a view. -/
def View.describe (v : View) : String :=
  Text.record "View" [("shape", v.shape.describe),
    ("strides", Text.sequence (v.strides.map fun s => toString s.toInt)),
    ("offset", toString v.offset.toInt), ("mask", describeMask v.mask),
    ("contiguous", toString v.contiguous)]

/-- The description of a tracker. -/
def Tracker.describe (t : Tracker) : String :=
  Text.record "ShapeTracker" [("views", Text.sequence (t.views.map View.describe))]

/-- The description of an argument. -/
def Arg.describe : Arg α → String
  | none => "None"
  | scalar value => s!"Scalar({Lane.describe value})"
  | seed s => s!"Seed({s})"
  | target dtype => s!"Cast({dtype})"
  | shape s => s!"Shape({s.describe})"
  | slot r =>
    let fields := [("idx", toString r.slot), ("dtype", r.dtype.name), ("st", r.tracker.describe)]
    "Mem(" ++ Text.record "MemBuffer" fields ++ ")"
  | literal l =>
    let fields := [("value", Lane.describe l.value), ("dtype", l.dtype.name),
      ("st", l.tracker.describe)]
    "Const(" ++ Text.record "ConstBuffer" fields ++ ")"
  | loader _ => "Custom(CustomLoader(..))"

end TensorGraph
