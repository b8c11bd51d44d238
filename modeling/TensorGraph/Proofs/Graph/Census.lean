import TensorGraph.Buffer
/-!
# The census

The graph does not list the views that were handed out. A census of all buffers by number stands
beside it; it only grows.

- `Census`: the buffers that were handed out.
- `Census.Lists`: a buffer is listed under its number.
- `Census.Grows`: what a later census keeps of an earlier one.
-/

namespace TensorGraph

/-- The buffer of a number, for all buffers handed out. -/
abbrev Census := Nat → Option Buffer

/-- The census with one more buffer. -/
def Census.add (W : Census) (b : Buffer) : Census := fun i => if i = b.id then some b else W i

/-- A census that knows all that another knows. -/
def Census.Grows (W W' : Census) : Prop := ∀ i b, W i = some b → W' i = some b

theorem Census.Grows.refl (W : Census) : W.Grows W := fun _ _ h => h

theorem Census.Grows.trans {W₁ W₂ W₃ : Census} (h : W₁.Grows W₂) (h' : W₂.Grows W₃) :
    W₁.Grows W₃ := fun i b hb => h' i b (h i b hb)

/-- The census lists the buffer under its number. -/
def Census.Lists (W : Census) (b : Buffer) : Prop := W b.id = some b

theorem Census.Grows.lists {W W' : Census} (h : W.Grows W') {b : Buffer} (hb : W.Lists b) :
    W'.Lists b := h _ _ hb

theorem Census.Lists.eq {W : Census} {b c : Buffer} (hb : W.Lists b) (hc : W.Lists c)
    (h : b.id = c.id) : b = c := by
  rw [Lists, h] at hb
  exact Option.some.inj (hb.symm.trans hc)

/-- Where numbers tell a buffer and the handle on its base apart, its root is that handle. -/
theorem Census.Lists.root_eq {W : Census} {b : Buffer} (hb : W.Lists b)
    (hbase : W.Lists b.base.buffer) : b.root = b.base.buffer := by
  rw [Buffer.root]
  split
  · next h => exact hb.eq hbase (of_decide_eq_true h)
  · rfl

theorem Census.lists_add (W : Census) (b : Buffer) : (W.add b).Lists b := if_pos rfl

end TensorGraph
