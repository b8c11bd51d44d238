import Mathlib.Data.List.Basic
import TensorGraph.Graph.Basic
/-!
# Graphs, readers apart

Registering a reader changes neither what a base computes nor its result. What a graph knows
besides its readers is its core, and the questions that a computation asks are about the core.

- `Graph.cores`: the entries without their readers.
- `Graph.cores_register`, `Graph.cores_insert`, `Graph.cores_insertView`: how the graph grows.
-/

namespace TensorGraph

variable {α : Type}

/-- An entry without its readers. -/
def Entry.core (e : Entry α) : Entry α := { e with readers := [] }

@[simp] theorem Entry.core_base (e : Entry α) : e.core.base = e.base := rfl

@[simp] theorem Entry.core_op (e : Entry α) : e.core.op = e.op := rfl

@[simp] theorem Entry.core_result (e : Entry α) : e.core.result = e.result := rfl

@[simp] theorem Entry.core_core (e : Entry α) : e.core.core = e.core := rfl

theorem Entry.leaves_eq {e : Entry α} {op : Tree α} (h : e.op = some op) : e.leaves = op.leaves := by
  rw [leaves, h]
  rfl

namespace Graph

variable {g g' : Graph α}

/-- The entries without their readers. -/
def cores (g : Graph α) : List (Entry α) := g.entries.map Entry.core

theorem mem_cores {c : Entry α} : c ∈ g.cores ↔ ∃ e ∈ g.entries, e.core = c := List.mem_map

/-! ## What depends on the core -/

theorem map_core_find? (id : Nat) :
    (g.find? id).map Entry.core = g.cores.find? fun e => e.base.id = id := by
  rw [find?, cores, List.find?_map]
  rfl

theorem op?_eq (b : Buffer) :
    g.op? b = (g.cores.find? fun e => e.base.id = b.base.id).bind Entry.op := by
  rw [← map_core_find?, op?]
  cases g.find? b.base.id <;> rfl

theorem result?_eq (b : Buffer) :
    g.result? b = (g.cores.find? fun e => e.base.id = b.base.id).bind Entry.result := by
  rw [← map_core_find?, result?]
  cases g.find? b.base.id <;> rfl

theorem op?_congr (h : g'.cores = g.cores) (b : Buffer) : g'.op? b = g.op? b := by
  rw [op?_eq, op?_eq, h]

theorem result?_congr (h : g'.cores = g.cores) (b : Buffer) : g'.result? b = g.result? b := by
  rw [result?_eq, result?_eq, h]

theorem isRealized_congr (h : g'.cores = g.cores) (b : Buffer) :
    g'.isRealized b = g.isRealized b := by
  rw [isRealized, isRealized, result?_congr h]

end Graph

/-! ## Handles on bases -/

theorem Buffer.base_root (b : Buffer) : b.root.base = b.base := by
  rw [root]
  split <;> rfl

theorem Buffer.id_root (b : Buffer) : b.root.id = b.base.id := by
  rw [root]
  split
  · next h => exact of_decide_eq_true h
  · rfl

namespace Graph

theorem result?_root (g : Graph α) (b : Buffer) : g.result? b.root = g.result? b := by
  rw [result?, result?, b.base_root]

theorem isRealized_root (g : Graph α) (b : Buffer) : g.isRealized b.root = g.isRealized b := by
  rw [isRealized, isRealized, result?_root]

/-! ## How the graph grows -/

theorem cores_register (g : Graph α) (id reader : Nat) : (g.register id reader).cores = g.cores := by
  rw [register, modify, cores, cores, List.map_map]
  apply List.map_congr_left
  intro e _
  simp only [Function.comp_apply]
  split
  · split <;> rfl
  · rfl

theorem cores_registerAll (g : Graph α) (leaves : List Buffer) (reader : Nat) :
    (leaves.foldl (fun g leaf => g.register leaf.base.id reader) g).cores = g.cores := by
  induction leaves generalizing g with
  | nil => rfl
  | cons b leaves ih => rw [List.foldl_cons, ih, cores_register]

/-- The base that an insertion adds. -/
def nextBase (g : Graph α) (shape : Shape) (dtype : DType) (device : String) (config : Config) :
    Base :=
  ⟨g.next, shape, dtype, device, config⟩

theorem cores_insert (g : Graph α) (op : Option (Tree α)) (result : Option (Block α))
    (shape : Shape) (dtype : DType) (device : String) (config : Config) :
    (g.insert op result shape dtype device config).2.cores
      = ⟨g.nextBase shape dtype device config, op.map (Tree.issuedFor g.next), result, [], 0⟩
        :: g.cores := by
  simp only [insert, cores, List.map_cons]
  congr 1
  exact cores_registerAll g _ _

/-- A change of an entry that does not look at its readers changes its core. -/
theorem cores_modify (g : Graph α) (id : Nat) {f : Entry α → Entry α}
    (hf : ∀ e, (f e).core = f e.core) :
    (g.modify id f).cores = g.cores.map fun e => if e.base.id = id then f e else e := by
  rw [modify, cores, cores, List.map_map, List.map_map]
  apply List.map_congr_left
  intro e _
  by_cases h : e.base.id = id
  · have h' : e.core.base.id = id := h
    simp only [Function.comp_apply, if_pos h, if_pos h', hf e]
  · have h' : ¬e.core.base.id = id := h
    simp only [Function.comp_apply, if_neg h, if_neg h']

theorem cores_setResult (g : Graph α) (id : Nat) (block : Block α) :
    (g.setResult id block).cores
      = g.cores.map fun e => if e.base.id = id then { e with result := some block } else e :=
  cores_modify g id fun _ => rfl

theorem cores_countCall (g : Graph α) (id : Nat) :
    (g.countCall id).cores
      = g.cores.map fun e => if e.base.id = id then { e with calls := e.calls + 1 } else e :=
  cores_modify g id fun _ => rfl

theorem cores_insertView (g : Graph α) (b : Buffer) (tracker : Tracker) :
    (g.insertView b tracker).2.cores = g.cores := cores_register g _ _

theorem next_insertView (g : Graph α) (b : Buffer) (tracker : Tracker) :
    (g.insertView b tracker).2.next = g.next + 1 := rfl

end Graph

end TensorGraph
