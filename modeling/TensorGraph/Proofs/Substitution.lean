import TensorGraph.Proofs.Tree
/-!
# Substitutions

Slots are numbered, leaves are reshaped and readers are registered in the order in which a tree first
visits its buffers. A substitution may put one buffer in many places, and trees that share buffers
with each other and with what is left; the order of the result is still that of the old buffers, each
with what was put in for it, and a number counts where it comes first.

- `Tree.at?`: the tree at a place.
- `Tree.Substituted`: what a substitution makes of a tree.
- `Tree.substituted_substitute`: the operations, the leaves and the order of the buffers after a
  substitution, and two substitutions as one.
-/

namespace TensorGraph.Tree

variable {α : Type}

/-- The tree at a place. From the root on, every number of the path says which source comes next. -/
def at? : Tree α → List Nat → Option (Tree α)
  | t, [] => some t
  | t, i :: path => t.sources[i]?.bind fun u => u.at? path

/-- The tree `u` is the tree `t` with its buffers replaced as `m` says. -/
structure Substituted (t : Tree α) (m : Nat → Option (Tree α)) (u : Tree α) : Prop where
  /-- An operation stays in its place, with its argument and as many sources. -/
  node : ∀ path code arg issuer sources, t.at? path = some (.node code arg issuer sources) →
    ∃ sources', u.at? path = some (.node code arg issuer sources')
      ∧ sources'.length = sources.length
  /-- A buffer that is not replaced stays in its place. -/
  kept : ∀ path b, t.at? path = some (.buffer b) → m b.id = none → u.at? path = some (.buffer b)
  /-- A buffer that is replaced gives its place to the replacement, as it is. -/
  replaced : ∀ path b v, t.at? path = some (.buffer b) → m b.id = some v → u.at? path = some v
  /-- The buffers are visited in the old order: in the place of each the buffers of its replacement, or
  itself if there is none. A number counts where it comes first. -/
  ids : u.buffers.map Buffer.id
    = (t.buffers.flatMap fun b => match m b.id with
        | some v => v.buffers.map Buffer.id
        | none => [b.id]).eraseDups

theorem at?_node (code : Opcode) (arg : Arg α) (issuer : Option Nat) (ts : List (Tree α)) (i : Nat)
    (path : List Nat) :
    (node code arg issuer ts).at? (i :: path) = ts[i]?.bind fun u => u.at? path := rfl

/-- In every place of a tree, a substitution does what it does to the tree in that place. -/
theorem at?_substitute (m : Nat → Option (Tree α)) {t u : Tree α} {path : List Nat}
    (h : t.at? path = some u) : (t.substitute m).at? path = some (u.substitute m) := by
  induction path generalizing t with
  | nil =>
    obtain rfl := Option.some.inj h
    rfl
  | cons i path ih =>
    cases t with
    | buffer b => cases h
    | node code arg issuer ts =>
      rw [at?_node, Option.bind_eq_some_iff] at h
      obtain ⟨s, hs, hat⟩ := h
      rw [substitute_node, at?_node, List.getElem?_map, hs]
      exact ih hat

/-- The numbers of the buffers after a substitution. -/
theorem map_id_buffers_substitute (m : Nat → Option (Tree α)) (t : Tree α) :
    (t.substitute m).buffers.map Buffer.id
      = (t.buffers.flatMap fun b => match m b.id with
          | some v => v.buffers.map Buffer.id
          | none => [b.id]).eraseDups := by
  have hids (b : Buffer) : (((m b.id).getD (buffer b)).buffers).map Buffer.id
      = match m b.id with
        | some v => v.buffers.map Buffer.id
        | none => [b.id] := by
    cases m b.id <;> rfl
  rw [buffers_substitute, map_id_firstVisits, List.map_flatMap]
  simp only [List.not_mem_nil, not_false_eq_true, decide_true, List.filter_true, hids]

/-- A substitution keeps the operations and the order of the buffers, and two substitutions in a row
are one. -/
theorem substituted_substitute (t : Tree α) (m : Nat → Option (Tree α)) :
    t.Substituted m (t.substitute m)
      ∧ ∀ m', (t.substitute m).substitute m' = t.substitute (followedBy m m') := by
  refine ⟨⟨?node, ?kept, ?replaced, map_id_buffers_substitute m t⟩,
    fun m' => substitute_substitute m m' t⟩
  case node =>
    intro path code arg issuer sources hat
    refine ⟨sources.map (substitute m), ?_, List.length_map _⟩
    rw [at?_substitute m hat, substitute_node]
  case kept =>
    intro path b hat hnone
    rw [at?_substitute m hat, substitute_buffer, hnone, Option.getD_none]
  case replaced =>
    intro path b v hat hsome
    rw [at?_substitute m hat, substitute_buffer, hsome, Option.getD_some]

/-- What is put in for a buffer may have that buffer again, which then stays, and share others with the
rest of the tree. -/
example :
    let leaf (id : Nat) : Tree Int := .buffer (Base.buffer ⟨id, .scalar, .i32, "cpu", {}⟩)
    let sum (t u : Tree Int) : Tree Int := .node (.binary .add) .none none [t, u]
    let m (id : Nat) :=
      if id = 1 then some (sum (leaf 3) (leaf 1)) else if id = 2 then some (leaf 3) else none
    ((sum (sum (leaf 2) (leaf 1)) (sum (leaf 4) (leaf 1))).substitute m).buffers.map Buffer.id
      = [3, 1, 4] := by
  decide

end TensorGraph.Tree
