import TensorGraph.Proofs.Graph.Live
import TensorGraph.Schedule
/-!
# Renumbering

Numbers tell buffers apart, and nothing else depends on them. Two graphs that differ in the numbers
of some views give the same answers, up to these numbers.

- `Buffer.renumber`, `Tree.renumber`, `Error.renumber`: other numbers for bases and views.
- `shift`: the numbers from some number on are moved up.
- `Graph.Shifted`: a graph, and the same graph after some numbers were left out.
- `Graph.Shifted.summary`, `Graph.Shifted.otherReaderCount`: their answers.
-/

namespace TensorGraph

open TensorGraph.Graph

variable {α : Type} {f : Nat → Nat}

/-! ## Buffers -/

/-- The base with another number. -/
def Base.renumber (f : Nat → Nat) (b : Base) : Base := { b with id := f b.id }

namespace Buffer

/-- The buffer with other numbers for itself and its base. -/
def renumber (f : Nat → Nat) (b : Buffer) : Buffer :=
  { b with id := f b.id, base := b.base.renumber f }

@[simp] theorem renumber_id (b : Buffer) : (b.renumber f).id = f b.id := rfl

@[simp] theorem renumber_tracker (b : Buffer) : (b.renumber f).tracker = b.tracker := rfl

@[simp] theorem renumber_base_id (b : Buffer) : (b.renumber f).base.id = f b.base.id := rfl

@[simp] theorem renumber_base_shape (b : Buffer) : (b.renumber f).base.shape = b.base.shape := rfl

@[simp] theorem renumber_base_tracker (b : Buffer) :
    (b.renumber f).base.tracker = b.base.tracker := rfl

@[simp] theorem renumber_shape (b : Buffer) : (b.renumber f).shape = b.shape := rfl

@[simp] theorem renumber_dtype (b : Buffer) : (b.renumber f).dtype = b.dtype := rfl

@[simp] theorem renumber_config (b : Buffer) : (b.renumber f).config = b.config := rfl

@[simp] theorem renumber_isContiguous (b : Buffer) :
    (b.renumber f).isContiguous = b.isContiguous := rfl

/-- A buffer whose numbers stay is the same. -/
theorem renumber_eq_self {b : Buffer} (hid : f b.id = b.id) (hbase : f b.base.id = b.base.id) :
    b.renumber f = b := by
  rw [renumber, Base.renumber, hid, hbase]

@[simp] theorem keepsAlive_renumber (b : Buffer) :
    (b.renumber f).keepsAlive = b.keepsAlive.map f := rfl

theorem renumber_isBase (hf : f.Injective) (b : Buffer) : (b.renumber f).isBase = b.isBase := by
  simp only [isBase, renumber_id, renumber_base_id, hf.eq_iff]

theorem renumber_root (hf : f.Injective) (b : Buffer) :
    (b.renumber f).root = b.root.renumber f := by
  rw [root, root, renumber_isBase hf]
  split <;> rfl

/-- The handle on a base has the number of the base. -/
theorem root_id (b : Buffer) : b.root.id = b.root.base.id := by rw [b.id_root, b.base_root]

/-- The description with other numbers. -/
def Summary.renumber (f : Nat → Nat) (s : Summary) : Summary :=
  { s with id := f s.id, base := s.base.map f }

theorem renumber_summary (hf : f.Injective) (b : Buffer) (state : State) :
    (b.renumber f).summary state = (b.summary state).renumber f := by
  rw [summary, summary, Summary.renumber, renumber_isBase hf]
  cases b.isBase <;> rfl

end Buffer

/-- The error with other numbers in what it says. -/
def Error.renumber (f : Nat → Nat) : Error → Error
  | noOperation base => noOperation (base.renumber f)
  | outOfOrder base => outOfOrder (f base)
  | noScalar leaf => noScalar (leaf.renumber f)
  | noSource leaf => noSource (leaf.renumber f)
  | unrealizedInput input output => unrealizedInput (input.renumber f) (f output)
  | foldedInput input output => foldedInput (input.renumber f) (f output)
  | realizedTwice base => realizedTwice (f base)
  | unrealized buffer => unrealized (buffer.renumber f)
  | e => e

/-! ## Trees -/

namespace Tree

mutual

/-- The tree with other numbers for the buffers at its leaves. -/
def renumber (f : Nat → Nat) : Tree α → Tree α
  | buffer b => buffer (b.renumber f)
  | node code arg issuer sources => node code arg issuer (renumberAll f sources)

/-- Several trees with other numbers for the buffers at their leaves. -/
def renumberAll (f : Nat → Nat) : List (Tree α) → List (Tree α)
  | [] => []
  | t :: ts => renumber f t :: renumberAll f ts

end

theorem renumberAll_eq (ts : List (Tree α)) : renumberAll f ts = ts.map (renumber f) := by
  induction ts with
  | nil => rfl
  | cons t ts ih => rw [renumberAll, ih, List.map_cons]

@[simp] theorem renumber_buffer (b : Buffer) :
    (buffer b : Tree α).renumber f = buffer (b.renumber f) := rfl

@[simp] theorem renumber_node (code : Opcode) (arg : Arg α) (issuer : Option Nat)
    (sources : List (Tree α)) :
    (node code arg issuer sources).renumber f = node code arg issuer (sources.map (renumber f)) := by
  rw [renumber, renumberAll_eq]

@[simp] theorem code?_renumber (t : Tree α) : (t.renumber f).code? = t.code? := by
  cases t <;> rfl

/-- A tree whose leaves stay is the same. -/
theorem renumber_eq_self {t : Tree α} (h : ∀ b ∈ t.leaves, b.renumber f = b) : t.renumber f = t := by
  induction t with
  | buffer b => rw [renumber_buffer, h b (by simp)]
  | node code arg issuer sources ih =>
    have hsources : sources.map (renumber f) = sources.map id :=
      List.map_congr_left fun t ht => ih t ht fun b hb => h b (by simpa using ⟨t, ht, hb⟩)
    rw [renumber_node, hsources, List.map_id]

@[simp] theorem leaves_renumber (t : Tree α) :
    (t.renumber f).leaves = t.leaves.map (Buffer.renumber f) := by
  induction t with
  | buffer b => rfl
  | node code arg issuer sources ih =>
    rw [renumber_node, leaves_node, leaves_node, List.flatMap_map, List.map_flatMap]
    exact List.flatMap_congr ih

theorem firstVisits_renumber (hf : f.Injective) (seen : List Nat) (bs : List Buffer) :
    firstVisits (seen.map f) (bs.map (Buffer.renumber f))
      = (firstVisits seen bs).map (Buffer.renumber f) := by
  induction bs generalizing seen with
  | nil => rfl
  | cons b bs ih =>
    rw [List.map_cons, firstVisits, firstVisits, Buffer.renumber_id]
    by_cases h : b.id ∈ seen
    · rw [if_pos h, if_pos ((List.mem_map_of_injective hf).mpr h), ih]
    · rw [if_neg h, if_neg (mt (List.mem_map_of_injective hf).mp h), List.map_cons, ← ih]
      rfl

theorem buffers_renumber (hf : f.Injective) (t : Tree α) :
    (t.renumber f).buffers = t.buffers.map (Buffer.renumber f) := by
  rw [buffers, leaves_renumber]
  exact firstVisits_renumber hf [] t.leaves

/-- A pair of a number and what replaces it, with other numbers. -/
def renumberPair (f : Nat → Nat) (p : Nat × Tree α) : Nat × Tree α := (f p.1, p.2.renumber f)

theorem replacement_renumber (hf : f.Injective) (pairs : List (Nat × Tree α)) (id : Nat) :
    replacement (pairs.map (renumberPair f)) (f id) = (replacement pairs id).map (renumber f) := by
  induction pairs with
  | nil => rfl
  | cons p pairs ih =>
    obtain ⟨i, t⟩ := p
    simp only [replacement] at ih ⊢
    by_cases h : id = i
    · simp [renumberPair, h]
    · have hne : f id ≠ f i := hf.ne h
      simp [renumberPair, List.lookup_cons, beq_false_of_ne h, beq_false_of_ne hne, ih]

/-- A substitution is made on other numbers as well. -/
theorem substitute_renumber (hf : f.Injective) (pairs : List (Nat × Tree α)) (t : Tree α) :
    (t.renumber f).substitute (replacement (pairs.map (renumberPair f)))
      = (t.substitute (replacement pairs)).renumber f := by
  induction t with
  | buffer b =>
    rw [renumber_buffer, substitute_buffer, Buffer.renumber_id, replacement_renumber hf,
      substitute_buffer]
    cases replacement pairs b.id <;> rfl
  | node code arg issuer sources ih =>
    rw [renumber_node, substitute_node, substitute_node, renumber_node, List.map_map, List.map_map]
    congr 1
    exact List.map_congr_left ih

end Tree

/-! ## Numbers moved up -/

/-- The numbers from `n` on are moved up by `d`. -/
def shift (n d i : Nat) : Nat := if i < n then i else i + d

/-- The number `r` is one that a number is moved to. -/
abbrev Hit (n d r : Nat) : Prop := r < n ∨ n + d ≤ r

variable {n d i : Nat}

theorem shift_of_lt (h : i < n) : shift n d i = i := if_pos h

theorem shift_of_le (h : n ≤ i) : shift n d i = i + d := if_neg (Nat.not_lt.mpr h)

theorem shift_injective (n d : Nat) : (shift n d).Injective := by
  intro i j h
  simp only [shift] at h
  split at h <;> split at h <;> omega

theorem hit_shift (n d i : Nat) : Hit n d (shift n d i) := by
  rw [shift]
  split <;> omega

theorem Buffer.renumber_shift {b : Buffer} (h : ∀ i ∈ b.keepsAlive, i < n) :
    b.renumber (shift n d) = b :=
  renumber_eq_self (shift_of_lt (h _ (by simp [keepsAlive])))
    (shift_of_lt (h _ (by simp [keepsAlive])))

namespace Graph

/-- The graph `g'` is `g` after the `d` numbers from `n` on were left out: what was registered under
a later number is registered under a number moved up. Views that had the numbers left out may still
be registered, too. -/
structure Shifted (n d : Nat) (g g' : Graph α) : Prop where
  /-- The numbers left out are no later than the next one. -/
  le_next : n ≤ g.next
  /-- The next number is moved up. -/
  next : g'.next = g.next + d
  /-- Bases stay, and so do their readers but for the numbers left out. -/
  entries : List.Forall₂ (fun e e' => e'.core = e.core
    ∧ e'.readers.filter (Hit n d ·) = e.readers.map (shift n d)) g.entries g'.entries
  /-- No base reads what has a number that is moved. -/
  older : ∀ e ∈ g.cores, e.base.id < n ∧ ∀ id ∈ e.leaves.flatMap Buffer.keepsAlive, id < n

variable {g g' : Graph α} {b : Buffer} {held : List Buffer}

/-- An operation that is found is that of a base. -/
theorem exists_of_op? {op : Tree α} (hop : g.op? b = some op) :
    ∃ e ∈ g.cores, e.base.id = b.base.id ∧ e.op = some op := by
  rw [op?_eq] at hop
  obtain ⟨e, hfind, hop⟩ := Option.bind_eq_some_iff.mp hop
  exact ⟨e, List.mem_of_find?_eq_some hfind, by simpa using List.find?_some hfind, hop⟩

/-- What is alive is alive under its other number. -/
theorem spread_map {entries : List (Entry α)} (holder : ∀ e ∈ entries,
      e.base.id < n ∧ ∀ id ∈ e.leaves.flatMap Buffer.keepsAlive, id < n) (ids : List Nat) :
    spread entries (ids.map (shift n d)) = (spread entries ids).map (shift n d) := by
  induction entries generalizing ids with
  | nil => rfl
  | cons e entries ih =>
    obtain ⟨hbase, hleaves⟩ := holder e List.mem_cons_self
    have holder' := fun e he => holder e (List.mem_cons_of_mem _ he)
    have hmem : e.base.id ∈ ids.map (shift n d) ↔ e.base.id ∈ ids := by
      rw [← List.mem_map_of_injective (shift_injective n d) (l := ids), shift_of_lt hbase]
    have hfixed : (e.leaves.flatMap Buffer.keepsAlive).map (shift n d)
        = e.leaves.flatMap Buffer.keepsAlive := by
      rw [List.map_congr_left fun id hid => shift_of_lt (hleaves id hid), List.map_id']
    rw [spread_cons, spread_cons]
    by_cases hlive : e.base.id ∈ ids
    · rw [if_pos hlive, if_pos (hmem.mpr hlive), ← ih holder', List.map_append, hfixed]
    · rw [if_neg hlive, if_neg (mt hmem.mp hlive), ih holder']

namespace Shifted

variable (h : g.Shifted n d g')
include h

theorem cores : g'.cores = g.cores := by
  have hcores : List.Forall₂ (fun e e' => e.core = Entry.core e') g.entries g'.entries :=
    h.entries.imp fun _ _ he => he.1.symm
  rw [Graph.cores, Graph.cores, ← List.forall₂_eq_eq_eq, List.forall₂_map_left_iff,
    List.forall₂_map_right_iff]
  exact hcores.flip.imp fun _ _ he => he.symm

/-- A number that is moved is that of no base. -/
theorem shift_eq_iff {e : Entry α} (he : e ∈ g.cores) :
    e.base.id = shift n d i ↔ e.base.id = i := by
  have hlt := (h.older e he).1
  rw [shift]
  split <;> omega

theorem find?_core (i : Nat) :
    (g'.cores.find? fun e => e.base.id = shift n d i) = g.cores.find? fun e => e.base.id = i := by
  rw [h.cores, ← List.head?_filter, ← List.head?_filter]
  congr 1
  exact List.filter_congr fun e he => decide_eq_decide.mpr (h.shift_eq_iff he)

theorem op? (b : Buffer) : g'.op? (b.renumber (shift n d)) = g.op? b := by
  rw [op?_eq, op?_eq, Buffer.renumber_base_id, h.find?_core]

theorem result? (b : Buffer) : g'.result? (b.renumber (shift n d)) = g.result? b := by
  rw [result?_eq, result?_eq, Buffer.renumber_base_id, h.find?_core]

theorem isRealized (b : Buffer) : g'.isRealized (b.renumber (shift n d)) = g.isRealized b := by
  rw [Graph.isRealized, Graph.isRealized, h.result?]

/-- Operations read nothing that has another number. -/
theorem renumber_op {op : Tree α} (hop : g.op? b = some op) : op.renumber (shift n d) = op := by
  obtain ⟨e, he, -, hop⟩ := exists_of_op? hop
  refine Tree.renumber_eq_self fun c hc => Buffer.renumber_shift fun i hi => ?_
  exact (h.older e he).2 i (List.mem_flatMap.mpr ⟨c, Entry.leaves_eq hop ▸ hc, hi⟩)

/-- The handle on a base with an operation keeps its number. -/
theorem renumber_base {op : Tree α} (hbase : b.id = b.base.id) (hop : g.op? b = some op) :
    b.renumber (shift n d) = b := by
  obtain ⟨e, he, hid, -⟩ := exists_of_op? hop
  have hlt : b.base.id < n := hid ▸ (h.older e he).1
  exact Buffer.renumber_eq_self (shift_of_lt (hbase ▸ hlt)) (shift_of_lt hlt)

theorem summary (b : Buffer) :
    g'.summary (b.renumber (shift n d)) = (g.summary b).renumber (shift n d) := by
  have hstate : g'.state (b.renumber (shift n d)) = g.state b := by
    rw [state, state, h.op?, h.result?]
  rw [Graph.summary, Graph.summary, hstate, Buffer.renumber_summary (shift_injective n d)]

/-! ### Readers -/

theorem live (held : List Buffer) :
    g'.live (held.map (Buffer.renumber (shift n d))) = (g.live held).map (shift n d) := by
  have hheld : (held.map (Buffer.renumber (shift n d))).flatMap Buffer.keepsAlive
      = (held.flatMap Buffer.keepsAlive).map (shift n d) := by
    rw [List.flatMap_map, List.map_flatMap]
    rfl
  have hspread (ids : List Nat) : spread g'.entries ids = spread g.entries ids := by
    rw [← spread_core, ← spread_core g.entries]
    exact congrArg (spread · ids) h.cores
  rw [Graph.live, Graph.live, hheld, hspread, ← spread_core, ← spread_core g.entries]
  exact spread_map h.older _

/-- The readers of a base are those that it has in the other graph, under their other numbers. -/
theorem registered (i : Nat) :
    ((g'.find? (shift n d i)).elim [] Entry.readers).filter (Hit n d ·)
      = ((g.find? i).elim [] Entry.readers).map (shift n d) := by
  have hiff : ∀ e ∈ g.entries, e.base.id = shift n d i ↔ e.base.id = i := fun e he =>
    h.shift_eq_iff (e := e.core) (mem_cores.mpr ⟨e, he, rfl⟩)
  have hentries := h.entries
  rw [find?, find?]
  generalize g.entries = entries, g'.entries = entries' at hiff hentries
  induction hentries with
  | nil => rfl
  | @cons e e' entries entries' he _ ih =>
    obtain ⟨hcore, hreaders⟩ := he
    have hbase : e'.base = e.base := congrArg (fun e => e.base) hcore
    have hiff' := hiff e List.mem_cons_self
    by_cases hid : e.base.id = i
    · have hid' : e'.base.id = shift n d i := hbase ▸ hiff'.mpr hid
      simpa [hid, hid'] using hreaders
    · have hid' : ¬e'.base.id = shift n d i := hbase ▸ mt hiff'.mp hid
      simpa [hid, hid'] using ih fun f hf => hiff f (List.mem_cons_of_mem _ hf)

theorem readers (held : List Buffer) (b : Buffer) :
    g'.readers (held.map (Buffer.renumber (shift n d))) (b.renumber (shift n d))
      = (g.readers held b).map (shift n d) := by
  have hreaders := h.registered b.base.id
  rw [Graph.readers, Graph.readers, h.live, Buffer.renumber_base_id]
  generalize (g'.find? (shift n d b.base.id)).elim [] Entry.readers = registered' at hreaders ⊢
  generalize (g.find? b.base.id).elim [] Entry.readers = registered at hreaders ⊢
  -- what is alive has no number that was left out
  have hhit : registered'.filter (· ∈ (g.live held).map (shift n d))
      = (registered'.filter (Hit n d ·)).filter (· ∈ (g.live held).map (shift n d)) := by
    rw [List.filter_filter]
    refine List.filter_congr fun r _ => ?_
    by_cases hr : r ∈ (g.live held).map (shift n d)
    · obtain ⟨i, -, rfl⟩ := List.mem_map.mp hr
      simp [hr, hit_shift n d i]
    · simp [hr]
  rw [hhit, hreaders, List.filter_map]
  congr 1
  refine List.filter_congr fun r _ => ?_
  rw [Function.comp_apply, decide_eq_decide, List.mem_map_of_injective (shift_injective n d)]

theorem otherReaderCount (held : List Buffer) (b : Buffer) :
    g'.otherReaderCount (held.map (Buffer.renumber (shift n d))) (b.renumber (shift n d))
      = g.otherReaderCount held b := by
  rw [Graph.otherReaderCount, Graph.otherReaderCount, h.readers, List.filter_map, List.length_map]
  congr 2
  funext r
  simp [(shift_injective n d).eq_iff]

end Shifted

end Graph

end TensorGraph
