import TensorGraph.Fusion
import TensorGraph.Proofs.Graph.Build
/-!
# What fusion does

A producer takes the place of the buffer that it would be read through, and so does one reduction
among the leaves of an elementwise tree; the other leaves are reshaped to the shape in which the
tree is evaluated then.

- `Tree.JoinsProducer`: a reduction, alone or with the producer of its input.
- `Tree.JoinsReduction`: an elementwise tree with its leaves in place.
- `Tree.sat_joinReduction`: a reduction joins an elementwise tree in this way.
-/

namespace TensorGraph

open TensorGraph.Graph

variable {α : Type} {W W' : Census} {g : Graph α} {held : List Buffer} {fusion : Fusion}

/-- The error says that a base depends on a later one. -/
def Error.IsOutOfOrder (e : Error) : Prop := ∃ id, e = .outOfOrder id

/-! ## Producers -/

/-- The operation `op` itself, or with the elementwise producer of the buffer that it reads in the
place of the buffer. -/
inductive Tree.JoinsProducer (g : Graph α) : (op t : Tree α) → Prop
  /-- The operation stays alone. -/
  | alone {op : Tree α} : JoinsProducer g op op
  /-- The producer joins. -/
  | joined {code : Opcode} {arg : Arg α} {issuer : Option Nat} {b : Buffer} {rest : List (Tree α)}
    {producer : Tree α} (hrealized : g.isRealized b = false) (htracker : b.tracker = b.base.tracker)
    (hop : g.op? b = some producer) (hcode : producer.codeIs Opcode.isElementwise = true) :
    JoinsProducer g (.node code arg issuer (.buffer b :: rest)) (.node code arg issuer [producer])

theorem Graph.producer?_eq_some {b : Buffer} {producer : Tree α}
    (h : g.producer? held b = some producer) :
    g.isRealized b = false ∧ b.tracker = b.base.tracker ∧ g.op? b = some producer
      ∧ producer.codeIs Opcode.isElementwise = true ∧ g.otherReaderCount held b ≤ 1 := by
  rw [producer?] at h
  obtain ⟨hcond, h⟩ := Option.ite_none_left_eq_some.mp h
  obtain ⟨hop, hcode⟩ := Option.filter_eq_some_iff.mp h
  simp only [Bool.or_eq_true, decide_eq_true_eq, not_or, Bool.not_eq_true, ne_eq, not_not] at hcond
  exact ⟨hcond.1.1, hcond.1.2, hop, hcode, Nat.not_lt.mp hcond.2⟩

/-- Unless elementwise operations are merged, a reduction stays alone. -/
theorem Tree.joinProducer_of_not (h : fusion.joinsElementwise = false) (op : Tree α) :
    op.joinProducer g held fusion = op := by
  rw [joinProducer.eq_def]
  split
  · rw [h]
    rfl
  · rfl

theorem Tree.joinsProducer (op : Tree α) : JoinsProducer g op (op.joinProducer g held fusion) := by
  rw [joinProducer.eq_def]
  split
  · split
    · exact .alone
    · split
      · next producer hproducer =>
        obtain ⟨hrealized, htracker, hop, hcode, -⟩ := producer?_eq_some hproducer
        exact .joined hrealized htracker hop hcode
      · exact .alone
  · exact .alone

/-- A producer only brings buffers that are older than what is read through it. -/
theorem Tree.JoinsProducer.leaves (hg : g.WellFormed W) {op t : Tree α} {bound : Nat}
    (h : JoinsProducer g op t) (hop : ∀ b ∈ op.leaves, W.Lists b ∧ b.base.id < bound) :
    ∀ b ∈ t.leaves, W.Lists b ∧ b.base.id < bound := by
  cases h with
  | alone => exact hop
  | @joined code arg issuer b rest producer hrealized htracker hproducer hcode =>
    intro c hc
    have hb := hop b (by simp)
    have hc : c ∈ producer.leaves := by simpa using hc
    have holder := hg.older_base hb.1 hproducer c hc
    exact ⟨holder.1, Nat.lt_trans holder.2 hb.2⟩

/-! ## Reductions that join -/

/-- The reduction `a` joins the tree that reads it: its leaf reads it densely, and it comes alone or
with its own producer. -/
structure Tree.Joined.Fits (g : Graph α) (a : Joined α) : Prop where
  /-- The reduction has no result. -/
  unrealized : g.isRealized a.leaf = false
  /-- The leaf reads it densely. -/
  dense : a.leaf.isContiguous = true
  /-- The tree is that of the reduction, perhaps with its producer. -/
  tree : ∃ op, g.op? a.leaf = some op ∧ op.codeIs Opcode.isReduce = true
    ∧ JoinsProducer g op a.tree

/-- The reduction that joins has no result and is read densely and by nobody else; it comes with its
producer if that may join. -/
theorem Tree.joined?_eq_some {leaves : List Buffer} {a : Joined α}
    (h : joined? g held leaves fusion = some a) :
    fusion.joinsReduction = true ∧ a.leaf ∈ leaves ∧ g.isRealized a.leaf = false
      ∧ a.leaf.isContiguous = true ∧ g.otherReaderCount held a.leaf ≤ 1
      ∧ ∃ op, g.op? a.leaf = some op ∧ op.codeIs Opcode.isReduce = true
        ∧ a.tree = op.joinProducer g held fusion := by
  rw [joined?] at h
  obtain ⟨hfusion, h⟩ := Option.ite_none_left_eq_some.mp h
  simp only [Option.bind_eq_bind, Option.bind_eq_some_iff, Option.pure_def, Option.some_inj] at h
  obtain ⟨b, hfind, op, hop, rfl⟩ := h
  have hjoinable := List.find?_some hfind
  simp only [isJoinable, Bool.and_eq_true, Bool.not_eq_true', hop, Option.any_some,
    decide_eq_true_eq] at hjoinable
  obtain ⟨⟨⟨hrealized, hdense⟩, hcode⟩, hcount⟩ := hjoinable
  exact ⟨by simpa using hfusion, List.mem_of_find?_eq_some hfind, hrealized, hdense, hcount, op, hop,
    hcode, rfl⟩

theorem Tree.Joined.Fits.of_joined? {leaves : List Buffer} {a : Joined α}
    (h : joined? g held leaves fusion = some a) : a.Fits g := by
  obtain ⟨-, -, hrealized, hdense, -, op, hop, hcode, htree⟩ := joined?_eq_some h
  exact ⟨hrealized, hdense, op, hop, hcode, htree ▸ op.joinsProducer⟩

/-- The outcome of joining a reduction to the elementwise tree `op` with output shape `output`: the
leaf of the reduction, if one joins, is replaced by it, and every other leaf is reshaped. -/
structure Tree.JoinsReduction (W : Census) (g : Graph α) (op : Tree α) (output : Shape)
    (joined : Option (Joined α)) (shape : Shape) (t : Tree α) : Prop where
  /-- The reduction that joins. -/
  fits : ∀ a ∈ joined, a.leaf ∈ op.leaves ∧ a.Fits g
  /-- The shape in which the tree is evaluated. -/
  inner : innerShape output joined = .ok shape
  /-- What stands for the leaves. -/
  replaced : ∃ m, t = op.substitute m ∧ ∀ b ∈ op.leaves,
    (∃ a ∈ joined, a.leaf = b ∧ m b.id = some a.tree)
      ∨ ((∀ a ∈ joined, a.leaf ≠ b) ∧ Reshapes W shape m b)

theorem Tree.innerShape_ne_outOfOrder {output : Shape} {joined : Option (Joined α)} {e : Error}
    (h : innerShape output joined = .error e) : ¬e.IsOutOfOrder := by
  rintro ⟨id, rfl⟩
  rw [innerShape.eq_def] at h
  split at h
  · cases h
  · split at h
    · cases h
    · split at h <;> cases h

/-- Why a reduction cannot join, with the error that tells of it: it is read in another shape than the
output, or a leaf does not take the shape in which the tree is evaluated. -/
structure Tree.Unjoinable (g : Graph α) (op : Tree α) (output : Shape)
    (joined : Option (Joined α)) (e : Error) : Prop where
  /-- The reduction that would join. -/
  fits : ∀ a ∈ joined, a.leaf ∈ op.leaves ∧ a.Fits g
  /-- The cause. -/
  cause : innerShape output joined = .error e ∨ ∃ shape, innerShape output joined = .ok shape
    ∧ ∃ b ∈ op.leaves, ∃ cause, b.tracker.reshape shape = .error cause ∧ e = .movement cause

/-- The leaves that are reshaped are all but that of the reduction. -/
theorem Tree.mem_others {op : Tree α} {joined : Option (Joined α)}
    (hop : ∀ b ∈ op.leaves, W.Lists b) (hjoined : ∀ a ∈ joined, a.leaf ∈ op.leaves) {b : Buffer} :
    b ∈ op.buffers.filter (fun b => joined.all fun a => a.leaf.id ≠ b.id)
      ↔ b ∈ op.leaves ∧ ∀ a ∈ joined, a.leaf ≠ b := by
  rw [List.mem_filter, mem_buffers_of_lists hop]
  refine and_congr_right fun hb => ?_
  cases joined with
  | none => simp
  | some a =>
    have hid : a.leaf.id = b.id ↔ a.leaf = b :=
      ⟨fun h => (hop _ (hjoined a rfl)).eq (hop b hb) h, fun h => h ▸ rfl⟩
    simp [hid]

/-- The first reduction that may join its reader is put in the place of its leaf. -/
theorem Tree.sat_joinReduction {op : Tree α} (hg : g.WellFormed W)
    (hop : ∀ b ∈ op.leaves, W.Lists b) (output : Shape) :
    Sat (op.joinReduction held output fusion) g
      (fun t g' => ∃ W' shape, Viewed W g W' g'
        ∧ op.JoinsReduction W' g output (joined? g held op.buffers fusion) shape t)
      fun e g' => (∃ W', Viewed W g W' g')
        ∧ Unjoinable g op output (joined? g held op.buffers fusion) e ∧ ¬e.IsOutOfOrder := by
  rw [joinReduction, sat_bind, sat_get]
  have hjoined : ∀ a ∈ joined? g held op.buffers fusion, a.leaf ∈ op.leaves ∧ a.Fits g := by
    intro a ha
    obtain ⟨-, hleaf, -⟩ := joined?_eq_some ha
    exact ⟨mem_leaves_of_mem_buffers hleaf, .of_joined? ha⟩
  generalize joined? g held op.buffers fusion = joined at hjoined ⊢
  rw [sat_bind]
  cases hinner : innerShape output joined with
  | error e => exact ⟨⟨W, hg.viewed⟩, ⟨hjoined, .inl hinner⟩, innerShape_ne_outOfOrder hinner⟩
  | ok shape =>
    rw [sat_liftM_ok]
    have hmem {b : Buffer} := mem_others hop (fun a ha => (hjoined a ha).1) (b := b)
    rw [sat_bind]
    refine (sat_reshapeAll hg fun b hb => hop b (hmem.mp hb).1).imp ?_ ?_
    · rintro pairs g' ⟨W', hviewed, hids, hpairs⟩
      refine ⟨W', shape, hviewed, hjoined, hinner, _, rfl, ?_⟩
      -- no number occurs twice, neither among the leaves that are reshaped nor with the reduction
      have hnodup : ((joined.toList.map (fun a => (a.leaf.id, a.tree)) ++ pairs).map
          Prod.fst).Nodup := by
        rw [List.map_append, List.map_map, hids, List.nodup_append]
        refine ⟨?_, (Tree.nodup_firstVisits [] _).sublist (List.filter_sublist.map _), ?_⟩
        · cases joined <;> simp
        · intro i hi j hj hij
          obtain ⟨a, ha, rfl⟩ := List.mem_map.mp hi
          obtain ⟨c, hc, rfl⟩ := List.mem_map.mp hj
          have ha : a ∈ joined := Option.mem_toList.mp ha
          have hac := (hop _ (hjoined a ha).1).eq (hop c (hmem.mp hc).1) hij
          exact (hmem.mp hc).2 a ha hac
      intro b hb
      by_cases hleaf : ∃ a ∈ joined, a.leaf = b
      · obtain ⟨a, ha, rfl⟩ := hleaf
        refine .inl ⟨a, ha, rfl, lookup_of_mem hnodup (List.mem_append_left _ ?_)⟩
        exact List.mem_map.mpr ⟨a, Option.mem_toList.mpr ha, rfl⟩
      · have hleaf : ∀ a ∈ joined, a.leaf ≠ b := fun a ha h => hleaf ⟨a, ha, h⟩
        obtain ⟨c, hc, hlist, hmoved⟩ := hpairs b (hmem.mpr ⟨hb, hleaf⟩)
        exact .inr ⟨hleaf, c, lookup_of_mem hnodup (List.mem_append_right _ hc), hlist, hmoved⟩
    · rintro e g' ⟨hviewed, b, hb, cause, hcause, rfl⟩
      exact ⟨hviewed, ⟨hjoined, .inr ⟨shape, hinner, b, (hmem.mp hb).1, cause, hcause, rfl⟩⟩, nofun⟩

/-- Joining a reduction brings no bases but those that the tree or the reduction read. -/
theorem Tree.JoinsReduction.leaves (hg : g.WellFormed W) (hW : W.Grows W') {op t : Tree α}
    {output shape : Shape} {joined : Option (Joined α)} {bound : Nat}
    (h : op.JoinsReduction W' g output joined shape t)
    (hop : ∀ b ∈ op.leaves, W.Lists b ∧ b.base.id < bound) :
    ∀ b ∈ t.leaves, W'.Lists b ∧ b.base.id < bound := by
  obtain ⟨m, rfl, hm⟩ := h.replaced
  intro c hc
  obtain ⟨b, hb, hc⟩ := mem_leaves_substitute.mp hc
  obtain ⟨hlist, hbase⟩ := hop b hb
  rcases hm b hb with ⟨a, ha, rfl, hreduction⟩ | ⟨-, d, hd, hd', hmoved⟩
  · obtain ⟨rop, hrop, hcode, hjoins⟩ := (h.fits a ha).2.tree
    rw [hreduction, Option.getD_some] at hc
    obtain ⟨hlist', hlt'⟩ := hjoins.leaves hg (hg.older_base hlist hrop) c hc
    exact ⟨hW.lists hlist', Nat.lt_trans hlt' hbase⟩
  · rw [hd, Option.getD_some, leaves_buffer, List.mem_singleton] at hc
    subst hc
    exact ⟨hd', hmoved.base ▸ hbase⟩

end TensorGraph
