import TensorGraph.Proofs.Lists
import TensorGraph.Tree.Basic
/-!
# Operation trees

What a tree computes depends on its leaves alone, and a substitution changes it leaf by leaf.

- `Tree.ind`: induction over a tree, one step for a node with all its sources.
- `Tree.substitute_substitute`: two substitutions in a row are one.
- `Tree.mem_buffers_iff`: the buffers of a tree are its leaves, if numbers tell leaves apart.
- `Tree.buffers_substitute`: the buffers after a substitution, in the order of their first visit.
- `Tree.type`: the element type of a tree by the types of its leaves.
- `Tree.Pointwise`: trees of elementwise operations on leaves of one shape.
-/

namespace TensorGraph

namespace Opcode

variable {code : Opcode}

theorem isLoad_of_isElementwise (h : code.isElementwise = true) : code.isLoad = false := by
  cases code with
  | load => cases h
  | _ => rfl

theorem isReduce_of_isElementwise (h : code.isElementwise = true) : code.isReduce = false := by
  cases code with
  | reduce => cases h
  | _ => rfl

theorem isLoad_of_isReduce (h : code.isReduce = true) : code.isLoad = false := by
  cases code with
  | load => cases h
  | _ => rfl

theorem isElementwise_of_isReduce (h : code.isReduce = true) : code.isElementwise = false := by
  cases code with
  | reduce => rfl
  | _ => cases h

theorem load?_eq_none (h : code.isLoad = false) : code.load? = none := by
  cases code with
  | load => cases h
  | _ => rfl

end Opcode

namespace Tree

variable {α : Type}

/-! ## Induction -/

/-- A property of buffers that a node inherits from its sources holds of all trees. -/
@[elab_as_elim, induction_eliminator]
theorem ind {motive : Tree α → Prop} (buffer : ∀ b, motive (.buffer b))
    (node : ∀ code arg issuer sources, (∀ t ∈ sources, motive t) →
      motive (.node code arg issuer sources)) : ∀ t, motive t
  | .buffer b => buffer b
  | .node code arg issuer sources =>
    node code arg issuer sources fun t _ => ind buffer node t

theorem leavesAll_eq (ts : List (Tree α)) : leavesAll ts = ts.flatMap leaves := by
  induction ts with
  | nil => rfl
  | cons t ts ih => rw [leavesAll, ih, List.flatMap_cons]

theorem substituteAll_eq (m : Nat → Option (Tree α)) (ts : List (Tree α)) :
    substituteAll m ts = ts.map (substitute m) := by
  induction ts with
  | nil => rfl
  | cons t ts ih => rw [substituteAll, ih, List.map_cons]

theorem nodesAll_eq (ts : List (Tree α)) : nodesAll ts = ts.flatMap nodes := by
  induction ts with
  | nil => rfl
  | cons t ts ih => rw [nodesAll, ih, List.flatMap_cons]

theorem mem_nodes_node {code : Opcode} {arg : Arg α} {issuer : Option Nat}
    {sources : List (Tree α)} {u : Tree α} : u ∈ (node code arg issuer sources).nodes
      ↔ u = node code arg issuer sources ∨ ∃ t ∈ sources, u ∈ t.nodes := by
  rw [nodes, nodesAll_eq, List.mem_cons, List.mem_flatMap]

@[simp] theorem leaves_buffer (b : Buffer) : (buffer b : Tree α).leaves = [b] := rfl

@[simp] theorem leaves_node (code : Opcode) (arg : Arg α) (issuer : Option Nat)
    (sources : List (Tree α)) :
    (node code arg issuer sources).leaves = sources.flatMap leaves := by
  rw [leaves, leavesAll_eq]

@[simp] theorem substitute_buffer (m : Nat → Option (Tree α)) (b : Buffer) :
    (buffer b).substitute m = (m b.id).getD (buffer b) := rfl

@[simp] theorem substitute_node (m : Nat → Option (Tree α)) (code : Opcode) (arg : Arg α)
    (issuer : Option Nat) (sources : List (Tree α)) :
    (node code arg issuer sources).substitute m
      = node code arg issuer (sources.map (substitute m)) := by
  rw [substitute, substituteAll_eq]

@[simp] theorem leaves_issuedFor (id : Nat) (t : Tree α) : (t.issuedFor id).leaves = t.leaves := by
  cases t <;> simp [issuedFor]

@[simp] theorem sources_issuedFor (id : Nat) (t : Tree α) :
    (t.issuedFor id).sources = t.sources := by
  cases t <;> rfl

theorem codeIs_eq_true {p : Opcode → Bool} {t : Tree α} :
    t.codeIs p = true ↔ ∃ code, t.code? = some code ∧ p code = true := by
  rw [codeIs]
  cases t.code? <;> simp

theorem codeIs_mono {p q : Opcode → Bool} {t : Tree α} (h : t.codeIs p = true)
    (hpq : ∀ code, p code = true → q code = true) : t.codeIs q = true := by
  obtain ⟨code, hsome, hcode⟩ := codeIs_eq_true.mp h
  exact codeIs_eq_true.mpr ⟨code, hsome, hpq code hcode⟩

theorem codeIs_eq_false {p q : Opcode → Bool} {t : Tree α} (h : t.codeIs p = true)
    (hpq : ∀ code, p code = true → q code = false) : t.codeIs q = false := by
  obtain ⟨code, hsome, hcode⟩ := codeIs_eq_true.mp h
  rw [codeIs, hsome, Option.any_some, hpq code hcode]

/-- A substitution keeps the operation at the root. -/
theorem code?_substitute {t : Tree α} {code : Opcode} (h : t.code? = some code)
    (m : Nat → Option (Tree α)) : (t.substitute m).code? = some code := by
  cases t with
  | buffer b => cases h
  | node => exact h

/-- The leaves of a tree after a substitution are those of what stands in the place of its leaves. -/
theorem leaves_substitute (m : Nat → Option (Tree α)) (t : Tree α) :
    (t.substitute m).leaves = t.leaves.flatMap fun b => ((m b.id).getD (buffer b)).leaves := by
  induction t with
  | buffer b => simp
  | node code arg issuer sources ih =>
    simp only [substitute_node, leaves_node, List.flatMap_map, List.flatMap_assoc]
    exact List.flatMap_congr ih

/-- A leaf of a tree after a substitution stands in what has taken the place of a leaf. -/
theorem mem_leaves_substitute {m : Nat → Option (Tree α)} {t : Tree α} {b : Buffer} :
    b ∈ (t.substitute m).leaves ↔ ∃ c ∈ t.leaves, b ∈ ((m c.id).getD (buffer c)).leaves := by
  rw [leaves_substitute, List.mem_flatMap]

/-- Substitutions that give the same tree agree on its leaves. -/
theorem eq_of_substitute_eq {m m' : Nat → Option (Tree α)} {t : Tree α}
    (h : t.substitute m = t.substitute m') {b : Buffer} (hb : b ∈ t.leaves) :
    (m b.id).getD (buffer b) = (m' b.id).getD (buffer b) := by
  induction t with
  | buffer c =>
    obtain rfl : b = c := by simpa using hb
    exact h
  | node code arg issuer sources ih =>
    rw [substitute_node, substitute_node] at h
    obtain ⟨t, ht, hb⟩ := List.mem_flatMap.mp (leaves_node code arg issuer sources ▸ hb)
    exact ih t ht (List.map_inj_left.mp (Tree.node.inj h).2.2.2 t ht) hb

/-- One substitution after another: the second is made inside what the first puts in, and for the
buffers that the first leaves alone. -/
def followedBy (m m' : Nat → Option (Tree α)) (id : Nat) : Option (Tree α) :=
  match m id with
  | some u => some (u.substitute m')
  | none => m' id

/-- Two substitutions in a row are one. -/
theorem substitute_substitute (m m' : Nat → Option (Tree α)) (t : Tree α) :
    (t.substitute m).substitute m' = t.substitute (followedBy m m') := by
  induction t with
  | buffer b =>
    rw [substitute_buffer, substitute_buffer, followedBy]
    cases m b.id <;> rfl
  | node code arg issuer sources ih =>
    simp only [substitute_node, List.map_map]
    congr 1
    exact List.map_congr_left ih

/-! ## First visits -/

theorem mem_of_mem_firstVisits {seen : List Nat} {bs : List Buffer} {b : Buffer}
    (h : b ∈ firstVisits seen bs) : b ∈ bs ∧ b.id ∉ seen := by
  induction bs generalizing seen with
  | nil => simp [firstVisits] at h
  | cons c bs ih =>
    rw [firstVisits] at h
    split at h
    · exact ⟨List.mem_cons_of_mem _ (ih h).1, (ih h).2⟩
    · next hc =>
      rcases List.mem_cons.mp h with rfl | h
      · exact ⟨List.mem_cons_self, hc⟩
      · have := ih h
        exact ⟨List.mem_cons_of_mem _ this.1, fun hb => this.2 (List.mem_cons_of_mem _ hb)⟩

/-- Every number of a list is visited, unless it was seen before. -/
theorem exists_mem_firstVisits {seen : List Nat} {bs : List Buffer} {b : Buffer} (h : b ∈ bs)
    (hseen : b.id ∉ seen) : ∃ c ∈ firstVisits seen bs, c.id = b.id := by
  induction bs generalizing seen with
  | nil => simp at h
  | cons c bs ih =>
    rw [firstVisits]
    split
    · next hc =>
      rcases List.mem_cons.mp h with rfl | h
      · exact absurd hc hseen
      · exact ih h hseen
    · by_cases hbc : b.id = c.id
      · exact ⟨c, List.mem_cons_self, hbc.symm⟩
      · rcases List.mem_cons.mp h with rfl | h
        · exact absurd rfl hbc
        · obtain ⟨d, hd, hid⟩ := ih h (show b.id ∉ c.id :: seen by simp [hbc, hseen])
          exact ⟨d, List.mem_cons_of_mem _ hd, hid⟩

/-- No number is visited twice. -/
theorem nodup_firstVisits (seen : List Nat) (bs : List Buffer) :
    ((firstVisits seen bs).map Buffer.id).Nodup := by
  induction bs generalizing seen with
  | nil => simp [firstVisits]
  | cons c bs ih =>
    rw [firstVisits]
    split
    · exact ih seen
    · rw [List.map_cons, List.nodup_cons]
      refine ⟨?_, ih _⟩
      intro hmem
      obtain ⟨b, hb, hid⟩ := List.mem_map.mp hmem
      exact (mem_of_mem_firstVisits hb).2 (by simp [hid])

/-- Where numbers tell buffers apart, every buffer is visited. -/
theorem mem_firstVisits_iff {bs : List Buffer} (h : ∀ b ∈ bs, ∀ c ∈ bs, b.id = c.id → b = c)
    {b : Buffer} : b ∈ firstVisits [] bs ↔ b ∈ bs := by
  constructor
  · exact fun hb => (mem_of_mem_firstVisits hb).1
  · intro hb
    obtain ⟨c, hc, hid⟩ := exists_mem_firstVisits hb (List.not_mem_nil (a := b.id))
    rwa [h b hb c (mem_of_mem_firstVisits hc).1 hid.symm]

/-- The numbers of the visits are the unseen numbers, each once. -/
theorem map_id_firstVisits (seen : List Nat) (bs : List Buffer) :
    (firstVisits seen bs).map Buffer.id
      = ((bs.map Buffer.id).filter (· ∉ seen)).eraseDups := by
  induction bs generalizing seen with
  | nil => rfl
  | cons b bs ih =>
    rw [firstVisits, List.map_cons]
    split
    · next hb => rw [ih, List.filter_cons_of_neg (by simpa using hb)]
    · next hb =>
      rw [List.map_cons, ih, List.filter_cons_of_pos (by simpa using hb), List.eraseDups_cons,
        List.filter_filter]
      congr 3
      funext id
      simp [beq_eq_decide]

/-- Only which numbers were seen counts, not in which order. -/
theorem firstVisits_congr {seen seen' : List Nat} (h : ∀ id, id ∈ seen ↔ id ∈ seen')
    (bs : List Buffer) : firstVisits seen bs = firstVisits seen' bs := by
  induction bs generalizing seen seen' with
  | nil => rfl
  | cons b bs ih =>
    have hrest : firstVisits (b.id :: seen) bs = firstVisits (b.id :: seen') bs :=
      ih fun id => by rw [List.mem_cons, List.mem_cons, h]
    simp only [firstVisits, h, ih h, hrest]

/-- After the buffers of one list their numbers are seen. -/
theorem firstVisits_append (seen : List Nat) (bs cs : List Buffer) :
    firstVisits seen (bs ++ cs)
      = firstVisits seen bs ++ firstVisits (bs.map Buffer.id ++ seen) cs := by
  induction bs generalizing seen with
  | nil => rfl
  | cons b bs ih =>
    rw [List.cons_append, firstVisits, firstVisits]
    split
    · next hb =>
      have hseen : ∀ id, id ∈ bs.map Buffer.id ++ seen ↔ id ∈ (b :: bs).map Buffer.id ++ seen := by
        intro id
        have hid : id = b.id → id ∈ seen := fun hid => hid ▸ hb
        simp only [List.map_cons, List.cons_append, List.mem_cons, List.mem_append]
        tauto
      rw [ih, firstVisits_congr hseen]
    · have hseen : ∀ id, id ∈ bs.map Buffer.id ++ b.id :: seen
          ↔ id ∈ (b :: bs).map Buffer.id ++ seen := by
        intro id
        simp only [List.map_cons, List.cons_append, List.mem_cons, List.mem_append]
        tauto
      rw [ih, firstVisits_congr hseen, List.cons_append]

theorem firstVisits_eq_nil {seen : List Nat} {bs : List Buffer} (h : ∀ b ∈ bs, b.id ∈ seen) :
    firstVisits seen bs = [] := by
  refine List.eq_nil_iff_forall_not_mem.mpr fun b hb => ?_
  obtain ⟨hmem, hnot⟩ := mem_of_mem_firstVisits hb
  exact hnot (h b hmem)

/-- The numbers of the first visits are those of the list. -/
theorem mem_map_id_firstVisits {bs : List Buffer} {id : Nat} :
    id ∈ (firstVisits [] bs).map Buffer.id ↔ id ∈ bs.map Buffer.id := by
  simp [map_id_firstVisits]

/-- What is made of the first visits alone is visited first where it is made of every buffer, too, if
what is made of a later buffer of the same number has no new numbers. -/
theorem firstVisits_flatMap_firstVisits {f : Buffer → List Buffer} {seen seen' : List Nat}
    {bs : List Buffer}
    (h : ∀ b ∈ bs, ∀ c ∈ bs, b.id = c.id → (f b).map Buffer.id = (f c).map Buffer.id)
    (hseen : ∀ b ∈ bs, b.id ∈ seen → ∀ c ∈ f b, c.id ∈ seen') :
    firstVisits seen' ((firstVisits seen bs).flatMap f) = firstVisits seen' (bs.flatMap f) := by
  induction bs generalizing seen seen' with
  | nil => rfl
  | cons b bs ih =>
    have htail : ∀ c ∈ bs, ∀ d ∈ bs, c.id = d.id → (f c).map Buffer.id = (f d).map Buffer.id :=
      fun c hc d hd => h c (List.mem_cons_of_mem _ hc) d (List.mem_cons_of_mem _ hd)
    have hrest : ∀ c ∈ bs, c.id ∈ seen → ∀ d ∈ f c, d.id ∈ seen' :=
      fun c hc => hseen c (List.mem_cons_of_mem _ hc)
    rw [firstVisits, List.flatMap_cons, firstVisits_append]
    split
    · next hb =>
      -- what is made of a buffer that was seen is visited no more
      have hf : ∀ c ∈ f b, c.id ∈ seen' := hseen b List.mem_cons_self hb
      have hids : ∀ id, id ∈ (f b).map Buffer.id ++ seen' ↔ id ∈ seen' := by
        intro id
        rw [List.mem_append, or_iff_right_iff_imp, List.mem_map]
        rintro ⟨c, hc, rfl⟩
        exact hf c hc
      rw [firstVisits_eq_nil hf, firstVisits_congr hids, ih htail hrest, List.nil_append]
    · rw [List.flatMap_cons, firstVisits_append, ih htail]
      intro c hc hmem d hd
      rcases List.mem_cons.mp hmem with hid | hmem
      · -- a later buffer of the same number adds nothing
        have hsame := h c (List.mem_cons_of_mem _ hc) b List.mem_cons_self hid
        exact List.mem_append_left _ (hsame ▸ List.mem_map_of_mem hd)
      · exact List.mem_append_right _ (hrest c hc hmem d hd)

/-- The first visits are visited first. -/
theorem firstVisits_firstVisits (seen : List Nat) (bs : List Buffer) :
    firstVisits seen (firstVisits [] bs) = firstVisits seen bs := by
  have hsingle : firstVisits seen ((firstVisits [] bs).flatMap fun b => [b])
      = firstVisits seen (bs.flatMap fun b => [b]) := by
    refine firstVisits_flatMap_firstVisits (fun b _ c _ hid => by simp [hid]) fun b _ hb => ?_
    cases hb
  rwa [List.flatMap_singleton', List.flatMap_singleton'] at hsingle

/-- Repetitions inside what is made of each buffer are not visited either. -/
theorem firstVisits_flatMap (seen : List Nat) (bs : List Buffer) (f : Buffer → List Buffer) :
    firstVisits seen (bs.flatMap fun b => firstVisits [] (f b)) = firstVisits seen (bs.flatMap f) := by
  induction bs generalizing seen with
  | nil => rfl
  | cons b bs ih =>
    have hids : ∀ id, id ∈ (firstVisits [] (f b)).map Buffer.id ++ seen
        ↔ id ∈ (f b).map Buffer.id ++ seen := by
      intro id
      rw [List.mem_append, List.mem_append, mem_map_id_firstVisits]
    rw [List.flatMap_cons, List.flatMap_cons, firstVisits_append, firstVisits_append,
      firstVisits_firstVisits, firstVisits_congr hids, ih]

/-- The buffers of a tree after a substitution: the buffers of what stands in the place of each buffer,
without those that come a second time. -/
theorem buffers_substitute (m : Nat → Option (Tree α)) (t : Tree α) :
    (t.substitute m).buffers
      = firstVisits [] (t.buffers.flatMap fun b => ((m b.id).getD (buffer b)).buffers) := by
  have hsame : ∀ b ∈ t.leaves, ∀ c ∈ t.leaves, b.id = c.id →
      (((m b.id).getD (buffer b)).leaves).map Buffer.id
        = (((m c.id).getD (buffer c)).leaves).map Buffer.id := by
    intro b _ c _ hid
    rw [hid]
    cases m c.id with
    | none => simpa using hid
    | some u => rfl
  rw [buffers, leaves_substitute]
  symm
  calc firstVisits [] (t.buffers.flatMap fun b => ((m b.id).getD (buffer b)).buffers)
      = firstVisits [] (t.buffers.flatMap fun b => ((m b.id).getD (buffer b)).leaves) :=
        firstVisits_flatMap [] _ _
    _ = firstVisits [] (t.leaves.flatMap fun b => ((m b.id).getD (buffer b)).leaves) :=
        firstVisits_flatMap_firstVisits hsame fun b _ hb => by cases hb

theorem mem_leaves_of_mem_buffers {t : Tree α} {b : Buffer} (h : b ∈ t.buffers) : b ∈ t.leaves :=
  (mem_of_mem_firstVisits h).1

theorem mem_buffers_iff {t : Tree α} (h : ∀ b ∈ t.leaves, ∀ c ∈ t.leaves, b.id = c.id → b = c)
    {b : Buffer} : b ∈ t.buffers ↔ b ∈ t.leaves :=
  mem_firstVisits_iff h

theorem lookup_of_mem {β : Type} {pairs : List (Nat × β)} (hnodup : (pairs.map Prod.fst).Nodup)
    {id : Nat} {x : β} (h : (id, x) ∈ pairs) : pairs.lookup id = some x := by
  induction pairs with
  | nil => simp at h
  | cons p pairs ih =>
    rw [List.map_cons, List.nodup_cons] at hnodup
    rcases List.mem_cons.mp h with rfl | h
    · simp
    · have hne : id ≠ p.1 := fun heq => hnodup.1 (heq ▸ List.mem_map_of_mem h)
      rw [List.lookup_cons, beq_false_of_ne hne]
      exact ih hnodup.2 h

/-! ## Element types -/

/-- The element type of an operation on sources of the types `types`, by the rules that a kernel
follows. -/
def nodeType (code : Opcode) (arg : Arg α) (types : List DType) : Option DType :=
  match code, arg, types with
  | .leaf .slot, .slot read, _ => some read.dtype
  | .leaf .literal, .literal literal, _ => some literal.dtype
  | .unary .cast, .target type, [_] => some type
  | .unary .cast, _, _ => none
  | .unary _, _, [d] => some d
  | .binary _, _, [d, e] => some (d.wider e)
  | .ternary _, _, [d, e, f] => some ((d.wider e).wider f)
  | .reduce _, _, [d] => some d
  | _, _, _ => none

mutual

/-- The element type of a tree: that of a buffer, or of an operation on the types of its
sources. -/
def type : Tree α → Option DType
  | buffer b => some b.dtype
  | node code arg _ sources => (types sources).bind (nodeType code arg)

/-- The element types of several trees. -/
def types : List (Tree α) → Option (List DType)
  | [] => some []
  | t :: ts => (type t).bind fun d => (types ts).map (d :: ·)

end

@[simp] theorem type_buffer (b : Buffer) : (buffer b : Tree α).type = some b.dtype := rfl

theorem type_node (code : Opcode) (arg : Arg α) (issuer : Option Nat) (sources : List (Tree α)) :
    (node code arg issuer sources).type = (types sources).bind (nodeType code arg) := by
  rw [type]

@[simp] theorem type_issuedFor (id : Nat) (t : Tree α) : (t.issuedFor id).type = t.type := by
  cases t <;> simp only [issuedFor, type]

theorem types_eq_some {ts : List (Tree α)} {ds : List DType} :
    types ts = some ds ↔ List.Forall₂ (fun t d => t.type = some d) ts ds := by
  induction ts generalizing ds with
  | nil => simp [types, eq_comm]
  | cons t ts ih =>
    simp only [types, Option.bind_eq_some_iff, Option.map_eq_some_iff, List.forall₂_cons_left_iff,
      ← ih]
    grind

theorem types_congr {ts : List (Tree α)} {f : Tree α → Tree α}
    (h : ∀ t ∈ ts, (f t).type = t.type) : types (ts.map f) = types ts := by
  induction ts with
  | nil => rfl
  | cons t ts ih =>
    rw [List.map_cons, types, types, h t List.mem_cons_self,
      ih fun u hu => h u (List.mem_cons_of_mem _ hu)]

/-- A substitution that keeps the type of every leaf keeps the type of the tree. -/
theorem type_substitute {m : Nat → Option (Tree α)} {t : Tree α}
    (h : ∀ b ∈ t.leaves, ((m b.id).getD (buffer b)).type = some b.dtype) :
    (t.substitute m).type = t.type := by
  induction t with
  | buffer b => exact h b (by simp)
  | node code arg issuer sources ih =>
    rw [substitute_node, type_node, type_node, types_congr]
    intro t ht
    exact ih t ht fun b hb => h b (by simpa using ⟨t, ht, hb⟩)

/-! ## Elementwise trees -/

/-- A tree of elementwise operations, each on as many sources as it takes, whose leaves all have the
shape `shape`. -/
inductive Pointwise (shape : Shape) : Tree α → Prop
  | buffer {b : Buffer} (h : b.shape = shape) : Pointwise shape (.buffer b)
  | node {code : Opcode} {arg : Arg α} {issuer : Option Nat} {sources : List (Tree α)}
    (hcode : code.isElementwise = true) (harity : code.arity = some sources.length)
    (h : ∀ t ∈ sources, Pointwise shape t) : Pointwise shape (.node code arg issuer sources)

theorem Pointwise.issuedFor {shape : Shape} {t : Tree α} (h : t.Pointwise shape) (id : Nat) :
    (t.issuedFor id).Pointwise shape := by
  cases h with
  | buffer h => exact .buffer h
  | node hcode harity h => exact .node hcode harity h

theorem Pointwise.shape_eq {shape : Shape} {t : Tree α} (h : t.Pointwise shape) {b : Buffer}
    (hb : b ∈ t.leaves) : b.shape = shape := by
  induction h with
  | buffer h =>
    obtain rfl := List.mem_singleton.mp hb
    exact h
  | node _ _ _ ih =>
    rw [leaves_node, List.mem_flatMap] at hb
    obtain ⟨t, ht, hb⟩ := hb
    exact ih t ht hb

/-- Where leaves are replaced by elementwise trees of another shape, an elementwise tree takes that
shape. -/
theorem Pointwise.substitute {shape target : Shape} {m : Nat → Option (Tree α)} {t : Tree α}
    (h : t.Pointwise shape)
    (hm : ∀ b ∈ t.leaves, ((m b.id).getD (.buffer b)).Pointwise target) :
    (t.substitute m).Pointwise target := by
  induction h with
  | @buffer b => exact hm b (by simp)
  | node hcode harity _ ih =>
    rw [substitute_node]
    refine .node hcode (by rw [List.length_map, harity]) ?_
    intro u hu
    obtain ⟨t, ht, rfl⟩ := List.mem_map.mp hu
    exact ih t ht fun b hb => hm b (by simpa using ⟨t, ht, hb⟩)

end Tree

end TensorGraph
