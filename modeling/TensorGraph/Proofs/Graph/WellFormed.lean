import TensorGraph.Proofs.Graph.Readers
import TensorGraph.Proofs.Tracker.Reshape
/-!
# Well-formed graphs

A base reads older buffers only, in one of three forms: a load from buffers, a tree of elementwise
operations on buffers of its own shape, or one reduction of a buffer. The graph does not list the
views that were handed out; a census of all buffers by number stands beside it.

- `Tree.Form`: the forms of an operation.
- `Graph.WellFormed`: the graphs that building gives.
- `Graph.Grows`: what later graphs keep of earlier ones.
-/

namespace TensorGraph

variable {α : Type}

/-! ## Forms of operations -/

/-- The form of an operation that computes a base. -/
inductive Tree.Form (base : Base) : Tree α → Prop
  /-- A load from as many buffers as it takes. -/
  | load {op : LoadOp} {arg : Arg α} {issuer : Option Nat} {sources : List (Tree α)}
    (harity : ∀ n, (Opcode.load op).arity = some n → sources.length = n)
    (h : ∀ t ∈ sources, ∃ b, t = .buffer b) : Form base (.node (.load op) arg issuer sources)
  /-- A tree of elementwise operations on buffers of the shape of the base. -/
  | pointwise {t : Tree α} (h : t.Pointwise base.shape)
    (hcode : t.codeIs Opcode.isElementwise = true) (htype : t.type = some base.dtype) : Form base t
  /-- A reduction of one buffer to the shape of the base. -/
  | reduce {op : ReduceOp} {issuer : Option Nat} {b : Buffer}
    (hfold : List.Forall₂ (fun d e => d = e ∨ e = .static 1) b.shape.dims base.shape.dims)
    (htype : b.dtype = base.dtype) :
    Form base (.node (.reduce op) (.shape base.shape) issuer [.buffer b])

theorem Tree.Form.issuedFor {base : Base} {t : Tree α} (h : t.Form base) (id : Nat) :
    (t.issuedFor id).Form base := by
  cases h with
  | load harity h => exact .load harity h
  | pointwise h hcode htype =>
    refine .pointwise (h.issuedFor id) ?_ (by rw [type_issuedFor, htype])
    cases t <;> exact hcode
  | reduce hfold htype => exact .reduce hfold htype

/-- The element type of an operation that is no load is that of its base. -/
theorem Tree.Form.type_eq {base : Base} {t : Tree α} (h : t.Form base)
    (hload : t.codeIs Opcode.isLoad = false) : t.type = some base.dtype := by
  cases h with
  | load => cases hload
  | pointwise _ _ htype => exact htype
  | reduce _ htype => exact congrArg some htype

/-- An elementwise operation reads buffers of the shape of the base. -/
theorem Tree.Form.of_isElementwise {base : Base} {t : Tree α} (h : t.Form base)
    (hcode : t.codeIs Opcode.isElementwise = true) : t.Pointwise base.shape := by
  cases h with
  | load => cases hcode
  | pointwise h => exact h
  | reduce => cases hcode

/-- A reduction reads one buffer. -/
theorem Tree.Form.of_isReduce {base : Base} {t : Tree α} (h : t.Form base)
    (hcode : t.codeIs Opcode.isReduce = true) :
    ∃ op issuer b, t = .node (.reduce op) (.shape base.shape) issuer [.buffer b]
      ∧ List.Forall₂ (fun d e => d = e ∨ e = .static 1) b.shape.dims base.shape.dims
      ∧ b.dtype = base.dtype := by
  cases h with
  | load => cases hcode
  | pointwise _ helementwise =>
    rw [codeIs_eq_false hcode fun _ => Opcode.isElementwise_of_isReduce] at helementwise
    cases helementwise
  | reduce hfold htype => exact ⟨_, _, _, rfl, hfold, htype⟩

/-- The operation `t` may compute `base`: it has one of the forms and reads buffers older than the
base. -/
structure Tree.Computes (W : Census) (base : Base) (t : Tree α) : Prop where
  /-- The form of the operation. -/
  form : t.Form base
  /-- Unless elementwise operations are merged, there is one operation only. -/
  single : base.config.fusion.joinsElementwise = false → ∀ u ∈ t.sources, ∃ b, u = .buffer b
  /-- The leaves were handed out before the base. -/
  older : ∀ b ∈ t.leaves, W.Lists b ∧ b.id < base.id

/-! ## Well-formed graphs -/

/-- A graph as building gives it, with all buffers handed out. -/
structure Graph.WellFormed (W : Census) (g : Graph α) : Prop where
  /-- Newer bases come first. -/
  sorted : g.cores.Pairwise fun e f => f.base.id < e.base.id
  /-- A buffer is listed under its number. -/
  census_id : ∀ i b, W i = some b → b.id = i
  /-- Numbers are handed out in order. -/
  census_lt : ∀ i b, W i = some b → i < g.next
  /-- A buffer is no older than its base. -/
  census_le : ∀ i b, W i = some b → b.base.id ≤ i
  /-- The base of a buffer is in the graph. -/
  census_base : ∀ i b, W i = some b → ∃ e ∈ g.cores, e.base = b.base
  /-- The tracker of a buffer is made by movements of the storage of its base. -/
  census_over : ∀ i b, W i = some b → b.tracker.Over b.base.shape
  /-- A base is handed out as the handle on it. -/
  base_listed : ∀ e ∈ g.cores, W.Lists e.base.buffer
  /-- An operation computes its base. -/
  computes : ∀ e ∈ g.cores, ∀ op, e.op = some op → op.Computes W e.base
  /-- The registered readers are the views, and the bases that read. -/
  enrolled : g.Enrolled W

namespace Graph

variable {W W' : Census} {g g' : Graph α}

theorem wellFormed_empty : ({} : Graph α).WellFormed fun _ => none where
  sorted := .nil
  census_id _ _ h := absurd h (Option.some_ne_none _).symm
  census_lt _ _ h := absurd h (Option.some_ne_none _).symm
  census_le _ _ h := absurd h (Option.some_ne_none _).symm
  census_base _ _ h := absurd h (Option.some_ne_none _).symm
  census_over _ _ h := absurd h (Option.some_ne_none _).symm
  base_listed _ he := absurd he List.not_mem_nil
  computes _ he := absurd he List.not_mem_nil
  enrolled := enrolled_empty _ fun _ => rfl

theorem WellFormed.lt_next (hg : g.WellFormed W) {b : Buffer} (hb : W.Lists b) : b.id < g.next :=
  hg.census_lt _ _ hb

theorem WellFormed.base_le (hg : g.WellFormed W) {b : Buffer} (hb : W.Lists b) :
    b.base.id ≤ b.id :=
  hg.census_le _ _ hb

theorem WellFormed.over (hg : g.WellFormed W) {b : Buffer} (hb : W.Lists b) :
    b.tracker.Over b.base.shape :=
  hg.census_over _ _ hb

theorem WellFormed.proper (hg : g.WellFormed W) {b : Buffer} (hb : W.Lists b) : b.tracker.Proper :=
  (hg.over hb).proper

/-- The handle on the base of a buffer was handed out, too. -/
theorem WellFormed.lists_base (hg : g.WellFormed W) {b : Buffer} (hb : W.Lists b) :
    W.Lists b.base.buffer := by
  obtain ⟨e, he, hbase⟩ := hg.census_base _ _ hb
  exact hbase ▸ hg.base_listed e he

theorem WellFormed.root_eq (hg : g.WellFormed W) {b : Buffer} (hb : W.Lists b) :
    b.root = b.base.buffer :=
  hb.root_eq (hg.lists_base hb)

theorem WellFormed.eq_of_id_eq (hg : g.WellFormed W) {e f : Entry α} (he : e ∈ g.cores)
    (hf : f ∈ g.cores) (h : e.base.id = f.base.id) : e = f := by
  obtain ⟨i, hi, rfl⟩ := List.mem_iff_getElem.mp he
  obtain ⟨j, hj, rfl⟩ := List.mem_iff_getElem.mp hf
  have hsorted := List.pairwise_iff_getElem.mp hg.sorted
  rcases Nat.lt_trichotomy i j with hlt | rfl | hlt
  · exact absurd h (Nat.ne_of_gt (hsorted i j hi hj hlt))
  · rfl
  · exact absurd h (Nat.ne_of_lt (hsorted j i hj hi hlt))

/-- The entry that is found for a base is the one of the base. -/
theorem WellFormed.find?_eq (hg : g.WellFormed W) {e : Entry α} (he : e ∈ g.cores) :
    g.cores.find? (fun f => f.base.id = e.base.id) = some e := by
  cases h : g.cores.find? (fun f => f.base.id = e.base.id) with
  | none => exact absurd (List.find?_eq_none.mp h e he) (by simp)
  | some f =>
    have hf := List.mem_of_find?_eq_some h
    have hid : f.base.id = e.base.id := by simpa using List.find?_some h
    rw [hg.eq_of_id_eq hf he hid]

theorem WellFormed.op?_eq (hg : g.WellFormed W) {e : Entry α} (he : e ∈ g.cores) {b : Buffer}
    (hb : e.base = b.base) : g.op? b = e.op := by
  rw [Graph.op?_eq, ← hb, hg.find?_eq he]
  rfl

theorem WellFormed.result?_eq (hg : g.WellFormed W) {e : Entry α} (he : e ∈ g.cores) {b : Buffer}
    (hb : e.base = b.base) : g.result? b = e.result := by
  rw [Graph.result?_eq, ← hb, hg.find?_eq he]
  rfl

/-- The operation of a buffer that was handed out computes its base. -/
theorem WellFormed.computes_op? (hg : g.WellFormed W) {b : Buffer} (hb : W.Lists b) {op : Tree α}
    (hop : g.op? b = some op) : op.Computes W b.base := by
  obtain ⟨e, he, hbase⟩ := hg.census_base _ _ hb
  rw [hg.op?_eq he hbase] at hop
  exact hbase ▸ hg.computes e he op hop

/-- The operation of a buffer that was handed out reads older bases. -/
theorem WellFormed.older_base (hg : g.WellFormed W) {b : Buffer} (hb : W.Lists b) {op : Tree α}
    (hop : g.op? b = some op) : ∀ c ∈ op.leaves, W.Lists c ∧ c.base.id < b.base.id := by
  intro c hc
  obtain ⟨hlist, hlt⟩ := (hg.computes_op? hb hop).older c hc
  exact ⟨hlist, Nat.lt_of_le_of_lt (hg.base_le hlist) hlt⟩

/-- The leaves of an operation were handed out before the base. -/
theorem WellFormed.older_leaf (hg : g.WellFormed W) {e : Entry α} (he : e ∈ g.cores) {c : Buffer}
    (hc : c ∈ e.leaves) : W.Lists c ∧ c.id < e.base.id := by
  cases hop : e.op with
  | none => simp [Entry.leaves, hop] at hc
  | some op => exact (hg.computes e he op hop).older c (Entry.leaves_eq hop ▸ hc)

theorem WellFormed.leaf_base_lt (hg : g.WellFormed W) {e : Entry α} (he : e ∈ g.cores) {c : Buffer}
    (hc : c ∈ e.leaves) : c.base.id < e.base.id := by
  obtain ⟨hlist, hlt⟩ := hg.older_leaf he hc
  exact Nat.lt_of_le_of_lt (hg.base_le hlist) hlt

/-! ## Growth -/

/-- What a later graph keeps of an earlier one: numbers are not given back, and bases keep their
operations and their results. -/
structure Grows (g g' : Graph α) : Prop where
  /-- Numbers are handed out in order. -/
  next_le : g.next ≤ g'.next
  /-- Bases stay. -/
  kept : ∀ e ∈ g.cores, ∃ e' ∈ g'.cores, e'.base = e.base ∧ e'.op = e.op
    ∧ ∀ block, e.result = some block → e'.result = some block

theorem Grows.refl (g : Graph α) : g.Grows g where
  next_le := Nat.le_refl _
  kept e he := ⟨e, he, rfl, rfl, fun _ h => h⟩

theorem Grows.trans {g₁ g₂ g₃ : Graph α} (h : g₁.Grows g₂) (h' : g₂.Grows g₃) : g₁.Grows g₃ where
  next_le := Nat.le_trans h.next_le h'.next_le
  kept e he := by
    obtain ⟨e', he', hbase, hop, hresult⟩ := h.kept e he
    obtain ⟨e'', he'', hbase', hop', hresult'⟩ := h'.kept e' he'
    exact ⟨e'', he'', hbase'.trans hbase, hop'.trans hop,
      fun block hblock => hresult' block (hresult block hblock)⟩

/-- A later graph that has the same bases with the same operations and results. -/
structure Same (g g' : Graph α) : Prop where
  /-- Numbers are handed out in order. -/
  next_le : g.next ≤ g'.next
  /-- Nothing but readers has changed. -/
  cores : g'.cores = g.cores
  /-- Readers with new numbers come after those that were there. -/
  readers : List.Forall₂ (fun e e' => ∃ news, e'.readers = e.readers ++ news ∧ ∀ r ∈ news, g.next ≤ r)
    g.entries g'.entries

theorem Same.refl (g : Graph α) : g.Same g where
  next_le := Nat.le_refl _
  cores := rfl
  readers := List.forall₂_same.mpr fun _ _ => ⟨[], (List.append_nil _).symm, nofun⟩

theorem Same.trans {g₁ g₂ g₃ : Graph α} (h : g₁.Same g₂) (h' : g₂.Same g₃) : g₁.Same g₃ where
  next_le := Nat.le_trans h.next_le h'.next_le
  cores := h'.cores.trans h.cores
  readers := by
    refine (forall₂_comp h.readers h'.readers).imp ?_
    rintro e e'' ⟨e', ⟨news, heq, hnews⟩, news', heq', hnews'⟩
    refine ⟨news ++ news', by rw [heq', heq, List.append_assoc], fun r hr => ?_⟩
    rcases List.mem_append.mp hr with hr | hr
    · exact hnews r hr
    · exact h.next_le.trans (hnews' r hr)

theorem Same.grows (h : g.Same g') : g.Grows g' where
  next_le := h.next_le
  kept e he := ⟨e, h.cores ▸ he, rfl, rfl, fun _ h => h⟩

theorem WellFormed.grows_add (hg : g.WellFormed W) {c : Buffer} (hid : c.id = g.next) :
    W.Grows (W.add c) := by
  intro i b hb
  rw [Census.add, if_neg (by rw [hid]; exact Nat.ne_of_lt (hg.census_lt i b hb)), hb]

/-- A graph stays well-formed when the next number is handed out, perhaps with a base of that
number. -/
theorem WellFormed.extend (hg : g.WellFormed W) {c : Buffer} (news : Option (Entry α))
    (hid : c.id = g.next) (hnext : g'.next = g.next + 1) (hcores : g'.cores = news.toList ++ g.cores)
    (hnews : ∀ e ∈ news, e.base.buffer = c ∧ ∀ op, e.op = some op → op.Computes W e.base)
    (hle : c.base.id ≤ c.id) (hbase : ∃ e ∈ g'.cores, e.base = c.base)
    (hover : c.tracker.Over c.base.shape) (henrolled : g'.Enrolled (W.add c)) :
    g'.WellFormed (W.add c) := by
  have hgrows := hg.grows_add hid
  -- what is handed out now is the new buffer or was handed out before
  have hadd (i : Nat) (b : Buffer) (hb : W.add c i = some b) : (i = c.id ∧ b = c) ∨ W i = some b := by
    rw [Census.add] at hb
    split at hb
    · next hi => exact .inl ⟨hi, (Option.some.inj hb).symm⟩
    · exact .inr hb
  have hmem (e : Entry α) : e ∈ g'.cores ↔ news = some e ∨ e ∈ g.cores := by
    rw [hcores, List.mem_append, Option.mem_toList]
  constructor
  case sorted =>
    rw [hcores]
    cases news with
    | none => exact hg.sorted
    | some e =>
      refine List.pairwise_cons.mpr ⟨?_, hg.sorted⟩
      intro f hf
      have he : e.base.id = g.next := by
        rw [← hid, ← (hnews e rfl).1]
        rfl
      rw [he]
      exact hg.lt_next (hg.base_listed f hf)
  case census_id =>
    intro i b hb
    rcases hadd i b hb with ⟨rfl, rfl⟩ | hb
    · rfl
    · exact hg.census_id i b hb
  case census_lt =>
    intro i b hb
    rw [hnext]
    rcases hadd i b hb with ⟨rfl, rfl⟩ | hb
    · exact hid ▸ Nat.lt_succ_self _
    · exact Nat.lt_succ_of_lt (hg.census_lt i b hb)
  case census_le =>
    intro i b hb
    rcases hadd i b hb with ⟨rfl, rfl⟩ | hb
    · exact hle
    · exact hg.census_le i b hb
  case census_base =>
    intro i b hb
    rcases hadd i b hb with ⟨rfl, rfl⟩ | hb
    · exact hbase
    · obtain ⟨e, he, hbase⟩ := hg.census_base i b hb
      exact ⟨e, (hmem e).mpr (.inr he), hbase⟩
  case census_over =>
    intro i b hb
    rcases hadd i b hb with ⟨rfl, rfl⟩ | hb
    · exact hover
    · exact hg.census_over i b hb
  case base_listed =>
    intro e he
    rcases (hmem e).mp he with he | he
    · exact (hnews e he).1 ▸ W.lists_add c
    · exact hgrows.lists (hg.base_listed e he)
  case computes =>
    intro e he op hop
    have hcomputes : op.Computes W e.base := by
      rcases (hmem e).mp he with he | he
      · exact (hnews e he).2 op hop
      · exact hg.computes e he op hop
    exact ⟨hcomputes.form, hcomputes.single, fun b hb =>
      ⟨hgrows.lists (hcomputes.older b hb).1, (hcomputes.older b hb).2⟩⟩
  case enrolled => exact henrolled

/-- A view that is handed out keeps the graph well-formed. -/
theorem WellFormed.insertView (hg : g.WellFormed W) {b : Buffer} (hb : W.Lists b)
    {tracker : Tracker} (ht : tracker.Over b.base.shape) :
    (g.insertView b tracker).2.WellFormed (W.add ⟨g.next, tracker, b.base⟩) := by
  have hlt : b.base.id < g.next := (hg.base_le hb).trans_lt (hg.lt_next hb)
  refine hg.extend none rfl (next_insertView g b tracker) (cores_insertView g b tracker)
    nofun hlt.le ?_ ht (hg.enrolled.insertView tracker (hg.grows_add rfl) hlt)
  · rw [cores_insertView]
    exact hg.census_base _ b hb

theorem same_insertView (g : Graph α) (b : Buffer) (tracker : Tracker) :
    g.Same (g.insertView b tracker).2 where
  next_le := Nat.le_succ _
  cores := cores_insertView g b tracker
  readers := by
    refine (enrolls_register g b g.next).imp fun e e' he => ?_
    rcases he.readers with heq | ⟨-, heq, -⟩
    · exact ⟨[], by rw [heq, List.append_nil], nofun⟩
    · exact ⟨[g.next], heq, fun r hr => (List.mem_singleton.mp hr).ge⟩

/-- A base that is added keeps the graph well-formed if its operation computes it. -/
theorem WellFormed.insert (hg : g.WellFormed W) {op : Option (Tree α)} {result : Option (Block α)}
    {shape : Shape} {dtype : DType} {device : String} {config : Config}
    (hop : ∀ t, op = some t → t.Computes W (g.nextBase shape dtype device config)) :
    (g.insert op result shape dtype device config).2.WellFormed
      (W.add (g.nextBase shape dtype device config).buffer) := by
  refine hg.extend (some _) rfl rfl (cores_insert ..) ?_ (Nat.le_refl _) ?_ .ofShape
    (hg.enrolled.insert _ _ _ _ _ _ (hg.grows_add rfl) fun b hb =>
      (hg.base_le hb).trans_lt (hg.lt_next hb))
  · rintro e ⟨⟩
    refine ⟨rfl, ?_⟩
    intro t ht
    obtain ⟨t, hsome, rfl⟩ := Option.map_eq_some_iff.mp ht
    obtain ⟨hform, hsingle, holder⟩ := hop t hsome
    exact ⟨hform.issuedFor _, by rwa [Tree.sources_issuedFor], by rwa [Tree.leaves_issuedFor]⟩
  · exact ⟨_, by rw [cores_insert]; exact List.mem_cons_self, rfl⟩

theorem grows_insert (g : Graph α) (op : Option (Tree α)) (result : Option (Block α))
    (shape : Shape) (dtype : DType) (device : String) (config : Config) :
    g.Grows (g.insert op result shape dtype device config).2 where
  next_le := Nat.le_succ _
  kept e he := ⟨e, by rw [cores_insert]; exact List.mem_cons_of_mem _ he, rfl, rfl, fun _ h => h⟩

/-- A change that leaves bases and operations alone keeps the graph well-formed. -/
theorem WellFormed.map (hg : g.WellFormed W) {f : Entry α → Entry α} (hnext : g'.next = g.next)
    (hcores : g'.cores = g.cores.map f) (hbase : ∀ e, (f e).base = e.base)
    (hop : ∀ e, (f e).op = e.op) (henrolled : g'.Enrolled W) : g'.WellFormed W where
  sorted := by
    rw [hcores, List.pairwise_map]
    simpa only [hbase] using hg.sorted
  census_id := hg.census_id
  census_lt i b hb := hnext ▸ hg.census_lt i b hb
  census_le := hg.census_le
  census_base i b hb := by
    obtain ⟨e, he, heq⟩ := hg.census_base i b hb
    exact ⟨f e, hcores ▸ List.mem_map_of_mem he, (hbase e).trans heq⟩
  census_over := hg.census_over
  base_listed c hc := by
    obtain ⟨e, he, rfl⟩ := List.mem_map.mp (hcores ▸ hc)
    exact hbase e ▸ hg.base_listed e he
  computes c hc op h := by
    obtain ⟨e, he, rfl⟩ := List.mem_map.mp (hcores ▸ hc)
    exact hbase e ▸ hg.computes e he op (hop e ▸ h)
  enrolled := henrolled

theorem WellFormed.countCall (hg : g.WellFormed W) (id : Nat) : (g.countCall id).WellFormed W :=
  hg.map rfl (cores_countCall g id) (fun e => by split <;> rfl) (fun e => by split <;> rfl)
    (hg.enrolled.modify id (fun _ => rfl) (fun _ => rfl) fun _ => rfl)

theorem grows_countCall (g : Graph α) (id : Nat) : g.Grows (g.countCall id) where
  next_le := Nat.le_refl _
  kept e he := by
    refine ⟨_, cores_countCall g id ▸ List.mem_map_of_mem he, ?_⟩
    split <;> exact ⟨rfl, rfl, fun _ h => h⟩

theorem WellFormed.setResult (hg : g.WellFormed W) (id : Nat) (block : Block α) :
    (g.setResult id block).WellFormed W :=
  hg.map rfl (cores_setResult g id block) (fun e => by split <;> rfl) (fun e => by split <;> rfl)
    (hg.enrolled.modify id (fun _ => rfl) (fun _ => rfl) fun _ => rfl)

/-- A result that is filled in replaces none. -/
theorem WellFormed.grows_setResult (hg : g.WellFormed W) {b : Buffer}
    (hb : g.isRealized b = false) (block : Block α) :
    g.Grows (g.setResult b.base.id block) where
  next_le := Nat.le_refl _
  kept e he := by
    refine ⟨_, cores_setResult g b.base.id block ▸ List.mem_map_of_mem he, ?_⟩
    split
    · next hid =>
      refine ⟨rfl, rfl, ?_⟩
      intro old hold
      have hfind : g.result? b = e.result := by
        rw [Graph.result?_eq, ← hid, hg.find?_eq he]
        rfl
      rw [isRealized, hfind, hold] at hb
      cases hb
    · exact ⟨rfl, rfl, fun _ h => h⟩

end Graph

end TensorGraph
