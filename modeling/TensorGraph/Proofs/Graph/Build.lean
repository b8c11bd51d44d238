import TensorGraph.Graph.Build
import TensorGraph.Proofs.Graph.WellFormed
import TensorGraph.Proofs.Outcome
/-!
# What building does

Building adds bases and hands out views. What each operation adds is stated once: the views made
on the way, the tree that stands for an operand, and the base in the end.

- `Graph.Viewed`: the outcome of handing out views.
- `Buffer.sat_move`: a movement hands out a view at most.
- `Tree.Stands`: the trees that may stand for an operand.
- `Buffer.sat_operands`: operands are written out or read where they are.
-/

namespace TensorGraph

variable {α : Type}

/-- Nothing but views was handed out between two well-formed graphs. -/
structure Graph.Viewed (W : Census) (g : Graph α) (W' : Census) (g' : Graph α) : Prop where
  /-- The later graph is well-formed. -/
  wellFormed : g'.WellFormed W'
  /-- Buffers keep their numbers. -/
  census : W.Grows W'
  /-- The bases are the same. -/
  same : g.Same g'

namespace Graph

variable {W W' W'' : Census} {g g' g'' : Graph α}

theorem WellFormed.viewed (hg : g.WellFormed W) : Viewed W g W g := ⟨hg, .refl W, .refl g⟩

theorem Viewed.trans (h : Viewed W g W' g') (h' : Viewed W' g' W'' g'') : Viewed W g W'' g'' :=
  ⟨h'.wellFormed, h.census.trans h'.census, h.same.trans h'.same⟩

theorem Viewed.op?_eq (h : Viewed W g W' g') (b : Buffer) : g'.op? b = g.op? b :=
  op?_congr h.same.cores b

end Graph

open TensorGraph.Graph

variable {W W' : Census} {g : Graph α}

/-! ## Movements -/

namespace Buffer

variable {b : Buffer}

/-- The buffer `c` is a view of the base of `b` after the movement `m`. -/
structure Moved (m : Movement) (b c : Buffer) : Prop where
  /-- The base is the same. -/
  base : c.base = b.base
  /-- The tracker has moved. -/
  tracker : b.tracker.move m = .ok c.tracker

theorem sat_withTracker (hg : g.WellFormed W) (hb : W.Lists b) {tracker : Tracker}
    (ht : tracker.Over b.base.shape) {fail : Error → Graph α → Prop} :
    Sat (b.withTracker tracker) g (fun c g' => ∃ W', Viewed W g W' g' ∧ W'.Lists c
      ∧ c.base = b.base ∧ c.tracker = tracker) fail := by
  rw [withTracker]
  split
  · next h => exact ⟨W, hg.viewed, hb, rfl, h.symm⟩
  · rw [sat_modifyGet]
    exact ⟨_, ⟨hg.insertView hb ht, hg.grows_add rfl, same_insertView g b tracker⟩,
      Census.lists_add W _, rfl, rfl⟩

/-- A movement that the tracker makes hands out a view. -/
theorem sat_move_of_ok (hg : g.WellFormed W) (hb : W.Lists b) {m : Movement} {tracker : Tracker}
    (h : b.tracker.move m = .ok tracker) {fail : Error → Graph α → Prop} :
    Sat (b.move m) g (fun c g' => ∃ W', Viewed W g W' g' ∧ W'.Lists c ∧ b.Moved m c
      ∧ c.tracker = tracker) fail := by
  rw [move, h]
  refine (sat_withTracker hg hb ((hg.over hb).move m h)).imp ?_ fun _ _ h => h
  rintro c g' ⟨W', hviewed, hc, hbase, rfl⟩
  exact ⟨W', hviewed, hc, ⟨hbase, h⟩, rfl⟩

/-- A movement hands out a view, unless it is refused. -/
theorem sat_move (hg : g.WellFormed W) (hb : W.Lists b) (m : Movement) :
    Sat (b.move m) g (fun c g' => ∃ W', Viewed W g W' g' ∧ W'.Lists c ∧ b.Moved m c)
      fun e g' => g' = g ∧ ∃ cause, b.tracker.move m = .error cause ∧ e = .movement cause := by
  cases hmove : b.tracker.move m with
  | ok tracker =>
    refine (sat_move_of_ok hg hb hmove).imp ?_ fun _ _ h => h
    rintro c g' ⟨W', hviewed, hc, hmoved, -⟩
    exact ⟨W', hviewed, hc, hmoved⟩
  | error cause =>
    rw [move, hmove]
    exact ⟨rfl, cause, rfl, rfl⟩

end Buffer

/-! ## Reshaped leaves -/

/-- What stands for the leaf `b` is the leaf in the shape `shape`. -/
def Tree.Reshapes (W : Census) (shape : Shape) (m : Nat → Option (Tree α)) (b : Buffer) : Prop :=
  ∃ c, m b.id = some (.buffer c) ∧ W.Lists c ∧ b.Moved (.reshape shape) c

theorem Tree.Reshapes.mono {shape : Shape} {m : Nat → Option (Tree α)} {b : Buffer}
    (h : Tree.Reshapes W shape m b) (hW : W.Grows W') : Tree.Reshapes W' shape m b := by
  obtain ⟨c, hm, hc, hmoved⟩ := h
  exact ⟨c, hm, hW.lists hc, hmoved⟩

/-- The leaves of a list with what stands for them in the shape `shape`. -/
def reshapeAll (shape : Shape) (bs : List Buffer) : Build α (List (Nat × Tree α)) :=
  bs.mapM fun b => do return (b.id, Tree.buffer (← b.move (.reshape shape)))

theorem sat_reshapeAll {shape : Shape} {bs : List Buffer} (hg : g.WellFormed W)
    (hbs : ∀ b ∈ bs, W.Lists b) :
    Sat (reshapeAll shape bs : Build α _) g
      (fun pairs g' => ∃ W', Viewed W g W' g' ∧ pairs.map Prod.fst = bs.map Buffer.id
        ∧ ∀ b ∈ bs, ∃ c, (b.id, Tree.buffer c) ∈ pairs ∧ W'.Lists c ∧ b.Moved (.reshape shape) c)
      fun e g' => (∃ W', Viewed W g W' g')
        ∧ ∃ b ∈ bs, ∃ cause, b.tracker.reshape shape = .error cause ∧ e = .movement cause := by
  induction bs generalizing g W with
  | nil => exact ⟨W, hg.viewed, rfl, by simp⟩
  | cons b bs ih =>
    rw [reshapeAll, List.mapM_cons, sat_bind, sat_bind]
    refine (Buffer.sat_move hg (hbs b List.mem_cons_self) (.reshape shape)).imp ?_ ?_
    · rintro c g₁ ⟨W₁, hviewed, hc, hmoved⟩
      rw [sat_pure, sat_bind]
      refine (ih hviewed.wellFormed fun d hd =>
        hviewed.census.lists (hbs d (List.mem_cons_of_mem _ hd))).imp ?_ ?_
      · rintro pairs g₂ ⟨W₂, hviewed₂, hids, hpairs⟩
        refine ⟨W₂, hviewed.trans hviewed₂, by rw [List.map_cons, List.map_cons, hids], ?_⟩
        intro d hd
        rcases List.mem_cons.mp hd with rfl | hd
        · exact ⟨c, List.mem_cons_self, hviewed₂.census.lists hc, hmoved⟩
        · obtain ⟨e, he, hlist, hmoved⟩ := hpairs d hd
          exact ⟨e, List.mem_cons_of_mem _ he, hlist, hmoved⟩
      · rintro e g₂ ⟨⟨W₂, hviewed₂⟩, d, hd, hcause⟩
        exact ⟨⟨W₂, hviewed.trans hviewed₂⟩, d, List.mem_cons_of_mem _ hd, hcause⟩
    · rintro e g₁ ⟨rfl, cause, hcause⟩
      exact ⟨⟨W, hg.viewed⟩, b, List.mem_cons_self, cause, hcause⟩

/-- Leaves that were handed out are told apart by their numbers. -/
theorem mem_buffers_of_lists {t : Tree α} (ht : ∀ b ∈ t.leaves, W.Lists b) {b : Buffer} :
    b ∈ t.buffers ↔ b ∈ t.leaves :=
  Tree.mem_buffers_iff fun b hb c hc h => (ht b hb).eq (ht c hc) h

/-- The trees that stand for the operation `op` of the base of `b` in the shape of `b`: the operation
itself if that is the shape of the base, and otherwise the operation on reshaped leaves. -/
inductive Tree.Expresses (W : Census) (b : Buffer) (op : Tree α) : Tree α → Prop
  /-- The shape is that of the base. -/
  | same (h : b.shape = b.base.shape) : Expresses W b op op
  /-- Every leaf is reshaped. -/
  | reshaped {m : Nat → Option (Tree α)} (h : ∀ c ∈ op.leaves, Reshapes W b.shape m c) :
    Expresses W b op (op.substitute m)

theorem Buffer.sat_express {b : Buffer} {op : Tree α} (hg : g.WellFormed W)
    (hop : ∀ c ∈ op.leaves, W.Lists c) :
    Sat (b.express op) g (fun t g' => ∃ W', Viewed W g W' g' ∧ Tree.Expresses W' b op t)
      fun e g' => (∃ W', Viewed W g W' g') ∧ b.shape ≠ b.base.shape
        ∧ ∃ cause, e = .movement cause ∧ ∃ c ∈ op.leaves, c.tracker.reshape b.shape = .error cause := by
  rw [express]
  split
  · next h => exact ⟨W, hg.viewed, .same h⟩
  · next h =>
    rw [sat_bind]
    refine (sat_reshapeAll hg fun c hc => hop c (Tree.mem_leaves_of_mem_buffers hc)).imp ?_ ?_
    · rintro pairs g' ⟨W', hviewed, hids, hpairs⟩
      refine ⟨W', hviewed, .reshaped ?_⟩
      intro c hc
      obtain ⟨d, hd, hlist, hmoved⟩ := hpairs c ((mem_buffers_of_lists hop).mpr hc)
      refine ⟨d, ?_, hlist, hmoved⟩
      exact Tree.lookup_of_mem (hids ▸ Tree.nodup_firstVisits [] _) hd
    · rintro e g' ⟨hviewed, c, hc, cause, hcause, he⟩
      exact ⟨hviewed, h, cause, he, c, Tree.mem_leaves_of_mem_buffers hc, hcause⟩

/-! ## Operands -/

/-- The trees that may stand for the operand `b`: the buffer itself, or its operation if that is
elementwise and `b` reads it densely. -/
inductive Tree.Stands (W : Census) (g : Graph α) (b : Buffer) : Tree α → Prop
  /-- The operand is read where it is. -/
  | buffer : Stands W g b (.buffer b)
  /-- The operand is written out. -/
  | inlined {op t : Tree α} (hop : g.op? b = some op) (hcode : op.codeIs Opcode.isElementwise = true)
    (hdense : b.isContiguous = true) (h : Expresses W b op t) : Stands W g b t

theorem Tree.Expresses.mono {b : Buffer} {op t : Tree α} (h : Expresses W b op t)
    (hW : W.Grows W') : Expresses W' b op t := by
  cases h with
  | same h => exact .same h
  | reshaped h => exact .reshaped fun c hc => (h c hc).mono hW

theorem Tree.Stands.mono {b : Buffer} {t : Tree α} (h : t.Stands W g b) (hW : W.Grows W') :
    t.Stands W' g b := by
  cases h with
  | buffer => exact .buffer
  | inlined hop hcode hdense h => exact .inlined hop hcode hdense (h.mono hW)

/-- An operand that cannot be written out: it is read densely, but a leaf of its operation does not
take its shape, for the given cause. -/
def Buffer.Unexpressed (g : Graph α) (b : Buffer) (cause : MovementError) : Prop :=
  b.isContiguous = true ∧ b.shape ≠ b.base.shape ∧ ∃ op, g.op? b = some op
    ∧ op.codeIs Opcode.isElementwise = true
    ∧ ∃ c ∈ op.leaves, c.tracker.reshape b.shape = .error cause

theorem Buffer.sat_operand {b : Buffer} (hg : g.WellFormed W) (hb : W.Lists b) (merge : Bool)
    (held : List Buffer) :
    Sat (b.operand merge held) g
      (fun t g' => ∃ W', Viewed W g W' g' ∧ t.Stands W' g b ∧ (merge = false → t = .buffer b))
      fun e g' => (∃ W', Viewed W g W' g') ∧ ∃ cause, e = .movement cause ∧ b.Unexpressed g cause := by
  rw [operand, sat_bind, sat_get]
  split
  · next op hop =>
    split
    · next hinline =>
      simp only [isInlinable, Bool.and_eq_true] at hinline
      obtain ⟨hmerge, ⟨⟨-, hdense⟩, hcode⟩, -⟩ := hinline
      have hleaves := (hg.computes_op? hb hop).older
      refine (sat_express hg fun c hc => (hleaves c hc).1).imp ?_ ?_
      · rintro t g' ⟨W', hviewed, ht⟩
        refine ⟨W', hviewed, .inlined hop hcode hdense ht, fun hnot => ?_⟩
        rw [hmerge] at hnot
        cases hnot
      · rintro e g' ⟨hviewed, hshape, cause, he, hcause⟩
        exact ⟨hviewed, cause, he, hdense, hshape, op, hop, hcode, hcause⟩
    · exact ⟨W, hg.viewed, .buffer, fun _ => rfl⟩
  · exact ⟨W, hg.viewed, .buffer, fun _ => rfl⟩

theorem Buffer.Unexpressed.of_viewed {g' : Graph α} {b : Buffer} {cause : MovementError}
    (hviewed : Viewed W g W' g') (h : b.Unexpressed g' cause) : b.Unexpressed g cause := by
  obtain ⟨hdense, hshape, op, hop, hrest⟩ := h
  exact ⟨hdense, hshape, op, (hviewed.op?_eq b).symm.trans hop, hrest⟩

theorem Tree.Stands.of_viewed {g' : Graph α} {W'' : Census} {b : Buffer} {t : Tree α}
    (hviewed : Viewed W g W' g') (h : t.Stands W'' g' b) : t.Stands W'' g b := by
  cases h with
  | buffer => exact .buffer
  | inlined hop hcode hdense h =>
    exact .inlined ((hviewed.op?_eq b).symm.trans hop) hcode hdense h

theorem Buffer.sat_operands {bs : List Buffer} (hg : g.WellFormed W) (hbs : ∀ b ∈ bs, W.Lists b)
    (merge : Bool) (held : List Buffer) :
    Sat (operands merge held bs) g
      (fun ts g' => ∃ W', Viewed W g W' g' ∧ List.Forall₂ (fun b t => t.Stands W' g b) bs ts
        ∧ (merge = false → ts = bs.map .buffer))
      fun e g' => (∃ W', Viewed W g W' g')
        ∧ ∃ cause, e = .movement cause ∧ ∃ b ∈ bs, b.Unexpressed g cause := by
  induction bs generalizing g W held with
  | nil => exact ⟨W, hg.viewed, .nil, fun _ => rfl⟩
  | cons b bs ih =>
    rw [operands, sat_bind]
    refine (sat_operand hg (hbs b List.mem_cons_self) merge held).imp ?_ ?_
    · rintro t g₁ ⟨W₁, hviewed, ht, hsame⟩
      rw [sat_bind]
      refine (ih hviewed.wellFormed (fun c hc =>
        hviewed.census.lists (hbs c (List.mem_cons_of_mem _ hc))) _).imp ?_ ?_
      · rintro ts g₂ ⟨W₂, hviewed₂, hts, hsames⟩
        refine ⟨W₂, hviewed.trans hviewed₂, .cons ?_ (hts.imp fun c u hu => hu.of_viewed hviewed),
          fun hmerge => ?_⟩
        · exact ht.mono hviewed₂.census
        · rw [hsame hmerge, hsames hmerge, List.map_cons]
      · rintro e g₂ ⟨⟨W₂, hviewed₂⟩, cause, he, c, hc, hcause⟩
        exact ⟨⟨W₂, hviewed.trans hviewed₂⟩, cause, he, c, List.mem_cons_of_mem _ hc,
          hcause.of_viewed hviewed⟩
    · rintro e g₁ ⟨hviewed, cause, he, hcause⟩
      exact ⟨hviewed, cause, he, b, List.mem_cons_self, hcause⟩

theorem Graph.WellFormed.pointwise_op? (hg : g.WellFormed W) {b : Buffer} (hb : W.Lists b)
    {op : Tree α} (hop : g.op? b = some op) (hcode : op.codeIs Opcode.isElementwise = true) :
    op.Pointwise b.base.shape ∧ op.type = some b.dtype := by
  cases (hg.computes_op? hb hop).form with
  | load => simp [Tree.codeIs, Tree.code?, Opcode.isElementwise] at hcode
  | pointwise h _ htype => exact ⟨h, htype⟩
  | reduce => simp [Tree.codeIs, Tree.code?, Opcode.isElementwise] at hcode

/-- What stands for an operand is an elementwise tree of its shape and its type, on leaves that
were handed out. -/
theorem Tree.Stands.pointwise (hg : g.WellFormed W) {b : Buffer} (hb : W.Lists b)
    (hW : W.Grows W') {t : Tree α} (h : t.Stands W' g b) :
    t.Pointwise b.shape ∧ t.type = some b.dtype ∧ ∀ c ∈ t.leaves, W'.Lists c := by
  cases h with
  | buffer =>
    refine ⟨.buffer rfl, rfl, ?_⟩
    intro c hc
    obtain rfl := List.mem_singleton.mp hc
    exact hW.lists hb
  | inlined hop hcode hdense h =>
    obtain ⟨hpointwise, htype⟩ := hg.pointwise_op? hb hop hcode
    have hleaves := (hg.computes_op? hb hop).older
    cases h with
    | same h => exact ⟨h ▸ hpointwise, htype, fun c hc => hW.lists (hleaves c hc).1⟩
    | @reshaped m h =>
      refine ⟨hpointwise.substitute ?_, ?_, ?_⟩
      · intro c hc
        obtain ⟨d, hd, -, hmoved⟩ := h c hc
        rw [hd, Option.getD_some]
        exact .buffer (Tracker.shape_reshape hmoved.tracker)
      · rw [type_substitute, htype]
        intro c hc
        obtain ⟨d, hd, -, hmoved⟩ := h c hc
        rw [hd, Option.getD_some, type_buffer, Buffer.dtype, hmoved.base]
        rfl
      · intro c hc
        obtain ⟨d, hd, hc⟩ := mem_leaves_substitute.mp hc
        obtain ⟨e, he, hlist, -⟩ := h d hd
        rw [he, Option.getD_some, leaves_buffer, List.mem_singleton] at hc
        exact hc ▸ hlist

/-! ## Elementwise operations -/

/-- The element type of an elementwise operation is the one that a kernel gives it. -/
theorem Buffer.nodeType_of_resultType {b : Buffer} {code : Opcode} {bs : List Buffer} {arg : Arg α}
    {dtype : DType} (hcode : code.isElementwise = true) (harity : code.arity = some bs.length)
    (h : resultType b code bs arg = .ok dtype) :
    Tree.nodeType code arg (bs.map Buffer.dtype) = some dtype := by
  cases code with
  | load => simp [Opcode.isElementwise] at hcode
  | reduce => simp [Opcode.isElementwise] at hcode
  | leaf => simp [Opcode.isElementwise] at hcode
  | unary op =>
    obtain ⟨x, rfl⟩ : ∃ x, bs = [x] := List.length_eq_one_iff.mp (Option.some.inj harity).symm
    cases op <;> cases arg <;> first | exact congrArg some (Except.ok.inj h) | cases h
  | binary op =>
    obtain ⟨x, y, rfl⟩ : ∃ x y, bs = [x, y] :=
      List.length_eq_two.mp (Option.some.inj harity).symm
    exact congrArg some (Except.ok.inj h)
  | ternary op =>
    obtain ⟨x, y, z, rfl⟩ : ∃ x y z, bs = [x, y, z] :=
      List.length_eq_three.mp (Option.some.inj harity).symm
    exact congrArg some (Except.ok.inj h)

/-- Why an elementwise operation is refused: the operation does not work element by element, it
takes another number of operands, an operand has another shape, or a conversion has no target. -/
def Buffer.Mismatched (b : Buffer) (code : Opcode) (others : List Buffer) (arg : Arg α) : Prop :=
  code.isElementwise = false ∨ code.arity ≠ some (b :: others).length
    ∨ (∃ c ∈ others, c.shape ≠ b.shape)
    ∨ (code = .unary .cast ∧ ∀ dtype, arg ≠ .target dtype)

theorem Buffer.resultType_eq_error {b : Buffer} {code : Opcode} {bs : List Buffer} {arg : Arg α} :
    (∃ e, resultType b code bs arg = .error e)
      ↔ code = .unary .cast ∧ ∀ dtype, arg ≠ .target dtype := by
  rw [resultType.eq_def]
  split <;> grind

theorem Buffer.resultType_ne_movement {b : Buffer} {code : Opcode} {bs : List Buffer} {arg : Arg α}
    {cause : MovementError} (h : resultType b code bs arg = .error (.movement cause)) : False := by
  rw [resultType.eq_def] at h
  split at h <;> cases h

/-! ## Added bases -/

/-- Between two well-formed graphs, bases were added and views handed out. -/
structure Graph.Leads (W : Census) (g : Graph α) (W' : Census) (g' : Graph α) : Prop where
  /-- The later graph is well-formed. -/
  wellFormed : g'.WellFormed W'
  /-- Buffers keep their numbers. -/
  census : W.Grows W'
  /-- Bases stay. -/
  grows : g.Grows g'

namespace Graph

variable {W'' : Census} {g' g'' : Graph α}

theorem Viewed.leads (h : Viewed W g W' g') : Leads W g W' g' :=
  ⟨h.wellFormed, h.census, h.same.grows⟩

theorem Leads.trans (h : Leads W g W' g') (h' : Leads W' g' W'' g'') : Leads W g W'' g'' :=
  ⟨h'.wellFormed, h.census.trans h'.census, h.grows.trans h'.grows⟩

theorem Leads.op?_eq (h : Leads W g W' g') (hg : g.WellFormed W) {b : Buffer}
    (hb : W.Lists b) :
    g'.op? b = g.op? b := by
  obtain ⟨e, he, hbase⟩ := hg.census_base _ _ hb
  obtain ⟨e', he', hbase', hop, -⟩ := h.grows.kept e he
  rw [hg.op?_eq he hbase, h.wellFormed.op?_eq he' (hbase'.trans hbase), hop]

/-- A result stays as it is. -/
theorem Leads.result?_eq_some (h : Leads W g W' g') (hg : g.WellFormed W) {b : Buffer}
    (hb : W.Lists b) {block : Block α} (hblock : g.result? b = some block) :
    g'.result? b = some block := by
  obtain ⟨e, he, hbase⟩ := hg.census_base _ _ hb
  obtain ⟨e', he', hbase', -, hresult⟩ := h.grows.kept e he
  rw [hg.result?_eq he hbase] at hblock
  rw [h.wellFormed.result?_eq he' (hbase'.trans hbase), hresult block hblock]

theorem Leads.isRealized (h : Leads W g W' g') (hg : g.WellFormed W) {b : Buffer}
    (hb : W.Lists b)
    (hrealized : g.isRealized b = true) : g'.isRealized b = true := by
  obtain ⟨block, hblock⟩ := Option.isSome_iff_exists.mp hrealized
  rw [Graph.isRealized, h.result?_eq_some hg hb hblock, Option.isSome_some]

theorem WellFormed.result?_setResult (hg : g.WellFormed W) {b : Buffer} (hb : W.Lists b)
    (block : Block α) : (g.setResult b.base.id block).result? b = some block := by
  obtain ⟨e, he, hbase⟩ := hg.census_base _ _ hb
  have hmem : { e with result := some block } ∈ (g.setResult b.base.id block).cores := by
    rw [cores_setResult]
    exact List.mem_map.mpr ⟨e, he, if_pos (by rw [hbase])⟩
  exact (hg.setResult _ block).result?_eq hmem hbase

theorem WellFormed.isRealized_setResult (hg : g.WellFormed W) {b : Buffer}
    (hb : W.Lists b) (block : Block α) :
    (g.setResult b.base.id block).isRealized b = true := by
  rw [isRealized, hg.result?_setResult hb, Option.isSome_some]

/-- Between two well-formed graphs, bases were added that wait for their results, and views handed
out. -/
structure Built (W : Census) (g : Graph α) (W' : Census) (g' : Graph α) : Prop
    extends Leads W g W' g' where
  /-- The bases that were added. -/
  news : ∃ news, g'.cores = news ++ g.cores
    ∧ ∀ e ∈ news, e.op ≠ none ∧ e.result = none ∧ g.next ≤ e.base.id

theorem Viewed.built (h : Viewed W g W' g') : Built W g W' g' :=
  ⟨h.leads, [], h.same.cores, nofun⟩

theorem Built.trans (h : Built W g W' g') (h' : Built W' g' W'' g'') : Built W g W'' g'' := by
  obtain ⟨news, hcores, hnews⟩ := h.news
  obtain ⟨news', hcores', hnews'⟩ := h'.news
  refine ⟨h.toLeads.trans h'.toLeads, news' ++ news, ?_, fun e he => ?_⟩
  · rw [hcores', hcores, List.append_assoc]
  · rcases List.mem_append.mp he with he | he
    · obtain ⟨hop, hresult, hid⟩ := hnews' e he
      exact ⟨hop, hresult, h.grows.next_le.trans hid⟩
    · exact hnews e he

/-- The outcome of adding a base with the operation `op`: the buffer is the handle on the base. -/
structure Added (W : Census) (g : Graph α) (op : Tree α) (shape : Shape) (dtype : DType)
    (device : String) (config : Config) (W' : Census) (b : Buffer) (g' : Graph α) : Prop where
  /-- The operation computes the base. -/
  computes : op.Computes W (g.nextBase shape dtype device config)
  /-- The buffer and the graph are those of the insertion. -/
  insert : (b, g') = g.insert (some op) none shape dtype device config
  /-- The census knows the handle on the base. -/
  census : W' = W.add b

variable {op : Tree α} {shape : Shape} {dtype : DType} {device : String} {config : Config}
  {b : Buffer}

theorem Added.buffer_eq (h : Added W g op shape dtype device config W' b g') :
    b = (g.nextBase shape dtype device config).buffer :=
  congrArg Prod.fst h.insert

theorem Added.graph_eq (h : Added W g op shape dtype device config W' b g') :
    g' = (g.insert (some op) none shape dtype device config).2 :=
  congrArg Prod.snd h.insert

theorem Added.lists (h : Added W g op shape dtype device config W' b g') : W'.Lists b :=
  h.census ▸ W.lists_add b

theorem Added.leads (hg : g.WellFormed W) (h : Added W g op shape dtype device config W' b g') :
    Leads W g W' g' := by
  have hb := h.buffer_eq
  constructor
  · rw [h.census, h.graph_eq, hb]
    exact hg.insert fun t ht => Option.some.inj ht ▸ h.computes
  · rw [h.census]
    exact hg.grows_add (hb ▸ rfl)
  · rw [h.graph_eq]
    exact grows_insert ..

theorem Added.built (hg : g.WellFormed W) (h : Added W g op shape dtype device config W' b g') :
    Built W g W' g' := by
  refine ⟨h.leads hg, [⟨g.nextBase shape dtype device config, some (op.issuedFor g.next), none, [], 0⟩],
    ?_, fun e he => ?_⟩
  · rw [h.graph_eq, cores_insert]
    rfl
  · obtain rfl := List.mem_singleton.mp he
    exact ⟨nofun, rfl, le_refl _⟩

end Graph

theorem Buffer.sat_requireFormable (shape : Shape) :
    Sat (requireFormable shape : Build α Unit) g (fun _ g' => g' = g ∧ shape.Formable)
      fun e g' => g' = g ∧ e = .movement .overflow ∧ ¬shape.Formable := by
  rw [requireFormable]
  split
  · next h => exact ⟨rfl, View.formable_ofShape.mp h⟩
  · next h => exact ⟨rfl, rfl, mt View.formable_ofShape.mpr h⟩

/-- Adding a base succeeds, unless its strides leave the words. -/
theorem Buffer.sat_compute {op : Tree α} {shape : Shape} {dtype : DType} {device : String}
    {config : Config} (h : op.Computes W (g.nextBase shape dtype device config)) :
    Sat (compute op shape dtype device config) g
      (fun b g' => ∃ W', Added W g op shape dtype device config W' b g')
      fun e g' => g' = g ∧ e = .movement .overflow ∧ ¬shape.Formable := by
  rw [compute, sat_bind]
  refine (sat_requireFormable shape).imp ?_ fun _ _ h => h
  rintro _ _ ⟨rfl, -⟩
  rw [sat_modifyGet]
  exact ⟨_, h, rfl, rfl⟩

theorem Graph.WellFormed.computes_elementwise (hg : g.WellFormed W) {g₁ : Graph α} {W₁ : Census}
    (hviewed : Viewed W g W₁ g₁) {b : Buffer} {others : List Buffer}
    (hbs : ∀ c ∈ b :: others, W.Lists c) {code : Opcode} {arg : Arg α} {sources : List (Tree α)}
    {dtype : DType} (hmatch : ¬b.Mismatched code others arg)
    (htype : Buffer.resultType b code (b :: others) arg = .ok dtype)
    (hsources : List.Forall₂ (fun b t => t.Stands W₁ g b) (b :: others) sources)
    (hsingle : b.config.fusion.joinsElementwise = false → sources = (b :: others).map .buffer) :
    (Tree.node code arg none sources).Computes W₁ (g₁.nextBase b.shape dtype b.device b.config) := by
  simp only [Buffer.Mismatched, not_or, not_exists, not_and, Bool.not_eq_false, not_not] at hmatch
  obtain ⟨hcode, harity, hshapes, -⟩ := hmatch
  have hshapes' : ∀ c ∈ b :: others, c.shape = b.shape := by
    intro c hc
    rcases List.mem_cons.mp hc with rfl | hc
    · rfl
    · exact hshapes c hc
  have hstands : ∀ t ∈ sources, ∃ c ∈ b :: others, t.Stands W₁ g c := by
    intro t ht
    exact exists_of_forall₂_left hsources.flip ht
  constructor
  case form =>
    refine .pointwise (.node hcode (hsources.length_eq ▸ harity) ?_) hcode ?_
    · intro t ht
      obtain ⟨c, hc, hstand⟩ := hstands t ht
      exact hshapes' c hc ▸ (hstand.pointwise hg (hbs c hc) hviewed.census).1
    · have htypes : Tree.types sources = some ((b :: others).map Buffer.dtype) := by
        rw [Tree.types_eq_some, List.forall₂_map_right_iff]
        refine (List.forall₂_iff_get.mpr ⟨hsources.length_eq.symm, ?_⟩)
        intro i hi hi'
        exact ((hsources.get hi' hi).pointwise hg (hbs _ (List.getElem_mem hi')) hviewed.census).2.1
      rw [Tree.type_node, htypes]
      exact Buffer.nodeType_of_resultType hcode harity htype
  case single =>
    intro hnot t ht
    have ht : t ∈ (b :: others).map .buffer := hsingle hnot ▸ ht
    obtain ⟨c, -, rfl⟩ := List.mem_map.mp ht
    exact ⟨c, rfl⟩
  case older =>
    intro c hc
    rw [Tree.leaves_node, List.mem_flatMap] at hc
    obtain ⟨t, ht, hc⟩ := hc
    obtain ⟨d, hd, hstand⟩ := hstands t ht
    have hlist := (hstand.pointwise hg (hbs d hd) hviewed.census).2.2 c hc
    exact ⟨hlist, hviewed.wellFormed.lt_next hlist⟩

/-- Why an elementwise operation is not made: it is mismatched, an operand cannot be written out, or the
strides of the result leave the words. -/
inductive Buffer.Refused (g : Graph α) (b : Buffer) (code : Opcode) (others : List Buffer)
    (arg : Arg α) : Error → Prop
  /-- The operation is mismatched. -/
  | mismatched {e : Error} (h : b.Mismatched code others arg) (he : e ≠ .movement .overflow) :
    Refused g b code others arg e
  /-- An operand cannot be written out. -/
  | unexpressed {cause : MovementError} {c : Buffer} (hmatch : ¬b.Mismatched code others arg)
    (hc : c ∈ b :: others) (h : c.Unexpressed g cause) : Refused g b code others arg (.movement cause)
  /-- The strides leave the words. -/
  | unformable (hmatch : ¬b.Mismatched code others arg) (h : ¬b.shape.Formable) :
    Refused g b code others arg (.movement .overflow)

/-- An elementwise operation adds a base whose operation reads the operands or writes them out,
unless it is refused. -/
theorem Buffer.sat_elementwise {b : Buffer} {others : List Buffer} (hg : g.WellFormed W)
    (hbs : ∀ c ∈ b :: others, W.Lists c) (held : List Buffer) (code : Opcode) (arg : Arg α) :
    Sat (b.elementwise held code others arg) g
      (fun c g' => ¬b.Mismatched code others arg ∧ ∃ W₁ g₁ sources dtype W', Viewed W g W₁ g₁
        ∧ resultType b code (b :: others) arg = .ok dtype
        ∧ List.Forall₂ (fun b t => t.Stands W₁ g b) (b :: others) sources
        ∧ Added W₁ g₁ (.node code arg none sources) b.shape dtype b.device b.config W' c g')
      fun e g' => (∃ W', Viewed W g W' g') ∧ b.Refused g code others arg e := by
  have hsame : ∃ W', Viewed W g W' g := ⟨W, hg.viewed⟩
  rw [elementwise]
  -- the checks in their order: the opcode, the number of operands, their shapes and their types
  split
  · next hcode =>
    rw [sat_bind, sat_throw]
    exact ⟨hsame, .mismatched (.inl (by simpa using hcode)) nofun⟩
  next hcode =>
  dsimp only
  split
  · next harity =>
    rw [sat_bind, sat_throw]
    exact ⟨hsame, .mismatched (.inr (.inl harity)) nofun⟩
  next harity =>
  split
  · next other hother =>
    rw [sat_bind, sat_throw]
    have hmem := List.mem_of_find?_eq_some hother
    have hshape : other.shape ≠ b.shape := by simpa using List.find?_some hother
    have hothers : other ∈ others := (List.mem_cons.mp hmem).resolve_left fun h => hshape (h ▸ rfl)
    exact ⟨hsame, .mismatched (.inr (.inr (.inl ⟨other, hothers, hshape⟩))) nofun⟩
  next hnone =>
  have hshapes : ∀ c ∈ others, c.shape = b.shape := by
    intro c hc
    by_contra hne
    cases hfind : (b :: others).find? fun c => c.shape ≠ b.shape with
    | none => exact absurd (List.find?_eq_none.mp hfind c (List.mem_cons_of_mem _ hc)) (by simp [hne])
    | some other => exact hnone other hfind
  rw [sat_bind]
  cases htype : resultType b code (b :: others) arg with
  | error e =>
    refine ⟨hsame, .mismatched (.inr (.inr (.inr (resultType_eq_error.mp ⟨e, htype⟩)))) ?_⟩
    rintro rfl
    exact resultType_ne_movement htype
  | ok dtype =>
    have hmatch : ¬b.Mismatched code others arg := by
      rintro (h | h | ⟨c, hc, h⟩ | h)
      · exact hcode (by simpa using h)
      · exact harity h
      · exact h (hshapes c hc)
      · obtain ⟨e, he⟩ := resultType_eq_error.mpr h
        rw [htype] at he
        cases he
    rw [sat_liftM_ok, sat_bind]
    refine (sat_operands hg hbs _ _).imp ?_ ?_
    · rintro sources g₁ ⟨W₁, hviewed, hsources, hsingle⟩
      refine (sat_compute (hg.computes_elementwise hviewed hbs hmatch htype hsources hsingle)).imp ?_ ?_
      · rintro c g' ⟨W', hadded⟩
        exact ⟨hmatch, W₁, g₁, sources, dtype, W', hviewed, rfl, hsources, hadded⟩
      · rintro _ _ ⟨rfl, rfl, hformable⟩
        exact ⟨⟨W₁, hviewed⟩, .unformable hmatch hformable⟩
    · rintro _ g₁ ⟨hviewed, cause, rfl, c, hc, hcause⟩
      exact ⟨hviewed, .unexpressed hmatch hc hcause⟩

/-! ## Loads -/

theorem Graph.WellFormed.computes_load (hg : g.WellFormed W) {op : LoadOp} {arg : Arg α}
    {sources : List Buffer} (harity : ∀ n, (Opcode.load op).arity = some n → sources.length = n)
    (hsources : ∀ b ∈ sources, W.Lists b) {shape : Shape} {dtype : DType} {device : String}
    {config : Config} :
    (Tree.node (.load op) arg none (sources.map .buffer)).Computes W
      (g.nextBase shape dtype device config) := by
  have hbuffers : ∀ t ∈ sources.map Tree.buffer, ∃ b, t = (.buffer b : Tree α) := by
    intro t ht
    obtain ⟨b, -, rfl⟩ := List.mem_map.mp ht
    exact ⟨b, rfl⟩
  refine ⟨.load (by simpa using harity) hbuffers, fun _ => hbuffers, ?_⟩
  · intro b hb
    have hb : b ∈ sources := by simpa using hb
    exact ⟨hsources b hb, hg.lt_next (hsources b hb)⟩

namespace Buffer

variable {b : Buffer}

/-- A load adds a base, unless it takes another number of sources, or the strides leave the words. -/
theorem sat_load (hg : g.WellFormed W) {sources : List Buffer} (hsources : ∀ b ∈ sources, W.Lists b)
    (op : LoadOp) (shape : Shape) (dtype : DType) (device : String) (arg : Arg α)
    (config : Config) :
    Sat (load op shape dtype device arg sources config) g
      (fun c g' => ∃ W', Added W g (.node (.load op) arg none (sources.map .buffer)) shape dtype
        device config W' c g')
      fun e g' => g' = g ∧ ((∃ n, (Opcode.load op).arity = some n ∧ n ≠ sources.length)
        ∨ e = .movement .overflow ∧ ¬shape.Formable) := by
  rw [load]
  split
  · next expected harity =>
    split
    · next hne => exact ⟨rfl, .inl ⟨expected, harity, hne⟩⟩
    · next heq =>
      refine (sat_compute (hg.computes_load ?_ hsources)).imp (fun _ _ h => h) fun _ _ h =>
        ⟨h.1, .inr h.2⟩
      intro n hn
      rw [harity] at hn
      exact (not_not.mp heq).symm.trans (Option.some.inj hn)
  · next hnone =>
    exact (sat_compute (hg.computes_load (fun n hn => absurd hn (hnone n)) hsources)).imp
      (fun _ _ h => h) fun _ _ h => ⟨h.1, .inr h.2⟩

/-- A dense copy adds a base, unless the buffer covers its base densely, or the strides leave the
words. -/
theorem sat_contiguous (hg : g.WellFormed W) (hb : W.Lists b) :
    Sat (b.contiguous : Build α Buffer) g
      (fun c g' => (b.isContiguous = true ∧ c = b ∧ g' = g) ∨ (b.isContiguous = false
        ∧ ∃ W', Added W g (.node (.load .contiguous) .none none [.buffer b]) b.shape b.dtype b.device
          b.config W' c g'))
      fun e g' => g' = g ∧ e = .movement .overflow ∧ ¬b.shape.Formable := by
  rw [contiguous]
  split
  · next h => exact .inl ⟨h, rfl, rfl⟩
  · next h =>
    refine (sat_load hg (show ∀ c ∈ [b], W.Lists c by simpa using hb) ..).imp ?_ ?_
    · exact fun c g' hadded => .inr ⟨by simpa using h, hadded⟩
    · rintro _ _ ⟨rfl, ⟨n, hn, hne⟩ | hcause⟩
      · exact absurd (Option.some.inj hn).symm hne
      · exact ⟨rfl, hcause⟩

end Buffer

end TensorGraph
