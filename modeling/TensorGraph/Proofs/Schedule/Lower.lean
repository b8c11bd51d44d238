import TensorGraph.Proofs.Graph.Fusion
import TensorGraph.Schedule
/-!
# What lowering does

A base is lowered to a load as it was built, or to a kernel: its operation with the producers that
join it, compiled. Lowering hands out views only.

- `Buffer.Lowers`: the units that a base may be lowered to.
- `Buffer.sat_lower`: lowering gives such a unit.
-/

namespace TensorGraph

open TensorGraph.Graph

variable {α : Type} {W W' : Census} {g g' : Graph α}

/-! ## Compiling asks about the core -/

theorem Graph.state_congr (h : g'.cores = g.cores) (b : Buffer) : g'.state b = g.state b := by
  rw [state, state, result?_congr h, op?_congr h]

theorem Graph.summary_congr (h : g'.cores = g.cores) (b : Buffer) : g'.summary b = g.summary b := by
  rw [summary, summary, state_congr h]

theorem Graph.isFolded_congr (h : g'.cores = g.cores) (b : Buffer) :
    g'.isFolded b = g.isFolded b := by
  rw [isFolded, isFolded, isConstant, isConstant, foldedScalar?, foldedScalar?, op?_congr h,
    result?_congr h]

theorem Graph.slots_congr (h : g'.cores = g.cores) (leaves : List Buffer) :
    g'.slots leaves = g.slots leaves := by
  simp only [slots, isFolded_congr h]

theorem Graph.resolveLeaf_congr (h : g'.cores = g.cores) (slots : List Buffer) (b : Buffer) :
    g'.resolveLeaf slots b = g.resolveLeaf slots b := by
  simp only [resolveLeaf, isFolded_congr h, foldedScalar?, loadedScalar?, op?_congr h,
    result?_congr h, isRealized_congr h, summary_congr h]

theorem Graph.resolve_congr (h : g'.cores = g.cores) (t : Tree α) : g'.resolve t = g.resolve t := by
  simp only [resolve, slots_congr h, resolveLeaf_congr h]

theorem Graph.requireSimple_congr (h : g'.cores = g.cores) (slots leaves : List Buffer) :
    g'.requireSimple slots leaves = g.requireSimple slots leaves := by
  induction leaves with
  | nil => rfl
  | cons b leaves ih => simp only [requireSimple, resolveLeaf_congr h, ih]

theorem Graph.compile_congr (h : g'.cores = g.cores) (t : Tree α) : g'.compile t = g.compile t := by
  simp only [compile, slots_congr h, requireSimple_congr h, resolve_congr h]

/-! ## Leaves -/

/-- The literal that stands for the leaf `b`. -/
def Tree.literalOf (b : Buffer) (value : α) : Tree α :=
  .node (.leaf .literal) (.literal ⟨value, b.dtype, b.tracker.simplify⟩) none []

/-- The read of the input with index `i` that stands for the leaf `b`. -/
def Tree.readOf (b : Buffer) (i : Nat) : Tree α :=
  .node (.leaf .slot) (.slot ⟨i + 1, b.dtype, b.tracker.simplify⟩) none []

@[simp] theorem Tree.leaves_literalOf (b : Buffer) (value : α) : (literalOf b value).leaves = [] := by
  simp [literalOf]

@[simp] theorem Tree.leaves_readOf (b : Buffer) (i : Nat) : (readOf b i : Tree α).leaves = [] := by
  simp [readOf]

/-- A leaf becomes a literal, or a read of the slot of its base. -/
theorem Graph.resolveLeaf_eq_ok {slots : List Buffer} {b : Buffer} {u : Tree α}
    (h : g.resolveLeaf slots b = .ok u) :
    (g.isFolded b = true ∧ ∃ value, (g.foldedScalar? b).or (g.loadedScalar? b) = some value
        ∧ u = .literalOf b value)
      ∨ (g.isFolded b = false ∧ u = .readOf b (slots.findIdx fun s => s.id = b.base.id)) := by
  rw [resolveLeaf] at h
  split at h
  · next hfolded =>
    split at h
    · next value hvalue => exact .inl ⟨hfolded, value, hvalue, (Except.ok.inj h).symm⟩
    · cases h
  next hfolded =>
  split at h
  · cases h
  · exact .inr ⟨by simpa using hfolded, (Except.ok.inj h).symm⟩

/-- What keeps the leaf `b` from being resolved, with the error that tells of it. -/
inductive Graph.Refuses (g : Graph α) (b : Buffer) : Error → Prop
  /-- The base is a scalar load without a scalar, and it has no folded result. -/
  | noScalar (hconstant : g.isConstant b = true) (hfolded : g.foldedScalar? b = none)
    (hloaded : g.loadedScalar? b = none) : Refuses g b (.noScalar (g.summary b))
  /-- The base has neither an operation nor a result. -/
  | noSource (hop : g.op? b = none) (hresult : g.isRealized b = false) :
    Refuses g b (.noSource (g.summary b))

/-- A leaf cannot be resolved for these two reasons, whatever the slots are. -/
theorem Graph.resolveLeaf_eq_error_iff {slots : List Buffer} {b : Buffer} {e : Error} :
    g.resolveLeaf slots b = .error e ↔ g.Refuses b e := by
  constructor
  · intro h
    rw [resolveLeaf] at h
    split at h
    · next hfolded =>
      split at h
      · cases h
      next hnone =>
      obtain ⟨hresult, hloaded⟩ := Option.or_eq_none_iff.mp hnone
      rw [isFolded, hresult, Option.isSome_none, Bool.or_false] at hfolded
      exact Except.error.inj h ▸ .noScalar hfolded hresult hloaded
    · split at h
      · next hvacant =>
        simp only [Bool.and_eq_true, Option.isNone_iff_eq_none, Bool.not_eq_true'] at hvacant
        exact Except.error.inj h ▸ .noSource hvacant.1 hvacant.2
      · cases h
  · intro h
    cases h with
    | noScalar hconstant hfolded hloaded =>
      rw [resolveLeaf, isFolded, hconstant, hfolded, hloaded]
      rfl
    | noSource hop hresult =>
      have hnone : g.result? b = none := by simpa [isRealized] using hresult
      have hunfolded : g.isFolded b = false := by
        rw [isFolded, isConstant, foldedScalar?, hop, hnone]
        rfl
      rw [resolveLeaf, if_neg (by simp [hunfolded]), hop, hresult]
      rfl

theorem Graph.resolveLeaf_eq_error {slots : List Buffer} {b : Buffer} {e : Error}
    (h : g.resolveLeaf slots b = .error e) :
    (g.isConstant b = true ∧ g.foldedScalar? b = none ∧ g.loadedScalar? b = none)
      ∨ (g.op? b = none ∧ g.isRealized b = false) := by
  cases resolveLeaf_eq_error_iff.mp h with
  | noScalar hconstant hfolded hloaded => exact .inl ⟨hconstant, hfolded, hloaded⟩
  | noSource hop hresult => exact .inr ⟨hop, hresult⟩

/-! ## Units -/

/-- The trackers of all leaves can be simplified inside the words. -/
def Tree.Simplifies (t : Tree α) : Prop := ∀ b ∈ t.buffers, b.tracker.simplifies = true

/-- The tree of the kernel for the operation `op` of a base: an elementwise tree with a reduction
that joins, or a reduction with its producer. -/
inductive Buffer.Fuses (W : Census) (g : Graph α) (base : Buffer) (op : Tree α) : Tree α → Prop
  /-- An elementwise tree. -/
  | pointwise {joined : Option (Tree.Joined α)} {shape : Shape} {t : Tree α}
    (hcode : op.codeIs Opcode.isElementwise = true)
    (h : op.JoinsReduction W g base.shape joined shape t)
    (hfusion : joined ≠ none → base.config.fusion.joinsReduction = true) : Fuses W g base op t
  /-- A reduction. -/
  | reduce {t : Tree α} (hcode : op.codeIs Opcode.isReduce = true)
    (h : Tree.JoinsProducer g op t)
    (hfusion : base.config.fusion.joinsElementwise = false → t = op) : Fuses W g base op t

/-- The units that a base may be lowered to. -/
inductive Buffer.Lowers (W : Census) (g : Graph α) (base : Buffer) : Item α → Prop
  /-- A load as it was built. -/
  | load {op : Tree α} (hop : (g.op? base).map base.lowered = some op)
    (hcode : op.codeIs Opcode.isLoad = true) :
    Lowers W g base { tree := op, output := base, inputs := [], slots := [], fused := op }
  /-- A kernel. -/
  | kernel {op fused : Tree α} {compiled : Compiled α}
    (hop : (g.op? base).map base.lowered = some op) (hfuse : base.Fuses W g op fused)
    (hcompiled : g.resolve fused = .ok compiled) (hsimple : fused.Simplifies) :
    Lowers W g base { tree := compiled.tree, output := base, inputs := fused.buffers,
                      slots := compiled.slots, fused := fused }

theorem Buffer.leaves_lowered (base : Buffer) (op : Tree α) :
    (base.lowered op).leaves = op.leaves := by
  rw [lowered.eq_def]
  split <;> simp

/-- Only a dense copy is lowered to another operation. -/
theorem Buffer.lowered_eq_of_ne (base : Buffer) {op : Tree α}
    (h : op.code? ≠ some (.load .contiguous)) : base.lowered op = op := by
  rw [lowered.eq_def]
  split
  · exact absurd rfl h
  · rfl

theorem Buffer.lowered_eq (base : Buffer) {op : Tree α} (h : op.codeIs Opcode.isLoad = false) :
    base.lowered op = op := by
  refine base.lowered_eq_of_ne fun hcode => ?_
  rw [Tree.codeIs, hcode] at h
  cases h

theorem Buffer.eq_of_lowered_isReduce {base : Buffer} {op : Tree α}
    (h : (base.lowered op).codeIs Opcode.isReduce = true) : base.lowered op = op := by
  rw [lowered.eq_def] at h ⊢
  split at h
  · cases h
  · rfl

/-- A base that is lowered to a load is lowered to its operation, which is no dense copy. -/
theorem Buffer.lowered_of_load {b : Buffer} {op : Tree α}
    (h : (b.lowered op).codeIs Opcode.isLoad = true) :
    b.lowered op = op ∧ ∃ load, op.code? = some (.load load) ∧ load ≠ .contiguous := by
  rw [lowered.eq_def] at h ⊢
  split at h
  · cases h
  · next hne =>
    refine ⟨rfl, ?_⟩
    obtain ⟨code, hsome, hcode⟩ := Tree.codeIs_eq_true.mp h
    cases op with
    | buffer => cases hsome
    | node code' arg issuer sources =>
      obtain rfl := Option.some.inj hsome
      cases code' with
      | load load =>
        refine ⟨load, rfl, ?_⟩
        rintro rfl
        exact hne arg issuer sources rfl
      | _ => cases hcode

theorem Graph.resolveLeaf_ne_outOfOrder {slots : List Buffer} {b : Buffer} {e : Error}
    (h : g.resolveLeaf slots b = .error e) : ¬e.IsOutOfOrder := by
  rintro ⟨id, rfl⟩
  cases resolveLeaf_eq_error_iff.mp h

/-- A tree is compiled if each of its leaves is resolved, and then leaf by leaf. -/
theorem Graph.resolve_eq_ok {t : Tree α} {c : Compiled α} (ht : ∀ b ∈ t.leaves, W.Lists b)
    (h : g.resolve t = .ok c) : c.slots = g.slots t.buffers ∧ ∃ m, c.tree = t.substitute m
      ∧ ∀ b ∈ t.leaves, ∃ u, m b.id = some u ∧ g.resolveLeaf c.slots b = .ok u := by
  simp only [resolve] at h
  obtain ⟨pairs, hpairs, h⟩ := bind_eq_ok.mp h
  obtain rfl := Except.ok.inj h
  refine ⟨rfl, Tree.replacement pairs, rfl, ?_⟩
  intro b hb
  rw [mapM_eq_ok] at hpairs
  have hrel : List.Forall₂ (fun b p => p.1 = b.id
      ∧ g.resolveLeaf (g.slots t.buffers) b = .ok p.2) t.buffers pairs := by
    refine hpairs.imp fun b p h => ?_
    obtain ⟨u, hu, h⟩ := bind_eq_ok.mp h
    obtain rfl := Except.ok.inj h
    exact ⟨rfl, hu⟩
  have hids : pairs.map Prod.fst = t.buffers.map Buffer.id := by
    rw [← List.forall₂_eq_eq_eq, List.forall₂_map_left_iff, List.forall₂_map_right_iff]
    exact (hrel.imp fun b p h => h.1).flip
  obtain ⟨i, hi, rfl⟩ := List.mem_iff_getElem.mp ((mem_buffers_of_lists ht).mpr hb)
  have hi' : i < pairs.length := hrel.length_eq ▸ hi
  obtain ⟨hid, hleaf⟩ := hrel.get hi hi'
  refine ⟨pairs[i].2, ?_, hleaf⟩
  refine Tree.lookup_of_mem (hids ▸ Tree.nodup_firstVisits [] _) ?_
  have hmem : (pairs[i].1, pairs[i].2) ∈ pairs := List.getElem_mem hi'
  rwa [show pairs[i].1 = t.buffers[i].id from hid] at hmem

theorem Graph.resolve_eq_error {t : Tree α} {e : Error} (h : g.resolve t = .error e) :
    ∃ b ∈ t.leaves, g.resolveLeaf (g.slots t.buffers) b = .error e := by
  simp only [resolve] at h
  cases hpairs : t.buffers.mapM fun b => do
      return (b.id, ← g.resolveLeaf (g.slots t.buffers) b) with
  | ok pairs =>
    rw [hpairs] at h
    cases h
  | error e' =>
    rw [hpairs] at h
    obtain rfl : e' = e := Except.error.inj h
    obtain ⟨b, hb, hleaf⟩ := mapM_eq_error hpairs
    refine ⟨b, Tree.mem_leaves_of_mem_buffers hb, ?_⟩
    cases hr : g.resolveLeaf (g.slots t.buffers) b with
    | error e'' => simpa [hr] using hleaf
    | ok u =>
      rw [hr] at hleaf
      cases hleaf

/-- What is resolved has leaves that are resolved. -/
theorem Graph.exists_resolveLeaf_of_resolve {t : Tree α} {c : Compiled α} (h : g.resolve t = .ok c)
    {b : Buffer} (hb : b ∈ t.buffers) : ∃ u, g.resolveLeaf (g.slots t.buffers) b = .ok u := by
  simp only [resolve] at h
  obtain ⟨pairs, hpairs, -⟩ := bind_eq_ok.mp h
  obtain ⟨p, -, hp⟩ := exists_of_forall₂_left (mapM_eq_ok.mp hpairs) hb
  obtain ⟨u, hu, -⟩ := bind_eq_ok.mp hp
  exact ⟨u, hu⟩

/-- A tree is compiled if it is resolved and the trackers of its leaves can be simplified. -/
theorem Graph.compile_eq_ok {t : Tree α} {c : Compiled α} :
    g.compile t = .ok c ↔ g.resolve t = .ok c ∧ t.Simplifies := by
  have hrequire {slots leaves : List Buffer} : g.requireSimple slots leaves = .ok ()
      ↔ ∀ b ∈ leaves, (∃ u, g.resolveLeaf slots b = .ok u) ∧ b.tracker.simplifies = true := by
    induction leaves with
    | nil => simp [requireSimple]
    | cons b leaves ih =>
      rw [requireSimple, bind_eq_ok, List.forall_mem_cons, ← ih, exists_and_right, and_assoc]
      refine and_congr_right fun _ => ?_
      cases b.tracker.simplifies <;> simp
  rw [compile, bind_eq_ok]
  constructor
  · rintro ⟨⟨⟩, hsimple, hresolve⟩
    exact ⟨hresolve, fun b hb => (hrequire.mp hsimple b hb).2⟩
  · rintro ⟨hresolve, hsimple⟩
    refine ⟨(), hrequire.mpr fun b hb => ⟨?_, hsimple b hb⟩, hresolve⟩
    exact exists_resolveLeaf_of_resolve hresolve hb

/-- A tree is not compiled if a leaf cannot be resolved or its tracker cannot be simplified. -/
theorem Graph.compile_eq_error {t : Tree α} {e : Error} (h : g.compile t = .error e) :
    (∃ b ∈ t.leaves, g.resolveLeaf (g.slots t.buffers) b = .error e)
      ∨ e = .movement .overflow ∧ ∃ b ∈ t.leaves, b.tracker.simplifies = false := by
  have hrequire {slots leaves : List Buffer} (h : g.requireSimple slots leaves = .error e) :
      (∃ b ∈ leaves, g.resolveLeaf slots b = .error e)
        ∨ e = .movement .overflow ∧ ∃ b ∈ leaves, b.tracker.simplifies = false := by
    induction leaves with
    | nil => cases h
    | cons b leaves ih =>
      rw [requireSimple] at h
      rcases bind_eq_error.mp h with hleaf | ⟨u, -, h⟩
      · exact .inl ⟨b, List.mem_cons_self, hleaf⟩
      · cases hsimple : b.tracker.simplifies with
        | false =>
          rw [hsimple] at h
          exact .inr ⟨(Except.error.inj h).symm, b, List.mem_cons_self, hsimple⟩
        | true =>
          rw [hsimple] at h
          rcases ih h with ⟨c, hc, hleaf⟩ | ⟨he, c, hc, hstuck⟩
          · exact .inl ⟨c, List.mem_cons_of_mem _ hc, hleaf⟩
          · exact .inr ⟨he, c, List.mem_cons_of_mem _ hc, hstuck⟩
  rw [compile] at h
  rcases bind_eq_error.mp h with hsimple | ⟨⟨⟩, -, hresolve⟩
  · rcases hrequire hsimple with ⟨b, hb, hleaf⟩ | ⟨he, b, hb, hstuck⟩
    · exact .inl ⟨b, Tree.mem_leaves_of_mem_buffers hb, hleaf⟩
    · exact .inr ⟨he, b, Tree.mem_leaves_of_mem_buffers hb, hstuck⟩
  · exact .inl (resolve_eq_error hresolve)

/-- Why a base cannot be lowered, with the error that tells of it: it has no operation, or none that a
kernel computes, or a reduction does not join it, or a leaf cannot be resolved, or the tracker of a leaf
cannot be simplified inside the words. -/
inductive Buffer.Unlowerable (g : Graph α) (base : Buffer) : Error → Prop
  /-- There is no operation. -/
  | vacant {e : Error} (hop : g.op? base = none) (he : e ≠ .movement .overflow) : Unlowerable g base e
  /-- The operation is of no kind that is computed. -/
  | uncomputable {op : Tree α} {e : Error} (hop : (g.op? base).map base.lowered = some op)
    (hcode : op.codeIs (fun c => c.isLoad || c.isElementwise || c.isReduce) = false)
    (he : e ≠ .movement .overflow) : Unlowerable g base e
  /-- A reduction does not join. -/
  | unjoinable {op : Tree α} {joined : Option (Tree.Joined α)} {e : Error}
    (hop : (g.op? base).map base.lowered = some op)
    (hcode : op.codeIs Opcode.isElementwise = true) (h : op.Unjoinable g base.shape joined e) :
    Unlowerable g base e
  /-- A leaf cannot be resolved. -/
  | unresolved {slots : List Buffer} {leaf : Buffer} {e : Error}
    (hleaf : ∃ f ∈ g.cores, f.base = leaf.base) (h : g.resolveLeaf slots leaf = .error e) :
    Unlowerable g base e
  /-- The tracker of a leaf cannot be simplified. -/
  | unsimplified {W : Census} {op fused : Tree α} {leaf : Buffer}
    (hop : (g.op? base).map base.lowered = some op) (hfuse : base.Fuses W g op fused)
    (hleaf : leaf ∈ fused.leaves) (h : leaf.tracker.simplifies = false) :
    Unlowerable g base (.movement .overflow)

theorem Buffer.sat_fuse {base : Buffer} {op : Tree α} {code : Opcode} (hg : g.WellFormed W)
    (hleaves : ∀ b ∈ op.leaves, W.Lists b) (hcode : op.code? = some code) (held : List Buffer) :
    Sat (base.fuse held op code) g (fun t g' => ∃ W', Viewed W g W' g' ∧ base.Fuses W' g op t)
      fun e g' => (∃ W', Viewed W g W' g') ∧ ¬e.IsOutOfOrder
        ∧ ((code.isElementwise = false ∧ code.isReduce = false ∧ e ≠ .movement .overflow)
          ∨ (code.isElementwise = true ∧ ∃ joined, op.Unjoinable g base.shape joined e)) := by
  have hjoin (helementwise : code.isElementwise = true) :
      Sat (op.joinReduction held base.shape base.config.fusion) g
        (fun t g' => ∃ W', Viewed W g W' g' ∧ base.Fuses W' g op t)
        fun e g' => (∃ W', Viewed W g W' g') ∧ ¬e.IsOutOfOrder
          ∧ ((code.isElementwise = false ∧ code.isReduce = false ∧ e ≠ .movement .overflow)
            ∨ (code.isElementwise = true ∧ ∃ joined, op.Unjoinable g base.shape joined e)) := by
    refine (Tree.sat_joinReduction hg hleaves base.shape).imp ?_ ?_
    · rintro t g' ⟨W', shape, hviewed, hjoins⟩
      refine ⟨W', hviewed, .pointwise (by rw [Tree.codeIs, hcode]; exact helementwise) hjoins ?_⟩
      intro hne
      obtain ⟨a, ha⟩ := Option.ne_none_iff_exists'.mp hne
      exact (Tree.joined?_eq_some ha).1
    · rintro e g' ⟨hviewed, hunjoinable, hne⟩
      exact ⟨hviewed, hne, .inr ⟨helementwise, _, hunjoinable⟩⟩
  cases code with
  | unary o => exact hjoin rfl
  | binary o => exact hjoin rfl
  | ternary o => exact hjoin rfl
  | reduce o =>
    rw [fuse, sat_bind, sat_get]
    exact ⟨W, hg.viewed, .reduce (by rw [Tree.codeIs, hcode]; rfl) op.joinsProducer
      fun h => op.joinProducer_of_not h⟩
  | load o =>
    refine ⟨⟨W, hg.viewed⟩, ?_, .inl ⟨rfl, rfl, ?_⟩⟩
    · rintro ⟨_, ⟨⟩⟩
    · rintro ⟨⟩
  | leaf o =>
    refine ⟨⟨W, hg.viewed⟩, ?_, .inl ⟨rfl, rfl, ?_⟩⟩
    · rintro ⟨_, ⟨⟩⟩
    · rintro ⟨⟩

/-- A kernel reads the leaves of the operation, or older buffers through those that join. -/
theorem Buffer.Fuses.leaves {base : Buffer} {op t : Tree α} {bound : Nat} (hg : g.WellFormed W)
    (hW : W.Grows W') (h : base.Fuses W' g op t)
    (hop : ∀ b ∈ op.leaves, W.Lists b ∧ b.base.id < bound) :
    ∀ b ∈ t.leaves, W'.Lists b ∧ b.base.id < bound := by
  cases h with
  | pointwise _ hjoins => exact hjoins.leaves hg hW hop
  | reduce _ hjoins =>
    intro b hb
    obtain ⟨hlist, hlt⟩ := hjoins.leaves hg hop b hb
    exact ⟨hW.lists hlist, hlt⟩

/-- Lowering a base hands out views and gives a unit, unless the base cannot be lowered. -/
theorem Buffer.sat_lower {base : Buffer} (hg : g.WellFormed W) (hbase : W.Lists base)
    (held : List Buffer) :
    Sat (base.lower held) g (fun item g' => ∃ W', Viewed W g W' g' ∧ base.Lowers W' g item)
      fun e g' => (∃ W', Viewed W g W' g') ∧ ¬e.IsOutOfOrder ∧ base.Unlowerable g e := by
  have hsame : ∃ W', Viewed W g W' g := ⟨W, hg.viewed⟩
  rw [lower, sat_bind, sat_get]
  cases hop : (g.op? base).map base.lowered with
  | none => exact ⟨hsame, nofun, .vacant (by simpa using hop) nofun⟩
  | some op =>
    have holder : ∀ b ∈ op.leaves, W.Lists b ∧ b.base.id < base.base.id := by
      obtain ⟨op', hop', rfl⟩ := Option.map_eq_some_iff.mp hop
      rw [leaves_lowered]
      exact hg.older_base hbase hop'
    have hleaves : ∀ b ∈ op.leaves, W.Lists b := fun b hb => (holder b hb).1
    cases op with
    | buffer b => exact ⟨hsame, nofun, .uncomputable hop rfl nofun⟩
    | node code arg issuer sources =>
      dsimp only
      split
      · next hload => exact ⟨W, hg.viewed, .load hop hload⟩
      next hload =>
      rw [sat_bind]
      refine (sat_fuse hg hleaves rfl held).imp ?_ ?_
      · rintro fused g₁ ⟨W₁, hviewed, hfuse⟩
        rw [sat_bind, sat_get, sat_bind, compile_congr hviewed.same.cores]
        cases hcompiled : g.compile fused with
        | ok compiled =>
          obtain ⟨hresolved, hsimple⟩ := compile_eq_ok.mp hcompiled
          exact ⟨W₁, hviewed, .kernel hop hfuse hresolved hsimple⟩
        | error e =>
          rcases compile_eq_error hcompiled with ⟨b, hb, hleaf⟩ | ⟨rfl, b, hb, hstuck⟩
          · obtain ⟨hlist, -⟩ := hfuse.leaves hg hviewed.census holder b hb
            have hentry := hviewed.wellFormed.census_base _ _ hlist
            rw [hviewed.same.cores] at hentry
            exact ⟨⟨W₁, hviewed⟩, resolveLeaf_ne_outOfOrder hleaf, .unresolved hentry hleaf⟩
          · exact ⟨⟨W₁, hviewed⟩, nofun, .unsimplified hop hfuse hb hstuck⟩
      · rintro e g₁ ⟨hviewed, hne, ⟨helementwise, hreduce, he⟩ | ⟨helementwise, joined, hunjoinable⟩⟩
        · refine ⟨hviewed, hne, .uncomputable hop ?_ he⟩
          simp [Tree.codeIs, Tree.code?, helementwise, hreduce, hload]
        · exact ⟨hviewed, hne, .unjoinable hop helementwise hunjoinable⟩

/-! ## What a unit reads -/

/-- A unit realizes the base that was lowered, and reads buffers of older bases only. -/
theorem Buffer.Lowers.reads {base : Buffer} {item : Item α} (hg : g.WellFormed W)
    (hW : W.Grows W') (hbase : W.Lists base.base.buffer) (h : base.Lowers W' g item) :
    item.output = base ∧ (∀ b ∈ item.fused.leaves, W'.Lists b ∧ b.base.id < base.base.id)
      ∧ (∀ b ∈ item.inputs, b ∈ item.fused.leaves)
      ∧ ∀ b ∈ item.slots, ∃ c ∈ item.inputs, b = c.root := by
  have holder {op : Tree α} (hop : (g.op? base).map base.lowered = some op) :
      ∀ b ∈ op.leaves, W.Lists b ∧ b.base.id < base.base.id := by
    obtain ⟨op', hop', rfl⟩ := Option.map_eq_some_iff.mp hop
    rw [leaves_lowered]
    exact hg.older_base (b := base.base.buffer) hbase hop'
  cases h with
  | load hop hcode =>
    refine ⟨rfl, ?_, by simp, by simp⟩
    intro b hb
    obtain ⟨hlist, hlt⟩ := holder hop b hb
    exact ⟨hW.lists hlist, hlt⟩
  | @kernel op fused compiled hop hfuse hcompiled =>
    refine ⟨rfl, ?_, fun b hb => Tree.mem_leaves_of_mem_buffers hb, ?_⟩
    · exact hfuse.leaves hg hW (holder hop)
    · intro b hb
      have hslots : compiled.slots = g.slots fused.buffers := by
        simp only [resolve] at hcompiled
        obtain ⟨pairs, -, hcompiled⟩ := bind_eq_ok.mp hcompiled
        exact (Except.ok.inj hcompiled) ▸ rfl
      rw [hslots] at hb
      obtain ⟨c, hc, rfl⟩ := List.mem_map.mp (Tree.mem_of_mem_firstVisits hb).1
      exact ⟨c, (List.mem_filter.mp hc).1, rfl⟩

/-- The tree of a kernel has the operation of the base at its root. -/
theorem Buffer.Fuses.code? {base : Buffer} {op t : Tree α} (h : base.Fuses W g op t) :
    t.code? = op.code? := by
  cases h with
  | pointwise hcode hjoins =>
    obtain ⟨m, rfl, -⟩ := hjoins.replaced
    obtain ⟨code, hsome, -⟩ := Tree.codeIs_eq_true.mp hcode
    rw [hsome, Tree.code?_substitute hsome]
  | reduce _ hjoins => cases hjoins <;> rfl

/-- The tree of a kernel is no load. -/
theorem Buffer.Fuses.load?_eq_none {base : Buffer} {op fused : Tree α} {compiled : Compiled α}
    (h : base.Fuses W g op fused) (hcompiled : g.resolve fused = .ok compiled) :
    compiled.tree.code?.bind Opcode.load? = none := by
  obtain ⟨code, hsome, hcode⟩ : ∃ code, op.code? = some code ∧ code.load? = none := by
    cases h with
    | pointwise hcode =>
      obtain ⟨code, hsome, hcode⟩ := Tree.codeIs_eq_true.mp hcode
      exact ⟨code, hsome, Opcode.load?_eq_none (Opcode.isLoad_of_isElementwise hcode)⟩
    | reduce hcode =>
      obtain ⟨code, hsome, hcode⟩ := Tree.codeIs_eq_true.mp hcode
      exact ⟨code, hsome, Opcode.load?_eq_none (Opcode.isLoad_of_isReduce hcode)⟩
  have htree : compiled.tree.code? = some code := by
    simp only [resolve] at hcompiled
    obtain ⟨pairs, -, hcompiled⟩ := bind_eq_ok.mp hcompiled
    rw [← Except.ok.inj hcompiled]
    exact Tree.code?_substitute (h.code?.trans hsome) _
  rw [htree, Option.bind_some, hcode]

/-! ## Later graphs -/

theorem Tree.JoinsProducer.of_same (h : g'.cores = g.cores) {op t : Tree α}
    (hjoins : JoinsProducer g op t) : JoinsProducer g' op t := by
  cases hjoins with
  | alone => exact .alone
  | joined hrealized htracker hop hcode =>
    exact .joined ((isRealized_congr h _).trans hrealized) htracker ((op?_congr h _).trans hop) hcode

theorem Tree.Joined.Fits.of_same (h : g'.cores = g.cores) {a : Joined α} (ha : a.Fits g) :
    a.Fits g' := by
  obtain ⟨hrealized, hdense, op, hop, hcode, hjoins⟩ := ha
  exact ⟨(isRealized_congr h _).trans hrealized, hdense, op, (op?_congr h _).trans hop, hcode,
    hjoins.of_same h⟩

theorem Tree.JoinsReduction.of_viewed (h : g'.cores = g.cores) (hW : W.Grows W') {op t : Tree α}
    {output shape : Shape} {joined : Option (Joined α)}
    (hjoins : op.JoinsReduction W g output joined shape t) :
    op.JoinsReduction W' g' output joined shape t := by
  obtain ⟨hfits, hinner, m, rfl, hm⟩ := hjoins
  refine ⟨fun a ha => ⟨(hfits a ha).1, (hfits a ha).2.of_same h⟩, hinner, m, rfl, ?_⟩
  intro b hb
  exact (hm b hb).imp_right fun ⟨hne, hreshapes⟩ => ⟨hne, hreshapes.mono hW⟩

namespace Buffer

theorem Fuses.of_viewed (h : g'.cores = g.cores) (hW : W.Grows W') {base : Buffer} {op t : Tree α}
    (hfuses : base.Fuses W g op t) : base.Fuses W' g' op t := by
  cases hfuses with
  | pointwise hcode hjoins hfusion => exact .pointwise hcode (hjoins.of_viewed h hW) hfusion
  | reduce hcode hjoins hfusion => exact .reduce hcode (hjoins.of_same h) hfusion

/-- A unit stays one to which the base may be lowered when views are handed out. -/
theorem Lowers.of_viewed (h : g'.cores = g.cores) (hW : W.Grows W') {base : Buffer} {item : Item α}
    (hlowers : base.Lowers W g item) : base.Lowers W' g' item := by
  cases hlowers with
  | load hop hcode => exact .load (by rwa [op?_congr h]) hcode
  | kernel hop hfuse hcompiled hsimple =>
    exact .kernel (by rwa [op?_congr h]) (hfuse.of_viewed h hW) (by rwa [resolve_congr h]) hsimple

theorem Unlowerable.of_same (h : g'.cores = g.cores) {base : Buffer} {e : Error}
    (hbase : base.Unlowerable g' e) : base.Unlowerable g e := by
  cases hbase with
  | vacant hop he => exact .vacant (by rwa [op?_congr h] at hop) he
  | uncomputable hop hcode he => exact .uncomputable (by rwa [op?_congr h] at hop) hcode he
  | unjoinable hop hcode hjoin =>
    refine .unjoinable (by rwa [op?_congr h] at hop) hcode ⟨?_, hjoin.cause⟩
    exact fun a ha => ⟨(hjoin.fits a ha).1, (hjoin.fits a ha).2.of_same h.symm⟩
  | unresolved hleaf herror =>
    exact .unresolved (h ▸ hleaf) (by rwa [resolveLeaf_congr h] at herror)
  | unsimplified hop hfuse hleaf hstuck =>
    exact .unsimplified (by rwa [op?_congr h] at hop) (hfuse.of_viewed h.symm (.refl _)) hleaf hstuck

end Buffer

end TensorGraph
