import TensorGraph.Proofs.Graph.Renumber
import TensorGraph.Proofs.Schedule.Lower
/-!
# Scheduling under other numbers

Scheduling asks a graph about operations, results and counts of readers, and hands out views under
the numbers that come next. On a graph that differs in the numbers of views only, it does the same
and hands out the same views under their other numbers.

- `Graph.Shifted.joined?`, `Graph.Shifted.compile`: fusion and compilation.
- `Build.Mirrors`: a computation does on one graph what another one does on the other.
- `Buffer.mirrors_lower`, `Plan.mirrors_add`, `Buffer.mirrors_schedule`: scheduling mirrors itself.
-/

namespace TensorGraph

open TensorGraph.Graph

variable {α : Type} {f : Nat → Nat} {n d : Nat} {g g' : Graph α} {b : Buffer} {held : List Buffer}

/-- The reduction that joins, with other numbers. -/
def Tree.Joined.renumber (f : Nat → Nat) (a : Joined α) : Joined α :=
  ⟨a.leaf.renumber f, a.tree.renumber f⟩

/-- The compiled tree with other numbers. -/
def Compiled.renumber (f : Nat → Nat) (c : Compiled α) : Compiled α :=
  ⟨c.tree.renumber f, c.slots.map (Buffer.renumber f)⟩

/-- The unit with other numbers. -/
def Item.renumber (f : Nat → Nat) (item : Item α) : Item α where
  tree := item.tree.renumber f
  output := item.output.renumber f
  inputs := item.inputs.map (Buffer.renumber f)
  slots := item.slots.map (Buffer.renumber f)
  fused := item.fused.renumber f

/-- The plan with other numbers. -/
def Plan.renumber (f : Nat → Nat) (p : Plan α) : Plan α :=
  ⟨p.lowered.map (Item.renumber f), p.ready.map (Item.renumber f)⟩

/-! ## Fusion -/

section Fusion

variable {fusion : Fusion}

theorem Tree.innerShape_renumber (output : Shape) (joined : Option (Joined α)) :
    innerShape output (joined.map (Joined.renumber f)) = innerShape output joined := by
  cases joined <;> rfl

namespace Graph.Shifted

variable (h : g.Shifted n d g')
include h

theorem producer? (held : List Buffer) (b : Buffer) :
    g'.producer? (held.map (Buffer.renumber (shift n d))) (b.renumber (shift n d))
      = g.producer? held b := by
  rw [Graph.producer?, Graph.producer?, h.isRealized, h.otherReaderCount, h.op?]
  rfl

theorem isJoinable (held : List Buffer) (b : Buffer) :
    g'.isJoinable (held.map (Buffer.renumber (shift n d))) (b.renumber (shift n d))
      = g.isJoinable held b := by
  rw [Graph.isJoinable, Graph.isJoinable, h.isRealized, h.otherReaderCount, h.op?]
  rfl

theorem joinProducer (held : List Buffer) (fusion : Fusion) (op : Tree α) :
    (op.renumber (shift n d)).joinProducer g' (held.map (Buffer.renumber (shift n d))) fusion
      = (op.joinProducer g held fusion).renumber (shift n d) := by
  cases op with
  | buffer b => rfl
  | node code arg issuer sources =>
    rw [Tree.renumber_node]
    rcases sources with _ | ⟨_ | _, rest⟩
    · rfl
    · next b =>
      simp only [List.map_cons, Tree.renumber_buffer, Tree.joinProducer, h.producer?]
      split
      · simp
      · cases hproducer : g.producer? held b with
        | none => simp
        | some producer => simp [h.renumber_op (producer?_eq_some hproducer).2.2.1]
    · simp [Tree.joinProducer]

theorem joined? (leaves : List Buffer) :
    Tree.joined? g' (held.map (Buffer.renumber (shift n d)))
        (leaves.map (Buffer.renumber (shift n d))) fusion
      = (Tree.joined? g held leaves fusion).map (Tree.Joined.renumber (shift n d)) := by
  have hjoinable : g'.isJoinable (held.map (Buffer.renumber (shift n d)))
      ∘ Buffer.renumber (shift n d) = g.isJoinable held := funext (h.isJoinable held)
  rw [Tree.joined?, Tree.joined?, List.find?_map, hjoinable]
  split
  · rfl
  · cases leaves.find? (g.isJoinable held) with
    | none => rfl
    | some b =>
      simp only [Option.map_some, Option.bind_eq_bind, Option.bind_some, h.op?]
      cases hop : g.op? b with
      | none => rfl
      | some op =>
        have hjoin := h.joinProducer held fusion op
        rw [h.renumber_op hop] at hjoin
        simp [Tree.Joined.renumber, hjoin]

end Graph.Shifted

end Fusion

/-! ## Compilation -/

/-- The outcome with other numbers, those in the value by `r`. -/
def renumberOutcome {β γ : Type} (f : Nat → Nat) (r : β → γ) : Except Error β → Except Error γ
  | .ok b => .ok (r b)
  | .error e => .error (e.renumber f)

/-- Computations for all elements of a list, each under other numbers. -/
theorem mapM_renumber {β γ : Type} {r : β → γ} {u : Buffer → Except Error β}
    {u' : Buffer → Except Error γ} {bs : List Buffer}
    (h : ∀ b ∈ bs, u' (b.renumber f) = renumberOutcome f r (u b)) :
    (bs.map (Buffer.renumber f)).mapM u' = renumberOutcome f (List.map r) (bs.mapM u) := by
  induction bs with
  | nil => rfl
  | cons b bs ih =>
    rw [List.map_cons, List.mapM_cons, List.mapM_cons, h b List.mem_cons_self,
      ih fun c hc => h c (List.mem_cons_of_mem _ hc)]
    cases u b with
    | error e => rfl
    | ok c => cases bs.mapM u <;> rfl

namespace Graph.Shifted

variable (h : g.Shifted n d g')
include h

theorem foldedScalar? (b : Buffer) :
    g'.foldedScalar? (b.renumber (shift n d)) = g.foldedScalar? b := by
  rw [Graph.foldedScalar?, Graph.foldedScalar?, h.result?]

theorem isFolded (b : Buffer) : g'.isFolded (b.renumber (shift n d)) = g.isFolded b := by
  rw [Graph.isFolded, Graph.isFolded, isConstant, isConstant, h.foldedScalar?, h.op?]

theorem slots (leaves : List Buffer) :
    g'.slots (leaves.map (Buffer.renumber (shift n d)))
      = (g.slots leaves).map (Buffer.renumber (shift n d)) := by
  have hfolded : (fun b => !g'.isFolded b) ∘ Buffer.renumber (shift n d)
      = fun b => !g.isFolded b := funext fun b => congrArg (!·) (h.isFolded b)
  have hroot : (Buffer.root ∘ Buffer.renumber (shift n d))
      = Buffer.renumber (shift n d) ∘ Buffer.root :=
    funext (Buffer.renumber_root (shift_injective n d))
  rw [Graph.slots, Graph.slots, List.filter_map, hfolded, List.map_map, hroot, ← List.map_map]
  exact Tree.firstVisits_renumber (shift_injective n d) [] _

theorem resolveLeaf (slots : List Buffer) (b : Buffer) :
    g'.resolveLeaf (slots.map (Buffer.renumber (shift n d))) (b.renumber (shift n d))
      = renumberOutcome (shift n d) (Tree.renumber (shift n d)) (g.resolveLeaf slots b) := by
  have hloaded : g'.loadedScalar? (b.renumber (shift n d)) = g.loadedScalar? b := by
    rw [loadedScalar?, loadedScalar?, h.op?]
  have hslot : (slots.map (Buffer.renumber (shift n d))).findIdx
      (fun s => s.id = (b.renumber (shift n d)).base.id)
        = slots.findIdx fun s => s.id = b.base.id := by
    rw [List.findIdx_map]
    congr 1
    funext s
    simp [(shift_injective n d).eq_iff]
  rw [Graph.resolveLeaf, Graph.resolveLeaf, h.isFolded, h.foldedScalar?, hloaded, h.op?,
    h.isRealized, h.summary, hslot]
  split
  · cases (g.foldedScalar? b).or (g.loadedScalar? b) with
    | none => rfl
    | some value => simp [renumberOutcome]
  · split
    · rfl
    · simp [renumberOutcome]

theorem resolve (t : Tree α) :
    g'.resolve (t.renumber (shift n d))
      = renumberOutcome (shift n d) (Compiled.renumber (shift n d)) (g.resolve t) := by
  have hf := shift_injective n d
  rw [Graph.resolve, Graph.resolve, Tree.buffers_renumber hf, h.slots, mapM_renumber
    (r := Tree.renumberPair (shift n d)) (u := fun b => do
      return (b.id, ← g.resolveLeaf (g.slots t.buffers) b))]
  · cases t.buffers.mapM fun b => do
        return (b.id, ← g.resolveLeaf (g.slots t.buffers) b) with
    | error e => rfl
    | ok pairs =>
      simp only [renumberOutcome, ok_bind, pure_eq_ok, Compiled.renumber,
        Tree.substitute_renumber hf]
  · intro b _
    rw [h.resolveLeaf]
    cases g.resolveLeaf (g.slots t.buffers) b <;> rfl

theorem requireSimple (slots leaves : List Buffer) :
    g'.requireSimple (slots.map (Buffer.renumber (shift n d))) (leaves.map (Buffer.renumber (shift n d)))
      = renumberOutcome (shift n d) id (g.requireSimple slots leaves) := by
  induction leaves with
  | nil => rfl
  | cons b leaves ih =>
    rw [List.map_cons, Graph.requireSimple, Graph.requireSimple, h.resolveLeaf, ih]
    cases g.resolveLeaf slots b with
    | error e => rfl
    | ok u =>
      rw [Buffer.renumber_tracker]
      cases b.tracker.simplifies <;> rfl

theorem compile (t : Tree α) :
    g'.compile (t.renumber (shift n d))
      = renumberOutcome (shift n d) (Compiled.renumber (shift n d)) (g.compile t) := by
  rw [Graph.compile, Graph.compile, Tree.buffers_renumber (shift_injective n d), h.slots,
    h.requireSimple, h.resolve]
  cases g.requireSimple (g.slots t.buffers) t.buffers <;> rfl

end Graph.Shifted

/-! ## Computations that mirror each other -/

namespace Build

variable {β γ δ ε : Type}

/-- Two outcomes of building: values that `R` relates, or an error and the same error under other
numbers, with graphs that differ in numbers only. -/
inductive Alike (n d : Nat) (R : β → γ → Prop) :
    Except Error β × Graph α → Except Error γ × Graph α → Prop
  /-- Both succeed. -/
  | ok {b : β} {c : γ} {g g' : Graph α} (hvalue : R b c) (hg : g.Shifted n d g') :
    Alike n d R (.ok b, g) (.ok c, g')
  /-- Both fail. -/
  | error {e : Error} {g g' : Graph α} (hg : g.Shifted n d g') :
    Alike n d R (.error e, g) (.error (e.renumber (shift n d)), g')

/-- The second computation does on every graph after the numbers from `n` to `n + d` were left out
what the first does on the graph. -/
def Mirrors (n d : Nat) (R : β → γ → Prop) (x : Build α β) (y : Build α γ) : Prop :=
  ∀ g g' : Graph α, g.Shifted n d g' → Alike n d R (x.run g) (y.run g')

variable {R : β → γ → Prop} {S : δ → ε → Prop} {x : Build α β} {y : Build α γ}

theorem Alike.outcome {r : β → γ} {o : Except Error β × Graph α} {o' : Except Error γ × Graph α}
    (h : Alike n d (fun b c => c = r b) o o') : o'.1 = renumberOutcome (shift n d) r o.1 := by
  cases h with
  | ok hvalue => exact congrArg Except.ok hvalue
  | error => rfl

theorem mirrors_pure {b : β} {c : γ} (h : R b c) :
    Mirrors n d R (pure b : Build α β) (pure c) := fun _ _ hg => .ok h hg

theorem mirrors_throw (e : Error) :
    Mirrors n d R (throw e : Build α β) (throw (e.renumber (shift n d))) := fun _ _ hg => .error hg

theorem mirrors_get : Mirrors n d (fun g g' => g.Shifted n d g') (get : Build α (Graph α)) get :=
  fun _ _ hg => .ok hg hg

theorem run_bind (x : Build α β) (u : β → Build α δ) (g : Graph α) :
    (x >>= u).run g = match x.run g with
      | (.ok b, g₁) => (u b).run g₁
      | (.error e, g₁) => (.error e, g₁) := by
  change (match x.run g with | (r, g₁) => (ExceptT.bindCont u r).run g₁) = _
  rcases x.run g with ⟨e | b, g₁⟩ <;> rfl

theorem Mirrors.bind (hx : Mirrors n d R x y) {u : β → Build α δ} {v : γ → Build α ε}
    (huv : ∀ b c, R b c → Mirrors n d S (u b) (v c)) : Mirrors n d S (x >>= u) (y >>= v) := by
  intro g g' hg
  have h := hx g g' hg
  rw [run_bind, run_bind]
  generalize x.run g = r, y.run g' = r' at h
  cases h with
  | ok hvalue hg₁ => exact huv _ _ hvalue _ _ hg₁
  | error hg₁ => exact .error hg₁

/-- A computation that mirrors another one whatever the graphs are that it is given. -/
theorem mirrors_get_bind {u : Graph α → Build α δ} {v : Graph α → Build α ε}
    (huv : ∀ g g', g.Shifted n d g' → Mirrors n d S (u g) (v g')) :
    Mirrors n d S (get >>= u) (get >>= v) := mirrors_get.bind huv

theorem mirrors_liftM {r : β → γ} (x : Except Error β) :
    Mirrors n d (fun b c => c = r b) (liftM x : Build α β)
      (liftM (renumberOutcome (shift n d) r x)) := by
  intro g g' hg
  cases x with
  | ok b => exact .ok rfl hg
  | error e => exact .error hg

theorem mirrors_foldlM {r : β → β} {s : δ → δ} {u v : β → δ → Build α β}
    (huv : ∀ b a, Mirrors n d (fun b c => c = r b) (u b a) (v (r b) (s a)))
    (b : β) (l : List δ) :
    Mirrors n d (fun b c => c = r b) (l.foldlM u b) ((l.map s).foldlM v (r b)) := by
  induction l generalizing b with
  | nil => exact mirrors_pure rfl
  | cons a l ih =>
    rw [List.map_cons, List.foldlM_cons, List.foldlM_cons]
    refine (huv b a).bind ?_
    rintro c _ rfl
    exact ih c

theorem mirrors_mapM {r : β → β} {s : δ → δ} {u v : δ → Build α β}
    (huv : ∀ a, Mirrors n d (fun b c => c = r b) (u a) (v (s a))) (l : List δ) :
    Mirrors n d (fun bs cs => cs = bs.map r) (l.mapM u) ((l.map s).mapM v) := by
  induction l with
  | nil => exact mirrors_pure rfl
  | cons a l ih =>
    rw [List.map_cons, List.mapM_cons, List.mapM_cons]
    refine (huv a).bind ?_
    rintro b _ rfl
    refine ih.bind ?_
    rintro bs _ rfl
    exact mirrors_pure rfl

end Build

/-! ## Views -/

/-- The next view is handed out under the number moved up. -/
theorem Graph.Shifted.insertView (h : g.Shifted n d g') (b : Buffer) (tracker : Tracker) :
    (g'.insertView (b.renumber (shift n d)) tracker).1
        = (g.insertView b tracker).1.renumber (shift n d)
      ∧ (g.insertView b tracker).2.Shifted n d (g'.insertView (b.renumber (shift n d)) tracker).2 := by
  have hnext : g'.next = shift n d g.next := by rw [h.next, shift_of_le h.le_next]
  constructor
  · simp [Graph.insertView, Buffer.renumber, hnext]
  constructor
  case le_next => exact h.le_next.trans (Nat.le_succ _)
  case next => rw [next_insertView, next_insertView, h.next, Nat.add_right_comm]
  case older =>
    rw [cores_insertView]
    exact h.older
  case entries =>
    have hiff : ∀ e ∈ g.entries, e.base.id = (b.renumber (shift n d)).base.id
        ↔ e.base.id = b.base.id :=
      fun e he => h.shift_eq_iff (e := e.core) (mem_cores.mpr ⟨e, he, rfl⟩)
    change List.Forall₂ _ (g.entries.map _) (g'.entries.map _)
    rw [List.forall₂_map_left_iff, List.forall₂_map_right_iff]
    refine ((List.forall₂_and_left _ _).mpr ⟨hiff, h.entries⟩).imp ?_
    rintro e e' ⟨hid, hcore, hreaders⟩
    have hbase : e'.base = e.base := congrArg (fun e => e.base) hcore
    rw [← hbase] at hid
    by_cases heq : e.base.id = b.base.id
    · -- the new view is registered with its base, unless it is already
      have hmem : g'.next ∈ e'.readers ↔ g.next ∈ e.readers := by
        rw [← List.mem_map_of_injective (shift_injective n d) (l := e.readers), ← hreaders, ← hnext,
          List.mem_filter, hnext]
        simp [hit_shift n d g.next]
      simp only [if_pos heq, if_pos (hid.mpr (hbase ▸ heq)), hmem]
      split
      · exact ⟨hcore, hreaders⟩
      · refine ⟨hcore, ?_⟩
        rw [List.filter_append, List.map_append, hreaders, hnext]
        simp [hit_shift n d g.next]
    · simp only [if_neg heq, if_neg (mt hid.mp (hbase ▸ heq))]
      exact ⟨hcore, hreaders⟩

namespace Buffer

open Build

theorem mirrors_withTracker (b : Buffer) (tracker : Tracker) :
    Mirrors n d (fun c c' => c' = c.renumber (shift n d)) (b.withTracker tracker : Build α Buffer)
      ((b.renumber (shift n d)).withTracker tracker) := by
  rw [withTracker, withTracker, renumber_tracker]
  split
  · exact mirrors_pure rfl
  · intro g g' hg
    obtain ⟨hview, hshifted⟩ := hg.insertView b tracker
    exact .ok hview hshifted

theorem mirrors_move (b : Buffer) (m : Movement) :
    Mirrors n d (fun c c' => c' = c.renumber (shift n d)) (b.move m : Build α Buffer)
      ((b.renumber (shift n d)).move m) := by
  rw [move, move, renumber_tracker]
  cases b.tracker.move m with
  | ok tracker => exact mirrors_withTracker b tracker
  | error cause => exact mirrors_throw (.movement cause)

end Buffer

/-! ## Lowering -/

open Build

theorem Tree.mirrors_joinReduction (op : Tree α) (held : List Buffer) (output : Shape)
    (fusion : Fusion) :
    Mirrors n d (fun t t' => t' = t.renumber (shift n d)) (op.joinReduction held output fusion)
      ((op.renumber (shift n d)).joinReduction (held.map (Buffer.renumber (shift n d))) output
        fusion) := by
  have hf := shift_injective n d
  refine mirrors_get_bind fun g g' hg => ?_
  simp only [buffers_renumber hf, hg.joined?, innerShape_renumber]
  generalize joined? g held op.buffers fusion = joined
  -- the inner shape and its errors name no buffer
  have hshape : renumberOutcome (shift n d) id (innerShape output joined)
      = innerShape output joined := by
    rw [innerShape.eq_def]
    split
    · rfl
    · split
      · rfl
      · split <;> rfl
  have hothers : (op.buffers.map (Buffer.renumber (shift n d))).filter
      (fun b => (joined.map (Joined.renumber (shift n d))).all fun a => a.leaf.id ≠ b.id)
        = (op.buffers.filter fun b => joined.all fun a => a.leaf.id ≠ b.id).map
          (Buffer.renumber (shift n d)) := by
    rw [List.filter_map]
    congr 2
    funext b
    cases joined <;> simp [Joined.renumber, hf.eq_iff]
  have hinner := mirrors_liftM (α := α) (n := n) (d := d) (r := id) (innerShape output joined)
  rw [hshape] at hinner
  refine hinner.bind fun shape shape' hsame => ?_
  obtain rfl : shape = shape' := hsame.symm
  rw [hothers]
  refine (mirrors_mapM (r := renumberPair (shift n d)) (fun b => ?_) _).bind ?_
  · refine (b.mirrors_move (.reshape shape)).bind ?_
    rintro c _ rfl
    exact mirrors_pure rfl
  · rintro pairs _ rfl
    refine mirrors_pure ?_
    rw [← substitute_renumber hf]
    cases joined <;> rfl

namespace Buffer

theorem mirrors_fuse (base : Buffer) (held : List Buffer) (op : Tree α) (code : Opcode) :
    Mirrors n d (fun t t' => t' = t.renumber (shift n d)) (base.fuse held op code)
      ((base.renumber (shift n d)).fuse (held.map (Buffer.renumber (shift n d)))
        (op.renumber (shift n d)) code) := by
  cases code with
  | unary | binary | ternary => exact op.mirrors_joinReduction held base.shape base.config.fusion
  | reduce => exact mirrors_get_bind fun g g' hg => mirrors_pure (hg.joinProducer held _ op)
  | load | leaf => exact mirrors_throw _

theorem mirrors_lower {base : Buffer} (hbase : base.id = base.base.id) (held : List Buffer) :
    Mirrors n d (fun item item' => item' = item.renumber (shift n d))
      (base.lower held : Build α (Item α))
      ((base.renumber (shift n d)).lower (held.map (Buffer.renumber (shift n d)))) := by
  refine mirrors_get_bind fun g g' hg => ?_
  rw [hg.op?, hg.summary]
  cases hop : g.op? base with
  | none => exact mirrors_throw (.noOperation (g.summary base))
  | some op =>
    rw [hg.renumber_base hbase hop, Option.map_some]
    have hfixed : (base.lowered op).renumber (shift n d) = base.lowered op := by
      rw [lowered.eq_def]
      split
      · -- a dense copy is lowered to another opcode on the same sources
        have hcopy := hg.renumber_op hop
        rw [Tree.renumber_node] at hcopy ⊢
        injection hcopy with _ _ _ hsources
        rw [hsources]
      · exact hg.renumber_op hop
    have hsame := hg.renumber_base hbase hop
    generalize base.lowered op = op at hfixed
    cases op with
    | buffer c => exact mirrors_throw (.noOperation (g.summary base))
    | node code arg issuer sources =>
      dsimp only
      split
      · refine mirrors_pure ?_
        simp only [Item.renumber, hfixed, hsame, List.map_nil]
      · have hfuse := mirrors_fuse (n := n) (d := d) base held (.node code arg issuer sources) code
        rw [hfixed, hsame] at hfuse
        refine hfuse.bind ?_
        rintro fused _ rfl
        refine mirrors_get_bind fun g g' hg => ?_
        rw [hg.compile]
        refine (mirrors_liftM _).bind ?_
        rintro compiled _ rfl
        refine mirrors_pure ?_
        rw [Item.renumber, Tree.buffers_renumber (shift_injective n d), hsame]
        rfl

end Buffer

namespace Plan

theorem contains_renumber (hf : f.Injective) (plan : Plan α) (base : Buffer) :
    (plan.renumber f).contains (base.renumber f) = plan.contains base := by
  rw [contains, contains, renumber, List.any_map]
  congr 1
  funext item
  simp [Item.renumber, hf.eq_iff]

theorem handles_renumber (plan : Plan α) :
    (plan.renumber f).handles = plan.handles.map (Buffer.renumber f) := by
  rw [handles, handles, renumber, List.flatMap_map, List.map_flatMap]
  refine List.flatMap_congr fun item _ => ?_
  simp [Item.handles, Item.renumber]

theorem mirrors_add (held : List Buffer) (steps : Nat) {base : Buffer}
    (hbase : base.id = base.base.id) (plan : Plan α) :
    Mirrors n d (fun p p' => p' = p.renumber (shift n d)) (add held steps base plan)
      (add (held.map (Buffer.renumber (shift n d))) steps (base.renumber (shift n d))
        (plan.renumber (shift n d))) := by
  induction steps generalizing base plan with
  | zero => exact mirrors_throw (.outOfOrder base.id)
  | succ steps ih =>
    refine mirrors_get_bind fun g g' hg => ?_
    rw [hg.isRealized, contains_renumber (shift_injective n d)]
    split
    · exact mirrors_pure rfl
    · rw [handles_renumber, ← List.map_append]
      refine (base.mirrors_lower hbase _).bind ?_
      rintro item _ rfl
      have hplan : Plan.renumber (shift n d) { plan with lowered := plan.lowered ++ [item] }
          = { plan.renumber (shift n d) with
              lowered := (plan.renumber (shift n d)).lowered ++ [item.renumber (shift n d)] } := by
        simp [Plan.renumber]
      rw [← hplan]
      refine (mirrors_foldlM (fun plan input => ?_) _ _).bind ?_
      · rw [Buffer.renumber_root (shift_injective n d)]
        exact ih input.root_id plan
      · rintro plan _ rfl
        exact mirrors_pure (by simp [Plan.renumber])

end Plan

end TensorGraph
