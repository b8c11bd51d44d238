import TensorGraph.Proofs.Schedule.Lower
/-!
# Scheduling a dense copy

A dense copy of a view is computed by one kernel. If the base of the view has a result or is computed
by a load, nothing joins that kernel, and the schedule is known: the load, if it is still to be done,
and the kernel.

- `Tree.copyOf`: what the kernel computes.
- `Graph.Available`: the bases that are read as they are.
- `Buffer.sat_schedule_copy`: the schedule.
-/

namespace TensorGraph

open TensorGraph.Graph

variable {α : Type} {g : Graph α} {b c : Buffer} {arg : Arg α} {issuer : Option Nat}

/-- The identity on a buffer, issued for the base `id`. -/
def Tree.copyOf (b : Buffer) (id : Nat) : Tree α :=
  .node (.unary .noop) .none (some id) [.buffer b]

@[simp] theorem Tree.buffers_copyOf (b : Buffer) (id : Nat) :
    (copyOf b id : Tree α).buffers = [b] := rfl

/-- The unit that makes the dense copy `c` of `b`, compiled. -/
def Item.copyOf (b c : Buffer) (compiled : Compiled α) : Item α where
  tree := compiled.tree
  output := c
  inputs := [b]
  slots := compiled.slots
  fused := .copyOf b c.id

/-- The unit of a load. -/
def Item.loadOf (base : Buffer) (op : Tree α) : Item α where
  tree := op
  output := base
  inputs := []
  slots := []
  fused := op

/-- The base of the buffer has a result, or is computed by a load that is no dense copy. -/
def Graph.Available (g : Graph α) (b : Buffer) : Prop :=
  g.isRealized b = true ∨ ∃ op load, g.op? b = some op ∧ op.code? = some (.load load)
    ∧ load ≠ .contiguous

/-- Such a base joins no kernel. -/
theorem Graph.Available.isJoinable_eq (h : g.Available b) (held : List Buffer) :
    g.isJoinable held b = false := by
  rcases h with hrealized | ⟨op, load, hop, hcode, -⟩
  · simp [isJoinable, hrealized]
  · have hreduce : op.codeIs Opcode.isReduce = false := by
      rw [Tree.codeIs, hcode]
      rfl
    simp [isJoinable, hop, hreduce]

/-- Such a base is computed by a load, if it is still to be computed. -/
theorem Graph.Available.exists_load (h : g.Available b) (hwaits : g.isRealized b = false) :
    ∃ op, g.op? b = some op ∧ op.codeIs Opcode.isLoad = true
      ∧ ∀ base, Buffer.lowered base op = op := by
  rcases h with hrealized | ⟨op, load, hop, hcode, hne⟩
  · rw [hwaits] at hrealized
    cases hrealized
  refine ⟨op, hop, by rw [Tree.codeIs, hcode]; rfl, fun base => base.lowered_eq_of_ne fun hcopy => ?_⟩
  exact hne (Opcode.load.inj (Option.some.inj (hcode.symm.trans hcopy)))

namespace Buffer

/-- A buffer that has the shape already is reshaped to itself. -/
theorem sat_move_reshape (b : Buffer) : Sat (b.move (.reshape b.shape) : Build α Buffer) g
    (fun c g' => c = b ∧ g' = g) fun _ _ => False := by
  have hreshape : b.tracker.move (.reshape b.shape) = .ok b.tracker := if_pos rfl
  rw [move, hreshape]
  simp only [withTracker, if_true]
  exact ⟨rfl, rfl⟩

/-- Nothing joins the kernel of the copy. -/
theorem sat_joinReduction_copy (hb : g.Available b) (id : Nat) (held : List Buffer)
    (fusion : Fusion) :
    Sat ((Tree.copyOf b id).joinReduction held b.shape fusion) g
      (fun t g' => t = Tree.copyOf b id ∧ g' = g) fun _ _ => False := by
  have hjoined : Tree.joined? g held [b] fusion = none := by
    simp [Tree.joined?, hb.isJoinable_eq held]
  rw [Tree.joinReduction, sat_bind, sat_get]
  simp only [Tree.buffers_copyOf, hjoined, Tree.innerShape, sat_bind, sat_liftM_ok,
    Option.all_none, List.filter_true, List.mapM_cons, List.mapM_nil]
  refine (sat_move_reshape b).imp ?_ fun _ _ h => h.elim
  rintro _ _ ⟨rfl, rfl⟩
  refine ⟨?_, rfl⟩
  simp [Tree.copyOf, Tree.replacement]

/-- The copy is lowered to the compiled kernel, unless the leaf cannot be compiled. -/
theorem sat_lower_copy (hb : g.Available b) (hshape : c.shape = b.shape)
    (hop : g.op? c = some (.node (.load .contiguous) arg issuer [.buffer b]))
    (held : List Buffer) :
    Sat (c.lower held) g
      (fun item g' => g' = g ∧ ∃ compiled, g.compile (.copyOf b c.id) = .ok compiled
        ∧ item = .copyOf b c compiled)
      fun cause g' => g' = g ∧ g.compile (.copyOf b c.id) = .error cause := by
  rw [lower, sat_bind, sat_get, hop]
  change Sat (fuse c held (Tree.copyOf b c.id) (.unary .noop) >>= _) g _ _
  rw [sat_bind, fuse, hshape]
  refine (sat_joinReduction_copy hb c.id held _).imp ?_ fun _ _ h => h.elim
  rintro _ g ⟨rfl, rfl⟩
  rw [sat_bind, sat_get, sat_bind]
  cases hcompiled : g.compile (.copyOf b c.id) with
  | ok compiled => exact ⟨rfl, compiled, rfl, rfl⟩
  | error cause => exact ⟨rfl, rfl⟩

/-- A load is lowered as it is. -/
theorem sat_lower_load {base : Buffer} {op : Tree α} (hop : g.op? base = some op)
    (hload : op.codeIs Opcode.isLoad = true) (hlowered : base.lowered op = op)
    (held : List Buffer) :
    Sat (base.lower held) g (fun item g' => item = .loadOf base op ∧ g' = g) fun _ _ => False := by
  obtain ⟨code, hcode, hcodeLoad⟩ := Tree.codeIs_eq_true.mp hload
  rw [lower, sat_bind, sat_get, hop, Option.map_some, hlowered]
  cases op with
  | buffer => cases hcode
  | node code' arg issuer sources =>
    obtain rfl := Option.some.inj hcode
    simp only [hcodeLoad, if_true]
    exact ⟨rfl, rfl⟩

/-- The schedule of a dense copy: the load of the base of the view, unless that has a result, and the
kernel. There is none if the leaf of the kernel cannot be compiled. -/
theorem sat_schedule_copy (hb : g.Available b) (hshape : c.shape = b.shape)
    (hop : g.op? c = some (.node (.load .contiguous) arg issuer [.buffer b]))
    (hc : c = c.base.buffer) (hroot : b.root = b.base.buffer) (hlt : b.base.id < c.base.id)
    (hwaits : g.isRealized c = false) (held : List Buffer) :
    Sat (c.schedule held) g
      (fun items g' => g' = g ∧ ∃ compiled, g.compile (.copyOf b c.id) = .ok compiled
        ∧ ((g.isRealized b = true ∧ items = [.copyOf b c compiled])
          ∨ (g.isRealized b = false ∧ ∃ op, g.op? b = some op ∧ op.codeIs Opcode.isLoad = true
            ∧ items = [.loadOf b.base.buffer op, .copyOf b c compiled])))
      fun cause g' => g' = g ∧ g.compile (.copyOf b c.id) = .error cause := by
  have hid : c.id = c.base.id := congrArg Buffer.id hc
  have hcroot : c.root = c := if_pos (decide_eq_true hid)
  obtain ⟨steps, hsteps⟩ : ∃ steps, c.base.id = steps + 1 := ⟨c.base.id - 1, by omega⟩
  rw [schedule, sat_bind, hcroot, Plan.add, sat_bind, sat_get,
    if_neg (by simp [hwaits, Plan.contains]), sat_bind]
  refine (sat_lower_copy hb hshape hop _).imp ?_ fun _ _ h => h
  rintro item g' ⟨rfl, compiled, hcompiled, rfl⟩
  rw [sat_bind]
  change Sat (List.foldlM _ _ [b]) g' _ _
  rw [List.foldlM_cons, sat_bind, hroot, hsteps, Plan.add, sat_bind, sat_get]
  -- the unit of the copy is not that of the base of `b`
  have hnew : Plan.contains { lowered := ([] : List (Item α)) ++ [.copyOf b c compiled] }
      b.base.buffer = false := by
    simp only [Plan.contains, List.nil_append, List.any_cons, List.any_nil, Bool.or_false,
      decide_eq_false_iff_not]
    change c.id ≠ b.base.id
    omega
  have hsame : g'.isRealized b.base.buffer = g'.isRealized b := rfl
  split
  · next hdone =>
    rw [hsame, hnew, Bool.or_false] at hdone
    exact ⟨rfl, compiled, hcompiled, .inl ⟨hdone, rfl⟩⟩
  · next hdone =>
    rw [hsame, hnew, Bool.or_false] at hdone
    have hwaits' : g'.isRealized b = false := by simpa using hdone
    obtain ⟨op, hop', hload, hlowered⟩ := hb.exists_load hwaits'
    rw [sat_bind]
    have hop'' : g'.op? b.base.buffer = some op := hop'
    refine (sat_lower_load hop'' hload (hlowered _) _).imp ?_ fun _ _ h => h.elim
    rintro _ _ ⟨rfl, rfl⟩
    exact ⟨rfl, compiled, hcompiled, .inr ⟨hwaits', op, hop', hload, rfl⟩⟩

end Buffer

end TensorGraph
