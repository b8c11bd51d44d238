import TensorGraph.Proofs.Schedule.Exact
import TensorGraph.Proofs.Schedule.Renumber
/-!
# Scheduling is pure

A search for a schedule, whether it succeeds or not, hands out views and does nothing else. Once its
schedule is let go, nothing keeps these views alive, so that no count of readers has changed, and the
next search makes the same decisions. It hands out the same views under the numbers that come next.

- `Graph.WellFormed.shifted`: after a search the numbers of its views are left out.
- `Graph.Shifted.readerCount`: views that are let go are not counted.
- `Buffer.PureSchedule`: what a search leaves, and what the next one gives.
- `Session.Reachable.schedule_pure`: scheduling is pure in every reachable session.
-/

namespace TensorGraph

open TensorGraph.Graph

variable {α : Type} {W W' : Census} {n d : Nat} {g g' : Graph α} {b : Buffer} {held : List Buffer}
  {items : List (Item α)}

namespace Graph

/-! ## What is left of a search -/

/-- Readers were registered under numbers that were handed out. -/
theorem WellFormed.reader_lt (hg : g.WellFormed W) {e : Entry α} (he : e ∈ g.entries) {r : Nat}
    (hr : r ∈ e.readers) : r < g.next := by
  rcases hg.enrolled.only e he r hr with ⟨b, hb, -⟩ | ⟨f, hf, rfl, -⟩
  · exact hg.census_lt r b hb
  · exact hg.lt_next (hg.base_listed f hf)

/-- What a buffer keeps alive was handed out. -/
theorem WellFormed.keepsAlive_lt_next (hg : g.WellFormed W) (hb : W.Lists b) :
    ∀ i ∈ b.keepsAlive, i < g.next := by
  intro i hi
  have hlt := hg.lt_next hb
  have hle := hg.base_le hb
  simp only [Buffer.keepsAlive, List.mem_cons, List.not_mem_nil, or_false] at hi
  omega

/-- After views were handed out, the graph is the one from before without their numbers. -/
theorem WellFormed.shifted (hg : g.WellFormed W) (hg' : g'.WellFormed W') (h : g.Same g') :
    g.Shifted g.next (g'.next - g.next) g' := by
  have hle := h.next_le
  constructor
  case le_next => exact Nat.le_refl _
  case next => omega
  case older =>
    intro e he
    have hlt : e.base.id < g.next := hg.lt_next (hg.base_listed e he)
    exact ⟨hlt, fun i hi => (hg.keepsAlive_lt he i hi).trans hlt⟩
  case entries =>
    have hcores : List.Forall₂ (fun e e' => Entry.core e' = Entry.core e) g.entries g'.entries := by
      have heq := h.cores
      rw [cores, cores, ← List.forall₂_eq_eq_eq, List.forall₂_map_left_iff,
        List.forall₂_map_right_iff] at heq
      exact heq.flip
    refine (forall₂_mem (forall₂_and hcores h.readers)).imp ?_
    rintro e e' ⟨he, he', hcore, news, heq, hnews⟩
    refine ⟨hcore, ?_⟩
    have hold : e.readers.filter (Hit g.next (g'.next - g.next) ·) = e.readers :=
      List.filter_eq_self.mpr fun r hr => decide_eq_true (.inl (hg.reader_lt he hr))
    have hnew : news.filter (Hit g.next (g'.next - g.next) ·) = [] := by
      refine List.filter_eq_nil_iff.mpr fun r hr => ?_
      have hlt := hg'.reader_lt he' (heq ▸ List.mem_append_right _ hr)
      have hge := hnews r hr
      rw [decide_eq_true_eq]
      omega
    have hfixed : e.readers.map (shift g.next (g'.next - g.next)) = e.readers.map id :=
      List.map_congr_left fun r hr => shift_of_lt (hg.reader_lt he hr)
    rw [heq, List.filter_append, hold, hnew, List.append_nil, hfixed, List.map_id]

namespace Shifted

variable (h : g.Shifted n d g')
include h

/-- Views under the numbers left out are not alive, and are not counted. -/
theorem readerCount (held : List Buffer) (b : Buffer) :
    g'.readerCount (held.map (Buffer.renumber (shift n d))) (b.renumber (shift n d))
      = g.readerCount held b := by
  rw [Graph.readerCount, Graph.readerCount, h.readers, List.length_map]

end Shifted

end Graph

/-! ## Searches -/

/-- A search under other numbers. -/
theorem Buffer.mirrors_schedule (hb : b.renumber (shift n d) = b) (held : List Buffer) :
    Build.Mirrors n d (fun items items' => items' = items.map (Item.renumber (shift n d)))
      (b.schedule held : Build α (List (Item α)))
      (b.schedule (held.map (Buffer.renumber (shift n d)))) := by
  have hadd := Plan.mirrors_add (α := α) (n := n) (d := d) (b :: held) (b.base.id + 1) b.root_id {}
  rw [← renumber_root (shift_injective n d), List.map_cons, hb] at hadd
  refine hadd.bind ?_
  rintro plan _ rfl
  exact Build.mirrors_pure rfl

/-- A search hands out views, and gives a schedule if it succeeds. -/
theorem Buffer.viewed_schedule (hg : g.WellFormed W) (hb : W.Lists b) (held : List Buffer) :
    ∃ W', Viewed W g W' ((b.schedule held).run g).2 ∧ ∀ items,
      ((b.schedule held).run g).1 = .ok items → Scheduled W' ((b.schedule held).run g).2 b items := by
  have h := sat_schedule hg hb held
  rw [Sat] at h
  generalize (b.schedule held).run g = outcome at h
  rcases outcome with ⟨e | items, g'⟩
  · obtain ⟨⟨W', hviewed⟩, -⟩ := h
    refine ⟨W', hviewed, fun items heq => ?_⟩
    cases heq
  · obtain ⟨W', hviewed, hscheduled⟩ := h
    refine ⟨W', hviewed, fun items' heq => ?_⟩
    obtain rfl := Except.ok.inj heq
    exact hscheduled

/-- A resolved leaf has no buffers. -/
theorem Graph.leaves_resolveLeaf {slots : List Buffer} {u : Tree α}
    (h : g.resolveLeaf slots b = .ok u) : u.leaves = [] := by
  rcases resolveLeaf_eq_ok h with ⟨-, value, -, rfl⟩ | ⟨-, rfl⟩ <;> simp

/-- A compiled tree has no buffers. -/
theorem Graph.leaves_resolve {t : Tree α} {c : Compiled α} (ht : ∀ b ∈ t.leaves, W.Lists b)
    (h : g.resolve t = .ok c) : c.tree.leaves = [] := by
  obtain ⟨-, m, htree, hm⟩ := resolve_eq_ok ht h
  rw [List.eq_nil_iff_forall_not_mem, htree]
  intro b hb
  obtain ⟨leaf, hleaf, hb⟩ := Tree.mem_leaves_substitute.mp hb
  obtain ⟨u, hu, hresolved⟩ := hm leaf hleaf
  rw [hu, Option.getD_some, leaves_resolveLeaf hresolved] at hb
  cases hb

/-- The compiled tree of a unit stays: that of a kernel has no buffers, and a load reads no new ones. -/
theorem Buffer.Lowers.renumber_tree {base : Buffer} {item : Item α} (h : base.Lowers W' g' item)
    (hshifted : g.Shifted n d g') (hleaves : ∀ c ∈ item.fused.leaves, W'.Lists c) :
    item.tree.renumber (shift n d) = item.tree := by
  cases h with
  | load hop hload =>
    obtain ⟨op, hfound, rfl⟩ := Option.map_eq_some_iff.mp hop
    rw [op?_congr hshifted.cores] at hfound
    rw [(lowered_of_load hload).1, hshifted.renumber_op hfound]
  | kernel _ _ hcompiled =>
    have hnone := leaves_resolve hleaves hcompiled
    exact Tree.renumber_eq_self fun c hc => absurd (hnone ▸ hc) List.not_mem_nil

/-- In the units of a search nothing has another number but views among the leaves of kernels. -/
theorem Scheduled.renumber (hg : g.WellFormed W) (hg' : g'.WellFormed W')
    (hshifted : g.Shifted g.next d g') (h : Scheduled W' g' b items) {item : Item α}
    (hitem : item ∈ items) :
    (∀ c ∈ item.handles, c.renumber (shift g.next d) = { c with id := shift g.next d c.id })
      ∧ item.renumber (shift g.next d)
        = { item with inputs := item.inputs.map (Buffer.renumber (shift g.next d)),
                      fused := item.fused.renumber (shift g.next d) } := by
  have hbase {c : Buffer} (hc : W'.Lists c) : c.base.id < g.next := by
    obtain ⟨e, he, hid⟩ := hg'.census_base _ _ hc
    rw [hshifted.cores] at he
    exact hid ▸ hg.lt_next (hg.base_listed e he)
  have hroot {c : Buffer} (hc : W'.Lists c) :
      c.base.buffer.renumber (shift g.next d) = c.base.buffer := by
    have hlt := hbase hc
    exact Buffer.renumber_eq_self (shift_of_lt hlt) (shift_of_lt hlt)
  constructor
  · intro c hc
    have hlt := hbase (h.lists hg' hitem hc)
    rw [Buffer.renumber, Base.renumber, shift_of_lt hlt]
  obtain ⟨hlowers, hlist, houtput, -⟩ := h.units item hitem
  obtain ⟨-, hleaves, hinputs, hslots⟩ := hlowers.reads hg' (.refl W') (hg'.lists_base hlist)
  have houtput' : item.output.renumber (shift g.next d) = item.output := by
    rw [houtput]
    exact hroot hlist
  have hslots' : item.slots.map (Buffer.renumber (shift g.next d)) = item.slots.map id := by
    refine List.map_congr_left fun c hc => ?_
    obtain ⟨leaf, hleaf, rfl⟩ := hslots c hc
    have hlist := (hleaves leaf (hinputs leaf hleaf)).1
    rw [hg'.root_eq hlist]
    exact hroot hlist
  have htree := hlowers.renumber_tree hshifted fun c hc => (hleaves c hc).1
  rw [Item.renumber, houtput', hslots', htree, List.map_id]

/-- The numbers that are handed out in `g` as they are handed out in the later graph `g'`; the earlier
ones stay. -/
def Graph.laterNumber (g g' : Graph α) : Nat → Nat := shift g.next (g'.next - g.next)

/-- A search for a schedule for `b` in the graph `g` is pure: it changes no operation, no result and no
count of readers, and the next search comes to the same, but for the numbers of views. The handles
`held` are held before the search, and after its schedule was let go. -/
structure Buffer.PureSchedule (g : Graph α) (held : List Buffer) (b : Buffer)
    (g' : Graph α) : Prop where
  /-- Bases keep their operations. -/
  op : ∀ c, g'.op? c = g.op? c
  /-- Bases keep their results, and get none. -/
  result : ∀ c, g'.result? c = g.result? c
  /-- Bases have as many readers as before. -/
  readers : ∀ e ∈ g.entries, g'.readerCount held e.base.buffer = g.readerCount held e.base.buffer
  /-- The next search has the same outcome, with views under the next numbers. -/
  again : ((b.schedule held).run g').1 = renumberOutcome (g.laterNumber g')
    (List.map (Item.renumber (g.laterNumber g'))) ((b.schedule held).run g).1
  /-- Only the leaves of kernels have other numbers. -/
  kept : ∀ items, ((b.schedule held).run g).1 = .ok items → ∀ item ∈ items,
    item.renumber (g.laterNumber g')
      = { item with inputs := item.inputs.map (Buffer.renumber (g.laterNumber g')),
                    fused := item.fused.renumber (g.laterNumber g') }
  /-- Their bases have not. -/
  bases : ∀ items, ((b.schedule held).run g).1 = .ok items → ∀ item ∈ items, ∀ c ∈ item.handles,
    c.renumber (g.laterNumber g') = { c with id := g.laterNumber g' c.id }

theorem Graph.WellFormed.pureSchedule (hg : g.WellFormed W) (hb : W.Lists b)
    (hheld : ∀ c ∈ held, W.Lists c) : b.PureSchedule g held ((b.schedule held).run g).2 := by
  obtain ⟨W', hviewed, hitems⟩ := Buffer.viewed_schedule hg hb held
  have hshifted := hg.shifted hviewed.wellFormed hviewed.same
  obtain ⟨d, hd⟩ : ∃ d, ((b.schedule held).run g).2.next - g.next = d := ⟨_, rfl⟩
  have hlater : g.laterNumber ((b.schedule held).run g).2 = shift g.next d := by
    rw [laterNumber, hd]
  rw [hd] at hshifted
  have hfixed {c : Buffer} (hc : W.Lists c) : c.renumber (shift g.next d) = c :=
    Buffer.renumber_shift (hg.keepsAlive_lt_next hc)
  have hheld' : held.map (Buffer.renumber (shift g.next d)) = held :=
    (List.map_congr_left fun c hc => hfixed (hheld c hc)).trans (List.map_id held)
  constructor
  case op => exact op?_congr hshifted.cores
  case result => exact result?_congr hshifted.cores
  case readers =>
    intro e he
    have hlist : W.Lists e.base.buffer := hg.base_listed e.core (mem_cores.mpr ⟨e, he, rfl⟩)
    have hcount := hshifted.readerCount held e.base.buffer
    rwa [hheld', hfixed hlist] at hcount
  case again =>
    have hagain := Buffer.mirrors_schedule (hfixed hb) held g _ hshifted
    rw [hheld'] at hagain
    rw [hlater]
    exact hagain.outcome
  case kept =>
    intro items hrun item hitem
    rw [hlater]
    exact ((hitems items hrun).renumber hg hviewed.wellFormed hshifted hitem).2
  case bases =>
    intro items hrun item hitem
    rw [hlater]
    exact ((hitems items hrun).renumber hg hviewed.wellFormed hshifted hitem).1

namespace Session

variable [Lane α] {devices : Registry α} {s : Session α}

/-- In every reachable session, a search for a schedule for a buffer is pure, whether it succeeds or
not. -/
theorem Reachable.schedule_pure (hs : s.Reachable devices) (hb : s.Owns b)
    (hheld : ∀ c ∈ held, s.Owns c) :
    b.PureSchedule s.engine.graph held ((b.schedule held).run s.engine.graph).2 := by
  obtain ⟨W, hsound⟩ := hs.sound
  exact hsound.1.wellFormed.pureSchedule (hb.lists hsound) fun c hc => (hheld c hc).lists hsound

/-- The session after a sum of ones was reshaped and added to another one. -/
def reshapedSum : Session Float :=
  let run (s : Session Float) (c : Command Float) : Session Float := (s.step [] c).2
  let s := run {} (.define "x" (.constant 1 (.ofNats [2]) .f32 "cpu" {}))
  let s := run s (.define "q" (.reduce "x" .sum (.ofNats [1])))
  let s := run s (.define "r" (.move "q" (.reshape (.ofNats [1, 1]))))
  let s := run s (.define "c" (.constant 1 (.ofNats [1, 1]) .f32 "cpu" {}))
  run s (.define "z" (.elementwise "r" (.binary .add) ["c"] (.ok .none)))

/-- The base that holds the sum of both. -/
def reshapedSumBase : Base := ⟨8, .ofNats [1, 1], .f32, "cpu", {}⟩

/-- A view is handed out on the way, as the other one is read in the shape of the sum. -/
theorem schedule_pure_reshapedSum :
    let g := reshapedSum.engine.graph
    let g' := ((reshapedSumBase.buffer.schedule reshapedSum.held).run g).2
    g'.next = g.next + 1 ∧ reshapedSumBase.buffer.PureSchedule g reshapedSum.held g' := by
  have hs : reshapedSum.Reachable [] := .step (.step (.step (.step (.step .start _) _) _) _) _
  have howns : reshapedSum.Owns reshapedSumBase.buffer :=
    .base (e := ⟨reshapedSumBase, _, _, _, _⟩) (List.Mem.head _)
  refine ⟨?_, hs.schedule_pure howns fun c hc => .held hc⟩
  decide +kernel

end Session

end TensorGraph
