import TensorGraph.Proofs.Graph.Build
/-!
# Bases that are needed

To realize a base, all bases without a result must be computed from which it is made. As long as the
base is held, all of them are alive, and each of them is among the live readers of the bases that it
reads.

- `Graph.Needs`: the bases that must be computed.
- `Graph.WellFormed.mem_live`: they are alive.
- `Graph.WellFormed.eq_of_reads`: the only reader of a base.
-/

namespace TensorGraph

open TensorGraph.Graph

variable {α : Type} {W : Census} {g : Graph α} {b c : Buffer} {e f : Entry α} {held : List Buffer}

namespace Graph

/-- The bases without a result that must be computed to realize the base of `b`. -/
inductive Needs (g : Graph α) (b : Buffer) : Entry α → Prop
  /-- The base itself. -/
  | root {e : Entry α} (he : e ∈ g.cores) (hbase : e.base = b.base) (hwaits : e.result = none) :
    Needs g b e
  /-- A base that a needed one reads. -/
  | read {e f : Entry α} (h : Needs g b e) (hf : f ∈ g.cores) (hreads : e.Reads f.base.id)
    (hwaits : f.result = none) : Needs g b f

theorem Needs.mem (h : g.Needs b e) : e ∈ g.cores := by
  cases h with
  | root he => exact he
  | read _ hf => exact hf

theorem Needs.waits (h : g.Needs b e) : e.result = none := by
  cases h with
  | root _ _ hwaits => exact hwaits
  | read _ _ _ hwaits => exact hwaits

theorem Needs.of_same {g' : Graph α} (hcores : g'.cores = g.cores) (h : g.Needs b e) :
    g'.Needs b e := by
  induction h with
  | root he hbase hwaits => exact .root (hcores ▸ he) hbase hwaits
  | read _ hf hreads hwaits ih => exact .read ih (hcores ▸ hf) hreads hwaits

/-! ## What is alive -/

theorem spread_cons (e : Entry α) (entries : List (Entry α)) (ids : List Nat) :
    spread (e :: entries) ids = spread entries
      (if e.base.id ∈ ids then ids ++ e.leaves.flatMap Buffer.keepsAlive else ids) := rfl

theorem spread_core (entries : List (Entry α)) (ids : List Nat) :
    spread (entries.map Entry.core) ids = spread entries ids := by
  induction entries generalizing ids with
  | nil => rfl
  | cons e entries ih =>
    rw [List.map_cons, spread_cons, spread_cons, ih]
    rfl

theorem mem_spread_of_mem {entries : List (Entry α)} {ids : List Nat} {id : Nat} (h : id ∈ ids) :
    id ∈ spread entries ids := by
  induction entries generalizing ids with
  | nil => exact h
  | cons e entries ih =>
    rw [spread_cons]
    refine ih ?_
    split
    · exact List.mem_append_left _ h
    · exact h

/-- A number is kept alive by those given, or by a base. -/
theorem of_mem_spread {entries : List (Entry α)} {ids : List Nat} {id : Nat}
    (h : id ∈ spread entries ids) :
    id ∈ ids ∨ ∃ e ∈ entries, id ∈ e.leaves.flatMap Buffer.keepsAlive := by
  induction entries generalizing ids with
  | nil => exact .inl h
  | cons e entries ih =>
    rw [spread_cons] at h
    rcases ih h with hmem | ⟨f, hf, hmem⟩
    · split at hmem
      · rcases List.mem_append.mp hmem with hmem | hmem
        · exact .inl hmem
        · exact .inr ⟨e, List.mem_cons_self, hmem⟩
      · exact .inl hmem
    · exact .inr ⟨f, List.mem_cons_of_mem _ hf, hmem⟩

/-- If newer bases come first and operations read older buffers, a base that is alive keeps what it
reads alive. -/
theorem mem_spread_leaf {entries : List (Entry α)} {ids : List Nat}
    (hsorted : entries.Pairwise fun e f => f.base.id < e.base.id)
    (holder : ∀ e ∈ entries, ∀ id ∈ e.leaves.flatMap Buffer.keepsAlive, id < e.base.id)
    (he : e ∈ entries) (hlive : e.base.id ∈ spread entries ids) {id : Nat}
    (hid : id ∈ e.leaves.flatMap Buffer.keepsAlive) : id ∈ spread entries ids := by
  induction entries generalizing ids with
  | nil => cases he
  | cons f entries ih =>
    obtain ⟨hfirst, hsorted⟩ := List.pairwise_cons.mp hsorted
    rw [spread_cons] at hlive ⊢
    rcases List.mem_cons.mp he with rfl | he
    · split
      · exact mem_spread_of_mem (List.mem_append_right _ hid)
      · next hnot =>
        -- no older base keeps it alive
        rw [if_neg hnot] at hlive
        rcases of_mem_spread hlive with hmem | ⟨f, hf, hmem⟩
        · exact absurd hmem hnot
        · have hlt := holder f (List.mem_cons_of_mem _ hf) _ hmem
          exact absurd (hlt.trans (hfirst f hf)) (Nat.lt_irrefl _)
    · exact ih hsorted (fun f hf => holder f (List.mem_cons_of_mem _ hf)) he hlive

namespace WellFormed

variable (hg : g.WellFormed W)
include hg

theorem reads_lt (he : e ∈ g.cores) {id : Nat} (hreads : e.Reads id) : id < e.base.id := by
  obtain ⟨c, hc, rfl⟩ := hreads
  exact hg.leaf_base_lt he hc

/-- What the operation of a base keeps alive is older than the base. -/
theorem keepsAlive_lt (he : e ∈ g.cores) :
    ∀ id ∈ e.leaves.flatMap Buffer.keepsAlive, id < e.base.id := by
  intro id hid
  obtain ⟨c, hc, hid⟩ := List.mem_flatMap.mp hid
  rcases List.mem_cons.mp hid with rfl | hid
  · exact (hg.older_leaf he hc).2
  · obtain rfl := List.mem_singleton.mp hid
    exact hg.leaf_base_lt he hc

/-- What a live base reads is alive. -/
theorem mem_live_of_reads (he : e ∈ g.cores) (hlive : e.base.id ∈ g.live held) {id : Nat}
    (hreads : e.Reads id) : id ∈ g.live held := by
  rw [live, ← spread_core] at hlive ⊢
  obtain ⟨c, hc, rfl⟩ := hreads
  exact mem_spread_leaf hg.sorted (fun f hf => hg.keepsAlive_lt hf) he hlive
    (List.mem_flatMap.mpr ⟨c, hc, by simp [Buffer.keepsAlive]⟩)

/-- What is needed for a buffer that is held is alive. -/
theorem mem_live (hb : b ∈ held) (h : g.Needs b e) : e.base.id ∈ g.live held := by
  induction h with
  | root _ hbase =>
    refine mem_spread_of_mem (List.mem_flatMap.mpr ⟨b, hb, ?_⟩)
    simp [Buffer.keepsAlive, hbase]
  | read h hf hreads _ ih => exact hg.mem_live_of_reads h.mem ih hreads

/-! ## Readers -/

/-- A base is registered with every base that it reads. -/
theorem mem_readers (he : e ∈ g.cores) (hf : f ∈ g.entries) (hreads : e.Reads f.base.id) :
    e.base.id ∈ f.readers := by
  obtain ⟨e, he', rfl⟩ := mem_cores.mp he
  obtain ⟨c, hc, hid⟩ := hreads
  have hlt : f.base.id < e.base.id := hg.reads_lt he ⟨c, hc, hid⟩
  -- the newer of two bases is registered with the older one
  have hpair : g.entries.Pairwise fun e f => f.base.id < e.base.id ∧
      ∀ b ∈ e.op.elim [] Tree.buffers, b.base.id = f.base.id → e.base.id ∈ f.readers := by
    have hsorted : g.entries.Pairwise fun e f => f.base.id < e.base.id :=
      List.pairwise_map.mp hg.sorted
    exact hsorted.and hg.enrolled.bases
  obtain rfl | ⟨-, hknows⟩ | ⟨hgt, -⟩ := rel_or_rel_of_pairwise hpair he' hf
  · exact absurd hlt (Nat.lt_irrefl _)
  · cases hop : e.op with
    | none => simp [Entry.leaves, hop] at hc
    | some op =>
      have hleaves := Entry.leaves_eq hop
      rw [hop] at hknows
      have hlists : ∀ d ∈ op.leaves, W.Lists d := fun d hd =>
        (hg.older_leaf (e := e.core) he (hleaves.symm ▸ hd)).1
      exact hknows c ((mem_buffers_of_lists hlists).mpr (hleaves ▸ hc)) hid
  · exact absurd (hlt.trans hgt) (Nat.lt_irrefl _)

/-- The base of a buffer that was handed out is found. -/
theorem exists_find? (hc : W.Lists c) :
    ∃ f ∈ g.entries, g.find? c.base.id = some f ∧ f.base.id = c.base.id := by
  obtain ⟨e, he, hbase⟩ := hg.census_base _ _ hc
  obtain ⟨f, hf, rfl⟩ := mem_cores.mp he
  have hid : f.base.id = c.base.id := congrArg Base.id hbase
  cases hfind : g.find? c.base.id with
  | none =>
    have hnone := List.find?_eq_none.mp hfind f hf
    simp [hid] at hnone
  | some f' =>
    exact ⟨f', List.mem_of_find?_eq_some hfind, rfl, by simpa using List.find?_some hfind⟩

/-- Needed bases that read a base which is held are among its live readers. -/
theorem mem_live_readers (hb : b ∈ held) (he : g.Needs b e) (hc : W.Lists c)
    (hreads : e.Reads c.base.id) :
    e.base.id ∈ (g.readers held c).filter (· ≠ c.id) := by
  obtain ⟨f', hf', hfind, hid⟩ := hg.exists_find? hc
  have hne : e.base.id ≠ c.id := by
    intro heq
    -- the reader would be the handle itself, on an older base
    have hsame : e.base.buffer = c := (hg.base_listed e he.mem).eq hc heq
    have hlt := hg.reads_lt he.mem hreads
    rw [← hsame] at hlt
    exact Nat.lt_irrefl _ hlt
  refine List.mem_filter.mpr ⟨List.mem_filter.mpr ⟨?_, ?_⟩, by simpa using hne⟩
  · rw [hfind]
    exact hg.mem_readers he.mem hf' (hid ▸ hreads)
  · exact decide_eq_true (hg.mem_live hb he)

/-- A base that nobody else reads has one reader among those needed. -/
theorem eq_of_reads (hb : b ∈ held) (hc : W.Lists c) (hcount : g.otherReaderCount held c ≤ 1)
    (he : g.Needs b e) (hf : g.Needs b f) (hreads : e.Reads c.base.id) (hreads' : f.Reads c.base.id) :
    e = f := by
  have he' := hg.mem_live_readers hb he hc hreads
  have hf' := hg.mem_live_readers hb hf hc hreads'
  refine hg.eq_of_id_eq he.mem hf.mem ?_
  rw [otherReaderCount] at hcount
  generalize (g.readers held c).filter (· ≠ c.id) = l at hcount he' hf'
  rcases l with _ | ⟨x, _ | ⟨y, l⟩⟩
  · cases he'
  · rw [List.mem_singleton.mp he', List.mem_singleton.mp hf']
  · simp at hcount

end WellFormed

end Graph

end TensorGraph
