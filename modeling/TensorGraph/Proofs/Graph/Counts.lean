import Mathlib.Data.Set.Card
import TensorGraph.Lane.Binary64
import TensorGraph.Proofs.Graph.Live
import TensorGraph.Proofs.Session
/-!
# Counting readers

The number of readers of a base is the number of its views that are alive and of the bases that are
alive and read it. A buffer is alive if it is held, or if the operation of the base of a buffer that
is alive holds it.

- `Graph.Alive`: the buffers that are alive.
- `Graph.LiveReader`: the live readers of a base.
- `Graph.WellFormed.mem_live_iff`: one pass over the graph finds all that is alive.
- `Session.Reachable.counts_readers`: the counts are exact in every reachable session.
-/

namespace TensorGraph

variable {α : Type} {W : Census} {g : Graph α} {b c n : Buffer} {e : Entry α} {held : List Buffer}

namespace Graph

/-- The buffers that the handles `held` keep alive. A handle owns the base of its buffer, a base owns
its operation, and the operation owns handles on its leaves. -/
inductive Alive (g : Graph α) (held : List Buffer) : Buffer → Prop
  /-- A buffer that is held. -/
  | held {b : Buffer} (h : b ∈ held) : Alive g held b
  /-- A leaf of the operation of the base of a buffer that is alive. -/
  | leaf {e : Entry α} {b c : Buffer} (hb : Alive g held b) (he : e ∈ g.entries)
    (hbase : b.base = e.base) (hc : c ∈ e.leaves) : Alive g held c

/-- The live readers of the base with number `id`, each of them once, however many handles are on it
and however many leaves of its operation are on the base. -/
inductive LiveReader (g : Graph α) (held : List Buffer) (id : Nat) : Buffer → Prop
  /-- A view of the base that is alive. -/
  | view {b : Buffer} (hb : g.Alive held b) (hview : b.id ≠ b.base.id) (hid : b.base.id = id) :
    LiveReader g held id b
  /-- A base that is alive through a buffer on it, and whose operation has a leaf on the base. -/
  | base {e : Entry α} {b : Buffer} (hb : g.Alive held b) (he : e ∈ g.entries)
    (hbase : b.base = e.base) (hreads : e.Reads id) : LiveReader g held id e.base.buffer

/-! ## What is alive -/

namespace WellFormed

variable (hg : g.WellFormed W) (hheld : ∀ c ∈ held, W.Lists c)
include hg

/-- A number of a base that a buffer has, or its base, is that of its base. -/
theorem base_eq_of_keepsAlive (he : e ∈ g.entries) (hc : W.Lists c)
    (h : e.base.id ∈ c.keepsAlive) : c.base = e.base := by
  have hcore : e.core ∈ g.cores := mem_cores.mpr ⟨e, he, rfl⟩
  rcases List.mem_cons.mp h with hid | h
  · have hbuffer : W.Lists e.base.buffer := hg.base_listed e.core hcore
    rw [hc.eq hbuffer hid.symm]
    rfl
  · have hid := List.mem_singleton.mp h
    obtain ⟨f, hf, hbase⟩ := hg.census_base _ c hc
    have hfe : f = e.core := hg.eq_of_id_eq hf hcore (by rw [hbase, Entry.core_base, hid])
    rw [← hbase, hfe, Entry.core_base]

include hheld

theorem lists_of_alive (h : g.Alive held b) : W.Lists b := by
  induction h with
  | held h => exact hheld _ h
  | leaf _ he _ hc _ => exact (hg.older_leaf (mem_cores.mpr ⟨_, he, rfl⟩) hc).1

/-- The pass over the bases, the newest first, comes upon what is alive only. -/
theorem alive_of_mem_spread {entries : List (Entry α)} {ids : List Nat}
    (hentries : ∀ e ∈ entries, e ∈ g.entries)
    (hids : ∀ id ∈ ids, ∃ c, g.Alive held c ∧ id ∈ c.keepsAlive) :
    ∀ id ∈ spread entries ids, ∃ c, g.Alive held c ∧ id ∈ c.keepsAlive := by
  induction entries generalizing ids with
  | nil => exact hids
  | cons e entries ih =>
    rw [spread_cons]
    refine ih (fun f hf => hentries f (List.mem_cons_of_mem _ hf)) fun id hid => ?_
    split at hid
    · next hlive =>
      rcases List.mem_append.mp hid with hid | hid
      · exact hids id hid
      · obtain ⟨c, hc, hmem⟩ := hids _ hlive
        obtain ⟨d, hd, hid⟩ := List.mem_flatMap.mp hid
        have he := hentries e List.mem_cons_self
        have hbase := hg.base_eq_of_keepsAlive he (hg.lists_of_alive hheld hc) hmem
        exact ⟨d, hc.leaf he hbase hd, hid⟩
    · exact hids id hid

omit hheld in
/-- What is alive is found in one pass, as operations read older buffers. -/
theorem keepsAlive_of_alive (h : g.Alive held b) : ∀ id ∈ b.keepsAlive, id ∈ g.live held := by
  induction h with
  | held h =>
    intro id hid
    exact mem_spread_of_mem (List.mem_flatMap.mpr ⟨_, h, hid⟩)
  | @leaf e b c hb he hbase hc ih =>
    intro id hid
    have hlive : e.base.id ∈ g.live held := ih _ (by simp [Buffer.keepsAlive, hbase])
    rw [live, ← spread_core] at hlive ⊢
    refine mem_spread_leaf hg.sorted (fun f hf => ?_) (mem_cores.mpr ⟨e, he, rfl⟩) hlive
      (List.mem_flatMap.mpr ⟨c, hc, hid⟩)
    exact hg.keepsAlive_lt hf

/-- A number is found alive exactly if it is that of a buffer that is alive, or of its base. -/
theorem mem_live_iff {id : Nat} : id ∈ g.live held ↔ ∃ c, g.Alive held c ∧ id ∈ c.keepsAlive := by
  constructor
  · refine hg.alive_of_mem_spread hheld (fun _ he => he) (fun id hid => ?_) id
    obtain ⟨c, hc, hid⟩ := List.mem_flatMap.mp hid
    exact ⟨c, .held hc, hid⟩
  · rintro ⟨c, hc, hid⟩
    exact hg.keepsAlive_of_alive hc id hid

/-! ## Live readers -/

theorem lists_of_liveReader {id : Nat} (h : g.LiveReader held id n) : W.Lists n := by
  cases h with
  | view hb => exact hg.lists_of_alive hheld hb
  | base _ he => exact hg.base_listed (Entry.core _) (mem_cores.mpr ⟨_, he, rfl⟩)

/-- A registered reader that is found alive is a live reader. -/
theorem liveReader_of_mem {f : Entry α} (hf : f ∈ g.entries) {r : Nat} (hr : r ∈ f.readers)
    (hlive : r ∈ g.live held) : ∃ n, g.LiveReader held f.base.id n ∧ n.id = r := by
  obtain ⟨c, hc, hmem⟩ := (hg.mem_live_iff hheld).mp hlive
  have hclist := hg.lists_of_alive hheld hc
  rcases hg.enrolled.only f hf r hr with ⟨v, hv, hbase, hview⟩ | ⟨e, he, rfl, hreads⟩
  · have hid : v.id = r := hg.census_id r v hv
    subst hid
    rcases List.mem_cons.mp hmem with hid | hmem
    · obtain rfl : v = c := Census.Lists.eq hv hclist hid
      exact ⟨v, .view hc (hbase ▸ hview) hbase, rfl⟩
    · -- the number of a view is not that of a base
      have hid : v.id = c.base.buffer.id := List.mem_singleton.mp hmem
      obtain rfl : v = c.base.buffer := Census.Lists.eq hv (hg.lists_base hclist) hid
      exact absurd hbase hview
  · obtain ⟨e', he', rfl⟩ := mem_cores.mp he
    exact ⟨e'.base.buffer, .base hc he' (hg.base_eq_of_keepsAlive he' hclist hmem) hreads, rfl⟩

/-- A live reader is registered, and found alive. -/
theorem mem_of_liveReader {f : Entry α} (hf : f ∈ g.entries) (h : g.LiveReader held f.base.id n) :
    n.id ∈ f.readers ∧ n.id ∈ g.live held := by
  cases h with
  | view hn hview hid =>
    refine ⟨hg.enrolled.views n (hg.lists_of_alive hheld hn) hview f hf hid.symm, ?_⟩
    exact hg.keepsAlive_of_alive hn _ List.mem_cons_self
  | base hb he hbase hreads =>
    refine ⟨hg.mem_readers (e := Entry.core _) (mem_cores.mpr ⟨_, he, rfl⟩) hf hreads, ?_⟩
    refine hg.keepsAlive_of_alive hb _ ?_
    simp [Buffer.keepsAlive, hbase, Base.buffer]

/-- The readers that are counted are the numbers of the live readers. -/
theorem mem_readers_iff (hb : W.Lists b) {r : Nat} :
    r ∈ g.readers held b ↔ ∃ n, g.LiveReader held b.base.id n ∧ n.id = r := by
  obtain ⟨f, hf, hfind, hid⟩ := hg.exists_find? hb
  rw [readers, hfind, Option.elim_some, List.mem_filter, decide_eq_true_eq, ← hid]
  constructor
  · rintro ⟨hr, hlive⟩
    exact hg.liveReader_of_mem hheld hf hr hlive
  · rintro ⟨n, hn, rfl⟩
    exact hg.mem_of_liveReader hheld hf hn

omit hheld in
theorem nodup_readers (hb : W.Lists b) : (g.readers held b).Nodup := by
  obtain ⟨f, hf, hfind, -⟩ := hg.exists_find? hb
  rw [readers, hfind]
  exact (hg.enrolled.nodup f hf).filter _

omit hg hheld in
/-- A list without repetitions of the numbers of some listed buffers is as long as they are many. -/
theorem encard_eq_length {l : List Nat} (hl : l.Nodup) {nodes : Set Buffer}
    (hnodes : ∀ n ∈ nodes, W.Lists n) (hmem : ∀ r, r ∈ l ↔ ∃ n ∈ nodes, n.id = r) :
    nodes.encard = l.length := by
  have hinj : Set.InjOn Buffer.id nodes := fun m hm n hn h => (hnodes m hm).eq (hnodes n hn) h
  have himage : Buffer.id '' nodes = (l.toFinset : Set Nat) := by
    ext r
    rw [Finset.mem_coe, List.mem_toFinset, hmem]
    rfl
  rw [← hinj.encard_image, himage, Set.encard_coe_eq_coe_finsetCard, List.toFinset_card_of_nodup hl]

/-- The number of readers of a base is that of its live readers. -/
theorem encard_liveReader (hb : W.Lists b) :
    {n | g.LiveReader held b.base.id n}.encard = g.readerCount held b :=
  encard_eq_length (hg.nodup_readers hb) (fun _ hn => hg.lists_of_liveReader hheld hn)
    fun _ => hg.mem_readers_iff hheld hb

/-- The number of other readers of a base is that of its live readers but the buffer itself. -/
theorem encard_otherLiveReader (hb : W.Lists b) :
    {n | g.LiveReader held b.base.id n ∧ n ≠ b}.encard = g.otherReaderCount held b := by
  refine encard_eq_length ((hg.nodup_readers hb).filter _)
    (fun _ hn => hg.lists_of_liveReader hheld hn.1) fun r => ?_
  rw [List.mem_filter, hg.mem_readers_iff hheld hb, decide_eq_true_eq]
  constructor
  · rintro ⟨⟨n, hn, rfl⟩, hne⟩
    exact ⟨n, ⟨hn, fun heq => hne (congrArg Buffer.id heq)⟩, rfl⟩
  · rintro ⟨n, ⟨hn, hne⟩, rfl⟩
    exact ⟨⟨n, hn, rfl⟩, fun heq => hne ((hg.lists_of_liveReader hheld hn).eq hb heq)⟩

end WellFormed

end Graph

/-! ## Reachable sessions -/

namespace Session

variable [Lane α] {devices : Registry α} {s : Session α}

/-- In every reachable session the number of readers of a base is that of its live readers, and the
number of other readers leaves out the handle that asks, if it is one of them. -/
theorem Reachable.counts_readers (hs : s.Reachable devices) (hb : s.Owns b) :
    {n | s.engine.graph.LiveReader s.held b.base.id n}.encard = s.engine.graph.readerCount s.held b
      ∧ {n | s.engine.graph.LiveReader s.held b.base.id n ∧ n ≠ b}.encard
        = s.engine.graph.otherReaderCount s.held b := by
  obtain ⟨W, hsound⟩ := hs.sound
  have hg := hsound.1.wellFormed
  have hlists := hb.lists hsound
  exact ⟨hg.encard_liveReader hsound.2 hlists, hg.encard_otherLiveReader hsound.2 hlists⟩

/-- The session after a constant of two elements was built. Of the two views that this takes, the
first one is let go. -/
def keptView : Session Float :=
  (({} : Session Float).step [] (.define "x" (.constant 1 (.ofNats [2]) .f32 "cpu" {}))).2

theorem counts_readers_keptView :
    {n | keptView.engine.graph.LiveReader keptView.held 1 n}.encard = 1 := by
  have hs : keptView.Reachable [] := .step .start _
  have howns : keptView.Owns (Base.buffer ⟨1, .scalar, .f32, "cpu", {}⟩) :=
    .base (e := ⟨⟨1, .scalar, .f32, "cpu", {}⟩, _, _, _, _⟩) (List.Mem.head _)
  exact (hs.counts_readers howns).1.trans rfl

end Session

end TensorGraph
