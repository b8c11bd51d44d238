import Mathlib.Data.List.Nodup
import TensorGraph.Proofs.Graph.Census
import TensorGraph.Proofs.Graph.Core
import TensorGraph.Proofs.Tree
/-!
# Registered readers

A view is registered as a reader of its base, and a base as a reader of every older base that its
operation reads. Nothing else is registered, nothing twice, and readers are never struck off.

- `Graph.Registered`: bases are registered where they read.
- `Graph.Enrolled`: the registered readers are the views and the bases that read.
- `Graph.Enrolled.insertView`, `Graph.Enrolled.insert`: new views and new bases are registered.
-/

namespace TensorGraph

variable {α : Type}

/-- The operation of a base reads the base with number `id`. -/
def Entry.Reads (e : Entry α) (id : Nat) : Prop := ∃ c ∈ e.leaves, c.base.id = id

/-- The entry `e` is `f` after `reader` has been registered with the bases of `leaves`. -/
structure Entry.Enrolls (leaves : List Buffer) (reader : Nat) (f e : Entry α) : Prop where
  /-- Nothing but readers changes. -/
  core : e.core = f.core
  /-- The reader is added to the others, at most once. -/
  readers : e.readers = f.readers ∨ reader ∉ f.readers ∧ e.readers = f.readers ++ [reader]
    ∧ ∃ b ∈ leaves, b.base.id = f.base.id
  /-- The reader is there if it reads the base. -/
  reader_mem : (∃ b ∈ leaves, b.base.id = f.base.id) → reader ∈ e.readers

namespace Entry.Enrolls

variable {e f e' : Entry α} {leaves leaves' : List Buffer} {reader : Nat}

theorem base (h : f.Enrolls leaves reader e) : e.base = f.base := congrArg (fun e => e.base) h.core

theorem op (h : f.Enrolls leaves reader e) : e.op = f.op := congrArg (fun e => e.op) h.core

theorem mem_of_mem (h : f.Enrolls leaves reader e) : ∀ r ∈ f.readers, r ∈ e.readers := by
  intro r hr
  rcases h.readers with heq | ⟨-, heq, -⟩
  · exact heq ▸ hr
  · exact heq ▸ List.mem_append_left _ hr

/-- A registered reader was registered before, or has been with the base. -/
theorem of_mem (h : f.Enrolls leaves reader e) {r : Nat} (hr : r ∈ e.readers) :
    r ∈ f.readers ∨ r = reader ∧ ∃ b ∈ leaves, b.base.id = f.base.id := by
  rcases h.readers with heq | ⟨-, heq, hleaf⟩
  · exact .inl (heq ▸ hr)
  · rcases List.mem_append.mp (heq ▸ hr) with hr | hr
    · exact .inl hr
    · exact .inr ⟨List.mem_singleton.mp hr, hleaf⟩

theorem nodup (h : f.Enrolls leaves reader e) (hf : f.readers.Nodup) : e.readers.Nodup := by
  rcases h.readers with heq | ⟨hnew, heq, -⟩
  · exact heq ▸ hf
  · rw [heq]
    exact hf.append (List.nodup_singleton _) (List.disjoint_singleton.mpr hnew)

theorem trans (h : f.Enrolls leaves reader e) (h' : e.Enrolls leaves' reader e') :
    f.Enrolls (leaves ++ leaves') reader e' where
  core := h'.core.trans h.core
  readers := by
    have hbase := congrArg Base.id h.base
    rcases h.readers with heq | ⟨hnew, heq, b, hb, hid⟩
    · rcases h'.readers with heq' | ⟨hnew, heq', b, hb, hid⟩
      · exact .inl (heq'.trans heq)
      · exact .inr ⟨heq ▸ hnew, heq'.trans (heq ▸ rfl), b, List.mem_append_right _ hb,
          hid.trans hbase⟩
    · rcases h'.readers with heq' | ⟨hnew', -⟩
      · exact .inr ⟨hnew, heq'.trans heq, b, List.mem_append_left _ hb, hid⟩
      · exact absurd (heq ▸ List.mem_append_right _ (List.mem_singleton_self _)) hnew'
  reader_mem := by
    rintro ⟨b, hb, hid⟩
    rcases List.mem_append.mp hb with hb | hb
    · exact h'.mem_of_mem _ (h.reader_mem ⟨b, hb, hid⟩)
    · exact h'.reader_mem ⟨b, hb, hid.trans (congrArg Base.id h.base).symm⟩

end Entry.Enrolls

namespace Graph

variable {g g' : Graph α} {W W' : Census} {id reader : Nat}

/-- Registering a reader with one base. -/
theorem enrolls_register (g : Graph α) (b : Buffer) (reader : Nat) :
    List.Forall₂ (Entry.Enrolls [b] reader) g.entries (g.register b.base.id reader).entries := by
  rw [register, modify, List.forall₂_map_right_iff, List.forall₂_same]
  intro f _
  by_cases hid : f.base.id = b.base.id
  · rw [if_pos hid]
    by_cases hmem : reader ∈ f.readers
    · rw [if_pos hmem]
      exact ⟨rfl, .inl rfl, fun _ => hmem⟩
    · rw [if_neg hmem]
      exact ⟨rfl, .inr ⟨hmem, rfl, b, List.mem_singleton_self b, hid.symm⟩,
        fun _ => List.mem_append_right _ (List.mem_singleton_self reader)⟩
  · rw [if_neg hid]
    refine ⟨rfl, .inl rfl, ?_⟩
    rintro ⟨c, hc, heq⟩
    exact absurd (List.mem_singleton.mp hc ▸ heq).symm hid

/-- Registering a reader with all bases that it reads. -/
theorem enrolls_registerAll (g : Graph α) (leaves : List Buffer) (reader : Nat) :
    List.Forall₂ (Entry.Enrolls leaves reader) g.entries
      (leaves.foldl (fun g leaf => g.register leaf.base.id reader) g).entries := by
  induction leaves generalizing g with
  | nil =>
    refine List.forall₂_same.mpr fun f _ => ⟨rfl, .inl rfl, ?_⟩
    rintro ⟨b, hb, -⟩
    cases hb
  | cons b leaves ih =>
    refine (forall₂_comp (enrolls_register g b reader) (ih _)).imp ?_
    rintro f e ⟨f', hfirst, hrest⟩
    exact hfirst.trans hrest

/-! ## Bases that read -/

/-- Every base is registered as a reader of the older bases that its operation reads. -/
def Registered (g : Graph α) : Prop :=
  g.entries.Pairwise fun e f =>
    ∀ b ∈ e.op.elim [] Tree.buffers, b.base.id = f.base.id → e.base.id ∈ f.readers

/-- Bases that keep their operations and strike off no readers. -/
theorem Registered.of_forall₂ (h : g.Registered)
    (hkeeps : List.Forall₂ (fun e e' => e'.base = e.base ∧ e'.op = e.op
      ∧ ∀ r ∈ e.readers, r ∈ e'.readers) g.entries g'.entries) : g'.Registered := by
  rw [Registered] at h ⊢
  generalize g.entries = entries, g'.entries = entries' at h hkeeps
  induction hkeeps with
  | nil => exact .nil
  | @cons e e' entries entries' he hrest ih =>
    obtain ⟨hbase, hop, -⟩ := he
    obtain ⟨hfirst, h⟩ := List.pairwise_cons.mp h
    refine List.pairwise_cons.mpr ⟨fun f' hf' => ?_, ih h⟩
    obtain ⟨f, hf, hfbase, -, hreaders⟩ := exists_of_forall₂_right hrest hf'
    rw [hbase, hop, hfbase]
    exact fun b hb hid => hreaders _ (hfirst f hf b hb hid)

/-! ## Views and bases -/

/-- The base `id` knows its reader. -/
def Knows (g : Graph α) (id reader : Nat) : Prop :=
  ∀ f ∈ g.entries, f.base.id = id → reader ∈ f.readers

/-- The number `reader` is that of a view of the base `id`, or that of a base that reads it. -/
def MayRead (W : Census) (g : Graph α) (id reader : Nat) : Prop :=
  (∃ b, W reader = some b ∧ b.base.id = id ∧ reader ≠ id)
    ∨ ∃ e ∈ g.cores, e.base.id = reader ∧ e.Reads id

theorem MayRead.mono (h : g.MayRead W id reader) (hgrows : W.Grows W')
    (hkept : ∀ e ∈ g.cores, ∃ e' ∈ g'.cores, e'.base = e.base ∧ e'.op = e.op) :
    g'.MayRead W' id reader := by
  rcases h with ⟨b, hb, hid, hne⟩ | ⟨e, he, hid, c, hc, hbase⟩
  · exact .inl ⟨b, hgrows _ _ hb, hid, hne⟩
  · obtain ⟨e', he', hbase', hop⟩ := hkept e he
    exact .inr ⟨e', he', hbase' ▸ hid, c, by rwa [Entry.leaves, hop], hbase⟩

/-- The registered readers are the views, and the bases that read. -/
structure Enrolled (W : Census) (g : Graph α) : Prop where
  /-- A base is registered where its operation reads. -/
  bases : g.Registered
  /-- A view is registered with its base. -/
  views : ∀ b, W.Lists b → b.id ≠ b.base.id → g.Knows b.base.id b.id
  /-- Nothing else is registered. -/
  only : ∀ f ∈ g.entries, ∀ r ∈ f.readers, g.MayRead W f.base.id r
  /-- Nothing is registered twice. -/
  nodup : ∀ f ∈ g.entries, f.readers.Nodup

theorem enrolled_empty (W : Census) (hW : ∀ i, W i = none) : ({} : Graph α).Enrolled W where
  bases := .nil
  views b hb := absurd (hb.symm.trans (hW b.id)) (Option.some_ne_none b)
  only _ hf := absurd hf List.not_mem_nil
  nodup _ hf := absurd hf List.not_mem_nil

namespace Enrolled

variable (h : g.Enrolled W)
include h

/-- A new view is registered with its base. -/
theorem insertView {b : Buffer} (tracker : Tracker) (hgrows : W.Grows (W.add ⟨g.next, tracker, b.base⟩))
    (hlt : b.base.id < g.next) :
    (g.insertView b tracker).2.Enrolled (W.add ⟨g.next, tracker, b.base⟩) := by
  have henrolls := enrolls_register g b g.next
  have hcores := cores_insertView g b tracker
  constructor
  case bases =>
    exact h.bases.of_forall₂ (henrolls.imp fun _ _ he => ⟨he.base, he.op, he.mem_of_mem⟩)
  case views =>
    intro c hc hview e he hid
    obtain ⟨f, hf, he⟩ := exists_of_forall₂_right henrolls he
    rw [he.base] at hid
    rw [Census.Lists, Census.add] at hc
    split at hc
    · next hnew =>
      obtain rfl := Option.some.inj hc
      exact he.reader_mem ⟨b, List.mem_singleton_self b, hid.symm⟩
    · exact he.mem_of_mem _ (h.views c hc hview f hf hid)
  case only =>
    intro e he r hr
    obtain ⟨f, hf, he⟩ := exists_of_forall₂_right henrolls he
    have hold (hr : r ∈ f.readers) :
        (g.insertView b tracker).2.MayRead (W.add ⟨g.next, tracker, b.base⟩) f.base.id r :=
      (h.only f hf r hr).mono hgrows fun c hc => ⟨c, hcores ▸ hc, rfl, rfl⟩
    rw [he.base]
    rcases he.of_mem hr with hr | ⟨rfl, c, hc, hid⟩
    · exact hold hr
    · obtain rfl := List.mem_singleton.mp hc
      exact .inl ⟨_, Census.lists_add W ⟨g.next, tracker, c.base⟩, hid, hid ▸ Nat.ne_of_gt hlt⟩
  case nodup =>
    intro e he
    obtain ⟨f, hf, he⟩ := exists_of_forall₂_right henrolls he
    exact he.nodup (h.nodup f hf)

/-- A new base is registered with every base that it reads. -/
theorem insert (op : Option (Tree α)) (result : Option (Block α)) (shape : Shape) (dtype : DType)
    (device : String) (config : Config)
    (hgrows : W.Grows (W.add (g.nextBase shape dtype device config).buffer))
    (hlt : ∀ b, W.Lists b → b.base.id < g.next) :
    (g.insert op result shape dtype device config).2.Enrolled
      (W.add (g.nextBase shape dtype device config).buffer) := by
  have henrolls := enrolls_registerAll g ((op.map (Tree.issuedFor g.next)).elim [] Tree.buffers) g.next
  have hcores := cores_insert g op result shape dtype device config
  constructor
  case bases =>
    refine List.pairwise_cons.mpr ⟨fun e he b hb hid => ?_, h.bases.of_forall₂
      (henrolls.imp fun _ _ he => ⟨he.base, he.op, he.mem_of_mem⟩)⟩
    obtain ⟨f, -, he⟩ := exists_of_forall₂_right henrolls he
    exact he.reader_mem ⟨b, hb, hid.trans (congrArg Base.id he.base)⟩
  case views =>
    intro c hc hview e he hid
    rw [Census.Lists, Census.add] at hc
    split at hc
    · obtain rfl := Option.some.inj hc
      exact absurd rfl hview
    · rcases List.mem_cons.mp he with rfl | he
      · exact absurd hid (Nat.ne_of_gt (hlt c hc))
      · obtain ⟨f, hf, he⟩ := exists_of_forall₂_right henrolls he
        exact he.mem_of_mem _ (h.views c hc hview f hf (congrArg Base.id he.base ▸ hid))
  case only =>
    intro e he r hr
    rcases List.mem_cons.mp he with rfl | he
    · cases hr
    obtain ⟨f, hf, he⟩ := exists_of_forall₂_right henrolls he
    have hold (hr : r ∈ f.readers) : (g.insert op result shape dtype device config).2.MayRead
        (W.add (g.nextBase shape dtype device config).buffer) f.base.id r :=
      (h.only f hf r hr).mono hgrows fun c hc =>
        ⟨c, hcores ▸ List.mem_cons_of_mem _ hc, rfl, rfl⟩
    rw [he.base]
    rcases he.of_mem hr with hr | ⟨rfl, c, hc, hid⟩
    · exact hold hr
    · -- the new reader reads the base through a leaf of its operation
      refine .inr ⟨_, hcores ▸ List.mem_cons_self, rfl, c, ?_, hid⟩
      cases op with
      | none => cases hc
      | some op => exact Tree.mem_leaves_of_mem_buffers hc
  case nodup =>
    intro e he
    rcases List.mem_cons.mp he with rfl | he
    · exact .nil
    · obtain ⟨f, hf, he⟩ := exists_of_forall₂_right henrolls he
      exact he.nodup (h.nodup f hf)

/-- A change that leaves bases, operations and readers alone. -/
theorem modify (id : Nat) {f : Entry α → Entry α} (hbase : ∀ e, (f e).base = e.base)
    (hop : ∀ e, (f e).op = e.op) (hreaders : ∀ e, (f e).readers = e.readers) :
    (g.modify id f).Enrolled W := by
  have hchange (e : Entry α) : (if e.base.id = id then f e else e).base = e.base
      ∧ (if e.base.id = id then f e else e).op = e.op
      ∧ (if e.base.id = id then f e else e).readers = e.readers := by
    split
    · exact ⟨hbase e, hop e, hreaders e⟩
    · exact ⟨rfl, rfl, rfl⟩
  constructor
  case bases =>
    refine h.bases.of_forall₂ ?_
    rw [Graph.modify, List.forall₂_map_right_iff, List.forall₂_same]
    exact fun e _ => ⟨(hchange e).1, (hchange e).2.1, fun r hr => (hchange e).2.2 ▸ hr⟩
  case views =>
    intro b hb hview e' he' hid
    obtain ⟨e, he, rfl⟩ := List.mem_map.mp he'
    rw [(hchange e).2.2]
    exact h.views b hb hview e he ((hchange e).1 ▸ hid)
  case only =>
    intro e' he' r hr
    obtain ⟨e, he, rfl⟩ := List.mem_map.mp he'
    rw [(hchange e).2.2] at hr
    rw [(hchange e).1]
    refine (h.only e he r hr).mono (Census.Grows.refl W) fun c hc => ?_
    obtain ⟨e, he, rfl⟩ := mem_cores.mp hc
    exact ⟨_, mem_cores.mpr ⟨_, List.mem_map_of_mem he, rfl⟩, (hchange e).1, (hchange e).2.1⟩
  case nodup =>
    intro e' he'
    obtain ⟨e, he, rfl⟩ := List.mem_map.mp he'
    rw [(hchange e).2.2]
    exact h.nodup e he

end Enrolled

end Graph

end TensorGraph
