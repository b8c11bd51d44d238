import Mathlib.Data.List.Nodup
import Mathlib.Data.List.Perm.Basic
import TensorGraph.Proofs.Graph.Live
import TensorGraph.Proofs.Graph.Operations
import TensorGraph.Proofs.Schedule.Exact
import TensorGraph.Proofs.Schedule.Static
/-!
# Nothing is computed twice

A producer joins the kernel of its only reader. So, if no two operations that wait share a producer
that was written out in both, and none reads a waiting base at two places, every operation that a
schedule computes stands in one kernel, once.

- `Graph.Linear`: graphs whose operations share nothing.
- `Tree.Collects`: the operations of which a kernel is made.
- `Session.Reachable.issues_once`: the kernels of a schedule.
-/

namespace TensorGraph

open TensorGraph.Graph

variable {α : Type} {W W' : Census} {g g' : Graph α} {b c : Buffer} {e f : Entry α}
  {held : List Buffer} {fusion : Fusion} {t u op : Tree α}

/-! ## Issued operations -/

/-- The number of the base that the root was issued for. -/
def Tree.issuer? : Tree α → Option Nat
  | buffer _ => none
  | node _ _ issuer _ => issuer

/-- The numbers of the bases that the nodes of a tree were issued for. -/
def Tree.issuers (t : Tree α) : List Nat := t.nodes.filterMap issuer?

/-- The numbers of the bases whose operations are issued to compute the base of an entry. -/
def Entry.issued (e : Entry α) : List Nat :=
  e.op.elim [] fun op => (e.base.buffer.lowered op).issuers

namespace Tree

@[simp] theorem issuers_buffer (b : Buffer) : (buffer b : Tree α).issuers = [] := rfl

@[simp] theorem issuers_node (code : Opcode) (arg : Arg α) (issuer : Option Nat)
    (sources : List (Tree α)) :
    (node code arg issuer sources).issuers = issuer.toList ++ sources.flatMap issuers := by
  rw [issuers, nodes, nodesAll_eq, List.filterMap_cons, List.filterMap_flatMap]
  cases issuer <;> rfl

/-- What takes the place of leaves adds its own operations. -/
theorem issuers_substitute (m : Nat → Option (Tree α)) (t : Tree α) :
    (t.substitute m).issuers.Perm
      (t.issuers ++ t.leaves.flatMap fun c => ((m c.id).getD (.buffer c)).issuers) := by
  induction t with
  | buffer b => simp
  | node code arg issuer sources ih =>
    rw [substitute_node, issuers_node, issuers_node, leaves_node, List.append_assoc,
      List.flatMap_map, List.flatMap_assoc]
    refine List.Perm.append_left _ ?_
    exact (List.Perm.flatMap_left _ ih).trans (List.flatMap_append_perm ..).symm

/-- Where buffers take the place of all leaves, the operations stay. -/
theorem issuers_substitute_of_nil {m : Nat → Option (Tree α)} {t : Tree α}
    (h : ∀ c ∈ t.leaves, ((m c.id).getD (.buffer c)).issuers = []) :
    (t.substitute m).issuers.Perm t.issuers := by
  refine (issuers_substitute m t).trans ?_
  rw [List.flatMap_eq_nil_iff.mpr h, List.append_nil]

end Tree

/-! ## Counting -/

section Count

variable {β γ : Type} {l : List β} {p : β → Bool} {x y : β}

theorem count_append_cons (hcount : l.countP p ≤ 1) {before after : List β}
    (hl : l = before ++ x :: after) (hx : p x = true) : ∀ y ∈ before ++ after, p y = false := by
  subst hl
  rw [List.countP_append, List.countP_cons_of_pos hx] at hcount
  have hnone : (before ++ after).countP p = 0 := by
    rw [List.countP_append]
    omega
  exact fun y hy => by simpa using List.countP_eq_zero.mp hnone y hy

/-- What is at one place at most is found there. -/
theorem eq_of_countP (hcount : l.countP p ≤ 1) (hx : x ∈ l) (hy : y ∈ l) (hpx : p x = true)
    (hpy : p y = true) : x = y := by
  obtain ⟨before, after, hl⟩ := List.append_of_mem hx
  by_contra hne
  have hy : y ∈ before ++ after := by
    rw [hl] at hy
    rcases List.mem_append.mp hy with hy | hy
    · exact List.mem_append_left _ hy
    · exact List.mem_append_right _ ((List.mem_cons.mp hy).resolve_left fun h => hne h.symm)
  rw [count_append_cons hcount hl hpx y hy] at hpy
  cases hpy

/-- If only one place adds something, that is all there is. -/
theorem flatMap_eq_of_countP (hcount : l.countP p ≤ 1) (hx : x ∈ l) (hpx : p x = true)
    {F : β → List γ} (hF : ∀ y ∈ l, p y = false → F y = []) : l.flatMap F = F x := by
  obtain ⟨before, after, rfl⟩ := List.append_of_mem hx
  have hnil : ∀ y ∈ before ++ after, F y = [] := fun y hy =>
    hF y (by simp only [List.mem_append, List.mem_cons] at hy ⊢; tauto)
      (count_append_cons hcount rfl hpx y hy)
  rw [List.flatMap_append, List.flatMap_cons,
    List.flatMap_eq_nil_iff.mpr fun y hy => hnil y (List.mem_append_left _ hy),
    List.flatMap_eq_nil_iff.mpr fun y hy => hnil y (List.mem_append_right _ hy), List.nil_append,
    List.append_nil]

end Count

/-! ## What a kernel is made of -/

/-- The tree of a kernel is made of the operations of the bases `top :: rest`, which are needed for
`b`; but for the first one, each is read by one of them and by no other needed base. -/
structure Tree.Collects (g : Graph α) (b : Buffer) (top : Entry α) (rest : List (Entry α))
    (t : Tree α) : Prop where
  /-- The operations in the tree. -/
  issuers : t.issuers.Perm ((top :: rest).flatMap Entry.issued)
  /-- All of the bases are needed. -/
  needs : ∀ e ∈ top :: rest, g.Needs b e
  /-- Older bases come later. -/
  sorted : (top :: rest).Pairwise fun e f => f.base.id < e.base.id
  /-- A base that joins has one reader. -/
  sole : ∀ f ∈ rest, ∃ e ∈ top :: rest, e.Reads f.base.id
    ∧ ∀ e', g.Needs b e' → e'.Reads f.base.id → e' = e
  /-- What is read from elsewhere is none of the bases. -/
  reads : ∀ c ∈ t.leaves, ∃ e ∈ top :: rest, e.Reads c.base.id
    ∧ ∀ f ∈ top :: rest, f.base.id ≠ c.base.id

/-- The base is computed by an operation that may stand in a kernel with its readers. -/
def Entry.Joinable (e : Entry α) : Prop :=
  e.op.any (fun op => op.codeIs fun code => code.isElementwise || code.isReduce) = true

/-- No two needed bases share an operation that is issued for them, and none reads another that may
join it at two places. -/
structure Graph.Linear (g : Graph α) (b : Buffer) : Prop where
  /-- No base needs an operation twice. -/
  once : ∀ e, g.Needs b e → e.issued.Nodup
  /-- No two bases need the same operation. -/
  apart : ∀ e f, g.Needs b e → g.Needs b f → e ≠ f → e.issued.Disjoint f.issued
  /-- A base that may join is read at one place at most. -/
  reads : ∀ e f, g.Needs b e → g.Needs b f → f.Joinable →
    e.leaves.countP (fun c => c.base.id = f.base.id) ≤ 1

theorem Entry.joinable_of_isElementwise (hop : e.op = some op)
    (hcode : op.codeIs Opcode.isElementwise = true) : e.Joinable := by
  rw [Joinable, hop]
  exact Tree.codeIs_mono hcode fun _ hcode => by rw [hcode, Bool.true_or]

theorem Entry.joinable_of_isReduce (hop : e.op = some op) (hcode : op.codeIs Opcode.isReduce = true) :
    e.Joinable := by
  rw [Joinable, hop]
  exact Tree.codeIs_mono hcode fun _ hcode => by rw [hcode, Bool.or_true]

/-- Such an operation is issued as it is stored. -/
theorem Entry.Joinable.issued_eq (h : e.Joinable) (hop : e.op = some op) : e.issued = op.issuers := by
  rw [Joinable, hop, Option.any_some] at h
  have hload := Tree.codeIs_eq_false h fun _ hcode =>
    (Bool.or_eq_true_iff.mp hcode).elim Opcode.isLoad_of_isElementwise Opcode.isLoad_of_isReduce
  rw [Entry.issued, hop]
  exact congrArg Tree.issuers (e.base.buffer.lowered_eq hload)

namespace Tree

/-- An operation alone. -/
theorem Collects.alone (hg : g.WellFormed W) (he : g.Needs b e)
    (hissuers : t.issuers.Perm e.issued) (hleaves : ∀ c ∈ t.leaves, e.Reads c.base.id) :
    t.Collects g b e [] where
  issuers := by simpa using hissuers
  needs := by simpa using he
  sorted := List.pairwise_singleton ..
  sole := by simp
  reads c hc := by
    refine ⟨e, List.mem_cons_self, hleaves c hc, fun f hf hid => ?_⟩
    have hlt := hg.reads_lt he.mem (hleaves c hc)
    rw [List.mem_singleton.mp hf] at hid
    exact absurd hid (Nat.ne_of_gt hlt)

/-- An operation takes in the kernel of a base that it alone reads. -/
theorem Collects.join (hg : g.WellFormed W) (he : g.Needs b e) {rest : List (Entry α)}
    (hu : u.Collects g b f rest) (hread : e.Reads f.base.id)
    (hsole : ∀ e', g.Needs b e' → e'.Reads f.base.id → e' = e)
    (hissuers : t.issuers.Perm (e.issued ++ u.issuers))
    (hleaves : ∀ d ∈ t.leaves, d ∈ u.leaves ∨ e.Reads d.base.id ∧ d.base.id ≠ f.base.id) :
    t.Collects g b e (f :: rest) := by
  have hlt : ∀ f' ∈ f :: rest, f'.base.id < e.base.id := by
    have hfirst := hg.reads_lt he.mem hread
    refine List.forall_mem_cons.mpr ⟨hfirst, fun f' hf' => ?_⟩
    exact ((List.pairwise_cons.mp hu.sorted).1 f' hf').trans hfirst
  constructor
  case issuers =>
    rw [List.flatMap_cons]
    exact hissuers.trans (hu.issuers.append_left _)
  case needs => exact List.forall_mem_cons.mpr ⟨he, hu.needs⟩
  case sorted => exact List.pairwise_cons.mpr ⟨hlt, hu.sorted⟩
  case sole =>
    refine List.forall_mem_cons.mpr ⟨⟨e, List.mem_cons_self, hread, hsole⟩, fun f' hf' => ?_⟩
    obtain ⟨e', he', hsole'⟩ := hu.sole f' hf'
    exact ⟨e', List.mem_cons_of_mem _ he', hsole'⟩
  case reads =>
    intro d hd
    rcases hleaves d hd with hd | ⟨hreads, hne⟩
    · obtain ⟨e', he', hreads, hne⟩ := hu.reads d hd
      refine ⟨e', List.mem_cons_of_mem _ he', hreads, List.forall_mem_cons.mpr ⟨?_, hne⟩⟩
      have hlt' := hg.reads_lt (hu.needs e' he').mem hreads
      exact Nat.ne_of_gt (hlt'.trans (hlt e' he'))
    · refine ⟨e, List.mem_cons_self, hreads, List.forall_mem_cons.mpr ⟨?_, ?_⟩⟩
      · exact Nat.ne_of_gt (hg.reads_lt he.mem hreads)
      · refine List.forall_mem_cons.mpr ⟨hne.symm, fun f' hf' hid => ?_⟩
        -- what the kernel has taken in before is read inside it only
        obtain ⟨e', he', -, hsole'⟩ := hu.sole f' hf'
        have heq := hsole' e he (hid ▸ hreads)
        exact Nat.lt_irrefl _ (heq ▸ hlt e' he')

/-- What a needed base reads and has no result is needed. -/
theorem exists_needs (hg : g.WellFormed W) (he : g.Needs b e) (hc : W.Lists c)
    (hreads : e.Reads c.base.id) (hwaits : g.isRealized c = false) (hop : g.op? c = some op) :
    ∃ f, g.Needs b f ∧ f.base = c.base ∧ f.op = some op := by
  obtain ⟨f, hf, hbase⟩ := hg.census_base _ _ hc
  have hnone : f.result = none := by
    rw [isRealized, hg.result?_eq hf hbase] at hwaits
    simpa using hwaits
  exact ⟨f, .read he hf (hbase ▸ hreads) hnone, hbase, (hg.op?_eq hf hbase).symm.trans hop⟩

/-- A reduction collects its producer, if that joins. -/
theorem exists_collects_joinProducer (hg : g.WellFormed W) (hb : b ∈ held) (he : g.Needs b e)
    (hop : e.op = some op) (hcode : op.codeIs Opcode.isReduce = true) :
    ∃ rest, (op.joinProducer g held fusion).Collects g b e rest := by
  have hleaves := Entry.leaves_eq hop
  have hissued := (Entry.joinable_of_isReduce hop hcode).issued_eq hop
  have halone : op.Collects g b e [] :=
    .alone hg he (hissued ▸ .refl _) fun c hc => ⟨c, hleaves ▸ hc, rfl⟩
  obtain ⟨rop, issuer, c, rfl, -, -⟩ := (hg.computes e he.mem op hop).form.of_isReduce hcode
  rw [joinProducer]
  split
  · exact ⟨[], halone⟩
  cases hproducer : g.producer? held c with
  | none => exact ⟨[], halone⟩
  | some producer =>
    obtain ⟨hwaits, -, hpop, hpcode, hcount⟩ := producer?_eq_some hproducer
    have hc : c ∈ e.leaves := hleaves ▸ by simp
    have hlist := (hg.older_leaf he.mem hc).1
    obtain ⟨f, hf, hbase, hfop⟩ := exists_needs hg he hlist ⟨c, hc, rfl⟩ hwaits hpop
    have hfissued := (Entry.joinable_of_isElementwise hfop hpcode).issued_eq hfop
    have hcollects : producer.Collects g b f [] :=
      .alone hg hf (hfissued ▸ .refl _) fun d hd => ⟨d, Entry.leaves_eq hfop ▸ hd, rfl⟩
    refine ⟨[f], hcollects.join hg he ⟨c, hc, by rw [hbase]⟩ (fun e' he' hreads => ?_) ?_
      fun d hd => .inl (by simpa using hd)⟩
    · exact hg.eq_of_reads hb hlist hcount he' he (hbase ▸ hreads) ⟨c, hc, rfl⟩
    · simp [hissued]

/-- An operation whose leaves are read in another shape is alone. -/
theorem Collects.moved (hg : g.WellFormed W) (he : g.Needs b e) (hissued : e.issued = op.issuers)
    (hleaves : e.leaves = op.leaves) {m : Nat → Option (Tree α)}
    (hm : ∀ c ∈ op.leaves, ∃ d, m c.id = some (.buffer d) ∧ d.base = c.base) :
    (op.substitute m).Collects g b e [] := by
  refine .alone hg he ?_ fun d hd => ?_
  · rw [hissued]
    refine issuers_substitute_of_nil fun c hc => ?_
    obtain ⟨d, hmap, -⟩ := hm c hc
    rw [hmap]
    rfl
  · obtain ⟨c, hc, hd⟩ := mem_leaves_substitute.mp hd
    obtain ⟨d', hmap, hbase⟩ := hm c hc
    rw [hmap, Option.getD_some, leaves_buffer, List.mem_singleton] at hd
    rw [hd, hbase]
    exact ⟨c, hleaves ▸ hc, rfl⟩

/-- An operation takes in a tree at the only place where it reads the base of the tree; its other
leaves are read in another shape. -/
theorem Collects.substituted (hg : g.WellFormed W) (he : g.Needs b e)
    (hissued : e.issued = op.issuers) (hleaves : e.leaves = op.leaves) {rest : List (Entry α)}
    (hu : u.Collects g b f rest) (hsole : ∀ e', g.Needs b e' → e'.Reads f.base.id → e' = e)
    (hplace : op.leaves.countP (fun c => c.base.id = f.base.id) ≤ 1) {a : Buffer}
    (ha : a ∈ op.leaves) (hbase : a.base.id = f.base.id) {m : Nat → Option (Tree α)}
    (hleaf : m a.id = some u)
    (hother : ∀ c ∈ op.leaves, c.base.id ≠ f.base.id →
      ∃ d, m c.id = some (.buffer d) ∧ d.base = c.base) :
    (op.substitute m).Collects g b e (f :: rest) := by
  have hpa : decide (a.base.id = f.base.id) = true := decide_eq_true hbase
  refine hu.join hg he ⟨a, hleaves ▸ ha, hbase⟩ hsole ?_ fun d hd => ?_
  · rw [hissued]
    refine (issuers_substitute m op).trans (List.Perm.append_left _ ?_)
    rw [flatMap_eq_of_countP hplace ha hpa fun c hc hne => by
      obtain ⟨d, hmap, -⟩ := hother c hc (by simpa using hne)
      rw [hmap]
      rfl]
    rw [hleaf]
    exact .refl _
  · obtain ⟨c, hc, hd⟩ := mem_leaves_substitute.mp hd
    by_cases hid : c.base.id = f.base.id
    · left
      obtain rfl : c = a := eq_of_countP hplace hc ha (decide_eq_true hid) hpa
      rwa [hleaf, Option.getD_some] at hd
    · right
      obtain ⟨d', hmap, hdbase⟩ := hother c hc hid
      rw [hmap, Option.getD_some, leaves_buffer, List.mem_singleton] at hd
      rw [hd, hdbase]
      exact ⟨⟨c, hleaves ▸ hc, rfl⟩, hid⟩

/-- An elementwise operation collects the reduction that joins, and what that collects. -/
theorem JoinsReduction.exists_collects (hg : g.WellFormed W) (hb : b ∈ held)
    (hlinear : g.Linear b) (he : g.Needs b e) (hissued : e.issued = op.issuers)
    (hleaves : e.leaves = op.leaves) {output shape : Shape} {leaves : List Buffer}
    (hjoins : op.JoinsReduction W' g output (joined? g held leaves fusion) shape t) :
    ∃ rest, t.Collects g b e rest := by
  obtain ⟨hfits, -, m, rfl, hm⟩ := hjoins
  cases hjoined : joined? g held leaves fusion with
  | none =>
    rw [hjoined] at hm
    refine ⟨[], .moved hg he hissued hleaves fun c hc => ?_⟩
    rcases hm c hc with ⟨a, ⟨⟩, -⟩ | ⟨-, d, hmap, -, hmoved⟩
    exact ⟨d, hmap, hmoved.base⟩
  | some a =>
    rw [hjoined] at hm hfits
    obtain ⟨hleaf, hunrealized, -, -⟩ := hfits a rfl
    obtain ⟨-, -, -, -, hcount, rop, hrop, hrcode, htree⟩ := joined?_eq_some hjoined
    have hread : e.Reads a.leaf.base.id := ⟨_, hleaves ▸ hleaf, rfl⟩
    have hlist : W.Lists a.leaf := (hg.older_leaf he.mem (hleaves ▸ hleaf)).1
    obtain ⟨f, hf, hbase, hfop⟩ := exists_needs hg he hlist hread hunrealized hrop
    obtain ⟨rest, hrest⟩ : ∃ rest, (rop.joinProducer g held fusion).Collects g b f rest :=
      exists_collects_joinProducer hg hb hf hfop hrcode
    rw [← htree] at hrest
    have hplace := hlinear.reads e f he hf (Entry.joinable_of_isReduce hfop hrcode)
    refine ⟨f :: rest, hrest.substituted hg he hissued hleaves (fun e' he' hreads => ?_)
      (hleaves ▸ hplace) hleaf (congrArg Base.id hbase).symm ?_ fun c hc hne => ?_⟩
    · exact hg.eq_of_reads hb hlist hcount he' he (hbase ▸ hreads) hread
    · rcases hm _ hleaf with ⟨a', ha', -, hmap⟩ | ⟨hne, -⟩
      · exact Option.some.inj ha' ▸ hmap
      · exact absurd rfl (hne a rfl)
    · rcases hm c hc with ⟨a', ha', rfl, -⟩ | ⟨-, d, hmap, -, hmoved⟩
      · obtain rfl := Option.some.inj ha'
        exact absurd (congrArg Base.id hbase).symm hne
      · exact ⟨d, hmap, hmoved.base⟩

end Tree

/-! ## Units -/

/-- The unit is made of the operations of the bases `top :: rest`, which are needed for `b`. -/
structure Item.Collects (g : Graph α) (b : Buffer) (top : Entry α) (rest : List (Entry α))
    (item : Item α) : Prop where
  /-- The output is the first base. -/
  output : item.output = top.base.buffer
  /-- The tree before its buffers were replaced is made of these operations. -/
  fused : item.fused.Collects g b top rest
  /-- So is the kernel. -/
  issuers : item.tree.issuers.Perm item.fused.issuers
  /-- The inputs are the leaves. -/
  inputs : ∀ c ∈ item.inputs, c ∈ item.fused.leaves

theorem Graph.issuers_resolveLeaf {slots : List Buffer} (h : g.resolveLeaf slots c = .ok u) :
    u.issuers = [] := by
  rcases resolveLeaf_eq_ok h with ⟨-, value, -, rfl⟩ | ⟨-, rfl⟩
  · rfl
  · rfl

/-- Compiling a tree issues nothing. -/
theorem Graph.issuers_resolve (ht : ∀ c ∈ t.leaves, W.Lists c) {compiled : Compiled α}
    (h : g.resolve t = .ok compiled) : compiled.tree.issuers.Perm t.issuers := by
  obtain ⟨-, m, htree, hm⟩ := resolve_eq_ok ht h
  rw [htree]
  refine Tree.issuers_substitute_of_nil fun c hc => ?_
  obtain ⟨u, hmap, hleaf⟩ := hm c hc
  rw [hmap, Option.getD_some, issuers_resolveLeaf hleaf]

namespace Buffer

/-- The kernel of a needed base collects operations of needed bases. -/
theorem sat_fuse_collects (hg : g.WellFormed W) (hb : b ∈ held) (hlinear : g.Linear b)
    (he : g.Needs b e) {op' : Tree α} (hop : e.op = some op') {code : Opcode}
    (hcode : (e.base.buffer.lowered op').code? = some code) :
    Sat (e.base.buffer.fuse held (e.base.buffer.lowered op') code) g
      (fun t _ => ∃ rest, t.Collects g b e rest) fun _ _ => True := by
  have hissued : e.issued = (e.base.buffer.lowered op').issuers := by rw [Entry.issued, hop]; rfl
  have hleaves : e.leaves = (e.base.buffer.lowered op').leaves := by
    rw [leaves_lowered, Entry.leaves_eq hop]
  have hlists : ∀ c ∈ (e.base.buffer.lowered op').leaves, W.Lists c := fun c hc =>
    (hg.older_leaf he.mem (hleaves ▸ hc)).1
  have hjoin : Sat ((e.base.buffer.lowered op').joinReduction held e.base.buffer.shape
      e.base.buffer.config.fusion) g (fun t _ => ∃ rest, t.Collects g b e rest) fun _ _ => True := by
    refine (Tree.sat_joinReduction hg hlists _).imp ?_ fun _ _ _ => trivial
    rintro t g' ⟨W', shape, -, hjoins⟩
    exact hjoins.exists_collects hg hb hlinear he hissued hleaves
  cases code with
  | unary o => exact hjoin
  | binary o => exact hjoin
  | ternary o => exact hjoin
  | reduce o =>
    rw [fuse, sat_bind, sat_get]
    have hreduce : (e.base.buffer.lowered op').codeIs Opcode.isReduce = true :=
      Tree.codeIs_eq_true.mpr ⟨_, hcode, rfl⟩
    have hsame := eq_of_lowered_isReduce hreduce
    rw [hsame] at hreduce ⊢
    exact Tree.exists_collects_joinProducer hg hb he hop hreduce
  | load o => exact trivial
  | leaf o => exact trivial

/-- The unit of a needed base is made of operations of needed bases. -/
theorem sat_lower_collects (hg : g.WellFormed W) (hb : b ∈ held) (hlinear : g.Linear b)
    (he : g.Needs b e) :
    Sat (e.base.buffer.lower held) g (fun item _ => ∃ rest, item.Collects g b e rest)
      fun _ _ => True := by
  have hop? : g.op? e.base.buffer = e.op := hg.op?_eq he.mem rfl
  rw [lower, sat_bind, sat_get, hop?]
  cases hop : e.op with
  | none => exact trivial
  | some op' =>
    have holder : ∀ c ∈ (e.base.buffer.lowered op').leaves, W.Lists c ∧ c.base.id < e.base.id := by
      rw [leaves_lowered]
      exact hg.older_base (hg.base_listed e he.mem) (hop?.trans hop)
    have hissued : e.issued = (e.base.buffer.lowered op').issuers := by rw [Entry.issued, hop]; rfl
    have hleaves : e.leaves = (e.base.buffer.lowered op').leaves := by
      rw [leaves_lowered, Entry.leaves_eq hop]
    have hfuse (code : Opcode) (hcode : (e.base.buffer.lowered op').code? = some code) :=
      sat_fuse_collects hg hb hlinear he hop hcode
    rw [Option.map_some]
    generalize e.base.buffer.lowered op' = op at holder hissued hleaves hfuse
    cases op with
    | buffer c => exact trivial
    | node code arg issuer sources =>
      dsimp only
      split
      · refine ⟨[], rfl, .alone hg he (hissued ▸ .refl _) fun c hc => ?_, .refl _,
          fun _ h => absurd h List.not_mem_nil⟩
        exact ⟨c, hleaves ▸ hc, rfl⟩
      rw [sat_bind]
      have hlists : ∀ c ∈ (Tree.node code arg issuer sources).leaves, W.Lists c := fun c hc =>
        (holder c hc).1
      refine ((sat_fuse hg hlists rfl held).and (hfuse code rfl)).imp ?_ fun _ _ _ => trivial
      rintro fused g₁ ⟨⟨W₁, hviewed, hfuses⟩, rest, hcollects⟩
      rw [sat_bind, sat_get, sat_bind]
      cases hcompiled : g₁.compile fused with
      | error cause => exact trivial
      | ok compiled =>
        have hfusedLists := fun c hc => (hfuses.leaves hg hviewed.census holder c hc).1
        exact ⟨rest, rfl, hcollects, issuers_resolve hfusedLists (compile_eq_ok.mp hcompiled).1,
          fun c hc => Tree.mem_leaves_of_mem_buffers hc⟩

end Buffer

/-! ## Plans -/

section Same

variable (h : g'.cores = g.cores)
include h

theorem Graph.Linear.of_same (hlinear : g.Linear b) : g'.Linear b where
  once e he := hlinear.once e (he.of_same h.symm)
  apart e f he hf := hlinear.apart e f (he.of_same h.symm) (hf.of_same h.symm)
  reads e f he hf := hlinear.reads e f (he.of_same h.symm) (hf.of_same h.symm)

theorem Tree.Collects.of_same {rest : List (Entry α)} (ht : t.Collects g b e rest) :
    t.Collects g' b e rest where
  issuers := ht.issuers
  needs f hf := (ht.needs f hf).of_same h
  sorted := ht.sorted
  sole f hf := by
    obtain ⟨e', he', hread, hsole⟩ := ht.sole f hf
    exact ⟨e', he', hread, fun e'' he'' => hsole e'' (he''.of_same h.symm)⟩
  reads := ht.reads

theorem Item.Collects.of_same {rest : List (Entry α)} {item : Item α}
    (hitem : item.Collects g b e rest) : item.Collects g' b e rest :=
  ⟨hitem.output, hitem.fused.of_same h, hitem.issuers, hitem.inputs⟩

end Same

namespace Plan

variable {G : Graph α} {plan : Plan α}

/-- All units of the plan are made of operations of bases that are needed for `b`. -/
def Collected (G : Graph α) (b : Buffer) (plan : Plan α) : Prop :=
  ∀ item ∈ plan.lowered, ∃ top rest, item.Collects G b top rest

/-- If the base has no result, it is needed for `b`. -/
def Wanted (G : Graph α) (b base : Buffer) : Prop :=
  ∀ e ∈ G.cores, e.base = base.base → e.result = none → G.Needs b e

/-- What a unit of the plan reads is needed, if it has no result. -/
theorem Wanted.of_collects {item : Item α} {top : Entry α} {rest : List (Entry α)}
    (hcollects : item.Collects G b top rest) {c : Buffer} (hc : c ∈ item.inputs) :
    Wanted G b c.base.buffer := by
  intro f hf hfbase hwaits
  obtain ⟨e, he, hreads, -⟩ := hcollects.fused.reads c (hcollects.inputs c hc)
  have hreads' : e.Reads f.base.id := by
    rw [hfbase]
    exact hreads
  exact .read (hcollects.fused.needs e he) hf hreads' hwaits

/-- Adding the inputs of a unit, given what adding one base does. -/
theorem sat_addAll_collected {steps : Nat}
    (hadd : ∀ {W : Census} {g : Graph α} {plan : Plan α} {base : Buffer}, g.WellFormed W →
      g.cores = G.cores → W.Lists base → base = base.base.buffer → Wanted G b base →
      Collected G b plan → Sat (add held steps base plan) g
        (fun plan' g' => ∃ W', Viewed W g W' g' ∧ Collected G b plan') fun _ _ => True)
    (bs : List Buffer) {plan : Plan α} (hg : g.WellFormed W) (hcores : g.cores = G.cores)
    (hbs : ∀ c ∈ bs, W.Lists c ∧ Wanted G b c.base.buffer) (hplan : Collected G b plan) :
    Sat (bs.foldlM (fun plan input => add held steps input.root plan) plan) g
      (fun plan' g' => ∃ W', Viewed W g W' g' ∧ Collected G b plan') fun _ _ => True := by
  induction bs generalizing W g plan with
  | nil => exact ⟨W, hg.viewed, hplan⟩
  | cons c bs ih =>
    obtain ⟨hc, hwanted⟩ := hbs c List.mem_cons_self
    rw [List.foldlM_cons, sat_bind, hg.root_eq hc]
    refine (hadd hg hcores (hg.lists_base hc) rfl hwanted hplan).imp ?_ fun _ _ _ => trivial
    rintro plan₁ g₁ ⟨W₁, hviewed₁, hplan₁⟩
    refine (ih hviewed₁.wellFormed (hviewed₁.same.cores.trans hcores) (fun d hd => ?_) hplan₁).imp
      ?_ fun _ _ _ => trivial
    · obtain ⟨hd, hwanted⟩ := hbs d (List.mem_cons_of_mem _ hd)
      exact ⟨hviewed₁.census.lists hd, hwanted⟩
    · rintro plan₂ g₂ ⟨W₂, hviewed₂, hplan₂⟩
      exact ⟨W₂, hviewed₁.trans hviewed₂, hplan₂⟩

/-- Adding a base that is needed keeps the units made of operations of needed bases. -/
theorem sat_add_collected (hlinear : G.Linear b) (hb : b ∈ held) (steps : Nat) {base : Buffer}
    (hg : g.WellFormed W) (hcores : g.cores = G.cores) (hlist : W.Lists base)
    (hbase : base = base.base.buffer) (hwanted : Wanted G b base) (hplan : Collected G b plan) :
    Sat (add held steps base plan) g
      (fun plan' g' => ∃ W', Viewed W g W' g' ∧ Collected G b plan') fun _ _ => True := by
  induction steps generalizing W g plan base with
  | zero => exact trivial
  | succ steps ih =>
    rw [add, sat_bind, sat_get]
    split
    · exact ⟨W, hg.viewed, hplan⟩
    next hdone =>
    have hrealized : g.isRealized base = false := by
      rw [Bool.or_eq_true, not_or] at hdone
      simpa using hdone.1
    -- a wanted base without a result is needed
    obtain ⟨e, he, hebase⟩ := hg.census_base _ _ hlist
    have hneeds : g.Needs b e := by
      refine (hwanted e (hcores ▸ he) hebase ?_).of_same hcores
      rw [isRealized, hg.result?_eq he hebase] at hrealized
      simpa using hrealized
    obtain rfl : base = e.base.buffer := by rw [hbase, hebase]
    have hb' : b ∈ held ++ plan.handles := List.mem_append_left _ hb
    rw [sat_bind]
    refine ((Buffer.sat_lower hg hlist _).and
      (Buffer.sat_lower_collects hg hb' (hlinear.of_same hcores) hneeds)).imp ?_ fun _ _ _ => trivial
    rintro item g₁ ⟨⟨W₁, hviewed₁, hlowers⟩, rest, hcollects⟩
    replace hcollects := hcollects.of_same hcores.symm
    obtain ⟨-, hleaves, hinputs, -⟩ := hlowers.reads hg hviewed₁.census hlist
    have hplan₁ : Collected G b { plan with lowered := plan.lowered ++ [item] } := by
      intro x hx
      rcases List.mem_append.mp hx with hx | hx
      · exact hplan x hx
      · exact List.mem_singleton.mp hx ▸ ⟨e, rest, hcollects⟩
    rw [sat_bind]
    refine (sat_addAll_collected ih item.inputs hviewed₁.wellFormed
      (hviewed₁.same.cores.trans hcores) (fun c hc => ?_) hplan₁).imp ?_ fun _ _ _ => trivial
    · exact ⟨(hleaves c (hinputs c hc)).1, .of_collects hcollects hc⟩
    · rintro plan₂ g₂ ⟨W₂, hviewed₂, hplan₂⟩
      exact ⟨W₂, hviewed₁.trans hviewed₂, hplan₂⟩

end Plan

/-! ## Schedules -/

theorem Buffer.sat_schedule_collected (hg : g.WellFormed W) (hb : W.Lists b) (hlinear : g.Linear b)
    (held : List Buffer) :
    Sat (b.schedule held) g
      (fun items _ => ∀ item ∈ items, ∃ top rest, item.Collects g b top rest) fun _ _ => True := by
  rw [schedule, sat_bind, hg.root_eq hb]
  have hnone (P : Item α → Prop) : ∀ item ∈ ([] : List (Item α)), P item := by simp
  refine ((Plan.sat_add hg Plan.sound_empty (hg.lists_base hb) rfl (hnone _)
    (Nat.lt_succ_self _)).and (Plan.sat_add_collected hlinear List.mem_cons_self _ hg rfl
      (hg.lists_base hb) rfl (fun e he hbase hwaits => .root he hbase hwaits) (hnone _))).imp ?_
    fun _ _ _ => trivial
  rintro plan g' ⟨⟨W', news, ⟨-, hsound, -⟩, -⟩, -, -, hcollected⟩
  have hperm : plan.lowered.Perm plan.ready := by simpa using hsound.perm
  exact fun item hitem => hcollected item (hperm.mem_iff.mpr hitem)

/-- A needed base is no newer than the base for which it is needed. -/
theorem Graph.WellFormed.needs_le (hg : g.WellFormed W) (h : g.Needs b e) :
    e.base.id ≤ b.base.id := by
  induction h with
  | root _ hbase => rw [hbase]
  | read h _ hreads _ ih => exact (hg.reads_lt h.mem hreads).le.trans ih

section Exact

variable {items : List (Item α)} (hg : g.WellFormed W) (hexact : ExactSchedule g b items)
  (hitems : ∀ item ∈ items, ∃ top rest, item.Collects g b top rest)
include hg hexact hitems

/-- A base that joins a unit is not computed by a unit of its own. -/
theorem ExactSchedule.ne_output {item other : Item α} (hitem : item ∈ items) (hother : other ∈ items)
    {top : Entry α} {rest : List (Entry α)} (hcollects : item.Collects g b top rest) (hf : f ∈ rest)
    (hunique : ∀ e ∈ top :: rest, f.base.id < e.base.id → ∀ item' ∈ items, ∀ top' rest',
      item'.Collects g b top' rest' → e ∈ top' :: rest' → item' = item) :
    other.output ≠ f.base.buffer := by
  intro houtput
  obtain ⟨e, he, hreads, hsole⟩ := hcollects.fused.sole f hf
  have hneeds := hcollects.fused.needs e he
  have hlt := hg.reads_lt hneeds.mem hreads
  obtain ⟨before, after, heq⟩ := List.append_of_mem hother
  rcases hexact.needed before other after heq with rfl | ⟨later, hlater, c, hc, hid⟩
  · -- the last unit is that of the base, which is newer
    have hwaits : g.isRealized b = false := by
      by_contra hrealized
      rw [hexact.nothing (by simpa using hrealized)] at hother
      cases hother
    obtain ⟨init, last, hsplit, hlast⟩ := hexact.last hwaits
    obtain ⟨-, hsame⟩ := List.append_inj' (heq.symm.trans hsplit) rfl
    obtain rfl : other = last := by simpa using hsame
    rw [houtput] at hlast
    have hle := hg.needs_le hneeds
    have hid : f.base.id = b.base.id := congrArg Base.id hlast
    omega
  · -- the unit that reads the base has its only reader, and so is the one that it joins
    have hmem : later ∈ items := by rw [heq]; simp [hlater]
    obtain ⟨top', rest', hcollects'⟩ := hitems later hmem
    rw [houtput] at hid
    obtain ⟨e', he', hreads', -⟩ := hcollects'.fused.reads c (hcollects'.inputs c hc)
    obtain rfl := hsole e' (hcollects'.fused.needs e' he') (hid ▸ hreads')
    obtain rfl := hunique e' he hlt later hmem top' rest' hcollects' he'
    obtain ⟨-, -, -, hne⟩ := hcollects.fused.reads c (hcollects.inputs c hc)
    exact hne f (List.mem_cons_of_mem _ hf) hid.symm

/-- A base is collected by one unit only. -/
theorem ExactSchedule.collects_unique {item item' : Item α} (hitem : item ∈ items)
    (hitem' : item' ∈ items) {top top' : Entry α} {rest rest' : List (Entry α)}
    (h : item.Collects g b top rest) (h' : item'.Collects g b top' rest') (hf : f ∈ top :: rest)
    (hf' : f ∈ top' :: rest') : item' = item := by
  -- from newer bases to older ones, as what joins is older than its reader
  induction hn : b.base.id - f.base.id using Nat.strong_induction_on
    generalizing f item item' top top' rest rest' with
  | _ n ih =>
    have hnewer {x y : Item α} (hx : x ∈ items) (hy : y ∈ items) {t t' : Entry α}
        {r r' : List (Entry α)} (hcx : x.Collects g b t r) (hcy : y.Collects g b t' r') {e : Entry α}
        (hlt : f.base.id < e.base.id) (he : e ∈ t :: r) (he' : e ∈ t' :: r') : y = x := by
      have hle := hg.needs_le (hcx.fused.needs e he)
      exact ih _ (by omega) hx hy hcx hcy he he' rfl
    rcases List.mem_cons.mp hf with rfl | hrest
    · rcases List.mem_cons.mp hf' with rfl | hrest'
      · refine List.inj_on_of_nodup_map hexact.nodup hitem' hitem ?_
        rw [h.output, h'.output]
      · exact absurd h.output (hexact.ne_output hg hitems hitem' hitem h' hrest'
          fun e he hlt x hx t r hcx he' => hnewer hitem' hx h' hcx hlt he he')
    · rcases List.mem_cons.mp hf' with rfl | hrest'
      · exact absurd h'.output (hexact.ne_output hg hitems hitem hitem' h hrest
          fun e he hlt x hx t r hcx he' => hnewer hitem hx h hcx hlt he he')
      · obtain ⟨e, he, hreads, hsole⟩ := h.fused.sole f hrest
        obtain ⟨e', he', hreads', -⟩ := h'.fused.sole f hrest'
        obtain rfl := hsole e' (h'.fused.needs e' he') hreads'
        have hlt := hg.reads_lt (h.fused.needs e' he).mem hreads
        exact hnewer hitem hitem' h h' hlt he he'

/-- If the operations share nothing, none is issued twice. -/
theorem ExactSchedule.nodup_issuers (hlinear : g.Linear b) :
    (items.flatMap fun item => item.tree.issuers).Nodup := by
  have hperm {item : Item α} {top : Entry α} {rest : List (Entry α)}
      (h : item.Collects g b top rest) :
      item.tree.issuers.Perm ((top :: rest).flatMap Entry.issued) := h.issuers.trans h.fused.issuers
  rw [List.nodup_flatMap]
  constructor
  · intro item hitem
    obtain ⟨top, rest, h⟩ := hitems item hitem
    rw [(hperm h).nodup_iff, List.nodup_flatMap]
    refine ⟨fun e he => hlinear.once e (h.fused.needs e he), ?_⟩
    refine h.fused.sorted.imp_of_mem fun {e f} he hf hlt => ?_
    refine hlinear.apart e f (h.fused.needs e he) (h.fused.needs f hf) ?_
    rintro rfl
    exact Nat.lt_irrefl _ hlt
  · refine (List.Nodup.of_map _ hexact.nodup).pairwise_of_forall_ne fun x hx y hy hne => ?_
    obtain ⟨top, rest, h⟩ := hitems x hx
    obtain ⟨top', rest', h'⟩ := hitems y hy
    intro i hi hi'
    obtain ⟨e, he, hi⟩ := List.mem_flatMap.mp ((hperm h).mem_iff.mp hi)
    obtain ⟨f, hf, hi'⟩ := List.mem_flatMap.mp ((hperm h').mem_iff.mp hi')
    by_cases hef : e = f
    · subst hef
      exact hne (hexact.collects_unique hg hitems hx hy h h' he hf).symm
    · exact hlinear.apart e f (h.fused.needs e he) (h'.fused.needs f hf) hef hi hi'

end Exact

namespace Session

variable [Lane α] {devices : Registry α} {s : Session α} {items : List (Item α)}

/-- In a reachable session, if the operations of the bases that are needed share nothing, a schedule
issues every operation once, whatever handles are held. -/
theorem Reachable.issues_once (hs : s.Reachable devices) (hb : s.Owns b)
    (hlinear : s.engine.graph.Linear b) (held : List Buffer)
    (hitems : ((b.schedule held).run s.engine.graph).1 = .ok items) :
    (items.flatMap fun item => item.tree.issuers).Nodup := by
  obtain ⟨W, hsound⟩ := hs.sound
  have hg := hsound.1.wellFormed
  have hlists := hb.lists hsound
  have h := (Buffer.sat_schedule hg hlists held).and
    (Buffer.sat_schedule_collected hg hlists hlinear held)
  rw [Sat] at h
  rcases hrun : (b.schedule held).run s.engine.graph with ⟨cause | items', g'⟩ <;>
    rw [hrun] at h hitems
  · cases hitems
  · obtain rfl := Except.ok.inj hitems
    obtain ⟨⟨W', hviewed, hscheduled⟩, hcollected⟩ := h
    have hexact := (hscheduled.exact hviewed.wellFormed).of_same hviewed.same.cores
    exact hexact.nodup_issuers hg hcollected hlinear

/-- The session after the sum of two negated ones was negated. -/
def negatedSum : Session Float :=
  let run (s : Session Float) (c : Command Float) : Session Float := (s.step [] c).2
  let s := run {} (.define "x" (.constant 1 (.ofNats [2]) .f32 "cpu" {}))
  let s := run s (.define "y" (.elementwise "x" (.unary .neg) [] (.ok .none)))
  let s := run s (.define "q" (.reduce "y" .sum (.ofNats [1])))
  run s (.define "z" (.elementwise "q" (.unary .neg) [] (.ok .none)))

/-- The base that holds the result. -/
def negatedSumBase : Base := ⟨6, .ofNats [1], .f32, "cpu", {}⟩

theorem linear_negatedSum : negatedSum.engine.graph.Linear negatedSumBase.buffer := by
  have hs : negatedSum.Reachable [] := .step (.step (.step (.step .start _) _) _) _
  obtain ⟨W, hsound⟩ := hs.sound
  have hg := hsound.1.wellFormed
  have honce : ∀ e ∈ negatedSum.engine.graph.cores, e.issued.Nodup := by decide +kernel
  have hapart : ∀ e ∈ negatedSum.engine.graph.cores, ∀ f ∈ negatedSum.engine.graph.cores,
      e.base.id ≠ f.base.id → ∀ i ∈ e.issued, i ∉ f.issued := by decide +kernel
  have hreads : ∀ e ∈ negatedSum.engine.graph.cores, ∀ f ∈ negatedSum.engine.graph.cores,
      e.leaves.countP (fun c => c.base.id = f.base.id) ≤ 1 := by decide +kernel
  refine ⟨fun e he => honce e he.mem, fun e f he hf hne i hi hi' => ?_,
    fun e f he hf _ => hreads e he.mem f hf.mem⟩
  exact hapart e he.mem f hf.mem (fun hid => hne (hg.eq_of_id_eq he.mem hf.mem hid)) i hi hi'

theorem issues_once_negatedSum :
    ∃ items, ((negatedSumBase.buffer.schedule []).run negatedSum.engine.graph).1 = .ok items
      ∧ (items.flatMap fun item => item.tree.issuers).Nodup := by
  have hs : negatedSum.Reachable [] := .step (.step (.step (.step .start _) _) _) _
  have howns : negatedSum.Owns negatedSumBase.buffer :=
    .base (e := ⟨negatedSumBase, _, _, _, _⟩) (List.Mem.head _)
  have hmet : ((negatedSumBase.buffer.schedule []).run negatedSum.engine.graph).1.isOk = true := by
    decide +kernel
  cases hitems : ((negatedSumBase.buffer.schedule []).run negatedSum.engine.graph).1 with
  | error cause =>
    rw [hitems] at hmet
    cases hmet
  | ok items => exact ⟨items, rfl, Reachable.issues_once hs howns linear_negatedSum [] hitems⟩

/-- The session after negated ones were added to themselves. -/
def doubledOnes : Session Float :=
  let run (s : Session Float) (c : Command Float) : Session Float := (s.step [] c).2
  let s := run {} (.define "x" (.constant 1 (.ofNats [2]) .f32 "cpu" {}))
  let s := run s (.define "y" (.elementwise "x" (.unary .neg) [] (.ok .none)))
  run s (.define "z" (.elementwise "y" (.binary .add) ["y"] (.ok .none)))

/-- An operand that is given twice is written out twice. -/
theorem issues_twice_doubledOnes :
    doubledOnes.Reachable []
      ∧ (doubledOnes.buffers.lookup "z").map (fun b =>
          ((b.schedule doubledOnes.held).run doubledOnes.engine.graph).1.toOption.map fun items =>
            items.map fun item => item.tree.issuers)
        = some (some [[1], [5, 4, 4]]) := by
  refine ⟨.step (.step (.step .start _) _) _, ?_⟩
  decide +kernel

end Session

end TensorGraph
