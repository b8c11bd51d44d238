import Mathlib.Logic.Function.Basic
import TensorGraph.Lane.Binary64
import TensorGraph.Proofs.Graph.Reduce
import TensorGraph.Proofs.Kernel.Reads
import TensorGraph.Proofs.Session
/-!
# Reductions cover every element once

However a reduction is built, in one pass or with an axis cut in two, each of its positions gathers
the positions of the buffer that agree with it on the axes that are kept, each of them once. So an
operation that does not care about order gives the same in two passes as in one.

- `Folding`: an operation on lanes, evaluated without rounding.
- `Graph.folded`: the lanes that the reductions of a graph make.
- `Graph.Gathers`: the positions of a buffer that a reduction gathers, through all passes.
- `Session.Reachable.reduce_covers`: what a reduction covers.
-/

namespace TensorGraph

open TensorGraph.Graph

variable {α M : Type}

/-! ## Folding lanes -/

/-- A way to fold lanes, without rounding. -/
structure Folding (M : Type) where
  /-- Folds a lane into what was folded before it. -/
  combine : M → M → M
  /-- The lane that a reduction starts from. -/
  start : M
  /-- The lane that a hidden position shows. -/
  hidden : M

namespace Folding

variable (F : Folding M)

/-- The lanes of a list, folded from first to last. -/
def total (lanes : List M) : M := lanes.foldl F.combine F.start

/-- The operation is commutative and associative, and a reduction starts from its identity. -/
structure Lawful : Prop where
  /-- The operands may be exchanged. -/
  comm : ∀ x y, F.combine x y = F.combine y x
  /-- The operation may be done in groups. -/
  assoc : ∀ x y z, F.combine (F.combine x y) z = F.combine x (F.combine y z)
  /-- The start is the identity. -/
  start : ∀ x, F.combine F.start x = x

variable {F} (hF : F.Lawful)
include hF

theorem Lawful.total_cons (x : M) (lanes : List M) :
    F.total (x :: lanes) = F.combine x (F.total lanes) := by
  suffices ∀ acc, lanes.foldl F.combine acc = F.combine acc (F.total lanes) by
    rw [total, List.foldl_cons, hF.start]
    exact this x
  induction lanes with
  | nil => exact fun acc => ((hF.comm acc F.start).trans (hF.start acc)).symm
  | cons y lanes ih =>
    intro acc
    have htotal : F.total (y :: lanes) = F.combine y (F.total lanes) := by
      rw [total, List.foldl_cons, hF.start]
      exact ih y
    rw [List.foldl_cons, ih, htotal, hF.assoc]

theorem Lawful.total_append (lanes lanes' : List M) :
    F.total (lanes ++ lanes') = F.combine (F.total lanes) (F.total lanes') := by
  induction lanes with
  | nil => exact (hF.start _).symm
  | cons x lanes ih => rw [List.cons_append, hF.total_cons, hF.total_cons, ih, hF.assoc]

/-- Lanes in groups may be folded group by group. -/
theorem Lawful.total_flatMap {β : Type} (l : List β) (f : β → List M) :
    F.total (l.flatMap f) = F.total (l.map fun x => F.total (f x)) := by
  induction l with
  | nil => rfl
  | cons x l ih => rw [List.flatMap_cons, hF.total_append, List.map_cons, hF.total_cons, ih]

/-- The order of the lanes does not matter. -/
theorem Lawful.total_perm {lanes lanes' : List M} (h : lanes.Perm lanes') :
    F.total lanes = F.total lanes' := by
  induction h with
  | nil => rfl
  | cons x _ ih => rw [hF.total_cons, hF.total_cons, ih]
  | swap x y lanes =>
    rw [hF.total_cons, hF.total_cons, hF.total_cons, hF.total_cons, ← hF.assoc, ← hF.assoc,
      hF.comm y x]
  | trans _ _ ih ih' => exact ih.trans ih'

end Folding

/-! ## The lanes that reductions make -/

/-- The lane that a buffer shows at a position, given the lanes of every base by place. -/
def Buffer.shown (F : Folding M) (v : Valuation M) (b : Buffer) (flat : Nat) : M :=
  match b.tracker.locate flat with
  | some place => v b.base.id place
  | none => F.hidden

/-- The lanes of a reduction of `b` to the shape `target`. -/
def Buffer.foldedTo (F : Folding M) (v : Valuation M) (b : Buffer) (target : Shape) (flat : Nat) : M :=
  F.total ((Kernel.reads (b.shape.static?.getD []) (target.static?.getD []) flat).map (b.shown F v))

/-- The operation of a reduction on lanes. -/
def Folding.ofLane [Lane α] (op : ReduceOp) : Folding α := ⟨Lane.fold op, Lane.start op, Lane.zero⟩

/-- The reference folds in the same way, and rounds the result. -/
theorem Dense.lane_reduce [Lane α] (op : ReduceOp) (new : List Nat) (x : Dense α) (i : Nat) :
    (Dense.reduce op new x).lane i
      = Lane.round x.dtype ((Folding.ofLane op).total ((Kernel.reads x.dims new i).map x.lane)) := by
  rw [Folding.total, List.foldl_map]
  rfl

/-- What a base folds by `op`, and the shape that it folds to. -/
def Entry.reduction? (op : ReduceOp) (e : Entry α) : Option (Buffer × Shape) :=
  match e.op with
  | some (.node (.reduce op') (.shape target) _ [.buffer b]) =>
    if op' = op then some (b, target) else none
  | _ => none

/-- The lanes of the bases in `entries`, which come newest first, and of all others: reductions by `op`
fold what they read, and the lanes of other bases are those of `v`. -/
def Entry.foldAll (F : Folding M) (op : ReduceOp) (v : Valuation M) : List (Entry α) → Valuation M
  | [] => v
  | e :: entries =>
    let v' := foldAll F op v entries
    match e.reduction? op with
    | some (b, target) => Function.update v' e.base.id (b.foldedTo F v' target)
    | none => v'

/-- The lanes of all bases of a graph, where `F` stands for the reductions by `op` and `v` gives the
lanes of all bases that are no such reductions. -/
def Graph.folded (g : Graph α) (F : Folding M) (op : ReduceOp) (v : Valuation M) : Valuation M :=
  Entry.foldAll F op v g.entries

variable {W W' : Census} {g g' : Graph α} {F : Folding M} {op : ReduceOp} {v v' : Valuation M}
  {b c d : Buffer} {old new dims dims' : List Nat}

theorem Buffer.shown_congr (h : v b.base.id = v' b.base.id) : b.shown F v = b.shown F v' := by
  funext flat
  rw [shown, shown, h]

theorem Entry.foldAll_cores (F : Folding M) (op : ReduceOp) (v : Valuation M)
    (entries : List (Entry α)) :
    foldAll F op v (entries.map Entry.core) = foldAll F op v entries := by
  induction entries with
  | nil => rfl
  | cons e entries ih =>
    rw [List.map_cons, foldAll, foldAll, ih]
    rfl

/-- A base does not change the lanes of others. -/
theorem Entry.foldAll_cons_of_ne {e : Entry α} {entries : List (Entry α)} {id : Nat}
    (h : id ≠ e.base.id) : foldAll F op v (e :: entries) id = foldAll F op v entries id := by
  rw [foldAll]
  cases e.reduction? op with
  | none => rfl
  | some r => exact Function.update_of_ne h ..

/-- A reduction has the lanes of what it folds. -/
theorem Entry.foldAll_eq {entries : List (Entry α)}
    (hsorted : entries.Pairwise fun e f => f.base.id < e.base.id) {e : Entry α} (he : e ∈ entries)
    {target : Shape} {issuer : Option Nat}
    (hop : e.op = some (.node (.reduce op) (.shape target) issuer [.buffer b]))
    (hlt : b.base.id < e.base.id) :
    foldAll F op v entries e.base.id = b.foldedTo F (foldAll F op v entries) target := by
  induction hsorted with
  | nil => cases he
  | @cons f entries hfirst _ ih =>
    -- neither the base that is read nor an older reduction is touched by the newest base
    have hle : e.base.id ≤ f.base.id := by
      rcases List.mem_cons.mp he with rfl | he
      · exact Nat.le_refl _
      · exact Nat.le_of_lt (hfirst e he)
    have hread : b.foldedTo F (foldAll F op v (f :: entries)) target
        = b.foldedTo F (foldAll F op v entries) target := by
      funext flat
      have hne : b.base.id ≠ f.base.id := Nat.ne_of_lt (Nat.lt_of_lt_of_le hlt hle)
      rw [Buffer.foldedTo, Buffer.foldedTo, Buffer.shown_congr (foldAll_cons_of_ne hne)]
    rw [hread]
    rcases List.mem_cons.mp he with rfl | he
    · have hreduction : e.reduction? op = some (b, target) := by simp [reduction?, hop]
      rw [foldAll, hreduction]
      exact Function.update_self ..
    · rw [foldAll_cons_of_ne (Nat.ne_of_lt (hfirst e he)), ih he]

/-- A reduction in a well-formed graph reads an older base, and keeps or folds each of its extents. -/
theorem Graph.WellFormed.reduction_spec (hg : g.WellFormed W) {target : Shape} {issuer : Option Nat}
    (hop : g.op? d = some (.node (.reduce op) (.shape target) issuer [.buffer b])) :
    b.shape.FoldsTo target ∧ ∃ e ∈ g.cores, e.base.id = d.base.id ∧ b.base.id < e.base.id
      ∧ e.op = some (.node (.reduce op) (.shape target) issuer [.buffer b]) := by
  rw [Graph.op?_eq] at hop
  obtain ⟨e, hfind, hop⟩ := Option.bind_eq_some_iff.mp hop
  have he := List.mem_of_find?_eq_some hfind
  have hid : e.base.id = d.base.id := by simpa using List.find?_some hfind
  obtain ⟨hform, -, holder⟩ := hg.computes e he _ hop
  obtain ⟨hlist, hlt⟩ := holder b (by simp)
  refine ⟨?_, e, he, hid, Nat.lt_of_le_of_lt (hg.base_le hlist) hlt, hop⟩
  cases hform with
  | pointwise _ hcode => cases hcode
  | reduce hfold => exact hfold

/-- In a well-formed graph each reduction has the lanes of what it folds. -/
theorem Graph.WellFormed.folded_eq (hg : g.WellFormed W) {target : Shape} {issuer : Option Nat}
    (hop : g.op? d = some (.node (.reduce op) (.shape target) issuer [.buffer b])) :
    g.folded F op v d.base.id = b.foldedTo F (g.folded F op v) target := by
  obtain ⟨-, e, he, hid, hlt, hop⟩ := hg.reduction_spec hop
  rw [folded, ← Entry.foldAll_cores, ← hid]
  exact Entry.foldAll_eq hg.sorted he hop hlt

/-! ## The positions that a reduction gathers -/

/-- The positions of `b` that each position of a buffer with known extents gathers: a view gathers
what the buffer with the same places gathers, and a reduction by `op` what the positions that it
reads gather. -/
inductive Graph.Gathers (g : Graph α) (op : ReduceOp) (b : Buffer) :
    Buffer → List Nat → (Nat → List Nat) → Prop
  /-- Each position of the buffer itself. -/
  | self {dims : List Nat} (h : b.shape.static? = some dims) :
    Gathers g op b b dims fun flat => [flat]
  /-- A view of the same base that has the same place at each position. -/
  | view {c d : Buffer} {dims dims' : List Nat} {ps : Nat → List Nat} (hc : Gathers g op b c dims ps)
    (hd : d.shape.static? = some dims') (hbase : d.base = c.base) (hprod : dims'.prod = dims.prod)
    (hplace : ∀ flat < dims.prod, d.tracker.locate flat = c.tracker.locate flat) :
    Gathers g op b d dims' ps
  /-- A dense reduction. -/
  | fold {c d : Buffer} {dims dims' : List Nat} {ps : Nat → List Nat} {issuer : Option Nat}
    (hc : Gathers g op b c dims ps) (hd : d.shape.static? = some dims')
    (hop : g.op? d = some (.node (.reduce op) (.shape d.shape) issuer [.buffer c]))
    (hdense : ∀ flat < dims'.prod, d.tracker.locate flat = some flat) :
    Gathers g op b d dims' fun flat => (Kernel.reads dims dims' flat).flatMap ps

variable {ps : Nat → List Nat}

theorem Graph.Gathers.shape (h : g.Gathers op b c dims ps) : c.shape.static? = some dims := by
  cases h <;> assumption

/-- A buffer shows at each position the lanes that the position gathers, folded. -/
theorem Graph.Gathers.shown_eq (hg : g.WellFormed W) (hF : F.Lawful) (h : g.Gathers op b c dims ps)
    {flat : Nat} (hflat : flat < dims.prod) :
    c.shown F (g.folded F op v) flat = F.total ((ps flat).map (b.shown F (g.folded F op v))) := by
  induction h generalizing flat with
  | self => exact (hF.start _).symm
  | view _ _ hbase hprod hplace ih =>
    rw [hprod] at hflat
    rw [Buffer.shown, hplace flat hflat, hbase]
    exact ih hflat
  | @fold c d dims dims' ps issuer hc hd hop hdense ih =>
    have hfold : List.Forall₂ (fun n m => n = m ∨ m = 1) dims dims' := by
      have hfold := (hg.reduction_spec hop).1
      rw [Shape.eq_ofNats hc.shape, Shape.eq_ofNats hd] at hfold
      exact Shape.foldsTo_ofNats.mp hfold
    rw [Buffer.shown, hdense flat hflat]
    calc g.folded F op v d.base.id flat
        = F.total ((Kernel.reads dims dims' flat).map (c.shown F (g.folded F op v))) := by
          rw [hg.folded_eq hop, Buffer.foldedTo, hc.shape, hd]
          rfl
      _ = F.total ((Kernel.reads dims dims' flat).map fun k =>
            F.total ((ps k).map (b.shown F (g.folded F op v)))) := by
          congr 1
          exact List.map_congr_left fun k hk => ih (Kernel.lt_of_mem_reads hfold.length_eq hflat hk)
      _ = _ := by rw [← hF.total_flatMap, List.map_flatMap]

/-! ## What reductions gather -/

/-- The base that was added has the operation that it was added with. -/
theorem Graph.Added.op?_eq (hg : g.WellFormed W) {t : Tree α} {shape : Shape} {dtype : DType}
    {device : String} {config : Config} (h : Added W g t shape dtype device config W' d g') :
    g'.op? d = some (t.issuedFor g.next) := by
  have hentry : ⟨g.nextBase shape dtype device config, some (t.issuedFor g.next), none, [], 0⟩
      ∈ g'.cores := by
    rw [h.graph_eq, cores_insert]
    exact List.mem_cons_self
  rw [h.buffer_eq]
  exact (h.leads hg).wellFormed.op?_eq hentry rfl

/-- A reshaped view gathers what the buffer gathers. -/
theorem Buffer.Moved.gathers (h : g.Gathers op b c dims ps) (hc : c.tracker.Proper) {target : Shape}
    (hmoved : c.Moved (.reshape target) d) (htarget : target.static? = some dims')
    (hpushed : c.tracker.top.reshape? target = none → dims.prod ≤ 2 ^ 63)
    (hveiled : ¬c.tracker.Unveils) : g.Gathers op b d dims' ps := by
  obtain ⟨hprod, hplace⟩ := hc.locate_reshape hmoved.tracker h.shape htarget hpushed hveiled
  have hd : d.shape.static? = some dims' := by
    rw [← htarget]
    exact congrArg Shape.static? (Tracker.shape_reshape hmoved.tracker)
  exact .view h hd hmoved.base hprod hplace

/-- One pass gathers what the positions that it reads gather. -/
theorem Buffer.Folded.gathers {G : Graph α} {W'' : Census} (hg : g.WellFormed W)
    (h : G.Gathers op b c dims ps) {target : Shape} (htarget : target.static? = some dims')
    (hle : target ≠ c.shape → dims'.prod ≤ 2 ^ 63) (hfolded : Folded W g c op target W' d g')
    (hleads : Leads W' g' W'' G) :
    ∃ ps', G.Gathers op b d dims' ps'
      ∧ ∀ flat < dims'.prod, ps' flat = (Kernel.reads dims dims' flat).flatMap ps := by
  cases hfolded with
  | same hsame =>
    obtain rfl : dims = dims' := Option.some.inj (h.shape.symm.trans (hsame ▸ htarget))
    refine ⟨ps, h, fun flat hflat => ?_⟩
    rw [Kernel.reads_self hflat, List.flatMap_singleton]
  | added hne hadded =>
    have hd : d.tracker = .ofShape target := (Folded.added hne hadded).tracker_eq hne
    have hshape : d.shape = target := (Folded.added hne hadded).shape_eq
    have hop : G.op? d = some (.node (.reduce op) (.shape d.shape) (some g.next) [.buffer c]) := by
      rw [hleads.op?_eq (hadded.leads hg).wellFormed hadded.lists, hadded.op?_eq hg, hshape]
      rfl
    refine ⟨_, .fold h (hshape ▸ htarget) hop fun flat hflat => ?_, fun _ _ => rfl⟩
    rw [hd]
    exact Tracker.locate_ofShape htarget (hle hne) hflat

theorem dropUnits_append (dims dims' : List Nat) :
    dropUnits (dims ++ dims') (dims ++ dims') = dropUnits dims dims ++ dropUnits dims' dims' := by
  simp [dropUnits, List.zip_append]

namespace Split

variable {s : Split}

/-- The unit axis that the first pass leaves comes and goes without any other axis. -/
theorem dropUnits_unit (s : Split) (old : List Nat) :
    dropUnits (s.dims old [1]) (s.dims old [1]) = dropUnits (s.dims old []) (s.dims old []) := by
  simp only [dims, dropUnits_append, dropUnits_one, dropUnits_nil, List.append_nil]

/-- An axis that is cut by one is not cut. -/
theorem Cuts.dims_of_one (hs : s.Cuts old new) (hone : s.divisor = 1) : s.dims old [] = old := by
  conv_rhs => rw [hs.old_eq]
  simp [dims, hone]

/-- Where a view is pushed to cut an axis, there are few enough elements for signed words. -/
theorem Cuts.prod_le_of_pushed (hs : s.Cuts old new) {t t' : Tracker} (hold : t.shape.static? = some old)
    (h : t.reshape (s.shape old [s.divisor]) = .ok t')
    (hnone : t.top.reshape? (s.shape old [s.divisor]) = none) : old.prod ≤ 2 ^ 63 := by
  have hcut : (s.shape old [s.divisor]).static? = some (s.dims old [s.divisor]) := Shape.static?_ofNats _
  -- an axis that is cut by one leaves nothing to push a view for
  have hdivisor : s.divisor ≠ 1 := by
    intro hone
    refine Tracker.reshape?_ne_none_of_dropUnits hold hcut ?_ hnone
    rw [hone, s.dropUnits_unit, hs.dims_of_one hone]
  rcases Tracker.reshape_eq_ok.mp h with ⟨hsame, -⟩ | ⟨-, ⟨n, hsource, htarget⟩, hfits, -⟩
  · rw [hsame] at hnone
    exact absurd hnone (Tracker.reshape?_ne_none_of_dropUnits hold hold rfl)
  have hcountable := Tracker.countable_of_reshapeFits hsource htarget hfits.1
  have hlt := Tracker.lt_of_countable hcut hcountable.2
  have hdense : denseFits ((s.dims old [s.divisor]).map .static) = true :=
    Tracker.denseFits_of_formable (hfits.2 hnone)
  rw [← hs.prod_cut]
  rcases Tracker.dropUnits_of_denseFits hdense hlt with hlt | hunits
  · exact hlt.le
  · -- the inner half is the single axis, and it is short
    have hmem : s.divisor ∈ dropUnits (s.dims old [s.divisor]) (s.dims old [s.divisor]) := by
      simp only [dims, dropUnits_append, dropUnits_of_ne hdivisor, List.mem_append, List.mem_cons,
        true_or, or_true]
    rw [hunits, List.mem_singleton] at hmem
    rw [← hmem, hs.divisor]
    exact (Nat.gcd_le_left _ (by decide)).trans (by decide)

/-- A shape with an axis cut is another shape. -/
theorem Cuts.cut_ne (hs : s.Cuts old new) {shape : Shape} (hold : shape.static? = some old) :
    s.shape old [s.divisor] ≠ shape := by
  intro hsame
  have hdims : s.dims old [s.divisor] = old := by
    rw [← hsame, Split.shape, Shape.static?_ofNats] at hold
    exact Option.some.inj hold
  have hlength := congrArg List.length hdims
  have hlt := hs.axis_lt
  simp only [dims, List.length_append, List.length_take, List.length_drop, List.length_singleton]
    at hlength
  omega

/-- The first pass halves the elements, if it folds anything. -/
theorem Cuts.two_mul_prod_inner_le (hs : s.Cuts old new)
    (hne : s.dims old [1] ≠ s.dims old [s.divisor]) : 2 * (s.dims old [1]).prod ≤ old.prod := by
  have hone : s.divisor ≠ 1 := fun hone => hne (by rw [hone])
  have hpos : 0 < s.divisor := hs.divisor ▸ Nat.gcd_pos_of_pos_left _ (by decide)
  have hcut : old.prod = (s.dims old [1]).prod * s.divisor := by
    rw [← hs.prod_cut, s.prod_dims, s.prod_dims, List.prod_singleton, List.prod_singleton]
    ac_rfl
  rw [hcut, Nat.mul_comm]
  exact Nat.mul_le_mul_left _ (by omega)

end Split

/-- A reduction of several elements halves them at least, if it folds anything. -/
theorem two_mul_prod_le_of_fold (hfold : List.Forall₂ (fun n m => n = m ∨ m = 1) old new)
    (hne : new ≠ old) (hpos : 0 < old.prod) : 2 * new.prod ≤ old.prod := by
  induction hfold with
  | nil => exact absurd rfl hne
  | @cons n m old new hnm hfold ih =>
    rw [List.prod_cons] at hpos
    have hn : 0 < n := Nat.pos_of_mul_pos_right hpos
    have hrest : 0 < old.prod := Nat.pos_of_mul_pos_left hpos
    rw [List.prod_cons, List.prod_cons]
    by_cases hsame : n = m
    · have hle := ih (fun h => hne (by rw [h, hsame])) hrest
      rw [← hsame, Nat.mul_left_comm]
      exact Nat.mul_le_mul_left n hle
    · obtain rfl := hnm.resolve_left hsame
      have hle : new.prod ≤ old.prod := by
        by_cases h : new = old
        · exact h ▸ Nat.le_refl _
        · have := ih h hrest
          omega
      rw [Nat.one_mul]
      exact Nat.mul_le_mul (by omega) hle

/-- Two passes gather the positions that agree on the axes that are kept. -/
theorem Buffer.FoldedTwice.gathers (hg : g.WellFormed W) (hb : W.Lists b) {target : Shape} {s : Split}
    (hold : b.shape.static? = some old) (hnew : target.static? = some new)
    (hfold : List.Forall₂ (fun n m => n = m ∨ m = 1) old new) (hs : s.Cuts old new)
    (hle : new.prod ≤ 2 ^ 63) (h : FoldedTwice W g b op target old s W' c g') :
    ∃ ps, g'.Gathers op b c new ps ∧ ∀ flat < new.prod, Kernel.Covers old new flat (ps flat) := by
  obtain ⟨W₁, cut, g₁, W₂, inner, g₂, W₃, outer, g₃, ⟨hviewed₁, hcut, hmoved₁⟩, hinner,
    ⟨hviewed₃, houter, hmoved₃⟩, hlast⟩ := h.passes
  have hwell₂ := (hinner.built hviewed₁.wellFormed).wellFormed
  have hleads := (hlast.built hviewed₃.wellFormed).toLeads
  -- an axis that is folded has more than one coordinate, or none
  have hseveral : old.prod ≠ 1 := hs.prod_ne_one hfold
  have hgathers₁ : g'.Gathers op b cut (s.dims old [s.divisor]) fun k => [k] :=
    hmoved₁.gathers (.self hold) (hg.proper hb) (Shape.static?_ofNats _)
      (hs.prod_le_of_pushed hold hmoved₁.tracker) (Tracker.not_unveils_of_prod hold hseveral)
  have hinnerLe (hne : s.shape old [1] ≠ cut.shape) : (s.dims old [1]).prod ≤ 2 ^ 63 := by
    have hcutShape : cut.shape = s.shape old [s.divisor] := Tracker.shape_reshape hmoved₁.tracker
    have hlt : old.prod < 2 ^ 64 := Tracker.prod_lt_of_reshape hmoved₁.tracker (hs.cut_ne hold) hold
    have hhalf := hs.two_mul_prod_inner_le fun h => hne (by rw [hcutShape, Split.shape, Split.shape, h])
    omega
  obtain ⟨ps, hgathers₂, hps⟩ := hinner.gathers hviewed₁.wellFormed hgathers₁
    (Shape.static?_ofNats _) hinnerLe (hviewed₃.leads.trans hleads)
  have hveiled : ¬inner.tracker.Unveils := by
    by_cases hone : (s.dims old [1]).prod = 1
    · have hne : s.shape old [1] ≠ cut.shape := by
        intro hsame
        have hshape := hgathers₁.shape
        rw [← hsame, Split.shape, Shape.static?_ofNats, Option.some.injEq] at hshape
        exact hseveral (by rw [← hs.prod_cut, ← hshape, hone])
      rw [hinner.tracker_eq hne]
      exact Tracker.not_unveils_of_unmasked (Tracker.mask_ofShape _)
    · exact Tracker.not_unveils_of_prod hgathers₂.shape hone
  have hgathers₃ : g'.Gathers op b outer (s.dims old []) ps :=
    hmoved₃.gathers hgathers₂ (hwell₂.proper (hinner.lists hcut)) (Shape.static?_ofNats _)
      (fun hnone => absurd hnone (Tracker.reshape?_ne_none_of_dropUnits hgathers₂.shape
        (Shape.static?_ofNats _) (s.dropUnits_unit old))) hveiled
  obtain ⟨ps', hgathers, hps'⟩ := hlast.gathers hviewed₃.wellFormed hgathers₃ hnew (fun _ => hle)
    (hleads.wellFormed.viewed.leads)
  refine ⟨ps', hgathers, fun flat hflat => ?_⟩
  have heq : ps' flat = (Kernel.reads (s.dims old []) new flat).flatMap
      (Kernel.reads (s.dims old [s.divisor]) (s.dims old [1])) := by
    rw [hps' flat hflat]
    refine List.flatMap_congr fun q hq => ?_
    have hlt := Kernel.lt_of_mem_reads (hs.forall₂_outer hfold).length_eq hflat hq
    rw [hps q (s.prod_unit old ▸ hlt), List.flatMap_singleton']
  rw [heq]
  exact hs.covers_flatMap hfold hflat

/-- However a reduction is built, it gathers the positions that agree on the axes that are kept. -/
theorem Buffer.Reduced.gathers (hg : g.WellFormed W) (hb : W.Lists b) {target : Shape}
    (hold : b.shape.static? = some old) (hnew : target.static? = some new)
    (hfold : List.Forall₂ (fun n m => n = m ∨ m = 1) old new)
    (hle : target ≠ b.shape → new.prod ≤ 2 ^ 63) (h : Reduced W g b op target W' c g') :
    ∃ ps, g'.Gathers op b c new ps ∧ ∀ flat < new.prod, Kernel.Covers old new flat (ps flat) := by
  cases h with
  | once hfolded =>
    obtain ⟨ps, hgathers, hps⟩ := hfolded.gathers hg (.self hold) hnew hle
      (hfolded.built hg).wellFormed.viewed.leads
    refine ⟨ps, hgathers, fun flat hflat => ?_⟩
    rw [hps flat hflat, List.flatMap_singleton']
    exact Kernel.covers_reads hfold hflat
  | twice hne hold' hnew' hs hfolded =>
    obtain rfl := Option.some.inj (hold.symm.trans hold')
    obtain rfl := Option.some.inj (hnew.symm.trans hnew')
    exact hfolded.gathers hg hb hold hnew hfold (SplitPolicy.choose_eq_some hs) (hle hne)

/-! ## Reachable sessions -/

/-- The buffer `c`, a reduction of `b` from the extents `old` to the extents `new`, covers every element
of `b` once. -/
structure Buffer.CoveredBy (b : Buffer) (g : Graph α) (op : ReduceOp) (c : Buffer)
    (old new : List Nat) : Prop where
  /-- Through all passes, a position gathers those that agree on the axes that are kept. -/
  gathers : ∃ ps, g.Gathers op b c new ps ∧ ∀ flat < new.prod, Kernel.Covers old new flat (ps flat)
  /-- Whatever the bases hold, an operation that does not care about order gives what it gives in one
  pass. -/
  lanes : ∀ {M : Type} (F : Folding M), F.Lawful → ∀ (v : Valuation M), ∀ flat < new.prod,
    c.shown F (g.folded F op v) flat
      = F.total ((Kernel.reads old new flat).map (b.shown F (g.folded F op v)))

/-- What gathers the positions that agree covers every element once. -/
theorem Graph.Gathers.coveredBy (hg : g.WellFormed W) (h : g.Gathers op b c new ps)
    (hfold : List.Forall₂ (fun n m => n = m ∨ m = 1) old new)
    (hcovers : ∀ flat < new.prod, Kernel.Covers old new flat (ps flat)) :
    b.CoveredBy g op c old new where
  gathers := ⟨ps, h, hcovers⟩
  lanes F hF v flat hflat := by
    have hperm := (hcovers flat hflat).perm (Kernel.covers_reads hfold hflat)
    rw [h.shown_eq hg hF hflat]
    exact hF.total_perm (hperm.map _)

namespace Session

/-- A reduction of a buffer with known extents succeeds with the shape that is asked for, whatever the
policy, or is stopped because a number leaves its word. If it succeeds, it covers every element of the
buffer once, so long as an empty buffer is not folded to more positions than signed words can count. It is
not stopped where the shapes of the base and of all views are moderate, and there are elements or the
extents leave room for the inner half of an axis. -/
theorem Reachable.reduce_covers [Lane α] {devices : Registry α} {s : Session α}
    (hs : s.Reachable devices) {b : Buffer} (hb : s.Owns b) {old new : List Nat}
    (hold : b.shape.static? = some old)
    (hfold : List.Forall₂ (fun n m => n = m ∨ m = 1) old new) (op : ReduceOp) :
    ∃ r g', (b.reduce op (.ofNats new)).run s.engine.graph = (r, g')
      ∧ (r = .error (.movement .overflow) ∨ ∃ c, r = .ok c ∧ c.shape = .ofNats new
        ∧ (0 < old.prod ∨ new.prod ≤ 2 ^ 63 → b.CoveredBy g' op c old new))
      ∧ (b.base.shape.Moderate → b.tracker.Moderate → 0 < old.prod ∨ 256 * breadth old < 2 ^ 63 →
        ∃ c, r = .ok c) := by
  obtain ⟨W, hsound⟩ := hs.sound
  have hg := hsound.1.wellFormed
  have hb := hb.lists hsound
  have hfits : b.shape.FoldsTo (.ofNats new) := by
    rw [Shape.eq_ofNats hold]
    exact Shape.foldsTo_ofNats.mpr hfold
  have h := Buffer.sat_reduce hg hb op (.ofNats new)
  rw [Sat] at h
  rcases hrun : (b.reduce op (.ofNats new)).run s.engine.graph with ⟨cause | c, g'⟩ <;> rw [hrun] at h
  · rcases h with ⟨-, -, hrefused⟩ | ⟨rfl, -, hsplittable⟩
    · exact absurd hfits hrefused
    refine ⟨_, g', rfl, .inl rfl, fun hbase htracker hroomy => absurd ⟨?_, ?_⟩ hsplittable⟩
    · exact (hg.over hb).tame hbase htracker
    · intro old' hold'
      obtain rfl : old = old' := Option.some.inj (hold.symm.trans hold')
      exact hroomy
  · obtain ⟨-, hcounts, W', hreduced⟩ := h
    refine ⟨_, g', rfl, .inr ⟨c, rfl, hreduced.shape_eq, fun hsome => ?_⟩, fun _ _ _ => ⟨c, rfl⟩⟩
    have hle (hne : Shape.ofNats new ≠ b.shape) : new.prod ≤ 2 ^ 63 := by
      rcases hsome with hpos | hle
      · rcases hcounts.resolve_left hne old new hold (Shape.static?_ofNats new) with hzero | hlt
        · omega
        · have hhalf := two_mul_prod_le_of_fold hfold
            (fun h => hne (by rw [Shape.eq_ofNats hold, h])) hpos
          omega
      · exact hle
    obtain ⟨ps, hgathers, hcovers⟩ :=
      hreduced.gathers hg hb hold (Shape.static?_ofNats new) hfold hle
    exact hgathers.coveredBy (hreduced.built hg).wellFormed hfold hcovers

/-- Six ones, for a policy that splits every reduction. -/
def splitOnes : Session Float :=
  (({} : Session Float).step []
    (.define "x" (.constant 1 (.ofNats [6]) .f32 "cpu" { split := ⟨0, 0, 0⟩ }))).2

/-- The view of the six ones. -/
def onesView : Buffer :=
  ⟨3, ⟨⟨.ofNats [6], [0], 0, none⟩, []⟩, ⟨1, .scalar, .f32, "cpu", { split := ⟨0, 0, 0⟩ }⟩⟩

theorem reduce_covers_splitOnes :
    ∃ c g', (onesView.reduce .sum (.ofNats [1])).run splitOnes.engine.graph = (.ok c, g')
      ∧ c.shape = .ofNats [1] ∧ onesView.CoveredBy g' .sum c [6] [1] := by
  have hs : splitOnes.Reachable [] := .step .start _
  have hb : splitOnes.Owns onesView := .held (List.Mem.head _)
  obtain ⟨r, g', hrun, hr, hmoderate⟩ :=
    Reachable.reduce_covers hs hb rfl (.cons (.inr rfl) .nil) .sum
  obtain ⟨c, rfl⟩ : ∃ c, r = .ok c := by
    refine hmoderate ⟨[], rfl, by decide⟩ ?_ (.inl (by decide))
    intro v hv
    obtain rfl := List.mem_singleton.mp hv
    exact ⟨[6], rfl, by decide⟩
  obtain ⟨c, ⟨⟩, hshape, hcovered⟩ := hr.resolve_left nofun
  exact ⟨_, g', hrun, hshape, hcovered (.inl (by decide))⟩

/-! ## Beyond the words -/

/-- The six ones, padded so that they stand beyond the signed words. -/
def framedOnes : Session Float :=
  (splitOnes.step [] (.define "y" (.move "x" (.pad [⟨9223372036854775811, 1⟩])))).2

/-- The padded view. -/
def framedView : Buffer :=
  ⟨4, ⟨⟨.ofNats [9223372036854775818], [0], 0,
    some [⟨9223372036854775811, 9223372036854775817⟩]⟩, []⟩, onesView.base⟩

/-- A base without elements, whose other axis is longer than signed words can count. -/
def emptyRows : Session Float :=
  (({} : Session Float).step []
    (.define "x" (.load .empty (.ofNats [0, 9223372036854775812]) .f32 "cpu" (.ok .none) [] {}))).2

/-- Of nothing, nothing is read. -/
theorem Kernel.reads_eq_nil (hold : old.prod = 0) (hlength : old.length = new.length) {flat : Nat}
    (hflat : flat < new.prod) : Kernel.reads old new flat = [] := by
  refine List.eq_nil_iff_forall_not_mem.mpr fun k hk => ?_
  have hlt := Kernel.lt_of_mem_reads hlength hflat hk
  omega

/-- The lanes are truth values, and a fold tells whether all of them are true. -/
def allLane : Folding Bool := ⟨(· && ·), true, false⟩

theorem lawful_allLane : allLane.Lawful := ⟨Bool.and_comm, Bool.and_assoc, Bool.true_and⟩

/-- The base. -/
def emptyBase : Buffer := Base.buffer ⟨1, .ofNats [0, 9223372036854775812], .f32, "cpu", {}⟩

/-- Its maxima along the axis without elements. -/
def emptyMaxima : Buffer := Base.buffer ⟨2, .ofNats [1, 9223372036854775812], .f32, "cpu", {}⟩

/-- The padded view cannot be cut in two, as no dense view of its extents has strides inside the words.
The base without elements is folded to a row of nothing, whose last positions are not found. -/
theorem reduce_overflows :
    (framedOnes.Reachable [] ∧ framedOnes.Owns framedView
        ∧ framedView.shape.static? = some [9223372036854775818]
        ∧ ((framedView.reduce .sum (.ofNats [1])).run framedOnes.engine.graph).1
          = .error (.movement .overflow))
      ∧ emptyRows.Reachable [] ∧ emptyRows.Owns emptyBase
        ∧ emptyBase.shape.static? = some [0, 9223372036854775812]
        ∧ ∃ g', (emptyBase.reduce .max (.ofNats [1, 9223372036854775812])).run emptyRows.engine.graph
            = (.ok emptyMaxima, g')
          ∧ allLane.Lawful
          ∧ emptyMaxima.shown allLane (g'.folded allLane .max fun _ _ => true) 9223372036854775808
            = false
          ∧ allLane.total ((Kernel.reads [0, 9223372036854775812] [1, 9223372036854775812]
              9223372036854775808).map
                (emptyBase.shown allLane (g'.folded allLane .max fun _ _ => true))) = true := by
  refine ⟨⟨.step (.step .start _) _, .held (List.Mem.head _), rfl, rfl⟩, .step .start _,
    .held (List.Mem.head _), rfl, _, rfl, lawful_allLane, rfl, ?_⟩
  have hlt : 9223372036854775808 < [1, 9223372036854775812].prod := by simp
  have hreads : Kernel.reads [0, 9223372036854775812] [1, 9223372036854775812] 9223372036854775808
      = [] := Kernel.reads_eq_nil (by simp) (by simp) hlt
  rw [hreads]
  rfl

end Session

end TensorGraph
