import TensorGraph.Proofs.Graph.Reduce
import TensorGraph.Proofs.Tracker.Calm
import TensorGraph.Proofs.Tracker.Into
/-!
# Rules for what is read

Operations read buffers that were handed out, or write them out on what these read, reshaped. So a
condition on trackers that reshapes keep is kept by everything that builds, once for all conditions.

- `Graph.Rule`: conditions on bases and on leaves, such as `tame`, `calm` and `bare`.
- `Graph.Obeys`: graphs that obey a rule.
- `Graph.Obeys.stands`: what stands for an operand.
- `Graph.Obeys.reduced`, `Graph.Obeys.halted`: reductions, in one pass or two, or stopped.
- `Build.Obeys`: operations that obey a rule.
-/

namespace TensorGraph

open TensorGraph.Graph

variable {α β : Type} {W W' : Census} {g g' : Graph α} {b c : Buffer} {op t : Tree α}

/-! ## Rules -/

/-- A condition on the shapes of bases and one on the trackers of leaves. The shape of a leaf is as those
of bases, a dense store is as a leaf, and a leaf that is reshaped to such a shape still is. -/
structure Graph.Rule where
  /-- What the shapes of bases satisfy. -/
  bases : Shape → Prop
  /-- What the trackers of leaves satisfy. -/
  leaves : Tracker → Prop
  /-- The shape of a leaf. -/
  top {t : Tracker} (ht : leaves t) : bases t.shape
  /-- A dense store. -/
  ofShape {shape : Shape} (h : bases shape) : leaves (.ofShape shape)
  /-- A leaf that is reshaped. -/
  reshape {t t' : Tracker} {target : Shape} (ht : leaves t) (htarget : bases target)
    (h : t.reshape target = .ok t') : leaves t'

namespace Graph.Rule

/-- Moderate shapes and tame views. -/
def tame : Rule where
  bases := Shape.Moderate
  leaves t := t.Moderate ∧ t.Tame
  top ht := ht.1.top
  ofShape h := by
    refine ⟨Tracker.moderate_ofShape h, ?_⟩
    obtain ⟨dims, rfl, hle⟩ := h.exists_dims
    exact Tracker.tame_ofShape (by omega)
  reshape ht htarget h := by
    refine ⟨ht.1.reshape htarget h, ?_⟩
    obtain ⟨dims, rfl, hle⟩ := htarget.exists_dims
    exact ht.2.reshape (by omega) h

/-- Moderate shapes and calm trackers. -/
def calm : Rule where
  bases := Shape.Moderate
  leaves := Tracker.Calm
  top ht := ht.moderate.top
  ofShape := Tracker.calm_ofShape
  reshape := Tracker.Calm.reshape

/-- Nothing is hidden. -/
def bare : Rule where
  bases _ := True
  leaves := Tracker.Bare
  top _ := trivial
  ofShape _ := Tracker.bare_ofShape _
  reshape ht _ := ht.reshape

/-- No condition. -/
def any : Rule where
  bases _ := True
  leaves _ := True
  top _ := trivial
  ofShape _ := trivial
  reshape _ _ _ := trivial

/-- The rule holds if `p` does. -/
def given (p : Prop) (r : Rule) : Rule where
  bases s := p → r.bases s
  leaves t := p → r.leaves t
  top ht hp := r.top (ht hp)
  ofShape h hp := r.ofShape (h hp)
  reshape ht htarget h hp := r.reshape (ht hp) (htarget hp) h

/-- What obeys the rule is calm. -/
def IsCalm (r : Rule) : Prop := ∀ t, r.leaves t → t.Calm

theorem isCalm_given {p : Prop} (hp : p) : (calm.given p).IsCalm := fun _ ht => ht hp

/-- Some shape is not moderate, so what says nothing of shapes does not make anything calm. -/
theorem not_isCalm {r : Rule} (h : ∀ shape, r.leaves (.ofShape shape)) : ¬r.IsCalm := fun hcalm =>
  absurd (hcalm _ (h (.ofNats [2 ^ 63]))).moderate.top (by decide)

theorem IsCalm.moderate {r : Rule} (h : r.IsCalm) {shape : Shape} (hshape : r.bases shape) :
    shape.Moderate := Tracker.shape_ofShape shape ▸ (h _ (r.ofShape hshape)).moderate.top

end Graph.Rule

/-- The bases and the leaves of the graph obey the rule. -/
structure Graph.Obeys (r : Rule) (g : Graph α) : Prop where
  /-- The shapes of the bases. -/
  bases : ∀ e ∈ g.cores, r.bases e.base.shape
  /-- The leaves of the operations. -/
  leaves : ∀ e ∈ g.cores, ∀ b ∈ e.leaves, r.leaves b.tracker

/-- The leaves of an operation are those of an entry. -/
theorem Graph.WellFormed.leaves_op (hg : g.WellFormed W) (hb : W.Lists b) (hop : g.op? b = some op) :
    ∃ e ∈ g.cores, e.leaves = op.leaves := by
  obtain ⟨e, he, hbase⟩ := hg.census_base _ _ hb
  rw [hg.op?_eq he hbase] at hop
  exact ⟨e, he, Entry.leaves_eq hop⟩

theorem Graph.obeys_any (g : Graph α) : g.Obeys .any := ⟨fun _ _ => trivial, fun _ _ _ _ => trivial⟩

variable {r : Rule}

theorem Graph.obeys_given {p : Prop} (h : p → g.Obeys r) : g.Obeys (.given p r) :=
  ⟨fun e he hp => (h hp).bases e he, fun e he b hb hp => (h hp).leaves e he b hb⟩

theorem Graph.Obeys.of_given {p : Prop} (h : g.Obeys (.given p r)) (hp : p) : g.Obeys r :=
  ⟨fun e he => h.bases e he hp, fun e he b hb => h.leaves e he b hb hp⟩

namespace Graph.Obeys

variable (h : g.Obeys r)
include h

/-! ## Changes of a graph -/

/-- Views that were handed out do not matter. -/
theorem congr (hsame : g'.cores = g.cores) : g'.Obeys r where
  bases := hsame ▸ h.bases
  leaves := hsame ▸ h.leaves

theorem viewed (hviewed : Viewed W g W' g') : g'.Obeys r := h.congr hviewed.same.cores

/-- A base is added. -/
theorem insert {op : Option (Tree α)} {result : Option (Block α)} {shape : Shape} {dtype : DType}
    {device : String} {config : Config} (hshape : r.bases shape)
    (hop : ∀ t ∈ op, ∀ b ∈ t.leaves, r.leaves b.tracker) :
    (g.insert op result shape dtype device config).2.Obeys r where
  bases := by
    rw [cores_insert]
    exact List.forall_mem_cons.mpr ⟨hshape, h.bases⟩
  leaves := by
    rw [cores_insert]
    refine List.forall_mem_cons.mpr ⟨fun b hb => ?_, h.leaves⟩
    cases op with
    | none => cases hb
    | some t =>
      refine hop t rfl b ?_
      simpa [Entry.leaves] using hb

theorem added {shape : Shape} {dtype : DType} {device : String} {config : Config}
    (hadded : Added W g op shape dtype device config W' b g') (hshape : r.bases shape)
    (hop : ∀ c ∈ op.leaves, r.leaves c.tracker) : g'.Obeys r := by
  rw [hadded.graph_eq]
  exact h.insert hshape fun t ht => Option.some.inj ht ▸ hop

/-- Results do not matter either. -/
theorem setResult (id : Nat) (block : Block α) : (g.setResult id block).Obeys r where
  bases e he := by
    obtain ⟨f, hf, rfl⟩ := List.mem_map.mp (cores_setResult g id block ▸ he)
    split <;> exact h.bases f hf
  leaves e he := by
    obtain ⟨f, hf, rfl⟩ := List.mem_map.mp (cores_setResult g id block ▸ he)
    split <;> exact h.leaves f hf

/-! ## Buffers that were handed out -/

variable (hg : g.WellFormed W) (hb : W.Lists b)
include hg hb

theorem base : r.bases b.base.shape := by
  obtain ⟨e, he, hbase⟩ := hg.census_base _ _ hb
  exact hbase ▸ h.bases e he

/-- What an operation reads obeys the rule. -/
theorem leaf (hop : g.op? b = some op) : ∀ c ∈ op.leaves, r.leaves c.tracker := by
  obtain ⟨e, he, hleaves⟩ := hg.leaves_op hb hop
  exact hleaves ▸ h.leaves e he

/-- What stands for an operand reads the operand, or what its operation reads, reshaped. -/
theorem stands (hleaf : r.leaves b.tracker) (hstands : t.Stands W' g b) :
    ∀ c ∈ t.leaves, r.leaves c.tracker := by
  cases hstands with
  | buffer =>
    intro c hc
    obtain rfl := List.mem_singleton.mp hc
    exact hleaf
  | inlined hop _ _ hexpresses =>
    cases hexpresses with
    | same => exact h.leaf hg hb hop
    | reshaped hm =>
      intro c hc
      obtain ⟨d, hd, hc⟩ := Tree.mem_leaves_substitute.mp hc
      obtain ⟨c', hc', -, hmoved⟩ := hm d hd
      rw [hc', Option.getD_some, Tree.leaves_buffer, List.mem_singleton] at hc
      exact hc ▸ r.reshape (h.leaf hg hb hop d hd) (r.top hleaf) hmoved.tracker

end Graph.Obeys

/-! ## Reductions -/

/-- The shapes that the axes of a buffer are cut to obey the rule. -/
def Graph.Rule.Cuts (r : Rule) (b : Buffer) : Prop :=
  ∀ old new (s : Split), b.shape.static? = some old → s.Cuts old new →
    r.bases (s.shape old [s.divisor]) ∧ r.bases (s.shape old [1]) ∧ r.bases (s.shape old [])

namespace Graph.Obeys

variable {rop : ReduceOp} {target : Shape} (h : g.Obeys r) (hleaf : r.leaves b.tracker)
include h hleaf

theorem folded (htarget : r.bases target) (hfolded : b.Folded W g rop target W' c g') :
    g'.Obeys r ∧ r.leaves c.tracker := by
  cases hfolded with
  | same => exact ⟨h, hleaf⟩
  | added _ hadded =>
    refine ⟨h.added hadded htarget fun d hd => ?_, ?_⟩
    · obtain rfl : d = b := by simpa using hd
      exact hleaf
    · rw [hadded.buffer_eq]
      exact r.ofShape htarget

/-- An axis is cut, and its inner half is folded. -/
theorem inner {old : List Nat} {s : Split} {cut inner : Buffer} {W₁ W₂ : Census} {g₁ g₂ : Graph α}
    (hcut : r.bases (s.shape old [s.divisor])) (hunit : r.bases (s.shape old [1]))
    (hviewed : Viewed W g W₁ g₁) (hmoved : b.Moved (.reshape (s.shape old [s.divisor])) cut)
    (hfolded : cut.Folded W₁ g₁ rop (s.shape old [1]) W₂ inner g₂) :
    g₂.Obeys r ∧ r.leaves inner.tracker :=
  (h.viewed hviewed).folded (r.reshape hleaf hcut hmoved.tracker) hunit hfolded

theorem reduced (hcuts : r.Cuts b) (htarget : r.bases target)
    (hreduced : b.Reduced W g rop target W' c g') : g'.Obeys r ∧ r.leaves c.tracker := by
  cases hreduced with
  | once hfolded => exact h.folded hleaf htarget hfolded
  | @twice old new s _ hold hnew hs htwice =>
    obtain ⟨W₁, cut, g₁, W₂, inner, g₂, W₃, outer, g₃, ⟨hviewed₁, -, hmoved₁⟩, hinner,
      ⟨hviewed₃, -, hmoved₃⟩, hlast⟩ := htwice.passes
    obtain ⟨hcut, hunit, houter⟩ := hcuts old new s hold (SplitPolicy.choose_eq_some hs)
    obtain ⟨hg₂, hinner'⟩ := h.inner hleaf hcut hunit hviewed₁ hmoved₁ hinner
    -- the unit axis that is left is dropped, and the rest is folded
    exact (hg₂.viewed hviewed₃).folded (r.reshape hinner' houter hmoved₃.tracker) htarget hlast

theorem halted (hcuts : r.Cuts b) (hhalted : b.Halted W g rop W' g') : g'.Obeys r := by
  cases hhalted with
  | views hviewed => exact h.viewed hviewed
  | inner hold hs hviewed _ hmoved hfolded hviewed' =>
    obtain ⟨hcut, hunit, -⟩ := hcuts _ _ _ hold hs
    exact (h.inner hleaf hcut hunit hviewed hmoved hfolded).1.viewed hviewed'

end Graph.Obeys

/-! ## Operations that build -/

/-- The operation obeys the rule, whether or not it is refused. -/
abbrev Build.Obeys (r : Rule) (g : Graph α) (x : Build α β) : Prop :=
  Sat x g (fun _ g' => g'.Obeys r) fun _ g' => g'.Obeys r

namespace Buffer

variable (h : g.Obeys r) (hg : g.WellFormed W)
include h hg

theorem obeys_move (hb : W.Lists b) (m : Movement) : Build.Obeys r g (b.move m) := by
  refine (sat_move hg hb m).imp ?_ ?_
  · rintro c g' ⟨W', hviewed, -⟩
    exact h.viewed hviewed
  · rintro _ g' ⟨rfl, -⟩
    exact h

theorem obeys_load {sources : List Buffer} (hsources : ∀ c ∈ sources, W.Lists c)
    (hleaves : ∀ c ∈ sources, r.leaves c.tracker) (op : LoadOp) {shape : Shape} (hshape : r.bases shape)
    (dtype : DType) (device : String) (arg : Arg α) (config : Config) :
    Build.Obeys r g (load op shape dtype device arg sources config) := by
  refine (sat_load hg hsources op shape dtype device arg config).imp ?_ ?_
  · rintro c g' ⟨W', hadded⟩
    exact h.added hadded hshape fun c hc => hleaves c (by simpa using hc)
  · rintro _ g' ⟨rfl, -⟩
    exact h

theorem obeys_copyTo (hb : W.Lists b) (hleaf : r.leaves b.tracker) (device : String) :
    Build.Obeys r g (b.copyTo device : Build α Buffer) :=
  obeys_load h hg (by simpa using hb) (by simpa using hleaf) .copy (r.top hleaf) ..

theorem obeys_constant (hscalar : r.bases .scalar) (value : α) (shape : Shape) (dtype : DType)
    (device : String) (config : Config) :
    Build.Obeys r g (constant value shape dtype device config) := by
  refine (sat_constant hg value shape dtype device config).imp ?_ ?_
  · rintro c g' ⟨W₁, b, g₁, W', hadded, hviewed, -⟩
    exact (h.added hadded hscalar (by simp)).viewed hviewed
  · rintro _ g' ⟨-, -, W₁, b, g₁, W', hadded, hviewed⟩
    exact (h.added hadded hscalar (by simp)).viewed hviewed

theorem obeys_contiguous (hb : W.Lists b) (hleaf : r.leaves b.tracker) :
    Build.Obeys r g (b.contiguous : Build α Buffer) := by
  refine (sat_contiguous hg hb).imp ?_ ?_
  · rintro c g' (⟨-, -, rfl⟩ | ⟨-, W', hadded⟩)
    · exact h
    · exact h.added hadded (r.top hleaf) (by simpa using hleaf)
  · rintro _ g' ⟨rfl, -⟩
    exact h

theorem obeys_elementwise {others : List Buffer} (hbs : ∀ c ∈ b :: others, W.Lists c)
    (hleaves : ∀ c ∈ b :: others, r.leaves c.tracker) (held : List Buffer) (code : Opcode)
    (arg : Arg α) : Build.Obeys r g (b.elementwise held code others arg) := by
  refine (sat_elementwise hg hbs held code arg).imp ?_ ?_
  · rintro c g' ⟨-, W₁, g₁, sources, dtype, W', hviewed, -, hsources, hadded⟩
    refine (h.viewed hviewed).added hadded (r.top (hleaves b List.mem_cons_self)) fun c hc => ?_
    rw [Tree.leaves_node, List.mem_flatMap] at hc
    obtain ⟨t, ht, hc⟩ := hc
    obtain ⟨d, hd, hstands⟩ := exists_of_forall₂_left hsources.flip ht
    exact h.stands hg (hbs d hd) (hleaves d hd) hstands c hc
  · rintro _ g' ⟨⟨W', hviewed⟩, -⟩
    exact h.viewed hviewed

theorem obeys_reduce (hb : W.Lists b) (hleaf : r.leaves b.tracker) (hcuts : r.Cuts b) (op : ReduceOp)
    {target : Shape} (htarget : r.bases target) :
    Build.Obeys r g (b.reduce op target : Build α Buffer) := by
  refine (sat_reduce hg hb op target).imp ?_ ?_
  · rintro c g' ⟨-, -, W', hreduced⟩
    exact (h.reduced hleaf hcuts htarget hreduced).1
  · rintro _ g' (⟨-, rfl, -⟩ | ⟨-, ⟨W', hhalted⟩, -⟩)
    · exact h
    · exact h.halted hleaf hcuts hhalted

end Buffer

end TensorGraph
