import TensorGraph.Proofs.Graph.Build
import TensorGraph.Proofs.Split
import TensorGraph.Proofs.Tracker.Simplify
/-!
# What constants and reductions build

A constant is a scalar load with a view of it, and a reduction adds one base, or two with views
between them. Both may be stopped where a number leaves its word, and then leave behind what they have
added until then.

- `Buffer.sat_constant`: a constant is refused only if its strides leave the words.
- `Buffer.Folded`: the outcome of a reduction in one pass.
- `Buffer.Splittable`: the buffers whose reductions stay inside the words.
- `Buffer.sat_reduce`: a reduction adds one base or two, unless it does not fit or is stopped.
-/

namespace TensorGraph

open TensorGraph.Graph

variable {α : Type} {W : Census} {g : Graph α}

/-! ## Constants -/

theorem View.repeatSpans_units (source target : Shape) {ds : List Extent} (es : List Extent)
    (spans : List Span) (h : ∀ d ∈ ds, d = .static 1) :
    ∃ spans', repeatSpans source target false ds es spans = .ok spans' := by
  induction ds generalizing es spans with
  | nil => exact ⟨spans, by simp [repeatSpans]⟩
  | cons d ds ih =>
    cases es with
    | nil => exact ⟨spans, by simp [repeatSpans]⟩
    | cons e es =>
      obtain ⟨rest, hrest⟩ := ih es spans.tail fun c hc => h c (List.mem_cons_of_mem _ hc)
      exact ⟨_, repeatSpans_cons_eq_ok.mpr
        ⟨.inr ⟨h d List.mem_cons_self, fun h => absurd h Bool.false_ne_true⟩, rest, hrest, rfl⟩⟩

/-- The shape with as many unit axes as `shape` has axes. -/
def Shape.units (shape : Shape) : Shape := .ofNats (List.replicate shape.rank 1)

/-- Unit axes can be repeated to every shape whose strides can be found. -/
theorem Tracker.expand_units (shape : Shape) :
    (∃ t, (Tracker.ofShape shape.units).move (.expand shape) = .ok t)
      ∨ (Tracker.ofShape shape.units).move (.expand shape) = .error .overflow ∧ ¬shape.Formable := by
  have hrank : shape.rank = shape.units.rank := by
    simp [Shape.units, Shape.ofNats, Shape.rank]
  have hunits : ∀ d ∈ shape.units.dims, d = .static 1 := by
    intro d hd
    obtain ⟨n, hn, rfl⟩ := List.mem_map.mp hd
    rw [List.eq_of_mem_replicate hn]
  obtain ⟨spans, hspans⟩ := View.repeatSpans_units shape.units shape shape.dims [] hunits
  obtain ⟨strides, hview⟩ : ∃ strides, View.ofShape shape.units = ⟨shape.units, strides, 0, none⟩ :=
    ⟨_, View.ofShape_eq shape.units⟩
  have hexpand : (View.ofShape shape.units).expand shape = (View.create shape strides 0 none).formed := by
    rw [hview, View.expand]
    change (do View.requireRank _ _ _; let _ ← View.repeatSpans shape.units shape false _ _ _; _) = _
    rw [View.requireRank_eq_ok.mpr hrank, ok_bind]
    exact congrArg (· >>= _) hspans
  change (∃ t, Tracker.setTop _ <$> (View.ofShape shape.units).expand shape = .ok t)
    ∨ Tracker.setTop _ <$> (View.ofShape shape.units).expand shape = .error .overflow ∧ _
  rw [hexpand]
  by_cases hformable : shape.Formable
  · rw [View.formed, if_pos ((View.formable_create shape strides).mpr hformable)]
    exact .inl ⟨_, rfl⟩
  · rw [View.formed_eq_error (mt (View.formable_create shape strides).mp hformable)]
    exact .inr ⟨rfl, hformable⟩

/-- A scalar takes as many unit axes as there are. -/
theorem Tracker.reshape_units (shape : Shape) :
    (Tracker.ofShape .scalar).move (.reshape shape.units) = .ok (.ofShape shape.units) := by
  have hprod : (List.replicate shape.rank 1).prod = 1 := by simp
  have hbreadth : breadth (List.replicate shape.rank 1) < 2 ^ 63 := by
    rw [breadth_eq_prod (by omega), hprod]
    decide
  have hfits : (Tracker.ofShape (.ofNats [])).ReshapeFits shape.units :=
    Tracker.reshapeFits_ofShape (by decide) hbreadth
  refine Tracker.reshape_ofShape (n := 1) rfl ?_ hfits
  rw [Shape.units, Shape.elements?_ofNats, hprod]

/-- A constant adds a scalar load and hands out a view of it. If the strides of the view leave the words,
the load stays. -/
theorem Buffer.sat_constant (hg : g.WellFormed W) (value : α) (shape : Shape) (dtype : DType)
    (device : String) (config : Config) :
    Sat (constant value shape dtype device config) g
      (fun c g' => ∃ W₁ b g₁ W', Added W g (.node (.load .const) (.scalar value) none []) .scalar
          dtype device config W₁ b g₁
        ∧ Viewed W₁ g₁ W' g' ∧ W'.Lists c ∧ c.base = b.base
        ∧ (Tracker.ofShape shape.units).move (.expand shape) = .ok c.tracker)
      fun e g' => e = .movement .overflow ∧ ¬shape.Formable
        ∧ ∃ W₁ b g₁ W', Added W g (.node (.load .const) (.scalar value) none []) .scalar
            dtype device config W₁ b g₁ ∧ Viewed W₁ g₁ W' g' := by
  rw [constant, sat_bind]
  refine (sat_load hg (show ∀ c ∈ [], W.Lists c by simp) ..).imp ?_ ?_
  · rintro b g₁ ⟨W₁, hadded⟩
    have hb : b.tracker = .ofShape .scalar := hadded.buffer_eq ▸ rfl
    rw [sat_bind]
    refine (sat_move_of_ok (hadded.leads hg).wellFormed hadded.lists
      (hb ▸ Tracker.reshape_units shape)).imp ?_ fun _ _ h => h
    rintro ones g₂ ⟨W₂, hviewed, hones, hmoved, htracker⟩
    refine (sat_move hviewed.wellFormed hones _).imp ?_ ?_
    · rintro c g' ⟨W', hviewed', hc, hmoved'⟩
      exact ⟨W₁, b, g₁, W', hadded, hviewed.trans hviewed', hc, hmoved'.base.trans hmoved.base,
        htracker ▸ hmoved'.tracker⟩
    · rintro _ _ ⟨rfl, cause, hcause, rfl⟩
      rw [htracker] at hcause
      rcases Tracker.expand_units shape with ⟨t, ht⟩ | ⟨hstopped, hformable⟩
      · cases ht.symm.trans hcause
      · obtain rfl := Except.error.inj (hstopped.symm.trans hcause)
        exact ⟨rfl, hformable, W₁, b, g₁, W₂, hadded, hviewed⟩
  · rintro e g' ⟨-, ⟨n, hn, hne⟩ | ⟨-, hformable⟩⟩
    · exact absurd (Option.some.inj hn).symm hne
    · exact absurd rfl hformable

/-! ## Reductions -/

/-- A reduction from the shape `source` to the shape `target` keeps each extent or folds it to
one. -/
def Shape.FoldsTo (source target : Shape) : Prop :=
  List.Forall₂ (fun d e => d = e ∨ e = .static 1) source.dims target.dims

theorem Shape.foldsTo_ofNats {old new : List Nat} :
    (ofNats old).FoldsTo (ofNats new) ↔ List.Forall₂ (fun n m => n = m ∨ m = 1) old new := by
  rw [FoldsTo, ofNats, ofNats, List.forall₂_map_left_iff, List.forall₂_map_right_iff]
  simp

/-- The elements of a reduction that folds anything to something are counted inside the words. -/
def Shape.CountsTo (source target : Shape) : Prop :=
  target = source ∨ ∀ old new, source.static? = some old → target.static? = some new →
    new.prod = 0 ∨ old.prod < 2 ^ 64

/-- What is folded from known extents has known extents. -/
theorem Shape.FoldsTo.exists_dims {source target : Shape} {old : List Nat}
    (h : source.FoldsTo target) (hold : source.static? = some old) :
    ∃ new, target.static? = some new := by
  refine Shape.exists_static? fun d hd => ?_
  obtain ⟨e, he, heq⟩ := exists_of_forall₂_left h.flip hd
  rw [Shape.static?_eq_some.mp hold] at he
  obtain ⟨n, -, rfl⟩ := List.mem_map.mp he
  rcases heq with rfl | rfl
  · exact ⟨n, rfl⟩
  · exact ⟨1, rfl⟩

/-- Folding axes makes no shape broader. -/
theorem breadth_fold_le {old new : List Nat}
    (h : List.Forall₂ (fun n m => n = m ∨ m = 1) old new) : breadth new ≤ breadth old := by
  induction h with
  | nil => exact Nat.le_refl 1
  | @cons n m old new hnm _ ih => exact Nat.mul_le_mul (by omega) ih

/-- Where the inner half of an axis without coordinates has room, cutting an axis leaves the shape inside
the same bound. -/
theorem Split.Cuts.breadth_cut_le {s : Split} {old new : List Nat} {n : Nat} (hs : s.Cuts old new)
    (hle : breadth old ≤ n) (hroomy : 0 < old.prod ∨ 256 * breadth old ≤ n) :
    breadth (s.dims old [s.divisor]) ≤ n := by
  rcases hroomy with hpos | hroomy
  · rw [breadth_eq_prod (hs.prod_cut ▸ hpos), hs.prod_cut]
    exact (prod_le_breadth old).trans hle
  · have hdivisor : s.divisor ≤ 256 := hs.divisor ▸ Nat.gcd_le_left _ (by decide)
    have houter : breadth (s.dims old []) ≤ breadth old := by
      conv_rhs => rw [hs.old_eq]
      simp only [Split.dims, breadth_append, breadth_cons, breadth_nil, List.append_assoc,
        List.nil_append, Nat.mul_one]
      exact Nat.mul_le_mul_left _ (Nat.mul_le_mul_right _ (by
        have := Nat.div_le_self (old.getD s.axis 0) s.divisor
        omega))
    have hcut : breadth (s.dims old [s.divisor]) = max 1 s.divisor * breadth (s.dims old []) := by
      simp only [Split.dims, breadth_append, breadth_cons, breadth_nil, List.append_assoc,
        List.nil_append, Nat.mul_one]
      ac_rfl
    have hle : max 1 s.divisor * breadth (s.dims old []) ≤ 256 * breadth old :=
      Nat.mul_le_mul (by omega) houter
    omega

theorem Split.breadth_unit (s : Split) (old : List Nat) :
    breadth (s.dims old [1]) = breadth (s.dims old []) := by
  simp [Split.dims, breadth_append]

/-- The outcome of a reduction in one pass: the buffer itself if nothing is folded, otherwise a base
that folds it. -/
inductive Buffer.Folded (W : Census) (g : Graph α) (b : Buffer) (op : ReduceOp) (target : Shape) :
    Census → Buffer → Graph α → Prop
  /-- Nothing is folded. -/
  | same (h : target = b.shape) : Folded W g b op target W b g
  /-- A base is added. -/
  | added {W' : Census} {c : Buffer} {g' : Graph α} (h : target ≠ b.shape)
    (hadded : Added W g (.node (.reduce op) (.shape target) none [.buffer b]) target b.dtype b.device
      b.config W' c g') : Folded W g b op target W' c g'

namespace Buffer

variable {b : Buffer} {op : ReduceOp} {target : Shape}

theorem Folded.built {W' : Census} {c : Buffer} {g' : Graph α} (hg : g.WellFormed W)
    (h : Folded W g b op target W' c g') : Built W g W' g' := by
  cases h with
  | same => exact hg.viewed.built
  | added _ hadded => exact hadded.built hg

theorem Folded.lists {W' : Census} {c : Buffer} {g' : Graph α} (hb : W.Lists b)
    (h : Folded W g b op target W' c g') : W'.Lists c := by
  cases h with
  | same => exact hb
  | added _ hadded => exact hadded.lists

theorem Folded.shape_eq {W' : Census} {c : Buffer} {g' : Graph α}
    (h : Folded W g b op target W' c g') : c.shape = target := by
  cases h with
  | same h => exact h.symm
  | added _ hadded =>
    rw [hadded.buffer_eq]
    exact Tracker.shape_ofShape target

theorem Folded.tracker_eq {W' : Census} {c : Buffer} {g' : Graph α} (hne : target ≠ b.shape)
    (h : Folded W g b op target W' c g') : c.tracker = .ofShape target := by
  cases h with
  | same h => exact absurd h hne
  | added _ hadded =>
    rw [hadded.buffer_eq]
    rfl

theorem Folded.tame {W' : Census} {c : Buffer} {g' : Graph α} {dims : List Nat}
    (h : Folded W g b op (.ofNats dims) W' c g') (ht : b.tracker.Tame) (hdims : breadth dims < 2 ^ 63) :
    c.tracker.Tame := by
  cases h with
  | same => exact ht
  | added _ hadded =>
    rw [hadded.buffer_eq]
    exact Tracker.tame_ofShape hdims

theorem sat_reduceOnce (hg : g.WellFormed W) (hb : W.Lists b) (hfold : b.shape.FoldsTo target) :
    Sat (b.reduceOnce op target : Build α Buffer) g
      (fun c g' => ∃ W', Folded W g b op target W' c g')
      fun e g' => g' = g ∧ e = .movement .overflow ∧ ¬target.Formable := by
  rw [reduceOnce]
  split
  · next h => exact ⟨W, .same h⟩
  · next h =>
    have hcomputes : (Tree.node (.reduce op) (.shape target) none [.buffer b] : Tree α).Computes W
        (g.nextBase target b.dtype b.device b.config) := by
      refine ⟨.reduce hfold rfl, fun _ t ht => ⟨b, List.mem_singleton.mp ht⟩, ?_⟩
      intro c hc
      obtain rfl : c = b := by simpa using hc
      exact ⟨hb, hg.lt_next hb⟩
    refine (sat_compute hcomputes).imp ?_ fun _ _ h => h
    rintro c g' ⟨W', hadded⟩
    exact ⟨W', .added h hadded⟩

/-- The outcome of a reduction in two passes: the inner half of the axis that is cut is folded first,
and what the reduction folds besides after that. -/
structure FoldedTwice (W : Census) (g : Graph α) (b : Buffer) (op : ReduceOp) (target : Shape)
    (old : List Nat) (s : Split) (W' : Census) (c : Buffer) (g' : Graph α) : Prop where
  /-- The two passes with the two reshaped buffers. -/
  passes : ∃ W₁ cut g₁ W₂ inner g₂ W₃ outer g₃,
    (Viewed W g W₁ g₁ ∧ W₁.Lists cut ∧ b.Moved (.reshape (s.shape old [s.divisor])) cut)
    ∧ Folded W₁ g₁ cut op (s.shape old [1]) W₂ inner g₂
    ∧ (Viewed W₂ g₂ W₃ g₃ ∧ W₃.Lists outer ∧ inner.Moved (.reshape (s.shape old [])) outer)
    ∧ Folded W₃ g₃ outer op target W' c g'

/-- What a reduction that is stopped leaves behind: views, and in two passes perhaps the base of the
first. -/
inductive Halted (W : Census) (g : Graph α) (b : Buffer) (op : ReduceOp) :
    Census → Graph α → Prop
  /-- No base was added. -/
  | views {W' : Census} {g' : Graph α} (h : Viewed W g W' g') : Halted W g b op W' g'
  /-- The inner half of an axis was folded. -/
  | inner {W₁ W₂ W' : Census} {cut inner : Buffer} {g₁ g₂ g' : Graph α} {old new : List Nat} {s : Split}
    (hold : b.shape.static? = some old) (hs : s.Cuts old new) (hviewed : Viewed W g W₁ g₁)
    (hcut : W₁.Lists cut) (hmoved : b.Moved (.reshape (s.shape old [s.divisor])) cut)
    (hfolded : Folded W₁ g₁ cut op (s.shape old [1]) W₂ inner g₂) (h : Viewed W₂ g₂ W' g') :
    Halted W g b op W' g'

theorem Halted.built {W' : Census} {g' : Graph α} (h : Halted W g b op W' g') : Built W g W' g' := by
  cases h with
  | views h => exact h.built
  | inner _ _ hviewed _ _ hfolded h =>
    exact (hviewed.built.trans (hfolded.built hviewed.wellFormed)).trans h.built

/-- Whatever split a reduction of the buffer chooses, it stays inside the words: the tracker is tame, and
if there are no elements, the extents leave room for the inner half of an axis without coordinates. -/
structure Splittable (b : Buffer) : Prop where
  /-- The tracker is tame. -/
  tame : b.tracker.Tame
  /-- Cutting an axis keeps the elements, or the extents leave room. -/
  roomy : ∀ old, b.shape.static? = some old → 0 < old.prod ∨ 256 * breadth old < 2 ^ 63

theorem Splittable.exists_dims (h : b.Splittable) :
    ∃ old, b.shape.static? = some old ∧ breadth old < 2 ^ 63 := by
  obtain ⟨old, htop⟩ := h.tame.top
  exact ⟨old, htop.made.static?, htop.broad⟩

/-- The target of a reduction is no broader than the source. -/
theorem Splittable.folds (h : b.Splittable) (hfold : b.shape.FoldsTo target) :
    ∃ old new, b.shape.static? = some old ∧ target.static? = some new
      ∧ breadth old < 2 ^ 63 ∧ breadth new ≤ breadth old := by
  obtain ⟨old, hold, hle⟩ := h.exists_dims
  obtain ⟨new, hnew⟩ := hfold.exists_dims hold
  refine ⟨old, new, hold, hnew, hle, breadth_fold_le ?_⟩
  exact Shape.foldsTo_ofNats.mp (Shape.eq_ofNats hold ▸ Shape.eq_ofNats hnew ▸ hfold)

theorem Splittable.formable (h : b.Splittable) (hfold : b.shape.FoldsTo target) : target.Formable := by
  obtain ⟨old, new, -, hnew, hlt, hle⟩ := h.folds hfold
  exact Shape.formable_of_breadth hnew (by omega)

theorem sat_requireCountable {source : Shape} :
    Sat (requireCountable source target : Build α Unit) g
      (fun _ g' => g' = g ∧ source.CountsTo target)
      fun e g' => g' = g ∧ e = .movement .overflow
        ∧ ¬(source.countable = true ∧ target.countable = true) := by
  rw [requireCountable]
  split
  · next h =>
    refine ⟨rfl, .inr fun old new hold hnew => ?_⟩
    simp only [Bool.and_eq_true, Bool.or_eq_true, decide_eq_true_eq, Shape.elements?_eq hnew,
      Option.some.injEq] at h
    exact h.2.imp_right (Tracker.lt_of_countable hold)
  · next h =>
    refine ⟨rfl, rfl, ?_⟩
    rintro ⟨hsource, htarget⟩
    exact h (by rw [hsource, htarget, Bool.or_true]; rfl)

theorem Splittable.countable (h : b.Splittable) (hfold : b.shape.FoldsTo target) :
    b.shape.countable = true ∧ target.countable = true := by
  obtain ⟨old, new, hold, hnew, hlt, hle⟩ := h.folds hfold
  rw [Shape.eq_ofNats hold, Shape.eq_ofNats hnew]
  exact ⟨Shape.countable_of_breadth (by omega), Shape.countable_of_breadth (by omega)⟩

theorem sat_reduceTwice (hg : g.WellFormed W) (hb : W.Lists b) {old new : List Nat} {s : Split}
    (hold : b.shape.static? = some old) (hnew : target.static? = some new)
    (hfold : b.shape.FoldsTo target) (hs : s.Cuts old new) :
    Sat (b.reduceTwice op target old s : Build α Buffer) g
      (fun c g' => ∃ W', FoldedTwice W g b op target old s W' c g')
      fun e g' => e = .movement .overflow ∧ (∃ W', Halted W g b op W' g') ∧ ¬b.Splittable := by
  have hfold' := Shape.foldsTo_ofNats.mp (Shape.eq_ofNats hold ▸ Shape.eq_ofNats hnew ▸ hfold)
  -- cutting an axis keeps the number of elements
  have hsource : b.tracker.shape.elements? = some (s.dims old [s.divisor]).prod := by
    rw [hs.prod_cut]
    exact Shape.elements?_eq hold
  have hroomy (h : b.Splittable) : breadth (s.dims old [s.divisor]) < 2 ^ 63 := by
    obtain ⟨old', hold', hlt⟩ := h.exists_dims
    obtain rfl : old = old' := Option.some.inj (hold.symm.trans hold')
    have hle : breadth (s.dims old [s.divisor]) ≤ 2 ^ 63 - 1 :=
      hs.breadth_cut_le (by omega) ((h.roomy old hold).imp_right (by omega))
    omega
  rw [reduceTwice, sat_bind]
  refine (sat_move hg hb _).imp ?_ ?_
  rotate_left
  · rintro _ _ ⟨rfl, cause, hcause, rfl⟩
    obtain ⟨rfl, hfits⟩ :=
      Tracker.reshape_stopped hsource (Shape.elements?_ofNats (s.dims old [s.divisor])) hcause
    exact ⟨rfl, ⟨W, .views hg.viewed⟩, fun h => hfits (h.tame.reshapeFits (hroomy h))⟩
  rintro cut g₁ ⟨W₁, hviewed₁, hcut, hmoved₁⟩
  have hcutShape : cut.shape = s.shape old [s.divisor] := Tracker.shape_reshape hmoved₁.tracker
  have hinnerBreadth (h : b.Splittable) : breadth (s.dims old [1]) < 2 ^ 63 :=
    (breadth_fold_le (s.forall₂_inner old)).trans_lt (hroomy h)
  rw [sat_bind]
  refine (sat_reduceOnce hviewed₁.wellFormed hcut ?_).imp ?_ ?_
  · rw [hcutShape]
    exact Shape.foldsTo_ofNats.mpr (s.forall₂_inner old)
  rotate_left
  · rintro _ _ ⟨rfl, rfl, hformable⟩
    refine ⟨rfl, ⟨W₁, .views hviewed₁⟩, fun h => hformable ?_⟩
    exact Shape.formable_of_breadth (Shape.static?_ofNats _) (hinnerBreadth h)
  rintro inner g₂ ⟨W₂, hinner⟩
  have hbuilt := hviewed₁.built.trans (hinner.built hviewed₁.wellFormed)
  -- the inner pass leaves a unit axis that the reshape drops
  have hshape : inner.tracker.shape = s.shape old [1] := hinner.shape_eq
  have hsource : inner.tracker.shape.elements? = some (s.dims old []).prod := by
    rw [← s.prod_unit, hshape]
    exact Shape.elements?_ofNats _
  rw [sat_bind]
  refine (sat_move hbuilt.wellFormed (hinner.lists hcut) _).imp ?_ ?_
  rotate_left
  · rintro _ _ ⟨rfl, cause, hcause, rfl⟩
    obtain ⟨rfl, hfits⟩ :=
      Tracker.reshape_stopped hsource (Shape.elements?_ofNats (s.dims old [])) hcause
    refine ⟨rfl, ⟨W₂, .inner hold hs hviewed₁ hcut hmoved₁ hinner hbuilt.wellFormed.viewed⟩,
      fun h => hfits ?_⟩
    have hinnerTame : inner.tracker.Tame :=
      hinner.tame (h.tame.reshape (hroomy h) hmoved₁.tracker) (hinnerBreadth h)
    exact hinnerTame.reshapeFits (s.breadth_unit old ▸ hinnerBreadth h)
  rintro outer g₃ ⟨W₃, hviewed₃, houter, hmoved₃⟩
  have houterShape : outer.shape = s.shape old [] := Tracker.shape_reshape hmoved₃.tracker
  refine (sat_reduceOnce hviewed₃.wellFormed houter ?_).imp ?_ ?_
  · rw [houterShape, Shape.eq_ofNats hnew]
    exact Shape.foldsTo_ofNats.mpr (hs.forall₂_outer hfold')
  · rintro c g' ⟨W', hc⟩
    exact ⟨W', W₁, cut, g₁, W₂, inner, g₂, W₃, outer, g₃, ⟨hviewed₁, hcut, hmoved₁⟩, hinner,
      ⟨hviewed₃, houter, hmoved₃⟩, hc⟩
  · rintro _ _ ⟨rfl, rfl, hformable⟩
    exact ⟨rfl, ⟨W₃, .inner hold hs hviewed₁ hcut hmoved₁ hinner hviewed₃⟩,
      fun h => hformable (h.formable hfold)⟩

theorem FoldedTwice.built {old : List Nat} {s : Split} {W' : Census} {c : Buffer} {g' : Graph α}
    (h : FoldedTwice W g b op target old s W' c g') : Built W g W' g' := by
  obtain ⟨W₁, cut, g₁, W₂, inner, g₂, W₃, outer, g₃, ⟨h₁, -, -⟩, h₂, ⟨h₃, -, -⟩, h₄⟩ := h.passes
  exact ((h₁.built.trans (h₂.built h₁.wellFormed)).trans h₃.built).trans (h₄.built h₃.wellFormed)

theorem FoldedTwice.lists {old : List Nat} {s : Split} {W' : Census} {c : Buffer} {g' : Graph α}
    (h : FoldedTwice W g b op target old s W' c g') : W'.Lists c := by
  obtain ⟨W₁, cut, g₁, W₂, inner, g₂, W₃, outer, g₃, -, -, ⟨-, houter, -⟩, h₄⟩ := h.passes
  exact h₄.lists houter

/-- The outcome of a reduction: it folds in one pass, or in two where the policy chooses a split. -/
inductive Reduced (W : Census) (g : Graph α) (b : Buffer) (op : ReduceOp) (target : Shape) :
    Census → Buffer → Graph α → Prop
  /-- One pass will do. -/
  | once {W' : Census} {c : Buffer} {g' : Graph α} (h : Folded W g b op target W' c g')
    (hnone : target ≠ b.shape → ∀ old new, b.shape.static? = some old → target.static? = some new →
      b.config.split.choose old new b.tracker.axisStrides = none) : Reduced W g b op target W' c g'
  /-- An axis is cut. -/
  | twice {W' : Census} {c : Buffer} {g' : Graph α} {old new : List Nat} {s : Split}
    (hne : target ≠ b.shape) (hold : b.shape.static? = some old)
    (hnew : target.static? = some new)
    (hs : b.config.split.choose old new b.tracker.axisStrides = some s)
    (h : FoldedTwice W g b op target old s W' c g') : Reduced W g b op target W' c g'

theorem Reduced.built (hg : g.WellFormed W) {W' : Census} {c : Buffer} {g' : Graph α}
    (h : Reduced W g b op target W' c g') : Built W g W' g' := by
  cases h with
  | once h => exact h.built hg
  | twice _ _ _ _ h => exact h.built

theorem Reduced.lists (hb : W.Lists b) {W' : Census} {c : Buffer} {g' : Graph α}
    (h : Reduced W g b op target W' c g') : W'.Lists c := by
  cases h with
  | once h => exact h.lists hb
  | twice _ _ _ _ h => exact h.lists

theorem Reduced.shape_eq {W' : Census} {c : Buffer} {g' : Graph α}
    (h : Reduced W g b op target W' c g') : c.shape = target := by
  cases h with
  | once h => exact h.shape_eq
  | twice _ _ _ _ h =>
    obtain ⟨W₁, cut, g₁, W₂, inner, g₂, W₃, outer, g₃, -, -, -, hlast⟩ := h.passes
    exact hlast.shape_eq

/-- A reduction folds in one pass or in two, unless the target does not fit (it has another number of
axes, or an axis is neither kept nor folded), or a number leaves its word, which none does if the buffer
is splittable. -/
theorem sat_reduce (hg : g.WellFormed W) (hb : W.Lists b) (op : ReduceOp) (target : Shape) :
    Sat (b.reduce op target : Build α Buffer) g
      (fun c g' => b.shape.FoldsTo target ∧ b.shape.CountsTo target
        ∧ ∃ W', Reduced W g b op target W' c g')
      fun e g' => (e ≠ .movement .overflow ∧ g' = g ∧ ¬b.shape.FoldsTo target)
        ∨ e = .movement .overflow ∧ (∃ W', Halted W g b op W' g') ∧ ¬b.Splittable := by
  rw [reduce]
  split
  · next hrank =>
    rw [sat_bind, sat_throw]
    exact .inl ⟨nofun, rfl, fun h => hrank (List.Forall₂.length_eq h).symm⟩
  next hrank =>
  dsimp only
  split
  · next hextent =>
    rw [sat_bind, sat_throw]
    refine .inl ⟨nofun, rfl, fun h => ?_⟩
    obtain ⟨⟨d, e⟩, hmem, hne⟩ := List.any_eq_true.mp hextent
    have := (List.forall₂_iff_zip.mp h).2 hmem
    simp only [decide_not, Bool.and_eq_true, Bool.not_eq_true', decide_eq_false_iff_not] at hne
    exact this.elim hne.1 hne.2
  next hextent =>
  have hfold : b.shape.FoldsTo target := by
    refine List.forall₂_iff_zip.mpr ⟨(not_not.mp hrank).symm, ?_⟩
    intro d e hmem
    by_contra hne
    refine hextent (List.any_eq_true.mpr ⟨(d, e), hmem, ?_⟩)
    simpa [not_or] using hne
  split
  · next hsame => exact ⟨hfold, .inl hsame, W, .once (.same hsame) fun hne => absurd hsame hne⟩
  next hsame =>
  -- one pass, as no split is chosen or an extent is not known
  have honce (hcount : b.shape.CountsTo target)
      (hnone : ∀ old new, b.shape.static? = some old → target.static? = some new →
        b.config.split.choose old new b.tracker.axisStrides = none) :
      Sat (b.reduceOnce op target : Build α Buffer) g
        (fun c g' => b.shape.FoldsTo target ∧ b.shape.CountsTo target
          ∧ ∃ W', Reduced W g b op target W' c g')
        fun e g' => (e ≠ .movement .overflow ∧ g' = g ∧ ¬b.shape.FoldsTo target)
          ∨ e = .movement .overflow ∧ (∃ W', Halted W g b op W' g') ∧ ¬b.Splittable := by
    refine (sat_reduceOnce hg hb hfold).imp ?_ ?_
    · rintro c g' ⟨W', hc⟩
      exact ⟨hfold, hcount, W', .once hc fun _ => hnone⟩
    · rintro _ _ ⟨rfl, rfl, hformable⟩
      exact .inr ⟨rfl, ⟨W, .views hg.viewed⟩, fun h => hformable (h.formable hfold)⟩
  split
  · next old new hold hnew =>
    rw [sat_bind]
    refine sat_requireCountable.imp ?_ ?_
    rotate_left
    · rintro _ _ ⟨rfl, rfl, hcount⟩
      exact .inr ⟨rfl, ⟨W, .views hg.viewed⟩, fun h => hcount (h.countable hfold)⟩
    rintro _ _ ⟨rfl, hcount⟩
    split
    · next s hs =>
      refine (sat_reduceTwice hg hb hold hnew hfold (SplitPolicy.choose_eq_some hs)).imp ?_
        fun _ _ h => .inr h
      rintro c g' ⟨W', hc⟩
      exact ⟨hfold, hcount, W', .twice hsame hold hnew hs hc⟩
    · next hs =>
      refine honce hcount fun old' new' hold' hnew' => ?_
      obtain rfl : old = old' := Option.some.inj (hold.symm.trans hold')
      obtain rfl : new = new' := Option.some.inj (hnew.symm.trans hnew')
      exact hs
  · next hsymbolic =>
    exact honce (.inr fun old new hold hnew => absurd hnew (hsymbolic old new hold))
      fun old new hold hnew => absurd hnew (hsymbolic old new hold)

end Buffer

end TensorGraph
