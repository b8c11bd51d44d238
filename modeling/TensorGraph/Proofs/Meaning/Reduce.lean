import TensorGraph.Proofs.Meaning.Build
/-!
# Constants and reductions mean the reference

A reduction in two passes cuts an axis, and each pass means what the reference does in that pass.

- `Buffer.shows_constant`: a scalar repeated to a shape.
- `Buffer.Folded.shows`, `Buffer.FoldedTwice.shows`: one pass and two.
- `Buffer.shows_reduce`: a reduction.
-/

namespace TensorGraph

open TensorGraph.Graph

variable {α : Type} [Lane α] [LawfulLane α] {devices : Registry α} {fixed : Nat → Prop}
  {W W' : Census} {v : Valuation α} {g g' : Graph α} {b c : Buffer} {t : Tensor α}

/-! ## Constants -/

/-- A scalar load shows its scalar. -/
theorem Graph.Meaningful.shows_scalar (fixed : Nat → Prop) (h : Meaningful devices (W, v) g)
    {value : α} {dtype : DType} {device : String} {config : Config}
    (hadded : Added W g (.node (.load .const) (.scalar value) none []) .scalar dtype device config W'
      b g') (hserved : devices.Serves device) :
    ∃ v', Progress devices fixed (W, v) g (W', v') g'
      ∧ b.Shows v' (.stored config ⟨[], dtype, fun _ => Lane.round dtype value⟩) := by
  obtain ⟨v', hprogress, -, hb⟩ := h.shows_added fixed
    (x := ⟨[], dtype, fun _ => Lane.round dtype value⟩) (l := fun _ => Lane.round dtype value)
    hadded (by simp) hserved (by simp) (fun _ _ => rfl) (fun _ => LawfulLane.round_round ..)
    (.const rfl fun i => update_lane ..)
  exact ⟨v', hprogress, hb⟩

theorem Buffer.shows_constant (h : Meaningful devices (W, v) g) (value : α) {shape : Shape}
    (hshape : shape.isStatic = true) (dtype : DType) {device : String}
    (hserved : devices.Serves device) (config : Config)
    (hsmall : Tensor.Small (Tensor.constant value shape dtype config)) :
    Build.Shows devices fixed (W, v) g (constant value shape dtype device config)
      (Tensor.constant value shape dtype config) := by
  refine (sat_constant h.1 ..).imp ?_ ?_
  rotate_left
  · rintro _ g' ⟨-, -, W₁, b, g₁, W', hadded, hviewed⟩
    obtain ⟨v', hprogress, -⟩ := h.shows_scalar fixed hadded hserved
    exact ⟨trivial, (W', v'), hprogress.trans (hprogress.meaningful.viewed hviewed)⟩
  rintro c g' ⟨W₁, b, g₁, W', hadded, hviewed, hc, hbase, htracker⟩
  obtain ⟨v', hprogress, hb⟩ := h.shows_scalar fixed hadded hserved
  have hunits : b.Moved (.reshape shape.units) ⟨b.id, .ofShape shape.units, b.base⟩ := by
    refine ⟨rfl, ?_⟩
    rw [hadded.buffer_eq]
    exact Tracker.reshape_units shape
  obtain ⟨ones, hones, -, -, hshows⟩ := hb.reshaped (Shape.static?_ofNats _) hunits
  have hconstant : Tensor.constant value shape dtype config = ones.move (.expand shape) := by
    rw [Tensor.constant]
    exact congrArg (Option.bind · fun ones => ones.move (.expand shape)) hones
  rw [hconstant] at hsmall ⊢
  have hunmasked : ones.Unmasked := by
    rw [Tensor.Unmasked, ← hshows.layout]
    exact Tracker.bare_ofShape _
  obtain ⟨t, ht, hshows⟩ := hshows.moved (m := .expand shape) hunmasked hshape ⟨hbase, htracker⟩ hsmall
  exact ⟨(W', v'), hprogress.trans (hprogress.meaningful.viewed hviewed), hc, t, ht, hshows⟩

/-! ## One pass -/

/-- A reduction in one pass shows what the reference makes of one pass. -/
theorem Buffer.Folded.shows (fixed : Nat → Prop) (h : Meaningful devices (W, v) g)
    (hb : W.Lists b) (hshows : b.Shows v t) {op : ReduceOp} {target : Shape} {new : List Nat}
    (hnew : target.static? = some new) (hle : new.prod ≤ 2 ^ 63) (hfold : b.shape.FoldsTo target)
    (hfolded : Folded W g b op target W' c g') :
    ∃ v', Progress devices fixed (W, v) g (W', v') g' ∧ W'.Lists c
      ∧ c.Shows v' (t.reduceOnce op new) := by
  have hold := hshows.into.shape
  rw [Tensor.reduceOnce]
  cases hfolded with
  | same hsame =>
    obtain rfl : new = t.dims := by
      rw [hsame, hold] at hnew
      exact (Option.some.inj hnew).symm
    rw [if_pos rfl]
    exact ⟨v, h.refl, hb, hshows⟩
  | added hne hadded =>
    have hne' : new ≠ t.dims := by
      rintro rfl
      exact hne ((Shape.eq_ofNats hnew).trans (Shape.eq_ofNats hold).symm)
    have hfold' : List.Forall₂ (fun n m => n = m ∨ m = 1) t.dims new :=
      Shape.foldsTo_ofNats.mp (Shape.eq_ofNats hold ▸ Shape.eq_ofNats hnew ▸ hfold)
    have hmatches : Dense.Matches new.prod
        ((Tree.node (.reduce op) (.shape (.ofNats new)) none [.buffer b]).dense v)
        (.reduce op new t.dense) := by
      have hnode : (Tree.node (.reduce op) (.shape (.ofNats new)) none [.buffer b]).dense v
          = .reduce op new (b.dense v) := by
        rw [Tree.dense_node, List.map_singleton, Tree.dense_buffer, Dense.node,
          Shape.static?_ofNats, Option.getD_some]
      rw [hnode]
      exact Dense.matches_reduce hfold'.length_eq (hshows.into.dims_dense v) rfl hshows.lanes op
    rw [if_neg hne']
    have hdtype : b.dtype = t.dense.dtype := hshows.lanes.dtype
    rw [Shape.eq_ofNats hnew, hdtype, hshows.config] at hadded
    exact h.shows_computed fixed (x := .reduce op new t.dense) hadded hle (h.served hb)
      (by simpa using ⟨_, hshows.into⟩) rfl rfl hmatches

/-! ## Two passes -/

/-- The first pass shows what the reference makes of it: an axis is cut, and the groups are folded. -/
theorem Buffer.Folded.shows_inner (fixed : Nat → Prop) (h : Meaningful devices (W, v) g)
    (hshows : b.Shows v t)
    {op : ReduceOp} {new : List Nat} {s : Split} (hs : s.Cuts t.dims new) {W₁ W₂ : Census}
    {cut inner : Buffer} {g₁ g₂ : Graph α} (hviewed : Viewed W g W₁ g₁) (hcut : W₁.Lists cut)
    (hmoved : b.Moved (.reshape (s.shape t.dims [s.divisor])) cut)
    (hinner : Folded W₁ g₁ cut op (s.shape t.dims [1]) W₂ inner g₂) :
    ∃ v₂ t₁, Progress devices fixed (W, v) g (W₂, v₂) g₂
      ∧ t.move (.reshape (s.shape t.dims [s.divisor])) = some t₁
      ∧ inner.Shows v₂ (t₁.reduceOnce op (s.dims t.dims [1])) := by
  have hle : (s.dims t.dims [1]).prod ≤ 2 ^ 63 := by
    obtain ⟨n, -, ht⟩ := hshows.into
    exact Nat.le_trans hs.prod_inner_le ht.addressable
  have hprogress : Progress devices fixed (W, v) g (W₁, v) g₁ := h.viewed hviewed
  obtain ⟨t₁, ht₁, hdims, -, hshows₁⟩ := hshows.reshaped (Shape.static?_ofNats _) hmoved
  have hfold : cut.shape.FoldsTo (s.shape t.dims [1]) := by
    rw [Shape.eq_ofNats hshows₁.into.shape, hdims]
    exact Shape.foldsTo_ofNats.mpr (s.forall₂_inner t.dims)
  obtain ⟨v₂, hprogress₂, -, hshows₂⟩ := hinner.shows fixed hprogress.meaningful hcut
    hshows₁ (Shape.static?_ofNats _) hle hfold
  exact ⟨v₂, t₁, hprogress.trans hprogress₂, ht₁, hshows₂⟩

/-- What a reduction that is stopped leaves behind means something. -/
theorem Buffer.Halted.meaning (h : Meaningful devices (W, v) g) (hshows : b.Shows v t)
    {op : ReduceOp} (hhalted : b.Halted W g op W' g') :
    ∃ v', Progress devices fixed (W, v) g (W', v') g' := by
  cases hhalted with
  | views hviewed => exact ⟨v, h.viewed hviewed⟩
  | inner hold hs hviewed hcut hmoved hinner hviewed' =>
    obtain rfl := Option.some.inj (hold.symm.trans hshows.into.shape)
    obtain ⟨v₂, -, hprogress, -⟩ := hinner.shows_inner fixed h hshows hs hviewed hcut hmoved
    exact ⟨v₂, hprogress.trans (hprogress.meaningful.viewed hviewed')⟩

theorem Buffer.FoldedTwice.shows (h : Meaningful devices (W, v) g) (hshows : b.Shows v t)
    {op : ReduceOp} {target : Shape} {new : List Nat} {s : Split}
    (hnew : target.static? = some new) (hle : new.prod ≤ 2 ^ 63) (hfold : b.shape.FoldsTo target)
    (hs : s.Cuts t.dims new) (hfolded : FoldedTwice W g b op target t.dims s W' c g') :
    ∃ v', Progress devices fixed (W, v) g (W', v') g' ∧ W'.Lists c
      ∧ ∃ r, t.reduceTwice op new s = some r ∧ c.Shows v' r := by
  obtain ⟨W₁, cut, g₁, W₂, inner, g₂, W₃, outer, g₃, ⟨hviewed₁, hcut, hmoved₁⟩, hinner,
    ⟨hviewed₃, houter, hmoved₃⟩, hlast⟩ := hfolded.passes
  have hfold' : List.Forall₂ (fun n m => n = m ∨ m = 1) t.dims new :=
    Shape.foldsTo_ofNats.mp (Shape.eq_ofNats hshows.into.shape ▸ Shape.eq_ofNats hnew ▸ hfold)
  -- the axis is cut, and the groups are folded
  obtain ⟨v₂, t₁, hprogress₂, ht₁, hshows₂⟩ :=
    hinner.shows_inner fixed h hshows hs hviewed₁ hcut hmoved₁
  -- the unit axis that is left is dropped
  have hprogress₃ : Progress devices fixed (W₂, v₂) g₂ (W₃, v₂) g₃ :=
    hprogress₂.meaningful.viewed hviewed₃
  obtain ⟨t₃, ht₃, hdims₃, -, hshows₃⟩ := hshows₂.reshaped (Shape.static?_ofNats _) hmoved₃
  -- the results of the groups are folded
  have houterFold : outer.shape.FoldsTo target := by
    rw [Shape.eq_ofNats hshows₃.into.shape, hdims₃, Shape.eq_ofNats hnew]
    exact Shape.foldsTo_ofNats.mpr (hs.forall₂_outer hfold')
  obtain ⟨v', hprogress', hlist, hc⟩ := hlast.shows fixed hprogress₃.meaningful houter
    hshows₃ hnew hle houterFold
  refine ⟨v', (hprogress₂.trans hprogress₃).trans hprogress', hlist, _, ?_, hc⟩
  rw [Tensor.reduceTwice, ht₁]
  change (Tensor.move _ _ >>= _) = _
  rw [Split.shape, ht₃]
  rfl

/-! ## Reductions -/

/-- A reduction shows what the reference makes of it, unless the shape does not fit or the reduction is
stopped. -/
theorem Buffer.keeps_reduce (h : Meaningful devices (W, v) g) (hb : W.Lists b)
    (hshows : b.Shows v t) (op : ReduceOp) {target : Shape} {new : List Nat}
    (hnew : target.static? = some new) (hsmall : new.prod ≤ 2 ^ 63) :
    (meaning devices fixed).Keeps (W, v) g (b.reduce op target)
      (fun c w' _ => w'.1.Lists c ∧ ∃ r, t.reduce op new = some r ∧ c.Shows w'.2 r)
      fun e => e = .movement .overflow ∨ ¬b.shape.FoldsTo target := by
  have hold := hshows.into.shape
  have hsame : target = b.shape ↔ new = t.dims := by
    rw [Shape.eq_ofNats hnew, Shape.eq_ofNats hold]
    exact ⟨fun h => by simpa using congrArg Shape.static? h, congrArg Shape.ofNats⟩
  refine (sat_reduce h.1 hb op target).imp ?_ ?_
  · rintro c g' ⟨hfold, -, W', hreduced⟩
    rw [Tensor.reduce]
    cases hreduced with
    | once hfolded hnone =>
      obtain ⟨v', hprogress, hlist, hc⟩ := hfolded.shows fixed h hb hshows hnew hsmall hfold
      refine ⟨(W', v'), hprogress, hlist, _, ?_, hc⟩
      split
      · next heq => rw [Tensor.reduceOnce, if_pos heq]
      · next hne =>
        have hchoose := hnone (mt hsame.mp hne) _ _ hold hnew
        rw [hshows.config, hshows.layout] at hchoose
        rw [hchoose]
    | twice hne hold' hnew' hs hfolded =>
      obtain rfl := Option.some.inj (hold.symm.trans hold')
      obtain rfl := Option.some.inj (hnew.symm.trans hnew')
      have hcuts := SplitPolicy.choose_eq_some hs
      obtain ⟨v', hprogress, hlist, r, hr, hc⟩ :=
        hfolded.shows h hshows hnew hsmall hfold hcuts
      rw [hshows.config, hshows.layout] at hs
      refine ⟨(W', v'), hprogress, hlist, r, ?_, hc⟩
      rw [if_neg (mt hsame.mpr hne), hs]
      exact hr
  · rintro e g' (⟨-, rfl, hrefused⟩ | ⟨hstopped, ⟨W', hhalted⟩, -⟩)
    · exact ⟨.inr hrefused, (W, v), h.refl⟩
    · obtain ⟨v', hprogress⟩ := hhalted.meaning h hshows
      exact ⟨.inl hstopped, (W', v'), hprogress⟩

theorem Buffer.shows_reduce (h : Meaningful devices (W, v) g) (hb : W.Lists b)
    (hshows : b.Shows v t) (op : ReduceOp) {target : Shape} {new : List Nat}
    (hnew : target.static? = some new) (hsmall : new.prod ≤ 2 ^ 63) :
    Build.Shows devices fixed (W, v) g (b.reduce op target) (t.reduce op new) :=
  Sat.imp (keeps_reduce h hb hshows op hnew hsmall) (fun _ _ h => h) fun _ _ h => ⟨trivial, h.2⟩

end TensorGraph
