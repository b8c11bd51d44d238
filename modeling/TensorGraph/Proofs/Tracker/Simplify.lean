import TensorGraph.Proofs.Tracker.Tame
/-!
# Merging views

A dense view on top of a stack looks positions up by their rank, so that it can be dropped where the
view below it has its shape, and given to that view where a reshape can express it. Merging goes on
until neither is possible, or is stopped where a number leaves its word. It is right because a reshape
of a single view keeps every place, up to the hidden single element that it unveils, and movements never
leave a view with one element below another one. A dense view that has a position whose rank is no
signed word has a single axis, and what lies below it cannot be given that shape.

- `Tracker.Proper.locate_simplify`: merging views keeps the places of ranks that are signed words.
- `Tracker.Tight.simplify_of_large`: nothing is merged into a view with more positions than that.
- `Tracker.Tame.simplifies`: merging tame views is not stopped.
- `Tracker.Reachable.simplify_faithful`: what merging does to the trackers that movements make.
-/

namespace TensorGraph.Tracker

variable {t : Tracker} {top : View} {below : List View} {dims : List Nat}

/-! ## Shape and height -/

theorem shape_merge (top : View) (below : List View) : (merge top below).shape = top.shape := by
  induction below generalizing top with
  | nil => rfl
  | cons v below ih =>
    rw [merge]
    split
    · rfl
    · split
      · next h => rw [ih, h]
      · split
        · next w hw => rw [ih, View.reshape?_shape hw]
        · rfl

theorem shape_simplify (t : Tracker) : t.simplify.shape = t.shape := shape_merge ..

theorem static?_simplify {t : Tracker} {dims : List Nat} (hs : t.shape.static? = some dims) :
    t.simplify.shape.static? = some dims := by
  rw [shape_simplify, hs]

theorem length_merge_le (top : View) (below : List View) :
    (merge top below).stack.length ≤ below.length + 1 := by
  induction below generalizing top with
  | nil => exact Nat.le_refl 1
  | cons v below ih =>
    have hle (w : View) : (merge w below).stack.length ≤ (v :: below).length + 1 :=
      (ih w).trans (Nat.le_succ _)
    rw [merge]
    split
    · exact Nat.le_refl _
    · split
      · exact hle v
      · split
        · next w _ => exact hle w
        · exact Nat.le_refl _

theorem length_simplify_le (t : Tracker) : t.simplify.stack.length ≤ t.stack.length :=
  length_merge_le ..

/-- A view that is not dense stays on top. -/
theorem merge_of_not_contiguous (below : List View) (h : top.contiguous = false) :
    merge top below = ⟨top, below⟩ := by
  cases below with
  | nil => rfl
  | cons v below => rw [merge, h]; rfl

/-- Merging goes on until nothing more can be merged. -/
theorem simplify_merge (top : View) (below : List View) :
    (merge top below).simplify = merge top below := by
  induction below generalizing top with
  | nil => rfl
  | cons v below ih =>
    cases htop : top.contiguous with
    | false =>
      rw [merge_of_not_contiguous _ htop]
      exact merge_of_not_contiguous _ htop
    | true =>
      by_cases hshape : top.shape = v.shape
      · have h : merge top (v :: below) = merge v below := by simp [merge, htop, hshape]
        rw [h, ih]
      · cases hreshape : v.reshape? top.shape with
        | some w =>
          have h : merge top (v :: below) = merge w below := by
            simp [merge, htop, hshape, hreshape]
          rw [h, ih]
        | none =>
          have h : merge top (v :: below) = ⟨top, v :: below⟩ := by
            simp [merge, htop, hshape, hreshape]
          rw [h]
          exact h

theorem simplify_simplify (t : Tracker) : t.simplify.simplify = t.simplify := simplify_merge ..

/-! ## Places -/

/-- A dense view on top of others looks a position up by its rank. -/
theorem locate_of_contiguous_top (below : List View) (hs : top.shape.static? = some dims)
    (htop : top.contiguous = true) {flat : Nat} (hflat : flat < dims.prod) (hword : flat < 2 ^ 64) :
    locate ⟨top, below⟩ flat = if flat < 2 ^ 63 then follow below flat else none := by
  rw [locate_eq (t := ⟨top, below⟩) hs]
  change (top.index _).bind (descend below) = _
  rw [View.index_of_contiguous hs htop hflat, Option.bind_some, descend_ofNat _ hword]

/-- Merging views keeps the place of a position that is visible or has neighbours. -/
theorem locate_merge (hproper : ∀ v ∈ below, v.Proper) (hs : top.shape.static? = some dims)
    {flat : Nat} (hflat : flat < dims.prod) (hword : flat < 2 ^ 63)
    (hsome : dims.prod ≠ 1 ∨ (locate ⟨top, below⟩ flat).isSome) :
    (merge top below).locate flat = locate ⟨top, below⟩ flat := by
  induction below generalizing top with
  | nil => rfl
  | cons v below ih =>
    obtain ⟨hv, hbelow⟩ := List.forall_mem_cons.mp hproper
    rw [merge]
    split
    · rfl
    next htop =>
    have htop : top.contiguous = true := by simpa using htop
    have hlocate := locate_of_contiguous_top (v :: below) hs htop hflat (by omega)
    rw [if_pos hword] at hlocate
    rw [hlocate] at hsome ⊢
    split
    · next hshape =>
      exact @ih v hbelow (hshape ▸ hs) hsome
    · split
      · next w hw =>
        obtain ⟨old, new, hold, hnew, hprod, -⟩ := View.reshape?_eq_some hw
        obtain rfl : dims = new := Option.some.inj (hs.symm.trans hnew)
        have hws : w.shape.static? = some dims := by rw [View.reshape?_shape hw, hs]
        have hv' := follow_cons hold below flat
        -- nothing is unveiled
        have hindex : w.index (unravel dims flat) = v.index (unravel old flat) := by
          rw [hv.index_reshape? hw hold hs hflat]
          rcases hsome with hne | hsome
          · rw [if_neg hne]
          rw [hv'] at hsome
          cases h : v.index (unravel old flat) with
          | none => simp [h] at hsome
          | some place => simp
        have hw' : locate ⟨w, below⟩ flat = follow (v :: below) flat := by
          rw [hv', ← hindex]
          exact locate_eq (t := ⟨w, below⟩) hws flat
        rw [← hw'] at hsome ⊢
        exact @ih w hbelow hws hsome
      · exact hlocate

/-- A view with one element is merged into nothing, as the views below it have other numbers of
elements. -/
theorem Proper.simplify_of_single (ht : t.Proper) (hone : t.shape.elements? = some 1) :
    t.simplify = t := by
  obtain ⟨top, below⟩ := t
  cases below with
  | nil => rfl
  | cons v below =>
    have hv := ht.several v List.mem_cons_self
    have htop : top.shape.elements? = some 1 := hone
    rw [simplify, merge]
    split
    · rfl
    · split
      · next hshape => exact absurd (hshape ▸ htop) hv
      · split
        · next w hw =>
          obtain ⟨old, new, hold, hnew, hprod, -⟩ := View.reshape?_eq_some hw
          rw [Shape.elements?_eq hnew] at htop
          exact absurd ((Shape.elements?_eq hold).trans (hprod ▸ htop)) hv
        · rfl

/-- Merging views keeps the place of every position whose rank is a signed word. -/
theorem Proper.locate_simplify (ht : t.Proper) (hs : t.shape.static? = some dims) {flat : Nat}
    (hflat : flat < dims.prod) (hword : flat < 2 ^ 63) :
    t.simplify.locate flat = t.locate flat := by
  by_cases hone : dims.prod = 1
  · rw [ht.simplify_of_single (hone ▸ Shape.elements?_eq hs)]
  · exact locate_merge (fun v hv => ht.views v (List.mem_cons_of_mem _ hv)) hs hflat hword
      (.inl hone)

/-! ## Stacks with many positions -/

theorem dropUnits_of_prod_one (h : dims.prod = 1) : dropUnits dims dims = [] := by
  refine List.eq_nil_iff_forall_not_mem.mpr fun n hn => ne_one_of_mem_dropUnits hn ?_
  exact Nat.eq_one_of_dvd_one (h ▸ List.dvd_prod (mem_of_mem_dropUnits hn))

/-- Where dense strides are found inside the words, a shape with more positions than signed words can
count has a single axis. -/
theorem dropUnits_of_denseFits (hfits : denseFits (dims.map .static) = true) (hlt : dims.prod < 2 ^ 64) :
    dims.prod < 2 ^ 63 ∨ dropUnits dims dims = [dims.prod] := by
  induction dims with
  | nil => exact .inl (by decide)
  | cons n dims ih =>
    rw [denseFits, List.map_cons, denseProducts] at hfits
    rw [List.prod_cons] at hlt ⊢
    by_cases hone : n = 1
    · subst hone
      rw [if_pos rfl] at hfits
      rw [Nat.one_mul] at hlt ⊢
      rw [dropUnits_one]
      exact ih hfits hlt
    rw [if_neg hone, List.all_cons, Bool.and_eq_true, denseStridesCount_snd] at hfits
    by_cases hunits : dims.prod = 1
    · rw [dropUnits_of_ne hone, dropUnits_of_prod_one hunits, hunits, Nat.mul_one]
      exact .inr rfl
    left
    by_cases hempty : n = 0 ∨ dims.prod = 0
    · rcases hempty with h | h
      · rw [h, Nat.zero_mul]
        decide
      · rw [h, Nat.mul_zero]
        decide
    -- both factors are words, and their product is one of the numbers on the way
    have hinner : 2 * dims.prod ≤ n * dims.prod := Nat.mul_le_mul_right _ (by omega)
    have houter : n * 2 ≤ n * dims.prod := Nat.mul_le_mul_left _ (by omega)
    have hproduct := hfits.1
    rw [Int64.toInt_ofNat_of_lt (by omega), residue_eq (by omega), fitsWord, decide_eq_true_eq]
      at hproduct
    rw [Nat.mul_comm]
    omega

/-- A view can be reshaped where only unit axes come and go. -/
theorem reshape?_ne_none_of_dropUnits {v : View} {target : Shape} {old new : List Nat}
    (hold : v.shape.static? = some old) (hnew : target.static? = some new)
    (hunits : dropUnits old old = dropUnits new new) : v.reshape? target ≠ none := by
  have hprod : old.prod = new.prod := by rw [← prod_dropUnits old, hunits, prod_dropUnits]
  simp only [View.reshape?, hold, hnew, Option.bind_eq_bind, Option.bind_some, hprod, ne_eq,
    not_true_eq_false, if_false, hunits]
  split <;> simp

/-- Whether a view can be reshaped depends on the extents of the new shape that are no units. -/
theorem reshape?_eq_none_of_dropUnits {v : View} {target target' : Shape} {old new new' : List Nat}
    (hold : v.shape.static? = some old) (hnew : target.static? = some new)
    (hnew' : target'.static? = some new') (hunits : dropUnits new' new' = dropUnits new new)
    (h : v.reshape? target = none) : v.reshape? target' = none := by
  have hprod : new'.prod = new.prod := by rw [← prod_dropUnits new', hunits, prod_dropUnits]
  simp only [View.reshape?, hold, hnew, hnew', hprod, hunits, Option.bind_eq_bind,
    Option.bind_some] at h ⊢
  split_ifs at h ⊢ with hcount hdense hsame hmask
  · rfl
  · rfl
  · cases hmerge : mergeStrides (List.zipWith Axis.mk (dropUnits old old) (dropUnits old v.strides))
        (dropUnits new new) with
    | none => rfl
    | some strides => simp [hmerge] at h

/-- The view has been left behind by a dense one: its elements are counted, and if there are more of them
than signed words can count, no dense view takes its place. -/
def Sealed (v : View) : Prop :=
  ∀ old, v.shape.static? = some old → old.prod < 2 ^ 64 ∧ ∀ target new, target.static? = some new →
    new.prod = old.prod → 2 ^ 63 ≤ new.prod → denseFits target.dims = true →
      target ≠ v.shape ∧ v.reshape? target = none

/-- The views of a stack were made inside the words, and those below the topmost one are sealed. -/
structure Tight (t : Tracker) : Prop where
  /-- A topmost view that stands on others was made inside the words. -/
  top : t.below = [] ∨ t.top.formable = true
  /-- The views below it were left behind. -/
  below : ∀ v ∈ t.below, Sealed v

theorem prod_lt_of_runningProducts {start : Nat} {ns : List Nat} (hstart : start < 2 ^ 64)
    (h : (runningProducts start ns).all fitsCount = true) : start * ns.prod < 2 ^ 64 := by
  induction ns generalizing start with
  | nil => simpa using hstart
  | cons n ns ih =>
    rw [runningProducts, List.all_cons, Bool.and_eq_true, fitsCount, decide_eq_true_eq] at h
    rw [List.prod_cons, ← Nat.mul_assoc]
    exact ih h.1 h.2

theorem lt_of_countable {shape : Shape} {new : List Nat} (hnew : shape.static? = some new)
    (h : shape.countable = true) : new.prod < 2 ^ 64 := by
  obtain rfl := Shape.eq_ofNats hnew
  rw [Shape.countable, Shape.leading_ofNats] at h
  simpa using prod_lt_of_runningProducts (by decide) h

/-- The elements are counted before another shape is given to them. -/
theorem prod_lt_of_reshape {t t' : Tracker} {target : Shape} {old : List Nat}
    (h : t.reshape target = .ok t') (hne : target ≠ t.shape) (hold : t.shape.static? = some old) :
    old.prod < 2 ^ 64 := by
  rcases reshape_eq_ok.mp h with ⟨hsame, -⟩ | ⟨-, ⟨n, hsource, htarget⟩, hfits, -⟩
  · exact absurd hsame hne
  · exact lt_of_countable hold (countable_of_reshapeFits hsource htarget hfits.1).1

theorem denseFits_of_formable {shape : Shape} (h : (View.ofShape shape).formable = true) :
    denseFits shape.dims = true := by
  rw [View.ofShape_eq, View.formable] at h
  simpa using h

/-- Pushing a dense view seals the view below it. -/
theorem sealed_of_push {v : View} {target : Shape} {n : Nat} (hsource : v.shape.elements? = some n)
    (htarget : target.elements? = some n)
    (hfits : v.reshapeFits target = true) (hformable : (View.ofShape target).formable = true)
    (hnone : v.reshape? target = none) : Sealed v := by
  intro old hold
  obtain ⟨new, hnew, rfl⟩ := Shape.static?_of_elements? htarget
  have hcount : old.prod = new.prod :=
    Option.some.inj ((Shape.elements?_eq hold).symm.trans hsource)
  have hlt := lt_of_countable hold (countable_of_reshapeFits hsource htarget hfits).1
  refine ⟨hlt, fun target' new' hnew' hprod hlarge hdense => ?_⟩
  -- both shapes have a single axis
  have hsingle {shape : Shape} {dims : List Nat} (hs : shape.static? = some dims)
      (hdense : denseFits shape.dims = true) (hdims : dims.prod = old.prod) :
      dropUnits dims dims = [old.prod] := by
    obtain rfl := Shape.eq_ofNats hs
    rw [← hdims]
    exact (dropUnits_of_denseFits hdense (by omega)).resolve_left (by omega)
  have hunits := hsingle hnew (denseFits_of_formable hformable) hcount.symm
  have hunits' := hsingle hnew' hdense hprod
  refine ⟨fun hsame => ?_,
    reshape?_eq_none_of_dropUnits hold hnew hnew' (hunits'.trans hunits.symm) hnone⟩
  -- a view with that single axis could have been reshaped
  obtain rfl : new' = old := Option.some.inj (hnew'.symm.trans (hsame ▸ hold))
  exact reshape?_ne_none_of_dropUnits hold hnew (hunits'.trans hunits.symm) hnone

/-- A movement other than a reshape makes its view inside the words, or changes nothing. -/
theorem formable_of_move {m : Movement} (hm : ∀ target, m ≠ .reshape target) {t' : Tracker}
    (h : t.move m = .ok t') : t'.below = t.below ∧ (t' = t ∨ t'.top.formable = true) := by
  cases m with
  | reshape target => exact absurd rfl (hm target)
  | permute axes =>
    obtain ⟨w, hw, rfl⟩ := map_setTop_eq_ok.mp h
    obtain ⟨-, -, -, hformable, rfl⟩ := View.permute_eq_ok.mp hw
    exact ⟨rfl, .inr hformable⟩
  | expand target =>
    obtain ⟨w, hw, rfl⟩ := map_setTop_eq_ok.mp h
    obtain ⟨-, spans, -, hformable, rfl⟩ := View.expand_eq_ok.mp hw
    exact ⟨rfl, .inr hformable⟩
  | shrink windows =>
    obtain ⟨w, hw, rfl⟩ := map_setTop_eq_ok.mp h
    obtain ⟨-, dims, -, -, -, hformable, rfl⟩ := View.shrink_eq_ok.mp hw
    exact ⟨rfl, .inr hformable⟩
  | stride factors =>
    obtain ⟨w, hw, rfl⟩ := map_setTop_eq_ok.mp h
    obtain ⟨-, -, dims, -, -, hformable, rfl⟩ := View.stride_eq_ok.mp hw
    exact ⟨rfl, .inr hformable⟩
  | pad margins =>
    obtain ⟨w, hw, rfl⟩ := map_setTop_eq_ok.mp h
    obtain ⟨-, dims, -, hfits, rfl⟩ := View.pad_eq_ok.mp hw
    refine ⟨rfl, ?_⟩
    split at hfits
    · next hall =>
      rw [if_pos hall]
      exact .inl rfl
    · next hall =>
      rw [if_neg hall]
      exact .inr (hfits hall).2.2

theorem Tight.move (ht : t.Tight) {m : Movement} {t' : Tracker} (h : t.move m = .ok t') : t'.Tight := by
  by_cases hm : ∃ target, m = .reshape target
  · obtain ⟨target, rfl⟩ := hm
    rcases reshape_eq_ok.mp h with ⟨-, rfl⟩ | ⟨-, ⟨n, hsource, htarget⟩, ⟨hfits, hformable⟩, hcases⟩
    · exact ht
    rcases hcases with ⟨top, htop, rfl⟩ | ⟨hnone, rfl⟩
    · refine ⟨.inr ?_, ht.below⟩
      exact formable_of_reshape hfits htop
    · exact ⟨.inr (hformable hnone), List.forall_mem_cons.mpr
        ⟨sealed_of_push hsource htarget hfits (hformable hnone) hnone, ht.below⟩⟩
  · obtain ⟨hbelow, rfl | hformable⟩ := formable_of_move (fun target h => hm ⟨target, h⟩) h
    · exact ht
    · exact ⟨.inr hformable, hbelow ▸ ht.below⟩

theorem Reachable.tight (ht : t.Reachable) : t.Tight := by
  induction ht with
  | ofShape => exact ⟨.inl rfl, nofun⟩
  | move m _ h ih => exact ih.move h

/-- Nothing is merged into a view with more positions than signed words can count. -/
theorem Tight.simplify_of_large (ht : t.Tight) (hs : t.shape.static? = some dims)
    (hlarge : 2 ^ 63 ≤ dims.prod) : t.simplify = t := by
  obtain ⟨top, below⟩ := t
  cases below with
  | nil => rfl
  | cons v below =>
    rw [simplify, merge]
    split
    · rfl
    next hdense =>
    have htop : top.contiguous = true := by simpa using hdense
    have hs : top.shape.static? = some dims := hs
    have hformable : denseFits top.shape.dims = true := by
      have := ht.top.resolve_left (List.cons_ne_nil _ _)
      rw [show (Tracker.mk top (v :: below)).top = top from rfl, View.eq_ofShape htop] at this
      exact denseFits_of_formable this
    have hsealed := ht.below v List.mem_cons_self
    have hapart : top.shape ≠ v.shape ∧ v.reshape? top.shape = none := by
      by_cases hsame : v.shape.elements? = some dims.prod
      · obtain ⟨old, hold, hprod⟩ := Shape.static?_of_elements? hsame
        exact (hsealed old hold).2 top.shape dims hs hprod.symm hlarge hformable
      · refine ⟨fun h => hsame (h ▸ Shape.elements?_eq hs), ?_⟩
        refine Option.eq_none_iff_forall_ne_some.mpr fun w hw => hsame ?_
        obtain ⟨old, new, hold, hnew, hprod, -⟩ := View.reshape?_eq_some hw
        obtain rfl : dims = new := Option.some.inj (hs.symm.trans hnew)
        rw [Shape.elements?_eq hold, hprod]
    rw [if_neg hapart.1, hapart.2]

/-! ## Inside the words -/

/-- What was merged inside the words can be merged again. -/
theorem simplifies_merge (top : View) (below : List View) (h : mergeFits top below = true) :
    (merge top below).simplifies = true := by
  induction below generalizing top with
  | nil => rfl
  | cons v below ih =>
    have hfits := h
    rw [mergeFits] at h
    rw [merge]
    split
    · exact hfits
    next hdense =>
    rw [if_neg hdense] at h
    split
    · next hshape =>
      rw [if_pos hshape] at h
      exact ih v h
    · next hshape =>
      rw [if_neg hshape, Bool.and_eq_true] at h
      cases hreshape : v.reshape? top.shape with
      | none => exact hfits
      | some w =>
        rw [hreshape] at h
        exact ih w h.2

/-- Merging tame views is not stopped, and gives tame ones. -/
theorem merge_tame (hstack : ∀ v ∈ top :: below, ∃ dims, v.Tame dims) :
    mergeFits top below = true ∧ (merge top below).Tame := by
  induction below generalizing top with
  | nil => exact ⟨rfl, hstack⟩
  | cons v below ih =>
    obtain ⟨⟨new, htop⟩, ⟨old, hv⟩, hbelow⟩ := by
      simpa only [List.forall_mem_cons] using hstack
    rw [mergeFits, merge]
    split
    · exact ⟨rfl, hstack⟩
    split
    · exact ih (List.forall_mem_cons.mpr ⟨⟨old, hv⟩, hbelow⟩)
    · rw [htop.made.shape, hv.reshapeFits htop.broad, Bool.true_and]
      cases hreshape : v.reshape? (.ofNats new) with
      | none => exact ⟨rfl, hstack⟩
      | some w =>
        exact ih (List.forall_mem_cons.mpr ⟨⟨new, hv.reshape? htop.broad hreshape⟩, hbelow⟩)

theorem Tame.simplifies (ht : t.Tame) : t.simplifies = true := (merge_tame ht).1

theorem Tame.simplify (ht : t.Tame) : t.simplify.Tame := (merge_tame ht).2

theorem simplified_eq_ok {t' : Tracker} :
    t.simplified = .ok t' ↔ t.simplifies = true ∧ t.simplify = t' := by
  rw [simplified]
  split <;> simp [*]

/-! ## Trackers that movements make -/

/-- Merging the views of a tracker, if it is not stopped, keeps the shape, adds no view and leaves nothing
to merge, and every position finds what it found. It is not stopped where the base and all views are
moderate. -/
theorem Reachable.simplify_faithful (ht : t.Reachable) :
    (t.simplified = .error .overflow ∨ ∃ t', t.simplified = .ok t'
      ∧ t'.shape = t.shape
      ∧ t'.stack.length ≤ t.stack.length
      ∧ t'.simplified = .ok t'
      ∧ ∀ n, t.shape.elements? = some n → ∀ flat : UInt64, flat.toNat < n →
          t'.locate flat.toNat = t.locate flat.toNat)
    ∧ (∀ shape, t.Over shape → shape.Moderate → t.Moderate → ∃ t', t.simplified = .ok t')
    ∧ ∀ u : Tracker, u.Near → ∀ flat, u.lookup flat = .ok (u.locate flat) := by
  refine ⟨?_, fun shape hover hshape hstack => ?_, fun u hu flat => lookup_of_near hu flat⟩
  · by_cases hfits : t.simplifies = true
    · refine .inr ⟨t.simplify, simplified_eq_ok.mpr ⟨hfits, rfl⟩, shape_simplify t,
        length_simplify_le t,
        simplified_eq_ok.mpr ⟨simplifies_merge _ _ hfits, simplify_simplify t⟩, fun n hn flat hflat => ?_⟩
      obtain ⟨dims, hs, rfl⟩ := Shape.static?_of_elements? hn
      by_cases hlarge : 2 ^ 63 ≤ dims.prod
      · rw [ht.tight.simplify_of_large hs hlarge]
      · exact ht.proper.locate_simplify hs hflat (by omega)
    · exact .inl (if_neg hfits)
  · exact ⟨_, simplified_eq_ok.mpr ⟨(hover.tame hshape hstack).simplifies, rfl⟩⟩

/-- The transpose of two rows of three, counted through and arranged in its own extents again. -/
def recounted : Tracker := ⟨.ofShape (.ofNats [3, 2]), [⟨.ofNats [3, 2], [1, 3], 0, none⟩]⟩

theorem recounted_over : recounted.Over (.ofNats [2, 3]) :=
  have hturned : Over (.ofNats [2, 3]) ⟨⟨.ofNats [3, 2], [1, 3], 0, none⟩, []⟩ :=
    .move (.permute [1, 0]) .ofShape rfl
  have hcounted : Over (.ofNats [2, 3])
      ⟨.ofShape (.ofNats [6]), [⟨.ofNats [3, 2], [1, 3], 0, none⟩]⟩ :=
    .move (.reshape (.ofNats [6])) hturned (by decide +kernel)
  .move (.reshape (.ofNats [3, 2])) hcounted (by decide +kernel)

theorem simplify_faithful_recounted :
    recounted.Reachable ∧ ∃ t', recounted.simplified = .ok t'
      ∧ t' = ⟨⟨.ofNats [3, 2], [1, 3], 0, none⟩, []⟩ ∧ t'.simplified = .ok t'
      ∧ ∀ n, recounted.shape.elements? = some n → ∀ flat : UInt64, flat.toNat < n →
          t'.locate flat.toNat = recounted.locate flat.toNat := by
  have hreachable := recounted_over.reachable rfl
  obtain ⟨hcases, hample, -⟩ := hreachable.simplify_faithful
  have hmoderate : recounted.Moderate := by
    intro v hv
    refine ⟨[3, 2], ?_, by decide⟩
    rcases List.mem_cons.mp hv with rfl | hv
    · rfl
    · obtain rfl := List.mem_singleton.mp hv
      rfl
  obtain ⟨t', ht'⟩ := hample _ recounted_over ⟨[2, 3], rfl, by decide⟩ hmoderate
  rcases hcases with hstopped | ⟨t'', ht'', -, -, hagain, hlocate⟩
  · cases ht'.symm.trans hstopped
  · exact ⟨hreachable, t'', ht'', (simplified_eq_ok.mp ht'').2.symm, hagain, hlocate⟩

/-- Two pairs far apart from each other, given out twice, counted through by fours and then by twos. -/
def recountedPairs : Tracker :=
  ⟨.ofShape (.ofNats [4, 2]), [⟨.ofNats [2, 2, 2], [0, 2 ^ 62, 1], 0, none⟩]⟩

theorem recountedPairs_reachable : recountedPairs.Reachable :=
  have hstore : (Shape.ofNats [2 ^ 62 + 2]).isStatic = true := rfl
  have hrows : Reachable ⟨⟨.ofNats [2 ^ 61 + 1, 2], [2, 1], 0, none⟩, []⟩ :=
    .move (.reshape (.ofNats [2 ^ 61 + 1, 2])) (.ofShape hstore) (by decide +kernel)
  have hpairs : Reachable ⟨⟨.ofNats [2, 2], [2 ^ 62, 1], 0, none⟩, []⟩ :=
    .move (.stride [2 ^ 61, 1]) hrows (by decide +kernel)
  have hgroup : Reachable ⟨⟨.ofNats [1, 2, 2], [0, 2 ^ 62, 1], 0, none⟩, []⟩ :=
    .move (.reshape (.ofNats [1, 2, 2])) hpairs (by decide +kernel)
  have hgroups : Reachable ⟨⟨.ofNats [2, 2, 2], [0, 2 ^ 62, 1], 0, none⟩, []⟩ :=
    .move (.expand (.ofNats [2, 2, 2])) hgroup (by decide +kernel)
  have hfours : Reachable
      ⟨.ofShape (.ofNats [2, 4]), [⟨.ofNats [2, 2, 2], [0, 2 ^ 62, 1], 0, none⟩]⟩ :=
    .move (.reshape (.ofNats [2, 4])) hgroups (by decide +kernel)
  .move (.reshape (.ofNats [4, 2])) hfours (by decide +kernel)

/-- Merging may be stopped: the strides of pairs that are far apart cannot be compared. -/
theorem simplify_overflows : ∃ t : Tracker, t.Reachable ∧ t.simplified = .error .overflow :=
  ⟨recountedPairs, recountedPairs_reachable, by decide +kernel⟩

end TensorGraph.Tracker
