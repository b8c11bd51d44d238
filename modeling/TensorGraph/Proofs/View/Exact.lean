import TensorGraph.Proofs.View.Proper
/-!
# Reshapes that need no copy

Old and new axes with equally many positions can be cut into runs, and old axes have the places of
some new axes with strides of their own only if every run of them walks the store with one stride.
So a reshape of a view without a mask finds a view wherever there is one.

- `alignRuns_isSome`: neither list of axes is used up before the other.
- `linear_of_growRun`: over the axes of one run, the places that both sides agree on are multiples
  of one distance.
- `View.Proper.reshape?_isSome_iff`: a view is reshaped exactly if some view has its places in row-major
  order.
-/

namespace TensorGraph

/-! ## Both lists of axes are used up together -/

/-- Runs that can still be balanced are lengthened until they are. -/
theorem growRun_isSome {old new : Nat} {axes : List Axis} {extents : List Nat}
    (h : old * (axes.map Axis.extent).prod = new * extents.prod) (hpos : 0 < new * extents.prod) :
    (growRun old new axes extents).isSome := by
  fun_induction growRun old new axes extents with
  | case1 => rfl
  | case2 old new axes hne hlt =>
    -- the old side would have to shrink to meet the new one
    have hle : old ≤ old * (axes.map Axis.extent).prod :=
      Nat.le_mul_of_pos_right _ (Nat.pos_of_mul_pos_left (h ▸ hpos))
    simp only [List.prod_nil, Nat.mul_one] at h
    omega
  | case3 old new axes hne hlt n extents ih =>
    rw [List.prod_cons, ← Nat.mul_assoc] at h hpos
    rw [Option.isSome_map]
    exact ih h hpos
  | case4 old new extents hne hge =>
    have hle : new ≤ new * extents.prod :=
      Nat.le_mul_of_pos_right _ (Nat.pos_of_mul_pos_left hpos)
    simp only [List.map_nil, List.prod_nil, Nat.mul_one] at h
    omega
  | case5 old new extents hne hge a axes ih =>
    rw [List.map_cons, List.prod_cons, ← Nat.mul_assoc] at h
    rw [Option.isSome_map]
    exact ih h hpos

/-- What a balanced run leaves of two balanced lists is balanced. -/
theorem growRun_rest {old new : Nat} {axes axes' : List Axis} {extents extents' : List Nat}
    {r : AxisRun} (hgrow : growRun old new axes extents = some (r, axes', extents'))
    (h : old * (axes.map Axis.extent).prod = new * extents.prod) (hpos : 0 < new * extents.prod) :
    (axes'.map Axis.extent).prod = extents'.prod := by
  obtain ⟨rfl, rfl, hrun⟩ := growRun_eq_some hgrow
  rw [List.prod_append, ← Nat.mul_assoc] at hpos
  rw [List.map_append, List.prod_append, List.prod_append, ← Nat.mul_assoc, ← Nat.mul_assoc] at h
  refine Nat.eq_of_mul_eq_mul_left (Nat.pos_of_mul_pos_right hpos) ?_
  rw [← h, ← hrun, AxisRun.old]

theorem alignRunsUpTo_isSome {steps : Nat} {axes : List Axis} {extents : List Nat}
    (h : (axes.map Axis.extent).prod = extents.prod) (hpos : 0 < extents.prod) :
    (alignRunsUpTo steps axes extents).isSome := by
  induction steps generalizing axes extents with
  | zero => rfl
  | succ steps ih =>
    match axes, extents with
    | [], _ => rfl
    | _ :: _, [] => rfl
    | a :: axes, n :: extents =>
      rw [List.map_cons, List.prod_cons, List.prod_cons] at h
      rw [List.prod_cons] at hpos
      obtain ⟨⟨r, axes', extents'⟩, hgrow⟩ := Option.isSome_iff_exists.mp (growRun_isSome h hpos)
      have hrest := growRun_rest hgrow h hpos
      obtain ⟨rfl, rfl, -⟩ := growRun_eq_some hgrow
      have hpos' : 0 < extents'.prod := by
        rw [List.prod_append, ← Nat.mul_assoc] at hpos
        exact Nat.pos_of_mul_pos_left hpos
      obtain ⟨runs, hruns⟩ := Option.isSome_iff_exists.mp (ih hrest hpos')
      simp [alignRunsUpTo, hgrow, hruns]

/-- Axes and extents with equally many positions, at least one, are cut into runs. -/
theorem alignRuns_isSome {axes : List Axis} {extents : List Nat}
    (h : (axes.map Axis.extent).prod = extents.prod) (hpos : 0 < extents.prod) :
    (alignRuns axes extents).isSome :=
  alignRunsUpTo_isSome h hpos

/-! ## The places of axes -/

/-- The first position is at no distance from itself. -/
theorem dot_unravel_zero {dims : List Nat} (h : 0 < dims.prod) (strides : List Int64) :
    dot (unravel dims 0) strides = 0 := by
  induction dims generalizing strides with
  | nil => simp
  | cons n dims ih =>
    cases strides with
    | nil => simp
    | cons s strides => simp [unravel_cons h, ih (prod_cons_pos h).2]

/-- The function `f` gives the places of the positions of `axes`, in row-major order. -/
def Reaches (f : Nat → Int64) (axes : List Axis) : Prop :=
  ∀ flat < (axes.map Axis.extent).prod,
    f flat = dot (unravel (axes.map Axis.extent) flat) (axes.map Axis.stride)

/-- The first `n` values of `f` are multiples of one distance. -/
def Linear (f : Nat → Int64) (n : Nat) : Prop := ∀ k < n, f k = .ofNat k * f 1

section Reaches

variable {f : Nat → Int64} {a : Axis} {axes rest : List Axis}

/-- Two groups of axes add up their distances. -/
theorem Reaches.mul_add (h : Reaches f (axes ++ rest)) {k x : Nat}
    (hk : k < (axes.map Axis.extent).prod) (hx : x < (rest.map Axis.extent).prod) :
    f (k * (rest.map Axis.extent).prod + x)
      = dot (unravel (axes.map Axis.extent) k) (axes.map Axis.stride)
        + dot (unravel (rest.map Axis.extent) x) (rest.map Axis.stride) := by
  have hrest : 0 < (rest.map Axis.extent).prod := Nat.zero_lt_of_lt hx
  have hlt : k * (rest.map Axis.extent).prod + x
      < (axes.map Axis.extent).prod * (rest.map Axis.extent).prod := by
    calc k * (rest.map Axis.extent).prod + x < (k + 1) * (rest.map Axis.extent).prod := by
          rw [Nat.succ_mul]; omega
      _ ≤ (axes.map Axis.extent).prod * (rest.map Axis.extent).prod := Nat.mul_le_mul_right _ hk
  rw [h _ (by rwa [List.map_append, List.prod_append]), List.map_append, List.map_append,
    unravel_append (Nat.zero_lt_of_lt hk) hrest, dot_append (by simp [length_unravel]),
    unravel_mul_add hrest, Nat.mul_comm k, Nat.mul_add_div hrest, Nat.div_eq_of_lt hx,
    Nat.add_zero]

/-- The outer axes have the places of the first positions of the inner ones. -/
theorem Reaches.outer (h : Reaches f (axes ++ rest)) (hrest : 0 < (rest.map Axis.extent).prod) :
    Reaches (fun k => f (k * (rest.map Axis.extent).prod)) axes := by
  intro k hk
  have := h.mul_add hk hrest
  rwa [dot_unravel_zero hrest, Nat.add_zero, Int64.add_zero] at this

/-- The inner axes have the places of the first position of the outer ones. -/
theorem Reaches.inner (h : Reaches f (axes ++ rest)) (haxes : 0 < (axes.map Axis.extent).prod) :
    Reaches f rest := by
  intro x hx
  have := h.mul_add haxes hx
  rwa [dot_unravel_zero haxes, Nat.zero_mul, Nat.zero_add, Int64.zero_add] at this

theorem Reaches.tail (h : Reaches f (a :: axes)) (ha : 0 < a.extent) : Reaches f axes := by
  have h : Reaches f ([a] ++ axes) := h
  exact h.inner (by simpa using ha)

/-- A step along the outermost axis goes as far as its stride. -/
theorem Reaches.step (h : Reaches f (a :: axes)) {k x : Nat} (hk : k < a.extent)
    (hx : x < (axes.map Axis.extent).prod) :
    f (k * (axes.map Axis.extent).prod + x) = .ofNat k * a.stride + f x := by
  have ha : 0 < a.extent := Nat.zero_lt_of_lt hk
  have happend : Reaches f ([a] ++ axes) := h
  rw [happend.mul_add (by simpa using hk) hx, h.tail ha x hx, List.map_singleton,
    List.map_singleton, unravel_cons (by simpa using ha)]
  simp [Nat.mod_eq_of_lt hk]

/-- A single axis has the multiples of its stride. -/
theorem Reaches.linear_single (h : Reaches f [a]) (ha : 1 < a.extent) : Linear f a.extent := by
  have hzero : f 0 = 0 := h.tail (Nat.zero_lt_of_lt ha) 0 Nat.zero_lt_one
  have hmul : ∀ k < a.extent, f k = .ofNat k * a.stride := by
    intro k hk
    simpa [hzero] using h.step hk (x := 0) Nat.zero_lt_one
  intro k hk
  rw [hmul k hk, hmul 1 ha]
  simp

/-- The stride of the outermost axis, told from the first position beyond the inner axes. -/
theorem Reaches.stride_eq (h : Reaches f (a :: axes)) (ha : 1 < a.extent)
    (haxes : 0 < (axes.map Axis.extent).prod) {n : Nat} (hf : Linear f n)
    (hn : (axes.map Axis.extent).prod < n) :
    a.stride = .ofNat (axes.map Axis.extent).prod * f 1 := by
  have hzero : f 0 = 0 := by simpa using hf 0 (by omega)
  have := h.step ha haxes
  rw [Nat.one_mul, Nat.add_zero, hzero, hf _ hn] at this
  rw [this]
  simp

/-- If the first position beyond the inner axes lies on the line, so does the outermost axis. -/
theorem Reaches.linear_cons (h : Reaches f (a :: axes)) (ha : 1 < a.extent)
    (haxes : 0 < (axes.map Axis.extent).prod) {n : Nat} (hf : Linear f n)
    (hn : (axes.map Axis.extent).prod < n) :
    Linear f (a.extent * (axes.map Axis.extent).prod) := by
  intro x hx
  have hquot : x / (axes.map Axis.extent).prod < a.extent :=
    (Nat.div_lt_iff_lt_mul haxes).mpr hx
  have hrem : x % (axes.map Axis.extent).prod < (axes.map Axis.extent).prod := Nat.mod_lt _ haxes
  have hx' : x / (axes.map Axis.extent).prod * (axes.map Axis.extent).prod
      + x % (axes.map Axis.extent).prod = x := Nat.div_add_mod' _ _
  have hstep := h.step hquot hrem
  rw [hx', h.stride_eq ha haxes hf hn, hf _ (Nat.lt_trans hrem hn)] at hstep
  rw [hstep]
  conv_rhs => rw [← hx', Int64.ofNat_add, Int64.ofNat_mul]
  grind

end Reaches

/-! ## One run -/

/-- Where the side that is behind ends relative to one axis of the other side. -/
theorem lt_of_balanced {old new extent m n : Nat} (h : old * m = new * n) (hm : 0 < m)
    (hlt : old < new * extent) : n < extent * m := by
  refine Nat.lt_of_mul_lt_mul_left (a := new) ?_
  calc new * n = old * m := h.symm
    _ < new * extent * m := Nat.mul_lt_mul_of_pos_right hlt hm
    _ = new * (extent * m) := Nat.mul_assoc ..

theorem pos_of_mem_of_prod_pos {dims : List Nat} (h : 0 < dims.prod) {n : Nat} (hn : n ∈ dims) :
    0 < n := by
  induction dims with
  | nil => cases hn
  | cons m dims ih =>
    obtain ⟨hm, hdims⟩ := prod_cons_pos h
    rcases List.mem_cons.mp hn with rfl | hn
    · exact hm
    · exact ih hdims hn

/-- The origin lies inside every shape with elements. -/
theorem inside_zeros {dims : List Nat} (h : 0 < dims.prod) : Inside dims (dims.map fun _ => 0) := by
  rw [Inside, List.forall₂_map_right_iff, List.forall₂_same]
  exact fun n hn => pos_of_mem_of_prod_pos h hn

theorem prod_extents_pos {axes : List Axis} (h : ∀ a ∈ axes, 1 < a.extent) :
    0 < (axes.map Axis.extent).prod := by
  induction axes with
  | nil => simp
  | cons a axes ih =>
    rw [List.forall_mem_cons] at h
    rw [List.map_cons, List.prod_cons]
    exact Nat.mul_pos (by omega) (ih h.2)

/-- Old axes `a :: r.axes` and new axes `b :: bs` with the same places walk the store with one
stride. The products `old` and `new` of the axes so far differ by less than the innermost axis of
the larger side, so that the next axis of the other side begins on the line. -/
theorem linear_of_growRun {old new : Nat} {axes axes' : List Axis} {extents extents' : List Nat}
    {r : AxisRun} (h : growRun old new axes extents = some (r, axes', extents')) {a b : Axis}
    {bs : List Axis} (hbs : bs.map Axis.extent = r.extents) (ha : ∀ c ∈ a :: r.axes, 1 < c.extent)
    (hb : ∀ c ∈ b :: bs, 1 < c.extent) (hold : old < new * a.extent) (hnew : new < old * b.extent)
    {f : Nat → Int64} (hfa : Reaches f (a :: r.axes)) (hfb : Reaches f (b :: bs)) :
    Linear f (a.extent * r.old.prod) ∧ Linear f (b.extent * (bs.map Axis.extent).prod) := by
  fun_induction growRun old new axes extents generalizing r a b bs with
  | case1 axes extents old =>
    -- the sides meet, and each is a single axis
    simp only [Option.some.injEq, Prod.mk.injEq] at h
    obtain ⟨rfl, rfl, rfl⟩ := h
    obtain rfl : bs = [] := List.map_eq_nil_iff.mp hbs
    simp only [AxisRun.old, List.map_nil, List.prod_nil, Nat.mul_one]
    exact ⟨hfa.linear_single (ha a List.mem_cons_self), hfb.linear_single (hb b List.mem_cons_self)⟩
  | case2 => simp at h
  | case3 old new axes hne hlt n extents ih =>
    -- the new side grows by `c`, inside `b`
    obtain ⟨⟨r', rest⟩, hgrow, heq⟩ := Option.map_eq_some_iff.mp h
    obtain ⟨rfl, rfl⟩ := Prod.mk.injEq .. ▸ heq
    obtain ⟨c, bs, rfl, rfl, hbs'⟩ := List.map_eq_cons_iff.mp hbs
    have ha' := prod_extents_pos (List.forall_mem_cons.mp ha).2
    have hb' := prod_extents_pos (List.forall_mem_cons.mp hb).2
    have hc : 1 < c.extent := hb c (by simp)
    obtain ⟨hfa', hfc⟩ := ih hgrow hbs' ha (List.forall_mem_cons.mp hb).2
      (Nat.lt_of_lt_of_le hold (Nat.mul_le_mul_right _ (Nat.le_mul_of_pos_right _ (by omega))))
      (Nat.mul_lt_mul_of_pos_right hlt (by omega)) hfa
      (hfb.tail (Nat.zero_lt_of_lt (hb b List.mem_cons_self)))
    have hlt' : ((c :: bs).map Axis.extent).prod < a.extent * r'.old.prod := by
      refine lt_of_balanced ?_ ha' hold
      rw [(growRun_eq_some hgrow).2.2, List.map_cons, List.prod_cons, hbs', Nat.mul_assoc]
    exact ⟨hfa', hfb.linear_cons (hb b List.mem_cons_self) hb' hfa' hlt'⟩
  | case4 => simp at h
  | case5 old new extents hne hge c axes ih =>
    -- the old side grows by `c`, inside `a`
    obtain ⟨⟨r', rest⟩, hgrow, heq⟩ := Option.map_eq_some_iff.mp h
    obtain ⟨rfl, rfl⟩ := Prod.mk.injEq .. ▸ heq
    have ha' := prod_extents_pos (List.forall_mem_cons.mp ha).2
    have hb' := prod_extents_pos (List.forall_mem_cons.mp hb).2
    have hc : 1 < c.extent := ha c (by simp)
    have hlt : old < new := by omega
    obtain ⟨hfc, hfb'⟩ := ih hgrow hbs (List.forall_mem_cons.mp ha).2 hb
      (Nat.mul_lt_mul_of_pos_right hlt (by omega))
      (Nat.lt_of_lt_of_le hnew (Nat.mul_le_mul_right _ (Nat.le_mul_of_pos_right _ (by omega))))
      (hfa.tail (Nat.zero_lt_of_lt (ha a List.mem_cons_self))) hfb
    have hlt' : ((c :: r'.axes).map Axis.extent).prod < b.extent * (bs.map Axis.extent).prod := by
      refine lt_of_balanced ?_ hb' hnew
      rw [hbs, ← (growRun_eq_some hgrow).2.2, List.map_cons, List.prod_cons, Nat.mul_assoc]
      rfl
    exact ⟨hfa.linear_cons (ha a List.mem_cons_self) ha' hfb' hlt', hfb'⟩

/-- Axes whose places are the multiples of one distance walk the store with one stride. -/
theorem Reaches.mergeable {f : Nat → Int64} {axes : List Axis} (h : Reaches f axes)
    (haxes : ∀ a ∈ axes, 1 < a.extent) (hf : Linear f (axes.map Axis.extent).prod) :
    mergeable axes = true := by
  induction axes with
  | nil => rfl
  | cons a axes ih =>
    cases axes with
    | nil => rfl
    | cons b axes =>
      obtain ⟨ha, haxes'⟩ := List.forall_mem_cons.mp haxes
      have hpos := prod_extents_pos haxes'
      have hpos' := prod_extents_pos (List.forall_mem_cons.mp haxes').2
      have hb := haxes' b List.mem_cons_self
      have hlt : ((b :: axes).map Axis.extent).prod < ((a :: b :: axes).map Axis.extent).prod := by
        rw [List.map_cons (l := b :: axes), List.prod_cons]
        exact (Nat.lt_mul_iff_one_lt_left hpos).mpr ha
      have hlt' : (axes.map Axis.extent).prod < ((b :: axes).map Axis.extent).prod := by
        rw [List.map_cons, List.prod_cons]
        exact (Nat.lt_mul_iff_one_lt_left hpos').mpr hb
      have htail : Reaches f (b :: axes) := h.tail (Nat.zero_lt_of_lt ha)
      have hf' : Linear f ((b :: axes).map Axis.extent).prod := fun k hk => hf k (Nat.lt_trans hk hlt)
      rw [TensorGraph.mergeable, Bool.and_eq_true, decide_eq_true_eq]
      refine ⟨?_, ih htail haxes' hf'⟩
      rw [h.stride_eq ha hpos hf hlt, htail.stride_eq hb hpos' hf' hlt', List.map_cons,
        List.prod_cons, Int64.ofNat_mul]
      grind

/-- A run of old axes walks the store with one stride if new axes have the same places. -/
theorem mergeable_of_growRun {axes axes' : List Axis} {extents extents' : List Nat} {r : AxisRun}
    {a b : Axis} (h : growRun a.extent b.extent axes extents = some (r, axes', extents'))
    {bs : List Axis} (hbs : bs.map Axis.extent = r.extents) (ha : ∀ c ∈ a :: r.axes, 1 < c.extent)
    (hb : ∀ c ∈ b :: bs, 1 < c.extent) {f : Nat → Int64} (hfa : Reaches f (a :: r.axes))
    (hfb : Reaches f (b :: bs)) : mergeable (a :: r.axes) = true := by
  have ha₁ : 1 < a.extent := ha a List.mem_cons_self
  have hb₁ : 1 < b.extent := hb b List.mem_cons_self
  have hold : a.extent < b.extent * a.extent :=
    (Nat.lt_mul_iff_one_lt_left (Nat.zero_lt_of_lt ha₁)).mpr hb₁
  have hnew : b.extent < a.extent * b.extent :=
    (Nat.lt_mul_iff_one_lt_left (Nat.zero_lt_of_lt hb₁)).mpr ha₁
  obtain ⟨hline, -⟩ := linear_of_growRun h hbs ha hb hold hnew hfa hfb
  exact hfa.mergeable ha (by rwa [List.map_cons, List.prod_cons])

/-! ## All runs -/

/-- If old and new axes have the same places, every run of old axes walks the store with one
stride. -/
theorem mergeable_of_alignRunsUpTo {steps : Nat} {axes bs : List Axis} {runs : List AxisRun}
    (h : alignRunsUpTo steps axes (bs.map Axis.extent) = some runs)
    (hprod : (axes.map Axis.extent).prod = (bs.map Axis.extent).prod)
    (haxes : ∀ a ∈ axes, 1 < a.extent) (hbs : ∀ b ∈ bs, 1 < b.extent) {f : Nat → Int64}
    (hfa : Reaches f axes) (hfb : Reaches f bs) : ∀ r ∈ runs, mergeable r.axes = true := by
  induction steps generalizing axes bs runs with
  | zero =>
    obtain rfl : [] = runs := by simpa [alignRunsUpTo] using h
    simp
  | succ steps ih =>
    cases axes with
    | nil =>
      obtain rfl : [] = runs := by simpa [alignRunsUpTo] using h
      simp
    | cons a axes =>
      cases bs with
      | nil =>
        obtain rfl : [] = runs := by simpa [alignRunsUpTo] using h
        simp
      | cons b bs =>
        simp only [List.map_cons, alignRunsUpTo, Option.bind_eq_bind, Option.bind_eq_some_iff,
          Option.pure_def, Option.some_inj] at h
        obtain ⟨⟨r, axes', extents'⟩, hgrow, runs', halign, rfl⟩ := h
        have hpos := prod_extents_pos hbs
        rw [List.map_cons, List.map_cons, List.prod_cons, List.prod_cons] at hprod
        rw [List.map_cons, List.prod_cons] at hpos
        have hrest := growRun_rest hgrow hprod hpos
        obtain ⟨rfl, hextents, -⟩ := growRun_eq_some hgrow
        -- the new axes of the run, and those that remain
        obtain ⟨bs₁, bs₂, rfl, hbs₁, rfl⟩ := List.map_eq_append_iff.mp hextents
        rw [← List.cons_append] at hfa hfb haxes hbs
        obtain ⟨haxes₁, haxes₂⟩ := List.forall_mem_append.mp haxes
        obtain ⟨hnew₁, hnew₂⟩ := List.forall_mem_append.mp hbs
        have hrun_old := hfa.outer (prod_extents_pos haxes₂)
        have hrun_new := hfb.outer (prod_extents_pos hnew₂)
        rw [← hrest] at hrun_new
        refine List.forall_mem_cons.mpr ⟨?_, ?_⟩
        · exact mergeable_of_growRun hgrow hbs₁ haxes₁ hnew₁ hrun_old hrun_new
        · exact ih halign hrest haxes₂ hnew₂ (hfa.inner (prod_extents_pos haxes₁))
            (hfb.inner (prod_extents_pos hnew₁))

/-- Old axes take the extents of new axes that have the same places. -/
theorem mergeStrides_isSome {axes bs : List Axis}
    (hprod : (axes.map Axis.extent).prod = (bs.map Axis.extent).prod)
    (haxes : ∀ a ∈ axes, 1 < a.extent) (hbs : ∀ b ∈ bs, 1 < b.extent) {f : Nat → Int64}
    (hfa : Reaches f axes) (hfb : Reaches f bs) :
    (mergeStrides axes (bs.map Axis.extent)).isSome := by
  obtain ⟨runs, hruns⟩ := Option.isSome_iff_exists.mp
    (alignRuns_isSome hprod (prod_extents_pos hbs))
  have hmerge := mergeable_of_alignRunsUpTo hruns hprod haxes hbs hfa hfb
  simpa [mergeStrides, hruns] using hmerge

/-! ## Views -/

/-- The axes of a view with extents `dims` that are no unit axes. -/
def View.axes (v : View) (dims : List Nat) : List Axis :=
  List.zipWith Axis.mk (dropUnits dims dims) (dropUnits dims v.strides)

section Axes

variable {v w : View} {old new dims : List Nat}

theorem View.extent_axes (h : v.strides.length = dims.length) :
    (v.axes dims).map Axis.extent = dropUnits dims dims := by
  rw [View.axes, ← List.map_uncurry_zip_eq_zipWith, List.map_map]
  exact List.map_fst_zip (Nat.le_of_eq (length_dropUnits h).symm)

theorem View.stride_axes (h : v.strides.length = dims.length) :
    (v.axes dims).map Axis.stride = dropUnits dims v.strides := by
  rw [View.axes, ← List.map_uncurry_zip_eq_zipWith, List.map_map]
  exact List.map_snd_zip (Nat.le_of_eq (length_dropUnits h))

theorem View.one_lt_extent_axes (h : v.strides.length = dims.length) (hpos : 0 < dims.prod) :
    ∀ a ∈ v.axes dims, 1 < a.extent := by
  intro a ha
  have hmem : a.extent ∈ dropUnits dims dims := extent_axes h ▸ List.mem_map_of_mem ha
  have hne := ne_one_of_mem_dropUnits hmem
  have hpos' := pos_of_mem_of_prod_pos hpos (mem_of_mem_dropUnits hmem)
  omega

/-- The axes that are no unit axes tell the distances of all positions. -/
theorem View.reaches_axes (h : v.strides.length = dims.length) (hpos : 0 < dims.prod) :
    Reaches (fun flat => dot (unravel dims flat) v.strides) (v.axes dims) := by
  intro flat _
  simp only [extent_axes h, stride_axes h]
  rw [unravel_eq_insertUnits hpos, dot_insertUnits (length_unravel _ _) h]

/-- The view `w` shows over the extents `new`, without a mask, what `v` shows over `old` at each
row-major position. -/
structure View.SamePlaces (old new : List Nat) (v w : View) : Prop where
  /-- The extents are `new`. -/
  shape : w.shape = .ofNats new
  /-- There is a stride for each axis. -/
  length_strides : w.strides.length = new.length
  /-- Every position is visible. -/
  unmasked : w.mask = none
  /-- Positions with the same rank have the same place. -/
  index : ∀ flat < new.prod, w.index (unravel new flat) = v.index (unravel old flat)

/-- Views without a mask that have the same places have the same offset and distances. -/
theorem View.SamePlaces.dot_eq (h : SamePlaces old new v w) (hmask : v.mask = none)
    (hold : 0 < old.prod) (hnew : 0 < new.prod) {flat : Nat} (hflat : flat < new.prod) :
    dot (unravel new flat) w.strides = dot (unravel old flat) v.strides := by
  have hplace : ∀ flat < new.prod, w.offset + dot (unravel new flat) w.strides
      = v.offset + dot (unravel old flat) v.strides := by
    intro flat hflat
    have := h.index flat hflat
    simpa [View.index_eq, maskShows, h.unmasked, hmask] using this
  have hoffset : w.offset = v.offset := by
    simpa [dot_unravel_zero hold, dot_unravel_zero hnew] using hplace 0 hnew
  have := hplace flat hflat
  rw [hoffset] at this
  grind

end Axes

/-- A view of the store that has the places of a view without a mask lets its axes be merged and
split. -/
theorem View.SamePlaces.mergeStrides_isSome {v w : View} {old new : List Nat}
    (h : SamePlaces old new v w) (hstrides : v.strides.length = old.length) (hmask : v.mask = none)
    (hpos : 0 < old.prod) (hprod : new.prod = old.prod) :
    (mergeStrides (v.axes old) (dropUnits new new)).isSome := by
  have hnew : 0 < new.prod := hprod ▸ hpos
  have hextents := extent_axes h.length_strides
  have hcount : ((v.axes old).map Axis.extent).prod = ((w.axes new).map Axis.extent).prod := by
    rw [extent_axes hstrides, hextents, prod_dropUnits, prod_dropUnits, hprod]
  rw [← hextents]
  refine TensorGraph.mergeStrides_isSome hcount (one_lt_extent_axes hstrides hpos)
    (one_lt_extent_axes h.length_strides hnew) (reaches_axes hstrides hpos) ?_
  intro flat hflat
  have hlt : flat < new.prod := by rwa [hextents, prod_dropUnits] at hflat
  refine (h.dot_eq hmask hpos hnew hlt).symm.trans ?_
  exact reaches_axes h.length_strides hnew flat hflat

/-- The result of a reshape has the places of a view without a mask. -/
theorem View.Proper.samePlaces_reshape? {v w : View} (hv : v.Proper) {old new : List Nat}
    (hold : v.shape.static? = some old) (hmask : v.mask = none)
    (h : v.reshape? (.ofNats new) = some w) : SamePlaces old new v w := by
  have hshape := reshape?_shape h
  constructor
  case shape => exact hshape
  case length_strides =>
    rw [(hv.reshape? h).length_strides, hshape, Shape.rank_eq (Shape.static?_ofNats new)]
  case unmasked =>
    exact reshape?_mask h hmask
  case index =>
    intro flat hflat
    rw [hv.index_reshape? h hold (Shape.static?_ofNats new) hflat, View.index_eq, hmask]
    simp [maskShows]

/-- Where some view has the places of a view without a mask, a reshape finds one. -/
theorem View.SamePlaces.reshape?_isSome {v w : View} {old new : List Nat}
    (hw : SamePlaces old new v w) (hold : v.shape.static? = some old)
    (hstrides : v.strides.length = old.length) (hmask : v.mask = none) (hpos : 0 < old.prod)
    (hprod : new.prod = old.prod) : (v.reshape? (.ofNats new)).isSome := by
  obtain ⟨strides, hmerge⟩ := Option.isSome_iff_exists.mp
    (hw.mergeStrides_isSome hstrides hmask hpos hprod)
  rw [View.axes] at hmerge
  simp only [View.reshape?, hold, Shape.static?_ofNats, Option.bind_eq_bind, Option.bind_some,
    hprod, hmask, hmerge]
  split
  · next hne => exact absurd rfl hne
  · split
    · rfl
    · split <;> simp

/-- Old axes and new extents other than units are cut into runs that take up both lists. -/
theorem View.Proper.exists_runs {v : View} (hv : v.Proper) {old new : List Nat}
    (hold : v.shape.static? = some old) (hpos : 0 < old.prod) (hprod : new.prod = old.prod) :
    ∃ runs, alignRuns (v.axes old) (dropUnits new new) = some runs
      ∧ v.axes old = runs.flatMap AxisRun.axes
      ∧ dropUnits new new = runs.flatMap AxisRun.extents := by
  have hextents := extent_axes (by rw [hv.length_strides, Shape.rank_eq hold])
  have hnew : 0 < new.prod := hprod ▸ hpos
  have hcount : ((v.axes old).map Axis.extent).prod = (dropUnits new new).prod := by
    rw [hextents, prod_dropUnits, prod_dropUnits, hprod]
  obtain ⟨runs, hruns⟩ := Option.isSome_iff_exists.mp
    (alignRuns_isSome hcount (by rwa [prod_dropUnits]))
  obtain ⟨-, htake⟩ := alignRuns_eq_some hruns hcount (by rwa [prod_dropUnits])
    (by rw [hextents]; exact fun n h => ne_one_of_mem_dropUnits h)
    (fun n h => ne_one_of_mem_dropUnits h)
  exact ⟨runs, hruns, htake⟩

/-- A view without a mask is reshaped if and only if some view has its places in row-major order. -/
theorem View.Proper.reshape?_isSome_iff {v : View} (hv : v.Proper) {old new : List Nat}
    (hold : v.shape.static? = some old) (hmask : v.mask = none) (hpos : 0 < old.prod)
    (hprod : new.prod = old.prod) :
    (v.reshape? (.ofNats new)).isSome ↔ ∃ w, SamePlaces old new v w := by
  constructor
  · intro h
    obtain ⟨w, hw⟩ := Option.isSome_iff_exists.mp h
    exact ⟨w, hv.samePlaces_reshape? hold hmask hw⟩
  · rintro ⟨w, hw⟩
    exact hw.reshape?_isSome hold (by rw [hv.length_strides, Shape.rank_eq hold]) hmask hpos hprod

end TensorGraph
