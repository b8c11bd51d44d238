import TensorGraph.Proofs.Schedule.Lower
/-!
# What a plan holds

A plan grows depth first. Units wait until their inputs are scheduled; they form a chain of ever
older bases, so that no base is lowered twice and the search ends. What is added for a base ends
with the unit of the base, and every other unit is read by a later one.

- `Plan.Sound`: the plans that the search makes.
- `Plan.AllRead`: units each of which is read by a later one.
- `Plan.sat_add`: what adding a base does to a plan.
-/

namespace TensorGraph

open TensorGraph.Graph

variable {α : Type} {W W' : Census} {g g' : Graph α}

/-- The unit reads the base with number `id`. -/
def Item.Reads (item : Item α) (id : Nat) : Prop := ∃ b ∈ item.inputs, b.base.id = id

/-- The base with number `id` is the output of one of the units. -/
def Produced (items : List (Item α)) (id : Nat) : Prop := ∃ item ∈ items, item.output.id = id

theorem Produced.append_left {items : List (Item α)} {id : Nat} (h : Produced items id)
    (news : List (Item α)) : Produced (items ++ news) id := by
  obtain ⟨item, hitem, hid⟩ := h
  exact ⟨item, List.mem_append_left _ hitem, hid⟩

namespace Plan

/-! ## Order -/

/-- Every unit comes after the units of those bases it reads that have no result. -/
def Ordered (g : Graph α) (items : List (Item α)) : Prop :=
  ∀ before item after, items = before ++ item :: after →
    ∀ b ∈ item.inputs, g.isRealized b = true ∨ Produced before b.base.id

theorem Ordered.snoc {items : List (Item α)} (h : Ordered g items) {item : Item α}
    (hitem : ∀ b ∈ item.inputs, g.isRealized b = true ∨ Produced items b.base.id) :
    Ordered g (items ++ [item]) := by
  intro before x after heq
  rcases List.eq_nil_or_concat after with rfl | ⟨after, y, rfl⟩
  · obtain ⟨rfl, hx⟩ := List.append_inj' heq rfl
    obtain rfl : item = x := by simpa using hx
    exact hitem
  · have heq : items ++ [item] = (before ++ x :: after) ++ [y] := by simpa using heq
    obtain ⟨rfl, -⟩ := List.append_inj' heq rfl
    exact h before x after rfl

theorem Ordered.congr (h : g'.cores = g.cores) {items : List (Item α)} (hitems : Ordered g items) :
    Ordered g' items := by
  intro before item after heq b hb
  rw [isRealized_congr h]
  exact hitems before item after heq b hb

/-- Every unit is read by a later one, or by one of `final`. -/
def AllRead (final : List (Item α)) : List (Item α) → Prop
  | [] => True
  | item :: items => (∃ later ∈ items ++ final, later.Reads item.output.id) ∧ AllRead final items

theorem AllRead.append {final items items' : List (Item α)} (h : AllRead final items)
    (h' : AllRead final items') : AllRead final (items ++ items') := by
  induction items with
  | nil => exact h'
  | cons item items ih =>
    obtain ⟨⟨later, hlater, hreads⟩, h⟩ := h
    refine ⟨⟨later, ?_, hreads⟩, ih h⟩
    rcases List.mem_append.mp hlater with hlater | hlater
    · simp [hlater]
    · simp [hlater]

/-- A unit that is read in the end takes with it those that only it reads. -/
theorem AllRead.snoc {final items : List (Item α)} {last : Item α} (h : AllRead [last] items)
    (hlast : ∃ later ∈ final, later.Reads last.output.id) : AllRead final (items ++ [last]) := by
  induction items with
  | nil => exact ⟨by simpa using hlast, trivial⟩
  | cons item items ih =>
    obtain ⟨⟨later, hlater, hreads⟩, h⟩ := h
    refine ⟨⟨later, ?_, hreads⟩, ih h⟩
    rcases List.mem_append.mp hlater with hlater | hlater
    · simp [hlater]
    · simp [List.mem_singleton.mp hlater]

theorem AllRead.of_split {final items : List (Item α)} (h : AllRead final items)
    {before after : List (Item α)} {item : Item α} (heq : items = before ++ item :: after) :
    ∃ later ∈ after ++ final, later.Reads item.output.id := by
  induction before generalizing items with
  | nil =>
    subst heq
    exact h.1
  | cons x before ih =>
    subst heq
    exact ih h.2 rfl

/-- If the final units read bases below `k`, the units are for bases below `k`. -/
theorem AllRead.output_lt {final items : List (Item α)} {k : Nat} (h : AllRead final items)
    (hfinal : ∀ item ∈ final, ∀ id, item.Reads id → id < k)
    (hitems : ∀ item ∈ items, ∀ id, item.Reads id → id < item.output.id) :
    ∀ item ∈ items, item.output.id < k := by
  induction items with
  | nil => nofun
  | cons item items ih =>
    obtain ⟨⟨later, hlater, hreads⟩, h⟩ := h
    have hlt := ih h fun x hx => hitems x (List.mem_cons_of_mem _ hx)
    refine List.forall_mem_cons.mpr ⟨?_, hlt⟩
    rcases List.mem_append.mp hlater with hlater | hlater
    · exact (hitems later (List.mem_cons_of_mem _ hlater) _ hreads).trans (hlt later hlater)
    · exact hfinal later hlater _ hreads

/-! ## Sound plans -/

/-- A plan as the search makes it, while the units `waiting` wait for their inputs. -/
structure Sound (W : Census) (g : Graph α) (waiting : List (Item α)) (plan : Plan α) : Prop where
  /-- A unit that was lowered is ready or waits. -/
  perm : plan.lowered.Perm (plan.ready ++ waiting)
  /-- No base is lowered twice. -/
  nodup : (plan.lowered.map fun item => item.output.id).Nodup
  /-- Units are for bases without a result. -/
  units : ∀ item ∈ plan.lowered, item.output.Lowers W g item ∧ W.Lists item.output
    ∧ item.output = item.output.base.buffer ∧ g.isRealized item.output = false
  /-- A unit is ready after what it reads. -/
  ordered : Ordered g plan.ready

theorem Sound.of_viewed (h : Viewed W g W' g') {waiting : List (Item α)} {plan : Plan α}
    (hplan : plan.Sound W g waiting) : plan.Sound W' g' waiting where
  perm := hplan.perm
  nodup := hplan.nodup
  units item hitem := by
    obtain ⟨hlowers, hlist, hbase, hrealized⟩ := hplan.units item hitem
    exact ⟨hlowers.of_viewed h.same.cores h.census, h.census.lists hlist, hbase,
      (isRealized_congr h.same.cores _).trans hrealized⟩
  ordered := hplan.ordered.congr h.same.cores

theorem sound_empty : ({} : Plan α).Sound W g [] where
  perm := .refl _
  nodup := .nil
  units := nofun
  ordered before item after h := by simp at h

/-- A unit for a base that the plan does not contain is lowered and waits for its inputs. -/
theorem Sound.lower {waiting : List (Item α)} {plan : Plan α} (hplan : plan.Sound W g waiting)
    {item : Item α} (hlowers : item.output.Lowers W g item) (hlist : W.Lists item.output)
    (hbase : item.output = item.output.base.buffer) (hrealized : g.isRealized item.output = false)
    (hnew : plan.contains item.output = false) :
    Sound W g (item :: waiting) { plan with lowered := plan.lowered ++ [item] } where
  perm := by
    refine (hplan.perm.append_right [item]).trans ?_
    rw [List.append_assoc]
    exact List.Perm.append_left _ List.perm_append_comm
  nodup := by
    rw [List.map_append, List.nodup_append]
    refine ⟨hplan.nodup, by simp, ?_⟩
    intro i hi j hj hij
    obtain ⟨x, hx, rfl⟩ := List.mem_map.mp hi
    obtain rfl : j = item.output.id := by simpa using hj
    have hany : plan.contains item.output = true :=
      List.any_eq_true.mpr ⟨x, hx, by simpa using hij⟩
    rw [hnew] at hany
    cases hany
  units x hx := by
    rcases List.mem_append.mp hx with hx | hx
    · exact hplan.units x hx
    · obtain rfl := List.mem_singleton.mp hx
      exact ⟨hlowers, hlist, hbase, hrealized⟩
  ordered := hplan.ordered

/-- The base has a result or a ready unit. -/
def Reached (g : Graph α) (plan : Plan α) (b : Buffer) : Prop :=
  g.isRealized b = true ∨ Produced plan.ready b.base.id

/-- A unit that waits becomes ready once its inputs are reached. -/
theorem Sound.finish {waiting : List (Item α)} {plan : Plan α} {item : Item α}
    (hplan : plan.Sound W g (item :: waiting)) (hinputs : ∀ b ∈ item.inputs, Reached g plan b) :
    Sound W g waiting { plan with ready := plan.ready ++ [item] } where
  perm := by
    rw [List.append_assoc]
    exact hplan.perm
  nodup := hplan.nodup
  units := hplan.units
  ordered := hplan.ordered.snoc hinputs

/-- A base that the plan contains and that is older than all that wait has a ready unit. -/
theorem Sound.produced {waiting : List (Item α)} {plan : Plan α} (hplan : plan.Sound W g waiting)
    {base : Buffer} (hwaiting : ∀ item ∈ waiting, base.id < item.output.id)
    (hcontains : plan.contains base = true) : Produced plan.ready base.id := by
  obtain ⟨item, hitem, hid⟩ := List.any_eq_true.mp hcontains
  have hid : item.output.id = base.id := by simpa using hid
  rcases List.mem_append.mp (hplan.perm.mem_iff.mp hitem) with hready | hwait
  · exact ⟨item, hready, hid⟩
  · exact absurd hid (Nat.ne_of_gt (hwaiting item hwait))

/-- The units that were added for a base: none, or units that end with that of the base, where every
other unit is read by a later one. -/
def EndsWith (base : Buffer) (news : List (Item α)) : Prop :=
  news = [] ∨ ∃ init last, news = init ++ [last] ∧ last.output = base ∧ AllRead [last] init

/-- What adding a base to a plan gives: the units added are ready, and the base is reached. -/
structure Extended (W : Census) (g : Graph α) (waiting : List (Item α)) (plan : Plan α)
    (news : List (Item α)) (W' : Census) (g' : Graph α) (plan' : Plan α) : Prop where
  /-- Only views were handed out. -/
  viewed : Viewed W g W' g'
  /-- The plan is sound again. -/
  sound : plan'.Sound W' g' waiting
  /-- The units added come last. -/
  ready : plan'.ready = plan.ready ++ news

/-- Why a base cannot be added, with the error that tells of it: some base without a result cannot be
lowered. -/
structure Stuck (g : Graph α) (b : Buffer) (e : Error) : Prop where
  /-- The buffer is a base. -/
  base : ∃ e ∈ g.cores, e.base.buffer = b
  /-- It has no result. -/
  unrealized : g.isRealized b = false
  /-- It cannot be lowered. -/
  unlowerable : b.Unlowerable g e

theorem Stuck.of_same (h : g'.cores = g.cores) {b : Buffer} {e : Error}
    (hb : Stuck g' b e) : Stuck g b e :=
  ⟨h ▸ hb.base, (isRealized_congr h b).symm.trans hb.unrealized, hb.unlowerable.of_same h⟩

/-! ## The search -/

/-- Adding the inputs of a unit, given what adding one base does. -/
theorem sat_addAll {held : List Buffer} {steps : Nat} {item : Item α} {waiting : List (Item α)}
    (hadd : ∀ {W : Census} {g : Graph α} {plan : Plan α} {base : Buffer}, g.WellFormed W →
      plan.Sound W g (item :: waiting) → W.Lists base → base = base.base.buffer →
      base.id < item.output.id → Sat (add held steps base plan) g
        (fun plan' g' => ∃ W' news, Extended W g (item :: waiting) plan news W' g' plan'
          ∧ Reached g' plan' base ∧ EndsWith base news)
        fun e g' => (∃ W', Viewed W g W' g') ∧ ¬e.IsOutOfOrder ∧ ∃ b, Stuck g b e)
    (bs : List Buffer) {plan : Plan α} (hg : g.WellFormed W)
    (hplan : plan.Sound W g (item :: waiting)) (hbs : ∀ b ∈ bs, W.Lists b ∧ b ∈ item.inputs
      ∧ b.base.id < item.output.id) :
    Sat (bs.foldlM (fun plan input => add held steps input.root plan) plan) g
      (fun plan' g' => ∃ W' news, Extended W g (item :: waiting) plan news W' g' plan'
        ∧ (∀ b ∈ bs, Reached g' plan' b) ∧ AllRead [item] news)
      fun e g' => (∃ W', Viewed W g W' g') ∧ ¬e.IsOutOfOrder ∧ ∃ b, Stuck g b e := by
  induction bs generalizing W g plan with
  | nil =>
    exact ⟨W, [], ⟨hg.viewed, hplan, by simp⟩, by simp, trivial⟩
  | cons b bs ih =>
    obtain ⟨hlist, hinput, hlt⟩ := hbs b List.mem_cons_self
    have hroot := hg.root_eq hlist
    rw [List.foldlM_cons, sat_bind, hroot]
    refine (hadd hg hplan (hg.lists_base hlist) rfl hlt).imp ?_ fun _ _ h => h
    rintro plan₁ g₁ ⟨W₁, news₁, ⟨hviewed₁, hsound₁, hready₁⟩, hreached₁, hends₁⟩
    refine (ih hviewed₁.wellFormed hsound₁ fun c hc => ?_).imp ?_ ?_
    · obtain ⟨hlist, hrest⟩ := hbs c (List.mem_cons_of_mem _ hc)
      exact ⟨hviewed₁.census.lists hlist, hrest⟩
    · rintro plan₂ g₂ ⟨W₂, news₂, ⟨hviewed₂, hsound₂, hready₂⟩, hreached₂, hread₂⟩
      have hread₁ : AllRead [item] news₁ := by
        rcases hends₁ with rfl | ⟨init, last, rfl, hlast, hread⟩
        · trivial
        · -- the last of the new units is that of `b`, which the waiting unit reads
          exact hread.snoc ⟨item, List.mem_singleton_self _, b, hinput, hlast ▸ rfl⟩
      refine ⟨W₂, news₁ ++ news₂, ⟨hviewed₁.trans hviewed₂, hsound₂, ?_⟩, ?_, hread₁.append hread₂⟩
      · rw [hready₂, hready₁, List.append_assoc]
      · intro c hc
        rcases List.mem_cons.mp hc with rfl | hc
        · rcases hreached₁ with hrealized | hproduced
          · exact .inl ((isRealized_congr hviewed₂.same.cores _).trans hrealized)
          · exact .inr (hready₂ ▸ hproduced.append_left news₂)
        · exact hreached₂ c hc
    · rintro e g₂ ⟨⟨W₂, hviewed₂⟩, hne, c, hstuck⟩
      exact ⟨⟨W₂, hviewed₁.trans hviewed₂⟩, hne, c, hstuck.of_same hviewed₁.same.cores⟩

/-- Adding a base that is older than all that wait makes its units ready, and never runs out of
steps. -/
theorem sat_add {held : List Buffer} {steps : Nat} {waiting : List (Item α)} {plan : Plan α}
    {base : Buffer} (hg : g.WellFormed W) (hplan : plan.Sound W g waiting) (hlist : W.Lists base)
    (hbase : base = base.base.buffer) (hwaiting : ∀ item ∈ waiting, base.id < item.output.id)
    (hsteps : base.id < steps) :
    Sat (add held steps base plan) g
      (fun plan' g' => ∃ W' news, Extended W g waiting plan news W' g' plan'
        ∧ Reached g' plan' base ∧ EndsWith base news)
      fun e g' => (∃ W', Viewed W g W' g') ∧ ¬e.IsOutOfOrder ∧ ∃ b, Stuck g b e := by
  induction steps generalizing W g waiting plan base with
  | zero => exact absurd hsteps (Nat.not_lt_zero _)
  | succ steps ih =>
    rw [add, sat_bind, sat_get]
    split
    · -- nothing is to be done
      next hdone =>
      refine ⟨W, [], ⟨hg.viewed, hplan, by simp⟩, ?_, .inl rfl⟩
      rcases Bool.or_eq_true_iff.mp hdone with hrealized | hcontains
      · exact .inl hrealized
      · have hproduced := hplan.produced hwaiting hcontains
        rw [hbase] at hproduced
        exact .inr hproduced
    next hdone =>
    obtain ⟨hrealized, hcontains⟩ : g.isRealized base = false ∧ plan.contains base = false := by
      simpa using hdone
    have hbaseList : W.Lists base.base.buffer := hbase ▸ hlist
    rw [sat_bind]
    refine (Buffer.sat_lower hg hlist _).imp ?_ ?_
    · rintro item g₁ ⟨W₁, hviewed₁, hlowers⟩
      obtain ⟨houtput, hleaves, hinputs, -⟩ := hlowers.reads hg hviewed₁.census hbaseList
      have hid : item.output.id = base.id := by rw [houtput]
      have hreads (b : Buffer) (hb : b ∈ item.inputs) :
          W₁.Lists b ∧ b.base.id < item.output.id := by
        obtain ⟨hb, hlt⟩ := hleaves b (hinputs b hb)
        refine ⟨hb, ?_⟩
        rw [hid, hbase]
        exact hlt
      -- the new unit waits for its inputs
      have hplan₁ : Sound W₁ g₁ (item :: waiting)
          { plan with lowered := plan.lowered ++ [item] } := by
        subst houtput
        exact (hplan.of_viewed hviewed₁).lower (hlowers.of_viewed hviewed₁.same.cores (.refl _))
          (hviewed₁.census.lists hlist) hbase
          ((isRealized_congr hviewed₁.same.cores _).trans hrealized) hcontains
      rw [sat_bind]
      refine (sat_addAll ?_ item.inputs hviewed₁.wellFormed hplan₁ fun b hb => ?_).imp ?_ ?_
      · intro W₂ g₂ plan₂ input hg₂ hplan₂ hlist₂ hinput hlt
        -- an input is older than its unit, and the unit than all that wait for it
        refine ih hg₂ hplan₂ hlist₂ hinput ?_ (by omega)
        intro x hx
        rcases List.mem_cons.mp hx with rfl | hx
        · exact hlt
        · exact Nat.lt_trans hlt (hid ▸ hwaiting x hx)
      · exact ⟨(hreads b hb).1, hb, (hreads b hb).2⟩
      · rintro plan₂ g₂ ⟨W₂, news, ⟨hviewed₂, hsound₂, hready₂⟩, hreached, hread⟩
        refine ⟨W₂, news ++ [item], ⟨hviewed₁.trans hviewed₂, hsound₂.finish hreached, ?_⟩,
          .inr ?_, .inr ?_⟩
        · rw [hready₂, List.append_assoc]
        · exact ⟨item, List.mem_append_right _ (List.mem_singleton_self _),
            hid.trans (congrArg Buffer.id hbase)⟩
        · exact ⟨news, item, rfl, houtput, hread⟩
      · rintro e g₂ ⟨⟨W₂, hviewed₂⟩, hne, b, hstuck⟩
        exact ⟨⟨W₂, hviewed₁.trans hviewed₂⟩, hne, b, hstuck.of_same hviewed₁.same.cores⟩
    · rintro e g₁ ⟨hviewed₁, hne, hunlowerable⟩
      obtain ⟨e', he', hbase'⟩ := hg.census_base _ _ hlist
      exact ⟨hviewed₁, hne, base, ⟨e', he', by rw [hbase', ← hbase]⟩, hrealized, hunlowerable⟩

end Plan

/-! ## Schedules -/

/-- A schedule for the base of `b` as the search makes it. -/
structure Scheduled (W : Census) (g : Graph α) (b : Buffer) (items : List (Item α)) : Prop where
  /-- Units are for bases without a result. -/
  units : ∀ item ∈ items, item.output.Lowers W g item ∧ W.Lists item.output
    ∧ item.output = item.output.base.buffer ∧ g.isRealized item.output = false
  /-- No base is realized twice. -/
  nodup : (items.map fun item => item.output.id).Nodup
  /-- A unit comes after what it reads. -/
  ordered : Plan.Ordered g items
  /-- The base has a result or a unit. -/
  reached : g.isRealized b = true ∨ Produced items b.base.id
  /-- The unit of the base comes last, and the others are read. -/
  ends : Plan.EndsWith b.base.buffer items

/-- The handles that a unit holds were handed out. -/
theorem Scheduled.lists (hg : g.WellFormed W) {b : Buffer} {items : List (Item α)}
    (h : Scheduled W g b items) {item : Item α} (hitem : item ∈ items) {c : Buffer}
    (hc : c ∈ item.handles) : W.Lists c := by
  obtain ⟨hlowers, hlist, -, -⟩ := h.units item hitem
  obtain ⟨-, hleaves, hinputs, hslots⟩ := hlowers.reads hg (.refl W) (hg.lists_base hlist)
  simp only [Item.handles, List.cons_append, List.mem_cons, List.mem_append] at hc
  rcases hc with rfl | (hc | hc) | hc
  · exact hlist
  · exact (hleaves c (hinputs c hc)).1
  · obtain ⟨d, hd, rfl⟩ := hslots c hc
    have hd := (hleaves d (hinputs d hd)).1
    rw [hg.root_eq hd]
    exact hg.lists_base hd
  · exact (hleaves c hc).1

/-- Scheduling a buffer hands out views and gives such a schedule, and never runs out of steps. -/
theorem Buffer.sat_schedule {b : Buffer} (hg : g.WellFormed W) (hb : W.Lists b)
    (held : List Buffer) :
    Sat (b.schedule held) g (fun items g' => ∃ W', Viewed W g W' g' ∧ Scheduled W' g' b items)
      fun e g' => (∃ W', Viewed W g W' g') ∧ ¬e.IsOutOfOrder ∧ ∃ c, Plan.Stuck g c e := by
  rw [schedule, sat_bind, hg.root_eq hb]
  refine (Plan.sat_add hg Plan.sound_empty (hg.lists_base hb) rfl nofun (Nat.lt_succ_self _)).imp ?_
    fun _ _ h => h
  rintro plan g' ⟨W', news, ⟨hviewed, hsound, hready⟩, hreached, hends⟩
  obtain rfl : plan.ready = news := by simpa using hready
  have hperm : plan.lowered.Perm plan.ready := by simpa using hsound.perm
  exact ⟨W', hviewed, fun item hitem => hsound.units item (hperm.mem_iff.mpr hitem),
    (hperm.map _).nodup_iff.mp hsound.nodup, hsound.ordered, hreached, hends⟩

/-- The unit is part of a schedule that was made in the graph, or in an earlier one. -/
def Item.Planned (g : Graph α) (item : Item α) : Prop :=
  ∃ (b : Buffer) (held : List Buffer) (g₀ : Graph α) (items : List (Item α)),
    ((b.schedule held).run g₀).1 = .ok items ∧ item ∈ items ∧ g₀.Grows g

theorem Item.Planned.of_grows {item : Item α} (h : item.Planned g) (hgrows : g.Grows g') :
    item.Planned g' := by
  obtain ⟨b, held, g₀, items, hitems, hitem, hgrows₀⟩ := h
  exact ⟨b, held, g₀, items, hitems, hitem, hgrows₀.trans hgrows⟩

/-- Its units are part of the schedule that is given. -/
theorem Buffer.sat_schedule_planned {b : Buffer} (hg : g.WellFormed W) (hb : W.Lists b)
    (held : List Buffer) :
    Sat (b.schedule held) g (fun items g' => ∃ W', Viewed W g W' g' ∧ Scheduled W' g' b items
        ∧ ∀ item ∈ items, item.Planned g')
      fun e g' => (∃ W', Viewed W g W' g') ∧ ¬e.IsOutOfOrder ∧ ∃ c, Plan.Stuck g c e := by
  refine ((sat_schedule hg hb held).and (sat_run _ g)).imp ?_ fun _ _ h => h.1
  rintro items g' ⟨⟨W', hviewed, hscheduled⟩, hrun⟩
  refine ⟨W', hviewed, hscheduled, fun item hitem => ?_⟩
  exact ⟨b, held, g, items, congrArg Prod.fst hrun, hitem, hviewed.same.grows⟩

end TensorGraph
