import TensorGraph.Proofs.Engine.Realize
/-!
# What a failed realization leaves

A unit that fails leaves its base without a result, and so does a schedule of which any unit fails
for the base that it was made for. Hence a realization succeeds exactly if the base has a result
afterwards.

- `Run.waits_runUnits`: units that fail.
- `Run.sat_realizeUpTo`: a realization, whatever the depth of those that nest in it.
-/

namespace TensorGraph

open TensorGraph.Graph TensorGraph.Engine World

variable {α : Type} [Lane α] {W : Census} {e : Engine α} {b : Buffer} {item last : Item α}
  {init items : List (Item α)} {k : Nat} {realize : Realizer α}

omit [Lane α] in
/-- The units before that of the base itself are for older bases. -/
theorem Scheduled.init_due {g : Graph α} (hg : g.WellFormed W) (hb : W.Lists b)
    (h : Scheduled W g b (init ++ [last])) (hplanned : ∀ item ∈ init ++ [last], item.Planned g)
    (hlast : last.output = b.base.buffer) :
    ∀ item ∈ init, item.Due W g last.output.base.id
      ∧ item.output.base.id ≠ last.output.base.id := by
  intro item hitem
  have hmem : item ∈ init ++ [last] := List.mem_append_left _ hitem
  have hdue := h.due hg hb hplanned (.base (Nat.lt_succ_self _)) item hmem
  have hwithin := (h.within hg hb (.base (Nat.lt_succ_self _)) item hmem).1
  have hid : last.output.base.id = b.base.id := by rw [hlast]; rfl
  have hne : item.output.base.id ≠ last.output.base.id := by
    have hnodup := h.nodup
    rw [List.map_append, List.nodup_append] at hnodup
    have hne := hnodup.2.2 _ (List.mem_map_of_mem hitem) last.output.id (by simp)
    rw [hdue.base, hlast] at hne
    exact hid ▸ hne
  have hlt : item.output.base.id < last.output.base.id := by omega
  exact ⟨{ hdue with below := fun _ _ => hlt }, hne⟩

namespace Run

/-- A unit that fails leaves its base without a result. -/
theorem waits_runUnit (devices : Registry α) (hrealize : RealizesBelow realize) (h : Orderly W e)
    (hdue : item.Due W e.graph k) (hsupplied : item.Supplied e.graph) (held : List Buffer) :
    Sat (runUnit devices realize held item) e (fun _ _ => True)
      fun _ e' => e'.graph.isRealized item.output = false := by
  rw [runUnit, sat_bind, sat_graph]
  split
  · next hunrealized =>
    have hwaits : e.graph.isRealized item.output = false := by simpa using hunrealized
    have hbegin : Keeps (· = item.output.base.id) W e (begin item) fun context W' e' =>
        item.Begins context e'.journal ∧ W' = W ∧ e'.graph = e.graph := keeps_begin h hdue hwaits
    refine sat_bind.mpr (Sat.imp hbegin ?_ ?_)
    · rintro context e₁ ⟨W₁, hadvances₁, hbegins, rfl, hgraph⟩
      have h₁ := Advances.orderly hadvances₁
      have hexecute : Keeps (fun id => False ∨ id = item.output.base.id) W₁ e₁
          (execute devices realize held item) fun _ _ _ => True :=
        keeps_execute devices hrealize h₁ (hgraph ▸ hdue) (hgraph ▸ hsupplied) hbegins nofun held
      -- the base waits until the unit has ended
      refine sat_bind.mpr (sat_attempt.mpr (Sat.imp hexecute ?_ ?_))
      · rintro block e₂ ⟨W₂, hadvances₂, -⟩
        have hwaits₂ := Advances.isRealized_eq hadvances₂ h₁.wellFormed hdue.lists (.inr rfl)
          (hgraph ▸ hwaits)
        exact Sat.imp (sat_finish hwaits₂ context block) (fun _ _ _ => trivial) fun _ _ h => h.elim
      · rintro failure e₂ ⟨-, W₂, hfails⟩
        have hwaits₂ := Advances.isRealized_eq hfails h₁.wellFormed hdue.lists (.inr rfl)
          (hgraph ▸ hwaits)
        refine ⟨?_, fun _ => hwaits₂⟩
        rintro cause rfl
        exact hwaits₂
    · rintro failure e' ⟨-, W', hfails⟩
      exact Advances.isRealized_eq hfails h.wellFormed hdue.lists rfl hwaits
  · trivial

/-- Units that fail leave the base of the last one without a result, if the others are for older
bases. -/
theorem waits_runUnits (devices : Registry α) (hrealize : RealizesBelow realize) (h : Orderly W e)
    (hinit : ∀ item ∈ init, item.Due W e.graph last.output.base.id
      ∧ item.output.base.id ≠ last.output.base.id)
    (hlast : last.Due W e.graph k) (hordered : Plan.Ordered e.graph (init ++ [last]))
    (hwaits : e.graph.isRealized last.output = false) (held : List Buffer) :
    Sat ((init ++ [last]).forM (runUnit devices realize held)) e (fun _ _ => True)
      fun _ e' => e'.graph.isRealized last.output = false := by
  induction init generalizing W e with
  | nil =>
    exact sat_bind.mpr ((waits_runUnit devices hrealize h hlast hordered.supplied held).imp
      (fun _ _ _ => trivial) fun _ _ h => h)
  | cons item init ih =>
    obtain ⟨⟨hdue, hne⟩, hinit⟩ := List.forall_mem_cons.mp hinit
    have hfirst : Keeps (· = last.output.base.id) W e (runUnit devices realize held item)
        fun _ _ e' => e'.graph.isRealized item.output = true := by
      refine keeps_runUnit devices hrealize h hdue hordered.supplied ?_ held
      rintro id rfl
      exact ⟨le_refl _, h.wellFormed.lt_next (h.wellFormed.lists_base hlast.lists), hne.symm⟩
    refine sat_bind.mpr (Sat.imp hfirst ?_ ?_)
    · rintro _ e₁ ⟨W₁, hadvances₁, hdone⟩
      have hgraph := Advances.graph hadvances₁
      have hinputs : ∀ x ∈ init ++ [last], ∀ b ∈ x.inputs, W.Lists b := by
        intro x hx
        rcases List.mem_append.mp hx with hx | hx
        · exact (hinit x hx).1.inputs
        · exact List.mem_singleton.mp hx ▸ hlast.inputs
      refine ih (Advances.orderly hadvances₁) (fun x hx => ?_)
        (hlast.of_leads h.wellFormed hgraph)
        (ordered_tail h.wellFormed hgraph hdue.base hinputs hordered hdone)
        (Advances.isRealized_eq hadvances₁ h.wellFormed hlast.lists rfl hwaits)
      exact ⟨(hinit x hx).1.of_leads h.wellFormed hgraph, (hinit x hx).2⟩
    · rintro failure e' ⟨-, W', hfails⟩
      exact Advances.isRealized_eq hfails h.wellFormed hlast.lists rfl hwaits

omit [Lane α] in
/-- After its units, a realization looks the result of the base up once more. -/
theorem sat_finally (b : Buffer) (e : Engine α) :
    Sat (do
      let g ← graph
      match g.result? b with
      | some block => return block
      | none => fail (.unrealized (g.summary b)) : Run α (Block α)) e
      (fun block e' => e'.graph.result? b = some block)
      fun _ e' => e'.graph.isRealized b = false := by
  rw [sat_bind, sat_graph]
  split
  · next block hblock => exact hblock
  · next hnone =>
    change e.graph.isRealized b = false
    rw [isRealized, hnone]
    rfl

/-- A realization that succeeds gives the result that the base has then; one that fails leaves the
base without a result. -/
theorem sat_realizeUpTo (devices : Registry α) (depth : Nat) (h : Orderly W e) (hb : W.Lists b)
    (held : List Buffer) :
    Sat (realizeUpTo devices (depth + 1) held b) e
      (fun block e' => e'.graph.result? b = some block)
      fun _ e' => e'.graph.isRealized b = false := by
  rw [realizeUpTo, sat_bind, sat_graph]
  split
  · next block hblock => exact hblock
  next hnone =>
  have hwaits : e.graph.isRealized b = false := by
    rw [isRealized, Option.eq_none_iff_forall_ne_some.mpr hnone]
    rfl
  refine sat_bind.mpr (sat_build.mpr ((Buffer.sat_schedule_planned h.wellFormed hb held).imp ?_ ?_))
  · rintro items g₁ ⟨W₁, hviewed, hscheduled, hplanned⟩
    have hadvances : Advances (fun _ => False) Event.Calm W e W₁ { e with graph := g₁ } :=
      h.built hviewed.built
    have h₁ : Orderly W₁ { e with graph := g₁ } := hadvances.orderly
    have hb₁ := hviewed.census.lists hb
    refine sat_bind.mpr ?_
    rcases hscheduled.ends with rfl | ⟨init, last, rfl, hlast, -⟩
    · exact sat_finally b _
    have hsame : g₁.isRealized last.output = g₁.isRealized b := by
      rw [hlast, isRealized, isRealized]
      rfl
    refine (waits_runUnits devices (realizesBelow_realizeUpTo devices depth) h₁
      (hscheduled.init_due h₁.wellFormed hb₁ hplanned hlast)
      (hscheduled.due h₁.wellFormed hb₁ hplanned (.base (Nat.lt_succ_self _)) last (by simp))
      hscheduled.ordered
      (hsame.trans ((isRealized_congr hviewed.same.cores b).trans hwaits)) _).imp
      (fun _ e' _ => sat_finally b e') fun _ e' hfails => ?_
    rw [hlast] at hfails
    exact hfails
  · rintro cause g₁ ⟨⟨W₁, hviewed⟩, -⟩
    exact (isRealized_congr hviewed.same.cores b).trans hwaits

end Run

end TensorGraph
