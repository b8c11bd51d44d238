import TensorGraph.Proofs.Meaning.Load
import TensorGraph.Proofs.Schedule.Exact
/-!
# Realizing makes the lanes

The units of a schedule run one after the other and fill in results that hold the lanes of their
bases. Realizations that nest are for older bases, and what they fill in is not the result that a
unit is about to fill in.

- `Item.Ready`: a unit that may run.
- `Run.delivers_runUnit`: one unit.
- `Run.realizesUpTo_realizeUpTo`: realizing, with nested realizations up to a depth.
-/

namespace TensorGraph

open TensorGraph.Graph World

variable {α : Type} [Lane α] {devices : Registry α} {rule : Rule} {fixed : Nat → Prop}
  {w w' : Census × Valuation α} {W W' : Census} {v v' : Valuation α} {g g' : Graph α} {e : Engine α}
  {b : Buffer} {item : Item α} {k depth : Nat}

/-! ## Later graphs -/

namespace Graph

/-- An entry that stays keeps its result, or keeps waiting for one. -/
theorem Progress.isRealized_eq (h : Progress devices fixed w g w' g') (hg : g.WellFormed w.1)
    (hb : w.1.Lists b) (hfixed : fixed b.base.id) : g'.isRealized b = g.isRealized b := by
  obtain ⟨e, he, hbase⟩ := hg.census_base _ _ hb
  have he' := h.fixed e he (hbase ▸ hfixed)
  rw [isRealized, isRealized, hg.result?_eq he hbase, h.leads.wellFormed.result?_eq he' hbase]

/-- The result of a base holds its lanes. -/
theorem Meaningful.holds (h : Meaningful devices w g) (hb : w.1.Lists b) {block : Block α}
    (hblock : g.result? b = some block) : block.Holds w.2 b.base := by
  obtain ⟨e, -, hbase, -, hresult, hmeans⟩ := h.entry hb
  exact hbase ▸ hmeans.result block (hresult ▸ hblock)

/-- The result of a base that is no scalar load is passed to kernels with its lanes. -/
theorem Meaningful.supplies (h : Meaningful devices w g) (hb : w.1.Lists b)
    (hconstant : g.isConstant b = false) {block : Block α} (hblock : g.result? b = some block) :
    block.isKernelInput = true ∧ block.Supplies w.2 b.base := by
  obtain ⟨e, -, hbase, hop, hresult, hmeans⟩ := h.entry hb
  have hinput : block.isKernelInput = true := by
    by_contra hinput
    obtain ⟨op, hop', hcode⟩ := hmeans.folded block (hresult ▸ hblock) (by simpa using hinput)
    rw [isConstant, hop, hop', Option.any_some, hcode] at hconstant
    cases hconstant
  refine ⟨hinput, ?_⟩
  have hholds := h.holds hb hblock
  rcases hholds.stored with ⟨value, hstorage, -⟩ | ⟨data, hstorage, -, -, hlane⟩
  · rw [Block.isKernelInput, Block.constant?, hstorage] at hinput
    cases hinput
  · refine ⟨data, hstorage, fun n hn i hi => hlane i ?_⟩
    have hsize := hholds.size
    rw [hn] at hsize
    exact Option.some.inj hsize ▸ hi

end Graph

/-! ## Units -/

/-- What a kernel delivers depends on the lanes of what it reads and of its output. -/
theorem Item.Delivers.congr {calm : Prop} (h : item.Delivers calm v)
    (hout : v item.output.base.id = v' item.output.base.id)
    (hslots : ∀ s ∈ item.slots, v s.base.id = v' s.base.id) : item.Delivers calm v' := by
  intro blocks hblocks
  obtain ⟨data, hrun, hholds⟩ := h blocks (by
    refine ((List.forall₂_and_left _ _).mpr ⟨fun _ hs => hs, hblocks⟩).imp ?_
    rintro s block ⟨hs, data, hstorage, hlane⟩
    exact ⟨data, hstorage, hslots s hs ▸ hlane⟩)
  exact ⟨data, hrun, hholds.congr hout⟩

/-- A unit that gives its base the lanes that the valuation says, on buffers that were handed out. A
load is for a base below `k`. -/
structure Item.Ready (calm : Prop) (w : Census × Valuation α) (g : Graph α) (k : Nat) (item : Item α) :
    Prop where
  /-- The output was handed out. -/
  lists : w.1.Lists item.output
  /-- The output is the handle on a base. -/
  base : item.output = item.output.base.buffer
  /-- The slots were handed out. -/
  slots : ∀ s ∈ item.slots, w.1.Lists s
  /-- The unit makes the lanes of its base. -/
  sound : item.Sound calm w.2 g
  /-- Loads nest below `k`. -/
  below : ∀ op, item.load? = some op → item.output.base.id < k

theorem Item.Ready.of_progress {calm : Prop} (h : item.Ready calm w g k) (hg : g.WellFormed w.1)
    (hprogress : Progress devices fixed w g w' g') : item.Ready calm w' g' k := by
  have hleads := hprogress.leads
  refine ⟨hleads.census.lists h.lists, h.base, fun s hs => hleads.census.lists (h.slots s hs), ?_,
    h.below⟩
  have hagrees (c : Buffer) (hc : w.1.Lists c) : w.2 c.base.id = w'.2 c.base.id :=
    (hprogress.agrees _ (hg.base_lt hc)).symm
  cases h.sound with
  | load hload hne hop => exact .load hload hne ((hleads.op?_eq hg h.lists).trans hop)
  | kernel hload hdelivers hslots =>
    refine .kernel hload (hdelivers.congr (hagrees _ h.lists) fun s hs => hagrees s (h.slots s hs)) ?_
    intro s hs
    rw [isConstant, hleads.op?_eq hg (h.slots s hs)]
    exact hslots s hs

namespace Run

variable {realize : Realizer α}

/-- A unit whose slots are no scalars is run as it was compiled. -/
theorem delivers_compiled (h : Steady devices rule w e.graph)
    (hslots : ∀ s ∈ item.slots, w.1.Lists s ∧ e.graph.isConstant s = false) :
    Delivers devices rule fixed w e (compiled item)
      fun c w' e' => c = ⟨item.tree, item.slots⟩ ∧ w' = w ∧ e' = e := by
  refine (delivers_graph h).look ?_
  rintro g rfl
  split
  · next hany =>
    obtain ⟨slot, hslot, hfolded⟩ := List.any_eq_true.mp hany
    obtain ⟨value, hvalue⟩ := Option.isSome_iff_exists.mp hfolded
    obtain ⟨block, hblock, hconstant⟩ := Option.bind_eq_some_iff.mp hvalue
    obtain ⟨hlist, hscalar⟩ := hslots slot hslot
    have hinput := (h.1.supplies hlist hscalar hblock).1
    rw [Block.isKernelInput, hconstant] at hinput
    cases hinput
  · exact delivers_pure h ⟨rfl, rfl, rfl⟩

/-- A slot with a result is passed to the kernel with its lanes. -/
theorem delivers_slotInput (h : Steady devices rule w e.graph) (output : Buffer) (hb : w.1.Lists b)
    (hconstant : e.graph.isConstant b = false) (hrealized : e.graph.isRealized b = true) :
    Delivers devices rule fixed w e (slotInput output b)
      fun block w' e' => block.Supplies w.2 b.base ∧ w' = w ∧ e' = e := by
  obtain ⟨block, hblock⟩ := Option.isSome_iff_exists.mp hrealized
  obtain ⟨hinput, hsupplies⟩ := h.1.supplies hb hconstant hblock
  refine (delivers_graph h).look ?_
  rintro g rfl
  simp only [hblock, hinput, if_true]
  exact delivers_pure h ⟨hsupplies, rfl, rfl⟩

/-- A block that holds the lanes of the base of a unit is filled in. -/
theorem delivers_finish (h : Steady devices rule w e.graph) (hb : w.1.Lists item.output)
    (hrealized : e.graph.isRealized item.output = false) (hfixed : ¬fixed item.output.base.id)
    {block : Block α} (hblock : block.Holds w.2 item.output.base)
    (hscalar : block.isKernelInput = false → ∃ op, e.graph.op? item.output = some op
      ∧ op.codeIs (· = .load .const) = true) :
    Delivers devices rule fixed w e (finish item block)
      fun _ _ e' => e'.graph.isRealized item.output = true := by
  refine (delivers_graph h).look ?_
  rintro g rfl
  simp only [hrealized]
  have hprogress := h.1.setResult hb hrealized hfixed hblock hscalar
  refine (keeps_modifyGraph (R := steady devices rule fixed) (w := w)
    (f := fun g => g.setResult item.output.base.id block)
    ⟨hprogress, h.2.setResult _ block⟩).imp ?_
  rintro _ w' e' - ⟨rfl, rfl⟩
  exact h.1.1.isRealized_setResult hb block

variable [LawfulLane α]

/-- What a unit makes holds the lanes of its base, which gets no result meanwhile. -/
theorem delivers_execute (hrealize : RealizesUpTo devices rule depth realize)
    (h : Steady devices rule w e.graph) (hready : item.Ready rule.IsCalm w e.graph k) (hk : k ≤ depth + 1)
    (hslots : ∀ s ∈ item.slots, e.graph.isRealized s = true)
    (hfixed : ∀ id, fixed id → k ≤ id ∧ id < e.graph.next) (held : List Buffer) :
    Delivers devices rule fixed w e (execute devices realize held item) fun block w' e' =>
      block.Holds w'.2 item.output.base
        ∧ e'.graph.isRealized item.output = e.graph.isRealized item.output
        ∧ (block.isKernelInput = false → ∃ op, e'.graph.op? item.output = some op
          ∧ op.codeIs (· = .load .const) = true) := by
  obtain ⟨name, capabilities, counted, hfind⟩ := h.1.served hready.lists
  refine (delivers_ofExcept h hfind).look ?_
  rintro _ rfl
  cases hready.sound with
  | @load op hload hne hop =>
    obtain ⟨code, hcode, hopcode⟩ := Option.bind_eq_some_iff.mp hload
    obtain rfl : code = .load op := by
      cases code <;> cases hopcode
      rfl
    have hlt := hready.below op hload
    -- the entry of the output stays too, so that it does not get a result
    have hrun : Delivers devices rule (fun id => fixed id ∨ id = item.output.base.id) w e
        (runLoad realize held (.interpreter name capabilities counted .never) item.output op item.tree)
        fun block w' _ => block.Holds w'.2 item.output.base
          ∧ (block.isKernelInput = false → item.tree.codeIs (· = .load .const) = true) := by
      refine delivers_runLoad hrealize h hready.lists hready.base hop hcode hne (by omega) ?_ held
      rintro id (hid | rfl)
      · obtain ⟨hle, hnext⟩ := hfixed id hid
        exact ⟨by omega, hnext⟩
      · exact ⟨le_refl _, h.1.1.base_lt hready.lists⟩
    rw [hload]
    refine Delivers.mono (hrun.imp ?_) fun id => .inl
    rintro block w' e' ⟨hprogress, -⟩ ⟨hholds, hscalar⟩
    refine ⟨hholds, hprogress.isRealized_eq h.1.1 hready.lists (.inr rfl), fun hinput => ?_⟩
    exact ⟨item.tree, (hprogress.leads.op?_eq h.1.1 hready.lists).trans hop, hscalar hinput⟩
  | kernel hload hdelivers hscalars =>
    rw [hload]
    refine (delivers_compiled h fun s hs => ⟨hready.slots s hs, hscalars s hs⟩).look ?_
    rintro _ rfl
    refine (keeps_mapM h fun s hs => delivers_slotInput h item.output (hready.slots s hs)
      (hscalars s hs) (hslots s hs)).bind ?_
    rintro blocks w e - ⟨hblocks, rfl, rfl⟩
    obtain ⟨data, hrun, hholds⟩ := hdelivers blocks hblocks
    refine (delivers_askExecute h item.output.device hrun).imp ?_
    rintro _ w' e' - ⟨rfl, rfl, hgraph⟩
    exact ⟨hholds, by rw [hgraph], nofun⟩

/-- A unit that may run gives its base a result. -/
theorem delivers_runUnit (hrealize : RealizesUpTo devices rule depth realize)
    (h : Steady devices rule w e.graph) (hready : item.Ready rule.IsCalm w e.graph k) (hk : k ≤ depth + 1)
    (hslots : ∀ s ∈ item.slots, e.graph.isRealized s = true)
    (hfixed : ∀ id, fixed id → k ≤ id ∧ id < e.graph.next ∧ id ≠ item.output.base.id)
    (held : List Buffer) :
    Delivers devices rule fixed w e (runUnit devices realize held item)
      fun _ _ e' => e'.graph.isRealized item.output = true := by
  refine (delivers_graph h).look ?_
  rintro g rfl
  split
  · next hunrealized =>
    refine (World.keeps_begin (R := steady devices rule fixed) h item).bind ?_
    rintro context w e₁ hleads₁ ⟨rfl, hgraph⟩
    have h₁ : Steady devices rule w e₁.graph := steady_sound hleads₁
    have hfixed₁ : ∀ id, fixed id → k ≤ id ∧ id < e₁.graph.next := by
      intro id hid
      obtain ⟨hle, hnext, -⟩ := hfixed id hid
      exact ⟨hle, hgraph ▸ hnext⟩
    refine ((delivers_execute hrealize h₁ (hgraph ▸ hready) hk (hgraph ▸ hslots) hfixed₁
      held).attempt id).bind ?_
    rintro (cause | block) w₂ e₂ hleads₂ hblock
    · exact absurd hblock.1 nofun
    obtain ⟨hholds, hsame, hscalar⟩ := hblock
    have hprogress₂ : Progress devices fixed w e₁.graph w₂ e₂.graph := hleads₂.1
    refine (keeps_record (R := steady devices rule fixed) (steady_sound hleads₂) _).bind ?_
    rintro _ w₂ e₃ hleads₃ ⟨rfl, rfl⟩
    have hrealized : e₂.graph.isRealized item.output = false := by
      rw [hsame, hgraph]
      simpa using hunrealized
    exact delivers_finish (steady_sound hleads₃)
      (hprogress₂.leads.census.lists hready.lists) hrealized
      (fun hid => (hfixed _ hid).2.2 rfl) hholds hscalar
  · next hrealized =>
    exact delivers_pure h (by simpa using hrealized)

end Run

/-! ## Schedules -/

/-- The units of a schedule may run. -/
theorem Scheduled.ready [LawfulLane α] (h : Steady devices rule w g) (hb : w.1.Lists b)
    {items : List (Item α)} (hscheduled : Scheduled w.1 g b items) (hwithin : b.Within g k) :
    ∀ item ∈ items, item.Ready rule.IsCalm w g k := by
  intro item hitem
  obtain ⟨hlowers, hlist, hbase, -⟩ := hscheduled.units item hitem
  refine ⟨hlist, hbase, fun s hs => ?_, hlowers.sound h.1 h.2.calm hlist hbase, ?_⟩
  · exact hscheduled.lists h.1.1 hitem (by simp [Item.handles, hs])
  · exact (hscheduled.within h.1.1 hb hwithin item hitem).2

namespace Run

/-- A buffer can be scheduled. -/
theorem delivers_schedule (h : Steady devices rule w e.graph) (hb : w.1.Lists b)
    (held : List Buffer) :
    Delivers devices rule fixed w e (build (b.schedule held))
      fun items w' e' => Scheduled w'.1 e'.graph b items ∧ e'.graph.cores = e.graph.cores := by
  have hkeeps {W' : Census} {g' : Graph α} (hviewed : Viewed w.1 e.graph W' g') :
      (steady devices rule fixed).Leads w e.graph (W', w.2) g' :=
    ⟨h.1.viewed hviewed, h.2.viewed hviewed⟩
  refine keeps_build ((Buffer.sat_schedule h.1.1 hb held).imp ?_ ?_)
  · rintro items g' ⟨W', hviewed, hscheduled⟩
    exact ⟨(W', w.2), hkeeps hviewed, hscheduled, hviewed.same.cores⟩
  · rintro _ g' ⟨⟨W', hviewed⟩, -, c, hstuck⟩
    obtain ⟨rfl, hmoderate⟩ := h.1.stopped_of_stuck hstuck
    exact ⟨⟨rfl, fun hcalm => hmoderate (h.2.calm hcalm).moderate⟩, (W', w.2), hkeeps hviewed⟩

variable [LawfulLane α] {realize : Realizer α} {items : List (Item α)}

/-- Units that come after what they read give their bases results. -/
theorem delivers_runUnits (hrealize : RealizesUpTo devices rule depth realize)
    (h : Steady devices rule w e.graph) (hready : ∀ item ∈ items, item.Ready rule.IsCalm w e.graph k)
    (hk : k ≤ depth + 1)
    (hordered : ∀ before item after, items = before ++ item :: after → ∀ s ∈ item.slots,
      e.graph.isRealized s = true ∨ ∃ earlier ∈ before, earlier.output.base.id = s.base.id)
    (hfixed : ∀ id, fixed id → k ≤ id ∧ id < e.graph.next
      ∧ ∀ item ∈ items, id ≠ item.output.base.id) (held : List Buffer) :
    Delivers devices rule fixed w e (items.forM (runUnit devices realize held))
      fun _ _ e' => ∀ item ∈ items, e'.graph.isRealized item.output = true := by
  induction items generalizing w e with
  | nil => exact delivers_pure h nofun
  | cons item items ih =>
    obtain ⟨hready₀, hready⟩ := List.forall_mem_cons.mp hready
    change Delivers devices rule fixed w e (runUnit devices realize held item >>= fun _ =>
      items.forM (runUnit devices realize held)) _
    have hslots : ∀ s ∈ item.slots, e.graph.isRealized s = true := by
      intro s hs
      rcases hordered [] item items rfl s hs with hrealized | ⟨_, hnil, -⟩
      · exact hrealized
      · cases hnil
    refine (delivers_runUnit hrealize h hready₀ hk hslots (fun id hid => ?_) held).bind ?_
    · obtain ⟨hle, hnext, hne⟩ := hfixed id hid
      exact ⟨hle, hnext, hne item List.mem_cons_self⟩
    intro _ w₁ e₁ hleads₁ hrealized₁
    have hprogress₁ : Progress devices fixed w e.graph w₁ e₁.graph := hleads₁.1
    have h₁ : Steady devices rule w₁ e₁.graph := steady_sound hleads₁
    have hready₁ : ∀ x ∈ items, x.Ready rule.IsCalm w₁ e₁.graph k := fun x hx =>
      (hready x hx).of_progress h.1.1 hprogress₁
    refine (ih h₁ hready₁ ?_ ?_).imp ?_
    · intro before x after heq s hs
      have hx : x ∈ items := heq ▸ by simp
      -- what a later unit reads had its result before, or has got it now, or gets it in between
      rcases hordered (item :: before) x after (by rw [heq]; rfl) s hs with
        hrealized | ⟨earlier, hearlier, hid⟩
      · exact .inl (hprogress₁.leads.isRealized h.1.1 ((hready x hx).slots s hs) hrealized)
      · rcases List.mem_cons.mp hearlier with rfl | hearlier
        · left
          rwa [isRealized, result?, ← hid]
        · exact .inr ⟨earlier, hearlier, hid⟩
    · intro id hid
      obtain ⟨hle, hnext, hne⟩ := hfixed id hid
      exact ⟨hle, hnext.trans_le hprogress₁.leads.grows.next_le,
        fun x hx => hne x (List.mem_cons_of_mem _ hx)⟩
    · rintro _ w₂ e₂ hleads₂ hrealized₂
      have hprogress₂ : Progress devices fixed w₁ e₁.graph w₂ e₂.graph := hleads₂.1
      refine List.forall_mem_cons.mpr ⟨?_, hrealized₂⟩
      exact hprogress₂.leads.isRealized h₁.1.1 (hprogress₁.leads.census.lists hready₀.lists) hrealized₁

/-- However realizations nest, they give results that hold the lanes of their bases. -/
theorem realizesUpTo_realizeUpTo (devices : Registry α) {rule : Rule} (depth : Nat) :
    RealizesUpTo devices rule depth (realizeUpTo devices depth) := by
  induction depth with
  | zero =>
    -- nothing lies below the number zero
    intro w e fixed k b h hb hk hwithin
    obtain rfl := Nat.le_zero.mp hk
    cases hwithin with
    | base hlt => exact absurd hlt (Nat.not_lt_zero _)
    | copy _ hlt => exact absurd hlt (Nat.not_lt_zero _)
  | succ depth ih =>
    intro w e fixed k b h hb hk hwithin hfixed held
    refine (delivers_graph h).look ?_
    rintro g rfl
    split
    · next block hblock =>
      exact delivers_pure h (h.1.holds hb hblock)
    refine (delivers_schedule h hb held).bind ?_
    rintro items w₁ e₁ hleads₁ ⟨hscheduled, hcores⟩
    have hprogress₁ : Progress devices fixed w e.graph w₁ e₁.graph := hleads₁.1
    have h₁ : Steady devices rule w₁ e₁.graph := steady_sound hleads₁
    have hb₁ := hprogress₁.leads.census.lists hb
    have hwithin₁ : b.Within e₁.graph k := hwithin.of_same hcores
    have hwithins := hscheduled.within h₁.1.1 hb₁ hwithin₁
    refine (delivers_runUnits ih h₁ (hscheduled.ready h₁ hb₁ hwithin₁) hk ?_ ?_ _).bind ?_
    · intro before item after heq s hs
      exact (hscheduled.exact h₁.1.1).ordered before item after heq s (List.mem_append_right _ hs)
    · intro id hid
      obtain ⟨hle, hnext, hne⟩ := hfixed id hid
      refine ⟨hle, hnext.trans_le hprogress₁.leads.grows.next_le, fun item hitem => ?_⟩
      rcases (hwithins item hitem).1 with hlt | heq <;> omega
    intro _ w₂ e₂ hleads₂ hrealized₂
    have hprogress₂ : Progress devices fixed w₁ e₁.graph w₂ e₂.graph := hleads₂.1
    have h₂ : Steady devices rule w₂ e₂.graph := steady_sound hleads₂
    have hb₂ := hprogress₂.leads.census.lists hb₁
    -- the base had a result, or one of the units gave it one
    have hrealized : e₂.graph.isRealized b = true := by
      rcases hscheduled.reached with hrealized | ⟨item, hitem, hid⟩
      · exact hprogress₂.leads.isRealized h₁.1.1 hb₁ hrealized
      · have hoid : item.output.id = item.output.base.id :=
          congrArg Buffer.id (hscheduled.units item hitem).2.2.1
        have hdone := hrealized₂ item hitem
        rwa [isRealized, result?, ← hoid, hid] at hdone
    refine (delivers_graph h₂).look ?_
    rintro g rfl
    obtain ⟨block, hblock⟩ := Option.isSome_iff_exists.mp hrealized
    rw [hblock]
    exact delivers_pure h₂ (h₂.1.holds hb₂ hblock)

end Run

namespace Buffer

/-- The depth that realizations start with. -/
theorem delivers_depth (h : Steady devices rule w e.graph) :
    Run.Delivers devices rule fixed w e Run.depth
      fun depth w' e' => depth = e.graph.next + 1 ∧ w' = w ∧ e' = e := by
  refine (Run.delivers_graph h).look ?_
  rintro g rfl
  exact Run.delivers_pure h ⟨rfl, rfl, rfl⟩

variable [LawfulLane α]

/-- Realizing a buffer gives a result that holds the lanes of the base. -/
theorem delivers_realize (h : Steady devices rule w e.graph) (hb : w.1.Lists b)
    (held : List Buffer) :
    Run.Delivers devices rule (fun _ => False) w e (b.realize devices held)
      fun block w' _ => block.Holds w'.2 b.base := by
  refine (delivers_depth h).look ?_
  rintro depth rfl
  have hlt := h.1.1.base_lt hb
  exact Run.realizesUpTo_realizeUpTo devices _ h hb (le_refl _) (.base (by omega)) nofun held

/-- Reading a buffer back gives the lanes that the buffer shows. -/
theorem delivers_readBack (h : Steady devices rule w e.graph) (hb : w.1.Lists b) {dims : List Nat}
    (hinto : b.Into dims) (hleaf : rule.leaves b.tracker) (held : List Buffer) :
    Run.Delivers devices rule (fun _ => False) w e (b.readBack devices held)
      fun array _ _ => array.shape = dims ∧ array.dtype = b.dtype
        ∧ ∀ i < dims.prod, array.lanes[i]? = some ((b.dense w.2).lane i) := by
  refine (delivers_depth h).look ?_
  rintro depth rfl
  have hlt := h.1.1.base_lt hb
  exact Run.delivers_readBack (Run.realizesUpTo_realizeUpTo devices _) h hb hinto hleaf
    (le_refl _) (by omega) nofun held

end Buffer

end TensorGraph
