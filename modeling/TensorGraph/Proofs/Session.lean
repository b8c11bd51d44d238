import TensorGraph.Proofs.Engine.Realize
import TensorGraph.Session.Step
/-!
# Reachable sessions

Whatever commands a session takes, and whether or not it meets them, its engine stays orderly, and
every handle that it holds was handed out by the graph. If more is known of the engine, and making
and realizing buffers keep that too, then so do all commands.

- `Engine.Account`: what may be known about the engine of a session.
- `Session.world`: what is known about a session, given what is known about its engine.
- `Command.sat_perform`: what a command does to the engine and to the names.
- `Session.Reachable`: the sessions that commands lead to.
- `Session.Owns`: the buffers that a session knows.
- `Session.Reachable.sound`: a reachable session is orderly.
-/

namespace TensorGraph

open TensorGraph.Graph World

variable {α ω : Type}

/-- What is known about engines, if part of it is that the graph is well-formed, with the buffers of a
census, and if views may be handed out. -/
structure Engine.Account (ω α : Type) extends World ω (Engine α) where
  /-- The buffers that were handed out. -/
  census : ω → Census
  /-- The graph is well-formed. -/
  wellFormed {w : ω} {e : Engine α} : Sound w e → e.graph.WellFormed (census w)
  /-- Buffers stay handed out. -/
  grows {w w' : ω} {e e' : Engine α} : Fails w e w' e' → (census w).Grows (census w')
  /-- Views may be handed out. -/
  viewed {w : ω} {e : Engine α} {W : Census} {g : Graph α} : Sound w e →
    Viewed (census w) e.graph W g → ∃ w', census w' = W ∧ Leads w e w' { e with graph := g }

/-- What is known of every engine. -/
def Engine.account : Engine.Account Census α where
  toWorld := Engine.orderly fun _ => False
  census W := W
  wellFormed h := h.wellFormed
  grows h := h.graph.census
  viewed h hviewed := ⟨_, rfl, h.built hviewed.built⟩

variable {A : Engine.Account ω α} {w w' : ω} {s s' : Session α} {name : String} {b c : Buffer}

namespace Session

/-- What is known about a session: what is known about its engine, and that the handles that it holds
were handed out. While a session is described so, no buffer gets or loses a name. -/
def world (A : Engine.Account ω α) : World ω (Session α) where
  Sound w s := A.Sound w s.engine ∧ ∀ b ∈ s.held, (A.census w).Lists b
  Leads w s w' s' := A.Leads w s.engine w' s'.engine
    ∧ (∀ b ∈ s'.held, (A.census w').Lists b) ∧ s'.buffers = s.buffers
  refl h := ⟨A.refl h.1, h.2, rfl⟩
  trans h h' := ⟨A.trans h.1 h'.1, h'.2.1, h'.2.2.trans h.2.2⟩
  Fails w s w' s' := A.Fails w s.engine w' s'.engine
    ∧ (∀ b ∈ s'.held, (A.census w').Lists b) ∧ s'.buffers = s.buffers
  fails h := ⟨A.fails h.1, h.2⟩
  trans_fails h h' := ⟨A.trans_fails h.1 h'.1, h'.2.1, h'.2.2.trans h.2.2⟩
  sound_fails h := ⟨A.sound_fails h.1, h.2.1⟩

/-- The session has the buffer under the name. -/
def Names (s : Session α) (name : String) (b : Buffer) : Prop := s.buffers.lookup name = some b

theorem mem_forget {β : Type} {pairs : List (String × β)} {p : String × β}
    (h : p ∈ forget name pairs) : p ∈ pairs :=
  (List.mem_filter.mp h).1

theorem mem_held : b ∈ s.held ↔ (∃ p ∈ s.buffers, p.2 = b)
    ∨ ∃ p ∈ s.schedules, ∃ item ∈ p.2, b ∈ item.handles := by
  simp only [held, List.mem_append, List.mem_map, List.mem_flatMap]

/-- A buffer with a name was handed out. -/
theorem Names.lists (h : s.Names name b) (hs : (world A).Sound w s) : (A.census w).Lists b := by
  obtain ⟨before, after, hmem, -⟩ := List.lookup_eq_some_iff.mp h
  exact hs.2 b (mem_held.mpr (.inl ⟨(name, b), by simp [hmem], rfl⟩))

/-- Buffers with names were handed out. -/
theorem Names.all_lists {names : List String} {bs : List Buffer}
    (h : List.Forall₂ (fun name b => s.Names name b) names bs) (hs : (world A).Sound w s) :
    ∀ b ∈ bs, (A.census w).Lists b := by
  intro b hb
  obtain ⟨name, -, hname⟩ := exists_of_forall₂_left h.flip hb
  exact Names.lists hname hs

theorem held_bind (h : c ∈ (s.bind name b).held) :
    c = b ∨ c ∈ s.held := by
  rcases mem_held.mp h with ⟨p, hp, rfl⟩ | h
  · rcases List.mem_cons.mp hp with rfl | hp
    · exact .inl rfl
    · exact .inr (mem_held.mpr (.inl ⟨p, mem_forget hp, rfl⟩))
  · exact .inr (mem_held.mpr (.inr h))

theorem held_drop (h : c ∈ (s.drop name).held) : c ∈ s.held := by
  rcases mem_held.mp h with ⟨p, hp, rfl⟩ | h
  · exact mem_held.mpr (.inl ⟨p, mem_forget hp, rfl⟩)
  · exact mem_held.mpr (.inr h)

theorem held_keep {items : List (Item α)}
    (h : c ∈ (s.keep name items).held) : (∃ item ∈ items, c ∈ item.handles) ∨ c ∈ s.held := by
  rcases mem_held.mp h with h | ⟨p, hp, item, hitem, hc⟩
  · exact .inr (mem_held.mpr (.inl h))
  · rcases List.mem_cons.mp hp with rfl | hp
    · exact .inl ⟨item, hitem, hc⟩
    · exact .inr (mem_held.mpr (.inr ⟨p, mem_forget hp, item, hitem, hc⟩))

theorem held_release (h : c ∈ (s.release name).held) :
    c ∈ s.held := by
  rcases mem_held.mp h with h | ⟨p, hp, item, hitem, hc⟩
  · exact mem_held.mpr (.inl h)
  · exact mem_held.mpr (.inr ⟨p, mem_forget hp, item, hitem, hc⟩)

end Session

/-- A step is met or refused as its command is performed. -/
theorem Session.step_cases [Lane α] {devices : Registry α} {c : Command α}
    {post : Answer α → Session α → Prop} {fail : Refusal → Session α → Prop}
    (h : Sat (c.perform devices) s post fail) :
    (∃ answer, (s.step devices c).1.result = .ok answer ∧ post answer (s.step devices c).2)
      ∨ ∃ cause, (s.step devices c).1.result = .error cause ∧ fail cause (s.step devices c).2 := by
  have hresult : (s.step devices c).1.result = ((c.perform devices).run s).1 := rfl
  have hstep : (s.step devices c).2 = ((c.perform devices).run s).2 := rfl
  rw [Sat] at h
  rw [hresult, hstep]
  rcases hrun : (c.perform devices).run s with ⟨cause | answer, s'⟩ <;> rw [hrun] at h
  · exact .inr ⟨cause, rfl, h⟩
  · exact .inl ⟨answer, rfl, h⟩

/-! ## Computations of a session -/

namespace Act

variable {β γ : Type} {fail : Refusal → Prop}

section Outcome

variable {fail : Refusal → Session α → Prop}

theorem sat_held {post : List Buffer → Session α → Prop} :
    Sat held s post fail ↔ post s.held s := Iff.rfl

/-- A buffer is looked up by its name. -/
theorem sat_buffer {post : Buffer → Session α → Prop} : Sat (buffer name) s post fail
    ↔ (s.buffers.lookup name).elim (fail (.unknownName name) s) fun b => post b s := by
  rw [buffer, sat_bind, sat_get]
  cases s.buffers.lookup name <;> rfl

/-- What the engine of a session does. -/
theorem sat_engine {r : Run α β} {post : β → Session α → Prop} :
    Sat (engine r) s post fail ↔ Sat r s.engine (fun b e => post b { s with engine := e })
      fun cause e => fail (.failed cause) { s with engine := e } := by
  rw [engine, sat_bind, sat_get, Sat, Sat]
  rcases r.run s.engine with ⟨cause | b, e⟩ <;> rfl

end Outcome

/-- The computation `x` keeps what is known about the session, whether it is refused or not. -/
abbrev Keeps (A : Engine.Account ω α) (w : ω) (s : Session α) (x : Act α β)
    (post : β → ω → Session α → Prop) : Prop :=
  (Session.world A).Keeps w s x post fun _ => True

/-- The computation `x` only looks at the session. -/
abbrev Looks (A : Engine.Account ω α) (w : ω) (s : Session α) (x : Act α β) (post : β → Prop)
    (fail : Refusal → Prop) : Prop :=
  (Session.world A).Keeps w s x (fun b w' s' => post b ∧ w' = w ∧ s' = s) fail

variable (hs : (Session.world A).Sound w s)
include hs

theorem looks_held : Looks A w s held (· = s.held) fail :=
  ⟨w, (Session.world A).refl hs, rfl, rfl, rfl⟩

theorem looks_graph : Looks A w s graph (· = s.engine.graph) fail :=
  ⟨w, (Session.world A).refl hs, rfl, rfl, rfl⟩

theorem looks_buffer (name : String) :
    Looks A w s (buffer name) (s.Names name) fun _ => True := by
  refine (keeps_get hs).bind ?_
  rintro _ w s - ⟨rfl, rfl, rfl⟩
  split
  · next b hb => exact keeps_pure hs ⟨hb, rfl, rfl⟩
  · exact keeps_throw hs trivial

/-- A buffer with a name is found. -/
theorem looks_named (h : s.Names name b) : Looks A w s (buffer name) (· = b) fail := by
  refine (keeps_get hs).bind ?_
  rintro _ w s - ⟨rfl, rfl, rfl⟩
  rw [Session.Names] at h
  simp only [h]
  exact keeps_pure hs ⟨rfl, rfl, rfl⟩

theorem looks_buffers (names : List String) : Looks A w s (names.mapM buffer)
    (List.Forall₂ (fun name b => s.Names name b) names) fun _ => True :=
  keeps_mapM hs fun name _ => looks_buffer hs name

theorem looks_operation (hb : (A.census w).Lists b) :
    Looks A w s (operation b) (fun op => ∀ c ∈ op.leaves, (A.census w).Lists c) fun _ => True := by
  refine (looks_graph hs).look ?_
  rintro _ rfl
  split
  · next op hop =>
    have hcomputes := (A.wellFormed hs.1).computes_op? hb hop
    exact keeps_pure hs ⟨fun c hc => (hcomputes.older c hc).1, rfl, rfl⟩
  · exact keeps_throw hs trivial

/-- What the engine does to itself it does to the session; the handles stay. -/
theorem keeps_engine {r : Run α β} {post : β → ω → Session α → Prop}
    (h : A.Keeps w s.engine r (fun b w' e' => post b w' { s with engine := e' })
      fun cause => fail (.failed cause)) : (Session.world A).Keeps w s (engine r) post fail := by
  have hheld {w' : ω} {e' : Engine α} (hfails : A.Fails w s.engine w' e') :
      ∀ b ∈ s.held, (A.census w').Lists b :=
    fun b hb => (A.grows hfails).lists (hs.2 b hb)
  refine sat_engine.mpr (Sat.imp h ?_ ?_)
  · rintro b e' ⟨w', hleads, hpost⟩
    exact ⟨w', ⟨hleads, hheld (A.fails hleads), rfl⟩, hpost⟩
  · rintro cause e' ⟨hcause, w', hfails⟩
    exact ⟨hcause, w', hfails, hheld hfails, rfl⟩

theorem looks_ofExcept (r : Except Error β) :
    Looks A w s (ofExcept r) (fun b => r = .ok b) fun _ => True := by
  have hr : A.Keeps w s.engine (Run.ofExcept r)
      (fun b w' e' => r = .ok b ∧ w' = w ∧ e' = s.engine) fun _ => True :=
    World.keeps_ofExcept hs.1 fun _ _ => trivial
  refine keeps_engine hs (hr.imp ?_)
  rintro b w' e' - ⟨hb, rfl, rfl⟩
  exact ⟨hb, rfl, rfl⟩

theorem looks_argument (arg : Argument α) :
    Looks A w s (argument arg) (fun a => arg = .ok a) fun _ => True := by
  refine (looks_ofExcept hs _).imp ?_
  rintro a w' s' - ⟨ha, rfl, rfl⟩
  refine ⟨?_, rfl, rfl⟩
  cases arg with
  | ok b => exact congrArg Except.ok (Except.ok.inj ha)
  | error cause => cases ha

theorem looks_info (b : Buffer) : Looks A w s (info b) (fun _ => True) fail := by
  refine (looks_graph hs).look fun g _ => ?_
  refine (looks_held hs).look fun held _ => ?_
  exact keeps_pure hs ⟨trivial, rfl, rfl⟩

theorem looks_substitution (entry : Substitution) :
    Looks A w s (substitution entry) (fun _ => True) fun _ => True := by
  refine (looks_buffer hs entry.leaf).look fun leaf _ => ?_
  refine (looks_buffer hs entry.replacement).look fun b _ => ?_
  refine (looks_graph hs).look fun g _ => ?_
  exact keeps_pure hs ⟨trivial, rfl, rfl⟩

/-- A computation on the graph that hands out views only. -/
theorem keeps_viewing {x : Build α β} (mid : β → Census → Prop)
    (hx : Sat x s.engine.graph
      (fun c g' => ∃ W, Viewed (A.census w) s.engine.graph W g' ∧ mid c W)
      fun _ g' => ∃ W, Viewed (A.census w) s.engine.graph W g') :
    Keeps A w s (build x) fun c w' _ => mid c (A.census w') := by
  refine keeps_engine hs (World.sat_build.mpr (Sat.imp hx ?_ ?_))
  · rintro c g' ⟨W, hviewed, hmid⟩
    obtain ⟨w', rfl, hleads⟩ := A.viewed hs.1 hviewed
    exact ⟨w', hleads, hmid⟩
  · rintro _ g' ⟨W, hviewed⟩
    obtain ⟨w', -, hleads⟩ := A.viewed hs.1 hviewed
    exact ⟨trivial, w', A.fails hleads⟩

theorem keeps_schedule (hb : (A.census w).Lists b) (held : List Buffer) :
    Keeps A w s (build (b.schedule held))
      fun items w' _ => ∀ item ∈ items, ∀ c ∈ item.handles, (A.census w').Lists c := by
  refine keeps_viewing hs (fun items W => ∀ item ∈ items, ∀ c ∈ item.handles, W.Lists c)
    (Sat.imp (Buffer.sat_schedule (A.wellFormed hs.1) hb held) ?_ ?_)
  · rintro items g' ⟨W, hviewed, hscheduled⟩
    exact ⟨W, hviewed, fun item hitem c => hscheduled.lists hviewed.wellFormed hitem⟩
  · rintro _ g' ⟨hviewed, -⟩
    exact hviewed

theorem keeps_joinReduction {op : Tree α} (hop : ∀ c ∈ op.leaves, (A.census w).Lists c)
    (held : List Buffer) (output : Shape) (fusion : Fusion) :
    Keeps A w s (build (op.joinReduction held output fusion)) fun _ _ _ => True := by
  refine keeps_viewing hs (fun _ _ => True)
    ((Tree.sat_joinReduction (A.wellFormed hs.1) hop output).imp ?_ ?_)
  · rintro t g' ⟨W, shape, hviewed, -⟩
    exact ⟨W, hviewed, trivial⟩
  · rintro _ g' ⟨hviewed, -⟩
    exact hviewed

end Act

/-! ## Commands -/

/-- What a command that is met does to the names, if the buffers that it makes are `made`. -/
def Command.Renames (made : Buffer → ω → Prop) (w : ω) (s s' : Session α) : Command α → Prop
  | .define name _ => ∃ b, made b w ∧ s'.buffers = (name, b) :: forget name s.buffers
  | .drop name => s'.buffers = forget name s.buffers
  | _ => s'.buffers = s.buffers

/-- Making and realizing buffers, as the command asks for it, keeps what is known. -/
structure Command.Kept [Lane α] (A : Engine.Account ω α) (devices : Registry α) (w : ω)
    (s : Session α) (made : Buffer → ω → Prop) (c : Command α) : Prop where
  /-- Making buffers does. -/
  make : ∀ name recipe, c = .define name recipe →
    Act.Keeps A w s (recipe.make devices) fun b w' _ => (A.census w').Lists b ∧ made b w'
  /-- Realizing buffers does. -/
  realize : ∀ name b held, c = .realize name → s.Names name b →
    A.Keeps w s.engine (b.realize devices held) (fun _ _ _ => True) fun _ => True
  /-- Reading buffers back does. -/
  readBack : ∀ name b held, c = .readBack name → s.Names name b →
    A.Keeps w s.engine (b.readBack devices held) (fun _ _ _ => True) fun _ => True

/-- From what was known before a command, this is known after it. -/
structure Command.Ends (A : Engine.Account ω α) (leads : ω → Engine α → ω → Engine α → Prop)
    (w : ω) (s : Session α) (w' : ω) (s' : Session α) : Prop where
  /-- The engine has gone on. -/
  engine : leads w s.engine w' s'.engine
  /-- The handles that are held were handed out. -/
  held : ∀ b ∈ s'.held, (A.census w').Lists b

/-- A command that renames nothing keeps what is known. -/
theorem Command.sat_of_keeps [Lane α] {devices : Registry α} {made : Buffer → ω → Prop}
    {c : Command α} (h : Act.Keeps A w s (c.perform devices) fun _ _ _ => True)
    (hc : ∀ w' s', s'.buffers = s.buffers → c.Renames made w' s s') :
    Sat (c.perform devices) s
      (fun _ s' => ∃ w', Ends A A.Leads w s w' s' ∧ c.Renames made w' s s')
      fun _ s' => ∃ w', Ends A A.Fails w s w' s' ∧ s'.buffers = s.buffers := by
  refine Sat.imp h ?_ ?_
  · rintro _ s' ⟨w', ⟨hleads, hheld, hbuffers⟩, -⟩
    exact ⟨w', ⟨hleads, hheld⟩, hc w' s' hbuffers⟩
  · rintro _ s' ⟨-, w', hfails, hheld, hbuffers⟩
    exact ⟨w', ⟨hfails, hheld⟩, hbuffers⟩

/-- A definition keeps what making the buffer keeps, and is refused only as making the buffer is. -/
theorem Command.sat_define [Lane α] {devices : Registry α} {recipe : Recipe α}
    {made : Buffer → ω → Prop} {fail : Refusal → Prop}
    (h : (Session.world A).Keeps w s (recipe.make devices)
      (fun b w' _ => (A.census w').Lists b ∧ made b w') fail) :
    Sat ((define name recipe).perform devices) s
      (fun _ s' => ∃ w', Ends A A.Leads w s w' s'
        ∧ ∃ b, made b w' ∧ s'.buffers = (name, b) :: forget name s.buffers)
      fun cause s' => fail cause ∧ ∃ w', Ends A A.Fails w s w' s' ∧ s'.buffers = s.buffers := by
  refine sat_bind.mpr (Sat.imp h ?_ ?_)
  · rintro b s₁ ⟨w', ⟨hleads, hheld, hbuffers⟩, hb, hmade⟩
    have hs' : (Session.world A).Sound w' (s₁.bind name b) := by
      refine ⟨A.sound hleads, fun c hc => ?_⟩
      rcases Session.held_bind hc with rfl | hc
      · exact hb
      · exact hheld c hc
    refine sat_bind.mpr (sat_modify _ |>.mpr (sat_bind.mpr ?_))
    have hinfo : Act.Looks A w' _ (Act.info b) (fun _ => True) fun _ => False :=
      Act.looks_info hs' b
    refine Sat.imp hinfo ?_ fun _ _ h => h.1.elim
    rintro info _ ⟨_, -, -, rfl, rfl⟩
    exact ⟨_, ⟨hleads, hs'.2⟩, b, hmade, congrArg (_ :: forget name ·) hbuffers⟩
  · rintro cause s' ⟨hcause, w', hfails, hheld, hbuffers⟩
    exact ⟨hcause, w', ⟨hfails, hheld⟩, hbuffers⟩

/-- A command keeps what is known about the session, whether it is met or refused. A refused one
leaves the names as they are. -/
theorem Command.sat_perform [Lane α] {devices : Registry α} {made : Buffer → ω → Prop}
    {c : Command α} (hs : (Session.world A).Sound w s) (hc : c.Kept A devices w s made) :
    Sat (c.perform devices) s
      (fun _ s' => ∃ w', Ends A A.Leads w s w' s' ∧ c.Renames made w' s s')
      fun _ s' => ∃ w', Ends A A.Fails w s w' s' ∧ s'.buffers = s.buffers := by
  cases c with
  | define name recipe =>
    exact (sat_define (hc.make name recipe rfl)).imp (fun _ _ h => h) fun _ _ h => h.2
  | drop x =>
    have hleads := A.refl hs.1
    exact ⟨w, ⟨hleads, fun b hb => hs.2 b (Session.held_drop hb)⟩, rfl⟩
  | release x =>
    have hleads := A.refl hs.1
    exact ⟨w, ⟨hleads, fun b hb => hs.2 b (Session.held_release hb)⟩, rfl⟩
  | count => exact ⟨w, ⟨A.refl hs.1, hs.2⟩, rfl⟩
  | inspect x =>
    refine sat_of_keeps ?_ fun _ _ => id
    refine (Act.looks_buffer hs x).look fun b _ => ?_
    refine (Act.looks_info hs b).look fun info _ => ?_
    exact keeps_pure hs trivial
  | summarize x =>
    refine sat_of_keeps ?_ fun _ _ => id
    refine (Act.looks_buffer hs x).look fun b _ => ?_
    refine (Act.looks_graph hs).look fun g _ => ?_
    exact keeps_pure hs trivial
  | locate x =>
    refine sat_of_keeps ?_ fun _ _ => id
    refine (Act.looks_buffer hs x).look fun b _ => ?_
    exact keeps_pure hs trivial
  | schedule x name =>
    refine sat_of_keeps ?_ fun _ _ => id
    refine (Act.looks_buffer hs x).look fun b hb => ?_
    refine (Act.looks_held hs).look fun held _ => ?_
    refine (Act.keeps_schedule hs (hb.lists hs) held).bind fun items w s hleads hitems => ?_
    have hs := (Session.world A).sound hleads
    cases name with
    | none => exact keeps_pure hs trivial
    | some name =>
      -- a schedule that is kept under a name is held from now on
      have hkeep : Act.Keeps A w s (modify fun s => s.keep name items) fun _ _ _ => True := by
        refine ⟨w, ⟨A.refl hs.1, fun c hc => ?_, rfl⟩, trivial⟩
        rcases Session.held_keep hc with ⟨item, hitem, hc⟩ | hc
        · exact hitems item hitem c hc
        · exact hs.2 c hc
      exact hkeep.wrap _
  | realize x =>
    refine sat_of_keeps ?_ fun _ _ => id
    refine (Act.looks_buffer hs x).look fun b hb => ?_
    refine (Act.looks_held hs).look fun held _ => ?_
    have hrealize : Act.Keeps A w s (Act.engine (b.realize devices held)) fun _ _ _ => True :=
      Act.keeps_engine hs (hc.realize x b held rfl hb)
    exact hrealize.wrap _
  | readBack x =>
    refine sat_of_keeps ?_ fun _ _ => id
    refine (Act.looks_buffer hs x).look fun b hb => ?_
    refine (Act.looks_held hs).look fun held _ => ?_
    have hread : Act.Keeps A w s (Act.engine (b.readBack devices held)) fun _ _ _ => True :=
      Act.keeps_engine hs (hc.readBack x b held rfl hb)
    exact hread.wrap _
  | operation x =>
    refine sat_of_keeps ?_ fun _ _ => id
    refine (Act.looks_buffer hs x).look fun b hb => ?_
    refine (Act.looks_operation hs (hb.lists hs)).look fun op _ => ?_
    exact keeps_pure hs trivial
  | substitute x entries =>
    refine sat_of_keeps ?_ fun _ _ => id
    refine (Act.looks_buffer hs x).look fun b hb => ?_
    refine (Act.looks_operation hs (hb.lists hs)).look fun op _ => ?_
    have hpairs : Act.Looks A w s (entries.mapM Act.substitution)
        (List.Forall₂ (fun _ _ => True) entries) fun _ => True :=
      keeps_mapM hs fun entry _ => Act.looks_substitution hs entry
    refine hpairs.look fun pairs _ => ?_
    exact keeps_pure hs trivial
  | joinProducer x fusion =>
    refine sat_of_keeps ?_ fun _ _ => id
    refine (Act.looks_buffer hs x).look fun b hb => ?_
    refine (Act.looks_operation hs (hb.lists hs)).look fun op _ => ?_
    refine (Act.looks_graph hs).look fun g _ => ?_
    refine (Act.looks_held hs).look fun held _ => ?_
    exact keeps_pure hs trivial
  | joinReduction x output fusion =>
    refine sat_of_keeps ?_ fun _ _ => id
    refine (Act.looks_buffer hs x).look fun b hb => ?_
    refine (Act.looks_operation hs (hb.lists hs)).look fun op hop => ?_
    refine (Act.looks_held hs).look fun held _ => ?_
    exact (Act.keeps_joinReduction hs hop held _ fusion).wrap _
  | resolve x =>
    refine sat_of_keeps ?_ fun _ _ => id
    refine (Act.looks_buffer hs x).look fun b hb => ?_
    refine (Act.looks_operation hs (hb.lists hs)).look fun op _ => ?_
    refine (Act.looks_graph hs).look fun g _ => ?_
    refine (Act.looks_ofExcept hs _).look fun compiled _ => ?_
    exact keeps_pure hs trivial

/-! ## Orderly sessions -/

variable {W : Census}

namespace Session

/-- What is known of every session. -/
abbrev Orderly (W : Census) (s : Session α) : Prop := (world Engine.account).Sound W s

end Session

/-- Building adds bases that wait. -/
theorem Act.keeps_handsOut (hs : s.Orderly W) {x : Build α Buffer}
    (hx : Build.HandsOut W s.engine.graph x) :
    Act.Keeps Engine.account W s (Act.build x) fun b W' _ => W'.Lists b :=
  Act.keeps_engine hs ((Run.keeps_built hs.1 hx).imp fun _ _ _ _ h => h.1)

/-- Making a buffer keeps the engine orderly. -/
theorem Recipe.keeps_make [Lane α] (devices : Registry α) (hs : s.Orderly W) (recipe : Recipe α) :
    Act.Keeps Engine.account W s (recipe.make devices) fun b W' _ => W'.Lists b := by
  have hwell := hs.1.wellFormed
  cases recipe with
  | upload shape dtype lanes device config =>
    refine (Act.looks_ofExcept hs _).look fun array _ => ?_
    exact Act.keeps_engine hs (Buffer.keeps_upload devices hs.1 array device config)
  | constant value shape dtype device config =>
    exact Act.keeps_handsOut hs (Buffer.handsOut_constant hwell ..)
  | load op shape dtype device arg sources config =>
    refine (Act.looks_buffers hs sources).look fun bs hbs => ?_
    refine (Act.looks_argument hs arg).look fun a _ => ?_
    exact Act.keeps_handsOut hs (Buffer.handsOut_load hwell (Session.Names.all_lists hbs hs) ..)
  | constantLike x value =>
    refine (Act.looks_buffer hs x).look fun b hb => ?_
    exact Act.keeps_handsOut hs (Buffer.handsOut_constant hwell ..)
  | copy x device =>
    refine (Act.looks_buffer hs x).look fun b hb => ?_
    exact Act.keeps_handsOut hs (Buffer.handsOut_load hwell
      (fun c hc => List.mem_singleton.mp hc ▸ hb.lists hs) ..)
  | move x movement =>
    refine (Act.looks_buffer hs x).look fun b hb => ?_
    exact Act.keeps_handsOut hs (Buffer.handsOut_move hwell (hb.lists hs) movement)
  | contiguous x =>
    refine (Act.looks_buffer hs x).look fun b hb => ?_
    exact Act.keeps_handsOut hs (Buffer.handsOut_contiguous hwell (hb.lists hs))
  | root x =>
    refine (Act.looks_buffer hs x).look fun b hb => ?_
    refine keeps_pure hs ?_
    rw [hwell.root_eq (hb.lists hs)]
    exact hwell.lists_base (hb.lists hs)
  | same x =>
    refine (Act.looks_buffer hs x).imp ?_
    rintro b W' s' - ⟨hb, rfl, rfl⟩
    exact hb.lists hs
  | elementwise x code others arg =>
    refine (Act.looks_buffers hs others).look fun bs hbs => ?_
    refine (Act.looks_buffer hs x).look fun b hb => ?_
    refine (Act.looks_held hs).look fun held _ => ?_
    refine (Act.looks_argument hs arg).look fun a _ => ?_
    have hall : ∀ c ∈ b :: bs, W.Lists c :=
      List.forall_mem_cons.mpr ⟨hb.lists hs, Session.Names.all_lists hbs hs⟩
    exact Act.keeps_handsOut hs (Buffer.handsOut_elementwise hwell hall held code a)
  | reduce x op target =>
    refine (Act.looks_buffer hs x).look fun b hb => ?_
    exact Act.keeps_handsOut hs (Buffer.handsOut_reduce hwell (hb.lists hs) op target)

/-- Every command keeps the engine orderly. -/
theorem Command.kept [Lane α] (devices : Registry α) (hs : s.Orderly W) (c : Command α) :
    c.Kept Engine.account devices W s fun _ _ => True where
  make _ recipe _ := (recipe.keeps_make devices hs).imp fun _ _ _ _ hb => ⟨hb, trivial⟩
  realize _ _ held _ hb :=
    (Buffer.keeps_realize devices hs.1 (hb.lists hs) held).imp fun _ _ _ _ _ => trivial
  readBack _ _ held _ hb := Buffer.keeps_readBack devices hs.1 (hb.lists hs) held

/-! ## Reachable sessions -/

namespace Session

/-- The sessions that commands lead to, one after the other, on the given devices. -/
inductive Reachable [Lane α] (devices : Registry α) : Session α → Prop
  /-- The empty session. -/
  | start : Reachable devices {}
  /-- The session after a command, whether it was met or refused. -/
  | step {s : Session α} (hs : Reachable devices s) (c : Command α) :
    Reachable devices (s.step devices c).2

/-- The buffers that a session knows: the handles that it holds, the bases of its graph, and the
buffers that their operations read. -/
inductive Owns (s : Session α) : Buffer → Prop
  /-- A handle that is held. -/
  | held {b : Buffer} (h : b ∈ s.held) : Owns s b
  /-- A base. -/
  | base {e : Entry α} (h : e ∈ s.engine.graph.entries) : Owns s e.base.buffer
  /-- A leaf of an operation. -/
  | leaf {e : Entry α} {b : Buffer} (h : e ∈ s.engine.graph.entries) (hb : b ∈ e.leaves) : Owns s b

theorem orderly_start : ({} : Session α).Orderly fun _ => none :=
  ⟨⟨wellFormed_empty, nofun, fun _ _ _ h => by simp at h, fun _ _ _ h => by simp at h,
    fun _ _ _ h => by simp at h⟩, nofun⟩

/-- A command leaves a session orderly. If no loader swallows errors, a command that is met lets no
unit fail, and in one that is refused nothing follows a failure but the failures that it causes. -/
theorem orderly_step [Lane α] (devices : Registry α) (hs : s.Orderly W) (c : Command α) :
    ∃ W', (s.step devices c).2.Orderly W'
      ∧ Engine.Advances (fun _ => False) Event.Halts W s.engine W' (s.step devices c).2.engine
      ∧ ∀ answer, (s.step devices c).1.result = .ok answer →
        Engine.Advances (fun _ => False) Event.Calm W s.engine W' (s.step devices c).2.engine := by
  rcases step_cases (Command.sat_perform hs (c.kept devices hs)) with
    ⟨_, -, W', hends, -⟩ | ⟨_, hrefused, W', hends, -⟩
  · exact ⟨W', ⟨hends.engine.orderly, hends.held⟩, hends.engine.halts, fun _ _ => hends.engine⟩
  · refine ⟨W', ⟨hends.engine.orderly, hends.held⟩, hends.engine, fun answer hmet => ?_⟩
    cases hrefused.symm.trans hmet

theorem Reachable.sound [Lane α] {devices : Registry α} (hs : s.Reachable devices) :
    ∃ W, s.Orderly W := by
  induction hs with
  | start => exact ⟨_, orderly_start⟩
  | step _ c ih =>
    obtain ⟨W, hsound⟩ := ih
    obtain ⟨W', hsound', -⟩ := orderly_step devices hsound c
    exact ⟨W', hsound'⟩

theorem Owns.lists (hs : s.Orderly W) (hb : s.Owns b) : W.Lists b := by
  have hwell := hs.1.wellFormed
  cases hb with
  | held h => exact hs.2 b h
  | base h => exact hwell.base_listed (Entry.core _) (mem_cores.mpr ⟨_, h, rfl⟩)
  | leaf h hleaf => exact (hwell.older_leaf (mem_cores.mpr ⟨_, h, rfl⟩) hleaf).1

end Session

end TensorGraph
