import TensorGraph.Proofs.Engine.Keeps
import TensorGraph.Proofs.Schedule.Discipline
/-!
# Sessions of typed operations

A load may be built from raw parts: a scalar load without a scalar, or a dense copy that claims another
shape than its source. The constructors of constants and dense copies do not do that, nor does anything
that runs on its own. So a session whose commands use these constructors has a typed graph, whatever
other loads, movements and operations it builds, and whether or not its commands are met.

- `Maintains`: computations that keep an invariant, wherever they start and however they end.
- `Graph.LoadsTyped`: scalar loads and dense copies are what their constructors make.
- `Session.Composed`: the sessions whose commands use these constructors.
- `Session.Composed.typed`: their graphs are typed, if their shapes have few enough elements.
-/

namespace TensorGraph

open TensorGraph.Graph

/-! ## Computations that keep an invariant -/

section Maintains

variable {ε σ β γ : Type} {I : σ → Prop}

/-- From a state with the invariant `I`, the computation ends in one, whether it succeeds or fails. -/
def Maintains (I : σ → Prop) (x : ExceptT ε (StateM σ) β) : Prop :=
  ∀ s, I s → Sat x s (fun _ => I) fun _ => I

theorem maintains_pure (b : β) : Maintains I (pure b : ExceptT ε (StateM σ) β) := fun _ hs => hs

theorem maintains_throw (e : ε) : Maintains I (throw e : ExceptT ε (StateM σ) β) := fun _ hs => hs

theorem maintains_throw_bind (e : ε) (f : γ → ExceptT ε (StateM σ) β) :
    Maintains I (throw e >>= f) := fun _ hs => sat_bind.mpr hs

theorem maintains_get : Maintains I (get : ExceptT ε (StateM σ) σ) := fun _ hs => hs

theorem maintains_modify {f : σ → σ} (h : ∀ s, I s → I (f s)) :
    Maintains I (modify f : ExceptT ε (StateM σ) PUnit) := h

theorem maintains_modifyGet {f : σ → β × σ} (h : ∀ s, I s → I (f s).2) :
    Maintains I (modifyGet f : ExceptT ε (StateM σ) β) := h

theorem maintains_liftM (x : Except ε β) : Maintains I (liftM x : ExceptT ε (StateM σ) β) := by
  cases x with
  | ok b => exact maintains_pure b
  | error e => exact maintains_throw e

theorem Maintains.bind {x : ExceptT ε (StateM σ) γ} {f : γ → ExceptT ε (StateM σ) β}
    (hx : Maintains I x) (hf : ∀ c, Maintains I (f c)) : Maintains I (x >>= f) :=
  fun s hs => sat_bind.mpr (Sat.imp (hx s hs) (fun c s' hs' => hf c s' hs') fun _ _ h => h)

theorem maintains_foldlM {δ : Type} {f : δ → γ → ExceptT ε (StateM σ) δ}
    (hf : ∀ d c, Maintains I (f d c)) (l : List γ) (d : δ) : Maintains I (l.foldlM f d) := by
  induction l generalizing d with
  | nil => exact maintains_pure d
  | cons c l ih =>
    rw [List.foldlM_cons]
    exact (hf d c).bind ih

theorem maintains_mapM {f : γ → ExceptT ε (StateM σ) β} (hf : ∀ c, Maintains I (f c))
    (l : List γ) : Maintains I (l.mapM f) := by
  induction l with
  | nil => exact maintains_pure []
  | cons c l ih =>
    rw [List.mapM_cons]
    exact (hf c).bind fun _ => ih.bind fun _ => maintains_pure _

theorem maintains_forM {f : γ → ExceptT ε (StateM σ) PUnit} (hf : ∀ c, Maintains I (f c))
    (l : List γ) : Maintains I (l.forM f) := by
  induction l with
  | nil => exact maintains_pure _
  | cons c l ih =>
    exact (hf c).bind fun _ => ih

end Maintains

variable {α β : Type}

/-! ## Loads -/

/-- If the operation of a base with that shape and type is a scalar load, it carries a scalar; if it is
a dense copy, it is of the shape and the type of its source. -/
structure Tree.LoadsAs (shape : Shape) (dtype : DType) (op : Tree α) : Prop where
  /-- A scalar load carries a scalar. -/
  scalar : op.codeIs (· = .load .const) = true → op.arg.scalar?.isSome = true
  /-- A dense copy is of the shape and the type of its source. -/
  copy : op.codeIs (· = .load .contiguous) = true →
    ∀ b ∈ op.leaves, b.shape = shape ∧ b.dtype = dtype

variable {g g' : Graph α} {op : Tree α} {shape : Shape} {dtype : DType}

theorem Tree.LoadsAs.issuedFor (h : op.LoadsAs shape dtype) (id : Nat) :
    (op.issuedFor id).LoadsAs shape dtype := by
  cases op with
  | buffer => exact h
  | node => exact ⟨h.scalar, fun hcode c hc => h.copy hcode c (by simpa using hc)⟩

theorem Tree.loadsAs_of_not_isLoad (h : op.codeIs Opcode.isLoad = false) : op.LoadsAs shape dtype where
  scalar hcode := by
    have := codeIs_mono (q := Opcode.isLoad) hcode fun _ h => of_decide_eq_true h ▸ rfl
    cases h.symm.trans this
  copy hcode := by
    have := codeIs_mono (q := Opcode.isLoad) hcode fun _ h => of_decide_eq_true h ▸ rfl
    cases h.symm.trans this

/-- A load that is neither a scalar nor a dense copy is none that has to fit. -/
theorem Tree.loadsAs_load {load : LoadOp} (hconst : load ≠ .const) (hcopy : load ≠ .contiguous)
    (arg : Arg α) (issuer : Option Nat) (sources : List (Tree α)) :
    (node (.load load) arg issuer sources).LoadsAs shape dtype where
  scalar hcode := absurd (by simpa [codeIs, code?] using hcode) hconst
  copy hcode := absurd (by simpa [codeIs, code?] using hcode) hcopy

namespace Graph

/-- The scalar loads and the dense copies of the graph are what their constructors make. -/
def LoadsTyped (g : Graph α) : Prop :=
  ∀ e ∈ g.cores, ∀ op, e.op = some op → op.LoadsAs e.base.shape e.base.dtype

theorem loadsTyped_congr (h : g'.cores = g.cores) (hg : g.LoadsTyped) : g'.LoadsTyped := by
  rwa [LoadsTyped, h]

theorem LoadsTyped.insertView (hg : g.LoadsTyped) (b : Buffer) (tracker : Tracker) :
    (g.insertView b tracker).2.LoadsTyped :=
  loadsTyped_congr (cores_insertView g b tracker) hg

theorem LoadsTyped.insert (hg : g.LoadsTyped) {op : Option (Tree α)}
    (h : ∀ t ∈ op, t.LoadsAs shape dtype) (result : Option (Block α)) (device : String)
    (config : Config) : (g.insert op result shape dtype device config).2.LoadsTyped := by
  rw [LoadsTyped, cores_insert]
  refine List.forall_mem_cons.mpr ⟨fun t ht => ?_, hg⟩
  obtain ⟨u, hu, rfl⟩ := Option.map_eq_some_iff.mp ht
  exact (h u hu).issuedFor _

/-- A change of entries that leaves their bases and operations leaves the loads. -/
theorem LoadsTyped.map {f : Entry α → Entry α} (hcores : g'.cores = g.cores.map f)
    (hbase : ∀ e, (f e).base = e.base) (hop : ∀ e, (f e).op = e.op) (hg : g.LoadsTyped) :
    g'.LoadsTyped := by
  rw [LoadsTyped, hcores]
  refine List.forall_mem_map.mpr fun e he op hop' => ?_
  rw [hbase]
  exact hg e he op ((hop e).symm.trans hop')

theorem LoadsTyped.setResult (hg : g.LoadsTyped) (id : Nat) (block : Block α) :
    (g.setResult id block).LoadsTyped :=
  .map (cores_setResult g id block) (fun e => by split <;> rfl) (fun e => by split <;> rfl) hg

theorem LoadsTyped.countCall (hg : g.LoadsTyped) (id : Nat) : (g.countCall id).LoadsTyped :=
  .map (cores_countCall g id) (fun e => by split <;> rfl) (fun e => by split <;> rfl) hg

end Graph

/-! ## Building -/

/-- The computation on a graph keeps its loads typed. -/
abbrev Build.KeepsLoads (x : Build α β) : Prop := Maintains Graph.LoadsTyped x

namespace Buffer

variable (b : Buffer) (held : List Buffer)

theorem keepsLoads_requireFormable (shape : Shape) :
    (requireFormable shape : Build α Unit).KeepsLoads := by
  rw [requireFormable]
  split
  · exact maintains_pure _
  · exact maintains_throw _

theorem keepsLoads_compute (h : op.LoadsAs shape dtype) (device : String) (config : Config) :
    (compute op shape dtype device config).KeepsLoads := by
  refine (keepsLoads_requireFormable shape).bind fun _ => maintains_modifyGet fun g hg => ?_
  exact hg.insert (fun t ht => Option.some.inj ht ▸ h) none device config

theorem keepsLoads_withTracker (tracker : Tracker) :
    (b.withTracker tracker : Build α Buffer).KeepsLoads := by
  rw [withTracker]
  split
  · exact maintains_pure _
  · exact maintains_modifyGet fun g hg => hg.insertView b tracker

theorem keepsLoads_move (m : Movement) : (b.move m : Build α Buffer).KeepsLoads := by
  rw [move]
  split
  · exact keepsLoads_withTracker b _
  · exact maintains_throw _

theorem keepsLoads_load {load : LoadOp} {arg : Arg α} {sources : List Buffer}
    (h : (Tree.node (.load load) arg none (sources.map .buffer)).LoadsAs shape dtype)
    (device : String) (config : Config) :
    (Buffer.load load shape dtype device arg sources config).KeepsLoads := by
  rw [Buffer.load]
  split
  · split
    · exact maintains_throw_bind _ _
    · exact keepsLoads_compute h device config
  · exact keepsLoads_compute h device config

theorem keepsLoads_constant (value : α) (shape : Shape) (dtype : DType) (device : String)
    (config : Config) : (constant value shape dtype device config).KeepsLoads := by
  have hscalar : (Tree.node (.load .const) (.scalar value) none [] : Tree α).LoadsAs .scalar dtype :=
    ⟨fun _ => rfl, fun hcode => by cases hcode⟩
  refine (keepsLoads_load hscalar device config).bind fun scalar => ?_
  exact (keepsLoads_move scalar _).bind fun ones => keepsLoads_move ones _

theorem keepsLoads_contiguous : (b.contiguous : Build α Buffer).KeepsLoads := by
  rw [contiguous]
  split
  · exact maintains_pure _
  · refine keepsLoads_load ⟨(fun hcode => by cases hcode), fun _ c hc => ?_⟩ b.device b.config
    obtain rfl : c = b := by simpa using hc
    exact ⟨rfl, rfl⟩

theorem keepsLoads_operand (merge : Bool) : (operand merge held b : Build α (Tree α)).KeepsLoads := by
  have hexpress (op : Tree α) : (b.express op).KeepsLoads := by
    rw [express]
    split
    · exact maintains_pure _
    · refine Maintains.bind (maintains_mapM (fun c => ?_) _) fun _ => maintains_pure _
      exact (keepsLoads_move c _).bind fun _ => maintains_pure _
  refine maintains_get.bind fun g => ?_
  split
  · split
    · exact hexpress _
    · exact maintains_pure _
  · exact maintains_pure _

theorem keepsLoads_operands (merge : Bool) (bs : List Buffer) :
    (operands merge held bs : Build α (List (Tree α))).KeepsLoads := by
  induction bs generalizing held with
  | nil => exact maintains_pure _
  | cons b bs ih =>
    exact (keepsLoads_operand b held merge).bind fun tree => (ih _).bind fun _ => maintains_pure _

theorem keepsLoads_elementwise (code : Opcode) (others : List Buffer) (arg : Arg α) :
    (b.elementwise held code others arg).KeepsLoads := by
  rw [elementwise]
  split
  · exact maintains_throw_bind _ _
  next hcode =>
  have hcode : code.isElementwise = true := by simpa using hcode
  dsimp only
  split
  · exact maintains_throw_bind _ _
  split
  · exact maintains_throw_bind _ _
  refine (maintains_liftM _).bind fun dtype => ?_
  refine (keepsLoads_operands _ _ _).bind fun sources => keepsLoads_compute ?_ _ _
  refine Tree.loadsAs_of_not_isLoad ?_
  exact Tree.codeIs_eq_false (p := Opcode.isElementwise) hcode fun _ => Opcode.isLoad_of_isElementwise

theorem keepsLoads_reduceOnce (op : ReduceOp) (target : Shape) :
    (b.reduceOnce op target : Build α Buffer).KeepsLoads := by
  rw [reduceOnce]
  split
  · exact maintains_pure _
  · exact keepsLoads_compute (Tree.loadsAs_of_not_isLoad rfl) b.device b.config

theorem keepsLoads_reduce (op : ReduceOp) (target : Shape) :
    (b.reduce op target : Build α Buffer).KeepsLoads := by
  have htwice (old : List Nat) (s : Split) :
      (b.reduceTwice op target old s : Build α Buffer).KeepsLoads :=
    (keepsLoads_move b _).bind fun cut => (keepsLoads_reduceOnce cut op _).bind fun inner =>
      (keepsLoads_move inner _).bind fun outer => keepsLoads_reduceOnce outer op target
  rw [reduce]
  split
  · exact maintains_throw_bind _ _
  dsimp only
  split
  · exact maintains_throw_bind _ _
  split
  · exact maintains_pure _
  split
  · have hcountable : (requireCountable b.shape target : Build α Unit).KeepsLoads := by
      rw [requireCountable]
      split
      · exact maintains_pure _
      · exact maintains_throw _
    refine hcountable.bind fun _ => ?_
    split
    · exact htwice _ _
    · exact keepsLoads_reduceOnce b op target
  · exact keepsLoads_reduceOnce b op target

end Buffer

/-! ## Scheduling -/

theorem Tree.keepsLoads_joinReduction (op : Tree α) (held : List Buffer) (output : Shape)
    (fusion : Fusion) : (op.joinReduction held output fusion).KeepsLoads := by
  refine maintains_get.bind fun g => (maintains_liftM _).bind fun shape => ?_
  refine Maintains.bind (maintains_mapM (fun c => ?_) _) fun _ => maintains_pure _
  exact (Buffer.keepsLoads_move c _).bind fun _ => maintains_pure _

theorem Buffer.keepsLoads_lower (base : Buffer) (held : List Buffer) :
    (base.lower held : Build α (Item α)).KeepsLoads := by
  have hfuse (op : Tree α) (code : Opcode) : (base.fuse held op code).KeepsLoads := by
    cases code with
    | unary | binary | ternary => exact op.keepsLoads_joinReduction _ _ _
    | reduce => exact maintains_get.bind fun _ => maintains_pure _
    | _ => exact maintains_throw _
  refine maintains_get.bind fun g => ?_
  split
  · split
    · exact maintains_pure _
    · exact (hfuse _ _).bind fun _ => maintains_get.bind fun _ => (maintains_liftM _).bind fun _ =>
        maintains_pure _
  · exact maintains_throw _

theorem Plan.keepsLoads_add (held : List Buffer) (steps : Nat) (base : Buffer) (plan : Plan α) :
    (Plan.add held steps base plan).KeepsLoads := by
  induction steps generalizing base plan with
  | zero => exact maintains_throw _
  | succ steps ih =>
    refine maintains_get.bind fun g => ?_
    split
    · exact maintains_pure _
    · refine (base.keepsLoads_lower _).bind fun item => ?_
      exact (maintains_foldlM (fun plan (input : Buffer) => ih input.root plan) _ _).bind fun _ =>
        maintains_pure _

theorem Buffer.keepsLoads_schedule (b : Buffer) (held : List Buffer) :
    (b.schedule held : Build α (List (Item α))).KeepsLoads :=
  (Plan.keepsLoads_add _ _ _ _).bind fun _ => maintains_pure _

/-! ## Running -/

/-- The graph of an engine has typed loads. -/
def Engine.LoadsTyped (e : Engine α) : Prop := e.graph.LoadsTyped

namespace Run

/-- The computation of the engine keeps the loads of its graph typed. -/
abbrev KeepsLoads (r : Run α β) : Prop := Maintains Engine.LoadsTyped r

theorem keepsLoads_ofExcept (r : Except Error β) : (ofExcept r : Run α β).KeepsLoads := by
  cases r with
  | ok b => exact maintains_pure b
  | error cause => exact maintains_throw _

theorem keepsLoads_build {x : Build α β} (h : x.KeepsLoads) : (build x).KeepsLoads :=
  fun e he => World.sat_build.mpr (h e.graph he)

theorem keepsLoads_graph : (graph : Run α (Graph α)).KeepsLoads := fun _ he => he

theorem keepsLoads_depth : (depth : Run α Nat).KeepsLoads :=
  keepsLoads_graph.bind fun _ => maintains_pure _

theorem keepsLoads_record (event : Event α) : (record event).KeepsLoads := fun _ he => he

theorem keepsLoads_attempt {r : Run α β} (h : r.KeepsLoads) :
    Maintains Engine.LoadsTyped (attempt r : Run α (Except Error β)) := fun e he =>
  World.sat_attempt.mpr (Sat.imp (h e he) (fun _ _ h => h) fun _ _ h => ⟨fun _ _ => h, fun _ => h⟩)

theorem keepsLoads_ask (backend : Backend α) (device : String) (query : Query α) :
    (backend.ask device query).KeepsLoads := by
  refine (keepsLoads_record _).bind fun _ => ?_
  dsimp only
  split
  · exact maintains_pure _
  · exact maintains_throw _

theorem keepsLoads_knownDims (b : Buffer) (task : String) :
    (knownDims b task : Run α (List Nat)).KeepsLoads := by
  rw [knownDims]
  split
  · exact maintains_pure _
  · exact maintains_throw _

theorem keepsLoads_compiled (item : Item α) : (compiled item).KeepsLoads := by
  refine keepsLoads_graph.bind fun g => ?_
  split
  · exact keepsLoads_ofExcept _
  · exact maintains_pure _

theorem keepsLoads_slotInput (output slot : Buffer) :
    (slotInput output slot : Run α (Block α)).KeepsLoads := by
  refine keepsLoads_graph.bind fun g => ?_
  split
  · exact maintains_throw _
  · split
    · exact maintains_pure _
    · exact maintains_throw _

variable [Lane α] {devices : Registry α} {realize : Realizer α} {held : List Buffer}

theorem keepsLoads_readBack (hrealize : ∀ held b, (realize held b).KeepsLoads) (b : Buffer) :
    (readBack realize held b).KeepsLoads :=
  (keepsLoads_knownDims b _).bind fun _ => (keepsLoads_build b.keepsLoads_contiguous).bind fun _ =>
    (hrealize _ _).bind fun _ => keepsLoads_ofExcept _

theorem keepsLoads_follow (hrealize : ∀ held b, (realize held b).KeepsLoads) (sources : List Buffer)
    (script : Script α sources.length) : (follow realize held sources script).KeepsLoads := by
  induction script with
  | finish block => exact maintains_pure _
  | fail cause => exact maintains_throw _
  | panic text => exact maintains_throw _
  | read source next ih =>
    exact (keepsLoads_attempt (keepsLoads_readBack hrealize _)).bind fun read => ih read

theorem keepsLoads_callLoader (hrealize : ∀ held b, (realize held b).KeepsLoads) (output : Buffer)
    (loader : Loader α) (sources : List Buffer) :
    (callLoader realize held output loader sources).KeepsLoads := by
  refine Maintains.bind (maintains_forM (fun source => ?_) _) fun _ => ?_
  · exact (hrealize held source).bind fun _ => maintains_pure _
  refine keepsLoads_graph.bind fun g => ?_
  refine Maintains.bind (maintains_modify fun e he => he.countCall _) fun _ => ?_
  exact (keepsLoads_record _).bind fun _ => keepsLoads_follow hrealize sources _

theorem keepsLoads_runLoad (hrealize : ∀ held b, (realize held b).KeepsLoads) (backend : Backend α)
    (output : Buffer) (op : LoadOp) (tree : Tree α) :
    (runLoad realize held backend output op tree).KeepsLoads := by
  cases op with
  | empty => exact (keepsLoads_knownDims _ _).bind fun _ => keepsLoads_ask _ _ _
  | rand =>
    refine (keepsLoads_knownDims _ _).bind fun _ => ?_
    split
    · exact (keepsLoads_ofExcept _).bind fun _ => keepsLoads_ask _ _ _
    · exact maintains_throw _
  | const =>
    rw [runLoad]
    split
    · split
      · exact maintains_pure _
      · exact keepsLoads_ask _ _ _
    · exact keepsLoads_graph.bind fun _ => maintains_throw _
  | copy =>
    rw [runLoad]
    split
    · exact (keepsLoads_readBack hrealize _).bind fun _ => keepsLoads_ask _ _ _
    · exact maintains_throw _
  | custom =>
    rw [runLoad]
    split
    · exact keepsLoads_callLoader hrealize output _ _
    · exact maintains_throw _
  | contiguous => exact maintains_throw _

theorem keepsLoads_execute (hrealize : ∀ held b, (realize held b).KeepsLoads) (item : Item α) :
    (execute devices realize held item).KeepsLoads := by
  refine (keepsLoads_ofExcept _).bind fun backend => ?_
  split
  · exact keepsLoads_runLoad hrealize backend _ _ _
  · refine (keepsLoads_compiled item).bind fun kernel => ?_
    exact (maintains_mapM (keepsLoads_slotInput _) _).bind fun _ => keepsLoads_ask _ _ _

theorem keepsLoads_runUnit (hrealize : ∀ held b, (realize held b).KeepsLoads) (item : Item α) :
    (runUnit devices realize held item).KeepsLoads := by
  have hbegin : (begin item).KeepsLoads :=
    maintains_get.bind fun _ => Maintains.bind (maintains_modify fun _ he => he) fun _ =>
      (keepsLoads_record _).bind fun _ => maintains_pure _
  have hfinish (block : Block α) : (finish item block).KeepsLoads := by
    refine keepsLoads_graph.bind fun g => ?_
    split
    · exact maintains_throw_bind _ _
    · exact maintains_modify fun e he => he.setResult _ block
  refine keepsLoads_graph.bind fun g => ?_
  split
  · refine hbegin.bind fun context => ?_
    refine (keepsLoads_attempt (keepsLoads_execute hrealize item)).bind fun result => ?_
    cases result with
    | ok block => exact (keepsLoads_record _).bind fun _ => hfinish block
    | error cause => exact (keepsLoads_record _).bind fun _ => maintains_throw _
  · exact maintains_pure _

theorem keepsLoads_realizeUpTo (depth : Nat) (held : List Buffer) (b : Buffer) :
    (realizeUpTo devices depth held b).KeepsLoads := by
  induction depth generalizing held b with
  | zero => exact keepsLoads_graph.bind fun _ => maintains_throw _
  | succ depth ih =>
    refine keepsLoads_graph.bind fun g => ?_
    split
    · exact maintains_pure _
    refine (keepsLoads_build (b.keepsLoads_schedule held)).bind fun items => ?_
    refine Maintains.bind (maintains_forM (fun item => keepsLoads_runUnit ih item) _) fun _ => ?_
    refine keepsLoads_graph.bind fun g => ?_
    split
    · exact maintains_pure _
    · exact maintains_throw _

end Run

namespace Buffer

theorem keepsLoads_upload (devices : Registry α) (array : HostArray α) (device : String)
    (config : Config) : (upload devices array device config).KeepsLoads := by
  refine (Run.keepsLoads_ofExcept _).bind fun backend => ?_
  refine (Run.keepsLoads_ask _ _ _).bind fun block => Run.keepsLoads_build ?_
  refine (keepsLoads_requireFormable _).bind fun _ => maintains_modifyGet fun g hg => ?_
  exact hg.insert (fun _ h => by cases h) (some block) device config

variable [Lane α] (devices : Registry α) (held : List Buffer) (b : Buffer)

theorem keepsLoads_realize : (b.realize devices held).KeepsLoads :=
  Run.keepsLoads_depth.bind fun depth => Run.keepsLoads_realizeUpTo depth held b

theorem keepsLoads_readBack : (b.readBack devices held).KeepsLoads :=
  Run.keepsLoads_depth.bind fun depth =>
    Run.keepsLoads_readBack (fun held b => Run.keepsLoads_realizeUpTo depth held b) b

end Buffer

/-! ## Commands -/

/-- No scalar load and no dense copy is built from raw parts. -/
def Recipe.Typed : Recipe α → Prop
  | .load op _ _ _ _ _ _ => op ≠ .const ∧ op ≠ .contiguous
  | _ => True

/-- What the command defines is typed. -/
def Command.Typed : Command α → Prop
  | .define _ recipe => recipe.Typed
  | _ => True

/-- The graph of the session has typed loads. -/
def Session.LoadsTyped (s : Session α) : Prop := s.engine.LoadsTyped

namespace Act

/-- The computation of the session keeps its loads typed. -/
abbrev KeepsLoads (x : Act α β) : Prop := Maintains Session.LoadsTyped x

theorem keepsLoads_engine {r : Run α β} (h : r.KeepsLoads) : (engine r).KeepsLoads :=
  fun s hs => sat_engine.mpr (h s.engine hs)

theorem keepsLoads_build {x : Build α β} (h : x.KeepsLoads) : (build x).KeepsLoads :=
  keepsLoads_engine (Run.keepsLoads_build h)

theorem keepsLoads_ofExcept (r : Except Error β) : (ofExcept r : Act α β).KeepsLoads :=
  keepsLoads_engine (Run.keepsLoads_ofExcept r)

theorem keepsLoads_held : (held : Act α (List Buffer)).KeepsLoads := fun _ hs => hs

theorem keepsLoads_graph : (graph : Act α (Graph α)).KeepsLoads := fun _ hs => hs

theorem keepsLoads_buffer (name : String) : (buffer name : Act α Buffer).KeepsLoads := by
  refine maintains_get.bind fun s => ?_
  split
  · exact maintains_pure _
  · exact maintains_throw _

theorem keepsLoads_operation (b : Buffer) : (operation b : Act α (Tree α)).KeepsLoads := by
  refine keepsLoads_graph.bind fun g => ?_
  split
  · exact maintains_pure _
  · exact maintains_throw _

theorem keepsLoads_info (b : Buffer) : (info b : Act α (Info α)).KeepsLoads :=
  keepsLoads_graph.bind fun _ => keepsLoads_held.bind fun _ => maintains_pure _

variable [Lane α] (devices : Registry α)

/-- Making a buffer as a typed recipe tells keeps the loads typed. -/
theorem keepsLoads_make {recipe : Recipe α} (h : recipe.Typed) : (recipe.make devices).KeepsLoads := by
  cases recipe with
  | upload => exact (keepsLoads_ofExcept _).bind fun array =>
      keepsLoads_engine (Buffer.keepsLoads_upload devices array _ _)
  | constant => exact keepsLoads_build (Buffer.keepsLoads_constant _ _ _ _ _)
  | load op shape dtype device arg sources config =>
    refine (maintains_mapM keepsLoads_buffer sources).bind fun bs => ?_
    refine (keepsLoads_ofExcept _).bind fun a => keepsLoads_build ?_
    exact Buffer.keepsLoads_load (Tree.loadsAs_load h.1 h.2 a none _) device config
  | constantLike x value =>
    exact (keepsLoads_buffer x).bind fun b =>
      keepsLoads_build (Buffer.keepsLoads_constant value b.shape b.dtype b.device b.config)
  | copy x device =>
    refine (keepsLoads_buffer x).bind fun b => keepsLoads_build ?_
    have hcopy : (Tree.node (.load .copy) .none none ([b].map .buffer) : Tree α).LoadsAs b.shape
        b.dtype := Tree.loadsAs_load (by decide) (by decide) _ _ _
    exact Buffer.keepsLoads_load hcopy device b.config
  | move x movement =>
    exact (keepsLoads_buffer x).bind fun b => keepsLoads_build (b.keepsLoads_move movement)
  | contiguous x =>
    exact (keepsLoads_buffer x).bind fun b => keepsLoads_build b.keepsLoads_contiguous
  | root x => exact (keepsLoads_buffer x).bind fun _ => maintains_pure _
  | same x => exact keepsLoads_buffer x
  | elementwise x code others arg =>
    refine (maintains_mapM keepsLoads_buffer others).bind fun bs => ?_
    refine (keepsLoads_buffer x).bind fun b => keepsLoads_held.bind fun held => ?_
    exact (keepsLoads_ofExcept _).bind fun a =>
      keepsLoads_build (b.keepsLoads_elementwise held code bs a)
  | reduce x op target =>
    exact (keepsLoads_buffer x).bind fun b => keepsLoads_build (b.keepsLoads_reduce op target)

/-- A typed command keeps the loads typed, whether or not it is met. -/
theorem keepsLoads_perform {c : Command α} (h : c.Typed) : (c.perform devices).KeepsLoads := by
  cases c with
  | define name recipe =>
    refine (keepsLoads_make devices h).bind fun b => ?_
    refine Maintains.bind (maintains_modify fun _ hs => hs) fun _ => ?_
    exact (keepsLoads_info b).bind fun _ => maintains_pure _
  | inspect x =>
    exact (keepsLoads_buffer x).bind fun b => (keepsLoads_info b).bind fun _ => maintains_pure _
  | summarize x =>
    exact (keepsLoads_buffer x).bind fun _ => keepsLoads_graph.bind fun _ => maintains_pure _
  | locate x => exact (keepsLoads_buffer x).bind fun _ => maintains_pure _
  | drop x =>
    exact maintains_get.bind fun _ => Maintains.bind (maintains_modify fun _ hs => hs) fun _ =>
      maintains_pure _
  | schedule x name =>
    refine (keepsLoads_buffer x).bind fun b => keepsLoads_held.bind fun held => ?_
    refine (keepsLoads_build (b.keepsLoads_schedule held)).bind fun items => ?_
    cases name with
    | none => exact maintains_pure _
    | some name => exact Maintains.bind (maintains_modify fun _ hs => hs) fun _ => maintains_pure _
  | release name =>
    exact maintains_get.bind fun _ => Maintains.bind (maintains_modify fun _ hs => hs) fun _ =>
      maintains_pure _
  | realize x =>
    refine (keepsLoads_buffer x).bind fun b => keepsLoads_held.bind fun held => ?_
    exact (keepsLoads_engine (b.keepsLoads_realize devices held)).bind fun _ => maintains_pure _
  | readBack x =>
    refine (keepsLoads_buffer x).bind fun b => keepsLoads_held.bind fun held => ?_
    exact (keepsLoads_engine (b.keepsLoads_readBack devices held)).bind fun _ => maintains_pure _
  | count => exact maintains_get.bind fun _ => maintains_pure _
  | operation x =>
    exact (keepsLoads_buffer x).bind fun b => (keepsLoads_operation b).bind fun _ => maintains_pure _
  | substitute x entries =>
    have hentry (entry : Substitution) : (substitution entry : Act α _).KeepsLoads :=
      (keepsLoads_buffer _).bind fun _ => (keepsLoads_buffer _).bind fun _ =>
        keepsLoads_graph.bind fun _ => maintains_pure _
    refine (keepsLoads_buffer x).bind fun b => (keepsLoads_operation b).bind fun op => ?_
    exact (maintains_mapM hentry entries).bind fun _ => maintains_pure _
  | joinProducer x fusion =>
    refine (keepsLoads_buffer x).bind fun b => (keepsLoads_operation b).bind fun op => ?_
    exact keepsLoads_graph.bind fun _ => keepsLoads_held.bind fun _ => maintains_pure _
  | joinReduction x output fusion =>
    refine (keepsLoads_buffer x).bind fun b => (keepsLoads_operation b).bind fun op => ?_
    refine keepsLoads_held.bind fun held => ?_
    exact (keepsLoads_build (op.keepsLoads_joinReduction held _ fusion)).bind fun _ => maintains_pure _
  | resolve x =>
    refine (keepsLoads_buffer x).bind fun b => (keepsLoads_operation b).bind fun op => ?_
    exact keepsLoads_graph.bind fun _ => (keepsLoads_ofExcept _).bind fun _ => maintains_pure _

end Act

namespace Session

variable [Lane α] {devices : Registry α} {s : Session α}

/-- The sessions that typed commands lead to, one after the other. -/
inductive Composed (devices : Registry α) : Session α → Prop
  /-- The empty session. -/
  | start : Composed devices {}
  /-- The session after a typed command, whether it was met or refused. -/
  | step {s : Session α} (hs : Composed devices s) {c : Command α} (hc : c.Typed) :
    Composed devices (s.step devices c).2

theorem Composed.reachable (hs : s.Composed devices) : s.Reachable devices := by
  induction hs with
  | start => exact .start
  | step _ _ ih => exact ih.step _

theorem Composed.loadsTyped (hs : s.Composed devices) : s.LoadsTyped := by
  induction hs with
  | start => exact fun e he => absurd he List.not_mem_nil
  | step _ hc ih =>
    rcases step_cases (Act.keepsLoads_perform devices hc _ ih) with ⟨_, -, h⟩ | ⟨_, -, h⟩
    · exact h
    · exact h

/-- The graph of a session of typed commands is typed, if its shapes have few enough elements. -/
theorem Composed.typed (hs : s.Composed devices)
    (hbases : ∀ e ∈ s.engine.graph.cores, e.base.shape.Addressable)
    (hleaves : ∀ e ∈ s.engine.graph.cores, ∀ b ∈ e.leaves, b.shape.Addressable) :
    s.engine.graph.Typed where
  bases := hbases
  leaves := hleaves
  scalars e he op hop := (hs.loadsTyped e he op hop).scalar
  copies e he op hop := (hs.loadsTyped e he op hop).copy

end Session

end TensorGraph
