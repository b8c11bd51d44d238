import TensorGraph.Proofs.Meaning.Realize
import TensorGraph.Proofs.Meaning.Reduce
import TensorGraph.Proofs.Session
/-!
# Programs and the tensors they describe

A program is a list of commands; the tensors that it describes are found from the commands alone, one
operation after the other, and nothing in them depends on how operations are merged, on what is held,
or on what was realized before. Whatever a buffer of the program is read back as, it is its tensor;
arithmetic that leaves the words may stop a command, but not where all shapes are moderate.

- `Recipe.tensor`, `Command.tensors`: the tensors that commands describe.
- `Recipe.Plain`: recipes without padding and custom loads, for shapes of known size.
- `Session.Program`: the sessions that plain commands lead to, with the tensors of the names.
- `Session.Program.reads_back`: every buffer is read back as its tensor, unless the reading is stopped.
-/

namespace TensorGraph

open TensorGraph.Graph World

variable {α : Type} [Lane α] {devices : Registry α} {w : Census × Valuation α} {s : Session α}

/-! ## Reference -/

/-- Tensors by name. -/
abbrev Tensors (α : Type) := String → Option (Tensor α)

/-- The tensor that a recipe describes. -/
def Recipe.tensor (ts : Tensors α) : Recipe α → Option (Tensor α)
  | upload dims dtype lanes _ config => some (.upload dims dtype lanes config)
  | constant value shape dtype _ config => Tensor.constant value shape dtype config
  | load .empty shape dtype _ _ _ config => shape.static?.map (.empty · dtype config)
  | load .rand shape dtype _ (.ok (.seed seed)) _ config =>
    shape.static?.map (.rand · dtype seed config)
  | load .. => none
  | constantLike x value => do
    let t ← ts x
    Tensor.constant value (.ofNats t.dims) t.dense.dtype t.config
  | copy x _ => (ts x).map .copy
  | move x movement => do (← ts x).move movement
  | contiguous x => (ts x).map .copy
  | root _ => none
  | same x => ts x
  | elementwise x code others (.ok arg) => do
    return (← ts x).elementwise code (← others.mapM ts) arg
  | elementwise .. => none
  | reduce x op target => do (← ts x).reduce op (← target.static?)

/-- The tensors of the names after a command that is met. -/
def Command.tensors (ts : Tensors α) : Command α → Tensors α
  | define name recipe => Function.update ts name (recipe.tensor ts)
  | drop name => Function.update ts name none
  | _ => ts

/-- The recipe neither pads nor asks for a load of its own; it names known extents, and devices that
the interpreter serves. -/
def Recipe.Plain (devices : Registry α) : Recipe α → Prop
  | upload _ _ _ device _ => devices.Serves device
  | constant _ shape _ device _ => devices.Serves device ∧ shape.isStatic = true
  | load op shape _ device arg sources _ => devices.Serves device ∧ shape.isStatic = true
    ∧ sources = [] ∧ (op = .empty ∨ op = .rand ∧ ∃ seed, arg = .ok (.seed seed))
  | copy _ device => devices.Serves device
  | move _ movement => movement.Plain
  | root _ => False
  | reduce _ _ target => target.isStatic = true
  | _ => True

/-- The tensor, or the one that a reduction asks for, has at most `2 ^ 63` elements. -/
def Recipe.Small (ts : Tensors α) : Recipe α → Prop
  | reduce _ _ target => ∀ new, target.static? = some new → new.prod ≤ 2 ^ 63
  | recipe => Tensor.Small (recipe.tensor ts)

/-- Commands other than definitions are plain. -/
def Command.Plain (devices : Registry α) (ts : Tensors α) (c : Command α) : Prop :=
  ∀ name recipe, c = .define name recipe → recipe.Plain devices ∧ recipe.Small ts

namespace Session

/-- The sessions that plain commands lead to, with the tensors that the names stand for. -/
inductive Program (devices : Registry α) : Session α → Tensors α → Prop
  /-- Nothing has a name. -/
  | start : Program devices {} fun _ => none
  /-- A command was met. -/
  | met {s : Session α} {ts : Tensors α} {c : Command α} (hs : Program devices s ts)
    (hc : c.Plain devices ts) (hmet : (s.step devices c).1.result.isOk = true) :
    Program devices (s.step devices c).2 (c.tensors ts)
  /-- A command was refused. -/
  | refused {s : Session α} {ts : Tensors α} {c : Command α} (hs : Program devices s ts)
    (hc : c.Plain devices ts) (hrefused : (s.step devices c).1.result.isOk = false) :
    Program devices (s.step devices c).2 ts

end Session

/-! ## What is known of a program -/

/-- The elements of the array are those of the tensor. -/
structure HostArray.Reads (array : HostArray α) (t : Tensor α) : Prop where
  /-- The extents are the same. -/
  shape : array.shape = t.dims
  /-- The element types are the same. -/
  dtype : array.dtype = t.dense.dtype
  /-- The elements are the same. -/
  lanes : ∀ i < t.dims.prod, array.lanes[i]? = some (t.dense.lane i)

/-- The elements that a reply brings. -/
def Reply.lanes? (r : Reply α) : Option (List α) :=
  match r.result with
  | .ok (.array array) => some array.lanes.toList
  | _ => none

/-- What is known of an engine: its graph means something, and obeys the rule. -/
def Engine.meaning (devices : Registry α) (rule : Rule) :
    Engine.Account (Census × Valuation α) α where
  toWorld := (Graph.steady devices rule fun _ => False).comap Engine.graph
  census := Prod.fst
  wellFormed h := h.1.1
  grows h := h.1.leads.census
  viewed h hviewed :=
    ⟨_, rfl, Graph.Meaningful.viewed h.1 hviewed, h.2.viewed hviewed⟩

/-- What is known of a session whose buffers can be read: the graph means something and obeys the rule,
what is held was handed out, and every buffer with a name obeys the rule and finds its positions or hides
them. -/
structure Session.Legible (devices : Registry α) (rule : Rule) (w : Census × Valuation α)
    (s : Session α) : Prop where
  /-- The graph means something, and what is held was handed out. -/
  sound : (Session.world (Engine.meaning devices rule)).Sound w s
  /-- Every buffer obeys the rule. -/
  obeys : ∀ name b, s.Names name b → rule.leaves b.tracker
  /-- Every buffer finds its positions or hides them. -/
  into : ∀ name b, s.Names name b → ∃ dims, b.Into dims

/-- The names stand for tensors that their buffers show. -/
def Session.Shows (v : Valuation α) (s : Session α) (ts : Tensors α) : Prop :=
  ∀ name b, s.Names name b → ∃ t, ts name = some t ∧ b.Shows v t

theorem Session.Legible.meaningful {rule : Rule} (h : s.Legible devices rule w) :
    Graph.Meaningful devices w s.engine.graph := h.sound.1.1

/-- What is known of a program: the graph means something and reads nothing masked, what is held was
handed out, and names stand for buffers that show their tensors and mask nothing. -/
structure Session.Means (devices : Registry α) (w : Census × Valuation α) (s : Session α)
    (ts : Tensors α) : Prop where
  /-- The graph means something, and what is held was handed out. -/
  sound : (Session.world (Engine.meaning devices .bare)).Sound w s
  /-- Names stand for their tensors. -/
  shows : ∀ name, Option.Rel (fun b t => b.Shows w.2 t ∧ t.Unmasked) (s.buffers.lookup name) (ts name)

variable {ts : Tensors α} {e : Engine α} {b c : Buffer} {t : Tensor α} {name : String}

/-- Later bases do not change what a buffer shows. -/
theorem Buffer.Shows.congr {v v' : Valuation α} (h : b.Shows v t) (hagrees : v' b.base.id = v b.base.id) :
    b.Shows v' t where
  layout := h.layout
  config := h.config
  into := h.into
  lanes := Buffer.dense_congr hagrees ▸ h.lanes

namespace Session.Means

variable (h : s.Means devices w ts)
include h

theorem meaningful : Graph.Meaningful devices w s.engine.graph := h.sound.1.1

theorem of_names : s.Shows w.2 ts := by
  intro name b hb
  have hrel := h.shows name
  rw [Names] at hb
  rw [hb] at hrel
  cases hts : ts name with
  | none =>
    rw [hts] at hrel
    cases hrel
  | some t =>
    rw [hts] at hrel
    cases hrel with
    | some hshows => exact ⟨t, rfl, hshows.1⟩

theorem unmasked (ht : ts name = some t) : t.Unmasked := by
  have hrel := h.shows name
  rw [ht] at hrel
  generalize s.buffers.lookup name = r at hrel
  cases hrel with
  | some hshows => exact hshows.2

theorem bare (hb : s.Names name b) : b.tracker.Bare := by
  obtain ⟨t, ht, hshows⟩ := h.of_names name b hb
  exact hshows.layout ▸ h.unmasked ht

theorem legible : s.Legible devices .bare w where
  sound := h.sound
  obeys name b hb := h.bare hb
  into name b hb := by
    obtain ⟨t, -, hshows⟩ := h.of_names name b hb
    exact ⟨t.dims, hshows.into⟩

end Session.Means

theorem Session.Shows.all {v : Valuation α} (h : s.Shows v ts) {names : List String} {bs : List Buffer}
    (hbs : List.Forall₂ (fun name b => s.Names name b) names bs) :
    ∃ l, names.mapM ts = some l ∧ List.Forall₂ (fun b t => b.Shows v t) bs l := by
  induction hbs with
  | nil => exact ⟨[], rfl, .nil⟩
  | cons hb _ ih =>
    obtain ⟨t, ht, hshows⟩ := h _ _ hb
    obtain ⟨l, hl, hall⟩ := ih
    exact ⟨t :: l, by simp [List.mapM_cons, ht, hl], .cons hshows hall⟩

/-! ## Making buffers -/

variable [LawfulLane α]

/-- An upload makes a base that holds the rounded lanes, unless its strides leave the words. -/
theorem Buffer.delivers_upload {dims : List Nat} {dtype : DType} {lanes : Array α}
    {array : HostArray α} {device : String} {config : Config} {rule : Rule}
    (h : Graph.Steady devices rule w e.graph) (hrule : ¬rule.IsCalm) (hbases : rule.bases (.ofNats dims))
    (hserved : devices.Serves device) (hle : dims.prod ≤ 2 ^ 63)
    (harray : HostArray.ofLanes dims dtype lanes = .ok array) :
    Run.Delivers devices rule (fun _ => False) w e (upload devices array device config)
      fun b w' _ => w'.1.Lists b ∧ b.Shows w'.2 (.upload dims dtype lanes config) := by
  have ⟨name, capabilities, counted, hfind⟩ := hserved
  have hsize : lanes.size = dims.prod := by
    by_contra hne
    rw [HostArray.ofLanes, HostArray.ofData, dif_neg (by rwa [HostData.size_ofLanes])] at harray
    cases harray
  obtain rfl := Except.ok.inj ((HostArray.ofLanes_eq_ok dtype hsize).symm.trans harray)
  refine (Run.delivers_ofExcept h hfind).look ?_
  rintro _ rfl
  refine (Run.delivers_askUpload h ..).bind ?_
  rintro block w e₁ hleads₁ ⟨rfl, rfl, -⟩
  have h₁ : Graph.Steady devices rule w e₁.graph := Graph.steady_sound hleads₁
  refine sat_build.mpr (sat_bind.mpr ((sat_requireFormable _).imp ?_ ?_))
  rotate_left
  · rintro _ _ ⟨rfl, rfl, -⟩
    exact ⟨⟨rfl, hrule⟩, w, h₁.1.refl, h₁.2⟩
  rintro _ _ ⟨rfl, -⟩
  rw [sat_modifyGet]
  have hrounded (i : Nat) : Lane.round dtype (Lane.round dtype (lanes[i]?.getD Lane.zero))
      = Lane.round dtype (lanes[i]?.getD Lane.zero) := LawfulLane.round_round ..
  refine ⟨_, ⟨h₁.1.uploaded ⟨_, Shape.elements?_ofNats _, hle⟩ hserved hrounded rfl
    (Block.holds_ofLanes ?_ fun i hi => ?_), h₁.2.insert hbases nofun⟩, Census.lists_add _ _, rfl, rfl,
    ?_, rfl, ?_⟩
  · exact (Shape.elements?_ofNats _).trans (congrArg some hsize.symm)
  · refine Eq.trans ?_ (update_lane _ _ _ i).symm
    rw [Array.getElem?_eq_getElem hi, Option.getD_some]
    rfl
  · exact Buffer.into_base (Shape.static?_ofNats _) hle
  · exact fun i hi => (Buffer.lane_base (Shape.static?_ofNats _) hle _ hi).trans (update_lane ..)

omit [LawfulLane α] in
/-- What building shows, a session shows, if building obeys the rule of the session. -/
theorem Act.keeps_shows {rule : Rule} (hs : (Session.world (Engine.meaning devices rule)).Sound w s)
    {x : Build α Buffer} {r : Option (Tensor α)}
    (hx : Build.Shows devices (fun _ => False) w s.engine.graph x r)
    (hobeys : x.Obeys rule s.engine.graph) :
    Act.Keeps (Engine.meaning devices rule) w s (Act.build x)
      fun b w' _ => w'.1.Lists b ∧ ∃ t, r = some t ∧ b.Shows w'.2 t := by
  refine Act.keeps_engine hs (World.keeps_build ((Sat.and hx hobeys).imp ?_ ?_))
  · rintro b g' ⟨⟨w', hprogress, hshows⟩, hobeys⟩
    exact ⟨w', ⟨hprogress, hobeys⟩, hshows⟩
  · rintro _ g' ⟨⟨-, w', hprogress⟩, hobeys⟩
    exact ⟨trivial, w', hprogress, hobeys⟩

/-- A recipe makes a buffer that shows the tensor it describes, whatever the rule says of leaves, if
nothing that is moved is masked. -/
theorem Recipe.keeps_tensor {rule : Rule} (hbases : ∀ shape, rule.bases shape)
    (h : s.Legible devices rule w) (hts : s.Shows w.2 ts) {recipe : Recipe α}
    (hplain : recipe.Plain devices) (hsmall : recipe.Small ts)
    (hunmasked : ∀ x m, recipe = .move x m → ∀ t, ts x = some t → t.Unmasked) :
    Act.Keeps (Engine.meaning devices rule) w s (recipe.make devices)
      fun b w' _ => w'.1.Lists b ∧ ∃ t, recipe.tensor ts = some t ∧ b.Shows w'.2 t := by
  have hs := h.sound
  have hg := h.meaningful
  have hobeys := hs.1.2
  cases recipe with
  | upload dims dtype lanes device config =>
    refine (Act.looks_ofExcept hs _).look fun array harray => ?_
    have hupload : Run.Delivers devices rule (fun _ => False) w s.engine
        (Buffer.upload devices array device config) fun b w' _ => w'.1.Lists b
          ∧ b.Shows w'.2 (.upload dims dtype lanes config) :=
      Buffer.delivers_upload hs.1 (Rule.not_isCalm fun shape => rule.ofShape (hbases shape)) (hbases _)
        hplain (hsmall _ rfl) harray
    refine Act.keeps_engine hs (Sat.imp hupload ?_ fun _ _ h => ⟨trivial, h.2⟩)
    rintro b e' ⟨w', hleads, hlist, hshows⟩
    exact ⟨w', hleads, hlist, _, rfl, hshows⟩
  | constant value shape dtype device config =>
    exact Act.keeps_shows hs (Buffer.shows_constant hg value hplain.2 dtype hplain.1 config hsmall)
      (Buffer.obeys_constant hobeys hg.1 (hbases _) ..)
  | load op shape dtype device arg sources config =>
    -- a plain load has no sources: it is uninitialized or random
    obtain ⟨hserved, hstatic, rfl, hop⟩ := hplain
    obtain ⟨dims, hdims⟩ := Option.isSome_iff_exists.mp hstatic
    obtain rfl := Shape.eq_ofNats hdims
    refine (Act.looks_buffers hs []).look fun bs hbs => ?_
    cases hbs
    refine (Act.looks_argument hs arg).look ?_
    rintro a rfl
    rcases hop with rfl | ⟨rfl, seed, ⟨⟩⟩
    · replace hsmall : Tensor.Small (tensor ts (.load .empty _ dtype device (.ok a) [] config)) := hsmall
      rw [tensor, hdims] at hsmall ⊢
      exact Act.keeps_shows hs (Buffer.shows_empty hg (hsmall _ rfl) dtype hserved a config)
        (Buffer.obeys_load hobeys hg.1 (by simp) (by simp) _ (hbases _) ..)
    · replace hsmall : Tensor.Small
        (tensor ts (.load .rand _ dtype device (.ok (.seed seed)) [] config)) := hsmall
      rw [tensor, hdims] at hsmall ⊢
      exact Act.keeps_shows hs (Buffer.shows_rand hg (hsmall _ rfl) dtype hserved seed config)
        (Buffer.obeys_load hobeys hg.1 (by simp) (by simp) _ (hbases _) ..)
  | constantLike x value =>
    refine (Act.looks_buffer hs x).look fun b hb => ?_
    obtain ⟨t, ht, hshows⟩ := hts x b hb
    have hshape : b.shape = .ofNats t.dims := Shape.eq_ofNats hshows.into.shape
    -- what it takes from the buffer it could as well take from the tensor that the buffer shows
    have htensor : tensor ts (.constantLike x value)
        = Tensor.constant value b.shape b.dtype b.config := by
      rw [tensor, ht, hshape, hshows.config]
      exact congrArg (Tensor.constant value _ · _) hshows.lanes.dtype.symm
    replace hsmall : Tensor.Small (tensor ts (.constantLike x value)) := hsmall
    rw [htensor] at hsmall ⊢
    have hstatic : b.shape.isStatic = true := Option.isSome_iff_exists.mpr ⟨_, hshows.into.shape⟩
    exact Act.keeps_shows hs (Buffer.shows_constant hg value hstatic b.dtype
      (hg.served (hb.lists hs)) b.config hsmall) (Buffer.obeys_constant hobeys hg.1 (hbases _) ..)
  | copy x device =>
    refine (Act.looks_buffer hs x).look fun b hb => ?_
    obtain ⟨t, ht, hshows⟩ := hts x b hb
    rw [tensor, ht]
    exact Act.keeps_shows hs (Buffer.shows_copyTo hg (hb.lists hs) hshows hplain)
      (Buffer.obeys_copyTo hobeys hg.1 (hb.lists hs) (h.obeys x b hb) device)
  | move x movement =>
    refine (Act.looks_buffer hs x).look fun b hb => ?_
    obtain ⟨t, ht, hshows⟩ := hts x b hb
    replace hsmall : Tensor.Small (tensor ts (.move x movement)) := hsmall
    rw [tensor, ht] at hsmall ⊢
    exact Act.keeps_shows hs
      (Buffer.shows_move hg (hb.lists hs) hshows (hunmasked x movement rfl t ht) hplain hsmall)
      (Buffer.obeys_move hobeys hg.1 (hb.lists hs) movement)
  | contiguous x =>
    refine (Act.looks_buffer hs x).look fun b hb => ?_
    obtain ⟨t, ht, hshows⟩ := hts x b hb
    rw [tensor, ht]
    exact Act.keeps_shows hs (Buffer.shows_contiguous _ hg (hb.lists hs) hshows)
      (Buffer.obeys_contiguous hobeys hg.1 (hb.lists hs) (h.obeys x b hb))
  | root x => exact hplain.elim
  | same x =>
    refine (Act.looks_buffer hs x).imp ?_
    rintro b w' s' - ⟨hb, rfl, rfl⟩
    exact ⟨hb.lists hs, hts x b hb⟩
  | elementwise x code others arg =>
    refine (Act.looks_buffers hs others).look fun bs hbs => ?_
    refine (Act.looks_buffer hs x).look fun b hb => ?_
    refine (Act.looks_held hs).look fun held _ => ?_
    refine (Act.looks_argument hs arg).look ?_
    rintro a rfl
    obtain ⟨t, ht, hshows⟩ := hts x b hb
    obtain ⟨l, hl, hall⟩ := hts.all hbs
    simp only [tensor, ht, hl]
    have hlists := List.forall_mem_cons.mpr ⟨hb.lists hs, Session.Names.all_lists hbs hs⟩
    have hleaves : ∀ c ∈ b :: bs, rule.leaves c.tracker := by
      refine List.forall_mem_cons.mpr ⟨h.obeys x b hb, fun c hc => ?_⟩
      obtain ⟨y, -, hy⟩ := exists_of_forall₂_left hbs.flip hc
      exact h.obeys y c hy
    exact Act.keeps_shows hs (Buffer.shows_elementwise hg hlists (.cons hshows hall) held code a)
      (Buffer.obeys_elementwise hobeys hg.1 hlists hleaves held code a)
  | reduce x op target =>
    refine (Act.looks_buffer hs x).look fun b hb => ?_
    obtain ⟨t, ht, hshows⟩ := hts x b hb
    obtain ⟨new, hnew⟩ := Option.isSome_iff_exists.mp hplain
    simp only [tensor, ht, hnew]
    exact Act.keeps_shows hs (Buffer.shows_reduce hg (hb.lists hs) hshows op hnew (hsmall new hnew))
      (Buffer.obeys_reduce hobeys hg.1 (hb.lists hs) (h.obeys x b hb)
        (fun _ _ _ _ _ => ⟨hbases _, hbases _, hbases _⟩) op (hbases _))

omit [LawfulLane α] in
/-- Plain recipes describe tensors without masks. -/
theorem Recipe.unmasked_tensor {recipe : Recipe α} (hplain : recipe.Plain devices)
    (hts : ∀ name t, ts name = some t → t.Unmasked) (h : recipe.tensor ts = some t) : t.Unmasked := by
  cases recipe with
  | upload => exact Option.some.inj h ▸ Tensor.unmasked_stored _ _
  | constant => exact Tensor.unmasked_constant hplain.2 h
  | load op shape dtype device arg sources config =>
    obtain ⟨-, -, rfl, rfl | ⟨rfl, seed, rfl⟩⟩ := hplain
    · obtain ⟨dims, -, rfl⟩ := Option.map_eq_some_iff.mp h
      exact Tensor.unmasked_stored _ _
    · obtain ⟨dims, -, rfl⟩ := Option.map_eq_some_iff.mp h
      exact Tensor.unmasked_stored _ _
  | constantLike x value =>
    obtain ⟨u, -, h⟩ := Option.bind_eq_some_iff.mp h
    exact Tensor.unmasked_constant (Option.isSome_iff_exists.mpr ⟨_, Shape.static?_ofNats u.dims⟩) h
  | copy x device =>
    obtain ⟨u, -, rfl⟩ := Option.map_eq_some_iff.mp h
    exact Tensor.unmasked_stored _ _
  | move x movement =>
    obtain ⟨u, hu, h⟩ := Option.bind_eq_some_iff.mp h
    exact (hts x u hu).move hplain h
  | contiguous x =>
    obtain ⟨u, -, rfl⟩ := Option.map_eq_some_iff.mp h
    exact Tensor.unmasked_stored _ _
  | root => cases h
  | same x => exact hts x t h
  | elementwise x code others arg =>
    cases arg with
    | error cause => cases h
    | ok arg =>
      obtain ⟨u, -, h⟩ := Option.bind_eq_some_iff.mp h
      obtain ⟨l, -, h⟩ := Option.bind_eq_some_iff.mp h
      exact Option.some.inj h ▸ Tensor.unmasked_stored _ _
  | reduce x op target =>
    obtain ⟨u, hu, h⟩ := Option.bind_eq_some_iff.mp h
    obtain ⟨new, -, h⟩ := Option.bind_eq_some_iff.mp h
    exact (hts x u hu).reduce h

/-! ## Programs -/

/-- In a session whose buffers can be read, realizing and reading back keep what is known, so a command
does if the buffers that it makes do. -/
theorem Session.Legible.kept {rule : Rule} (h : s.Legible devices rule w) {c : Command α}
    {made : Buffer → Census × Valuation α → Prop}
    (hmake : ∀ name recipe, c = .define name recipe →
      Act.Keeps (Engine.meaning devices rule) w s (recipe.make devices)
        fun b w' _ => w'.1.Lists b ∧ made b w') :
    c.Kept (Engine.meaning devices rule) devices w s made where
  make := hmake
  realize name b held _ hb := by
    refine Sat.imp (Buffer.delivers_realize h.sound.1 (hb.lists h.sound) held) ?_
      fun _ _ h => ⟨trivial, h.2⟩
    rintro _ e' ⟨w', hleads, -⟩
    exact ⟨w', hleads, trivial⟩
  readBack name b held _ hb := by
    obtain ⟨dims, hinto⟩ := h.into name b hb
    refine Sat.imp (Buffer.delivers_readBack h.sound.1 (hb.lists h.sound) hinto (h.obeys name b hb) held)
      ?_ fun _ _ h => ⟨trivial, h.2⟩
    rintro _ e' ⟨w', hleads, -⟩
    exact ⟨w', hleads, trivial⟩

/-- A plain command keeps the meaning of a program. -/
theorem Command.kept_meaning (h : s.Means devices w ts) {c : Command α} (hc : c.Plain devices ts) :
    c.Kept (Engine.meaning devices .bare) devices w s fun b w' =>
      ∀ name recipe, c = .define name recipe → ∃ t, recipe.tensor ts = some t ∧ b.Shows w'.2 t := by
  refine h.legible.kept fun name recipe hdefine => ?_
  obtain ⟨hplain, hsmall⟩ := hc name recipe hdefine
  refine (Recipe.keeps_tensor (fun _ => trivial) h.legible h.of_names hplain hsmall
    fun _ _ _ _ => h.unmasked).imp ?_
  rintro b w' s' - ⟨hlist, hshows⟩
  refine ⟨hlist, ?_⟩
  rintro _ _ hdefine'
  cases hdefine.symm.trans hdefine'
  exact hshows

namespace Session

theorem lookup_forget {β : Type} (name x : String) (pairs : List (String × β)) :
    (forget name pairs).lookup x = if x = name then none else pairs.lookup x := by
  induction pairs with
  | nil => simp [forget]
  | cons p pairs ih =>
    obtain ⟨y, b⟩ := p
    rw [forget, List.filter_cons, List.lookup_cons]
    by_cases hy : y = name
    · rw [if_neg (by simpa using hy)]
      refine ih.trans ?_
      by_cases hx : x = name
      · rw [if_pos hx, if_pos hx]
      · rw [if_neg hx, if_neg hx, beq_false_of_ne fun hxy => hx (hxy.trans hy)]
    · rw [if_pos (by simpa using hy), List.lookup_cons]
      by_cases hx : x = y
      · rw [if_neg fun hxn => hy (hx.symm.trans hxn)]
        simp [hx]
      · simp only [beq_false_of_ne hx]
        exact ih

theorem lookup_cons_forget {β : Type} (name x : String) (b : β) (pairs : List (String × β)) :
    ((name, b) :: forget name pairs).lookup x = if x = name then some b else pairs.lookup x := by
  rw [List.lookup_cons, lookup_forget]
  by_cases hx : x = name
  · simp [hx]
  · simp only [beq_false_of_ne hx, if_neg hx]

omit [LawfulLane α] in
/-- What names show stays when the graph grows. -/
theorem Means.grows {w' : Census × Valuation α} {s' : Session α} (h : s.Means devices w ts)
    (hends : Command.Ends (Engine.meaning devices .bare) (Engine.meaning devices .bare).Fails w s w' s')
    (name : String) :
    Option.Rel (fun b t => b.Shows w'.2 t ∧ t.Unmasked) (s.buffers.lookup name) (ts name) := by
  have hprogress : Graph.Progress devices (fun _ => False) w s.engine.graph w' s'.engine.graph :=
    hends.engine.1
  cases hb : s.buffers.lookup name with
  | none =>
    have hrel := h.shows name
    rw [hb] at hrel
    generalize ts name = r at hrel
    cases hrel
    exact .none
  | some b =>
    obtain ⟨t, ht, hshows⟩ := h.of_names name b hb
    rw [ht]
    have hagrees := hprogress.agrees _ (h.meaningful.1.base_lt (Names.lists hb h.sound))
    exact .some ⟨hshows.congr hagrees, h.unmasked ht⟩

/-- A plain command leads to a session with a meaning. -/
theorem Means.step (h : s.Means devices w ts) {c : Command α} (hc : c.Plain devices ts) :
    ((s.step devices c).1.result.isOk = true →
        ∃ w', (s.step devices c).2.Means devices w' (c.tensors ts))
      ∧ ((s.step devices c).1.result.isOk = false →
        ∃ w', (s.step devices c).2.Means devices w' ts) := by
  rcases step_cases (Command.sat_perform h.sound (Command.kept_meaning h hc)) with
    ⟨_, hmet, w', hends, hrenames⟩ | ⟨_, hrefused, w', hends, hbuffers⟩
  · have hgrows := h.grows ⟨(Engine.meaning devices .bare).fails hends.engine, hends.held⟩
    rw [hmet]
    refine ⟨fun _ => ⟨w', ⟨?_, hends.held⟩, fun x => ?_⟩, by rintro ⟨⟩⟩
    · exact (Engine.meaning devices .bare).sound hends.engine
    · cases c with
      | define name recipe =>
        obtain ⟨b, hmade, hbuffers⟩ := hrenames
        obtain ⟨t, ht, hshows⟩ := hmade name recipe rfl
        rw [hbuffers, lookup_cons_forget, Command.tensors, Function.update_apply, ht]
        split
        · exact .some ⟨hshows, Recipe.unmasked_tensor (hc name recipe rfl).1 (fun _ _ => h.unmasked) ht⟩
        · exact hgrows x
      | drop name =>
        rw [hrenames, lookup_forget, Command.tensors, Function.update_apply]
        split
        · exact .none
        · exact hgrows x
      | _ =>
        rw [hrenames]
        exact hgrows x
  · rw [hrefused]
    refine ⟨by rintro ⟨⟩, fun _ => ⟨w', ⟨?_, hends.held⟩, fun name => ?_⟩⟩
    · exact (Engine.meaning devices .bare).sound_fails hends.engine
    · rw [hbuffers]
      exact h.grows hends name

/-- Every program has a meaning. -/
theorem Program.means (h : Program devices s ts) : ∃ w, s.Means devices w ts := by
  induction h with
  | start =>
    refine ⟨(fun _ => none, fun _ _ => Lane.zero), ⟨⟨⟨Graph.wellFormed_empty, ?_⟩, ⟨?_, ?_⟩⟩, ?_⟩,
      fun _ => .none⟩
    all_goals rintro _ ⟨⟩
  | met _ hc hmet ih =>
    obtain ⟨w, hmeans⟩ := ih
    exact (hmeans.step hc).1 hmet
  | refused _ hc hrefused ih =>
    obtain ⟨w, hmeans⟩ := ih
    exact (hmeans.step hc).2 hrefused

/-- A buffer with a name is read back as the tensor that it shows, unless the reading is stopped. -/
theorem reads_shown {rule : Rule} (hs : (world (Engine.meaning devices rule)).Sound w s)
    (hb : s.Names name b) (hshows : b.Shows w.2 t) :
    (∃ array, (s.step devices (.readBack name)).1.result = .ok (.array array) ∧ array.Reads t)
      ∨ (s.step devices (.readBack name)).1.result = .error (.failed .overflow)
        ∧ ¬(s.engine.graph.Calm ∧ b.tracker.Calm) := by
  -- if the graph and the buffer are calm, they obey the rule that says so
  let calm := s.engine.graph.Calm ∧ b.tracker.Calm
  replace hs : (world (Engine.meaning devices (.given calm .calm))).Sound w s :=
    ⟨⟨hs.1.1, Graph.obeys_given fun h => h.1.obeys⟩, hs.2⟩
  have hread : (Engine.meaning devices (.given calm .calm)).Keeps w s.engine (b.readBack devices s.held)
      (fun array _ _ => array.Reads t) fun f => f = .overflow ∧ ¬calm := by
    refine Sat.imp (Buffer.delivers_readBack hs.1 (hb.lists hs) hshows.into And.right s.held) ?_
      fun _ _ h => ⟨h.1.imp_right (mt Rule.isCalm_given), h.2⟩
    rintro array e' ⟨w', hleads, hshape, hdtype, hlane⟩
    refine ⟨w', hleads, hshape, hdtype.trans hshows.lanes.dtype, fun i hi => ?_⟩
    rw [hlane i hi, hshows.lanes.lane i hi]
  have hperform : (Session.world (Engine.meaning devices (.given calm .calm))).Keeps w s
      ((Command.readBack name).perform devices)
      (fun answer _ _ => ∃ array, answer = .array array ∧ array.Reads t)
      fun cause => cause = .failed .overflow ∧ ¬calm := by
    refine (Act.looks_named hs hb).look ?_
    rintro b rfl
    refine (Act.looks_held hs).look ?_
    rintro held rfl
    have hengine : (Session.world (Engine.meaning devices (.given calm .calm))).Keeps w s
        (Act.engine (b.readBack devices s.held))
        (fun (array : HostArray α) _ _ => array.Reads t)
        fun cause => cause = .failed .overflow ∧ ¬calm := by
      refine Act.keeps_engine hs (Sat.imp hread (fun _ _ h => h) ?_)
      rintro _ e' ⟨⟨rfl, hcalm⟩, hleads⟩
      exact ⟨⟨rfl, hcalm⟩, hleads⟩
    refine hengine.bind ?_
    rintro array w' s' hleads hreads
    exact keeps_pure ((Session.world _).sound hleads) ⟨array, rfl, hreads⟩
  rcases step_cases hperform with ⟨_, hmet, _, -, array, rfl, hreads⟩ | ⟨_, hrefused, ⟨rfl, hcalm⟩, -⟩
  · exact .inl ⟨array, hmet, hreads⟩
  · exact .inr ⟨hrefused, hcalm⟩

/-- Every buffer of a program is read back as its tensor, unless arithmetic that leaves the words stops
the reading, which nothing does if the shapes of the graph and of the buffer are moderate. -/
theorem Program.reads_back (h : Program devices s ts) (hb : s.Names name b) :
    ∃ t, ts name = some t
      ∧ ((∃ array, (s.step devices (.readBack name)).1.result = .ok (.array array) ∧ array.Reads t)
        ∨ (s.step devices (.readBack name)).1.result = .error (.failed .overflow)
          ∧ ¬(s.engine.graph.Moderate ∧ b.tracker.Moderate)) := by
  obtain ⟨w, hmeans⟩ := h.means
  obtain ⟨t, ht, hshows⟩ := hmeans.of_names name b hb
  refine ⟨t, ht, (reads_shown hmeans.sound hb hshows).imp_right (And.imp_right (mt ?_))⟩
  -- what hides nothing is calm once its shapes are moderate
  rintro ⟨hgraph, hbuffer⟩
  exact ⟨hgraph.calm hmeans.sound.1.2, hbuffer.calm (hmeans.bare hb)⟩

/-- Whole numbers as lanes: every element type holds them, and operations negate or add. -/
instance : Lane Int where
  zero := 0
  round _ x := x
  compute _ x := -x
  binary _ x y := x + y
  mulAcc x y z := x * y + z
  isTrue x := x ≠ 0
  start _ := 0
  fold _ x y := x + y
  sample _ := 0
  text _ := ""
  describe _ := ""

instance : LawfulLane Int := ⟨fun _ _ => rfl⟩

/-- The interpreter on one device. -/
def hostDevices : Registry Int := [("cpu", .interpreter "cpu" {} false .never)]

theorem serves_cpu : hostDevices.Serves "cpu" := ⟨"cpu", {}, false, rfl⟩

/-- Two lanes are uploaded. -/
def uploadPair : Command Int := .define "x" (.upload [2] .i32 #[3, 4] "cpu" {})

/-- They are negated. -/
def negatePair : Command Int := .define "y" (.elementwise "x" (.unary .neg) [] (.ok .none))

/-- The session after two lanes were uploaded and negated. -/
def negatedPair : Session Int :=
  ((({} : Session Int).step hostDevices uploadPair).2.step hostDevices negatePair).2

theorem reads_back_negatedPair :
    ∃ t array, negatePair.tensors (uploadPair.tensors fun _ => none) "y" = some t
      ∧ (negatedPair.step hostDevices (.readBack "y")).1.result = .ok (.array array)
      ∧ array.Reads t := by
  have hupload : uploadPair.Plain hostDevices fun _ => none := by
    rintro _ _ ⟨⟩
    refine ⟨serves_cpu, ?_⟩
    rintro _ ⟨⟩
    decide
  have hnegate : negatePair.Plain hostDevices (uploadPair.tensors fun _ => none) := by
    rintro _ _ ⟨⟩
    refine ⟨trivial, ?_⟩
    rintro _ ⟨⟩
    decide
  have hs : Program hostDevices negatedPair (negatePair.tensors (uploadPair.tensors fun _ => none)) :=
    .met (.met .start hupload (by decide +kernel)) hnegate (by decide +kernel)
  have hnamed : (negatedPair.buffers.lookup "y").any (fun b =>
      negatedPair.engine.graph.Moderate ∧ b.tracker.Moderate) = true := by decide +kernel
  obtain ⟨b, hb, hmoderate⟩ := (Option.any_eq_true _ _).mp hnamed
  obtain ⟨t, ht, ⟨array, hresult, hreads⟩ | ⟨-, hstopped⟩⟩ := Program.reads_back hs hb
  · exact ⟨t, array, ht, hresult, hreads⟩
  · exact absurd (of_decide_eq_true hmoderate) hstopped

/-- A row is repeated to more elements than signed words can count, and the last ones are kept. -/
def repeatRow : List (Command Int) :=
  [.define "x" (.upload [3] .f32 #[5, 6, 7] "cpu" {}),
    .define "y" (.move "x" (.shrink [⟨1, 3⟩])),
    .define "z" (.move "y" (.reshape (.ofNats [2, 1]))),
    .define "w" (.move "z" (.expand (.ofNats [2, 4611686018427387905]))),
    .define "v" (.move "w" (.reshape (.ofNats [9223372036854775810]))),
    .define "u" (.move "v" (.shrink [⟨9223372036854775808, 9223372036854775810⟩]))]

/-- Beyond the signed words a buffer is not read back as its tensor. -/
theorem misreads_repeatRow :
    (∀ name recipe, .define name recipe ∈ repeatRow → recipe.Plain hostDevices)
      ∧ (repeatRow.foldl Command.tensors (fun _ => none) "u").map
          (fun t => (t.dims, (List.range 2).map t.dense.lane)) = some ([2], [7, 7])
      ∧ (({} : Session Int).runAll hostDevices (repeatRow ++ [.readBack "u"])).map Reply.lanes?
        = [none, none, none, none, none, none, some [0, 0]] := by
  refine ⟨?_, by decide +kernel, by decide +kernel⟩
  intro name recipe hmem
  simp only [repeatRow, List.mem_cons, Command.define.injEq, List.not_mem_nil, or_false] at hmem
  rcases hmem with ⟨-, rfl⟩ | ⟨-, rfl⟩ | ⟨-, rfl⟩ | ⟨-, rfl⟩ | ⟨-, rfl⟩ | ⟨-, rfl⟩
  exacts [serves_cpu, trivial, rfl, rfl, rfl, trivial]

end Session

end TensorGraph
