import TensorGraph.Proofs.Meaning.Session
/-!
# Sessions that pad

Padding hides positions, and a session that pads still reads every buffer back, as long as the extents
are known, positions are counted by signed words, and no single element is hidden over an element at
the origin of what lies below. Only arithmetic that leaves the words stops it.

- `Recipe.Regular`, `Command.Regular`: commands that keep to this.
- `Session.Regular`: the sessions that such commands lead to.
- `Recipe.keeps_into`: what such commands make finds its positions or hides them.
- `Session.Regular.typed`: all extents in their graphs are known.
- `Session.Regular.exists_array`: every buffer is read back, unless the reading is stopped.
-/

namespace TensorGraph

open TensorGraph.Graph World

variable {α : Type} [Lane α] {devices : Registry α} {w : Census × Valuation α} {s : Session α}
  {b c : Buffer} {name : String}

/-! ## Regular commands -/

/-- The recipe asks for no load of its own and names devices that the interpreter serves. What it makes
has known extents, positions counted by signed words, and no single element hidden over an element at
the origin of what lies below. -/
def Recipe.Regular (devices : Registry α) (s : Session α) : Recipe α → Prop
  | upload dims _ _ device _ => devices.Serves device ∧ dims.prod ≤ 2 ^ 63
  | constant _ shape _ device _ => devices.Serves device ∧ shape.Addressable
  | load op shape _ device arg sources _ => devices.Serves device ∧ shape.Addressable
    ∧ sources = [] ∧ (op = .empty ∨ op = .rand ∧ ∃ seed, arg = .ok (.seed seed))
  | copy _ device => devices.Serves device
  | move x movement => ∀ b t, s.Names x b → b.tracker.move movement = .ok t →
    t.shape.Addressable ∧ ¬t.Unveils
  | reduce _ _ target => target.Addressable
  | _ => True

/-- Commands other than definitions are regular. -/
def Command.Regular (devices : Registry α) (s : Session α) (c : Command α) : Prop :=
  ∀ name recipe, c = .define name recipe → recipe.Regular devices s

namespace Session

/-- A movement to known extents that leaves nothing hidden is regular. -/
theorem Names.regular_move {x : String} (hb : s.Names x b) {m : Movement} {t : Tracker}
    (ht : b.tracker.move m = .ok t) (y : String) {dims : List Nat} (hmask : t.top.mask = none)
    (hdims : t.shape.static? = some dims) (hle : dims.prod ≤ 2 ^ 63) :
    (Command.define y (.move x m)).Regular devices s := by
  rintro _ _ ⟨⟩ b' t' hb' ht'
  obtain rfl := Option.some.inj (hb.symm.trans hb')
  obtain rfl := Except.ok.inj (ht.symm.trans ht')
  exact ⟨⟨_, Shape.elements?_eq hdims, hle⟩, Tracker.not_unveils_of_unmasked hmask⟩

/-- The sessions that regular commands lead to, whether they are met or refused. -/
inductive Regular (devices : Registry α) : Session α → Prop
  /-- The empty session. -/
  | start : Regular devices {}
  /-- The session after a command. -/
  | step {s : Session α} {c : Command α} (hs : Regular devices s) (hc : c.Regular devices s) :
    Regular devices (s.step devices c).2

end Session

/-- A buffer shows its own lanes. -/
theorem Buffer.Into.shows {dims : List Nat} (h : b.Into dims) (v : Valuation α) :
    b.Shows v ⟨b.tracker, b.config, b.dense v⟩ where
  layout := rfl
  config := rfl
  into := by
    rw [Tensor.dims, h.dims_dense v]
    exact h
  lanes := .refl _ _

/-! ## Making buffers -/

/-- A scalar repeated to a shape has the elements of the shape. -/
theorem Tensor.small_constant {value : α} {shape : Shape} (hshape : shape.Addressable) {dtype : DType}
    {config : Config} : Tensor.Small (Tensor.constant value shape dtype config) := by
  intro t ht
  obtain ⟨ones, -, ht⟩ := Option.bind_eq_some_iff.mp ht
  rw [Tensor.move] at ht
  split at ht
  · next layout hlayout =>
    obtain ⟨dims, hdims, rfl⟩ := Option.map_eq_some_iff.mp ht
    obtain ⟨v, hv, rfl⟩ := Tracker.map_setTop_eq_ok.mp hlayout
    obtain ⟨-, spans, -, -, rfl⟩ := View.expand_eq_ok.mp hv
    rw [Tracker.shape, Tracker.setTop, View.create_shape] at hdims
    obtain ⟨n, hn, hle⟩ := hshape
    rw [Shape.elements?_eq hdims] at hn
    exact Option.some.inj hn ▸ hle
  · cases ht

/-- The tensors that the buffers show. -/
def Session.tensors (v : Valuation α) (s : Session α) : Tensors α :=
  fun name => (s.buffers.lookup name).map fun b => ⟨b.tracker, b.config, b.dense v⟩

namespace Session.Legible

variable {rule : Rule} (h : s.Legible devices rule w)
include h

theorem shows : s.Shows w.2 (s.tensors w.2) := by
  intro name b hb
  obtain ⟨dims, hinto⟩ := h.into name b hb
  exact ⟨_, congrArg (Option.map _) hb, hinto.shows _⟩

theorem small (name : String) : Tensor.Small (s.tensors w.2 name) := by
  intro t ht
  obtain ⟨b, hb, rfl⟩ := Option.map_eq_some_iff.mp ht
  obtain ⟨dims, hinto⟩ := h.into name b hb
  obtain ⟨n, -, ht⟩ := hinto
  rw [Tensor.dims, Buffer.dims_dense ht.shape]
  exact ht.addressable

end Session.Legible

/-- A regular recipe that is no movement is plain, and describes a small tensor. -/
theorem Recipe.Regular.plain (h : s.Legible devices .any w) {recipe : Recipe α}
    (hregular : recipe.Regular devices s) (hmove : ∀ x m, recipe ≠ .move x m)
    (hroot : ∀ x, recipe ≠ .root x) : recipe.Plain devices ∧ recipe.Small (s.tensors w.2) := by
  cases recipe with
  | upload =>
    refine ⟨hregular.1, ?_⟩
    rintro _ ⟨⟩
    exact hregular.2
  | constant => exact ⟨hregular.imp_right Shape.Addressable.isStatic, Tensor.small_constant hregular.2⟩
  | load op shape dtype device arg sources config =>
    obtain ⟨hserved, hshape, rfl, hop⟩ := hregular
    refine ⟨⟨hserved, hshape.isStatic, rfl, hop⟩, ?_⟩
    obtain ⟨dims, hdims, hle⟩ := hshape.exists_dims
    rcases hop with rfl | ⟨rfl, seed, rfl⟩
    · intro t ht
      obtain ⟨dims', hdims', rfl⟩ := Option.map_eq_some_iff.mp ht
      exact Option.some.inj (hdims.symm.trans hdims') ▸ hle
    · intro t ht
      obtain ⟨dims', hdims', rfl⟩ := Option.map_eq_some_iff.mp ht
      exact Option.some.inj (hdims.symm.trans hdims') ▸ hle
  | constantLike x value =>
    refine ⟨trivial, fun t ht => ?_⟩
    obtain ⟨u, hu, ht⟩ := Option.bind_eq_some_iff.mp ht
    exact Tensor.small_constant ⟨_, Shape.elements?_ofNats _, h.small x u hu⟩ t ht
  | copy x =>
    refine ⟨hregular, fun t ht => ?_⟩
    obtain ⟨u, hu, rfl⟩ := Option.map_eq_some_iff.mp ht
    exact h.small x u hu
  | move x m => exact absurd rfl (hmove x m)
  | contiguous x =>
    refine ⟨trivial, fun t ht => ?_⟩
    obtain ⟨u, hu, rfl⟩ := Option.map_eq_some_iff.mp ht
    exact h.small x u hu
  | root x => exact absurd rfl (hroot x)
  | same x => exact ⟨trivial, h.small x⟩
  | elementwise x code others arg =>
    refine ⟨trivial, fun t ht => ?_⟩
    cases arg with
    | error => cases ht
    | ok arg =>
      obtain ⟨u, hu, ht⟩ := Option.bind_eq_some_iff.mp ht
      obtain ⟨l, -, ht⟩ := Option.bind_eq_some_iff.mp ht
      exact Option.some.inj ht ▸ h.small x u hu
  | reduce x op target =>
    refine ⟨Shape.Addressable.isStatic hregular, fun new hnew => ?_⟩
    obtain ⟨dims, hdims, hle⟩ := Shape.Addressable.exists_dims hregular
    exact Option.some.inj (hdims.symm.trans hnew) ▸ hle

variable [LawfulLane α]

/-- A regular recipe makes a buffer that finds its positions or hides them. -/
theorem Recipe.keeps_into (h : s.Legible devices .any w) {recipe : Recipe α}
    (hregular : recipe.Regular devices s) :
    Act.Keeps (Engine.meaning devices .any) w s (recipe.make devices)
      fun b w' _ => w'.1.Lists b ∧ ∃ dims, b.Into dims := by
  have hs := h.sound
  have hg := h.meaningful
  -- all other recipes are plain: they show a tensor of the reference, whatever their operands hide
  have hshown (hmove : ∀ x m, recipe ≠ .move x m) (hroot : ∀ x, recipe ≠ .root x) :
      Act.Keeps (Engine.meaning devices .any) w s (recipe.make devices)
        fun b w' _ => w'.1.Lists b ∧ ∃ dims, b.Into dims := by
    obtain ⟨hplain, hsmall⟩ := hregular.plain h hmove hroot
    refine (Recipe.keeps_tensor (fun _ => trivial) h h.shows hplain hsmall
      fun x m hrecipe => absurd hrecipe (hmove x m)).imp ?_
    rintro b w' _ - ⟨hlist, t, -, hshows⟩
    exact ⟨hlist, _, hshows.into⟩
  cases recipe with
  | move x movement =>
    refine (Act.looks_buffer hs x).look fun b hb => ?_
    obtain ⟨dims, hinto⟩ := h.into x b hb
    have hmove := Buffer.sat_move hg.1 (hb.lists hs) movement
    refine Act.keeps_engine hs (World.keeps_build (hmove.imp ?_ ?_))
    · rintro c g' ⟨W', hviewed, hc, hmoved⟩
      obtain ⟨haddressable, hveiled⟩ := hregular b c.tracker hb hmoved.tracker
      obtain ⟨new, hnew, hle⟩ := haddressable.exists_dims
      exact ⟨(W', w.2), ⟨hg.viewed hviewed, Graph.obeys_any _⟩, hc, new,
        hinto.moved hmoved hnew hle hveiled⟩
    · rintro _ _ ⟨rfl, -⟩
      exact ⟨trivial, w, hg.refl, Graph.obeys_any _⟩
  | root x =>
    refine (Act.looks_buffer hs x).look fun b hb => ?_
    obtain ⟨dims, hdims, hle⟩ := hg.static? (hb.lists hs)
    refine keeps_pure hs ?_
    rw [hg.1.root_eq (hb.lists hs)]
    exact ⟨hg.1.lists_base (hb.lists hs), dims, Buffer.into_base hdims hle⟩
  | _ => exact hshown (by simp) (by simp)

/-! ## Regular sessions -/

namespace Session

omit [LawfulLane α] in
/-- A movement that is possible is made under the name that it asks for. -/
theorem Legible.names_move (h : s.Legible devices .any w) {x : String} (hb : s.Names x b) {m : Movement}
    {t : Tracker} (ht : b.tracker.move m = .ok t) (y : String) :
    ∃ c, (s.step devices (.define y (.move x m))).2.Names y c ∧ c.base = b.base ∧ c.tracker = t := by
  have hmake : (world (Engine.meaning devices .any)).Keeps w s ((Recipe.move x m).make devices)
      (fun c w' _ => w'.1.Lists c ∧ c.base = b.base ∧ c.tracker = t) fun _ => False := by
    refine (Act.looks_named h.sound hb).look ?_
    rintro b rfl
    refine Act.keeps_engine h.sound (World.keeps_build (Sat.imp
      (Buffer.sat_move_of_ok h.meaningful.1 (hb.lists h.sound) ht) ?_ fun _ _ h => h))
    rintro c g' ⟨W', hviewed, hc, hmoved, htracker⟩
    exact ⟨(W', w.2), ⟨h.meaningful.viewed hviewed, Graph.obeys_any _⟩, hc, hmoved.base, htracker⟩
  rcases step_cases (Command.sat_define hmake) with
    ⟨_, -, _, -, c, hc, hbuffers⟩ | ⟨_, -, hfalse, -⟩
  · exact ⟨c, by rw [Names, hbuffers, List.lookup_cons_self], hc⟩
  · exact hfalse.elim

/-- A regular command leads to a session whose buffers are legible. -/
theorem Legible.step (h : s.Legible devices .any w) {c : Command α} (hc : c.Regular devices s) :
    ∃ w', (s.step devices c).2.Legible devices .any w' := by
  have hkept := h.kept (c := c) fun name recipe hdefine => Recipe.keeps_into h (hc name recipe hdefine)
  rcases step_cases (Command.sat_perform h.sound hkept) with
    ⟨_, -, w', hends, hrenames⟩ | ⟨_, -, w', hends, hbuffers⟩
  · refine ⟨w', ⟨(Engine.meaning devices .any).sound hends.engine, hends.held⟩,
      fun _ _ _ => trivial, fun x b hb => ?_⟩
    rw [Names] at hb
    cases c with
    | define name recipe =>
      obtain ⟨d, hd, hbuffers⟩ := hrenames
      rw [hbuffers, lookup_cons_forget] at hb
      split at hb
      · exact Option.some.inj hb ▸ hd
      · exact h.into x b hb
    | drop name =>
      rw [hrenames, lookup_forget] at hb
      split at hb
      · cases hb
      · exact h.into x b hb
    | _ =>
      rw [hrenames] at hb
      exact h.into x b hb
  · refine ⟨w', ⟨(Engine.meaning devices .any).sound_fails hends.engine, hends.held⟩,
      fun _ _ _ => trivial, fun x b hb => ?_⟩
    rw [Names, hbuffers] at hb
    exact h.into x b hb

/-- The buffers of a regular session are legible. -/
theorem Regular.exists_legible (h : s.Regular devices) : ∃ w, s.Legible devices .any w := by
  induction h with
  | start =>
    refine ⟨(fun _ => none, fun _ _ => Lane.zero),
      ⟨⟨⟨Graph.wellFormed_empty, ?_⟩, Graph.obeys_any _⟩, ?_⟩, fun _ _ _ => trivial, ?_⟩
    · rintro _ ⟨⟩
    · rintro _ ⟨⟩
    · rintro _ _ ⟨⟩
  | step _ hc ih =>
    obtain ⟨w, hlegible⟩ := ih
    exact hlegible.step hc

/-- The graph of a regular session is typed, so that its bases are lowered to kernels with
discipline. -/
theorem Regular.typed (h : s.Regular devices) : s.engine.graph.Typed := by
  obtain ⟨w, hlegible⟩ := h.exists_legible
  exact hlegible.meaningful.typed

/-- Every buffer of a regular session is read back, unless arithmetic that leaves the words stops the
reading. -/
theorem Regular.exists_array (h : s.Regular devices) (hb : s.Names name b) :
    (∃ array, (s.step devices (.readBack name)).1.result = .ok (.array array)
        ∧ b.shape.static? = some array.shape ∧ array.dtype = b.dtype)
      ∨ (s.step devices (.readBack name)).1.result = .error (.failed .overflow)
        ∧ ¬(s.engine.graph.Calm ∧ b.tracker.Calm) := by
  obtain ⟨w, hlegible⟩ := h.exists_legible
  obtain ⟨dims, hinto⟩ := hlegible.into name b hb
  refine (reads_shown hlegible.sound hb (hinto.shows _)).imp_left ?_
  rintro ⟨array, hresult, hreads⟩
  exact ⟨array, hresult, hreads.shape ▸ (hinto.shows w.2).into.shape, hreads.dtype⟩

end Session

end TensorGraph
