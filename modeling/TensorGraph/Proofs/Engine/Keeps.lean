import TensorGraph.Engine.Realize
import TensorGraph.Proofs.World
/-!
# Computations of the engine

What is known about an engine, or about its graph, is kept by the small computations that larger ones
are made of.

- `World.Keeps.attempt`: catching an error.
- `World.keeps_build`: a computation on the graph.
- `Run.sat_execute_kernel`: the unit of a kernel, once its device is found.
-/

namespace TensorGraph

variable {α : Type} {e : Engine α}

namespace World

variable {ω β : Type} {w : ω} {post : β → ω → Engine α → Prop} {fail : Failure → Prop}

section Engine

variable {R : World ω (Engine α)}

theorem keeps_ofExcept (he : R.Sound w e) {r : Except Error β}
    (h : ∀ cause, r = .error cause → fail cause.failure) :
    R.Keeps w e (Run.ofExcept r) (fun b w' e' => r = .ok b ∧ w' = w ∧ e' = e) fail := by
  cases r with
  | ok b => exact keeps_pure he ⟨rfl, rfl, rfl⟩
  | error cause => exact keeps_throw he (h cause rfl)

theorem keeps_graph (he : R.Sound w e) :
    R.Keeps w e (Run.graph : Run α (Graph α)) (fun g w' e' => g = e.graph ∧ w' = w ∧ e' = e) fail :=
  ⟨w, R.refl he, rfl, rfl, rfl⟩

theorem sat_build {b : Build α β} {post : β → Engine α → Prop} {fail : Failure → Engine α → Prop} :
    Sat (Run.build b) e post fail ↔ Sat b e.graph (fun c g => post c { e with graph := g })
      fun cause g => fail cause.failure { e with graph := g } := by
  rw [Run.build, sat_bind, sat_get, Sat, Sat]
  rcases hb : b.run e.graph with ⟨cause | c, g'⟩ <;> rfl

theorem sat_attempt {r : Run α β} {post : Except Error β → Engine α → Prop}
    {fail : Failure → Engine α → Prop} :
    Sat (Run.attempt r) e post fail ↔ Sat r e (fun b => post (.ok b)) fun f e' =>
      (∀ cause, f = .error cause → post (.error cause) e')
        ∧ ((∀ cause, f ≠ .error cause) → fail f e') := by
  simp only [Sat, Run.attempt, ExceptT.run]
  rcases r e with ⟨(cause | text) | b, e'⟩ <;> simp

/-- What a computation does is kept where its error is caught. -/
theorem Keeps.attempt {r : Run α β} (h : R.Keeps w e r post fail)
    (hcaught : ∀ {w'} {e' : Engine α}, R.Fails w e w' e' → R.Leads w e w' e') :
    R.Keeps w e (Run.attempt r)
      (fun result w' e' => match result with
        | .ok b => post b w' e'
        | .error cause => fail (.error cause)) fail := by
  rw [Keeps, sat_attempt]
  refine Sat.imp h ?_ ?_
  · rintro b e' ⟨w', hleads, hpost⟩
    exact ⟨w', hleads, hpost⟩
  · rintro failure e' ⟨hfail, w', hfails⟩
    refine ⟨?_, fun _ => ⟨hfail, w', hfails⟩⟩
    rintro cause rfl
    exact ⟨w', hcaught hfails, hfail⟩

end Engine

section Graph

variable {R : World ω (Graph α)}

/-- A change of anything but the graph leaves what is known of it. -/
theorem keeps_modify_same (hg : R.Sound w e.graph) {f : Engine α → Engine α}
    (hf : (f e).graph = e.graph) :
    (R.comap Engine.graph).Keeps w e (modify f : Run α PUnit)
      (fun _ w' e' => w' = w ∧ e' = f e) fail := by
  refine keeps_modify ?_
  change R.Leads w e.graph w (f e).graph
  rw [hf]
  exact R.refl hg

theorem keeps_record (hg : R.Sound w e.graph) (event : Event α) :
    (R.comap Engine.graph).Keeps w e (Run.record event)
      (fun _ w' e' => w' = w ∧ e' = e.record event) fail :=
  keeps_modify_same hg rfl

theorem keeps_modifyGraph {f : Graph α → Graph α} (h : R.Leads w e.graph w (f e.graph)) :
    (R.comap Engine.graph).Keeps w e (Run.modifyGraph f)
      (fun _ w' e' => w' = w ∧ e' = { e with graph := f e.graph }) fail :=
  ⟨w, h, rfl, rfl⟩

/-- The beginning of a unit leaves the graph alone. -/
theorem keeps_begin (hg : R.Sound w e.graph) (item : Item α) :
    (R.comap Engine.graph).Keeps w e (Run.begin item)
      (fun _ w' e' => w' = w ∧ e'.graph = e.graph) fail := by
  refine (keeps_get (R := R.comap Engine.graph) hg).look ?_
  rintro _ rfl
  refine (keeps_modify_same hg rfl).bind ?_
  rintro _ w e₁ hleads₁ ⟨rfl, rfl⟩
  refine (keeps_record (R.sound hleads₁) _).bind ?_
  rintro _ w e₂ hleads₂ ⟨rfl, rfl⟩
  exact keeps_pure (R := R.comap Engine.graph) (R.sound hleads₂) ⟨rfl, rfl⟩

theorem keeps_build {b : Build α β} (h : R.Keeps w e.graph b
      (fun c w' g' => post c w' { e with graph := g' }) fun cause => fail cause.failure) :
    (R.comap Engine.graph).Keeps w e (Run.build b) post fail :=
  sat_build.mpr h

end Graph

end World

@[simp] theorem Run.sat_graph {post : Graph α → Engine α → Prop} {fail : Failure → Engine α → Prop} :
    Sat Run.graph e post fail ↔ post e.graph e := Iff.rfl

/-- A request to run a kernel is entered in the journal, and answered as the backend runs it. -/
theorem Backend.sat_ask_execute {backend : Backend α} {device : String} {tree : Tree α}
    {output : Buffer} {inputs : List (Block α)} {post : Block α → Engine α → Prop}
    {fail : Failure → Engine α → Prop} {asked : Engine α}
    (hasked : asked = e.record (.request device backend.counted (.query (.execute tree output inputs))))
    (hok : ∀ block, backend.execute tree output inputs (Device.args device) = .ok block →
      post block asked)
    (herror : ∀ cause, backend.execute tree output inputs (Device.args device) = .error cause →
      fail (Error.backend backend.name cause).failure asked) :
    Sat (backend.ask device (.execute tree output inputs)) e post fail := by
  subst hasked
  rw [ask, sat_bind]
  dsimp only
  cases hanswer : backend.execute tree output inputs (Device.args device) with
  | ok block => exact hok block hanswer
  | error cause => exact herror cause hanswer

/-- The unit of a kernel on a device that is there compiles its tree, fetches the blocks of its slots
and asks the backend. -/
theorem Run.sat_execute_kernel [Lane α] {devices : Registry α} {realize : Realizer α}
    {held : List Buffer} {item : Item α} {backend : Backend α}
    {post : Block α → Engine α → Prop} {fail : Failure → Engine α → Prop}
    (hfind : devices.find item.output.device = .ok backend) (hload : item.load? = none) :
    Sat (execute devices realize held item) e post fail ↔ Sat (do
        let kernel ← compiled item
        let inputs ← kernel.slots.mapM (slotInput item.output)
        backend.ask item.output.device (.execute kernel.tree item.output inputs)) e post fail := by
  rw [execute, hfind, hload]
  exact sat_bind

end TensorGraph
