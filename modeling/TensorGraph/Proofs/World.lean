import Mathlib.Data.List.Forall2
import TensorGraph.Proofs.Outcome
/-!
# Computations in a world

Beside the state of a computation runs what is known about it: which buffers were handed out, what
they mean. Such knowledge only grows, and it stays true whether a computation succeeds or fails.

A failure may leave more behind than a success does, as long as what is known stays true.

- `World`: what is known about a state, and how it grows; `World.also` adds an invariant.
- `World.Keeps`: computations that keep what is known.
- `World.Keeps.bind`: a chain keeps it if each link does.
-/

namespace TensorGraph

/-- Knowledge of type `ω` about states of type `σ`, and how both move on. -/
structure World (ω σ : Type) where
  /-- What is known is true of the state. -/
  Sound : ω → σ → Prop
  /-- From the first state and what is known of it, a computation may get to the second. -/
  Leads : ω → σ → ω → σ → Prop
  /-- A computation may do nothing. -/
  refl {w : ω} {s : σ} : Sound w s → Leads w s w s
  /-- A computation may go on where another has ended. -/
  trans {w w' w'' : ω} {s s' s'' : σ} : Leads w s w' s' → Leads w' s' w'' s'' → Leads w s w'' s''
  /-- From the first state and what is known of it, a computation that fails may get to the second. -/
  Fails : ω → σ → ω → σ → Prop
  /-- A computation may fail where another has ended. -/
  fails {w w' : ω} {s s' : σ} : Leads w s w' s' → Fails w s w' s'
  /-- A computation may go on where another has ended, and fail. -/
  trans_fails {w w' w'' : ω} {s s' s'' : σ} : Leads w s w' s' → Fails w' s' w'' s'' →
    Fails w s w'' s''
  /-- Where a computation gets to, what is known is true, even if it fails. -/
  sound_fails {w w' : ω} {s s' : σ} : Fails w s w' s' → Sound w' s'

namespace World

variable {ω σ τ ε ε' β γ : Type} {R : World ω σ} {w : ω} {s : σ}

/-- Where a computation gets to, what is known is true. -/
theorem sound {w' : ω} {s' : σ} (h : R.Leads w s w' s') : R.Sound w' s' := R.sound_fails (R.fails h)

/-- The world of larger states that hold one of the world `R`. -/
def comap (f : τ → σ) (R : World ω σ) : World ω τ where
  Sound w t := R.Sound w (f t)
  Leads w t w' t' := R.Leads w (f t) w' (f t')
  refl := R.refl
  trans := R.trans
  Fails w t w' t' := R.Fails w (f t) w' (f t')
  fails := R.fails
  trans_fails := R.trans_fails
  sound_fails := R.sound_fails

/-- The world of those states of the world `R` in which `I` holds as well. -/
def also (R : World ω σ) (I : σ → Prop) : World ω σ where
  Sound w s := R.Sound w s ∧ I s
  Leads w s w' s' := R.Leads w s w' s' ∧ I s'
  refl h := ⟨R.refl h.1, h.2⟩
  trans h h' := ⟨R.trans h.1 h'.1, h'.2⟩
  Fails w s w' s' := R.Fails w s w' s' ∧ I s'
  fails h := ⟨R.fails h.1, h.2⟩
  trans_fails h h' := ⟨R.trans_fails h.1 h'.1, h'.2⟩
  sound_fails h := ⟨R.sound_fails h.1, h.2⟩

/-- The computation `x` keeps what is known. If it succeeds, `post` holds of its value and of what is
known then; if it fails, `fail` holds of its failure. -/
def Keeps (R : World ω σ) (w : ω) (s : σ) (x : ExceptT ε (StateM σ) β) (post : β → ω → σ → Prop)
    (fail : ε → Prop) : Prop :=
  Sat x s (fun b s' => ∃ w', R.Leads w s w' s' ∧ post b w' s')
    fun e s' => fail e ∧ ∃ w', R.Fails w s w' s'

variable {post : β → ω → σ → Prop} {fail : ε → Prop}

theorem keeps_pure (hs : R.Sound w s) {b : β} (h : post b w s) :
    R.Keeps w s (pure b) post fail :=
  ⟨w, R.refl hs, h⟩

theorem keeps_throw (hs : R.Sound w s) {e : ε} (h : fail e) : R.Keeps w s (throw e) post fail :=
  ⟨h, w, R.fails (R.refl hs)⟩

theorem Keeps.imp {x : ExceptT ε (StateM σ) β} {post' : β → ω → σ → Prop}
    (h : R.Keeps w s x post fail)
    (himp : ∀ b w' s', R.Leads w s w' s' → post b w' s' → post' b w' s') :
    R.Keeps w s x post' fail := by
  refine Sat.imp h ?_ fun _ _ h => h
  rintro b s' ⟨w', hleads, hpost⟩
  exact ⟨w', hleads, himp b w' s' hleads hpost⟩

theorem Keeps.bind {x : ExceptT ε (StateM σ) γ} {f : γ → ExceptT ε (StateM σ) β}
    {mid : γ → ω → σ → Prop} (hx : R.Keeps w s x mid fail)
    (hf : ∀ c w' s', R.Leads w s w' s' → mid c w' s' → R.Keeps w' s' (f c) post fail) :
    R.Keeps w s (x >>= f) post fail := by
  rw [Keeps, sat_bind]
  refine Sat.imp hx ?_ fun _ _ h => h
  rintro c s' ⟨w', hleads, hmid⟩
  refine Sat.imp (hf c w' s' hleads hmid) ?_ ?_
  · rintro b s'' ⟨w'', hleads', hpost⟩
    exact ⟨w'', R.trans hleads hleads', hpost⟩
  · rintro e s'' ⟨he, w'', hfails⟩
    exact ⟨he, w'', R.trans_fails hleads hfails⟩

/-- A computation keeps what holds of every state. -/
theorem Keeps.also {x : ExceptT ε (StateM σ) β} {I : σ → Prop} (h : R.Keeps w s x post fail)
    (hI : ∀ s', I s') : (R.also I).Keeps w s x post fail := by
  refine Sat.imp h ?_ ?_
  · rintro b s' ⟨w', hleads, hpost⟩
    exact ⟨w', ⟨hleads, hI s'⟩, hpost⟩
  · rintro e s' ⟨he, w', hfails⟩
    exact ⟨he, w', hfails, hI s'⟩

/-- A computation that leaves the state and what is known as they are only finds something out. -/
theorem Keeps.look {x : ExceptT ε (StateM σ) γ} {f : γ → ExceptT ε (StateM σ) β} {mid : γ → Prop}
    (hx : R.Keeps w s x (fun c w' s' => mid c ∧ w' = w ∧ s' = s) fail)
    (hf : ∀ c, mid c → R.Keeps w s (f c) post fail) : R.Keeps w s (x >>= f) post fail := by
  refine hx.bind ?_
  rintro c w s - ⟨hmid, rfl, rfl⟩
  exact hf c hmid

/-- A computation whose value is only wrapped keeps what is known. -/
theorem Keeps.wrap {x : ExceptT ε (StateM σ) γ} {mid : γ → ω → σ → Prop}
    (hx : R.Keeps w s x mid fail) (f : γ → β) :
    R.Keeps w s (x >>= fun c => pure (f c)) (fun _ _ _ => True) fail :=
  hx.bind fun _ _ _ hleads _ => keeps_pure (R.sound hleads) trivial

theorem keeps_get (hs : R.Sound w s) :
    R.Keeps w s (get : ExceptT ε (StateM σ) σ) (fun t w' s' => t = s ∧ w' = w ∧ s' = s) fail :=
  ⟨w, R.refl hs, rfl, rfl, rfl⟩

theorem keeps_modify {f : σ → σ} (h : R.Leads w s w (f s)) :
    R.Keeps w s (modify f : ExceptT ε (StateM σ) PUnit) (fun _ w' s' => w' = w ∧ s' = f s) fail :=
  ⟨w, h, rfl, rfl⟩

/-- What is found of each element while the state stays is found of all. -/
theorem keeps_mapM {δ : Type} {l : List γ} {f : γ → ExceptT ε (StateM σ) δ} {rel : γ → δ → Prop}
    (hs : R.Sound w s) (hf : ∀ c ∈ l, R.Keeps w s (f c)
      (fun d w' s' => rel c d ∧ w' = w ∧ s' = s) fail) :
    R.Keeps w s (l.mapM f) (fun ds w' s' => List.Forall₂ rel l ds ∧ w' = w ∧ s' = s) fail := by
  induction l with
  | nil => exact keeps_pure hs ⟨.nil, rfl, rfl⟩
  | cons c l ih =>
    rw [List.mapM_cons]
    refine (hf c List.mem_cons_self).look fun d hd => ?_
    refine (ih fun c hc => hf c (List.mem_cons_of_mem _ hc)).look fun ds hds => ?_
    exact keeps_pure hs ⟨.cons hd hds, rfl, rfl⟩

end World

end TensorGraph
