import Mathlib.Data.List.Forall2
import Mathlib.Order.Nat
/-!
# Outcomes of computations

How a computation that may fail, and that may change a state, ends.

- `bind_eq_ok`: a chain succeeds exactly if each of its links does.
- `Sat`: what holds of the outcome of a computation, whether it succeeds or fails.
-/

namespace TensorGraph

/-! ## Computations that may fail -/

section Except

variable {ε β γ : Type}

@[simp] theorem ok_bind (b : β) (f : β → Except ε γ) : (Except.ok b >>= f) = f b := rfl

@[simp] theorem error_bind (e : ε) (f : β → Except ε γ) : (Except.error e >>= f) = .error e := rfl

@[simp] theorem pure_eq_ok (b : β) : (pure b : Except ε β) = .ok b := rfl

@[simp] theorem throw_eq_error (e : ε) : (throw e : Except ε β) = .error e := rfl

@[simp] theorem map_ok (f : β → γ) (b : β) : (f <$> (Except.ok b : Except ε β)) = .ok (f b) := rfl

theorem bind_eq_ok {x : Except ε β} {f : β → Except ε γ} {c : γ} :
    (x >>= f) = .ok c ↔ ∃ b, x = .ok b ∧ f b = .ok c := by
  cases x <;> simp

theorem bind_eq_error {x : Except ε β} {f : β → Except ε γ} {e : ε} :
    (x >>= f) = .error e ↔ x = .error e ∨ ∃ b, x = .ok b ∧ f b = .error e := by
  cases x <;> simp

theorem map_eq_ok {x : Except ε β} {f : β → γ} {c : γ} :
    f <$> x = .ok c ↔ ∃ b, x = .ok b ∧ f b = c := by
  cases x with
  | error e => exact ⟨nofun, nofun⟩
  | ok b => simp

theorem mapM_eq_error {f : β → Except ε γ} {l : List β} {e : ε}
    (h : l.mapM f = .error e) : ∃ b ∈ l, f b = .error e := by
  induction l with
  | nil => cases h
  | cons b l ih =>
    rw [List.mapM_cons] at h
    cases hb : f b with
    | error e' =>
      rw [hb, error_bind] at h
      exact ⟨b, List.mem_cons_self, hb.trans (congrArg Except.error (Except.error.inj h))⟩
    | ok c =>
      rw [hb, ok_bind] at h
      cases hl : l.mapM f with
      | error e' =>
        rw [hl, error_bind] at h
        obtain ⟨d, hd, hfd⟩ := ih (hl.trans h)
        exact ⟨d, List.mem_cons_of_mem _ hd, hfd⟩
      | ok cs =>
        rw [hl] at h
        cases h

theorem mapM_eq_ok {f : β → Except ε γ} {l : List β} {cs : List γ} :
    l.mapM f = .ok cs ↔ List.Forall₂ (fun b c => f b = .ok c) l cs := by
  induction l generalizing cs with
  | nil => simp [eq_comm]
  | cons b l ih =>
    simp only [List.mapM_cons, bind_eq_ok, List.forall₂_cons_left_iff, ih, pure_eq_ok,
      Except.ok.injEq]
    grind

/-- What fails alike element by element fails alike. -/
theorem mapM_eq_error_congr {β' γ' : Type} {f : β → Except ε γ} {f' : β' → Except ε γ'} {l : List β}
    {l' : List β'} (h : List.Forall₂ (fun b b' => ∀ e, f b = .error e ↔ f' b' = .error e) l l') (e : ε) :
    l.mapM f = .error e ↔ l'.mapM f' = .error e := by
  induction h with
  | nil => simp
  | @cons b b' l l' hb _ ih =>
    have hok : (∃ c, f b = .ok c) ↔ ∃ c, f' b' = .ok c := by
      cases hfb : f b with
      | error e => simp [(hb e).mp hfb]
      | ok c =>
        cases hfb' : f' b' with
        | error e => cases hfb.symm.trans ((hb e).mpr hfb')
        | ok c' => simp
    simp only [List.mapM_cons, bind_eq_error, pure_eq_ok, reduceCtorEq, and_false, exists_const,
      or_false, exists_and_right, hb e, hok, ih]

end Except

/-! ## Computations on a state -/

section State

variable {ε σ β γ : Type}

/-- The computation `x`, started in the state `s`, ends with a value and a state that satisfy
`post`, or with a failure and a state that satisfy `fail`. -/
def Sat (x : ExceptT ε (StateM σ) β) (s : σ) (post : β → σ → Prop) (fail : ε → σ → Prop) : Prop :=
  match x.run s with
  | (.ok b, s') => post b s'
  | (.error e, s') => fail e s'

variable {s : σ} {post : β → σ → Prop} {fail : ε → σ → Prop}

@[simp] theorem sat_pure (b : β) :
    Sat (pure b : ExceptT ε (StateM σ) β) s post fail ↔ post b s := Iff.rfl

@[simp] theorem sat_throw (e : ε) :
    Sat (throw e : ExceptT ε (StateM σ) β) s post fail ↔ fail e s := Iff.rfl

theorem sat_bind {x : ExceptT ε (StateM σ) γ} {f : γ → ExceptT ε (StateM σ) β} :
    Sat (x >>= f) s post fail ↔ Sat x s (fun c s' => Sat (f c) s' post fail) fail := by
  rw [Sat, Sat]
  change (match (match x.run s with | (r, s') => (ExceptT.bindCont f r).run s') with
    | (.ok b, s') => post b s'
    | (.error e, s') => fail e s') ↔ _
  rcases x.run s with ⟨e | c, s'⟩ <;> rfl

@[simp] theorem sat_liftM_ok (b : β) :
    Sat (liftM (Except.ok b : Except ε β) : ExceptT ε (StateM σ) β) s post fail ↔ post b s := Iff.rfl

@[simp] theorem sat_liftM_error (e : ε) :
    Sat (liftM (Except.error e : Except ε β) : ExceptT ε (StateM σ) β) s post fail ↔ fail e s :=
  Iff.rfl

@[simp] theorem sat_get {post : σ → σ → Prop} :
    Sat (get : ExceptT ε (StateM σ) σ) s post fail ↔ post s s := Iff.rfl

@[simp] theorem sat_set {post : PUnit → σ → Prop} (s' : σ) :
    Sat (set s' : ExceptT ε (StateM σ) PUnit) s post fail ↔ post ⟨⟩ s' := Iff.rfl

@[simp] theorem sat_modify {post : PUnit → σ → Prop} (f : σ → σ) :
    Sat (modify f : ExceptT ε (StateM σ) PUnit) s post fail ↔ post ⟨⟩ (f s) := Iff.rfl

@[simp] theorem sat_modifyGet (f : σ → β × σ) :
    Sat (modifyGet f : ExceptT ε (StateM σ) β) s post fail ↔ post (f s).1 (f s).2 := Iff.rfl

/-- A computation that satisfies much satisfies less. -/
theorem Sat.imp {x : ExceptT ε (StateM σ) β} {post' : β → σ → Prop} {fail' : ε → σ → Prop}
    (h : Sat x s post fail) (hpost : ∀ b s', post b s' → post' b s')
    (hfail : ∀ e s', fail e s' → fail' e s') : Sat x s post' fail' := by
  rw [Sat] at h ⊢
  rcases hx : x.run s with ⟨e | b, s'⟩ <;> rw [hx] at h
  · exact hfail e s' h
  · exact hpost b s' h

/-- Both of two facts about an outcome hold. -/
theorem Sat.and {x : ExceptT ε (StateM σ) β} {post' : β → σ → Prop} {fail' : ε → σ → Prop}
    (h : Sat x s post fail) (h' : Sat x s post' fail') :
    Sat x s (fun b s' => post b s' ∧ post' b s') fun e s' => fail e s' ∧ fail' e s' := by
  rw [Sat] at h h' ⊢
  rcases hx : x.run s with ⟨e | b, s'⟩ <;> rw [hx] at h h' <;> exact ⟨h, h'⟩

/-- A computation ends as it does when it is run. -/
theorem sat_run (x : ExceptT ε (StateM σ) β) (s : σ) :
    Sat x s (fun b s' => x.run s = (.ok b, s')) fun e s' => x.run s = (.error e, s') := by
  rw [Sat]
  rcases x.run s with ⟨e | b, s'⟩ <;> rfl

/-- What an outcome satisfies may depend on the run. -/
theorem Sat.of_run {x : ExceptT ε (StateM σ) β}
    (h : Sat x s (fun b s' => x.run s = (.ok b, s') → post b s')
      fun e s' => x.run s = (.error e, s') → fail e s') : Sat x s post fail :=
  Sat.imp (h.and (sat_run x s)) (fun _ _ h => h.1 h.2) fun _ _ h => h.1 h.2

end State

end TensorGraph
