import Mathlib.Data.List.Forall2
/-!
# Lists

Two lists are in step if they are of the same length and related element by element.

- `exists_of_forall₂_left`, `exists_of_forall₂_right`: partners in lists in step.
- `forall₂_comp`, `forall₂_and`: lists in step with the same list, or in two ways.
- `rel_or_rel_of_pairwise`: of two elements of a list one is before the other.
-/

namespace TensorGraph

/-! ## Lists in step -/

/-- An element of a list has its partner in a list in step with it. -/
theorem exists_of_forall₂_left {β γ : Type} {R : β → γ → Prop} {l : List β} {l' : List γ}
    (h : List.Forall₂ R l l') {b : β} (hb : b ∈ l) : ∃ c ∈ l', R b c := by
  induction h with
  | nil => cases hb
  | @cons b' c l l' hbc _ ih =>
    rcases List.mem_cons.mp hb with rfl | hb
    · exact ⟨c, List.mem_cons_self, hbc⟩
    · obtain ⟨d, hd, hbd⟩ := ih hb
      exact ⟨d, List.mem_cons_of_mem _ hd, hbd⟩

theorem exists_of_forall₂_right {β γ : Type} {R : β → γ → Prop} {l : List β} {l' : List γ}
    (h : List.Forall₂ R l l') {c : γ} (hc : c ∈ l') : ∃ b ∈ l, R b c := by
  have hflip : List.Forall₂ (fun c b => R b c) l' l := h.flip
  exact exists_of_forall₂_left hflip hc

/-- Partners for all elements of a list make a list in step with it. -/
theorem exists_forall₂ {β γ : Type} {R : β → γ → Prop} {l : List β} (h : ∀ b ∈ l, ∃ c, R b c) :
    ∃ l', List.Forall₂ R l l' := by
  induction l with
  | nil => exact ⟨[], .nil⟩
  | cons b l ih =>
    obtain ⟨c, hc⟩ := h b List.mem_cons_self
    obtain ⟨l', hl'⟩ := ih fun d hd => h d (List.mem_cons_of_mem _ hd)
    exact ⟨c :: l', .cons hc hl'⟩

/-- Lists in step with the same list are in step. -/
theorem forall₂_comp {β γ δ : Type} {R : β → γ → Prop} {S : γ → δ → Prop} {l : List β} {l' : List γ}
    {l'' : List δ} (h : List.Forall₂ R l l') (h' : List.Forall₂ S l' l'') :
    List.Forall₂ (fun x z => ∃ y, R x y ∧ S y z) l l'' := by
  induction h generalizing l'' with
  | nil =>
    cases h'
    exact .nil
  | cons hxy _ ih =>
    cases h' with
    | cons hyz h' => exact .cons ⟨_, hxy, hyz⟩ (ih h')

/-- Lists that are in step in two ways. -/
theorem forall₂_and {β γ : Type} {R S : β → γ → Prop} {l : List β} {l' : List γ}
    (h : List.Forall₂ R l l') (h' : List.Forall₂ S l l') :
    List.Forall₂ (fun b c => R b c ∧ S b c) l l' := by
  induction h with
  | nil => exact .nil
  | cons hbc _ ih =>
    cases h' with
    | cons hbc' h' => exact .cons ⟨hbc, hbc'⟩ (ih h')

/-- Elements that are in step are elements of the lists. -/
theorem forall₂_mem {β γ : Type} {R : β → γ → Prop} {l : List β} {l' : List γ}
    (h : List.Forall₂ R l l') : List.Forall₂ (fun b c => b ∈ l ∧ c ∈ l' ∧ R b c) l l' := by
  induction h with
  | nil => exact .nil
  | cons hbc _ ih =>
    refine .cons ⟨List.mem_cons_self, List.mem_cons_self, hbc⟩ (ih.imp ?_)
    rintro b c ⟨hb, hc, hbc⟩
    exact ⟨List.mem_cons_of_mem _ hb, List.mem_cons_of_mem _ hc, hbc⟩

/-! ## Order -/

/-- Of two elements of a list one is before the other. -/
theorem rel_or_rel_of_pairwise {β : Type} {R : β → β → Prop} {l : List β} (h : l.Pairwise R) {x y : β}
    (hx : x ∈ l) (hy : y ∈ l) : x = y ∨ R x y ∨ R y x := by
  induction h with
  | nil => cases hx
  | cons hfirst _ ih =>
    rcases List.mem_cons.mp hx with rfl | hx'
    · rcases List.mem_cons.mp hy with rfl | hy'
      · exact .inl rfl
      · exact .inr (.inl (hfirst _ hy'))
    · rcases List.mem_cons.mp hy with rfl | hy'
      · exact .inr (.inr (hfirst _ hx'))
      · exact ih hx' hy'

/-- Elements that a fold passes over may be left out. -/
theorem foldl_filter_of_neutral {β γ : Type} {f : γ → β → γ} {keep : β → Bool} {l : List β}
    (h : ∀ x ∈ l, keep x = false → ∀ acc, f acc x = acc) (acc : γ) :
    (l.filter keep).foldl f acc = l.foldl f acc := by
  induction l generalizing acc with
  | nil => rfl
  | cons x l ih =>
    have ih := ih (fun y hy => h y (List.mem_cons_of_mem _ hy))
    rw [List.filter_cons, List.foldl_cons]
    cases hx : keep x with
    | true => exact ih _
    | false =>
      rw [h x List.mem_cons_self hx]
      exact ih acc

end TensorGraph
