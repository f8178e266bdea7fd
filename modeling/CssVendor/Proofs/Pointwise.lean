import Mathlib.Data.List.Forall2

/-!
# Lists related element by element

How relations between the elements of lists are put together, and what of one
list carries over to the other.
-/

namespace CssVendor

variable {α β γ : Type} {R : α → β → Prop} {S : α → γ → Prop}
  {T : β → γ → Prop} {l : List α} {l' : List β} {l'' : List γ}

theorem forall₂_join (hRST : ∀ a ∈ l, ∀ b c, R a b → S a c → T b c)
    (hR : List.Forall₂ R l l') (hS : List.Forall₂ S l l'') :
    List.Forall₂ T l' l'' := by
  induction hR generalizing l'' with
  | nil => cases hS; exact .nil
  | cons hab _ ih =>
      cases hS with
      | cons hac hS =>
          refine .cons (hRST _ (by simp) _ _ hab hac) (ih ?_ hS)
          exact fun a ha => hRST a (by simp [ha])

theorem forall₂_trans (hRTS : ∀ b ∈ l', ∀ a c, R a b → T b c → S a c)
    (hR : List.Forall₂ R l l') (hT : List.Forall₂ T l' l'') :
    List.Forall₂ S l l'' :=
  forall₂_join (fun b hb a c => hRTS b hb a c) hR.flip hT

theorem forall₂_imp {S : α → β → Prop} (hRS : ∀ a ∈ l, ∀ b, R a b → S a b)
    (h : List.Forall₂ R l l') : List.Forall₂ S l l' := by
  induction h with
  | nil => exact .nil
  | cons hab _ ih =>
      exact .cons (hRS _ (by simp) _ hab) (ih fun a ha => hRS a (by simp [ha]))

theorem forall₂_mem_right {p : α → Prop} {q : β → Prop}
    (hRq : ∀ a b, p a → R a b → q b) (h : List.Forall₂ R l l')
    (hp : ∀ a ∈ l, p a) : ∀ b ∈ l', q b := by
  induction h with
  | nil => intro b hb; cases hb
  | cons hab _ ih =>
      intro b hb
      rcases List.mem_cons.1 hb with rfl | hb
      · exact hRq _ _ (hp _ (by simp)) hab
      · exact ih (fun a ha => hp a (by simp [ha])) b hb

theorem exists_mem_of_forall₂ (h : List.Forall₂ R l l') :
    ∀ a ∈ l, ∃ b ∈ l', R a b := by
  induction h with
  | nil => exact List.forall_mem_nil _
  | cons hab _ ih =>
      refine List.forall_mem_cons.2 ⟨⟨_, by simp, hab⟩, fun a ha => ?_⟩
      obtain ⟨b, hb, hR⟩ := ih a ha
      exact ⟨b, by simp [hb], hR⟩

theorem forall₂_concat {a : α} (h : List.Forall₂ R (l ++ [a]) l') :
    ∃ m b, l' = m ++ [b] ∧ R a b := by
  induction l generalizing l' with
  | nil =>
      cases h with
      | cons hab hnil =>
          cases hnil
          exact ⟨[], _, rfl, hab⟩
  | cons c l ih =>
      cases h with
      | cons _ hl =>
          obtain ⟨m, b, rfl, hab⟩ := ih hl
          exact ⟨_ :: m, b, rfl, hab⟩

end CssVendor
