import Mathlib.Logic.Relation

/-! Chains of a relation that end, and chains that do not. -/

namespace Descent
set_option autoImplicit true

variable {R : α → α → Prop} {I : α → Prop}

/-- Every chain from here is finite. -/
def Ends (R : α → α → Prop) (a : α) : Prop := Acc (fun a' a => R a a') a

theorem Ends.of_no_step (h : ∀ a', ¬ R a a') : Ends R a :=
  Acc.intro a fun a' hstep => absurd hstep (h a')

/-- A number that every step lowers ends the chains. -/
theorem Ends.of_measure {μ : α → Nat} (hstep : ∀ a a', I a → R a a' → I a' ∧ μ a' < μ a)
    (h : I a) : Ends R a := by
  induction hn : μ a using Nat.strongRecOn generalizing a with
  | ind n ih =>
    apply Acc.intro
    intro a' ha
    obtain ⟨ha', hlt⟩ := hstep a a' h ha
    exact ih (μ a') (hn ▸ hlt) ha' rfl

/-- What can always be followed by its like never ends. -/
theorem not_ends_of_step (hstep : ∀ a, I a → ∃ a', R a a' ∧ I a') (h : I a) : ¬ Ends R a := by
  intro hends
  induction hends with
  | intro a _ ih =>
    obtain ⟨a', ha, ha'⟩ := hstep a h
    exact ih a' ha ha'

theorem invariant (hstep : ∀ a a', I a → R a a' → I a') (h : I a)
    (hchain : Relation.ReflTransGen R a a') : I a' := by
  induction hchain with
  | refl => exact h
  | tail _ ha ih => exact hstep _ _ ih ha

end Descent
