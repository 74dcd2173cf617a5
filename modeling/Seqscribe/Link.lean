import Mathlib.Logic.Relation

/-! Two parties over a channel that loses, duplicates and reorders: whatever a party has ever sent
may arrive at the other one at any time, any number of times or never. -/

namespace Link
set_option autoImplicit true

structure Party (σ φ : Type) where
  /-- A step of its own. -/
  acts : σ → σ → Prop
  /-- A frame arrives. -/
  receives : φ → σ → σ → Prop
  /-- Every frame that it has sent so far. -/
  sent : σ → List φ

variable {P : Party σ φ}

inductive Step (P : Party σ φ) : σ × σ → σ × σ → Prop
  | left (h : P.acts a a') : Step P (a, b) (a', b)
  | right (h : P.acts b b') : Step P (a, b) (a, b')
  | toLeft (hsent : f ∈ P.sent b) (h : P.receives f a a') : Step P (a, b) (a', b)
  | toRight (hsent : f ∈ P.sent a) (h : P.receives f b b') : Step P (a, b) (a, b')

/-- The second state is the end of a run from the first. -/
abbrev Run (P : Party σ φ) : σ × σ → σ × σ → Prop := Relation.ReflTransGen (Step P)

/-- What a one-way traffic from `a` to `b` keeps: `b` gets what `a` has sent, and `a` gets what `b`
has answered. -/
structure Keeps (P : Party σ φ) (I : σ → σ → Prop) : Prop where
  sender : I a b → P.acts a a' → I a' b
  receiver : I a b → P.acts b b' → I a b'
  delivered : I a b → f ∈ P.sent a → P.receives f b b' → I a b'
  answered : I a b → f ∈ P.sent b → P.receives f a a' → I a' b

theorem Keeps.step {I : σ → σ → Prop} (h : Keeps P I) (hstep : Step P s s')
    (hI : I s.1 s.2 ∧ I s.2 s.1) : I s'.1 s'.2 ∧ I s'.2 s'.1 := by
  cases hstep with
  | left hacts => exact ⟨h.sender hI.1 hacts, h.receiver hI.2 hacts⟩
  | right hacts => exact ⟨h.receiver hI.1 hacts, h.sender hI.2 hacts⟩
  | toLeft hsent hreceives =>
    exact ⟨h.answered hI.1 hsent hreceives, h.delivered hI.2 hsent hreceives⟩
  | toRight hsent hreceives =>
    exact ⟨h.delivered hI.1 hsent hreceives, h.answered hI.2 hsent hreceives⟩

/-- What holds of the traffic in both directions at the start holds of it in every run. -/
theorem Keeps.run {I : σ → σ → Prop} (h : Keeps P I) (hrun : Run P s s')
    (hI : I s.1 s.2 ∧ I s.2 s.1) : I s'.1 s'.2 ∧ I s'.2 s'.1 := by
  induction hrun with
  | refl => exact hI
  | tail _ hstep ih => exact h.step hstep ih

end Link
