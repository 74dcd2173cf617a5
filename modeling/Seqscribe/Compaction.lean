import Mathlib.Data.Set.Basic
import Mathlib.Order.Interval.Set.Defs

/-! Keyed rows at positions, and what the deletion of rows does to the newest row of a key. -/

namespace Compaction
set_option autoImplicit true

variable (pos : ρ → Nat) (key : ρ → Option κ)

/-- The newest row of a key among those whose positions are looked at. -/
def Newest (S : Set ρ) (U : Set Nat) (k : κ) (r : ρ) : Prop :=
  r ∈ S ∧ key r = some k ∧ pos r ∈ U ∧ ∀ r' ∈ S, key r' = some k → pos r' ∈ U → pos r' ≤ pos r

/-- A newer row of the key stands at or below the bound. -/
def Superseded (S : Set ρ) (upto : Nat) (r : ρ) : Prop :=
  ∃ r' ∈ S, (key r').isSome ∧ key r' = key r ∧ pos r < pos r' ∧ pos r' ≤ upto

/-- No other row of the key stands at or below the bound. -/
def Lone (S : Set ρ) (upto : Nat) (r : ρ) : Prop :=
  ∀ r' ∈ S, (key r').isSome → key r' = key r → pos r' ≤ upto → pos r' = pos r

variable {pos : ρ → Nat} {key : ρ → Option κ} {S S' : Set ρ} {U : Set Nat} {upto floor : Nat}
  {dead : ρ → Prop}

theorem Newest.within (h : Newest pos key S U k r) (hsub : S' ⊆ S) (hr : r ∈ S') :
    Newest pos key S' U k r :=
  ⟨hr, h.2.1, h.2.2.1, fun r' hr' => h.2.2.2 r' (hsub hr')⟩

theorem Newest.not_superseded (h : Newest pos key S U k r) (hU : Set.Iic upto ⊆ U) :
    ¬ Superseded pos key S upto r := by
  rintro ⟨r', hr', -, hkey, hlt, hle⟩
  exact absurd (h.2.2.2 r' hr' (hkey.trans h.2.1) (hU hle)) (Nat.not_le.2 hlt)

theorem Superseded.mono (h : Superseded pos key S' upto r) (hsub : S' ⊆ S) :
    Superseded pos key S upto r := by
  obtain ⟨r', hr', hrest⟩ := h
  exact ⟨r', hsub hr', hrest⟩

/-- A key that has rows has a newest one. -/
theorem exists_newest (hr : r ∈ S) (hkey : key r = some k) (hU : pos r ∈ U)
    (hbound : ∀ r' ∈ S, pos r' ≤ n) : ∃ m, Newest pos key S U k m := by
  induction hgap : n - pos r using Nat.strong_induction_on generalizing r with
  | h gap ih =>
    by_cases hmax : ∀ r' ∈ S, key r' = some k → pos r' ∈ U → pos r' ≤ pos r
    · exact ⟨r, hr, hkey, hU, hmax⟩
    · simp only [not_forall, Nat.not_le] at hmax
      obtain ⟨r', hr', hkey', hU', hlt⟩ := hmax
      have := hbound r' hr'
      exact ih (n - pos r') (by omega) hr' hkey' hU' rfl

/-- Deleting superseded rows leaves the newest row of every key. -/
theorem newest_drop_superseded (hsub : S' ⊆ S)
    (hgone : ∀ r ∈ S, r ∉ S' → Superseded pos key S upto r) (hU : Set.Iic upto ⊆ U) :
    Newest pos key S' U k r ↔ Newest pos key S U k r := by
  constructor
  · intro h
    refine ⟨hsub h.1, h.2.1, h.2.2.1, fun r' hr' hkey hr'U => ?_⟩
    -- a deleted row lies below a newer one, up to one that is left
    induction hgap : upto - pos r' using Nat.strong_induction_on generalizing r' with
    | h gap ih =>
      by_cases hleft : r' ∈ S'
      · exact h.2.2.2 r' hleft hkey hr'U
      · obtain ⟨r'', hr'', -, hkey'', hlt, hle⟩ := hgone r' hr' hleft
        exact (Nat.le_of_lt hlt).trans
          (ih (upto - pos r'') (by omega) r'' hr'' (hkey''.trans hkey) (hU hle) rfl)
  · intro h
    refine h.within hsub ?_
    by_contra hr
    exact h.not_superseded hU (hgone r h.1 hr)

/-- Deleting lone rows leaves the newest row of every key that is not one of them. -/
theorem newest_drop_lone (hsub : S' ⊆ S)
    (hgone : ∀ r ∈ S, r ∉ S' → dead r ∧ pos r ≤ upto ∧ Lone pos key S upto r) (hlive : ¬ dead r) :
    Newest pos key S' U k r ↔ Newest pos key S U k r := by
  constructor
  · intro h
    refine ⟨hsub h.1, h.2.1, h.2.2.1, fun r' hr' hkey hr'U => ?_⟩
    by_cases hleft : r' ∈ S'
    · exact h.2.2.2 r' hleft hkey hr'U
    · obtain ⟨-, hle', hlone⟩ := hgone r' hr' hleft
      rcases Nat.lt_or_ge upto (pos r) with hafter | hle
      · exact hle'.trans (Nat.le_of_lt hafter)
      · refine Nat.le_of_eq (hlone r (hsub h.1) ?_ (h.2.1.trans hkey.symm) hle).symm
        rw [h.2.1]
        rfl
  · intro h
    refine h.within hsub ?_
    by_contra hr
    exact hlive (hgone r h.1 hr).1

/-- After both deletions neither finds anything more. -/
theorem nothing_more {S₁ S₂ : Set ρ}
    (hfirst : ∀ r, r ∈ S₁ ↔ r ∈ S ∧
      ¬ (pos r ≤ floor ∧ (key r).isSome ∧ Superseded pos key S upto r))
    (hsecond : ∀ r, r ∈ S₂ ↔ r ∈ S₁ ∧
      ¬ (pos r ≤ floor ∧ (key r).isSome ∧ dead r ∧ Lone pos key S₁ upto r))
    (hfloor : floor ≤ upto) (hr : r ∈ S₂) (hlow : pos r ≤ floor) (hkey : (key r).isSome) :
    ¬ Superseded pos key S₂ upto r ∧ (dead r → ¬ Lone pos key S₂ upto r) := by
  have hsub : S₂ ⊆ S₁ := fun r hr => ((hsecond r).1 hr).1
  have hsub₁ : S₁ ⊆ S := fun r hr => ((hfirst r).1 hr).1
  refine ⟨fun h => ?_, fun hdead hlone => ?_⟩
  · exact ((hfirst r).1 (hsub hr)).2 ⟨hlow, hkey, h.mono (hsub.trans hsub₁)⟩
  · apply ((hsecond r).1 hr).2
    refine ⟨hlow, hkey, hdead, fun r' hr' hkey' heq hle => ?_⟩
    by_cases hleft : r' ∈ S₂
    · exact hlone r' hleft hkey' heq hle
    · -- the other row was lone itself, so it is this one
      have hgone : pos r' ≤ floor ∧ (key r').isSome ∧ dead r' ∧ Lone pos key S₁ upto r' := by
        by_contra hnot
        exact hleft ((hsecond r').2 ⟨hr', hnot⟩)
      exact (hgone.2.2.2 r (hsub hr) hkey heq.symm (hlow.trans hfloor)).symm

/-! Deleting the oldest rows of others. -/

/-- A key comes back to life: its newest row goes, and the newest row that is left is live. -/
structure Revives (pos : ρ → Nat) (key : ρ → Option κ) (mine taken tomb : ρ → Prop) (S : Set ρ)
    (upto : Nat) (k : κ) (m r : ρ) : Prop where
  newest : Newest pos key S (Set.Iic upto) k m
  dead : tomb m
  gone : taken m
  next : Newest pos key {r | r ∈ S ∧ mine r} (Set.Iic upto) k r
  live : ¬ tomb r

/-- With every live key in the hands of the one that stays, the live rows stay as they are exactly
when no key comes back to life. -/
theorem newest_drop_others {mine gone dead : ρ → Prop} (hpos : Set.InjOn pos S)
    (hbound : ∀ r ∈ S, pos r ≤ n) (hleft : ∀ r, r ∈ S' ↔ r ∈ S ∧ ¬ gone r)
    (hgone : ∀ r ∈ S, gone r → ¬ mine r ∧ pos r ≤ upto)
    (holdest : ∀ r ∈ S, ∀ r' ∈ S, gone r → ¬ mine r' → pos r' ≤ pos r → gone r')
    (hmine : ∀ k r, Newest pos key S (Set.Iic upto) k r → ¬ dead r → mine r) :
    (∀ U, Set.Iic upto ⊆ U → ∀ k r, ¬ dead r →
        (Newest pos key S' U k r ↔ Newest pos key S U k r)) ↔
      ¬ ∃ k m r, Revives pos key mine gone dead S upto k m r := by
  have hsub : S' ⊆ S := fun r hr => ((hleft r).1 hr).1
  constructor
  · rintro hsame ⟨k, m, r, h⟩
    have hr : Newest pos key S' (Set.Iic upto) k r := by
      refine ⟨(hleft r).2 ⟨h.next.1.1, fun hr => (hgone r h.next.1.1 hr).1 h.next.1.2⟩,
        h.next.2.1, h.next.2.2.1, fun r' hr' hkey hr'U => ?_⟩
      obtain ⟨hr'S, hr'gone⟩ := (hleft r').1 hr'
      apply h.next.2.2.2 r' ⟨hr'S, ?_⟩ hkey hr'U
      by_contra hother
      exact hr'gone (holdest m h.newest.1 r' hr'S h.gone hother
        (h.newest.2.2.2 r' hr'S hkey hr'U))
    have hrS := (hsame _ (Set.Subset.refl _) k r h.live).1 hr
    have heq : r = m := hpos hrS.1 h.newest.1 (Nat.le_antisymm
      (h.newest.2.2.2 r hrS.1 hrS.2.1 hrS.2.2.1) (hrS.2.2.2 m h.newest.1 h.newest.2.1 h.newest.2.2.1))
    exact h.live (heq ▸ h.dead)
  · intro hno U hU k r hlive
    constructor
    · intro h
      obtain ⟨m, hm⟩ := exists_newest (hsub h.1) h.2.1 h.2.2.1 hbound
      by_cases hmleft : m ∈ S'
      · have heq : r = m := hpos (hsub h.1) hm.1 (Nat.le_antisymm
          (hm.2.2.2 r (hsub h.1) h.2.1 h.2.2.1) (h.2.2.2 m hmleft hm.2.1 hm.2.2.1))
        rw [heq]
        exact hm
      · exfalso
        have hmgone : gone m := by
          by_contra hnot
          exact hmleft ((hleft m).2 ⟨hm.1, hnot⟩)
        obtain ⟨hmother, hmle⟩ := hgone m hm.1 hmgone
        have hmIic : Newest pos key S (Set.Iic upto) k m :=
          ⟨hm.1, hm.2.1, hmle, fun r' hr' hkey hle => hm.2.2.2 r' hr' hkey (hU hle)⟩
        have hmdead : dead m := by
          by_contra hmlive
          exact hmother (hmine k m hmIic hmlive)
        have hrm := hm.2.2.2 r (hsub h.1) h.2.1 h.2.2.1
        have hrmine : mine r := by
          by_contra hother
          exact ((hleft r).1 h.1).2 (holdest m hm.1 r (hsub h.1) hmgone hother hrm)
        refine hno ⟨k, m, r, hmIic, hmdead, hmgone, ?_, hlive⟩
        refine ⟨⟨hsub h.1, hrmine⟩, h.2.1, hrm.trans hmle, fun r' hr' hkey hle => ?_⟩
        exact h.2.2.2 r' ((hleft r').2 ⟨hr'.1, fun hg => (hgone r' hr'.1 hg).1 hr'.2⟩) hkey (hU hle)
    · intro h
      refine h.within hsub ((hleft r).2 ⟨h.1, fun hr => ?_⟩)
      obtain ⟨hother, hle⟩ := hgone r h.1 hr
      exact hother (hmine k r ⟨h.1, h.2.1, hle,
        fun r' hr' hkey hle' => h.2.2.2 r' hr' hkey (hU hle')⟩ hlive)

end Compaction
