import Mathlib.Data.List.Infix
import Mathlib.Data.List.Basic

/-! Cutting a list from the left into pieces that are as long as they may be takes the least number
of pieces. -/

namespace Greedy
set_option autoImplicit true

variable {α : Type} {Fits : List α → Prop}

/-- The pieces are nonempty, fit, and would not fit with one more element. -/
inductive Cut (Fits : List α → Prop) : List α → List (List α) → Prop
  | nil : Cut Fits [] []
  | cons (hne : x ≠ []) (hfits : Fits x)
      (hmax : ∀ e rest, ys = e :: rest → ¬ Fits (x ++ [e])) (h : Cut Fits ys zs) :
      Cut Fits (x ++ ys) (x :: zs)

theorem Cut.flatten (h : Cut Fits xs zs) : zs.flatten = xs := by
  induction h with
  | nil => rfl
  | cons _ _ _ _ ih => rw [List.flatten_cons, ih]

theorem Cut.fits (h : Cut Fits xs zs) : ∀ z ∈ zs, Fits z := by
  induction h with
  | nil =>
    intro z hz
    cases hz
  | cons _ hfits _ _ ih =>
    intro z hz
    rcases List.mem_cons.1 hz with rfl | hin
    · exact hfits
    · exact ih z hin

/-- A nonempty maximal piece reaches at least as far as any piece that ends later. -/
theorem suffix_of_maximal (hpart : ∀ {x y : List α}, x <:+: y → Fits y → Fits x)
    (hmax : ∀ e rest, ys = e :: rest → ¬ Fits (x ++ [e])) (hs : Fits s)
    (heq : t ++ (x ++ ys) = s ++ after) (hlong : t.length < s.length) : ys <:+ after := by
  rcases List.append_eq_append_iff.1 heq with ⟨u, rfl, hrest⟩ | ⟨u, rfl, -⟩
  · rcases List.append_eq_append_iff.1 hrest with ⟨v, rfl, hys⟩ | ⟨v, rfl, rfl⟩
    · cases v with
      | nil =>
        rw [List.nil_append] at hys
        rw [hys]
      | cons e v =>
        refine absurd (hpart ?_ hs) (hmax e (v ++ after) hys)
        exact ⟨t, v, by simp⟩
    · exact List.suffix_append _ _
  · rw [List.length_append] at hlong
    exact absurd hlong (not_lt.2 (Nat.le_add_right _ _))

theorem Cut.length_le_of_suffix (hpart : ∀ {x y : List α}, x <:+: y → Fits y → Fits x)
    (h : Cut Fits xs zs) : ∀ segs : List (List α), (∀ s ∈ segs, Fits s) → xs <:+ segs.flatten →
      zs.length ≤ segs.length := by
  induction h with
  | nil => exact fun segs _ _ => Nat.zero_le _
  | @cons x ys zs hne hfits hmax h ih =>
    intro segs
    induction segs with
    | nil =>
      intro _ hsuffix
      rw [List.flatten_nil, List.suffix_nil, List.append_eq_nil_iff] at hsuffix
      exact absurd hsuffix.1 hne
    | cons s segs ih' =>
      intro hsegs hsuffix
      obtain ⟨t, ht⟩ := hsuffix
      rw [List.flatten_cons] at ht
      have hrest : ∀ s ∈ segs, Fits s := fun z hz => hsegs z (List.mem_cons_of_mem _ hz)
      rcases Nat.lt_or_ge t.length s.length with hlong | hshort
      · apply Nat.succ_le_succ
        apply ih segs hrest
        exact suffix_of_maximal hpart hmax (hsegs s List.mem_cons_self) ht hlong
      · -- the first of the other pieces ends before this one begins
        apply Nat.le_succ_of_le
        apply ih' hrest
        rcases List.append_eq_append_iff.1 ht with ⟨u, hs, hu⟩ | ⟨u, -, hu⟩
        · rw [hs, List.length_append] at hshort
          have hnil : u = [] := List.length_eq_zero_iff.1 (by omega)
          rw [hnil, List.nil_append] at hu
          rw [hu]
        · rw [hu]
          exact List.suffix_append _ _

/-- No way to cut the list into pieces that fit takes fewer of them. -/
theorem Cut.length_le (hpart : ∀ {x y : List α}, x <:+: y → Fits y → Fits x)
    {segs : List (List α)} (h : Cut Fits segs.flatten zs) (hsegs : ∀ s ∈ segs, Fits s) : zs.length ≤ segs.length :=
  h.length_le_of_suffix hpart segs hsegs (List.suffix_refl _)

end Greedy
