import Mathlib.Data.List.Basic
import Seqscribe.Sorting

/-! Reading a sorted list page by page, each page after the last position of the one before. -/

namespace Paging
set_option autoImplicit true

variable (pos : ρ → Nat)

/-- What stands after a position. -/
def rest (xs : List ρ) (after : Nat) : List ρ := xs.filter fun r => decide (after < pos r)

/-- Pages are read until one is not full, at most `n` of them. -/
def readPages (page : Nat → List ρ) (size : Nat) : Nat → Nat → List ρ
  | 0, _ => []
  | n + 1, after =>
    let p := page after
    if p.length < size then p
    else
      match p.getLast? with
      | none => p
      | some last => p ++ readPages page size n (pos last)

variable {pos : ρ → Nat} {xs : List ρ}

/-- What follows the first `n` elements is what stands after the last one of them. -/
theorem rest_eq_drop (hxs : xs.Pairwise fun r r' => pos r < pos r') {last : ρ}
    (hlast : (xs.take n).getLast? = some last) : rest pos xs (pos last) = xs.drop n := by
  have hsplit := List.take_append_drop n xs
  rw [← hsplit, List.pairwise_append] at hxs
  obtain ⟨hfirst, -, hacross⟩ := hxs
  have hmem := List.mem_of_getLast? hlast
  rw [rest, ← hsplit, List.filter_append]
  have hnone : (xs.take n).filter (fun r => decide (pos last < pos r)) = [] := by
    rw [List.filter_eq_nil_iff]
    intro r hr
    obtain ⟨init, hinit⟩ := List.getLast?_eq_some_iff.1 hlast
    rw [hinit, List.pairwise_append] at hfirst
    rw [hinit] at hr
    rcases List.mem_append.1 hr with hr | hr
    · have := hfirst.2.2 r hr last (List.mem_singleton.2 rfl)
      simp only [decide_eq_true_eq]
      omega
    · obtain rfl := List.mem_singleton.1 hr
      simp only [decide_eq_true_eq]
      omega
  have hall : (xs.drop n).filter (fun r => decide (pos last < pos r)) = xs.drop n := by
    rw [List.filter_eq_self]
    exact fun r hr => decide_eq_true (hacross last hmem r hr)
  rw [hnone, hall, hsplit]
  rfl

/-- Up to one of the first `n` elements all stand among the first `n`. -/
theorem mem_take_of_le (hxs : xs.Pairwise fun r r' => pos r < pos r') (hm : m ∈ xs.take n)
    (hr : r ∈ xs) (hle : pos r ≤ pos m) : r ∈ xs.take n := by
  have hsplit := List.take_append_drop n xs
  rw [← hsplit, List.pairwise_append] at hxs
  rw [← hsplit] at hr
  rcases List.mem_append.1 hr with hfirst | hafter
  · exact hfirst
  · have := hxs.2.2 m hm r hafter
    omega

theorem rest_rest (hle : after ≤ after') : rest pos (rest pos xs after) after' = rest pos xs after' := by
  rw [rest, rest, rest, List.filter_filter]
  apply List.filter_congr
  intro r _
  by_cases hr : after' < pos r
  · rw [decide_eq_true hr, decide_eq_true (Nat.lt_of_le_of_lt hle hr)]
    rfl
  · rw [decide_eq_false hr]
    rfl

/-- The pages together are what stands after the start. -/
theorem readPages_eq (hxs : xs.Pairwise fun r r' => pos r < pos r') (hsize : 0 < size)
    {page : Nat → List ρ} (hpage : ∀ after, page after = (rest pos xs after).take size)
    (n after : Nat) (hn : (rest pos xs after).length < n) :
    readPages pos page size n after = rest pos xs after := by
  induction n generalizing after with
  | zero => omega
  | succ n ih =>
    rw [readPages, hpage]
    split
    · next hshort =>
      rw [List.length_take] at hshort
      exact List.take_of_length_le (by omega)
    · next hfull =>
      rw [List.length_take] at hfull
      have hsorted : (rest pos xs after).Pairwise fun r r' => pos r < pos r' := hxs.filter _
      cases hlast : ((rest pos xs after).take size).getLast? with
      | none =>
        have hnil := congrArg List.length (List.getLast?_eq_none_iff.1 hlast)
        rw [List.length_take, List.length_nil] at hnil
        omega
      | some last =>
        have hafter : after ≤ pos last := by
          have hmem := List.mem_of_mem_take (List.mem_of_getLast? hlast)
          exact Nat.le_of_lt (of_decide_eq_true (List.mem_filter.1 hmem).2)
        have hdrop : rest pos xs (pos last) = (rest pos xs after).drop size := by
          rw [← rest_rest hafter, rest_eq_drop hsorted hlast]
        dsimp only
        rw [ih (pos last), hdrop, List.take_append_drop]
        rw [hdrop, List.length_drop]
        omega

/-- The pages read from a start, each at the cursor that the page before it gave, up to a page
that gives none. -/
inductive Pages (page : σ → Option (List ρ × Option σ)) : σ → List (List ρ) → Prop where
  | last (h : page s = some (p, none)) : Pages page s [p]
  | more (h : page s = some (p, some cursor)) (hps : Pages page cursor ps) : Pages page s (p :: ps)

/-- There is only one way to follow the cursors. -/
theorem Pages.unique {page : σ → Option (List ρ × Option σ)} (h : Pages page s ps)
    (h' : Pages page s ps') : ps = ps' := by
  induction h generalizing ps' with
  | last h =>
    cases h' with
    | last h' =>
      rw [h] at h'
      cases h'
      rfl
    | more h' _ =>
      rw [h] at h'
      cases h'
  | more h _ ih =>
    cases h' with
    | last h' =>
      rw [h] at h'
      cases h'
    | more h' hps' =>
      rw [h] at h'
      cases h'
      rw [ih hps']

/-- Where each page is the first part of what is left at its start, and the rest of it is left at
its cursor, the pages end, and together are what was left. -/
theorem exists_pages {page : σ → Option (List ρ × Option σ)} (left : σ → List ρ)
    (size : σ → Nat) (I : σ → Prop) (hpage : ∀ s, I s → page s = some (left s, none) ∨
      ∃ p cursor, page s = some (p, some cursor) ∧ I cursor ∧ left s = p ++ left cursor ∧
        size cursor < size s) (hs : I s) : ∃ ps, Pages page s ps ∧ ps.flatten = left s := by
  induction hn : size s using Nat.strongRecOn generalizing s with
  | ind n ih =>
    subst hn
    rcases hpage s hs with hlast | ⟨p, cursor, hmore, hI, hleft, hsize⟩
    · exact ⟨_, .last hlast, by simp⟩
    · obtain ⟨ps, hps, hflat⟩ := ih _ hsize hI rfl
      refine ⟨p :: ps, .more hmore hps, ?_⟩
      rw [List.flatten_cons, hflat, hleft]

/-- Full pages, with a cursor while more than a page is left. -/
theorem exists_full_pages {page : σ → Option (List ρ × Option σ)} (left : σ → List ρ)
    (I : σ → Prop) (hlimit : 0 < limit)
    (hlast : ∀ s, I s → (left s).length ≤ limit → page s = some (left s, none))
    (hmore : ∀ s, I s → limit < (left s).length →
      ∃ cursor, page s = some ((left s).take limit, some cursor) ∧ I cursor ∧
        left cursor = (left s).drop limit)
    (hs : I s) : ∃ ps, Pages page s ps ∧ ps.flatten = left s := by
  apply exists_pages left (fun s => (left s).length) I _ hs
  intro s hI
  by_cases hle : (left s).length ≤ limit
  · exact .inl (hlast s hI hle)
  · obtain ⟨cursor, hpage, hcursor, hleft⟩ := hmore s hI (Nat.not_le.1 hle)
    refine .inr ⟨_, cursor, hpage, hcursor, ?_, ?_⟩
    · rw [hleft, List.take_append_drop]
    · rw [hleft, List.length_drop]
      omega

/-- A condition that holds up to some point of a list commutes with taking its first elements. -/
theorem filter_take {q : ρ → Bool} (hq : xs.Pairwise fun a b => q b = true → q a = true)
    (n : Nat) : (xs.take n).filter q = (xs.filter q).take n := by
  induction xs generalizing n with
  | nil => simp
  | cons x xs ih =>
    obtain ⟨hx, hxs⟩ := List.pairwise_cons.1 hq
    cases n with
    | zero => rfl
    | succ n =>
      rw [List.take_succ_cons, List.filter_cons, List.filter_cons]
      by_cases hqx : q x = true
      · rw [if_pos hqx, if_pos hqx, List.take_succ_cons, ih hxs]
      · have hnone : xs.filter q = [] := by
          rw [List.filter_eq_nil_iff]
          exact fun b hb hqb => hqx (hx b hb hqb)
        rw [if_neg hqx, if_neg hqx, ih hxs, hnone, List.take_nil, List.take_nil]

end Paging
