import Mathlib.Order.Defs.LinearOrder
import Mathlib.Data.List.Lemmas

set_option autoImplicit true

/-! Records: finite maps whose members stand in the order of their names. -/

structure Record (κ ν : Type) [LT κ] where
  members : List (κ × ν)
  sorted : members.Pairwise fun m m' => m.1 < m'.1
  deriving DecidableEq

namespace Record

variable {κ ν : Type} [LinearOrder κ]

def empty : Record κ ν := ⟨[], List.Pairwise.nil⟩

/-- The value of the first member of that name. -/
def lookup (k : κ) : List (κ × ν) → Option ν
  | [] => none
  | m :: rest => if m.1 = k then some m.2 else lookup k rest

def get (r : Record κ ν) (k : κ) : Option ν := lookup k r.members

/-- Puts a member in its place, in that of the member of its name if there is one. -/
def place (m : κ × ν) : List (κ × ν) → List (κ × ν)
  | [] => [m]
  | m' :: rest =>
    if m'.1 < m.1 then m' :: place m rest
    else if m.1 = m'.1 then m :: rest
    else m :: m' :: rest

theorem mem_place {m m' : κ × ν} {ms : List (κ × ν)} (h : m' ∈ place m ms) : m' = m ∨ m' ∈ ms := by
  induction ms with
  | nil => exact .inl (List.mem_singleton.1 h)
  | cons n rest ih =>
    rw [place] at h
    split at h
    · rcases List.mem_cons.1 h with rfl | h
      · exact .inr List.mem_cons_self
      · exact (ih h).imp_right (List.mem_cons_of_mem n)
    · split at h
      · exact (List.mem_cons.1 h).imp_right (List.mem_cons_of_mem n)
      · exact List.mem_cons.1 h

theorem pairwise_place (m : κ × ν) {ms : List (κ × ν)} (h : ms.Pairwise fun m m' => m.1 < m'.1) :
    (place m ms).Pairwise fun m m' => m.1 < m'.1 := by
  induction ms with
  | nil => exact List.pairwise_singleton ..
  | cons n rest ih =>
    obtain ⟨hn, hrest⟩ := List.pairwise_cons.1 h
    rw [place]
    split
    next hlt =>
      apply List.Pairwise.cons _ (ih hrest)
      intro m' hm'
      rcases mem_place hm' with rfl | hm'
      · exact hlt
      · exact hn m' hm'
    next hle =>
      split
      next heq => exact List.Pairwise.cons (fun m' hm' => heq ▸ hn m' hm') hrest
      next hne =>
        have hlt : m.1 < n.1 := lt_of_le_of_ne (not_lt.1 hle) hne
        apply List.Pairwise.cons _ h
        intro m' hm'
        rcases List.mem_cons.1 hm' with rfl | hm'
        · exact hlt
        · exact hlt.trans (hn m' hm')

def set (r : Record κ ν) (k : κ) (v : ν) : Record κ ν :=
  ⟨place (k, v) r.members, pairwise_place _ r.sorted⟩

theorem lookup_place (m : κ × ν) (ms : List (κ × ν)) (k : κ) :
    lookup k (place m ms) = if m.1 = k then some m.2 else lookup k ms := by
  induction ms with
  | nil => rfl
  | cons n rest ih =>
    rw [place]
    split
    next hlt =>
      rw [lookup, ih, lookup]
      by_cases hn : n.1 = k
      · have hne : m.1 ≠ k := fun hm => absurd (hm.trans hn.symm) (ne_of_gt hlt)
        rw [if_pos hn, if_neg hne, if_pos hn]
      · rw [if_neg hn, if_neg hn]
    next =>
      split
      next heq =>
        rw [lookup, lookup, ← heq]
        by_cases hk : m.1 = k
        · rw [if_pos hk, if_pos hk]
        · rw [if_neg hk, if_neg hk, if_neg hk]
      next => rfl

@[simp] theorem get_set (r : Record κ ν) (k k' : κ) (v : ν) :
    (r.set k v).get k' = if k = k' then some v else r.get k' := lookup_place ..

/-- A later member takes the place of an earlier one of its name. -/
def ofList (ms : List (κ × ν)) : Record κ ν := ms.foldl (fun r m => r.set m.1 m.2) empty

theorem get_foldl_set {ms : List (κ × ν)} (hnodup : (ms.map Prod.fst).Nodup) {m : κ × ν}
    (hm : m ∈ ms) (r : Record κ ν) : (ms.foldl (fun r m => r.set m.1 m.2) r).get m.1 = some m.2 := by
  have hother : ∀ {ms : List (κ × ν)} {r : Record κ ν}, m.1 ∉ ms.map Prod.fst →
      (ms.foldl (fun r m => r.set m.1 m.2) r).get m.1 = r.get m.1 := by
    intro ms
    induction ms with
    | nil => exact fun _ => rfl
    | cons n rest ih =>
      intro r hnot
      rw [List.map_cons, List.mem_cons, not_or] at hnot
      rw [List.foldl_cons, ih hnot.2, get_set, if_neg (Ne.symm hnot.1)]
  induction ms generalizing r with
  | nil => cases hm
  | cons n rest ih =>
    rw [List.map_cons, List.nodup_cons] at hnodup
    rcases List.mem_cons.1 hm with rfl | hm
    · rw [List.foldl_cons, hother hnodup.1, get_set, if_pos rfl]
    · exact ih hnodup.2 hm _

theorem get_ofList {ms : List (κ × ν)} (hnodup : (ms.map Prod.fst).Nodup) {m : κ × ν}
    (hm : m ∈ ms) : (ofList ms).get m.1 = some m.2 := get_foldl_set hnodup hm empty

end Record
