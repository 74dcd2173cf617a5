import Mathlib.Data.List.Nodup

/-! Heads of a growing history: each event removes some of the heads and becomes one. -/

namespace Heads
set_option autoImplicit true

variable {ε ι : Type} (name : ε → ι) (drops : ε → ι → Bool)

/-- The heads after an event. -/
def push (heads : List ι) (y : ε) : List ι := heads.filter (fun x => !drops y x) ++ [name y]

/-- The events of a history that no later one removes. -/
def survivors : List ε → List ι
  | [] => []
  | x :: rest =>
    if rest.any fun y => drops y (name x) then survivors rest else name x :: survivors rest

theorem mem_survivors {xs : List ε} : i ∈ survivors name drops xs ↔
    ∃ earlier x later, xs = earlier ++ x :: later ∧ name x = i ∧ ∀ y ∈ later, drops y i = false := by
  induction xs with
  | nil =>
    constructor
    · intro h
      cases h
    · rintro ⟨earlier, x, later, heq, -⟩
      cases earlier <;> cases heq
  | cons x₀ rest ih =>
    have hrest : (∃ earlier x later, rest = earlier ++ x :: later ∧ name x = i ∧
        ∀ y ∈ later, drops y i = false) →
        ∃ earlier x later, x₀ :: rest = earlier ++ x :: later ∧ name x = i ∧
          ∀ y ∈ later, drops y i = false := by
      rintro ⟨earlier, x, later, heq, h⟩
      exact ⟨x₀ :: earlier, x, later, congrArg (x₀ :: ·) heq, h⟩
    have hcons : (∃ earlier x later, x₀ :: rest = earlier ++ x :: later ∧ name x = i ∧
        ∀ y ∈ later, drops y i = false) →
        (name x₀ = i ∧ ∀ y ∈ rest, drops y i = false) ∨ i ∈ survivors name drops rest := by
      rintro ⟨earlier, x, later, heq, hname, hkept⟩
      cases earlier with
      | nil =>
        cases heq
        exact .inl ⟨hname, hkept⟩
      | cons x' earlier =>
        obtain ⟨-, heq⟩ := List.cons.inj heq
        exact .inr (ih.2 ⟨earlier, x, later, heq, hname, hkept⟩)
    rw [survivors]
    split
    next hdropped =>
      refine ⟨fun h => hrest (ih.1 h), fun h => (hcons h).resolve_left ?_⟩
      rintro ⟨rfl, hkept⟩
      obtain ⟨y, hy, hdrops⟩ := List.any_eq_true.1 hdropped
      rw [hkept y hy] at hdrops
      cases hdrops
    next hkept =>
      constructor
      · intro h
        rcases List.mem_cons.1 h with rfl | h
        · refine ⟨[], x₀, rest, rfl, rfl, fun y hy => ?_⟩
          exact Bool.eq_false_iff.2 fun hdrops => hkept (List.any_eq_true.2 ⟨y, hy, hdrops⟩)
        · exact hrest (ih.1 h)
      · intro h
        rcases hcons h with ⟨rfl, -⟩ | h
        · exact List.mem_cons_self
        · exact List.mem_cons_of_mem _ h

/-- The heads at the end of a history. -/
theorem foldl_push (xs : List ε) (heads : List ι) : xs.foldl (push name drops) heads =
    heads.filter (fun i => !xs.any fun y => drops y i) ++ survivors name drops xs := by
  induction xs generalizing heads with
  | nil =>
    rw [List.foldl_nil, survivors, List.append_nil]
    exact (List.filter_eq_self.2 fun _ _ => rfl).symm
  | cons x rest ih =>
    rw [List.foldl_cons, ih, push, List.filter_append, List.filter_filter, List.append_assoc]
    congr 1
    · apply List.filter_congr
      intro i _
      rw [List.any_cons, Bool.not_or, Bool.and_comm]
    · rw [survivors, List.filter_singleton]
      cases rest.any fun y => drops y (name x) <;> rfl

theorem mem_foldl_push {xs : List ε} : i ∈ xs.foldl (push name drops) [] ↔
    ∃ earlier x later, xs = earlier ++ x :: later ∧ name x = i ∧
      ∀ y ∈ later, drops y i = false := by
  rw [foldl_push, List.filter_nil, List.nil_append, mem_survivors]

theorem nodup_push {heads : List ι} {y : ε} (h : heads.Nodup) (hself : drops y (name y) = true) :
    (push name drops heads y).Nodup := by
  apply (h.filter _).append (List.nodup_singleton _)
  intro i hi hname
  obtain rfl := List.mem_singleton.1 hname
  have hkept := (List.mem_filter.1 hi).2
  rw [hself] at hkept
  cases hkept

end Heads
