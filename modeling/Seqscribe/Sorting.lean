import Mathlib.Data.List.Pairwise
import Mathlib.Data.List.Sort

set_option autoImplicit true

/-! Lists in the order of distinct keys. -/

namespace Sorting

variable [LinearOrder α] [LinearOrder β] {f : ρ → α} {g : ρ → β} {xs ys : List ρ}

theorem perm_insertionSort (f : ρ → α) (xs : List ρ) :
    (xs.insertionSort fun r r' => f r ≤ f r').Perm xs := List.perm_insertionSort ..

/-- A list that is sorted by distinct keys is known by its elements. -/
theorem eq_of_sorted (hxs : xs.Pairwise fun r r' => f r < f r')
    (hys : ys.Pairwise fun r r' => f r < f r') (hmem : ∀ r, r ∈ xs ↔ r ∈ ys) : xs = ys := by
  have hnodup {zs : List ρ} (hzs : zs.Pairwise fun r r' => f r < f r') : zs.Nodup := by
    apply hzs.imp
    rintro r r' hlt rfl
    exact lt_irrefl _ hlt
  have hperm : xs.Perm ys := (List.perm_ext_iff_of_nodup (hnodup hxs) (hnodup hys)).2 hmem
  apply hperm.eq_of_pairwise _ hxs hys
  intro r r' _ _ hlt hgt
  exact absurd hlt (lt_asymm hgt)

theorem pairwise_insertionSort (h : (xs.map f).Nodup) :
    (xs.insertionSort fun r r' => f r ≤ f r').Pairwise fun r r' => f r < f r' := by
  have htotal : Std.Total fun r r' : ρ => f r ≤ f r' := ⟨fun _ _ => le_total _ _⟩
  have htrans : IsTrans ρ fun r r' => f r ≤ f r' := ⟨fun _ _ _ => le_trans⟩
  have hle := List.pairwise_insertionSort (fun r r' => f r ≤ f r') xs
  have hne : (xs.insertionSort fun r r' => f r ≤ f r').Pairwise fun r r' => f r ≠ f r' :=
    List.pairwise_map.1 (((perm_insertionSort f xs).map f).nodup_iff.2 h)
  exact (hle.and hne).imp fun h => lt_of_le_of_ne h.1 h.2

/-- Two sorts of the same elements agree just when one order carries over to the other. -/
theorem insertionSort_eq_iff (hf : (xs.map f).Nodup) (hg : (ys.map g).Nodup)
    (hmem : ∀ r, r ∈ xs ↔ r ∈ ys) :
    xs.insertionSort (fun r r' => f r ≤ f r') = ys.insertionSort (fun r r' => g r ≤ g r') ↔
      ∀ r ∈ xs, ∀ r' ∈ xs, f r < f r' → g r < g r' := by
  have hfs := pairwise_insertionSort hf
  have hgs := pairwise_insertionSort hg
  have hin (r : ρ) : r ∈ xs.insertionSort (fun r r' => f r ≤ f r') ↔ r ∈ xs :=
    (perm_insertionSort f xs).mem_iff
  apply Iff.intro
  · intro heq
    rw [← heq] at hgs
    let S (r r' : ρ) : Prop := (f r < f r' → g r < g r') ∧ (f r' < f r → g r' < g r)
    have hS : (xs.insertionSort fun r r' => f r ≤ f r').Pairwise S :=
      (hfs.and hgs).imp fun h => ⟨fun _ => h.2, fun hlt => absurd hlt (lt_asymm h.1)⟩
    intro r hr r' hr'
    have hrefl : ∀ r ∈ xs.insertionSort (fun r r' => f r ≤ f r'), S r r :=
      fun r _ => ⟨fun hlt => absurd hlt (lt_irrefl _), fun hlt => absurd hlt (lt_irrefl _)⟩
    have hsymm : Std.Symm S := ⟨fun _ _ h => ⟨h.2, h.1⟩⟩
    have hall := hS.forall_of_forall hrefl
    exact (hall ((hin r).2 hr) ((hin r').2 hr')).1
  · intro hcarry
    have hfg : (xs.insertionSort fun r r' => f r ≤ f r').Pairwise fun r r' => g r < g r' :=
      hfs.imp_of_mem fun hr hr' => hcarry _ ((hin _).1 hr) _ ((hin _).1 hr')
    apply eq_of_sorted hfg hgs
    intro r
    rw [hin, hmem, (perm_insertionSort g ys).mem_iff]

end Sorting
