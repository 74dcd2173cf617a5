import Mathlib.Data.List.Induction
import Seqscribe.Table

/-! Changes of a table, as the rows that they set and the keys that they delete. -/

set_option autoImplicit true

structure Delta (κ ρ : Type) where
  upserts : List ρ
  deletes : List κ
  deriving DecidableEq

namespace Delta

variable {key : ρ → κ}

/-- All that a run of changes sets, and all that it deletes. -/
def merge (ds : List (Delta κ ρ)) : Delta κ ρ :=
  ⟨ds.flatMap upserts, ds.flatMap deletes⟩

@[simp] theorem merge_snoc_upserts (ds : List (Delta κ ρ)) (d : Delta κ ρ) :
    (merge (ds ++ [d])).upserts = (merge ds).upserts ++ d.upserts := by
  simp [merge]

@[simp] theorem merge_snoc_deletes (ds : List (Delta κ ρ)) (d : Delta κ ρ) :
    (merge (ds ++ [d])).deletes = (merge ds).deletes ++ d.deletes := by
  simp [merge]

def Sets (key : ρ → κ) (d : Delta κ ρ) (k : κ) : Prop := ∃ r ∈ d.upserts, key r = k

theorem sets_merge {ds : List (Delta κ ρ)} :
    Sets key (merge ds) k ↔ ∃ d ∈ ds, Sets key d k := by
  constructor
  · rintro ⟨r, hr, hk⟩
    obtain ⟨d, hd, hr⟩ := List.mem_flatMap.1 hr
    exact ⟨d, hd, r, hr, hk⟩
  · rintro ⟨d, hd, r, hr, hk⟩
    exact ⟨r, List.mem_flatMap.2 ⟨d, hd, hr⟩, hk⟩

/-- A later change deletes, for good, what an earlier one set. -/
def Undone (key : ρ → κ) (ds : List (Delta κ ρ)) (k : κ) : Prop :=
  ∃ before d after, ds = before ++ d :: after ∧ k ∈ d.deletes ∧
    (∃ d' ∈ before, Sets key d' k) ∧ ∀ d' ∈ d :: after, ¬ Sets key d' k

theorem undone_snoc_of_sets {ds : List (Delta κ ρ)} {d : Delta κ ρ} (h : Sets key d k) :
    ¬ Undone key (ds ++ [d]) k := by
  rintro ⟨before, d₀, after, heq, -, -, hnot⟩
  have hmem : d ∈ d₀ :: after := by
    have hlast := congrArg List.getLast? heq
    rw [List.getLast?_concat, List.getLast?_append_cons] at hlast
    exact List.mem_of_getLast? hlast.symm
  exact hnot d hmem h

theorem undone_snoc {ds : List (Delta κ ρ)} {d : Delta κ ρ} (h : ¬ Sets key d k) :
    Undone key (ds ++ [d]) k ↔
      Undone key ds k ∨ k ∈ d.deletes ∧ Sets key (merge ds) k := by
  constructor
  · rintro ⟨before, d₀, after, heq, hdel, hset, hnot⟩
    cases after using List.reverseRecOn with
    | nil =>
      obtain ⟨rfl, hd⟩ := List.append_inj' heq rfl
      cases hd
      exact .inr ⟨hdel, sets_merge.2 hset⟩
    | append_singleton after d₁ =>
      have heq' : ds ++ [d] = (before ++ d₀ :: after) ++ [d₁] := by
        rw [heq, List.append_assoc, List.cons_append]
      obtain ⟨rfl, -⟩ := List.append_inj' heq' rfl
      have hnot' : ∀ d' ∈ d₀ :: after, ¬ Sets key d' k :=
        fun d' hd' => hnot d' (List.mem_append_left [d₁] hd')
      exact .inl ⟨before, d₀, after, rfl, hdel, hset, hnot'⟩
  · rintro (⟨before, d₀, after, rfl, hdel, hset, hnot⟩ | ⟨hdel, hset⟩)
    · refine ⟨before, d₀, after ++ [d], List.append_assoc before (d₀ :: after) [d], hdel, hset, ?_⟩
      intro d' hd'
      rcases List.mem_append.1 (show d' ∈ (d₀ :: after) ++ [d] from hd') with hd' | hd'
      · exact hnot d' hd'
      · exact List.mem_singleton.1 hd' ▸ h
    · have hnot : ∀ d' ∈ [d], ¬ Sets key d' k := fun d' hd' => List.mem_singleton.1 hd' ▸ h
      exact ⟨ds, d, [], rfl, hdel, sets_merge.1 hset, hnot⟩

theorem not_undone_of_kept {ds : List (Delta κ ρ)} (h : ∀ d ∈ ds, k ∉ d.deletes) :
    ¬ Undone key ds k := by
  rintro ⟨before, d, after, rfl, hdel, -⟩
  exact h d (List.mem_append_right before List.mem_cons_self) hdel

variable [DecidableEq κ]

/-- The deletes, then the upserts. -/
def apply (T : Table κ ρ key) (d : Delta κ ρ) : Table κ ρ key :=
  d.upserts.foldl Table.upsert (d.deletes.foldl Table.delete T)

/-- The last row that a change sets under a key. -/
def last (key : ρ → κ) (d : Delta κ ρ) (k : κ) : Option ρ :=
  (d.upserts.filter fun r => key r = k).getLast?

theorem get_apply (T : Table κ ρ key) (d : Delta κ ρ) (k : κ) :
    (apply T d).get k = (last key d k).or (if k ∈ d.deletes then none else T.get k) := by
  rw [apply, Table.get_foldl_upsert, Table.get_foldl_delete, last]

theorem last_eq_none {d : Delta κ ρ} : last key d k = none ↔ ¬ Sets key d k := by
  rw [last, List.getLast?_eq_none_iff, List.filter_eq_nil_iff]
  constructor
  · rintro h ⟨r, hr, hk⟩
    exact h r hr (decide_eq_true hk)
  · intro h r hr hk
    exact h ⟨r, hr, of_decide_eq_true hk⟩

theorem last_merge_snoc (ds : List (Delta κ ρ)) (d : Delta κ ρ) (k : κ) :
    last key (merge (ds ++ [d])) k = (last key d k).or (last key (merge ds) k) := by
  rw [last, merge_snoc_upserts, List.filter_append, List.getLast?_append]
  rfl

/-- Merged changes leave under a key what the changes leave one after the other, unless one of them
undoes an earlier one. -/
theorem get_merge_iff (T : Table κ ρ key) (ds : List (Delta κ ρ)) (k : κ) :
    (apply T (merge ds)).get k = (ds.foldl apply T).get k ↔ ¬ Undone key ds k := by
  induction ds using List.reverseRecOn with
  | nil =>
    have hnil : ¬ Undone key [] k := by
      rintro ⟨before, d, after, heq, -⟩
      simp at heq
    exact iff_of_true rfl hnil
  | append_singleton ds d ih =>
    rw [List.foldl_append, List.foldl_cons, List.foldl_nil, get_apply, get_apply, last_merge_snoc,
      merge_snoc_deletes]
    rw [get_apply] at ih
    by_cases hset : Sets key d k
    · -- the last change has the last word
      obtain ⟨r, hr⟩ := Option.ne_none_iff_exists'.1 (mt last_eq_none.1 (not_not.2 hset))
      rw [hr]
      exact iff_of_true rfl (undone_snoc_of_sets hset)
    · rw [last_eq_none.2 hset, undone_snoc hset, not_or]
      by_cases hdel : k ∈ d.deletes
      · have hmem : k ∈ (merge ds).deletes ++ d.deletes := List.mem_append_right _ hdel
        rw [if_pos hmem, if_pos hdel, Option.none_or, Option.none_or, Option.or_none, last_eq_none]
        constructor
        · intro hnot
          refine ⟨?_, fun h => hnot h.2⟩
          rintro ⟨before, d₀, after, rfl, -, ⟨d', hd', hs⟩, -⟩
          exact hnot (sets_merge.2 ⟨d', List.mem_append_left _ hd', hs⟩)
        · intro h hs
          exact h.2 ⟨hdel, hs⟩
      · have hiff : k ∈ (merge ds).deletes ++ d.deletes ↔ k ∈ (merge ds).deletes := by
          rw [List.mem_append, or_iff_left hdel]
        rw [if_neg hdel, Option.none_or, Option.none_or, and_iff_left (fun h => hdel h.1), ← ih]
        simp only [hiff]

variable {prev next : Table κ ρ key} {d : Delta κ ρ}

/-- The changes from one table to the next, in any order. -/
structure Leads (prev next : Table κ ρ key) (d : Delta κ ρ) : Prop where
  upserts : ∀ r, r ∈ d.upserts ↔ r ∈ next.rows ∧ prev.get (key r) ≠ some r
  deletes : ∀ k, k ∈ d.deletes ↔ (prev.get k).isSome ∧ next.get k = none

theorem Leads.get_apply (h : Leads prev next d) (k : κ) : (apply prev d).get k = next.get k := by
  have hlast : ∀ r, last key d k = some r → next.get k = some r ∧ prev.get k ≠ some r := by
    intro r hr
    obtain ⟨hmem, hk⟩ := List.mem_filter.1 (List.mem_of_getLast? hr)
    obtain rfl := of_decide_eq_true hk
    obtain ⟨hnext, hne⟩ := (h.upserts r).1 hmem
    exact ⟨Table.get_of_mem hnext, hne⟩
  rw [Delta.get_apply]
  cases hl : last key d k with
  | some r => exact (hlast r hl).1.symm
  | none =>
    rw [Option.none_or]
    have hunset := last_eq_none.1 hl
    split
    next hdel => exact ((h.deletes k).1 hdel).2.symm
    next hdel =>
      cases hn : next.get k with
      | none =>
        cases hp : prev.get k with
        | none => rfl
        | some r => exact absurd ((h.deletes k).2 ⟨Option.isSome_iff_exists.2 ⟨r, hp⟩, hn⟩) hdel
      | some r =>
        obtain ⟨hmem, rfl⟩ := Table.get_eq_some_iff.1 hn
        by_contra hne
        exact hunset ⟨r, (h.upserts r).2 ⟨hmem, hne⟩, rfl⟩

/-- Only keys that changed are named. -/
theorem Leads.changed (h : Leads prev next d) (k : κ) (hk : Sets key d k ∨ k ∈ d.deletes) :
    prev.get k ≠ next.get k := by
  rcases hk with ⟨r, hr, rfl⟩ | hdel
  · obtain ⟨hmem, hne⟩ := (h.upserts r).1 hr
    rw [Table.get_of_mem hmem]
    exact hne
  · obtain ⟨hsome, hnone⟩ := (h.deletes k).1 hdel
    intro heq
    rw [heq, hnone] at hsome
    cases hsome

end Delta
