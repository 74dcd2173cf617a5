import Mathlib.Data.List.Nodup
import Mathlib.Data.List.Sort

/-- A relation with a primary key: the rows, in insertion order, with pairwise distinct keys. -/
structure Table (κ ρ : Type) (key : ρ → κ) where
  rows : List ρ
  nodup : (rows.map key).Nodup

namespace Table
set_option autoImplicit true

variable {key : ρ → κ}

@[ext] theorem ext {T U : Table κ ρ key} (h : T.rows = U.rows) : T = U := by
  cases T
  cases U
  cases h
  rfl

def empty : Table κ ρ key := ⟨[], List.nodup_nil⟩

/-- Keep the rows that satisfy a condition: `DELETE` with the negated condition. -/
def filter (T : Table κ ρ key) (p : ρ → Bool) : Table κ ρ key :=
  ⟨T.rows.filter p, T.nodup.sublist (List.filter_sublist.map key)⟩

def count (T : Table κ ρ key) (p : ρ → Bool) : Nat := (T.rows.filter p).length

/-- `SELECT` with an `ORDER BY` on a numeric column. -/
def selectBy (T : Table κ ρ key) (p : ρ → Bool) (col : ρ → Nat) : List ρ :=
  (T.rows.filter p).insertionSort fun r r' => col r ≤ col r'

@[simp] theorem mem_selectBy {T : Table κ ρ key} {p : ρ → Bool} {col : ρ → Nat} :
    r ∈ T.selectBy p col ↔ r ∈ T.rows ∧ p r = true := by
  rw [selectBy, List.mem_insertionSort, List.mem_filter]

theorem pairwise_selectBy (T : Table κ ρ key) (p : ρ → Bool) (col : ρ → Nat) :
    (T.selectBy p col).Pairwise fun r r' => col r ≤ col r' := by
  have htotal : Std.Total fun r r' : ρ => col r ≤ col r' := ⟨fun r r' => Nat.le_total ..⟩
  have htrans : IsTrans ρ fun r r' => col r ≤ col r' := ⟨fun _ _ _ => Nat.le_trans⟩
  exact List.pairwise_insertionSort _ _

/-- A selection that is a walk over an interval of column values. -/
theorem selectBy_eq_filterMap {T : Table κ ρ key} {p : ρ → Bool} {col : ρ → Nat}
    (f : Nat → Option ρ) (lo n : Nat) (hcol : ∀ s r, f s = some r → col r = s)
    (hf : ∀ r, r ∈ T.rows ∧ p r = true ↔ (lo ≤ col r ∧ col r < lo + n) ∧ f (col r) = some r) :
    T.selectBy p col = (List.range' lo n).filterMap f := by
  have hmem : ∀ r, r ∈ (List.range' lo n).filterMap f ↔
      (lo ≤ col r ∧ col r < lo + n) ∧ f (col r) = some r := by
    intro r
    simp only [List.mem_filterMap, List.mem_range'_1]
    constructor
    · rintro ⟨s, hs, hr⟩
      obtain rfl := hcol s r hr
      exact ⟨hs, hr⟩
    · rintro ⟨hs, hr⟩
      exact ⟨col r, hs, hr⟩
  have hlt : ((List.range' lo n).filterMap f).Pairwise fun r r' => col r < col r' := by
    refine (List.pairwise_lt_range' (s := lo)).filterMap f ?_
    intro s s' hs r hr r' hr'
    rwa [hcol s r hr, hcol s' r' hr']
  have hnodup : (T.selectBy p col).Nodup :=
    (List.perm_insertionSort _ _).nodup_iff.2 ((T.nodup.of_map key).filter p)
  have hperm : (T.selectBy p col).Perm ((List.range' lo n).filterMap f) := by
    refine (List.perm_ext_iff_of_nodup hnodup ?_).2 fun r => ?_
    · exact hlt.imp fun hr he => absurd (he ▸ hr) (Nat.lt_irrefl _)
    · rw [mem_selectBy, hf, hmem]
  refine hperm.eq_of_pairwise ?_ (T.pairwise_selectBy p col) (hlt.imp Nat.le_of_lt)
  intro r r' hr hr' hle hge
  have hfr := ((hf r).1 (mem_selectBy.1 hr)).2
  have hfr' := ((hmem r').1 hr').2
  rw [Nat.le_antisymm hle hge, hfr'] at hfr
  exact (Option.some.inj hfr).symm

@[simp] theorem rows_filter (T : Table κ ρ key) (p : ρ → Bool) :
    (T.filter p).rows = T.rows.filter p := rfl

/-- The rows whose keys lie in a given region. -/
def restrict (T : Table κ ρ key) (region : κ → Bool) : Table κ ρ key :=
  T.filter fun r => region (key r)

theorem restrict_filter (T : Table κ ρ key) (region : κ → Bool) (p : ρ → Bool) :
    (T.filter p).restrict region = (T.restrict region).filter p := by
  apply ext
  simp only [restrict, rows_filter, List.filter_filter]
  apply List.filter_congr
  intro r _
  exact Bool.and_comm _ _

theorem restrict_filter_of_outside (T : Table κ ρ key) (region : κ → Bool) (p : ρ → Bool)
    (h : ∀ r, region (key r) = true → p r = true) :
    (T.filter p).restrict region = T.restrict region := by
  apply ext
  simp only [restrict, rows_filter, List.filter_filter]
  apply List.filter_congr
  intro r _
  cases hr : region (key r) with
  | false => rfl
  | true => rw [h r hr]; rfl

variable [DecidableEq κ]

def get (T : Table κ ρ key) (k : κ) : Option ρ := T.rows.find? fun r => decide (key r = k)

theorem get_eq_some_iff {T : Table κ ρ key} :
    T.get k = some r ↔ r ∈ T.rows ∧ key r = k := by
  constructor
  · intro h
    exact ⟨List.mem_of_find?_eq_some h, by simpa using List.find?_some h⟩
  · rintro ⟨hr, rfl⟩
    cases hg : T.get (key r) with
    | none =>
      have hn := List.find?_eq_none.1 hg r hr
      simp at hn
    | some r' =>
      have hr' := List.mem_of_find?_eq_some hg
      have hk : key r' = key r := by simpa using List.find?_some hg
      rw [List.inj_on_of_nodup_map T.nodup hr' hr hk]

theorem get_eq_none_iff {T : Table κ ρ key} :
    T.get k = none ↔ ∀ r ∈ T.rows, key r ≠ k := by
  simp [get, List.find?_eq_none]

theorem key_of_get {T : Table κ ρ key} (h : T.get k = some r) : key r = k :=
  (get_eq_some_iff.1 h).2

theorem get_of_mem {T : Table κ ρ key} (h : r ∈ T.rows) : T.get (key r) = some r :=
  get_eq_some_iff.2 ⟨h, rfl⟩

@[simp] theorem get_empty : (empty : Table κ ρ key).get k = none := rfl

@[simp] theorem get_filter (T : Table κ ρ key) (p : ρ → Bool) :
    (T.filter p).get k = (T.get k).filter p := by
  cases hg : T.get k with
  | none =>
    rw [Option.filter_none, get_eq_none_iff]
    intro r hr
    exact get_eq_none_iff.1 hg r (List.mem_of_mem_filter hr)
  | some r =>
    obtain ⟨hr, hk⟩ := get_eq_some_iff.1 hg
    by_cases hp : p r = true
    · rw [Option.filter_some_pos hp]
      exact get_eq_some_iff.2 ⟨List.mem_filter.2 ⟨hr, hp⟩, hk⟩
    · rw [Option.filter_some_neg (by simpa using hp), get_eq_none_iff]
      intro r' hr' hk'
      obtain ⟨hmem, hp'⟩ := List.mem_filter.1 hr'
      rw [List.inj_on_of_nodup_map T.nodup hmem hr (hk'.trans hk.symm)] at hp'
      exact hp hp'

/-- `DELETE` of the row with a given key. -/
def delete (T : Table κ ρ key) (k : κ) : Table κ ρ key := T.filter fun r => decide (key r ≠ k)

theorem get_delete (T : Table κ ρ key) (k k' : κ) :
    (T.delete k).get k' = if k = k' then none else T.get k' := by
  rw [delete, get_filter]
  cases hg : T.get k' with
  | none => simp
  | some r =>
    have hk := key_of_get hg
    by_cases h : k = k'
    · simp [Option.filter, hk, h]
    · simp [Option.filter, hk, h, Ne.symm h]

/-- `INSERT`, which a row that already holds the key makes fail. -/
def insert (T : Table κ ρ key) (r : ρ) : Option (Table κ ρ key) :=
  if h : T.get (key r) = none then
    some ⟨T.rows ++ [r], by
      rw [List.map_append, List.nodup_append]
      refine ⟨T.nodup, List.nodup_singleton _, ?_⟩
      intro a ha b hb
      obtain ⟨r', hr', rfl⟩ := List.mem_map.1 ha
      obtain rfl : b = key r := by simpa using hb
      exact get_eq_none_iff.1 h r' hr'⟩
  else none

theorem insert_of_get_eq_none {T : Table κ ρ key} (h : T.get (key r) = none) :
    ∃ U, T.insert r = some U ∧ U.rows = T.rows ++ [r] := by
  rw [insert, dif_pos h]
  exact ⟨_, rfl, rfl⟩

theorem rows_of_insert {T U : Table κ ρ key} (h : T.insert r = some U) :
    U.rows = T.rows ++ [r] := by
  unfold insert at h
  split at h
  · cases h
    rfl
  · cases h

theorem get_of_insert {T U : Table κ ρ key} (h : T.insert r = some U) (k : κ) :
    U.get k = if key r = k then some r else T.get k := by
  have hrows := rows_of_insert h
  have hnone : T.get (key r) = none := by
    unfold insert at h
    split at h
    · assumption
    · cases h
  by_cases hk : key r = k
  · rw [if_pos hk, get_eq_some_iff, hrows]
    exact ⟨by simp, hk⟩
  · rw [if_neg hk, get, hrows, List.find?_append]
    simp [get, hk]

/-- `INSERT … ON CONFLICT DO UPDATE`: the row replaces the one that holds its key, if any. -/
def upsert (T : Table κ ρ key) (r : ρ) : Table κ ρ key :=
  if h : T.get (key r) = none then
    ⟨T.rows ++ [r], by
      rw [List.map_append, List.nodup_append]
      refine ⟨T.nodup, List.nodup_singleton _, ?_⟩
      intro a ha b hb
      obtain ⟨r', hr', rfl⟩ := List.mem_map.1 ha
      obtain rfl : b = key r := by simpa using hb
      exact get_eq_none_iff.1 h r' hr'⟩
  else
    ⟨T.rows.map fun r' => if key r' = key r then r else r', by
      have hkeys : (T.rows.map fun r' => if key r' = key r then r else r').map key
          = T.rows.map key := by
        rw [List.map_map]
        apply List.map_congr_left
        intro r' _
        by_cases hk : key r' = key r <;> simp [hk]
      rw [hkeys]
      exact T.nodup⟩

theorem get_upsert (T : Table κ ρ key) (r : ρ) (k : κ) :
    (T.upsert r).get k = if key r = k then some r else T.get k := by
  by_cases h : T.get (key r) = none
  · have hi : T.insert r = some (T.upsert r) := by simp only [insert, upsert, dif_pos h]
    exact get_of_insert hi k
  · obtain ⟨r₀, hr₀⟩ := Option.ne_none_iff_exists'.1 h
    obtain ⟨hmem₀, hk₀⟩ := get_eq_some_iff.1 hr₀
    have hrows : (T.upsert r).rows = T.rows.map fun r' => if key r' = key r then r else r' := by
      simp only [upsert, dif_neg h]
    by_cases hk : key r = k
    · rw [if_pos hk, get_eq_some_iff, hrows]
      exact ⟨List.mem_map.2 ⟨r₀, hmem₀, by simp [hk₀]⟩, hk⟩
    · rw [if_neg hk]
      cases hg : T.get k with
      | none =>
        rw [get_eq_none_iff, hrows]
        intro r' hr' hk'
        obtain ⟨r'', hr'', rfl⟩ := List.mem_map.1 hr'
        by_cases hc : key r'' = key r
        · rw [if_pos hc] at hk'
          exact hk hk'
        · rw [if_neg hc] at hk'
          exact get_eq_none_iff.1 hg r'' hr'' hk'
      | some r' =>
        obtain ⟨hr', hk'⟩ := get_eq_some_iff.1 hg
        rw [get_eq_some_iff, hrows]
        refine ⟨List.mem_map.2 ⟨r', hr', ?_⟩, hk'⟩
        rw [if_neg (by rw [hk']; exact fun he => hk he.symm)]

theorem mem_upsert {T : Table κ ρ key} :
    r' ∈ (T.upsert r).rows ↔ r' = r ∨ r' ∈ T.rows ∧ key r' ≠ key r := by
  have hget (r' : ρ) : r' ∈ (T.upsert r).rows ↔
      (if key r = key r' then some r else T.get (key r')) = some r' := by
    rw [← get_upsert, get_eq_some_iff, and_iff_left rfl]
  rw [hget]
  by_cases hk : key r = key r'
  · rw [if_pos hk]
    constructor
    · intro h
      exact .inl (Option.some.inj h).symm
    · rintro (rfl | ⟨_, hne⟩)
      · rfl
      · exact absurd hk.symm hne
  · rw [if_neg hk, get_eq_some_iff, and_iff_left rfl]
    constructor
    · intro h
      exact .inr ⟨h, fun he => hk he.symm⟩
    · rintro (rfl | ⟨h, _⟩)
      · exact absurd rfl hk
      · exact h

/-- `INSERT OR IGNORE`. -/
def insertIgnore (T : Table κ ρ key) (r : ρ) : Table κ ρ key :=
  if T.get (key r) = none then T.upsert r else T

theorem get_insertIgnore (T : Table κ ρ key) (r : ρ) (k : κ) :
    (T.insertIgnore r).get k = if key r = k ∧ T.get k = none then some r else T.get k := by
  unfold insertIgnore
  by_cases hk : key r = k
  · subst hk
    by_cases h : T.get (key r) = none
    · simp [h, get_upsert]
    · simp [h]
  · split <;> simp [hk, get_upsert]

theorem get_foldl_insertIgnore (rows : List ρ) (T : Table κ ρ key) (k : κ) :
    (rows.foldl insertIgnore T).get k =
      (T.get k).or (rows.find? fun r => decide (key r = k)) := by
  induction rows generalizing T with
  | nil => exact (Option.or_none).symm
  | cons r rows ih =>
    rw [List.foldl_cons, ih, get_insertIgnore, List.find?_cons]
    by_cases hk : key r = k
    · cases hT : T.get k <;> simp [hk]
    · simp [hk]

/-- `INSERT … ON CONFLICT DO UPDATE … WHERE`: a row that holds the key gives way under a condition. -/
def upsertWhere (T : Table κ ρ key) (r : ρ) (p : ρ → Bool) : Table κ ρ key :=
  if (T.get (key r)).all p then T.upsert r else T

theorem get_upsertWhere (T : Table κ ρ key) (r : ρ) (p : ρ → Bool) (k : κ) :
    (T.upsertWhere r p).get k =
      if key r = k ∧ (T.get k).all p = true then some r else T.get k := by
  unfold upsertWhere
  by_cases hk : key r = k
  · subst hk
    by_cases hp : (T.get (key r)).all p = true
    · simp [hp, get_upsert]
    · simp [hp]
  · split <;> simp [hk, get_upsert]

theorem get_restrict (T : Table κ ρ key) (region : κ → Bool) (k : κ) (hk : region k = true) :
    (T.restrict region).get k = T.get k := by
  rw [restrict, get_filter]
  cases hg : T.get k with
  | none => rfl
  | some r => exact Option.filter_some_pos (by rw [key_of_get hg]; exact hk)

theorem rows_upsert_of_get_eq_none {T : Table κ ρ key} (h : T.get (key r) = none) :
    (T.upsert r).rows = T.rows ++ [r] := by
  simp only [upsert, dif_pos h]

theorem rows_upsert_of_get_ne_none {T : Table κ ρ key} (h : T.get (key r) ≠ none) :
    (T.upsert r).rows = T.rows.map fun r' => if key r' = key r then r else r' := by
  simp only [upsert, dif_neg h]

theorem restrict_upsert (T : Table κ ρ key) (region : κ → Bool) (hk : region (key r) = true) :
    (T.upsert r).restrict region = (T.restrict region).upsert r := by
  have hget := get_restrict T region (key r) hk
  apply ext
  by_cases h : T.get (key r) = none
  · rw [rows_upsert_of_get_eq_none (hget.trans h)]
    simp [restrict, rows_upsert_of_get_eq_none h, hk]
  · rw [rows_upsert_of_get_ne_none (by rwa [hget])]
    simp only [restrict, rows_filter, rows_upsert_of_get_ne_none h, List.filter_map]
    congr 1
    apply List.filter_congr
    intro r' _
    simp only [Function.comp_apply]
    split
    · next he => rw [he]
    · rfl

theorem restrict_upsert_of_outside (T : Table κ ρ key) (region : κ → Bool)
    (hk : region (key r) = false) : (T.upsert r).restrict region = T.restrict region := by
  apply ext
  by_cases h : T.get (key r) = none
  · simp [restrict, rows_upsert_of_get_eq_none h, hk]
  · simp only [restrict, rows_filter, rows_upsert_of_get_ne_none h]
    induction T.rows with
    | nil => rfl
    | cons r' rs ih =>
      by_cases he : key r' = key r
      · simp [he, hk, ih]
      · simp only [List.map_cons, if_neg he, List.filter_cons, ih]

theorem eq_or_mem_of_mem_upsert {T : Table κ ρ key} (h : r' ∈ (T.upsert r).rows) :
    r' = r ∨ r' ∈ T.rows := by
  by_cases hg : T.get (key r) = none
  · rw [rows_upsert_of_get_eq_none hg] at h
    simpa [or_comm] using h
  · rw [rows_upsert_of_get_ne_none hg] at h
    obtain ⟨r₀, hr₀, he⟩ := List.mem_map.1 h
    split at he
    · exact .inl he.symm
    · exact .inr (he ▸ hr₀)

theorem mem_upsert_self (T : Table κ ρ key) (r : ρ) : r ∈ (T.upsert r).rows :=
  (get_eq_some_iff.1 (by rw [get_upsert, if_pos rfl] : (T.upsert r).get (key r) = some r)).1

/-- Successive upserts into an empty table. -/
def ofRows (key : ρ → κ) (rows : List ρ) : Table κ ρ key := rows.foldl upsert empty

theorem get_foldl_upsert (rows : List ρ) (T : Table κ ρ key) (k : κ) :
    (rows.foldl upsert T).get k = ((rows.filter fun r => key r = k).getLast?).or (T.get k) := by
  induction rows generalizing T with
  | nil => rfl
  | cons r rows ih =>
    rw [List.foldl_cons, ih, get_upsert]
    by_cases hk : key r = k
    · cases hl : (rows.filter fun r => key r = k).getLast? <;> simp [hk, hl, List.getLast?_cons]
    · simp [hk]

theorem get_foldl_delete (ks : List κ) (T : Table κ ρ key) (k : κ) :
    (ks.foldl delete T).get k = if k ∈ ks then none else T.get k := by
  induction ks generalizing T with
  | nil => simp
  | cons k' ks ih =>
    rw [List.foldl_cons, ih, get_delete]
    by_cases hk : k' = k
    · simp [hk]
    · simp [hk, Ne.symm hk]

/-- The last row of a key wins. -/
theorem get_ofRows (rows : List ρ) (k : κ) :
    (ofRows key rows).get k = (rows.filter fun r => key r = k).getLast? := by
  simp [ofRows, get_foldl_upsert]

theorem rows_foldl_upsert {rows : List ρ} {T : Table κ ρ key} (hnodup : (rows.map key).Nodup)
    (hnew : ∀ r ∈ rows, T.get (key r) = none) :
    (rows.foldl upsert T).rows = T.rows ++ rows := by
  induction rows generalizing T with
  | nil => simp
  | cons r rows ih =>
    rw [List.map_cons, List.nodup_cons] at hnodup
    rw [List.foldl_cons, ih hnodup.2, rows_upsert_of_get_eq_none (hnew r (by simp))]
    · simp
    · intro r' hr'
      have hne : key r ≠ key r' := fun he => hnodup.1 (he ▸ List.mem_map_of_mem hr')
      rw [get_upsert, if_neg hne]
      exact hnew r' (List.mem_cons_of_mem _ hr')

theorem rows_ofRows {rows : List ρ} (hnodup : (rows.map key).Nodup) :
    (ofRows key rows).rows = rows := by
  rw [ofRows, rows_foldl_upsert hnodup fun _ _ => rfl]
  rfl

/-- Sorting the rows by their keys does not change the table, since the sort is stable. -/
theorem get_ofRows_insertionSort [LinearOrder κ] (rows : List ρ) (k : κ) :
    (ofRows key (rows.insertionSort fun r r' => key r ≤ key r')).get k =
      (ofRows key rows).get k := by
  have htotal : Std.Total fun r r' : ρ => key r ≤ key r' := ⟨fun _ _ => le_total _ _⟩
  have htrans : IsTrans ρ fun r r' => key r ≤ key r' := ⟨fun _ _ _ => le_trans⟩
  rw [get_ofRows, get_ofRows]
  congr 1
  have hc : (rows.filter fun r => key r = k).Pairwise fun r r' => key r ≤ key r' := by
    apply List.pairwise_of_forall_mem_list
    intro r hr r' hr'
    have hk : key r = k := by simpa using (List.mem_filter.1 hr).2
    have hk' : key r' = k := by simpa using (List.mem_filter.1 hr').2
    rw [hk, hk']
  have hsub := List.sublist_insertionSort hc List.filter_sublist
  have hsub' := hsub.filter fun r => decide (key r = k)
  rw [List.filter_filter] at hsub'
  simp only [Bool.and_self] at hsub'
  apply Eq.symm
  apply hsub'.eq_of_length
  exact (((List.perm_insertionSort _ rows).filter _).length_eq).symm

/-- Upserting the rows that differ from a table and deleting the keys that are gone turns it into
the next one. -/
theorem get_diff [DecidableEq ρ] {cache next T : Table κ ρ key}
    (hcache : ∀ k, cache.get k = T.get k) (k : κ) :
    (((cache.rows.map key).filter fun k => (next.get k).isNone).foldl delete
      ((next.rows.filter fun r => decide (cache.get (key r) ≠ some r)).foldl upsert T)).get k =
      next.get k := by
  rw [get_foldl_delete, get_foldl_upsert]
  generalize hch : ((next.rows.filter fun r => decide (cache.get (key r) ≠ some r)).filter
    fun r => decide (key r = k)) = changed
  have hchanged : ∀ r ∈ changed, next.get k = some r ∧ cache.get k ≠ some r := by
    intro r hr
    rw [← hch, List.mem_filter, List.mem_filter] at hr
    obtain ⟨⟨hmem, hne⟩, hk⟩ := hr
    obtain rfl : key r = k := by simpa using hk
    exact ⟨get_of_mem hmem, by simpa using hne⟩
  cases hn : next.get k with
  | none =>
    cases hl : changed.getLast? with
    | some r =>
      have hr := (hchanged r (List.mem_of_getLast? hl)).1
      rw [hn] at hr
      cases hr
    | none =>
      cases hc : cache.get k with
      | none => simp [← hcache, hc]
      | some r =>
        obtain ⟨hmem, hk⟩ := get_eq_some_iff.1 hc
        rw [if_pos]
        rw [List.mem_filter]
        exact ⟨List.mem_map.2 ⟨r, hmem, hk⟩, by rw [hn]; rfl⟩
  | some r =>
    rw [if_neg (by simp [hn])]
    cases hl : changed.getLast? with
    | some r' =>
      have hr := (hchanged r' (List.mem_of_getLast? hl)).1
      rw [hn] at hr
      rw [hr]
      rfl
    | none =>
      have hsame : cache.get k = some r := by
        by_contra hne
        obtain ⟨hmem, hk⟩ := get_eq_some_iff.1 hn
        have hin : r ∈ changed := by
          rw [← hch, List.mem_filter, List.mem_filter]
          exact ⟨⟨hmem, by rw [hk]; simpa using hne⟩, by simpa using hk⟩
        rw [List.getLast?_eq_none_iff.1 hl] at hin
        cases hin
      rw [← hcache, hsame]
      rfl

theorem length_delete_lt {T : Table κ ρ key} (h : T.get k = some r) :
    (T.delete k).rows.length < T.rows.length := by
  obtain ⟨hr, hk⟩ := get_eq_some_iff.1 h
  exact List.length_filter_lt_length_iff_exists.2 ⟨r, hr, by simp [hk]⟩

end Table
