import Mathlib.Data.List.Forall2
import Seqscribe.DeltaCheck

set_option autoImplicit true

/-! Lists that a partial function maps. -/

namespace List

variable {f : α → Option β} {xs : List α} {ys : List β}

theorem mapM_eq_some_iff : xs.mapM f = some ys ↔ Forall₂ (fun x y => f x = some y) xs ys := by
  induction xs generalizing ys with
  | nil => cases ys <;> simp
  | cons x xs ih =>
    rw [mapM_cons]
    cases hx : f x with
    | none => cases ys <;> simp [hx]
    | some y =>
      cases hxs : xs.mapM f with
      | none => cases ys <;> simp [← ih, hxs, hx]
      | some rest => cases ys <;> simp [← ih, hxs, hx]

theorem isSome_mapM : (xs.mapM f).isSome ↔ ∀ x ∈ xs, (f x).isSome := by
  induction xs with
  | nil => simp
  | cons x xs ih =>
    rw [mapM_cons, forall_mem_cons, ← ih]
    cases hx : f x with
    | none => simp
    | some y => cases hxs : xs.mapM f <;> simp

theorem mem_of_mapM (h : xs.mapM f = some ys) : y ∈ ys ↔ ∃ x ∈ xs, f x = some y := by
  induction mapM_eq_some_iff.1 h with
  | nil => simp
  | cons hx _ ih =>
    rw [mem_cons, ih (mapM_eq_some_iff.2 ‹_›), exists_mem_cons_iff, hx, Option.some.injEq]
    exact or_congr_left eq_comm

theorem map_of_mapM {k : α → κ} {g : β → κ} (h : xs.mapM f = some ys)
    (hk : ∀ x y, f x = some y → g y = k x) : ys.map g = xs.map k := by
  induction mapM_eq_some_iff.1 h with
  | nil => rfl
  | cons hx hrest ih => rw [map_cons, map_cons, hk _ _ hx, ih (mapM_eq_some_iff.2 hrest)]

/-- Images with keys that tell the elements apart. -/
theorem nodup_map_of_mapM {k : α → κ} {g : β → γ} (h : xs.mapM f = some ys)
    (hkeys : (xs.map k).Nodup)
    (happart : ∀ x ∈ xs, ∀ x' ∈ xs, ∀ y y', f x = some y → f x' = some y' → g y = g y' →
      k x = k x') : (ys.map g).Nodup := by
  induction mapM_eq_some_iff.1 h with
  | nil => exact nodup_nil
  | cons hx hrest ih =>
    next x y xs ys =>
    have hrest := mapM_eq_some_iff.2 hrest
    rw [map_cons, nodup_cons] at hkeys ⊢
    refine ⟨fun hmem => hkeys.1 ?_, ih hrest hkeys.2 fun x hx x' hx' =>
      happart x (mem_cons_of_mem _ hx) x' (mem_cons_of_mem _ hx')⟩
    obtain ⟨y', hy', heq⟩ := mem_map.1 hmem
    obtain ⟨x', hx', hfx'⟩ := (mem_of_mapM hrest).1 hy'
    rw [happart x mem_cons_self x' (mem_cons_of_mem _ hx') y y' hx hfx' heq.symm]
    exact mem_map_of_mem hx'

end List

theorem Table.mem_foldl_upsert {key : ρ → κ} [DecidableEq κ] {rows : List ρ} {T : Table κ ρ key}
    (hnodup : (rows.map key).Nodup) :
    r ∈ (rows.foldl Table.upsert T).rows ↔
      r ∈ rows ∨ r ∈ T.rows ∧ ∀ r' ∈ rows, key r ≠ key r' := by
  induction rows generalizing T with
  | nil => simp
  | cons a rows ih =>
    rw [List.map_cons, List.nodup_cons] at hnodup
    rw [List.foldl_cons, ih hnodup.2, Table.mem_upsert, List.mem_cons, List.forall_mem_cons]
    have ha : r = a → ∀ r' ∈ rows, key r ≠ key r' := by
      rintro rfl r' hr' heq
      exact hnodup.1 (heq ▸ List.mem_map_of_mem hr')
    tauto

namespace Seqscribe

/-! A view without a delta function writes only what changed. -/

variable {env : Env} {MAX_ROW_BYTES : Nat} {engine : Engine} {d : TableDef}

/-- The key of the stored row comes from the text of the key alone. -/
theorem TableDef.sqlKey_stored (h : d.stored engine r = some s) :
    ∃ c, engine.keep d.keyType true (.str (d.keyText engine r)) = some c ∧
      d.sqlKey s = c.collate := by
  obtain ⟨ms, hms, rfl⟩ := Option.map_eq_some_iff.1 h
  obtain ⟨col, hcol⟩ := Option.isSome_iff_exists.1 d.known
  obtain ⟨hmem, hname⟩ := Table.get_eq_some_iff.1 hcol
  have hnodup : (ms.map Prod.fst).Nodup := by
    rw [List.map_of_mapM hms (k := Prod.fst)]
    · exact d.schema.nodup
    · intro x y hy
      obtain ⟨c, -, rfl⟩ := Option.map_eq_some_iff.1 hy
      rfl
  obtain ⟨m, hm⟩ := Option.isSome_iff_exists.1
    (List.isSome_mapM.1 (Option.isSome_iff_exists.2 ⟨ms, hms⟩) col hmem)
  have hget := Record.get_ofList hnodup ((List.mem_of_mapM hms).2 ⟨col, hmem, hm⟩)
  obtain ⟨c, hc, rfl⟩ := Option.map_eq_some_iff.1 hm
  refine ⟨c, ?_, ?_⟩
  · rw [hname, bound, if_pos rfl] at hc
    rw [keyType, hcol]
    exact decide_eq_true (rfl : d.rowKey = d.rowKey) ▸ hc
  · dsimp only at hget
    rw [hname] at hget
    rw [sqlKey, hget]
    rfl

namespace Backed

variable {b w : Backed d} {rows : List Row}

theorem insertRows_ok {ss : List Row} (h : rows.mapM (d.stored engine) = some ss) (b : Backed d) :
    rows.foldlM (insertRow engine) b = .ok { b with table := ss.foldl Table.upsert b.table } := by
  induction List.mapM_eq_some_iff.1 h generalizing b with
  | nil => rfl
  | cons hr hrest ih =>
    rw [List.foldlM_cons, insertRow, hr]
    exact ih (List.mapM_eq_some_iff.2 hrest) _

theorem insertRows_error (h : ∃ r ∈ rows, d.stored engine r = none) (b : Backed d) :
    ∃ b', rows.foldlM (insertRow engine) b = .error b' := by
  induction rows generalizing b with
  | nil =>
    obtain ⟨r, hr, -⟩ := h
    cases hr
  | cons r rows ih =>
    rw [List.foldlM_cons, insertRow]
    cases hr : d.stored engine r with
    | none => exact ⟨b, rfl⟩
    | some s =>
      apply ih
      obtain ⟨r', hr', hnone⟩ := h
      rcases List.mem_cons.1 hr' with rfl | hr'
      · cases hr.symm.trans hnone
      · exact ⟨r', hr', hnone⟩

theorem mem_deleteKeys (ks : List JsString) (b : Backed d) :
    s ∈ (ks.foldl (deleteKey engine) b).table.rows ↔
      s ∈ b.table.rows ∧ ∀ k ∈ ks, engine.finds d.keyType k (d.sqlKey s) = false := by
  induction ks generalizing b with
  | nil => simp
  | cons k ks ih =>
    rw [List.foldl_cons, ih, deleteKey, Table.rows_filter, List.mem_filter, Bool.not_eq_true',
      List.forall_mem_cons, and_assoc]

/-- The row passes its checks, and the table takes it. -/
def Admitted (env : Env) (MAX_ROW_BYTES : Nat) (engine : Engine) (d : TableDef) (r : Row) : Prop :=
  validateRow env MAX_ROW_BYTES r = true ∧ (d.stored engine r).isSome

/-- `WHERE key = ?` with the key of `r` finds the row that is stored for `r'`. -/
def Finds (engine : Engine) (d : TableDef) (r r' : Row) : Prop :=
  ∃ s, d.stored engine r' = some s ∧
    engine.finds d.keyType (d.keyText engine r) (d.sqlKey s) = true

/-- Among the rows in question a key finds its own row and no other. -/
def KeysFind (env : Env) (MAX_ROW_BYTES : Nat) (engine : Engine) (d : TableDef)
    (U : Row → Prop) : Prop :=
  ∀ r r', U r → U r' → Admitted env MAX_ROW_BYTES engine d r →
    Admitted env MAX_ROW_BYTES engine d r' →
      (Finds engine d r r' ↔ d.keyText engine r = d.keyText engine r')

/-- Rows stored under one key have one key. -/
def Apart (engine : Engine) (d : TableDef) (rows : List Row) : Prop :=
  ∀ r ∈ rows, ∀ r' ∈ rows, ∀ s s', d.stored engine r = some s → d.stored engine r' = some s' →
    d.sqlKey s = d.sqlKey s' → d.keyText engine r = d.keyText engine r'

theorem KeysFind.apart {U : Row → Prop} (h : KeysFind env MAX_ROW_BYTES engine d U)
    (hrows : ∀ r ∈ rows, U r ∧ Admitted env MAX_ROW_BYTES engine d r) : Apart engine d rows := by
  intro r hr r' hr' s s' hs hs' heq
  obtain ⟨hU, hadmitted⟩ := hrows r hr
  obtain ⟨hU', hadmitted'⟩ := hrows r' hr'
  obtain ⟨s₁, hs₁, hfinds⟩ := (h r r hU hU hadmitted hadmitted).2 rfl
  obtain rfl := Option.some.inj (hs.symm.trans hs₁)
  exact (h r r' hU hU' hadmitted hadmitted').1 ⟨s', hs', heq ▸ hfinds⟩

theorem apart_singleton (r : Row) : Apart engine d [r] := by
  intro r₁ hr₁ r₂ hr₂ _ _ _ _ _
  rw [List.mem_singleton.1 hr₁, List.mem_singleton.1 hr₂]

/-- The table and the row cache are those of the rows. -/
structure Holds (env : Env) (engine : Engine) (b : Backed d) (rows : List Row) : Prop where
  table : ∀ s, s ∈ b.table.rows ↔ ∃ r ∈ rows, d.stored engine r = some s
  cache : ∃ cache, b.rowCache = some cache ∧
    ∀ m, m ∈ cache.rows ↔ ∃ r ∈ rows, serialize env engine d r = m

theorem sortedRows_perm (engine : Engine) (d : TableDef)
    (hvalid : rows.all (validateRow env MAX_ROW_BYTES) = true) :
    ∃ sorted, sortedRows env MAX_ROW_BYTES engine d rows = some sorted ∧ sorted.Perm rows :=
  ⟨_, if_pos hvalid, Sorting.perm_insertionSort (fun r => (d.sortText engine r).map UInt16.toNat) _⟩

theorem exists_unstored (hvalid : rows.all (validateRow env MAX_ROW_BYTES) = true)
    (h : ¬ ∀ r ∈ rows, Admitted env MAX_ROW_BYTES engine d r) :
    ∃ r ∈ rows, d.stored engine r = none := by
  by_contra hall
  apply h
  intro r hr
  refine ⟨List.all_eq_true.1 hvalid r hr, ?_⟩
  exact Option.isSome_iff_ne_none.2 fun heq => hall ⟨r, hr, heq⟩

theorem rewriteTable_error (h : ¬ ∀ r ∈ rows, Admitted env MAX_ROW_BYTES engine d r)
    (b : Backed d) : ∃ b', rewriteTable env MAX_ROW_BYTES engine rows b = .error b' := by
  rw [rewriteTable]
  by_cases hvalid : rows.all (validateRow env MAX_ROW_BYTES) = true
  · obtain ⟨sorted, hsorted, hperm⟩ := sortedRows_perm engine d hvalid
    obtain ⟨r, hr, hnone⟩ := exists_unstored hvalid h
    obtain ⟨b', hb'⟩ := insertRows_error ⟨r, hperm.mem_iff.2 hr, hnone⟩
      ({ b with table := .empty } : Backed d)
    rw [hsorted]
    dsimp only
    rw [hb']
    exact ⟨b', rfl⟩
  · have hnone : sortedRows env MAX_ROW_BYTES engine d rows = none := if_neg hvalid
    rw [hnone]
    exact ⟨b, rfl⟩

theorem admitted_of_rewrite (h : rewriteTable env MAX_ROW_BYTES engine rows b = .ok w) :
    ∀ r ∈ rows, Admitted env MAX_ROW_BYTES engine d r := by
  by_contra hnot
  obtain ⟨b', hb'⟩ := rewriteTable_error hnot b
  cases h.symm.trans hb'

/-- The rows that are inserted into a table without their keys. -/
theorem mapM_of_admitted (h : ∀ r ∈ rows, Admitted env MAX_ROW_BYTES engine d r) :
    ∃ ss, rows.mapM (d.stored engine) = some ss :=
  Option.isSome_iff_exists.1 (List.isSome_mapM.2 fun r hr => (h r hr).2)

/-- A rewrite with rows whose keys stay apart. -/
theorem rewriteTable_ok (hdelta : d.delta = false) (hapart : Apart engine d rows)
    (hrows : ∀ r ∈ rows, Admitted env MAX_ROW_BYTES engine d r)
    (hkeys : (rows.map (d.keyText engine)).Nodup) (b : Backed d) :
    ∃ w, rewriteTable env MAX_ROW_BYTES engine rows b = .ok w ∧ Holds env engine w rows := by
  have hvalid : rows.all (validateRow env MAX_ROW_BYTES) = true :=
    List.all_eq_true.2 fun r hr => (hrows r hr).1
  obtain ⟨sorted, hsorted, hperm⟩ := sortedRows_perm engine d hvalid
  have hin (r : Row) : r ∈ sorted ↔ r ∈ rows := hperm.mem_iff
  obtain ⟨ss, hss⟩ := mapM_of_admitted fun r hr => hrows r ((hin r).1 hr)
  have hsortedKeys : (sorted.map (d.keyText engine)).Nodup := (hperm.map _).nodup_iff.2 hkeys
  have hnodup := List.nodup_map_of_mapM hss hsortedKeys fun r hr r' hr' =>
    hapart r ((hin r).1 hr) r' ((hin r').1 hr')
  rw [rewriteTable, hsorted]
  dsimp only
  rw [insertRows_ok hss]
  refine ⟨_, rfl, fun s => ?_, _, if_neg (by rw [hdelta]; exact Bool.false_ne_true), fun m => ?_⟩
  · rw [Table.mem_foldl_upsert hnodup, List.mem_of_mapM hss]
    simp [hin, Table.empty]
  · rw [Table.rows_ofRows, List.mem_map]
    · simp only [hin]
    · rw [List.map_map]
      exact hsortedKeys

/-- A canonical JSON determines the row. -/
def RowsDiffer (env : Env) (MAX_ROW_BYTES : Nat) (U : Row → Prop) : Prop :=
  ∀ r r', U r → U r' → validateRow env MAX_ROW_BYTES r = true →
    validateRow env MAX_ROW_BYTES r' = true → env.jcs r.json = env.jcs r'.json → r = r'

section
variable {U : Row → Prop} {prev next : List Row} {cache : Table JsString (JsString × JsString) Prod.fst}

/-- The cache knows just the rows that were written. -/
theorem cached_iff (hjcs : RowsDiffer env MAX_ROW_BYTES U)
    (hcache : ∀ m, m ∈ cache.rows ↔ ∃ r ∈ prev, serialize env engine d r = m)
    (hprev : ∀ r ∈ prev, U r ∧ Admitted env MAX_ROW_BYTES engine d r) {r : Row} (hr : U r)
    (hvalid : validateRow env MAX_ROW_BYTES r = true) :
    (cache.get (d.keyText engine r)).map Prod.snd = some (env.jcs r.json) ↔ r ∈ prev := by
  rw [Option.map_eq_some_iff]
  apply Iff.intro
  · rintro ⟨m, hm, heq⟩
    obtain ⟨p, hp, rfl⟩ := (hcache m).1 (Table.get_eq_some_iff.1 hm).1
    obtain ⟨hU, hadmitted⟩ := hprev p hp
    rw [← hjcs p r hU hr hadmitted.1 hvalid heq]
    exact hp
  · intro hin
    refine ⟨serialize env engine d r, ?_, rfl⟩
    exact Table.get_eq_some_iff.2 ⟨(hcache _).2 ⟨r, hin, rfl⟩, rfl⟩

/-- The changes lead from the rows written last to the new ones. -/
theorem leads_diff (hjcs : RowsDiffer env MAX_ROW_BYTES U)
    (hcache : ∀ m, m ∈ cache.rows ↔ ∃ r ∈ prev, serialize env engine d r = m)
    (hprev : ∀ r ∈ prev, U r ∧ Admitted env MAX_ROW_BYTES engine d r)
    (hkeys : (prev.map (d.keyText engine)).Nodup) (hnext : ∀ r ∈ next, U r)
    (hvalid : next.all (validateRow env MAX_ROW_BYTES) = true)
    (hkeys' : (next.map (d.keyText engine)).Nodup) :
    Delta.Leads (Table.ofRows (d.keyText engine) prev) (Table.ofRows (d.keyText engine) next)
      ⟨(Table.ofRows (d.keyText engine) next).rows.filter fun r =>
          decide ((cache.get (d.keyText engine r)).map Prod.snd ≠ some (env.jcs r.json)),
        (cache.rows.map Prod.fst).filter fun k =>
          ((Table.ofRows (d.keyText engine) next).get k).isNone⟩ := by
  apply Delta.Leads.mk
  · intro r
    rw [List.mem_filter, decide_eq_true_eq, Table.rows_ofRows hkeys']
    apply and_congr_right
    intro hr
    rw [Ne, Ne, cached_iff hjcs hcache hprev (hnext r hr) (List.all_eq_true.1 hvalid r hr),
      Table.get_eq_some_iff, Table.rows_ofRows hkeys, and_iff_left rfl]
  · intro k
    rw [List.mem_filter, Option.isNone_iff_eq_none]
    apply and_congr_left
    intro _
    rw [Option.isSome_iff_exists]
    apply Iff.intro
    · intro hk
      obtain ⟨m, hm, rfl⟩ := List.mem_map.1 hk
      obtain ⟨r, hr, rfl⟩ := (hcache m).1 hm
      refine ⟨r, Table.get_eq_some_iff.2 ⟨?_, rfl⟩⟩
      rw [Table.rows_ofRows hkeys]
      exact hr
    · rintro ⟨r, hget⟩
      obtain ⟨hr, rfl⟩ := Table.get_eq_some_iff.1 hget
      rw [Table.rows_ofRows hkeys] at hr
      exact List.mem_map.2 ⟨_, (hcache _).2 ⟨r, hr, rfl⟩, rfl⟩

/-- The inserts and the deletes bring the stored rows along. -/
theorem table_diff (hfind : KeysFind env MAX_ROW_BYTES engine d U)
    (htable : ∀ s, s ∈ b.table.rows ↔ ∃ r ∈ prev, d.stored engine r = some s)
    (hprev : ∀ r ∈ prev, U r ∧ Admitted env MAX_ROW_BYTES engine d r)
    (hkeys : (prev.map (d.keyText engine)).Nodup)
    (hnext : ∀ r ∈ next, U r ∧ Admitted env MAX_ROW_BYTES engine d r)
    (hkeys' : (next.map (d.keyText engine)).Nodup) {changed : List Row} {gone : List JsString}
    (hchanged : ∀ r, r ∈ changed ↔ r ∈ next ∧ r ∉ prev) (hnodup : changed.Nodup)
    (hgone : ∀ k, k ∈ gone ↔
      (∃ p ∈ prev, d.keyText engine p = k) ∧ ∀ n ∈ next, d.keyText engine n ≠ k)
    {ss : List Row} (hss : changed.mapM (d.stored engine) = some ss) (s : Row) :
    s ∈ (gone.foldl (deleteKey engine) { b with table := ss.foldl Table.upsert b.table }).table.rows ↔
      ∃ r ∈ next, d.stored engine r = some s := by
  have hapart := hfind.apart hnext
  have hchangedKeys : (changed.map (d.keyText engine)).Nodup := by
    apply hnodup.map_on
    intro r hr r' hr' heq
    exact List.inj_on_of_nodup_map hkeys' ((hchanged r).1 hr).1 ((hchanged r').1 hr').1 heq
  have hssKeys : (ss.map d.sqlKey).Nodup :=
    List.nodup_map_of_mapM hss hchangedKeys fun r hr r' hr' =>
      hapart r ((hchanged r).1 hr).1 r' ((hchanged r').1 hr').1
  rw [mem_deleteKeys, Table.mem_foldl_upsert hssKeys, List.mem_of_mapM hss, htable]
  apply Iff.intro
  · rintro ⟨⟨r, hr, hs⟩ | ⟨⟨p, hp, hs⟩, hfree⟩, hkept⟩
    · exact ⟨r, ((hchanged r).1 hr).1, hs⟩
    · obtain ⟨hU, hadmitted⟩ := hprev p hp
      -- its key is still there, since the row would have been found
      have hstays : ∃ n ∈ next, d.keyText engine n = d.keyText engine p := by
        by_contra hnone
        have hin : d.keyText engine p ∈ gone :=
          (hgone _).2 ⟨⟨p, hp, rfl⟩, fun n hn heq => hnone ⟨n, hn, heq⟩⟩
        obtain ⟨s', hs', hfinds⟩ := (hfind p p hU hU hadmitted hadmitted).2 rfl
        obtain rfl := Option.some.inj (hs.symm.trans hs')
        exact Bool.false_ne_true ((hkept _ hin).symm.trans hfinds)
      obtain ⟨n, hn, hkey⟩ := hstays
      by_cases hold : n ∈ prev
      · rw [List.inj_on_of_nodup_map hkeys hold hp hkey] at hn
        exact ⟨p, hn, hs⟩
      · -- and the row that has it now would have taken its place
        obtain ⟨s', hs'⟩ := Option.isSome_iff_exists.1 (hnext n hn).2.2
        exfalso
        apply hfree s' ((List.mem_of_mapM hss).2 ⟨n, (hchanged n).2 ⟨hn, hold⟩, hs'⟩)
        obtain ⟨c, hc, hsql⟩ := TableDef.sqlKey_stored hs
        obtain ⟨c', hc', hsql'⟩ := TableDef.sqlKey_stored hs'
        rw [hkey] at hc'
        rw [hsql, hsql', Option.some.inj (hc.symm.trans hc')]
  · rintro ⟨r, hr, hs⟩
    apply And.intro
    · by_cases hold : r ∈ prev
      · refine .inr ⟨⟨r, hold, hs⟩, fun s' hs' heq => ?_⟩
        obtain ⟨r', hr', hs'⟩ := (List.mem_of_mapM hss).1 hs'
        obtain ⟨hr', hnew⟩ := (hchanged r').1 hr'
        have hkey := hapart r hr r' hr' s s' hs hs' heq
        exact hnew (List.inj_on_of_nodup_map hkeys' hr hr' hkey ▸ hold)
      · exact .inl ⟨r, (hchanged r).2 ⟨hr, hold⟩, hs⟩
    · intro k hk
      obtain ⟨⟨p, hp, rfl⟩, hnone⟩ := (hgone k).1 hk
      apply Bool.eq_false_iff.2
      intro hfinds
      apply hnone r hr
      exact ((hfind p r (hprev p hp).1 (hnext r hr).1 (hprev p hp).2 (hnext r hr).2).1
        ⟨s, hs, hfinds⟩).symm

theorem diffSyncTable_ok (hfind : KeysFind env MAX_ROW_BYTES engine d U)
    (hjcs : RowsDiffer env MAX_ROW_BYTES U) (hb : Holds env engine b prev)
    (hprev : ∀ r ∈ prev, U r ∧ Admitted env MAX_ROW_BYTES engine d r)
    (hkeys : (prev.map (d.keyText engine)).Nodup)
    (hnext : ∀ r ∈ next, U r ∧ Admitted env MAX_ROW_BYTES engine d r)
    (hkeys' : (next.map (d.keyText engine)).Nodup) :
    ∃ w changes, diffSyncTable env MAX_ROW_BYTES engine next b = .ok (w, changes) ∧
      Holds env engine w next ∧
      Delta.Leads (Table.ofRows (d.keyText engine) prev) (Table.ofRows (d.keyText engine) next)
        changes := by
  obtain ⟨cache, hsome, hcache⟩ := hb.cache
  have hvalid : next.all (validateRow env MAX_ROW_BYTES) = true :=
    List.all_eq_true.2 fun r hr => (hnext r hr).2.1
  have hleads := leads_diff hjcs hcache hprev hkeys (fun r hr => (hnext r hr).1) hvalid hkeys'
  have hrows := Table.rows_ofRows hkeys'
  have hrows₀ := Table.rows_ofRows hkeys
  rw [diffSyncTable, hsome]
  dsimp only
  rw [if_pos hvalid]
  have hnodup := (hrows.symm ▸ hkeys'.of_map :
    (Table.ofRows (d.keyText engine) next).rows.Nodup).filter fun r =>
      decide ((cache.get (d.keyText engine r)).map Prod.snd ≠ some (env.jcs r.json))
  generalize ((Table.ofRows (d.keyText engine) next).rows.filter fun r =>
    decide ((cache.get (d.keyText engine r)).map Prod.snd ≠ some (env.jcs r.json))) = changed
    at hleads hnodup ⊢
  generalize ((cache.rows.map Prod.fst).filter fun k =>
    ((Table.ofRows (d.keyText engine) next).get k).isNone) = gone at hleads ⊢
  have hchanged (r : Row) : r ∈ changed ↔ r ∈ next ∧ r ∉ prev := by
    rw [hleads.upserts, hrows, Ne, Table.get_eq_some_iff, hrows₀, and_iff_left rfl]
  have hgone (k : JsString) : k ∈ gone ↔
      (∃ p ∈ prev, d.keyText engine p = k) ∧ ∀ n ∈ next, d.keyText engine n ≠ k := by
    rw [hleads.deletes, Option.isSome_iff_exists, Table.get_eq_none_iff, hrows]
    simp only [Table.get_eq_some_iff, hrows₀]
  obtain ⟨ss, hss⟩ := mapM_of_admitted fun r hr => (hnext r ((hchanged r).1 hr).1).2
  rw [insertRows_ok hss]
  refine ⟨_, _, rfl, ⟨fun s => ?_, _, rfl, fun m => ?_⟩, hleads⟩
  · exact table_diff hfind hb.table hprev hkeys hnext hkeys' hchanged hnodup hgone hss s
  · rw [hrows, Table.rows_ofRows, List.mem_map]
    rw [List.map_map]
    exact hkeys'

theorem diffSyncTable_error (hjcs : RowsDiffer env MAX_ROW_BYTES U) (hb : Holds env engine b prev)
    (hprev : ∀ r ∈ prev, U r ∧ Admitted env MAX_ROW_BYTES engine d r) (hnext : ∀ r ∈ next, U r)
    (hkeys' : (next.map (d.keyText engine)).Nodup)
    (hnot : ¬ ∀ r ∈ next, Admitted env MAX_ROW_BYTES engine d r) :
    ∃ w, diffSyncTable env MAX_ROW_BYTES engine next b = .error w := by
  obtain ⟨cache, hsome, hcache⟩ := hb.cache
  rw [diffSyncTable, hsome]
  dsimp only
  by_cases hvalid : next.all (validateRow env MAX_ROW_BYTES) = true
  · obtain ⟨r, hr, hnone⟩ := exists_unstored hvalid hnot
    have hchanged : r ∈ (Table.ofRows (d.keyText engine) next).rows.filter fun r =>
        decide ((cache.get (d.keyText engine r)).map Prod.snd ≠ some (env.jcs r.json)) := by
      rw [List.mem_filter, Table.rows_ofRows hkeys', decide_eq_true_eq, Ne,
        cached_iff hjcs hcache hprev (hnext r hr) (List.all_eq_true.1 hvalid r hr)]
      refine ⟨hr, fun hold => ?_⟩
      have hstored := (hprev r hold).2.2
      rw [hnone] at hstored
      cases hstored
    obtain ⟨w, hw⟩ := insertRows_error ⟨r, hchanged, hnone⟩ b
    rw [if_pos hvalid, hw]
    exact ⟨w, rfl⟩
  · rw [if_neg hvalid]
    exact ⟨b, rfl⟩

end

/-- The same rows in the table, and in the cache. -/
def Alike (b w : Backed d) : Prop :=
  (∀ s, s ∈ b.table.rows ↔ s ∈ w.table.rows) ∧
    ∃ cache cache', b.rowCache = some cache ∧ w.rowCache = some cache' ∧
      ∀ m, m ∈ cache.rows ↔ m ∈ cache'.rows

theorem Holds.of_alike (h : Holds env engine w rows) (hb : Alike b w) : Holds env engine b rows := by
  obtain ⟨htable, cache, cache', hcache, hcache', hsame⟩ := hb
  obtain ⟨c, hc, hrows⟩ := h.cache
  obtain rfl := Option.some.inj (hcache'.symm.trans hc)
  exact ⟨fun s => (htable s).trans (h.table s), cache, hcache, fun m => (hsame m).trans (hrows m)⟩

theorem Holds.alike (h : Holds env engine b rows) (h' : Holds env engine w rows) : Alike b w := by
  obtain ⟨c, hc, hrows⟩ := h.cache
  obtain ⟨c', hc', hrows'⟩ := h'.cache
  exact ⟨fun s => (h.table s).trans (h'.table s).symm, c, c', hc, hc',
    fun m => (hrows m).trans (hrows' m).symm⟩

/-- From a table that is a rewrite of `prev`: the writes of a batch come to a rewrite of `next`, or
both fail; and the changes lead from the one row map to the other, naming only keys that changed. -/
def Syncs (env : Env) (MAX_ROW_BYTES : Nat) (engine : Engine) (d : TableDef)
    (prev next : List Row) : Prop :=
  ∀ b₀ w b : Backed d, rewriteTable env MAX_ROW_BYTES engine prev b₀ = .ok w → Alike b w →
    match rewriteTable env MAX_ROW_BYTES engine next b,
      diffSyncTable env MAX_ROW_BYTES engine next b with
    | .ok w', .ok (b', changes) =>
      Alike b' w' ∧
      (∀ k, (changes.apply (.ofRows (d.keyText engine) prev)).get k =
        (Table.ofRows (d.keyText engine) next).get k) ∧
      ∀ k, Delta.Sets (d.keyText engine) changes k ∨ k ∈ changes.deletes →
        (Table.ofRows (d.keyText engine) prev).get k ≠ (Table.ofRows (d.keyText engine) next).get k
    | .error _, .error _ => True
    | _, _ => False

theorem syncs_of_keysFind (hdelta : d.delta = false) {U : Row → Prop}
    (hfind : KeysFind env MAX_ROW_BYTES engine d U) (hjcs : RowsDiffer env MAX_ROW_BYTES U)
    {prev next : List Row} (hprev : ∀ r ∈ prev, U r) (hnext : ∀ r ∈ next, U r)
    (hkeys : (prev.map (d.keyText engine)).Nodup) (hkeys' : (next.map (d.keyText engine)).Nodup) :
    Syncs env MAX_ROW_BYTES engine d prev next := by
  intro b₀ w b hw hb
  have hadmitted := admitted_of_rewrite hw
  have hprev : ∀ r ∈ prev, U r ∧ Admitted env MAX_ROW_BYTES engine d r :=
    fun r hr => ⟨hprev r hr, hadmitted r hr⟩
  obtain ⟨w', hw', hholds⟩ := rewriteTable_ok hdelta (hfind.apart hprev) hadmitted hkeys b₀
  obtain rfl := Except.ok.inj (hw.symm.trans hw')
  have hb := hholds.of_alike hb
  by_cases hall : ∀ r ∈ next, Admitted env MAX_ROW_BYTES engine d r
  · have hnext : ∀ r ∈ next, U r ∧ Admitted env MAX_ROW_BYTES engine d r :=
      fun r hr => ⟨hnext r hr, hall r hr⟩
    obtain ⟨w', hw', hholds'⟩ := rewriteTable_ok hdelta (hfind.apart hnext) hall hkeys' b
    obtain ⟨b', changes, hb', hsynced, hleads⟩ :=
      diffSyncTable_ok hfind hjcs hb hprev hkeys hnext hkeys'
    rw [hw', hb']
    exact ⟨hsynced.alike hholds', hleads.get_apply, hleads.changed⟩
  · obtain ⟨w', hw'⟩ := rewriteTable_error hall b
    obtain ⟨b', hb'⟩ := diffSyncTable_error hjcs hb hprev hnext hkeys' hall
    rw [hw', hb']
    exact trivial

/-- What `diffSyncTable` does to a table, whatever the keys. -/
theorem diffSyncTable_spec {next : List Row} {cache : Table JsString (JsString × JsString) Prod.fst}
    (hcache : b.rowCache = some cache)
    (h : diffSyncTable env MAX_ROW_BYTES engine next b = .ok (w, changes)) :
    ∃ b', changes.upserts.foldlM (insertRow engine) b = .ok b' ∧
      (∀ r ∈ changes.upserts, r ∈ (Table.ofRows (d.keyText engine) next).rows) ∧
      (∀ k, k ∈ changes.deletes ↔ k ∈ cache.rows.map Prod.fst ∧
        (Table.ofRows (d.keyText engine) next).get k = none) ∧
      ∀ s, s ∈ w.table.rows ↔
        s ∈ b'.table.rows ∧ ∀ k ∈ changes.deletes, engine.finds d.keyType k (d.sqlKey s) = false := by
  rw [diffSyncTable, hcache] at h
  dsimp only at h
  split at h
  next =>
    split at h
    next => cases h
    next b' hb' =>
      obtain ⟨rfl, rfl⟩ := Prod.mk.inj (Except.ok.inj h)
      refine ⟨b', hb', fun r hr => (List.mem_filter.1 hr).1, fun k => ?_, fun s => ?_⟩
      · rw [List.mem_filter, Option.isNone_iff_eq_none]
      · exact mem_deleteKeys _ b'
  next => cases h

theorem keysFind_of_syncs (hdelta : d.delta = false) {U : Row → Prop}
    (h : ∀ prev next : List Row, (∀ r ∈ prev, U r) → (∀ r ∈ next, U r) →
      (prev.map (d.keyText engine)).Nodup → (next.map (d.keyText engine)).Nodup →
        Syncs env MAX_ROW_BYTES engine d prev next) :
    KeysFind env MAX_ROW_BYTES engine d U := by
  have hone {r : Row} (hr : Admitted env MAX_ROW_BYTES engine d r) (b : Backed d) :
      ∃ w, rewriteTable env MAX_ROW_BYTES engine [r] b = .ok w ∧ Holds env engine w [r] :=
    rewriteTable_ok hdelta (apart_singleton r) (fun _ h => List.mem_singleton.1 h ▸ hr)
      (List.nodup_singleton _) b
  intro r r' hU hU' hr hr'
  apply Iff.intro
  · rintro ⟨s', hs', hfinds⟩
    by_contra hne
    obtain ⟨w, hw, hholds⟩ := hone hr ⟨.empty, none, 0, 0⟩
    obtain ⟨w', hw', hholds'⟩ := hone hr' w
    obtain ⟨cache, hcache, hrows⟩ := hholds.cache
    have hsyncs := h [r] [r'] (fun _ h => List.mem_singleton.1 h ▸ hU)
      (fun _ h => List.mem_singleton.1 h ▸ hU') (List.nodup_singleton _) (List.nodup_singleton _)
      _ w w hw (hholds.alike hholds)
    rw [hw'] at hsyncs
    cases hdiff : diffSyncTable env MAX_ROW_BYTES engine [r'] w with
    | error b' =>
      rw [hdiff] at hsyncs
      exact hsyncs
    | ok out =>
      obtain ⟨b', changes⟩ := out
      rw [hdiff] at hsyncs
      obtain ⟨b₁, -, -, hdeletes, htable⟩ := diffSyncTable_spec hcache hdiff
      -- the row of `r'` is there after a rewrite, and the delete of the key of `r` takes it away
      have hin : s' ∈ b'.table.rows :=
        (hsyncs.1.1 s').2 ((hholds'.table s').2 ⟨r', List.mem_singleton_self _, hs'⟩)
      have hgone : d.keyText engine r ∈ changes.deletes := by
        refine (hdeletes _).2 ⟨?_, ?_⟩
        · exact List.mem_map.2 ⟨_, (hrows _).2 ⟨r, List.mem_singleton_self _, rfl⟩, rfl⟩
        · have hnodup : ([r'].map (d.keyText engine)).Nodup := List.nodup_singleton _
          rw [Table.get_eq_none_iff, Table.rows_ofRows hnodup]
          intro n hn heq
          exact hne (List.mem_singleton.1 hn ▸ heq).symm
      exact Bool.false_ne_true ((((htable s').1 hin).2 _ hgone).symm.trans hfinds)
  · intro heq
    by_contra hnot
    obtain ⟨s', hs'⟩ := Option.isSome_iff_exists.1 hr'.2
    obtain ⟨w, hw, hholds⟩ := hone hr' ⟨.empty, none, 0, 0⟩
    have hapart : Apart engine d [] := fun _ h => absurd h List.not_mem_nil
    have hadmitted : ∀ r ∈ ([] : List Row), Admitted env MAX_ROW_BYTES engine d r :=
      fun _ h => absurd h List.not_mem_nil
    obtain ⟨w', hw', hholds'⟩ := rewriteTable_ok hdelta hapart hadmitted List.nodup_nil w
    obtain ⟨cache, hcache, hrows⟩ := hholds.cache
    have hsyncs := h [r'] [] (fun _ h => List.mem_singleton.1 h ▸ hU')
      (fun _ h => absurd h List.not_mem_nil)
      (List.nodup_singleton _) List.nodup_nil _ w w hw (hholds.alike hholds)
    rw [hw'] at hsyncs
    cases hdiff : diffSyncTable env MAX_ROW_BYTES engine [] w with
    | error b' =>
      rw [hdiff] at hsyncs
      exact hsyncs
    | ok out =>
      obtain ⟨b', changes⟩ := out
      rw [hdiff] at hsyncs
      obtain ⟨b₁, hb₁, hupserts, hdeletes, htable⟩ := diffSyncTable_spec hcache hdiff
      -- the delete of the key does not find the row, which no row of the state has
      have hnone : changes.upserts = [] := List.eq_nil_iff_forall_not_mem.2 fun n hn =>
        absurd (hupserts n hn) List.not_mem_nil
      rw [hnone] at hb₁
      obtain rfl := Except.ok.inj hb₁
      have hin : s' ∈ b'.table.rows := by
        refine (htable s').2 ⟨(hholds.table s').2 ⟨r', List.mem_singleton_self _, hs'⟩, ?_⟩
        intro k hk
        obtain ⟨m, hm, rfl⟩ := List.mem_map.1 ((hdeletes k).1 hk).1
        obtain ⟨n, hn, rfl⟩ := (hrows m).1 hm
        obtain rfl := List.mem_singleton.1 hn
        apply Bool.eq_false_iff.2
        intro hfinds
        exact hnot ⟨s', hs', heq.symm ▸ hfinds⟩
      obtain ⟨n, hn, -⟩ := (hholds'.table s').1 ((hsyncs.1.1 s').1 hin)
      cases hn

end Backed

open Backed in
/-- On the rows that a view may produce, and canonical JSON that tells them apart: every batch of a
view without a delta function leaves what a rewrite leaves, and says what changed, just when the
key of each row finds its own row in the table and no other. -/
theorem diffSync_iff (hdelta : d.delta = false) (U : Row → Prop)
    (hjcs : RowsDiffer env MAX_ROW_BYTES U) :
    (∀ prev next : List Row, (∀ r ∈ prev, U r) → (∀ r ∈ next, U r) →
      (prev.map (d.keyText engine)).Nodup → (next.map (d.keyText engine)).Nodup →
        Syncs env MAX_ROW_BYTES engine d prev next) ↔
      KeysFind env MAX_ROW_BYTES engine d U :=
  ⟨keysFind_of_syncs hdelta, fun hfind _ _ hprev hnext hkeys hkeys' =>
    syncs_of_keysFind hdelta hfind hjcs hprev hnext hkeys hkeys'⟩

open Backed in
theorem diffSync_iff_of_words :
    Syncs (hostEnv "a") 1000 plainEngine (countTable .TEXT false)
      [countRow (.str (js "a")) 1, countRow (.str (js "b")) 2]
      [countRow (.str (js "b")) 3, countRow (.str (js "c")) 4] := by
  let U (r : Row) : Prop := r ∈ [countRow (.str (js "a")) 1, countRow (.str (js "b")) 2,
    countRow (.str (js "b")) 3, countRow (.str (js "c")) 4]
  have hjcs : RowsDiffer (hostEnv "a") 1000 U := by
    have hrows : ∀ r ∈ [countRow (.str (js "a")) 1, countRow (.str (js "b")) 2,
        countRow (.str (js "b")) 3, countRow (.str (js "c")) 4],
      ∀ r' ∈ [countRow (.str (js "a")) 1, countRow (.str (js "b")) 2,
        countRow (.str (js "b")) 3, countRow (.str (js "c")) 4],
        (hostEnv "a").jcs r.json = (hostEnv "a").jcs r'.json → r = r' := by decide +kernel
    exact fun r r' hr hr' _ _ heq => hrows r hr r' hr' heq
  have hfind : KeysFind (hostEnv "a") 1000 plainEngine (countTable .TEXT false) U := by
    have hrows : ∀ r ∈ [countRow (.str (js "a")) 1, countRow (.str (js "b")) 2,
        countRow (.str (js "b")) 3, countRow (.str (js "c")) 4],
      ∀ r' ∈ [countRow (.str (js "a")) 1, countRow (.str (js "b")) 2,
        countRow (.str (js "b")) 3, countRow (.str (js "c")) 4],
        (∃ s ∈ (countTable .TEXT false).stored plainEngine r', plainEngine.finds .TEXT
          ((countTable .TEXT false).keyText plainEngine r) ((countTable .TEXT false).sqlKey s)) ↔
        (countTable .TEXT false).keyText plainEngine r =
          (countTable .TEXT false).keyText plainEngine r' := by decide +kernel
    exact fun r r' hr hr' _ _ => hrows r hr r' hr'
  apply (diffSync_iff rfl U hjcs).2 hfind
  · decide +kernel
  · decide +kernel
  · decide +kernel
  · decide +kernel

open Backed in
/-- After a batch the table is empty where a rewrite leaves rows. -/
def emptied (engine : Engine) (d : TableDef) (next : List Row) (b : Backed d) : Bool :=
  match rewriteTable (hostEnv "a") 1000 engine next b, diffSyncTable (hostEnv "a") 1000 engine next b with
  | .ok w, .ok (b', _) => !w.table.rows.isEmpty && b'.table.rows.isEmpty
  | _, _ => false

open Backed in
/-- A key comes back in another spelling of its number: the new row is inserted in the place of the
old one, and then deleted under the old spelling. -/
theorem respelled_row_lost : ∃ prev next : List Row,
    (prev.map ((countTable .INTEGER false).keyText plainEngine)).Nodup ∧
    (next.map ((countTable .INTEGER false).keyText plainEngine)).Nodup ∧
    ¬ Syncs (hostEnv "a") 1000 plainEngine (countTable .INTEGER false) prev next := by
  have hemptied : (match rewriteTable (hostEnv "a") 1000 plainEngine [countRow (.str (js "1")) 1]
      (⟨.empty, none, 0, 0⟩ : Backed (countTable .INTEGER false)) with
      | .ok w => w.rowCache.isSome && emptied plainEngine _ [countRow (.str (js "01")) 1] w
      | .error _ => false) = true := by decide +kernel
  refine ⟨[countRow (.str (js "1")) 1], [countRow (.str (js "01")) 1], by decide +kernel,
    by decide +kernel, fun h => ?_⟩
  split at hemptied
  next w hw =>
    obtain ⟨hcache, hemptied⟩ := Bool.and_eq_true_iff.1 hemptied
    obtain ⟨cache, hcache⟩ := Option.isSome_iff_exists.1 hcache
    have hsyncs := h _ w w hw ⟨fun _ => Iff.rfl, cache, cache, hcache, hcache, fun _ => Iff.rfl⟩
    rw [emptied] at hemptied
    split at hemptied
    next w' b' changes hw' hb' =>
      rw [hw', hb'] at hsyncs
      obtain ⟨hrows, hnone⟩ := Bool.and_eq_true_iff.1 hemptied
      rw [Bool.not_eq_true', List.isEmpty_eq_false_iff_exists_mem] at hrows
      obtain ⟨s, hs⟩ := hrows
      have hin := (hsyncs.1.1 s).2 hs
      rw [List.isEmpty_iff.1 hnone] at hin
      cases hin
    next => cases hemptied
  next => cases hemptied

end Seqscribe
