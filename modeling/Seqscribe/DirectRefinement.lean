import Seqscribe.RetentionRefinement

namespace Seqscribe
set_option autoImplicit true

variable {env : Env} {t : Txn} {v : View}

theorem getCert_runs (ht : Ready env t) {P : Option FinalityCert → Txn → Prop}
    {F : SeqscribeError → Txn → Prop}
    (hP : ∀ t', Ready env t' → t'.view env = t.view env → t'.core.db = t.core.db →
      P (t.core.db.sqFinality.get T) t')
    (hF : ∀ e, F e t) : Runs (getCert T) t P F := by
  refine .bind (.get ?_)
  cases hc : t.core.certs T with
  | some c =>
    rw [ht.coherent.certs T c hc]
    exact .pure (hP t ht rfl rfl)
  | none =>
    refine .bind (query_runs (fun fault => .bind (.modify (.pure (hP _ ⟨?_⟩ rfl rfl)))) hF)
    obtain ⟨h₁, h₂, h₃, h₄, h₅⟩ := ht.coherent
    refine ⟨h₁, ?_, h₃, h₄, h₅⟩
    intro T' c hc'
    change Function.update t.core.certs T (some (t.core.db.sqFinality.get T)) T' = some c at hc'
    by_cases hT : T' = T
    · subst hT
      rw [Function.update_self] at hc'
      exact (Option.some.inj hc').symm
    · rw [Function.update_of_ne hT] at hc'
      exact h₂ T' c hc'

/-- A transaction that has only written to its database since `t`. -/
structure OnlyDb (t t' : Txn) : Prop where
  core : t'.core = { t.core with db := t'.core.db }
  settle : t'.settle = t.settle
  applied : t'.applied = t.applied
  anomalies : t'.anomalies = t.anomalies
  ambient : t'.ambient = t.ambient

theorem OnlyDb.write {t t' : Txn} (h : OnlyDb t t') (db : Db) (fault : Option Nat) :
    OnlyDb t { t' with core.db := db, fault := fault } := by
  refine ⟨?_, h.settle, h.applied, h.anomalies, h.ambient⟩
  dsimp only
  rw [h.core]

/-- A transaction whose body only writes to the database: a failure leaves what was there. -/
theorem Thins.transaction {body : LogM α} (h : Thins env v t)
    (hbody : Runs body t Q fun _ t' => OnlyDb t t') :
    Runs (transaction body) t Q fun _ t' => Thins env v t' := by
  unfold Runs Seqscribe.transaction at *
  cases hb : body t with
  | ok a t' =>
    rw [hb] at hbody
    exact hbody
  | error e t' =>
    rw [hb] at hbody
    dsimp only at hbody ⊢
    have hcore : { t'.core with db := t.core.db } = t.core := by
      rw [hbody.core]
    rw [hcore]
    refine h.congr ⟨h.ready.coherent⟩ ?_
    unfold Txn.view
    simp only [hbody.settle, hbody.applied, hbody.anomalies, hbody.ambient]

/-- A row that is archived and deleted has been moved. -/
theorem Thins.archive_row (h : Thins env v t) {e : LogEntry}
    (hrow : (v.streams e.stream).rows e.seq = some e) (now : Nat) (fault : Option Nat) :
    Thins env v { t with
      core.db.sqArchive := t.core.db.sqArchive.insertIgnore ⟨e, now⟩
      fault := fault } := by
  have hget := fun k : EntryId => t.core.db.sqArchive.get_insertIgnore (⟨e, now⟩ : ArchiveRow) k
  refine ⟨⟨(h.ready.of_db (fun db => { db with
    sqArchive := db.sqArchive.insertIgnore ⟨e, now⟩ }) rfl rfl rfl).coherent⟩, ?_⟩
  refine ⟨fun k => ?_, h.thinned.certs, h.thinned.directives, h.thinned.settle, h.thinned.applied,
    h.thinned.hlcState, h.thinned.now⟩
  have hk := h.thinned.streams k
  refine ⟨hk.head, hk.listed, hk.pending, hk.quarantine, hk.recovery, hk.rows, fun s => ?_,
    hk.floor⟩
  have hs := hk.archive s
  change (t.core.db.sqArchive.get (k.1, k.2, s)).map ArchiveRow.entry = _ ∨ _ ∧
    (t.core.db.sqArchive.get (k.1, k.2, s)).map ArchiveRow.entry = _ at hs
  change ((t.core.db.sqArchive.insertIgnore ⟨e, now⟩).get (k.1, k.2, s)).map _ = _ ∨ _ ∧
    ((t.core.db.sqArchive.insertIgnore ⟨e, now⟩).get (k.1, k.2, s)).map _ = _
  rw [hget]
  by_cases hnew : e.id = (k.1, k.2, s) ∧ t.core.db.sqArchive.get (k.1, k.2, s) = none
  · rw [if_pos hnew]
    obtain ⟨hid, hnone⟩ := hnew
    have hstream : e.stream = k := Prod.ext (congrArg (fun id : EntryId => id.1) hid)
      (congrArg (fun id : EntryId => id.2.1) hid)
    obtain rfl : e.seq = s := congrArg (fun id : EntryId => id.2.2) hid
    subst hstream
    rw [hnone] at hs
    rcases hs with hs | ⟨_, hs⟩
    · exact .inr ⟨hs.symm, hrow.symm⟩
    · rw [hrow] at hs
      cases hs
  · rw [if_neg hnew]
    exact hs

theorem Thins.archiveBatches (h : Thins env v t) :
    Ensures (Store.archiveBatches T w maxSeq maxRowid now fuel total) t (Thins env v) := by
  induction fuel generalizing t total with
  | zero => exact h
  | succ fuel ih =>
    refine .bind (Runs.mono (h.transaction (Q := fun _ => Thins env v) ?_) (fun moved t' h' => ?_)
      fun _ _ h' => h')
    · have h₀ : OnlyDb t t := ⟨rfl, rfl, rfl, rfl, rfl⟩
      refine .bind (query_runs (fun fault => ?_) fun _ => h₀)
      generalize hrows : List.take Store.BATCH _ = rows
      have hheld : ∀ r ∈ rows, (v.streams r.entry.stream).rows r.entry.seq = some r.entry := by
        intro r hr
        rw [← hrows] at hr
        have hmem := (Table.mem_selectBy.1 (List.mem_of_mem_take hr)).1
        refine (h.thinned.streams r.entry.stream).row ?_
        exact congrArg (Option.map LogRow.entry) (log_get_of_mem hmem)
      refine .bind (Runs.mono (Runs.forM (E := fun _ t' => OnlyDb t t')
        (fun rest t' => (∀ r ∈ rest, r ∈ rows) ∧ Thins env v t' ∧ OnlyDb t t')
        ⟨fun _ hr => hr, h.refault fault, h₀.write t.core.db fault⟩ ?_)
        (fun _ t' h' => .pure h'.2.1) fun _ _ h' => h')
      rintro r rest t' ⟨hsub, h', honly⟩
      refine .bind (execute_runs (fun fault => ?_) fun _ => honly)
      have hr := hheld r (hsub r List.mem_cons_self)
      refine execute_runs (fun fault' => ⟨fun r' hr' => hsub r' (List.mem_cons_of_mem _ hr'), ?_, ?_⟩)
        fun _ => honly.write _ _
      · exact (h'.archive_row hr now fault).with_log (fun r' => !decide (r'.rowid = r.rowid)) fault'
      · exact (honly.write _ fault).write _ fault'
    · split
      · exact h'
      · exact ih h'

theorem Thins.archiveCovered (h : Thins env v t) :
    Ensures (Store.archiveCovered T w maxSeq maxRowid now) t (Thins env v) := by
  refine .bind (.get (.bind (Runs.mono h.archiveBatches (fun total t' h' => ?_) fun _ _ h' => h')))
  split
  · refine .bind (.modify (h'.congr ⟨?_⟩ rfl))
    obtain ⟨h₁, h₂, h₃, h₄, h₅⟩ := h'.ready.coherent
    exact ⟨h₁, h₂, h₃, h₄, h₅⟩
  · exact h'

/-- The archive pass thins streams, wherever it stops. -/
theorem Thins.archiveNow (h : Thins env v t) : Ensures (archiveNow env T) t (Thins env v) := by
  refine .bind (getCert_runs h.ready (fun t₁ ht₁ hv₁ _ => ?_) fun _ => h)
  replace h := h.congr ht₁ hv₁
  cases t.core.db.sqFinality.get T with
  | none => exact h
  | some cert =>
    have hclock : Runs clock t₁ (fun _ t' => Thins env v t') fun _ t' => Thins env v t' := h
    refine .bind (Runs.mono hclock (fun now t h => ?_) fun _ _ h => h)
    refine .bind (query_runs (fun fault => ?_) fun _ => h)
    refine .bind (Runs.mono (Ensures.forM (h.refault fault) fun c _ t h => ?_) (fun _ t h => ?_)
      fun _ _ h => h)
    · refine .bind (execute_runs (fun fault => ?_) fun _ => h)
      exact ⟨⟨(h.ready.of_db (fun db => { db with
        sqCursors := db.sqCursors.delete (c.consumer, T) }) rfl rfl rfl).coherent⟩,
        h.thinned.streams, h.thinned.certs, h.thinned.directives, h.thinned.settle,
        h.thinned.applied, h.thinned.hlcState, h.thinned.now⟩
    · refine Ensures.forM h fun c _ t h => ?_
      split
      · exact .bind (Runs.mono h.archiveCovered (fun _ _ h => h) fun _ _ h => h)
      · exact h

theorem Shows.empty : Shows .empty fun _ => none := by
  constructor
  · intro k v h
    cases h
  · intro k head h
    cases h

/-- The vectors built from a list of heads show those heads. -/
theorem Shows.foldl {vec : HaveVectors} (h : Shows vec heads) (rows : List WriterRow)
    (floor : Int) :
    Shows (rows.foldl (fun out w => out.upsert (applyHeadToVec (topicVecOf out w.topic) w floor)) vec)
      (rows.foldl (fun heads w k => if w.stream = k then some w else heads k) heads) := by
  induction rows generalizing vec heads with
  | nil => exact h
  | cons w rows ih => exact ih (h.patch w floor)

theorem foldl_heads_of_not_mem {heads : StreamId → Option WriterRow} {rows : List WriterRow}
    (hk : k ∉ rows.map WriterRow.stream) :
    rows.foldl (fun heads w k => if w.stream = k then some w else heads k) heads k = heads k := by
  induction rows generalizing heads with
  | nil => rfl
  | cons w rows ih =>
    rw [List.map_cons, List.mem_cons, not_or] at hk
    rw [List.foldl_cons, ih hk.2, if_neg (Ne.symm hk.1)]

theorem foldl_heads_eq_get (T : Table StreamId WriterRow WriterRow.stream) :
    T.rows.foldl (fun heads w k => if w.stream = k then some w else heads k) (fun _ => none) =
      T.get := by
  have hfold : ∀ (rows : List WriterRow) (heads : StreamId → Option WriterRow),
      (rows.map WriterRow.stream).Nodup → ∀ r ∈ rows,
      rows.foldl (fun heads w k => if w.stream = k then some w else heads k) heads r.stream =
        some r := by
    intro rows
    induction rows with
    | nil => simp
    | cons w rows ih =>
      intro heads hnodup r hr
      rw [List.map_cons, List.nodup_cons] at hnodup
      rw [List.foldl_cons]
      rcases List.mem_cons.1 hr with rfl | hr
      · rw [foldl_heads_of_not_mem hnodup.1, if_pos rfl]
      · exact ih _ hnodup.2 r hr
  funext k
  cases hg : T.get k with
  | none =>
    rw [foldl_heads_of_not_mem]
    rw [List.mem_map]
    rintro ⟨r, hr, hk⟩
    exact Table.get_eq_none_iff.1 hg r hr hk
  | some r =>
    obtain ⟨hr, rfl⟩ := Table.get_eq_some_iff.1 hg
    exact hfold _ _ T.nodup r hr

theorem Shows.fgen (h : Shows vec heads) (T : Topic) (fgen : Option Nat) :
    Shows (vec.upsert { topicVecOf vec T with fgen := fgen }) heads := by
  constructor
  · intro k v hv
    rw [writerVec_fgen] at hv
    exact h.exposed k v hv
  · intro k head hk
    rw [writerVec_fgen]
    exact h.covered k head hk

/-- The HAVE vectors show the heads, and reading them changes no view. -/
theorem vectors_runs (ht : Ready env t) :
    Runs (vectors env) t (fun vec t' => Ready env t' ∧ t'.view env = t.view env ∧
      Shows vec t.core.db.sqWriters.get) fun _ t' => Ready env t' ∧ t'.view env = t.view env := by
  refine .bind (.get ?_)
  cases hvec : t.core.vectorsCache with
  | some vec => exact ⟨ht, rfl, ht.coherent.shows hvec⟩
  | none =>
    have hfloor : ∀ {P : Int → Txn → Prop} {F : SeqscribeError → Txn → Prop},
        (∀ floor, P floor t) → Runs (tombstoneFloor env) t P F := fun h => h _
    refine .bind (hfloor fun floor => .bind (query_runs (fun fault => ?_) fun _ => ⟨ht, rfl⟩))
    have hshows := Shows.empty.foldl t.core.db.sqWriters.rows floor
    rw [foldl_heads_eq_get] at hshows
    refine .bind (.get (.bind (Runs.mono (Runs.foldlM
      (E := fun _ t' => Ready env t' ∧ t'.view env = t.view env)
      (fun _ out t' => (Ready env t' ∧ t'.view env = t.view env) ∧
        t'.core.db.sqWriters = t.core.db.sqWriters ∧ Shows out t.core.db.sqWriters.get)
      ⟨⟨⟨ht.coherent⟩, rfl⟩, rfl, hshows⟩ ?_) ?_ fun _ _ h => h)))
    · rintro T rest out t' ⟨⟨ht', hv'⟩, hw', hout⟩
      cases hp : env.topics T with
      | none =>
        refine .bind (?_ : Runs (topicPolicy env T) _ _ _)
        unfold topicPolicy
        rw [hp]
        exact .throw ⟨ht', hv'⟩
      | some p =>
        refine .bind (?_ : Runs (topicPolicy env T) _ _ _)
        unfold topicPolicy
        rw [hp]
        refine .pure ?_
        dsimp only
        split
        · exact .pure ⟨⟨ht', hv'⟩, hw', hout⟩
        refine .bind (getCert_runs ht' (fun t'' ht'' hv'' hdb => ?_) fun _ => ⟨ht', hv'⟩)
        cases t'.core.db.sqFinality.get T with
        | none => exact .pure ⟨⟨ht'', hv''.trans hv'⟩, hdb ▸ hw', hout.fgen T _⟩
        | some cert => exact .pure ⟨⟨ht'', hv''.trans hv'⟩, hdb ▸ hw', hout.fgen T _⟩
    · rintro out t' ⟨⟨ht', hv'⟩, hw', hout⟩
      refine .bind (.modify (.pure ⟨⟨?_⟩, hv', hout⟩))
      obtain ⟨h₁, h₂, h₃, _, _⟩ := ht'.coherent
      refine ⟨h₁, h₂, h₃, ?_, ?_⟩
      · rintro vec ⟨⟩
        rw [hw']
        exact hout.exposed
      · rintro vec ⟨⟩
        rw [hw']
        exact hout.covered

end Seqscribe
