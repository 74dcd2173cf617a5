import Seqscribe.View

namespace Seqscribe
set_option autoImplicit true

variable {env : Env} {E : SeqscribeError → Prop} {t : Txn} {v : View} {L : Local} {k : StreamId}
  {head : WriterRow}

theorem topicVecOf_topic (vec : HaveVectors) (T : Topic) : (topicVecOf vec T).topic = T := by
  unfold topicVecOf
  cases hg : vec.get T with
  | none => rfl
  | some topicVec => exact Table.key_of_get hg

theorem writers_topicVecOf (vec : HaveVectors) (T : Topic) (w : WriterId) :
    ((topicVecOf vec T).writers.get w).map Prod.snd = writerVec vec (T, w) := by
  unfold topicVecOf writerVec
  cases vec.get T with
  | none => rfl
  | some topicVec => rfl

/-- A tombstone that has expired is left out, any other head is shown. -/
theorem applyHeadToVec_cases (tv : TopicVec) (h : WriterRow) (floor : Int) :
    (applyHeadToVec tv h floor = { tv with writers := tv.writers.delete h.writer } ∧
      h.sealReason = some .retired ∧ h.retiredAt.isSome) ∨
    applyHeadToVec tv h floor = { tv with writers := tv.writers.upsert (h.writer, h.vec) } := by
  unfold applyHeadToVec WriterRow.vec
  split
  · next hseal hseq hchain =>
    split
    · next hold =>
      refine .inl ⟨rfl, hseal, ?_⟩
      cases hr : h.retiredAt with
      | none => simp [hr] at hold
      | some since => rfl
    · exact .inr (by simp only [hseal, hseq, hchain])
  · exact .inr (by simp)

theorem applyHeadToVec_topic (tv : TopicVec) (h : WriterRow) (floor : Int) :
    (applyHeadToVec tv h floor).topic = tv.topic := by
  rcases applyHeadToVec_cases tv h floor with ⟨heq, -⟩ | heq
  · rw [heq]
  · rw [heq]

/-- The patched topic shows the head, unless the head is a tombstone that has expired. -/
theorem get_applyHeadToVec (tv : TopicVec) (h : WriterRow) (floor : Int) :
    ((applyHeadToVec tv h floor).writers.get h.writer).map Prod.snd = some h.vec ∨
      ((applyHeadToVec tv h floor).writers.get h.writer).map Prod.snd = none ∧
        h.sealReason = some .retired ∧ h.retiredAt.isSome := by
  rcases applyHeadToVec_cases tv h floor with ⟨heq, hretired⟩ | heq
  · rw [heq]
    exact .inr ⟨by simp [Table.get_delete], hretired⟩
  · rw [heq]
    exact .inl (by simp [Table.get_upsert])

theorem get_applyHeadToVec_of_ne (tv : TopicVec) (floor : Int) (hw : w ≠ h.writer) :
    (applyHeadToVec tv h floor).writers.get w = tv.writers.get w := by
  rcases applyHeadToVec_cases tv h floor with ⟨heq, -⟩ | heq
  · rw [heq]
    exact (Table.get_delete ..).trans (if_neg hw.symm)
  · rw [heq]
    exact (Table.get_upsert ..).trans (if_neg hw.symm)

theorem writerVec_patch_self (vec : HaveVectors) (h : WriterRow) (floor : Int) :
    writerVec (vec.upsert (applyHeadToVec (topicVecOf vec h.topic) h floor)) h.stream =
      some h.vec ∨
    writerVec (vec.upsert (applyHeadToVec (topicVecOf vec h.topic) h floor)) h.stream = none ∧
      h.sealReason = some .retired ∧ h.retiredAt.isSome := by
  have hget := Table.get_upsert vec (applyHeadToVec (topicVecOf vec h.topic) h floor) h.topic
  rw [applyHeadToVec_topic, topicVecOf_topic, if_pos rfl] at hget
  unfold writerVec
  rw [show h.stream.1 = h.topic from rfl, hget]
  exact get_applyHeadToVec _ h floor

theorem writerVec_patch_of_ne (vec : HaveVectors) (floor : Int) (hk : k ≠ h.stream) :
    writerVec (vec.upsert (applyHeadToVec (topicVecOf vec h.topic) h floor)) k =
      writerVec vec k := by
  have hget := Table.get_upsert vec (applyHeadToVec (topicVecOf vec h.topic) h floor) k.1
  rw [applyHeadToVec_topic, topicVecOf_topic] at hget
  conv_lhs => unfold writerVec
  rw [hget]
  by_cases hT : h.topic = k.1
  · have hw : k.2 ≠ h.writer := fun hw => hk (Prod.ext hT.symm hw)
    rw [if_pos hT, Option.bind_some, get_applyHeadToVec_of_ne _ _ hw, writers_topicVecOf, hT]
  · rw [if_neg hT]
    rfl

/-- HAVE vectors that show what a table of heads holds. -/
structure Shows (vec : HaveVectors) (heads : StreamId → Option WriterRow) : Prop where
  exposed : ∀ k v, writerVec vec k = some v → (heads k).map WriterRow.vec = some v
  covered : ∀ k h, heads k = some h →
    writerVec vec k = some h.vec ∨ h.sealReason = some .retired ∧ h.retiredAt.isSome

theorem Shows.patch (h : Shows vec heads) (head : WriterRow) (floor : Int) :
    Shows (vec.upsert (applyHeadToVec (topicVecOf vec head.topic) head floor))
      fun k => if head.stream = k then some head else heads k := by
  constructor
  · intro k v hv
    by_cases hk : head.stream = k
    · subst hk
      rw [if_pos rfl]
      rcases writerVec_patch_self vec head floor with hp | ⟨hp, _⟩
      · rw [← hv, hp]
        rfl
      · rw [hv] at hp
        cases hp
    · rw [if_neg hk]
      rw [writerVec_patch_of_ne _ _ (Ne.symm hk)] at hv
      exact h.exposed k v hv
  · intro k h' hk'
    by_cases hk : head.stream = k
    · subst hk
      rw [if_pos rfl, Option.some.injEq] at hk'
      subst hk'
      rcases writerVec_patch_self vec head floor with hp | ⟨_, hp⟩
      · exact .inl hp
      · exact .inr hp
    · rw [if_neg hk] at hk'
      rw [writerVec_patch_of_ne _ _ (Ne.symm hk)]
      exact h.covered k h' hk'

theorem Core.Coherent.shows {core : Core} (h : core.Coherent env)
    (hvec : core.vectorsCache = some vec) : Shows vec core.db.sqWriters.get :=
  ⟨h.exposed vec hvec, h.covered vec hvec⟩

/-- The specs below hold whether or not a fault is pending: a storage call only counts it down. -/
theorem query_spec {f : Db → α}
    (hQ : ∀ fault, fault.isSome = t.fault.isSome → Q (f t.core.db) { t with fault := fault }) :
    Returns E (query f) t Q :=
  .bind (storageCall_spec fun fault hf => .bind (.get (.pure (hQ fault hf))))

theorem execute_spec {f : Db → Db}
    (hQ : ∀ fault, Q () { t with core.db := f t.core.db, fault := fault }) :
    Returns E (execute f) t Q :=
  .bind (storageCall_spec fun fault _ => .modify rfl (hQ fault))

theorem At.refault (h : At env k v L t) (fault : Option Nat) :
    At env k v L { t with fault := fault } :=
  { h with ready := ⟨h.ready.coherent⟩ }

theorem query_at {f : Db → α} (h : At env k v L t)
    (hQ : ∀ t', At env k v L t' → Q (f t.core.db) t') : Returns E (query f) t Q :=
  query_spec fun fault _ => hQ _ (h.refault fault)

theorem clock_spec (env : Env) (hQ : Q (t.view env).now t) : Returns E clock t Q := ⟨rfl, hQ⟩

theorem tombstoneFloor_spec (hQ : Q (t.ambient.now - env.constants.TOMBSTONE_RETAIN_MS) t) :
    Returns E (tombstoneFloor env) t Q := ⟨rfl, hQ⟩

theorem topicPolicy_spec (hp : env.topics T = some p) (hQ : Q p t) :
    Returns E (topicPolicy env T) t Q := by
  unfold topicPolicy
  rw [hp]
  exact .pure hQ

theorem done_spec (h : At env k v L t) (hQ : ∀ t', At env k v (L.done r) t' → Q () t') :
    Returns E (done r) t Q :=
  .modify rfl <| hQ _
    { h with ready := ⟨h.ready.coherent⟩
             settle := congrArg (· ++ [r]) h.settle }

theorem report_spec (h : At env k v L t) (hQ : ∀ t', At env k v (L.report a) t' → Q () t') :
    Returns E (report a) t Q :=
  .modify rfl <| hQ _
    { h with ready := ⟨h.ready.coherent⟩
             anomalies := congrArg (· ++ [a]) h.anomalies }

theorem noteApplied_spec (h : At env k v L t)
    (hQ : ∀ t', At env k v (L.deliver e via) t' → Q () t') :
    Returns E (noteApplied e rowid via) t Q := by
  refine .modify rfl <| hQ _ { h with ready := ⟨h.ready.coherent⟩, applied := ?_ }
  rw [List.map_append, h.applied]
  rfl

theorem setHlcState_spec (h : At env k v L t)
    (hQ : ∀ t', At env k v { L with hlcState := s } t' → Q () t') :
    Returns E (setHlcState s) t Q :=
  .modify rfl <| hQ _ ⟨⟨h.ready.coherent.1, h.ready.coherent.2, h.ready.coherent.3,
    h.ready.coherent.4, h.ready.coherent.5⟩, h.stream, h.others, h.settle, h.applied, h.anomalies,
    rfl, h.certs, h.directives, h.now⟩

theorem getRecovery_spec (h : At env (T, w) v L t) (hQ : Q L.stream.recovery t) :
    Returns E (getRecovery T w) t Q := by
  rw [← h.stream] at hQ
  exact ⟨rfl, hQ⟩

theorem setRecovery_spec (h : At env (T, w) v L t)
    (hQ : ∀ t', At env (T, w) v (L.map (Stream.setRecovery target)) t' → Q () t') :
    Returns E (setRecovery T w target) t Q := by
  refine .modify rfl <| hQ _ { h with ready := ⟨?_⟩, stream := ?_, others := ?_ }
  · obtain ⟨h₁, h₂, h₃, h₄, h₅⟩ := h.ready.coherent
    exact ⟨h₁, h₂, h₃, h₄, h₅⟩
  · have hs := h.stream
    simp only [Local.map, Stream.setRecovery, ← hs, Core.stream, Core.head, Function.update_self]
  · intro k' hk
    rw [← h.others k' hk]
    simp only [Core.stream, Core.head, Function.update_of_ne hk]

/-- Filling a cache with what the store has changes nothing that is observed. -/
theorem cacheHead_spec {cached : Option WriterRow} (h : At env k v L t)
    (hhead : ∀ h', cached = some h' → h' = t.core.head env k')
    (hQ : ∀ t', At env k v L t' → Q () t') : Returns E (cacheHead k' cached) t Q := by
  refine .modify rfl <| hQ _ { h with ready := ⟨?_⟩ }
  obtain ⟨h₁, h₂, h₃, h₄, h₅⟩ := h.ready.coherent
  refine ⟨?_, h₂, h₃, h₄, h₅⟩
  intro k'' h' hk''
  change Function.update t.core.heads k' cached k'' = some h' at hk''
  change h' = t.core.head env k''
  by_cases hk : k'' = k'
  · subst hk
    rw [Function.update_self] at hk''
    exact hhead h' hk''
  · rw [Function.update_of_ne hk] at hk''
    exact h₁ k'' h' hk''

theorem getStream_spec (h : At env (T, w) v L t)
    (hQ : ∀ t', At env (T, w) v L t' → Q L.stream.head t') :
    Returns E (getStream env T w) t Q := by
  refine .bind (.get ?_)
  cases hc : t.core.heads (T, w) with
  | some head =>
    have hhead := h.ready.coherent.heads _ _ hc
    rw [h.head] at hhead
    subst hhead
    exact .pure (hQ t h)
  | none =>
    refine .bind (query_at h fun t' h' => ?_)
    have hhead : (t.core.db.sqWriters.get (T, w)).getD (freshHead env T w) = L.stream.head :=
      h.head
    rw [hhead]
    refine .bind (cacheHead_spec h' ?_ fun t' h' => .pure (hQ t' h'))
    rintro _ ⟨⟩
    exact h'.head.symm

theorem getCert_spec (h : At env k v L t) (hQ : ∀ t', At env k v L t' → Q (v.certs T) t') :
    Returns E (getCert T) t Q := by
  refine .bind (.get ?_)
  cases hc : t.core.certs T with
  | some c =>
    have hcert := h.ready.coherent.certs _ _ hc
    rw [h.certs] at hcert
    subst hcert
    exact .pure (hQ t h)
  | none =>
    refine .bind (query_at h fun t' h' => ?_)
    refine .bind (.modify rfl (.pure ?_))
    simp only [h.certs]
    refine hQ _ { h' with ready := ⟨?_⟩ }
    obtain ⟨h₁, h₂, h₃, h₄, h₅⟩ := h'.ready.coherent
    refine ⟨h₁, ?_, h₃, h₄, h₅⟩
    intro T' c hT'
    change Function.update t'.core.certs T (some (v.certs T)) T' = some c at hT'
    by_cases hT : T' = T
    · subst hT
      simpa [h'.certs] using hT'.symm
    · rw [Function.update_of_ne hT] at hT'
      exact h₂ T' c hT'

theorem floorOf_spec (h : At env (T, w) v L t)
    (hQ : ∀ t', At env (T, w) v L t' → Q L.stream.floor t') : Returns E (floorOf T w) t Q := by
  have hfloor : (t.core.db.sqFloors.get (T, w)).map FloorRow.floor = L.stream.floor := by
    rw [← h.stream]
    rfl
  refine .bind (.get ?_)
  cases hc : t.core.floors (T, w) with
  | some f =>
    have hf := h.ready.coherent.floors _ _ hc
    rw [hfloor] at hf
    subst hf
    exact .pure (hQ t h)
  | none =>
    refine .bind (query_spec fun fault _ => ?_)
    rw [hfloor]
    refine .bind (.modify rfl (.pure ?_))
    refine hQ _ { h with ready := ⟨?_⟩ }
    obtain ⟨h₁, h₂, h₃, h₄, h₅⟩ := h.ready.coherent
    refine ⟨h₁, h₂, ?_, h₄, h₅⟩
    intro k' f hk'
    change Function.update t.core.floors (T, w) (some L.stream.floor) k' = some f at hk'
    by_cases hk : k' = (T, w)
    · subst hk
      simpa [hfloor] using hk'.symm
    · rw [Function.update_of_ne hk] at hk'
      exact h₃ k' f hk'

/-- What `saveHead` leaves behind, up to the HAVE vectors. -/
def Core.saveHead (core : Core) (head : WriterRow) (cache : Option HaveVectors) : Core :=
  { core with
    heads := Function.update core.heads head.stream (some head)
    db.sqWriters := core.db.sqWriters.upsert head
    vectorsCache := cache }

theorem Core.get_saveHead (core : Core) (cache : Option HaveVectors) (k : StreamId) :
    (core.saveHead head cache).db.sqWriters.get k =
      if head.stream = k then some head else core.db.sqWriters.get k :=
  Table.get_upsert ..

theorem Core.head_saveHead (core : Core) (cache : Option HaveVectors) (k : StreamId) :
    (core.saveHead head cache).head env k = if head.stream = k then head else core.head env k := by
  unfold Core.head
  rw [get_saveHead]
  split <;> rfl

theorem Core.stream_saveHead (core : Core) (cache : Option HaveVectors) :
    (core.saveHead head cache).stream env head.stream =
      (core.stream env head.stream).saveHead head := by
  unfold Core.stream Stream.saveHead
  simp only [head_saveHead, get_saveHead, if_true, Option.isSome_some]
  rfl

theorem Core.stream_saveHead_of_ne (core : Core) (cache : Option HaveVectors)
    (hk : k ≠ head.stream) : (core.saveHead head cache).stream env k = core.stream env k := by
  unfold Core.stream
  simp only [head_saveHead, get_saveHead, if_neg hk.symm]
  rfl

theorem At.saveHead (h : At env head.stream v L t) (cache : Option HaveVectors)
    (hshows : ∀ vec, cache = some vec →
      Shows vec fun k => if head.stream = k then some head else t.core.db.sqWriters.get k) :
    At env head.stream v (L.map (Stream.saveHead head))
      { t with core := t.core.saveHead head cache } := by
  have hheads : (t.core.saveHead head cache).db.sqWriters.get =
      fun k => if head.stream = k then some head else t.core.db.sqWriters.get k :=
    funext fun k => t.core.get_saveHead cache k
  refine { h with ready := ⟨?_⟩, stream := ?_, others := ?_ }
  · refine ⟨?_, h.ready.coherent.certs, h.ready.coherent.floors, ?_, ?_⟩
    · intro k h' hk
      rw [Core.head_saveHead]
      change Function.update t.core.heads head.stream (some head) k = some h' at hk
      by_cases he : head.stream = k
      · subst he
        rw [Function.update_self, Option.some.injEq] at hk
        rw [if_pos rfl, hk]
      · rw [Function.update_of_ne (Ne.symm he)] at hk
        rw [if_neg he]
        exact h.ready.coherent.heads k h' hk
    · intro vec hvec
      rw [hheads]
      exact (hshows vec hvec).exposed
    · intro vec hvec
      rw [hheads]
      exact (hshows vec hvec).covered
  · rw [Core.stream_saveHead, h.stream]
    rfl
  · intro k' hk
    rw [Core.stream_saveHead_of_ne _ _ hk, h.others k' hk]

theorem saveHead_spec (h : At env k v L t) (hk : head.stream = k)
    (hQ : ∀ t', At env k v (L.map (Stream.saveHead head)) t' → Q () t') :
    Returns E (saveHead env head) t Q := by
  subst hk
  refine .bind (.modify rfl (.bind (execute_spec fun fault => .bind (.get ?_))))
  dsimp only
  cases hvec : t.core.vectorsCache with
  | none =>
    refine .pure (hQ _ ((h.saveHead none ?_).refault fault))
    rintro _ ⟨⟩
  | some vec =>
    refine .bind (tombstoneFloor_spec (.modify rfl (hQ _ ((h.saveHead (some _) ?_).refault fault))))
    rintro _ ⟨⟩
    exact (h.ready.coherent.shows hvec).patch head _

theorem At.get_log (h : At env (T, w) v L t) (s : Nat) :
    (t.core.db.sqLog.get (T, w, s)).map LogRow.entry = L.stream.rows s := by
  rw [← h.stream]
  rfl

theorem getEntry_spec (h : At env (T, w) v L t)
    (hQ : ∀ t', At env (T, w) v L t' → Q (L.stream.rows s) t') :
    Returns E (Store.getEntry T w s) t Q := by
  refine query_at h fun t' h' => ?_
  rw [h.get_log]
  exact hQ t' h'

/-- Inserting on a free id succeeds; where `E` allows it, the id may be taken. -/
theorem insertEntry_spec (h : At env e.stream v L t)
    (hfree : ¬ E Store.uniqueViolation → L.stream.rows e.seq = none)
    (hQ : ∀ rowid t', At env e.stream v
      (L.map fun S => { S with rows := Function.update S.rows e.seq (some e) }) t' → Q rowid t') :
    Returns E (Store.insertEntry e) t Q := by
  refine .bind (storageCall_spec fun fault _ => .bind (.get ?_))
  dsimp only
  cases hU : t.core.db.sqLog.insert ⟨t.core.db.logSequence + 1, e⟩ with
  | none =>
    refine .throw (by_contra fun hE => ?_)
    have hget : t.core.db.sqLog.get e.id = none := by
      have hrow := hfree hE
      rw [← h.get_log] at hrow
      exact Option.map_eq_none_iff.1 hrow
    obtain ⟨U, hU', _⟩ := Table.insert_of_get_eq_none
      (r := (⟨t.core.db.logSequence + 1, e⟩ : LogRow)) hget
    rw [hU] at hU'
    cases hU'
  | some U =>
  have hgetU := Table.get_of_insert hU
  refine .bind (.modify rfl (.pure (hQ _ _ ?_)))
  refine { h with ready := ⟨h.ready.coherent.1, h.ready.coherent.2,
    h.ready.coherent.3, h.ready.coherent.4, h.ready.coherent.5⟩, stream := ?_, others := ?_ }
  · simp only [Local.map, ← h.stream, Core.stream, hgetU]
    congr 1
    funext s
    by_cases hs : s = e.seq
    · subst hs
      rw [Function.update_self, if_pos (show e.id = (e.stream.1, e.stream.2, e.seq) from rfl)]
      rfl
    · rw [Function.update_of_ne hs, if_neg]
      intro hid
      exact hs (congrArg (fun id : EntryId => id.2.2) hid).symm
  · intro k' hk
    rw [← h.others k' hk]
    simp only [Core.stream, hgetU]
    congr 1
    funext s
    rw [if_neg]
    intro hid
    exact hk (Prod.ext (congrArg (fun id : EntryId => id.1) hid).symm
      (congrArg (fun id : EntryId => id.2.1) hid).symm)

theorem entriesRange_eq (log : Table EntryId LogRow fun r => r.entry.id) (T : Topic) (w : WriterId)
    (fromSeq toSeq : Nat) :
    (log.selectBy (fun r => Store.inStream T w r &&
        decide (fromSeq ≤ r.entry.seq ∧ r.entry.seq ≤ toSeq)) (·.entry.seq)).map LogRow.entry =
      (List.range' fromSeq (toSeq + 1 - fromSeq)).filterMap
        fun s => (log.get (T, w, s)).map LogRow.entry := by
  rw [Table.selectBy_eq_filterMap (fun s => log.get (T, w, s)) fromSeq (toSeq + 1 - fromSeq),
    List.map_filterMap]
  · intro s r hr
    exact congrArg (fun id : EntryId => id.2.2) (Table.key_of_get hr)
  · intro r
    rw [Table.get_eq_some_iff]
    simp only [Store.inStream, LogEntry.id, Bool.and_eq_true, decide_eq_true_eq, Prod.mk.injEq,
      and_true]
    constructor
    · rintro ⟨hr, hid, hs⟩
      exact ⟨by omega, hr, hid⟩
    · rintro ⟨hs, hr, hid⟩
      exact ⟨hr, hid, by omega⟩

theorem entriesRange_spec (h : At env (T, w) v L t)
    (hQ : ∀ t', At env (T, w) v L t' → Q (L.stream.range fromSeq toSeq) t') :
    Returns E (Store.entriesRange T w fromSeq toSeq) t Q := by
  refine query_at h fun t' h' => ?_
  rw [entriesRange_eq]
  simpa only [Stream.range, ← funext h.get_log] using hQ t' h'

/-- A write that leaves the tables behind the caches alone keeps a transaction ready. -/
theorem Ready.of_db (ht : Ready env t) (f : Db → Db)
    (hw : (f t.core.db).sqWriters = t.core.db.sqWriters)
    (hc : (f t.core.db).sqFinality = t.core.db.sqFinality)
    (hf : (f t.core.db).sqFloors = t.core.db.sqFloors) :
    Ready env { t with core.db := f t.core.db } := by
  refine ⟨?_⟩
  obtain ⟨h₁, h₂, h₃, h₄, h₅⟩ := ht.coherent
  refine ⟨?_, ?_, ?_, ?_, ?_⟩
  · intro k h hk
    simpa only [Core.head, hw] using h₁ k h hk
  · simpa only [hc] using h₂
  · simpa only [hf] using h₃
  · simpa only [hw] using h₄
  · simpa only [hw] using h₅

theorem annotate_spec (h : At env k v L t) (hQ : ∀ t', At env k v L t' → Q () t') :
    Returns E (Store.annotate T w s kind now) t Q :=
  execute_spec fun fault => hQ _ <| At.refault { h with
    ready := h.ready.of_db (fun db =>
      { db with sqAnnotations := db.sqAnnotations.insertIgnore ⟨T, w, s, kind, now⟩ }) rfl rfl rfl }
    fault

theorem At.pendingAt (h : At env (T, w) v L t) (s : Nat) :
    t.core.db.sqPending.get (T, w, s) = L.stream.pendingAt s := by
  have hk := h.head_stream
  have hT : L.stream.head.topic = T := congrArg Prod.fst hk
  have hw : L.stream.head.writer = w := congrArg Prod.snd hk
  unfold Stream.pendingAt
  rw [hT, hw, ← h.stream]
  exact (Table.get_restrict _ _ _ (by simp [ofStream])).symm

theorem pendingGet_spec (h : At env (T, w) v L t)
    (hQ : ∀ t', At env (T, w) v L t' → Q (L.stream.pendingAt s) t') :
    Returns E (Store.pendingGet T w s) t Q := by
  refine query_at h fun t' h' => ?_
  rw [h.pendingAt]
  exact hQ t' h'

theorem At.pending_length (h : At env (T, w) v L t) :
    t.core.db.sqPending.count (fun e => e.topic = T ∧ e.writer = w) =
      L.stream.pending.rows.length := by
  rw [← h.stream]
  rfl

theorem pendingCount_spec (h : At env (T, w) v L t)
    (hQ : ∀ t', At env (T, w) v L t' → Q L.stream.pending.rows.length t') :
    Returns E (Store.pendingCount T w) t Q := by
  refine query_at h fun t' h' => ?_
  rw [h.pending_length]
  exact hQ t' h'

/-- A change of the pending table alone. -/
theorem At.with_pending (h : At env k v L t)
    (pending : Table EntryId LogEntry LogEntry.id) (f : Stream → Stream)
    (hself : f L.stream = { L.stream with pending := pending.restrict (ofStream k) })
    (hother : ∀ k', k' ≠ k →
      pending.restrict (ofStream k') = t.core.db.sqPending.restrict (ofStream k')) :
    At env k v (L.map f) { t with core.db.sqPending := pending } := by
  refine { h with ready := h.ready.of_db (fun db => { db with sqPending := pending }) rfl rfl rfl
                  stream := ?_, others := ?_ }
  · rw [Local.map, hself, ← h.stream]
    rfl
  · intro k' hk
    rw [← h.others k' hk]
    simp only [Core.stream, hother k' hk]
    rfl

theorem ofStream_ne {id : EntryId} (hid : ofStream k id = true) (hk : k' ≠ k) : ofStream k' id = false := by
  simp only [ofStream, decide_eq_true_eq, decide_eq_false_iff_not] at *
  rintro ⟨h₁, h₂⟩
  exact hk (Prod.ext (h₁.symm.trans hid.1) (h₂.symm.trans hid.2))

theorem pendingDelete_spec (h : At env (T, w) v L t)
    (hQ : ∀ t', At env (T, w) v (L.map (Stream.unpend s)) t' → Q () t') :
    Returns E (Store.pendingDelete T w s) t Q := by
  refine execute_spec fun fault => hQ _ ((h.with_pending _ _ ?_ ?_).refault fault)
  · have hk := h.head_stream
    have hT : L.stream.head.topic = T := congrArg Prod.fst hk
    have hw : L.stream.head.writer = w := congrArg Prod.snd hk
    unfold Stream.unpend
    rw [hT, hw, Table.delete, Table.delete, Table.restrict_filter, ← h.stream]
    rfl
  · intro k' hk
    refine Table.restrict_filter_of_outside _ _ _ fun e he => ?_
    simp only [decide_eq_true_eq]
    intro hid
    rw [hid, ofStream_ne (by simp [ofStream]) hk] at he
    cases he

theorem pendingPut_spec (h : At env e.stream v L t)
    (hQ : ∀ t', At env e.stream v (L.map (Stream.pend e)) t' → Q () t') :
    Returns E (Store.pendingPut e) t Q := by
  have hid : ofStream e.stream e.id = true := by simp [ofStream, LogEntry.stream, LogEntry.id]
  refine execute_spec fun fault => hQ _ ((h.with_pending _ _ ?_ ?_).refault fault)
  · simp only [Stream.pend, Table.restrict_upsert _ _ hid, ← h.stream]
    rfl
  · intro k' hk
    exact Table.restrict_upsert_of_outside _ _ (ofStream_ne hid hk)

theorem deletePendingUpTo_spec (h : At env (T, w) v L t)
    (hQ : ∀ t', At env (T, w) v (L.map (Stream.dropPending s)) t' → Q () t') :
    Returns E (Store.deletePendingUpTo T w s) t Q := by
  refine execute_spec fun fault => hQ _ ((h.with_pending _ _ ?_ ?_).refault fault)
  · rw [Table.restrict_filter, ← h.stream]
    simp only [Stream.dropPending, Core.stream]
    congr 1
    apply Table.ext
    simp only [Table.restrict, Table.rows_filter]
    apply List.filter_congr
    intro e he
    obtain ⟨hT, hw⟩ := ofStream_iff.1 (List.mem_filter.1 he).2
    simp [show e.topic = T from hT, show e.writer = w from hw]
  · intro k' hk
    refine Table.restrict_filter_of_outside _ _ _ fun e he => ?_
    simp only [Bool.not_eq_true', decide_eq_false_iff_not]
    rintro ⟨h₁, h₂, _⟩
    obtain ⟨hT, hw⟩ := ofStream_iff.1 he
    exact hk (Prod.ext (hT.symm.trans h₁) (hw.symm.trans h₂))

/-- A held row is the entry of its stream and sequence number. -/
theorem At.row_id (h : At env (T, w) v L t) (hrow : L.stream.rows s = some e) :
    e.id = (T, w, s) := by
  rw [← h.get_log] at hrow
  obtain ⟨r, hr, rfl⟩ := Option.map_eq_some_iff.1 hrow
  exact log_id_of_get hr

theorem deleteLogRange_spec (h : At env (T, w) v L t)
    (hQ : ∀ t', At env (T, w) v (L.map fun S =>
      { S with rows := fun s => if fromSeq ≤ s then none else S.rows s }) t' → Q () t') :
    Returns E (Store.deleteLogRange T w fromSeq) t Q := by
  refine .bind (execute_spec fun fault => .modify rfl (hQ _ ?_))
  refine { h with ready := ⟨h.ready.coherent.1, h.ready.coherent.2,
    h.ready.coherent.3, h.ready.coherent.4, h.ready.coherent.5⟩, stream := ?_, others := ?_ }
  · simp only [Local.map, ← h.stream, Core.stream, Table.get_filter]
    congr 1
    funext s
    cases hg : t.core.db.sqLog.get (T, w, s) with
    | none => simp
    | some r =>
      have hid := Table.key_of_get hg
      simp only [LogEntry.id, Prod.mk.injEq] at hid
      by_cases hs : fromSeq ≤ s
      · simp [Store.inStream, Option.filter, hid, hs]
      · simp [Store.inStream, Option.filter, hid, hs]
  · intro k' hk
    rw [← h.others k' hk]
    simp only [Core.stream, Table.get_filter]
    congr 1
    funext s
    cases hg : t.core.db.sqLog.get (k'.1, k'.2, s) with
    | none => rfl
    | some r =>
      have hid := Table.key_of_get hg
      simp only [LogEntry.id, Prod.mk.injEq] at hid
      have hne : Store.inStream T w r = false := by
        simp only [Store.inStream, decide_eq_false_iff_not, hid]
        rintro ⟨h₁, h₂⟩
        exact hk (Prod.ext h₁ h₂)
      simp [Option.filter, hne]

theorem quarantinePut_spec (h : At env e.stream v L t)
    (hQ : ∀ t', At env e.stream v (L.map fun S =>
      { S with quarantine := Function.update S.quarantine e.seq (some ⟨e, reason, now⟩) }) t' →
      Q () t') :
    Returns E (Store.quarantinePut e reason now) t Q := by
  refine execute_spec fun fault => hQ _ ?_
  refine { h with ready := ⟨h.ready.coherent.1, h.ready.coherent.2,
    h.ready.coherent.3, h.ready.coherent.4, h.ready.coherent.5⟩, stream := ?_, others := ?_ }
  · simp only [Local.map, ← h.stream, Core.stream, Table.get_upsert]
    congr 1
    funext s
    by_cases hs : s = e.seq
    · subst hs
      rw [Function.update_self, if_pos (show e.id = (e.stream.1, e.stream.2, e.seq) from rfl)]
    · rw [Function.update_of_ne hs, if_neg]
      intro hid
      exact hs (congrArg (fun id : EntryId => id.2.2) hid).symm
  · intro k' hk
    rw [← h.others k' hk]
    simp only [Core.stream, Table.get_upsert]
    congr 1
    funext s
    rw [if_neg]
    intro hid
    exact hk (Prod.ext (congrArg (fun id : EntryId => id.1) hid).symm
      (congrArg (fun id : EntryId => id.2.1) hid).symm)

def quarantineOne (reason : QuarantineReason) (now : Nat) (q : Nat → Option QuarantineRow)
    (e : LogEntry) : Nat → Option QuarantineRow :=
  Function.update q e.seq (some ⟨e, reason, now⟩)

/-- Put entries into quarantine one after the other. -/
def Local.quarantineAll (reason : QuarantineReason) (now : Nat) (L : Local) (es : List LogEntry) :
    Local :=
  { L with
    stream.quarantine := es.foldl (quarantineOne reason now) L.stream.quarantine
    anomalies := L.anomalies ++ es.map .entryQuarantined }

theorem Local.quarantineAll_append :
    (L.quarantineAll reason now es).quarantineAll reason now [e] =
      L.quarantineAll reason now (es ++ [e]) := by
  simp [quarantineAll]

theorem foldl_quarantine_of_not_mem {q : Nat → Option QuarantineRow} {es : List LogEntry}
    (hes : ∀ e ∈ es, e.seq ≠ s) :
    es.foldl (quarantineOne reason now) q s = q s := by
  induction es generalizing q with
  | nil => rfl
  | cons e es ih =>
    rw [List.foldl_cons, ih fun e' he' => hes e' (List.mem_cons_of_mem _ he')]
    exact Function.update_of_ne (hes e List.mem_cons_self).symm ..

theorem foldl_quarantine_of_mem {q : Nat → Option QuarantineRow} {es : List LogEntry} (he : e ∈ es)
    (huniq : ∀ e' ∈ es, e'.seq = e.seq → e' = e) :
    es.foldl (quarantineOne reason now) q e.seq = some ⟨e, reason, now⟩ := by
  induction es generalizing q with
  | nil => cases he
  | cons e' es ih =>
    rw [List.foldl_cons]
    by_cases hin : e ∈ es
    · exact ih hin fun e'' he'' => huniq e'' (List.mem_cons_of_mem _ he'')
    · obtain rfl := (List.mem_cons.1 he).resolve_right hin
      rw [foldl_quarantine_of_not_mem]
      · exact Function.update_self ..
      intro e'' he'' hs
      exact hin (huniq e'' (List.mem_cons_of_mem _ he'') hs ▸ he'')

theorem Stream.mem_range {S : Stream} (hseq : ∀ s e, S.rows s = some e → e.seq = s) :
    e ∈ S.range fromSeq toSeq ↔ (fromSeq ≤ e.seq ∧ e.seq ≤ toSeq) ∧ S.rows e.seq = some e := by
  simp only [range, List.mem_filterMap, List.mem_range'_1]
  constructor
  · rintro ⟨s, hs, hrow⟩
    obtain rfl := hseq s e hrow
    exact ⟨by omega, hrow⟩
  · rintro ⟨hs, hrow⟩
    exact ⟨e.seq, by omega, hrow⟩

theorem Local.quarantineAll_range {L : Local}
    (hseq : ∀ s e, L.stream.rows s = some e → e.seq = s) :
    (L.quarantineAll reason now (L.stream.range fromSeq toSeq)).map (fun S =>
      { S with rows := fun s => if fromSeq ≤ s then none else S.rows s }) =
      L.quarantineFrom fromSeq toSeq reason now := by
  unfold quarantineAll quarantineFrom Local.map Stream.quarantineFrom
  dsimp only
  congr 2
  funext s
  by_cases hs : fromSeq ≤ s ∧ s ≤ toSeq
  · rw [if_pos hs]
    cases hrow : L.stream.rows s with
    | none =>
      refine foldl_quarantine_of_not_mem fun e he hes => ?_
      have hr := ((Stream.mem_range hseq).1 he).2
      rw [hes, hrow] at hr
      cases hr
    | some e =>
      obtain rfl := hseq s e hrow
      refine foldl_quarantine_of_mem ((Stream.mem_range hseq).2 ⟨hs, hrow⟩) fun e' he' hes => ?_
      have hr := ((Stream.mem_range hseq).1 he').2
      rw [hes, hrow] at hr
      exact (Option.some.inj hr).symm
  · rw [if_neg hs]
    refine foldl_quarantine_of_not_mem fun e he hes => ?_
    subst hes
    exact hs ((Stream.mem_range hseq).1 he).1

theorem quarantineRange_spec (h : At env (T, w) v L t)
    (hQ : ∀ n t', At env (T, w) v (L.quarantineFrom fromSeq toSeq reason now) t' → Q n t') :
    Returns E (quarantineRange T w fromSeq toSeq reason now) t Q := by
  have hseq : ∀ s e, L.stream.rows s = some e → e.seq = s := fun s e hrow =>
    congrArg (fun id : EntryId => id.2.2) (h.row_id hrow)
  have hstream : ∀ e ∈ L.stream.range fromSeq toSeq, e.stream = (T, w) := by
    intro e he
    have hid := h.row_id ((Stream.mem_range hseq).1 he).2
    exact Prod.ext (congrArg (fun id : EntryId => id.1) hid)
      (congrArg (fun id : EntryId => id.2.1) hid)
  refine .bind (entriesRange_spec h fun t h => ?_)
  -- the loop has put the entries it passed into quarantine
  refine .bind (.mono (.forM (fun rest t' => ∃ passed, passed ++ rest =
    L.stream.range fromSeq toSeq ∧ At env (T, w) v (L.quarantineAll reason now passed) t')
    ⟨[], rfl, ?_⟩ ?_) ?_)
  · simpa [Local.quarantineAll] using h
  · rintro e rest t' ⟨passed, hpassed, h'⟩
    have he : e.stream = (T, w) := hstream e (hpassed ▸ by simp)
    rw [← he] at h' ⊢
    refine .bind (quarantinePut_spec h' fun t' h' => report_spec h' fun t' h' => ?_)
    refine ⟨passed ++ [e], by simpa using hpassed, ?_⟩
    rw [← Local.quarantineAll_append]
    exact h'
  · rintro _ t' ⟨passed, hpassed, h'⟩
    rw [List.append_nil] at hpassed
    subst hpassed
    refine .bind (deleteLogRange_spec h' fun t' h' => .pure (hQ _ _ ?_))
    rw [← Local.quarantineAll_range hseq]
    exact h'

end Seqscribe
