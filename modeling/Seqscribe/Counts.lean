import Seqscribe.Host
import Seqscribe.LogUpkeep
import Seqscribe.Primitives
import Seqscribe.Run
import Seqscribe.Traces

namespace Seqscribe
set_option autoImplicit true

/-! The counts of log and archive rows that are cached beside the store. -/

namespace Store

def archivedCount (topic : Topic) : LogM Nat := do
  match (← get).core.archiveCounts topic with
  | some cached => return cached
  | none =>
    let n ← query fun db => db.sqArchive.count fun r => r.entry.topic = topic
    modify fun t => { t with
      core.archiveCounts := fun T => if T = topic then some n else t.core.archiveCounts T }
    return n

end Store

namespace LogState

def archivedCount (s : LogState) (T : Topic) : Nat := s.archive.count fun r => r.entry.topic = T

/-- Every cached count is right. -/
structure Exact (s : LogState) : Prop where
  keyed : s.Keyed
  numbered : s.Numbered
  log : ∀ T n, s.counts T = some n → n = s.logCount T
  archive : ∀ T n, s.archiveCounts T = some n → n = s.archivedCount T

variable {s : LogState} {e : LogEntry} {log : Table EntryId LogRow fun r => r.entry.id}
  {topic : Topic} {p : LogRow → Bool}

theorem logCount_insert (h : s.log.insert ⟨s.sequence + 1, e⟩ = some log) (T : Topic) :
    (s.insert e log).logCount T = s.logCount T + if e.topic = T then 1 else 0 := by
  rw [logCount, logCount, Table.count, Table.count, insert, Table.rows_of_insert h,
    List.filter_append, List.length_append]
  congr 1
  by_cases hT : e.topic = T
  · simp [hT]
  · simp [hT]

/-- The rows of a topic that a deletion spares. -/
theorem Spares.filter (h : s.Spares topic p) (hT : T ≠ topic) :
    (s.delete p).log.rows.filter (fun r => r.entry.topic = T) =
      s.log.rows.filter fun r => r.entry.topic = T := by
  rw [LogState.delete, Table.rows_filter, List.filter_filter]
  apply List.filter_congr
  intro r hr
  by_cases hr' : r.entry.topic = T
  · rw [h r hr (hr' ▸ hT), Bool.and_true]
  · rw [decide_eq_false hr', Bool.false_and]

theorem Exact.recount (h : Exact s) (topic : Topic) : Exact (s.recount topic (s.logCount topic)) := by
  refine ⟨h.keyed, h.numbered, fun T n hn => ?_, h.archive⟩
  rw [counts_recount] at hn
  split at hn
  next heq =>
    rw [heq]
    exact (Option.some.inj hn).symm
  next => exact h.log T n hn

/-- In a transaction that does not fail. -/
theorem exact_upkeep : LogUpkeep (fun _ => True) True True Exact fun _ => True where
  fails := fun _ _ => trivial
  keyed := fun _ h => h.keyed
  numbered := fun _ _ h => h.numbered
  cacheHead := fun _ _ _ hhead h => ⟨h.keyed.cacheHead hhead, h.numbered, h.log, h.archive⟩
  insert := by
    intro _ s e log _ h hlog
    refine ⟨h.keyed, h.numbered.insert hlog, fun T n hn => ?_, h.archive⟩
    rw [logCount_insert hlog]
    rw [counts_insert] at hn
    split at hn
    next heq =>
      obtain ⟨n', hn', rfl⟩ := Option.map_eq_some_iff.1 hn
      rw [if_pos heq.symm, h.log T n' hn']
    next hne =>
      rw [if_neg fun heq => hne heq.symm]
      exact h.log T n hn
  delete := by
    intro _ s topic p _ hp h
    refine ⟨h.keyed, h.numbered.delete p, fun T n hn => ?_, h.archive⟩
    rw [counts_drop, LogState.delete] at hn
    split at hn
    next => cases hn
    next hne =>
      rw [h.log T n hn, logCount, logCount, Table.count, Table.count]
      exact congrArg List.length (hp.filter hne).symm
  lost := fun _ _ _ _ _ _ _ => trivial

/-- Reads keep the counts exact even where they fail. -/
theorem exact_reads : LogUpkeep (fun _ => True) False False Exact Exact where
  fails := fun _ h => h
  keyed := fun _ h => h.keyed
  numbered := fun h => h.elim
  cacheHead := exact_upkeep.cacheHead
  insert := fun h => h.elim
  delete := fun h => h.elim
  lost := fun h => h.elim

/-- The cached count of a topic is gone or is a given one; where `still` holds, the topic's rows are
given ones. -/
structure Holds (archiveCounts : Topic → Option Nat) (T : Topic) (count : Option Nat) (still : Prop)
    (rows : List LogRow) (s : LogState) : Prop where
  keyed : s.Keyed
  numbered : s.Numbered
  archive : s.archiveCounts = archiveCounts
  count : s.counts T = none ∨ s.counts T = count
  still : still → s.log.rows.filter (fun r => r.entry.topic = T) = rows

/-- What an abort leaves of it. -/
def Left (archiveCounts : Topic → Option Nat) (T : Topic) (count : Option Nat) (s : LogState) :
    Prop :=
  s.archiveCounts = archiveCounts ∧ (s.counts T = none ∨ s.counts T = count)

theorem holds_upkeep (archiveCounts : Topic → Option Nat) (T : Topic) (count : Option Nat)
    (still : Prop) (rows : List LogRow) (topic : Topic) :
    LogUpkeep (fun T' => T' = topic) (topic = T → count = none ∧ ¬ still) (topic = T → ¬ still)
      (Holds archiveCounts T count still rows) (Left archiveCounts T count) where
  fails := fun _ h => ⟨h.archive, h.count⟩
  keyed := fun _ h => h.keyed
  numbered := fun _ _ h => h.numbered
  cacheHead := fun _ _ _ hhead h =>
    ⟨h.keyed.cacheHead hhead, h.numbered, h.archive, h.count, h.still⟩
  insert := by
    intro hfree s e log he h hlog
    refine ⟨h.keyed, h.numbered.insert hlog, h.archive, ?_, fun hstill => ?_⟩
    · rw [counts_insert]
      split
      next heq =>
        obtain ⟨hnone, -⟩ := hfree (he.symm.trans heq.symm)
        have hcount := h.count
        rw [hnone, or_self] at hcount
        rw [hcount]
        exact .inl rfl
      next => exact h.count
    · have hne : e.topic ≠ T := fun heq => (hfree (he.symm.trans heq)).2 hstill
      rw [LogState.insert, Table.rows_of_insert hlog, List.filter_append,
        List.filter_cons_of_neg (by rwa [decide_eq_true_iff]), List.filter_nil, List.append_nil]
      exact h.still hstill
  delete := by
    intro hfree s topic' p he hp h
    refine ⟨h.keyed, h.numbered.delete p, h.archive, ?_, fun hstill => ?_⟩
    · rw [counts_drop]
      split
      next => exact .inl rfl
      next => exact h.count
    · have hne : T ≠ topic' := fun heq => hfree (he.symm.trans heq.symm) hstill
      exact (hp.filter hne).trans (h.still hstill)
  lost := fun _ _ _ _ _ _ h => ⟨h.archive, h.count⟩

theorem Holds.recount {archiveCounts : Topic → Option Nat} {T : Topic} {count : Option Nat}
    {still : Prop} {rows : List LogRow} (h : Holds archiveCounts T count still rows s)
    (hfree : topic = T → still ∧ count = some rows.length) :
    Holds archiveCounts T count still rows (s.recount topic (s.logCount topic)) := by
  refine ⟨h.keyed, h.numbered, h.archive, ?_, h.still⟩
  rw [counts_recount]
  split
  next heq =>
    obtain ⟨hstill, hcount⟩ := hfree heq.symm
    rw [hcount, ← heq, logCount, Table.count, h.still hstill]
    exact .inr rfl
  next => exact h.count

end LogState

def QueueItem.retires (item : QueueItem env) : Bool :=
  match item with
  | .retireTopic .. => true
  | _ => false

/-- Whatever the batch does before it fails, the cached counts stay right: no item inserts into a
topic whose count is cached, and a topic whose rows a retirement counts is not changed. -/
structure Unharmed (batch : List (Queued env)) (core : Core) : Prop where
  cached : ∀ q ∈ batch, q.2.inserts = true → core.logCounts q.2.topic = none
  counted : ∀ q ∈ batch, q.2.retires = true → ∀ q' ∈ batch, q'.2.topic = q.2.topic →
    q'.2.inserts = false ∧ q'.2.deletes = false

/-- The transaction of the flush aborts. -/
def FlushFails (env : Env) (batch : List (Queued env)) (fault : Option Nat) (core : Core) : Prop :=
  match flushBody env batch (Txn.start core fault) with
  | .ok .. => False
  | .error .. => True

variable {env : Env} {core : Core}

theorem LogState.Holds.aborted {archiveCounts : Topic → Option Nat} {T : Topic}
    {count : Option Nat} {still : Prop} {rows : List LogRow} {batch : List (Queued env)}
    (h : LogState.Holds archiveCounts T count still rows core.logState)
    (hi : ∀ q ∈ batch, q.2.inserts = true → q.2.topic = T → count = none ∧ ¬ still)
    (hd : ∀ q ∈ batch, q.2.deletes = true → q.2.topic = T → ¬ still)
    (hr : ∀ q ∈ batch, q.2.retires = true → q.2.topic = T → still ∧ count = some rows.length)
    (hrun : flushBody env batch (Txn.start core fault) = .error e t) :
    LogState.Left archiveCounts T count t.logState := by
  have hupkeep := LogState.holds_upkeep archiveCounts T count still rows
  have hbody := LogUpkeep.flushBody (hupkeep "").fails fun (q : Queued env) (hq : q ∈ batch) =>
    (hupkeep q.2.topic).processQueued q rfl (hi q hq) (hd q hq) fun topic known heq s hs =>
      hs.recount fun htopic => hr q hq (by rw [heq]; rfl) (by rw [heq]; exact htopic)
  exact (hbody.runs (Txn.start core fault) h).of_error hrun

/-- What an aborted flush leaves of the count of a topic is right. -/
theorem LogState.Exact.aborted {batch : List (Queued env)} (h : core.logState.Exact)
    (hplain : Unharmed batch core)
    (hrun : flushBody env batch (Txn.start core fault) = .error e t) (T : Topic) :
    ∃ count, (∀ n, count = some n → n = core.logState.logCount T) ∧
      LogState.Left core.archiveCounts T count t.logState := by
  by_cases hret : ∃ q ∈ batch, q.2.retires = true ∧ q.2.topic = T
  · obtain ⟨q₀, hq₀, hretires, htopic⟩ := hret
    have hunchanged (q : Queued env) (hq : q ∈ batch) (hqT : q.2.topic = T) :=
      hplain.counted q₀ hq₀ hretires q hq (hqT.trans htopic.symm)
    have hcount : core.logState.counts T = none ∨
        core.logState.counts T = some (core.logState.logCount T) := by
      cases hT : core.logState.counts T with
      | none => exact .inl rfl
      | some n => exact .inr (congrArg some (h.log T n hT))
    have hstart : LogState.Holds core.archiveCounts T (some (core.logState.logCount T)) True _
        core.logState := ⟨h.keyed, h.numbered, rfl, hcount, fun _ => rfl⟩
    refine ⟨_, fun n hn => (Option.some.inj hn).symm, hstart.aborted ?_ ?_ ?_ hrun⟩
    · intro q hq hi hqT
      rw [(hunchanged q hq hqT).1] at hi
      cases hi
    · intro q hq hd hqT
      rw [(hunchanged q hq hqT).2] at hd
      cases hd
    · exact fun _ _ _ _ => ⟨trivial, rfl⟩
  · have hstart : LogState.Holds core.archiveCounts T (core.logCounts T) False [] core.logState :=
      ⟨h.keyed, h.numbered, rfl, .inr rfl, False.elim⟩
    refine ⟨_, h.log T, hstart.aborted ?_ ?_ ?_ hrun⟩
    · intro q hq hi hqT
      exact ⟨hqT ▸ hplain.cached q hq hi, not_false⟩
    · exact fun _ _ _ _ => not_false
    · exact fun q hq hr hqT => absurd ⟨q, hq, hr, hqT⟩ hret

theorem LogState.Exact.flush {batch : List (Queued env)} (h : core.logState.Exact)
    (hplain : FlushFails env batch fault core → Unharmed batch core) :
    (Seqscribe.flush env batch fault core).core.logState.Exact := by
  have hbody := LogUpkeep.flushBody LogState.exact_upkeep.fails fun (q : Queued env) (_ : q ∈ batch) =>
    LogState.exact_upkeep.processQueued q trivial (fun _ => trivial) (fun _ => trivial)
      fun topic _ _ s hs => hs.recount topic
  rw [Seqscribe.flush, transaction]
  split
  next => exact h
  next =>
    cases hrun : flushBody env batch (Txn.start core fault) with
    | ok _ t => exact ((hbody.runs (Txn.start core fault) h).of_ok hrun).2
    | error e t =>
      have hplain := hplain (by rw [FlushFails, hrun]; trivial)
      refine ⟨fun _ _ hw => (by cases hw), h.numbered, fun T n hn => ?_, fun T n hn => ?_⟩
      · obtain ⟨count, hcount, -, hleft⟩ := h.aborted hplain hrun T
        rcases hleft with hnone | hsame
        · cases hnone.symm.trans hn
        · exact hcount n (hsame.symm.trans hn)
      · obtain ⟨_, _, harchive, -⟩ := h.aborted hplain hrun T
        exact h.archive T n ((congrFun harchive T).symm.trans hn)

namespace LogState

/-- A row moves from the log to the archive, unless its id is archived already. -/
def moveRow (s : LogState) (atMs : Nat) (r : LogRow) : LogState :=
  { s with
    archive := s.archive.insertIgnore ⟨r.entry, atMs⟩
    log := s.log.filter fun r' => !decide (r'.rowid = r.rowid) }

/-- None of the rows has its id in the archive. -/
def Fresh (moved : LogRow → Prop) (s : LogState) : Prop :=
  ∀ r ∈ s.log.rows, moved r → s.archive.get r.entry.id = none

/-- Some of the rows of a topic have moved to the archive. -/
structure Moved (topic : Topic) (moved : LogRow → Prop) (n : Nat) (s s' : LogState) : Prop where
  sequence : s'.sequence = s.sequence
  counts : s'.counts = s.counts
  archiveCounts : s'.archiveCounts = s.archiveCounts
  heads : s'.heads = s.heads
  sublist : s'.log.rows.Sublist s.log.rows
  log : ∀ T, s.logCount T = s'.logCount T + if T = topic then n else 0
  others : ∀ T, T ≠ topic → s'.archivedCount T = s.archivedCount T
  archive : Fresh moved s → s'.archivedCount topic = s.archivedCount topic + n
  fresh : Fresh moved s → Fresh moved s'

variable {moved : LogRow → Prop} {s' s'' : LogState}

theorem Moved.refl (topic : Topic) (moved : LogRow → Prop) (s : LogState) :
    Moved topic moved 0 s s where
  sequence := rfl
  counts := rfl
  archiveCounts := rfl
  heads := rfl
  sublist := List.Sublist.refl _
  log := by
    intro T
    rw [ite_self]
    rfl
  others := fun _ _ => rfl
  archive := fun _ => rfl
  fresh := fun h => h

theorem Moved.trans (h : Moved topic moved n s s') (h' : Moved topic moved m s' s'') :
    Moved topic moved (n + m) s s'' where
  sequence := h'.sequence.trans h.sequence
  counts := h'.counts.trans h.counts
  archiveCounts := h'.archiveCounts.trans h.archiveCounts
  heads := h'.heads.trans h.heads
  sublist := h'.sublist.trans h.sublist
  log := by
    intro T
    rw [h.log T, h'.log T]
    split
    · omega
    · rfl
  others := fun T hT => (h'.others T hT).trans (h.others T hT)
  archive := by
    intro hf
    rw [h'.archive (h.fresh hf), h.archive hf, Nat.add_assoc]
  fresh := fun hf => h'.fresh (h.fresh hf)

theorem Moved.numbered (h : Moved topic moved n s s') (hn : Numbered s) : Numbered s' := by
  refine ⟨hn.1.sublist h.sublist, fun r hr => ?_⟩
  rw [h.sequence]
  exact hn.2 r (h.sublist.subset hr)

theorem archivedCount_insertIgnore (archive : Table EntryId ArchiveRow fun r => r.entry.id)
    (a : ArchiveRow) (T : Topic) :
    (archive.insertIgnore a).count (fun r => r.entry.topic = T) =
      archive.count (fun r => r.entry.topic = T) +
        if a.entry.topic = T ∧ archive.get a.entry.id = none then 1 else 0 := by
  rw [Table.insertIgnore]
  by_cases hget : archive.get a.entry.id = none
  · rw [if_pos hget, Table.count, Table.count, Table.rows_upsert_of_get_eq_none hget,
      List.filter_append, List.length_append]
    by_cases hT : a.entry.topic = T
    · simp [hT, hget]
    · simp [hT]
  · rw [if_neg hget, if_neg fun h => hget h.2]
    rfl

theorem moved_moveRow (hn : Numbered s) (hr : r ∈ s.log.rows) (htopic : r.entry.topic = topic)
    (hm : moved r) (atMs : Nat) : Moved topic moved 1 s (s.moveRow atMs r) where
  sequence := rfl
  counts := rfl
  archiveCounts := rfl
  heads := rfl
  sublist := List.filter_sublist
  log := by
    intro T
    obtain ⟨before, after, hrows⟩ := List.append_of_mem hr
    have hsorted := hn.1
    rw [hrows, List.pairwise_append] at hsorted
    obtain ⟨-, hafter, hbefore⟩ := hsorted
    have hleft : (s.moveRow atMs r).log.rows = before ++ after := by
      rw [moveRow, Table.rows_filter, hrows, List.filter_append, List.filter_cons_of_neg (by simp)]
      congr 1
      · apply List.filter_eq_self.2
        intro r' hr'
        have hlt := hbefore r' hr' r List.mem_cons_self
        simpa using Nat.ne_of_lt hlt
      · apply List.filter_eq_self.2
        intro r' hr'
        have hlt := (List.pairwise_cons.1 hafter).1 r' hr'
        simpa using Nat.ne_of_gt hlt
    rw [logCount, logCount, Table.count, Table.count, hleft, hrows, List.filter_append,
      List.filter_append, List.length_append, List.length_append]
    by_cases hT : T = topic
    · rw [if_pos hT, List.filter_cons_of_pos (by rw [hT, htopic, decide_eq_true rfl]),
        List.length_cons]
      omega
    · rw [if_neg hT, List.filter_cons_of_neg (by rw [htopic, decide_eq_true_iff]; exact Ne.symm hT)]
      rfl
  others := by
    intro T hT
    refine (archivedCount_insertIgnore ..).trans ?_
    rw [if_neg fun h => hT (h.1.symm.trans htopic)]
    rfl
  archive := by
    intro hf
    refine (archivedCount_insertIgnore ..).trans ?_
    rw [if_pos ⟨htopic, hf r hr hm⟩]
    rfl
  fresh := by
    intro hf r' hr' hm'
    obtain ⟨hmem, hne⟩ := List.mem_filter.1 hr'
    rw [Bool.not_eq_true', decide_eq_false_iff_not] at hne
    refine (Table.get_insertIgnore ..).trans ?_
    rw [if_neg, hf r' hmem hm']
    intro h
    exact hne (congrArg LogRow.rowid (List.inj_on_of_nodup_map s.log.nodup hr hmem h.1).symm)

end LogState

/-- The rows that `archiveCovered` takes. -/
def coveredBy (topic : Topic) (writer : WriterId) (maxSeq maxRowid : Nat) (r : LogRow) : Bool :=
  Store.inStream topic writer r && decide (r.entry.seq ≤ maxSeq ∧ r.rowid ≤ maxRowid)

namespace LogState

variable {moved : LogRow → Prop} {t : Txn}

/-- One batch of `archiveCovered`. -/
theorem archiveRows_runs (atMs : Nat) (rows : List LogRow) (hn : t.logState.Numbered) (hnodup : rows.Nodup)
    (hrows : ∀ r ∈ rows, r ∈ t.logState.log.rows ∧ r.entry.topic = topic ∧ moved r) :
    Runs (forM rows fun r => do
        execute fun db => { db with sqArchive := db.sqArchive.insertIgnore ⟨r.entry, atMs⟩ }
        execute fun db =>
          { db with sqLog := db.sqLog.filter fun r' => !decide (r'.rowid = r.rowid) }) t
      (fun _ t' => t'.core = { t.core with db := t'.core.db } ∧
        Moved topic moved rows.length t.logState t'.logState)
      fun _ t' => t'.core = { t.core with db := t'.core.db } := by
  induction rows generalizing t with
  | nil => exact ⟨rfl, .refl ..⟩
  | cons r rows ih =>
    obtain ⟨hr, htopic, hm⟩ := hrows r List.mem_cons_self
    obtain ⟨hnotin, hnodup⟩ := List.nodup_cons.1 hnodup
    have hstep := moved_moveRow hn hr htopic hm atMs
    rw [List.forM_cons]
    refine .bind (.bind (execute_runs (fun fault => ?_) fun _ => rfl))
    refine execute_runs (fun fault' => ?_) fun _ => rfl
    have hrest (r' : LogRow) (hr' : r' ∈ rows) : r' ∈ (t.logState.moveRow atMs r).log.rows := by
      have hmem := (hrows r' (List.mem_cons_of_mem r hr')).1
      refine List.mem_filter.2 ⟨hmem, ?_⟩
      rw [Bool.not_eq_true', decide_eq_false_iff_not]
      intro heq
      exact hnotin (hn.inj hmem hr heq ▸ hr')
    apply (ih (t := { t with
        core.db.sqArchive := t.core.db.sqArchive.insertIgnore ⟨r.entry, atMs⟩
        core.db.sqLog := t.core.db.sqLog.filter fun r' => !decide (r'.rowid = r.rowid)
        fault := fault' }) (hstep.numbered hn) hnodup fun r' hr' =>
      ⟨hrest r' hr', (hrows r' (List.mem_cons_of_mem r hr')).2⟩).mono
    · intro _ t' ht'
      refine ⟨ht'.1, ?_⟩
      have hboth := hstep.trans ht'.2
      rw [Nat.add_comm] at hboth
      exact hboth
    · exact fun _ _ h => h

theorem archiveBatches_runs (hmoved : ∀ r, coveredBy topic writer maxSeq maxRowid r = true → moved r)
    (hn : t.logState.Numbered) (fuel total : Nat) :
    Runs (Store.archiveBatches topic writer maxSeq maxRowid atMs fuel total) t
      (fun total' t' => ∃ n, total' = total + n ∧ Moved topic moved n t.logState t'.logState)
      fun _ t' => (∃ n, Moved topic moved n t.logState t'.logState) ∧
        ((t.logState.log.rows.filter (coveredBy topic writer maxSeq maxRowid)).length <
          Store.BATCH → t'.logState = t.logState) := by
  induction fuel generalizing total t with
  | zero => exact ⟨0, rfl, .refl ..⟩
  | succ fuel ih =>
    apply Runs.bind
    apply transaction_runs
    refine .bind (query_runs (fun fault => ?_) fun _ => ⟨⟨0, .refl ..⟩, fun _ => rfl⟩)
    generalize hrows : List.take Store.BATCH _ = rows
    have hmem (r : LogRow) (hr : r ∈ rows) :
        r ∈ t.logState.log.rows ∧ coveredBy topic writer maxSeq maxRowid r = true := by
      rw [← hrows] at hr
      exact Table.mem_selectBy.1 (List.mem_of_mem_take hr)
    have hnodup : rows.Nodup := by
      rw [← hrows]
      have hlog := t.core.db.sqLog.nodup.of_map.filter (coveredBy topic writer maxSeq maxRowid)
      exact ((List.perm_insertionSort _ _).nodup_iff.2 hlog).sublist (List.take_sublist ..)
    have htopic (r : LogRow) (hr : r ∈ rows) : r.entry.topic = topic :=
      (of_decide_eq_true (Bool.and_eq_true_iff.1 (hmem r hr).2).1).1
    have hbatch := archiveRows_runs atMs rows (show LogState.Numbered (Txn.logState { t with fault := fault }) from hn)
      hnodup fun r hr => ⟨(hmem r hr).1, htopic r hr, hmoved r (hmem r hr).2⟩
    refine .bind (hbatch.mono (fun _ t' ht' => .pure ?_) fun e t' ht' => ?_)
    · have hstep : Moved topic moved rows.length t.logState t'.logState := ht'.2
      split
      next => exact ⟨rows.length, rfl, hstep⟩
      next hfull =>
        apply (ih (t := t') (hstep.numbered hn) (total + rows.length)).mono
        · rintro total' t'' ⟨n, rfl, hrest⟩
          exact ⟨rows.length + n, Nat.add_assoc .., hstep.trans hrest⟩
        · rintro e t'' ⟨⟨n, hrest⟩, -⟩
          refine ⟨⟨_, hstep.trans hrest⟩, fun hfew => absurd ?_ hfull⟩
          rw [← hrows]
          apply lt_of_le_of_lt (List.length_take_le' ..)
          rw [Table.selectBy, List.length_insertionSort]
          exact hfew
    · have hback : Txn.logState { t' with core.db := t.core.db } = t.logState := by
        rw [Txn.logState, ht']
        rfl
      rw [hback]
      exact ⟨⟨0, .refl ..⟩, fun _ => rfl⟩

/-- Counts that follow the rows which moved are right. -/
theorem Moved.exact (h : Moved topic moved n s s') (he : Exact s)
    (counts archiveCounts : Topic → Option Nat)
    (hc : ∀ T k, counts T = some k → s.counts T = some k ∧ (T = topic → n = 0))
    (ha : ∀ T k, archiveCounts T = some k → ∃ k', s.archiveCounts T = some k' ∧
      if T = topic then Fresh moved s ∧ k = k' + n else k = k') :
    Exact { s' with counts := counts, archiveCounts := archiveCounts } where
  keyed := by
    intro k head hk
    exact he.keyed k head (h.heads ▸ hk)
  numbered := h.numbered he.numbered
  log := by
    intro T k hk
    obtain ⟨hold, hzero⟩ := hc T k hk
    rw [he.log T k hold, h.log T]
    split
    next hT => rw [hzero hT]; rfl
    next => rfl
  archive := by
    intro T k hk
    obtain ⟨k', hold, hcase⟩ := ha T k hk
    split at hcase
    next hT =>
      rw [hcase.2, he.archive T k' hold, hT]
      exact (h.archive hcase.1).symm
    next hT =>
      rw [hcase, he.archive T k' hold]
      exact (h.others T hT).symm

/-- What a call of `archiveCovered` needs for the counts to stay right. -/
structure Sound (topic : Topic) (moved : LogRow → Prop) (bare : Prop) (base : List LogRow)
    (s : LogState) : Prop where
  exact : s.Exact
  fresh : s.archiveCounts topic ≠ none → Fresh moved s
  bare : bare → s.counts topic = none ∧ s.archiveCounts topic = none
  sublist : s.log.rows.Sublist base

theorem Sound.archiveCovered {bare : Prop} {base : List LogRow}
    {mild : Prop} (hmoved : ∀ r, coveredBy topic writer maxSeq maxRowid r = true → moved r)
    (hmild : mild → bare ∨ (base.filter (coveredBy topic writer maxSeq maxRowid)).length <
      Store.BATCH) :
    Keeps (fun t => Sound topic moved bare base t.logState) (fun t => mild → Exact t.logState)
      (Store.archiveCovered topic writer maxSeq maxRowid atMs) := by
  constructor
  intro t ht
  refine .bind (.get (.bind ?_))
  apply (archiveBatches_runs hmoved ht.exact.numbered _ 0).mono
  · rintro total t' ⟨n, htotal, hstep⟩
    rw [Nat.zero_add] at htotal
    subst htotal
    have hcounts := hstep.counts
    have harchive := hstep.archiveCounts
    split
    next hpos =>
      refine .bind (.modify (.pure ⟨trivial, ?_, fun hne => ?_, fun hb => ?_, ?_⟩))
      · apply hstep.exact ht.exact
        · intro T k hk
          replace hk : (if T = topic then none else t'.logState.counts T) = some k := hk
          split at hk
          next => cases hk
          next hT => exact ⟨hcounts ▸ hk, fun heq => absurd heq hT⟩
        · intro T k hk
          replace hk : (if T = topic then (t'.logState.archiveCounts T).map (· + total)
            else t'.logState.archiveCounts T) = some k := hk
          split at hk
          next hT =>
            obtain ⟨k', hk', rfl⟩ := Option.map_eq_some_iff.1 hk
            have hold : t.logState.archiveCounts T = some k' := harchive ▸ hk'
            refine ⟨k', hold, ?_⟩
            rw [if_pos hT]
            refine ⟨ht.fresh ?_, rfl⟩
            rw [← hT, hold]
            exact Option.some_ne_none _
          next hT =>
            refine ⟨k, harchive ▸ hk, ?_⟩
            rw [if_neg hT]
      · apply hstep.fresh (ht.fresh fun hnone => hne ?_)
        have hnone' : t'.logState.archiveCounts topic = none := by rw [harchive, hnone]
        exact (if_pos rfl).trans (Option.map_eq_none_iff.2 hnone')
      · have hnone' : t'.logState.archiveCounts topic = none := by rw [harchive, (ht.bare hb).2]
        exact ⟨if_pos rfl, (if_pos rfl).trans (Option.map_eq_none_iff.2 hnone')⟩
      · exact hstep.sublist.trans ht.sublist
    next hzero =>
      obtain rfl := Nat.eq_zero_of_not_pos hzero
      refine ⟨trivial, ?_, fun hne => ?_, fun hb => ?_, hstep.sublist.trans ht.sublist⟩
      · apply hstep.exact ht.exact
        · exact fun T k hk => ⟨hcounts ▸ hk, fun _ => rfl⟩
        · intro T k hk
          have hold : t.logState.archiveCounts T = some k := harchive ▸ hk
          refine ⟨k, hold, ?_⟩
          split
          next hT =>
            refine ⟨ht.fresh ?_, rfl⟩
            rw [← hT, hold]
            exact Option.some_ne_none _
          next => rfl
      · exact hstep.fresh (ht.fresh (harchive ▸ hne))
      · exact hcounts ▸ harchive ▸ ht.bare hb
  · rintro e t' ⟨⟨n, hstep⟩, hfew⟩ hm
    have hcounts := hstep.counts
    have harchive := hstep.archiveCounts
    rcases hmild hm with hb | hlt
    · obtain ⟨hnone, hnone'⟩ := ht.bare hb
      apply hstep.exact ht.exact
      · intro T k hk
        have hold : t.logState.counts T = some k := hcounts ▸ hk
        refine ⟨hold, fun hT => ?_⟩
        rw [hT, hnone] at hold
        cases hold
      · intro T k hk
        have hold : t.logState.archiveCounts T = some k := harchive ▸ hk
        refine ⟨k, hold, ?_⟩
        rw [if_neg]
        intro hT
        rw [hT, hnone'] at hold
        cases hold
    · rw [hfew (lt_of_le_of_lt (ht.sublist.filter _).length_le hlt)]
      exact ht.exact

end LogState

/-- The certificate that `getCert` gives. -/
def Core.certOf (core : Core) (topic : Topic) : Option FinalityCert :=
  (core.certs topic).getD (core.db.sqFinality.get topic)

/-- The least rowid that a live consumer has reached. -/
def archiveFloor (env : Env) (db : Db) (topic : Topic) (now : Nat) : Nat :=
  ((db.sqCursors.rows.filter fun r => r.topic = topic).filter fun c =>
    !decide ((c.updatedAt : Int) < (now : Int) - env.constants.FINALITY_WINDOW_MS)).foldl
      (fun m c => min m c.lastRowid) MAX_SAFE_INTEGER

/-- The certificate covers the row, and the live consumers have passed it. -/
def Archivable (env : Env) (core : Core) (topic : Topic) (now : Nat) (r : LogRow) : Prop :=
  ∃ cert, core.certOf topic = some cert ∧ ∃ c ∈ cert.cut.rows,
    coveredBy topic c.writer c.seq (archiveFloor env core.db topic now) r = true

def ArchiveFails (env : Env) (core : Core) (topic : Topic) (now : Nat) (fault : Option Nat) :
    Prop :=
  match archiveNow env topic { Txn.start core fault with ambient := { now := now } } with
  | .ok .. => False
  | .error .. => True

/-- The pass archives no id again while the archive's count is cached; and where it fails, it has no
count to keep or takes less than a batch of each stream. -/
structure CleanPass (env : Env) (core : Core) (topic : Topic) (now : Nat) (fault : Option Nat) :
    Prop where
  fresh : core.archiveCounts topic ≠ none → ∀ r ∈ core.db.sqLog.rows,
    Archivable env core topic now r → core.db.sqArchive.get r.entry.id = none
  whole : ArchiveFails env core topic now fault →
    (core.logCounts topic = none ∧ core.archiveCounts topic = none) ∨
      ∀ cert, core.certOf topic = some cert → ∀ c ∈ cert.cut.rows,
        (core.db.sqLog.rows.filter
          (coveredBy topic c.writer c.seq (archiveFloor env core.db topic now))).length <
            Store.BATCH

theorem getCert_certOf (topic : Topic) (t : Txn) :
    Runs (getCert topic) t
      (fun cert t' => cert = t.core.certOf topic ∧ t'.logState = t.logState ∧
        t'.core.db = t.core.db ∧ t'.ambient = t.ambient)
      fun _ t' => t'.logState = t.logState := by
  refine .bind (.get ?_)
  cases hcert : t.core.certs topic with
  | some found => exact ⟨by rw [Core.certOf, hcert]; rfl, rfl, rfl, rfl⟩
  | none =>
    refine .bind (query_runs (fun fault => .bind (.modify (.pure ⟨?_, rfl, rfl, rfl⟩))) fun _ => rfl)
    rw [Core.certOf, hcert]
    rfl

theorem LogState.Sound.archiveNow (env : Env) {bare mild : Prop} {base : List LogRow} {moved : LogRow → Prop}
    {topic : Topic} {t : Txn} (ht : Sound topic moved bare base t.logState)
    (hcovered : ∀ cert, t.core.certOf topic = some cert → ∀ c ∈ cert.cut.rows,
      let covered := coveredBy topic c.writer c.seq
        (archiveFloor env t.core.db topic t.ambient.now)
      (∀ r, covered r = true → moved r) ∧
        (mild → bare ∨ (base.filter covered).length < Store.BATCH)) :
    Runs (Seqscribe.archiveNow env topic) t (fun _ t' => Exact t'.logState)
      fun _ t' => mild → Exact t'.logState := by
  refine .bind ((getCert_certOf topic t).mono (fun found t₁ h₁ => ?_) fun _ t' heq _ => ?_)
  · obtain ⟨hcert, hstate, hdb, hambient⟩ := h₁
    rw [← hstate] at ht
    rw [← hdb, ← hambient] at hcovered
    split
    next => exact ht.exact
    next cert =>
      have hcut := hcovered cert hcert.symm
      have hfails : ∀ s, Sound topic moved bare base s → mild → Exact s := fun _ h _ => h.exact
      have hstale (cursors : List CursorRow) :
          Keeps (fun t => Sound topic moved bare base t.logState)
            (fun t => mild → Exact t.logState)
            (forM cursors fun c => do
              Store.cursorDelete c.consumer topic
              report (.consumerAbandoned topic c.consumer)) :=
        .forM fun c _ => .bind (LogUpkeep.execute hfails _ fun _ => ⟨rfl, rfl, rfl⟩) fun _ =>
          .modify fun _ h => h
      have hrows : Keeps (fun t => Sound topic moved bare base t.logState)
          (fun t => mild → Exact t.logState)
          (forM cert.cut.rows fun c => do
            if c.seq ≠ 0 then
              let _ ← Store.archiveCovered topic c.writer c.seq
                (archiveFloor env t₁.core.db topic t₁.ambient.now) t₁.ambient.now) :=
        .forM fun c hc => .ite (fun _ => .bind (Sound.archiveCovered (hcut c hc).1 (hcut c hc).2)
          fun _ => .pure _) fun _ => .pure _
      refine .bind (.bind (.get (.pure (.bind (query_runs (fun fault => ?_) fun _ _ => ht.exact)))))
      refine .bind (((hstale _).runs { t₁ with fault := fault } ht).mono (fun _ t₂ h₂ => ?_) fun _ _ h => h)
      exact (hrows.runs t₂ h₂.2).mono (fun _ _ h => h.2.exact) fun _ _ h => h
  · exact heq ▸ ht.exact

theorem LogState.Exact.archiveNow (h : core.logState.Exact)
    (hclean : CleanPass env core topic now fault) :
    (runDirect (Seqscribe.archiveNow env topic) now fault core).core.logState.Exact := by
  let t : Txn := { Txn.start core fault with ambient := { now := now } }
  have ht : Sound topic (Archivable env core topic now)
      (core.logCounts topic = none ∧ core.archiveCounts topic = none) core.db.sqLog.rows
      t.logState := ⟨h, hclean.fresh, fun hb => hb, List.Sublist.refl _⟩
  have hruns := ht.archiveNow env
    fun cert hcert c hc => ⟨fun r hr => ⟨cert, hcert, c, hc, hr⟩,
      fun (hfails : ArchiveFails env core topic now fault) =>
        (hclean.whole hfails).imp_right fun hfew => hfew cert hcert c hc⟩
  rw [runDirect]
  cases hrun : Seqscribe.archiveNow env topic t with
  | ok _ t' => exact hruns.of_ok hrun
  | error e t' =>
    apply hruns.of_error hrun
    rw [ArchiveFails]
    split
    next hok => cases hrun.symm.trans hok
    next => trivial

theorem keeps_archivedCount (topic : Topic) : Keeps (fun t => LogState.Exact t.logState)
    (fun t => LogState.Exact t.logState) (Store.archivedCount topic) := by
  constructor
  intro t ht
  refine .bind (.get ?_)
  split
  next => exact ⟨trivial, ht⟩
  next =>
    refine .bind (query_runs (fun fault => .bind (.modify (.pure ⟨trivial, ?_⟩))) fun _ => ht)
    refine ⟨ht.keyed, ht.numbered, ht.log, fun T n hn => ?_⟩
    replace hn : (if T = topic then some _ else t.logState.archiveCounts T) = some n := hn
    split at hn
    next heq =>
      rw [heq]
      exact (Option.some.inj hn).symm
    next => exact ht.archive T n hn

/-- Calls on the store's counts, beside the inputs of the core. -/
inductive CountCall (env : Env) where
  | input (i : Input env)
  | logCount (topic : Topic)
  | archivedCount (topic : Topic)

def countStep (env : Env) (core : Core) : CountCall env → Option Core
  | .input i => some (step env core i).core
  | .logCount topic => some (runDirect (Store.logCount topic) 0 none core).core
  | .archivedCount topic => some (runDirect (Store.archivedCount topic) 0 none core).core

/-- No flush aborts after harm, and every archive pass is clean. -/
def CountSafe (env : Env) (core : Core) : CountCall env → Prop
  | .input (.flush batch fault) => FlushFails env batch fault core → Unharmed batch core
  | .input (.archiveNow topic now fault) => CleanPass env core topic now fault
  | _ => True

theorem LogState.Exact.step (h : core.logState.Exact) (hsafe : CountSafe env core a)
    (hstep : countStep env core a = some core') : core'.logState.Exact := by
  have hH := LogState.exact_reads.handlers env
  cases a with
  | logCount topic =>
    obtain rfl := Option.some.inj hstep
    exact (LogUpkeep.logCount (fun _ h => h) topic fun s hs => hs.recount topic).runDirect h 0 none
  | archivedCount topic =>
    obtain rfl := Option.some.inj hstep
    exact (keeps_archivedCount topic).runDirect h 0 none
  | input i =>
    obtain rfl := Option.some.inj hstep
    cases i with
    | flush batch fault => exact h.flush hsafe
    | archiveNow topic now fault => exact h.archiveNow hsafe
    | getStream topic writer => exact (hH.getStream topic writer trivial).runDirect h 0 none
    | getCert topic => exact (hH.getCert topic).runDirect h 0 none
    | floorOf topic writer => exact (hH.floorOf topic writer).runDirect h 0 none
    | vectors now => exact LogState.exact_reads.vectors.runDirect h now none
    | restart => exact ⟨nofun, h.numbered, nofun, nofun⟩
    | _ => exact h

/-- A retirement of a topic that has rows leaves the heads of its streams. -/
def SparesHeads (q : Queued env) (t : Txn) : Prop :=
  ∀ topic known, q.2 = .retireTopic topic known →
    0 < (t.core.db.sqLog.count fun r => r.entry.topic = topic) →
    ∀ u t', processQueued env q t = .ok u t' → t'.core.db.sqWriters = t.core.db.sqWriters

theorem sparesHeads (h : t.logState.Exact) (q : Queued env) : SparesHeads q t := by
  intro topic known heq hpos u t' hrun
  have hcount : Runs (Store.logCount topic) { t with ambient := q.1 }
      (fun n t' => 0 < n ∧ t'.core.db.sqWriters = t.core.db.sqWriters) fun _ _ => True := by
    refine .bind (.get ?_)
    split
    next n hn => exact ⟨h.log topic n hn ▸ hpos, rfl⟩
    next =>
      exact .bind (query_runs (fun _ => .bind (.modify (.pure ⟨hpos, rfl⟩))) fun _ => trivial)
  have hruns : Runs (processQueued env q) t
      (fun _ t' => t'.core.db.sqWriters = t.core.db.sqWriters) fun _ _ => True := by
    refine .bind (.modify ?_)
    rw [heq]
    apply Runs.bind
    rw [topicPolicy]
    split
    next policy _ =>
      apply Runs.pure
      split
      · rfl
      · split
        · rfl
        · refine .bind (hcount.mono (fun n t₁ h₁ => ?_) fun _ _ h => h)
          rw [if_pos h₁.1]
          exact h₁.2
    next => exact trivial
  exact hruns.of_ok hrun

theorem LogState.Exact.batch {batch : List (Queued env)} (h : t.logState.Exact) :
    BatchEvery env SparesHeads batch t := by
  induction batch generalizing t with
  | nil => trivial
  | cons q batch ih =>
    refine ⟨sparesHeads h q, ?_⟩
    split
    next t' hrun =>
      have hitem := LogState.exact_upkeep.processQueued q trivial (fun _ => trivial)
        (fun _ => trivial) fun topic _ _ s hs => hs.recount topic
      exact ih ((hitem.runs t h).of_ok hrun).2
    next => trivial

/-- A call that returns under no fault. -/
theorem Returns.exists_ok {m : LogM α} {a : α}
    (h : Returns (fun _ => False) m (Txn.start core none) fun b _ => b = a) :
    ∃ t, m (Txn.start core none) = .ok a t := by
  obtain ⟨b, t, hm, -, rfl⟩ := h.ends rfl
  exact ⟨t, hm⟩

theorem logCount_cached (h : core.logCounts topic = some n) :
    ∃ t, Store.logCount topic (Txn.start core none) = .ok n t := by
  apply Returns.exists_ok
  refine .bind (.get ?_)
  rw [show (Txn.start core none).core.logCounts topic = some n from h]
  exact .pure rfl

theorem LogState.Exact.logCount (h : core.logState.Exact) (topic : Topic) :
    ∃ t, Store.logCount topic (Txn.start core none) =
      .ok (core.db.sqLog.count fun r => r.entry.topic = topic) t := by
  apply Returns.exists_ok
  refine .bind (.get ?_)
  split
  next n hn => exact .pure (h.log topic n hn)
  next => exact .bind (query_spec fun fault hfault => .bind (.modify rfl (.pure rfl)))

theorem LogState.Exact.archivedCount (h : core.logState.Exact) (topic : Topic) :
    ∃ t, Store.archivedCount topic (Txn.start core none) =
      .ok (core.db.sqArchive.count fun r => r.entry.topic = topic) t := by
  apply Returns.exists_ok
  refine .bind (.get ?_)
  split
  next n hn => exact .pure (h.archive topic n hn)
  next => exact .bind (query_spec fun fault hfault => .bind (.modify rfl (.pure rfl)))

/-- In every run without an abort after harm and with clean archive passes, both counts are the
numbers of rows, and no retirement in any further batch takes a topic with rows for an empty one. -/
theorem counts_exact (hrun : Trace (countStep env) (CountSafe env) Core.init as core) :
    (∀ topic, ∃ t, Store.logCount topic (Txn.start core none) =
      .ok (core.db.sqLog.count fun r => r.entry.topic = topic) t) ∧
    (∀ topic, ∃ t, Store.archivedCount topic (Txn.start core none) =
      .ok (core.db.sqArchive.count fun r => r.entry.topic = topic) t) ∧
    ∀ batch fault, BatchEvery env SparesHeads batch (Txn.start core fault) := by
  have h : core.logState.Exact := by
    apply hrun.keeps (fun core => core.logState.Exact)
    · exact ⟨nofun, ⟨List.Pairwise.nil, fun _ hr => absurd hr List.not_mem_nil⟩, nofun, nofun⟩
    · exact fun _ _ _ ht hsafe hstep => ht.step hsafe hstep
  exact ⟨fun topic => h.logCount topic, fun topic => h.archivedCount topic,
    fun batch fault => LogState.Exact.batch (t := Txn.start core fault) h⟩

/-! A feed whose rows are pruned and whose heads are collected. -/

def feedPolicy : TopicPolicy :=
  { fullPolicy with replication := .subscribeOnly, finalityAuthority := none }

def feedEnv : Env :=
  { hostEnv "a" with topics := fun T => if T = "t" then some feedPolicy else none }

def feedAppend : QueueItem feedEnv :=
  .append { topic := "t", kind := js "k", payload := .null, known := rfl }

def feedFlush (fault : Option Nat) (items : List (QueueItem feedEnv)) : CountCall feedEnv :=
  .input (.flush (items.map fun item => ({ now := 1 }, item)) fault)

def feedRun (calls : List (CountCall feedEnv)) : Core :=
  calls.foldl (fun core a => (countStep feedEnv core a).getD core) Core.init

theorem trace_feedRun (ok : Core → CountCall feedEnv → Prop) {calls : List (CountCall feedEnv)}
    (h : Trace (countStep feedEnv) ok Core.init calls (feedRun calls))
    (a : CountCall feedEnv) (hok : ok (feedRun calls) a) :
    Trace (countStep feedEnv) ok Core.init (calls ++ [a]) (feedRun (calls ++ [a])) := by
  apply h.snoc hok
  rw [feedRun, feedRun, List.foldl_append]
  cases a with
  | input i => rfl
  | logCount topic => rfl
  | archivedCount topic => rfl

theorem unharmed_feedAppend (h : core.logCounts "t" = none) (fault : Option Nat) :
    CountSafe feedEnv core (feedFlush fault [feedAppend]) := by
  intro
  constructor
  · intro q hq _
    obtain rfl := List.mem_singleton.1 hq
    exact h
  · intro q hq hretires
    obtain rfl := List.mem_singleton.1 hq
    cases hretires

/-- An append that fails, an append that commits, and a count. -/
def feedCalls : List (CountCall feedEnv) :=
  [feedFlush (some 3) [feedAppend], feedFlush none [feedAppend], .logCount "t"]

theorem counts_exact_of_feed :
    (feedRun feedCalls).logCounts "t" = some 1 ∧
    (∀ topic, ∃ t, Store.logCount topic (Txn.start (feedRun feedCalls) none) =
      .ok ((feedRun feedCalls).db.sqLog.count fun r => r.entry.topic = topic) t) ∧
    (∀ topic, ∃ t, Store.archivedCount topic (Txn.start (feedRun feedCalls) none) =
      .ok ((feedRun feedCalls).db.sqArchive.count fun r => r.entry.topic = topic) t) ∧
    ∀ batch fault, BatchEvery feedEnv SparesHeads batch (Txn.start (feedRun feedCalls) fault) := by
  refine ⟨by decide +kernel, ?_⟩
  have h₁ := trace_feedRun (CountSafe feedEnv) .done _ (unharmed_feedAppend rfl (some 3))
  have h₂ := trace_feedRun _ h₁ _ (unharmed_feedAppend (by decide +kernel) none)
  exact counts_exact (trace_feedRun _ h₂ (.logCount "t") trivial)

/-- A flush prunes the rows and retires the topic, but does not commit: the count of zero rows
stays. -/
def harmCalls : List (CountCall feedEnv) :=
  [feedFlush none [feedAppend],
    feedFlush (some 5) [.pruneTopic "t" none (some 0) rfl, .retireTopic "t" rfl]]

theorem stale_count_retires_live_topic : ∃ calls core,
    Trace (countStep feedEnv) (fun _ _ => True) Core.init calls core ∧
    (∃ t, Store.logCount "t" (Txn.start core none) = .ok 0 t) ∧
    (core.db.sqLog.count fun r => r.entry.topic = "t") = 1 ∧
    ∃ t', processQueued feedEnv ({ now := 2 }, .retireTopic "t" rfl) (Txn.start core none) =
        .ok () t' ∧
      t'.core.db.sqLog.rows.length = 1 ∧ t'.core.db.sqWriters.rows = [] := by
  have h₁ := trace_feedRun (fun _ _ => True) .done (feedFlush none [feedAppend]) trivial
  refine ⟨harmCalls, feedRun harmCalls, trace_feedRun _ h₁ _ trivial, ?_⟩
  have hcached : (feedRun harmCalls).logCounts "t" = some 0 := by decide +kernel
  refine ⟨?_, by decide +kernel, ?_⟩
  · exact logCount_cached hcached
  · have hretired : (match processQueued feedEnv ({ now := 2 }, .retireTopic "t" rfl)
        (Txn.start (feedRun harmCalls) none) with
      | .ok _ t => decide (t.core.db.sqLog.rows.length = 1) && t.core.db.sqWriters.rows.isEmpty
      | .error .. => false) = true := by decide +kernel
    split at hretired
    next t heq =>
      obtain ⟨hlog, hwriters⟩ := Bool.and_eq_true_iff.1 hretired
      exact ⟨t, heq, of_decide_eq_true hlog, List.isEmpty_iff.1 hwriters⟩
    next => cases hretired

end Seqscribe
