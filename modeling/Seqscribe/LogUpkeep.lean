import Seqscribe.Handlers
import Seqscribe.Returns

namespace Seqscribe
set_option autoImplicit true

/-! What the items do to the log, the archive, and the counts kept beside them. -/

structure LogState where
  log : Table EntryId LogRow fun r => r.entry.id
  sequence : Nat
  archive : Table EntryId ArchiveRow fun r => r.entry.id
  counts : Topic → Option Nat
  archiveCounts : Topic → Option Nat
  heads : StreamId → Option WriterRow

def Core.logState (core : Core) : LogState :=
  ⟨core.db.sqLog, core.db.logSequence, core.db.sqArchive, core.logCounts, core.archiveCounts,
    core.heads⟩

namespace LogState

def Numbered (s : LogState) : Prop :=
  (s.log.rows.Pairwise fun r r' => r.rowid < r'.rowid) ∧ ∀ r ∈ s.log.rows, r.rowid ≤ s.sequence

/-- Every cached head is that of its stream. -/
def Keyed (s : LogState) : Prop := ∀ k head, s.heads k = some head → head.stream = k

def logCount (s : LogState) (T : Topic) : Nat := s.log.count fun r => r.entry.topic = T

/-- A row joins the log. -/
def insert (s : LogState) (e : LogEntry) (log : Table EntryId LogRow fun r => r.entry.id) :
    LogState :=
  { s with
    log := log
    sequence := s.sequence + 1
    counts := fun T => if T = e.topic then (s.counts T).map (· + 1) else s.counts T }

/-- Rows leave the log. -/
def delete (s : LogState) (p : LogRow → Bool) : LogState := { s with log := s.log.filter p }

def drop (s : LogState) (topic : Topic) : LogState :=
  { s with counts := fun T => if T = topic then none else s.counts T }

def recount (s : LogState) (topic : Topic) (n : Nat) : LogState :=
  { s with counts := fun T => if T = topic then some n else s.counts T }

def cacheHead (s : LogState) (k : StreamId) (head : Option WriterRow) : LogState :=
  { s with heads := Function.update s.heads k head }

theorem counts_insert (s : LogState) (e : LogEntry)
    (log : Table EntryId LogRow fun r => r.entry.id) (T : Topic) :
    (s.insert e log).counts T =
      if T = e.topic then (s.counts T).map (· + 1) else s.counts T := rfl

theorem counts_drop (s : LogState) (topic T : Topic) :
    (s.drop topic).counts T = if T = topic then none else s.counts T := rfl

theorem counts_recount (s : LogState) (topic : Topic) (n : Nat) (T : Topic) :
    (s.recount topic n).counts T = if T = topic then some n else s.counts T := rfl

theorem heads_cacheHead (s : LogState) (k : StreamId) (head : Option WriterRow) (k' : StreamId) :
    (s.cacheHead k head).heads k' = if k' = k then head else s.heads k' :=
  Function.update_apply ..

/-- The condition keeps every row of another topic. -/
def Spares (s : LogState) (topic : Topic) (p : LogRow → Bool) : Prop :=
  ∀ r ∈ s.log.rows, r.entry.topic ≠ topic → p r = true

theorem Numbered.inj (h : Numbered s) (hr : r ∈ s.log.rows) (hr' : r' ∈ s.log.rows)
    (heq : r.rowid = r'.rowid) : r = r' :=
  List.inj_on_of_nodup_map (List.pairwise_map.2 (h.1.imp fun h => Nat.ne_of_lt h)) hr hr' heq

theorem Numbered.delete (h : Numbered s) (p : LogRow → Bool) : Numbered (s.delete p) :=
  ⟨h.1.sublist List.filter_sublist, fun r hr => h.2 r (List.mem_of_mem_filter hr)⟩

theorem Numbered.insert {log : Table EntryId LogRow fun r => r.entry.id} (h : Numbered s)
    (hlog : s.log.insert ⟨s.sequence + 1, e⟩ = some log) : Numbered (s.insert e log) := by
  have hrows := Table.rows_of_insert hlog
  constructor
  · rw [LogState.insert, hrows, List.pairwise_append]
    refine ⟨h.1, List.pairwise_singleton _ _, fun r hr r' hr' => ?_⟩
    obtain rfl := List.mem_singleton.1 hr'
    exact Nat.lt_succ_of_le (h.2 r hr)
  · intro r hr
    rw [LogState.insert, hrows, List.mem_append] at hr
    rcases hr with hr | hr
    · exact Nat.le_succ_of_le (h.2 r hr)
    · obtain rfl := List.mem_singleton.1 hr
      exact Nat.le_refl _

theorem Keyed.cacheHead (h : Keyed s) (hhead : ∀ h ∈ head, WriterRow.stream h = k) :
    Keyed (s.cacheHead k head) := by
  intro k' head' hk'
  rw [heads_cacheHead] at hk'
  split at hk'
  next heq => exact heq ▸ hhead head' hk'
  next => exact h k' head' hk'

theorem delete_delete (s : LogState) (p q : LogRow → Bool) :
    (s.delete p).delete q = s.delete fun r => p r && q r := by
  have hlog : (s.log.filter p).filter q = s.log.filter fun r => p r && q r := by
    apply Table.ext
    rw [Table.rows_filter, Table.rows_filter, Table.rows_filter, List.filter_filter]
    apply List.filter_congr
    exact fun r _ => Bool.and_comm _ _
  rw [delete, delete, delete]
  exact congrArg (fun log => { s with log := log }) hlog

end LogState

theorem transaction_runs {body : LogM α} {E : SeqscribeError → Txn → Prop}
    (h : Runs body t Q fun e t' => E e { t' with core.db := t.core.db }) :
    Runs (transaction body) t Q E := by
  rw [Runs] at h ⊢
  rw [transaction]
  split at h
  next heq =>
    rw [heq]
    exact h
  next heq =>
    rw [heq]
    exact h

/-- What the log's primitives need of a property for the items to keep it. -/
structure LogUpkeep (own : Topic → Prop) (inserts deletes : Prop) (I J : LogState → Prop) :
    Prop where
  fails : ∀ s, I s → J s
  keyed : ∀ s, I s → s.Keyed
  numbered : deletes → ∀ s, I s → s.Numbered
  cacheHead : ∀ s k head, (∀ h ∈ head, WriterRow.stream h = k) → I s → I (s.cacheHead k head)
  insert : inserts → ∀ s e log, own e.topic → I s →
    s.log.insert ⟨s.sequence + 1, e⟩ = some log → I (s.insert e log)
  /-- Rows of a topic go with its count. -/
  delete : deletes → ∀ s topic p, own topic → s.Spares topic p → I s → I ((s.delete p).drop topic)
  /-- Rows of a topic have gone, and not its count. -/
  lost : deletes → ∀ s topic p, own topic → s.Spares topic p → I s → J (s.delete p)

def Txn.logState (t : Txn) : LogState := t.core.logState

theorem logState_of_kept {t t' : Txn} (h : t'.kept = t.kept) : t'.logState = t.logState :=
  congrArg (fun kept : Txn.Kept => LogState.mk kept.db.log kept.db.sequence kept.db.archive
    kept.counts kept.archiveCounts kept.heads) h

/-- A computation outside any transaction. -/
theorem Keeps.runDirect {I : LogState → Prop} {m : LogM α} {P : α → Prop}
    (hm : Keeps (fun t => I t.logState) (fun t => I t.logState) m P) (h : I core.logState)
    (now : Nat) (fault : Option Nat) : I (runDirect m now fault core).core.logState := by
  have hruns := hm.runs { Txn.start core fault with ambient := { now := now } } h
  rw [Seqscribe.runDirect]
  split
  next hrun => exact (hruns.of_ok hrun).2
  next hrun => exact hruns.of_error hrun

namespace LogUpkeep

variable {env : Env} {own : Topic → Prop} {inserts deletes : Prop} {I J : LogState → Prop}

theorem storageCall (h : ∀ s, I s → J s) :
    Keeps (fun t => I t.logState) (fun t => J t.logState) storageCall := by
  apply Keeps.bind .get
  intro t
  split
  · exact .pure ()
  · exact .throw (fun t ht => h _ ht) _
  · exact .modify fun _ ht => ht

theorem query_of (h : ∀ s, I s → J s) {f : Db → α} {P : α → Prop}
    (hP : ∀ db : Db, P (f db)) :
    Keeps (fun t => I t.logState) (fun t => J t.logState) (query f) P :=
  .bind (storageCall h) fun _ => .bind .get fun _ => .pure_of (hP _)

/-- A write that changes nothing of the log state. -/
theorem execute (h : ∀ s, I s → J s) (f : Db → Db)
    (hf : ∀ db, (f db).sqLog = db.sqLog ∧ (f db).logSequence = db.logSequence ∧
      (f db).sqArchive = db.sqArchive) :
    Keeps (fun t => I t.logState) (fun t => J t.logState) (execute f) := by
  apply Keeps.bind (storageCall h)
  intro _
  apply Keeps.modify
  intro t ht
  obtain ⟨hlog, hseq, harchive⟩ := hf t.core.db
  have heq : Txn.logState { t with core.db := f t.core.db } = t.logState := by
    rw [Txn.logState, Core.logState, hlog, hseq, harchive]
    rfl
  rwa [heq]

theorem getStream (hI : LogUpkeep own inserts deletes I J) (topic : Topic) (writer : WriterId)
    (htopic : own topic) :
    Keeps (fun t => I t.logState) (fun t => J t.logState) (getStream env topic writer)
      fun head => own head.topic := by
  constructor
  intro t ht
  apply Runs.bind (Runs.get _)
  split
  next head hhead =>
    have hkey : head.topic = topic := congrArg Prod.fst (hI.keyed _ ht _ _ hhead)
    exact ⟨hkey ▸ htopic, ht⟩
  next =>
    have hstream (db : Db) : WriterRow.stream ((db.sqWriters.get (topic, writer)).getD
        (freshHead env topic writer)) = (topic, writer) := by
      cases hget : db.sqWriters.get (topic, writer) with
      | none => rfl
      | some head => exact Table.key_of_get hget
    have hread : Keeps (fun t => I t.logState) (fun t => J t.logState)
        (do
          let head := (← Store.getWriter topic writer).getD (freshHead env topic writer)
          Seqscribe.cacheHead (topic, writer) (some head)
          return head) fun head => own head.topic := by
      refine .bind_of (P := fun found => (found.getD (freshHead env topic writer)).stream =
        (topic, writer)) (query_of hI.fails hstream) fun found hfound => ?_
      refine .bind (.modify fun t ht => ?_) fun _ => ?_
      · exact hI.cacheHead _ _ _ (fun h hh => Option.some.inj hh ▸ hfound) ht
      · have hkey : (found.getD (freshHead env topic writer)).topic = topic :=
          congrArg Prod.fst hfound
        exact .pure_of (hkey.symm ▸ htopic : own (found.getD (freshHead env topic writer)).topic)
    exact hread.runs t ht

theorem saveHead (hI : LogUpkeep own inserts deletes I J) (head : WriterRow) :
    Keeps (fun t => I t.logState) (fun t => J t.logState) (saveHead env head) := by
  refine .bind (.modify fun t ht => hI.cacheHead _ _ _ (fun h hh => ?_) ht) fun _ => ?_
  · rw [← Option.some.inj hh]
  refine .bind (execute hI.fails _ fun _ => ⟨rfl, rfl, rfl⟩) fun _ => .bind .get fun t => ?_
  split
  · exact .pure ()
  · exact .bind (.bind (.bind .get fun _ => .pure _) fun _ => .pure _) fun _ =>
      .modify fun _ ht => ht

theorem insertEntry (hI : LogUpkeep own inserts deletes I J) (hi : inserts) (e : LogEntry)
    (he : own e.topic) :
    Keeps (fun t => I t.logState) (fun t => J t.logState) (Store.insertEntry e) := by
  apply Keeps.bind (storageCall hI.fails)
  intro _
  constructor
  intro t ht
  apply Runs.bind (Runs.get _)
  dsimp only
  split
  next => exact hI.fails _ ht
  next log hlog => exact ⟨trivial, hI.insert hi _ e log he ht hlog⟩

/-- Rows of a topic have gone from the log of `s`, its count has not. -/
def Losing (s : LogState) (topic : Topic) (s' : LogState) : Prop :=
  ∃ p, s.Spares topic p ∧ s' = s.delete p

theorem Losing.refl (s : LogState) (topic : Topic) : Losing s topic s := by
  have hlog : s.log.filter (fun _ => true) = s.log := Table.ext (List.filter_true _)
  refine ⟨fun _ => true, fun _ _ _ => rfl, ?_⟩
  rw [LogState.delete, hlog]

theorem Losing.delete (h : Losing s topic s') (hp : s'.Spares topic p) :
    Losing s topic (s'.delete p) := by
  obtain ⟨q, hq, rfl⟩ := h
  refine ⟨fun r => q r && p r, fun r hr hne => ?_, LogState.delete_delete ..⟩
  have hqr := hq r hr hne
  exact Bool.and_eq_true_iff.2 ⟨hqr, hp r (List.mem_filter.2 ⟨hr, hqr⟩) hne⟩

/-- A deletion of rows of the topic. -/
theorem deleteLog (hp : s.Spares topic p) :
    Keeps (fun t => Losing s topic t.logState) (fun t => Losing s topic t.logState)
      (Seqscribe.execute fun db => { db with sqLog := db.sqLog.filter p }) := by
  refine .bind (storageCall fun _ h => h) fun _ => .modify fun t ht => ?_
  have hspares : t.logState.Spares topic p := by
    obtain ⟨q, -, heq⟩ := ht
    rw [heq]
    exact fun r hr hne => hp r (List.mem_of_mem_filter hr) hne
  exact ht.delete hspares

/-- A deletion that ends with the count dropped, or without any row gone. -/
theorem deleteThen (hI : LogUpkeep own inserts deletes I J) (hd : deletes) (htopic : own topic)
    {m : LogM α} {f : α → LogM β}
    (hm : ∀ s, I s → Keeps (fun t => Losing s topic t.logState)
      (fun t => Losing s topic t.logState) m)
    (hf : ∀ a s t, I s → Losing s topic t.logState →
      Runs (f a) t (fun _ t' => I t'.logState) fun _ t' => J t'.logState) :
    Keeps (fun t => I t.logState) (fun t => J t.logState) (m >>= f) := by
  constructor
  intro t ht
  apply Runs.bind
  apply ((hm _ ht).runs t (.refl _ _)).mono
  · intro a t' ht'
    exact (hf a _ t' ht ht'.2).mono (fun _ _ h => ⟨trivial, h⟩) fun _ _ h => h
  · intro e t' ht'
    obtain ⟨p, hp, heq⟩ := ht'
    rw [heq]
    exact hI.lost hd _ topic p htopic hp ht

theorem dropLogCount (hI : LogUpkeep own inserts deletes I J) (hd : deletes) (htopic : own topic)
    (hs : I s) {t : Txn} (h : Losing s topic t.logState) :
    Runs (Store.dropLogCount topic) t (fun _ t' => I t'.logState) fun _ t' => J t'.logState := by
  obtain ⟨p, hp, heq⟩ := h
  have hdrop := hI.delete hd s topic p htopic hp hs
  rw [← heq] at hdrop
  exact hdrop

theorem deleteLogRange (hI : LogUpkeep own inserts deletes I J) (hd : deletes) (topic : Topic)
    (writer : WriterId) (fromSeq : Nat) (htopic : own topic) :
    Keeps (fun t => I t.logState) (fun t => J t.logState)
      (Store.deleteLogRange topic writer fromSeq) := by
  apply hI.deleteThen hd htopic
  · intro s _
    apply deleteLog
    intro r _ hne
    simp [Store.inStream, hne]
  · exact fun _ s t hs h => hI.dropLogCount hd htopic hs h

theorem deleteStreamPrefix (hI : LogUpkeep own inserts deletes I J) (hd : deletes) (topic : Topic)
    (writer : WriterId) (upto : Nat) (htopic : own topic) :
    Keeps (fun t => I t.logState) (fun t => J t.logState)
      (Store.deleteStreamPrefix topic writer upto) := by
  rw [Store.deleteStreamPrefix, ← bind_assoc]
  apply hI.deleteThen hd htopic
  · intro s _
    refine .bind (deleteLog fun r _ hne => ?_) fun _ => ?_
    · simp [Store.inStream, hne]
    · exact execute (fun _ h => h) _ fun _ => ⟨rfl, rfl, rfl⟩
  · exact fun _ s t hs h => hI.dropLogCount hd htopic hs h

theorem deleteLogRowids (hI : LogUpkeep own inserts deletes I J) (hd : deletes) (topic : Topic)
    (rowids : List Nat) (htopic : own topic) :
    Keeps (fun t => I t.logState) (fun t => J t.logState)
      (Store.deleteLogRowids topic rowids) := by
  cases rowids with
  | nil => exact .bind (.pure _) fun _ => .pure _
  | cons rowid rowids =>
    apply hI.deleteThen hd htopic
    · intro s _
      apply Keeps.forM
      intro rowid _
      apply deleteLog
      intro r _ hne
      simp [hne]
    · exact fun _ s t hs h => hI.dropLogCount hd htopic hs h

/-- The counts and the heads are what they were. -/
theorem Losing.rollback {t t' : Txn} (h : Losing s topic t.logState)
    (h' : Losing s topic t'.logState) :
    Losing s topic (Txn.logState { t' with core.db := t.core.db }) := by
  obtain ⟨p, hp, heq⟩ := h
  obtain ⟨q, -, heq'⟩ := h'
  have hcounts : t'.core.logCounts = t.core.logCounts :=
    (congrArg LogState.counts heq').trans (congrArg LogState.counts heq).symm
  have harchive : t'.core.archiveCounts = t.core.archiveCounts :=
    (congrArg LogState.archiveCounts heq').trans (congrArg LogState.archiveCounts heq).symm
  have hheads : t'.core.heads = t.core.heads :=
    (congrArg LogState.heads heq').trans (congrArg LogState.heads heq).symm
  refine ⟨p, hp, ?_⟩
  rw [Txn.logState, Core.logState, hcounts, harchive, hheads]
  exact heq

/-- The batches take rows of the topic, and none when they count none. -/
theorem deleteBatches_runs (hs : s.Numbered) (fuel total : Nat) (t : Txn)
    (ht : Losing s topic t.logState) (hzero : total = 0 → t.logState = s) :
    Runs (Store.deleteBatches topic below before fuel total) t
      (fun total t' => Losing s topic t'.logState ∧ (total = 0 → t'.logState = s))
      fun _ t' => Losing s topic t'.logState := by
  induction fuel generalizing total t with
  | zero => exact ⟨ht, hzero⟩
  | succ fuel ih =>
    refine .bind (query_runs (fun fault => ?_) fun _ => ht)
    generalize hrows : List.take Store.BATCH _ = rows
    split
    next => exact ⟨ht, hzero⟩
    next hne =>
      have hspares : ∀ r ∈ rows, s.Spares topic fun r' => !decide (r'.rowid = r.rowid) := by
        intro r hr r' hr' hother
        rw [← hrows] at hr
        obtain ⟨hmem, hfloor⟩ := Table.mem_selectBy.1 (List.mem_of_mem_take hr)
        have htopic : r.entry.topic = topic :=
          (of_decide_eq_true (Bool.and_eq_true_iff.1 hfloor).1).1
        have hs' : r ∈ s.log.rows := by
          obtain ⟨p, -, heq⟩ := ht
          have hmem' : r ∈ t.logState.log.rows := hmem
          rw [heq] at hmem'
          exact List.mem_of_mem_filter hmem'
        rw [Bool.not_eq_true', decide_eq_false_iff_not]
        intro hrowid
        exact hother ((hs.inj hr' hs' hrowid) ▸ htopic)
      have hbody : Keeps (fun t => Losing s topic t.logState) (fun t => Losing s topic t.logState)
          (ForM.forM rows fun r => Seqscribe.execute fun db =>
            { db with sqLog := db.sqLog.filter fun r' => !decide (r'.rowid = r.rowid) }) :=
        .forM fun r hr => deleteLog (hspares r hr)
      apply Runs.bind
      apply transaction_runs
      apply (hbody.runs { t with fault := fault } ht).mono
      · intro _ t' ht'
        split
        next =>
          refine ⟨ht'.2, fun hzero => ?_⟩
          omega
        next =>
          apply ih _ _ ht'.2
          intro hzero
          omega
      · intro e t' ht'
        exact ht.rollback ht'

theorem deleteLogRowsUpToRowid (hI : LogUpkeep own inserts deletes I J) (hd : deletes)
    (topic : Topic) (below : Nat) (before : Option Int) (htopic : own topic) :
    Keeps (fun t => I t.logState) (fun t => J t.logState)
      (Store.deleteLogRowsUpToRowid topic below before) := by
  apply Keeps.bind .get
  intro t₀
  constructor
  intro t ht
  apply Runs.bind
  apply (deleteBatches_runs (hI.numbered hd _ ht) _ 0 t (.refl _ topic) fun _ => rfl).mono
  · intro total t' ht'
    obtain ⟨hlosing, hzero⟩ := ht'
    split
    next =>
      apply Runs.bind
      apply (hI.dropLogCount hd htopic ht hlosing).mono
      · exact fun _ _ h => ⟨trivial, h⟩
      · exact fun _ _ h => h
    next hnone =>
      have heq := hzero (Nat.eq_zero_of_not_pos hnone)
      exact ⟨trivial, heq ▸ ht⟩
  · intro e t' ht'
    obtain ⟨p, hp, heq⟩ := ht'
    rw [heq]
    exact hI.lost hd _ topic p htopic hp ht

theorem handlers (hI : LogUpkeep own inserts deletes I J) (env : Env) :
    Handlers env own inserts deletes (fun t => I t.logState) fun t => J t.logState where
  fails := fun _ ht => hI.fails _ ht
  kept := by
    intro t t' hkept ht
    rwa [logState_of_kept hkept]
  getStream := hI.getStream
  saveHead := hI.saveHead
  insertEntry := hI.insertEntry
  deleteLogRange := hI.deleteLogRange
  deleteLogRowsUpToRowid := hI.deleteLogRowsUpToRowid
  deleteLogRowids := hI.deleteLogRowids
  deleteStreamPrefix := hI.deleteStreamPrefix
  ackForget := fun _ _ =>
    .bind (execute hI.fails _ fun _ => ⟨rfl, rfl, rfl⟩) fun _ =>
      execute hI.fails _ fun _ => ⟨rfl, rfl, rfl⟩

theorem vectors (hI : LogUpkeep own inserts deletes I J) :
    Keeps (fun t => I t.logState) (fun t => J t.logState) (vectors env) := by
  have hH := hI.handlers env
  apply Keeps.bind .get
  intro t
  split
  next => exact .pure _
  next =>
    refine .bind (.bind Handlers.clock fun _ => .pure _) fun floor => ?_
    refine .bind (hH.query _) fun heads => .bind .get fun t => ?_
    refine .bind (.foldlM fun out topic => ?_) fun out => .bind (.modify fun _ h => h) fun _ =>
      .pure _
    refine .bind (hH.topicPolicy topic) fun policy => .ite (fun _ => .pure _) fun _ => ?_
    refine .bind (hH.getCert topic) fun cert => ?_
    split
    · exact .pure _
    · exact .pure _

/-- A count that is not cached is taken from the log. -/
theorem logCount (h : ∀ s, I s → J s) (topic : Topic)
    (hcount : ∀ s, I s → I (s.recount topic (s.logCount topic))) :
    Keeps (fun t => I t.logState) (fun t => J t.logState) (Store.logCount topic) := by
  constructor
  intro t ht
  apply Runs.bind (Runs.get _)
  split
  next => exact ⟨trivial, ht⟩
  next =>
    refine .bind (query_runs (fun fault => ?_) fun _ => h _ ht)
    exact .bind (.modify (.pure ⟨trivial, hcount _ ht⟩))

theorem processRetireTopic (hI : LogUpkeep own inserts deletes I J) (topic : Topic)
    (hcount : ∀ s, I s → I (s.recount topic (s.logCount topic))) :
    Keeps (fun t => I t.logState) (fun t => J t.logState) (processRetireTopic env topic) := by
  have hH := hI.handlers env
  apply Keeps.bind (hH.topicPolicy topic)
  intro policy
  apply Keeps.ite (fun _ => hH.done _)
  intro _
  apply Keeps.ite (fun _ => hH.done _)
  intro _
  apply Keeps.bind (logCount hI.fails topic hcount)
  intro n
  apply Keeps.ite (fun _ => hH.done _)
  intro _
  apply Keeps.bind .get
  intro t
  apply Keeps.ite (fun _ => hH.done _)
  intro _
  apply Keeps.bind .get
  intro t
  apply Keeps.ite (fun _ => hH.done _)
  intro _
  refine .bind (hH.query _) fun writers => .bind (.forM fun w _ => ?_) fun _ => ?_
  · refine .bind (execute hI.fails _ fun _ => ⟨rfl, rfl, rfl⟩) fun _ => .modify fun t ht => ?_
    exact hI.cacheHead _ _ none (fun _ hh => nomatch hh) ht
  · exact hH.replaceRing _ _ fun _ => .bind (.modify fun _ ht => ht) fun _ => hH.done _

theorem processQueued (hI : LogUpkeep own inserts deletes I J) (q : Queued env)
    (hown : own q.2.topic) (hi : q.2.inserts = true → inserts) (hd : q.2.deletes = true → deletes)
    (hcount : ∀ topic known, q.2 = .retireTopic topic known →
      ∀ s, I s → I (s.recount topic (s.logCount topic))) :
    Keeps (fun t => I t.logState) (fun t => J t.logState) (processQueued env q) := by
  refine .bind (.modify fun _ ht => ht) fun _ => ?_
  apply (hI.handlers env).processItem q.2 hown hi hd
  · exact fun item _ => .stampCausal (fun _ _ ht => ht) item
  · intro cert _
    exact .bind (execute hI.fails _ fun _ => ⟨rfl, rfl, rfl⟩) fun _ => .modify fun _ ht => ht
  · exact fun topic known heq => hI.processRetireTopic topic (hcount topic known heq)

/-- A flush whose every item keeps the property. -/
theorem flushBody {batch : List (Queued env)} (h : ∀ s, I s → J s)
    (hbatch : ∀ q ∈ batch, Keeps (fun t => I t.logState) (fun t => J t.logState)
      (Seqscribe.processQueued env q)) :
    Keeps (fun t => I t.logState) (fun t => J t.logState) (flushBody env batch) := by
  refine .bind (.forM hbatch) fun _ => .bind .get fun t => ?_
  refine .bind (execute h _ fun _ => ⟨rfl, rfl, rfl⟩) fun _ => .bind .get fun t => ?_
  exact .ite (fun _ => .throw (fun _ ht => h _ ht) _) fun _ => .pure _

end LogUpkeep

end Seqscribe
