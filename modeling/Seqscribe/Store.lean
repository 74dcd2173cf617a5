import Seqscribe.Encoding
import Seqscribe.Hlc

namespace Seqscribe
set_option autoImplicit true

structure LogRow where
  rowid : Nat
  entry : LogEntry

inductive QuarantineReason where
  | postCut
  | canonicalized
  deriving DecidableEq, Repr

structure QuarantineRow where
  entry : LogEntry
  reason : QuarantineReason
  atMs : Nat

inductive AnnotationKind where
  | preFinalityRejected
  | clockOutlier
  deriving DecidableEq, Repr

structure AnnotationRow where
  topic : Topic
  writer : WriterId
  seq : Nat
  kind : AnnotationKind
  atMs : Nat

def AnnotationRow.id (r : AnnotationRow) : Topic × WriterId × Nat × AnnotationKind :=
  (r.topic, r.writer, r.seq, r.kind)

structure CursorRow where
  consumer : String
  topic : Topic
  lastRowid : Nat
  updatedAt : Nat

def CursorRow.id (r : CursorRow) : String × Topic := (r.consumer, r.topic)

structure AckRow where
  topic : Topic
  node : WriterId
  writer : WriterId
  seq : Nat

def AckRow.id (r : AckRow) : Topic × WriterId × WriterId := (r.topic, r.node, r.writer)

structure AckNodeRow where
  topic : Topic
  node : WriterId
  firstAt : Nat
  seenAt : Option Nat
  proto : Option Nat

def AckNodeRow.id (r : AckNodeRow) : Topic × WriterId := (r.topic, r.node)

structure Floor where
  seq : Nat
  chain : Chain
  deriving DecidableEq, Repr

structure FloorRow where
  topic : Topic
  writer : WriterId
  floor : Floor
  atMs : Nat

def FloorRow.stream (r : FloorRow) : StreamId := (r.topic, r.writer)

structure ArchiveRow where
  entry : LogEntry
  archivedAt : Nat

def WriterDirective.id (d : WriterDirective) : Topic × WriterId × Nat := (d.topic, d.writer, d.rgen)

/-- The tables the log core reads and writes. Entries, certificates and directives are stored as
JSON text in the source; the text is read back as the value that was written. -/
structure Db where
  sqLog : Table EntryId LogRow fun r => r.entry.id
  /-- `sqlite_sequence` of the autoincremented rowid. -/
  logSequence : Nat
  sqPending : Table EntryId LogEntry LogEntry.id
  sqQuarantine : Table EntryId QuarantineRow fun r => r.entry.id
  sqWriters : Table StreamId WriterRow WriterRow.stream
  sqAnnotations : Table (Topic × WriterId × Nat × AnnotationKind) AnnotationRow AnnotationRow.id
  sqCursors : Table (String × Topic) CursorRow CursorRow.id
  sqFinality : Table Topic FinalityCert FinalityCert.topic
  sqDirectives : Table (Topic × WriterId × Nat) WriterDirective WriterDirective.id
  /-- The `hlc_state` row of `sq_meta`. -/
  metaHlc : Option HlcState
  sqAcks : Table (Topic × WriterId × WriterId) AckRow AckRow.id
  sqAckNodes : Table (Topic × WriterId) AckNodeRow AckNodeRow.id
  sqFloors : Table StreamId FloorRow FloorRow.stream
  sqArchive : Table EntryId ArchiveRow fun r => r.entry.id

def Db.empty : Db where
  sqLog := .empty
  logSequence := 0
  sqPending := .empty
  sqQuarantine := .empty
  sqWriters := .empty
  sqAnnotations := .empty
  sqCursors := .empty
  sqFinality := .empty
  sqDirectives := .empty
  metaHlc := none
  sqAcks := .empty
  sqAckNodes := .empty
  sqFloors := .empty
  sqArchive := .empty

structure LiveVec where
  contig : Nat
  chain : Chain
  rgen : Option Nat
  deriving DecidableEq, Repr

structure RetiredVec where
  finalSeq : Nat
  finalChain : Chain
  rgen : Nat
  deriving DecidableEq, Repr

inductive WriterVec where
  | live (v : LiveVec)
  | retired (v : RetiredVec)
  deriving DecidableEq, Repr

/-- One topic of a HAVE vector: an object keyed by writer. -/
structure TopicVec where
  topic : Topic
  fgen : Option Nat
  writers : Table WriterId (WriterId × WriterVec) Prod.fst

abbrev HaveVectors := Table Topic TopicVec TopicVec.topic

/-- The volatile state of a log core and the store under it. The caches are keyed by stream:
the source joins topic and writer with a separator that no charter name contains. -/
structure Core where
  db : Db
  logCounts : Topic → Option Nat
  archiveCounts : Topic → Option Nat
  hlcState : HlcState
  heads : StreamId → Option WriterRow
  certs : Topic → Option (Option FinalityCert)
  floors : StreamId → Option (Option Floor)
  vectorsCache : Option HaveVectors
  recoveries : StreamId → Option RecoveryTarget
  rings : Topic → Option (List LogEntry)
  /-- The register hub's uncommitted tail per causal scope. -/
  scopeTails : String → Option (WriterId × Nat)
  /-- `topics.list()`. -/
  defined : List Topic

structure AppliedEntry where
  entry : LogEntry
  rowid : Option Nat
  via : Option String

inductive PruneSkip where
  | forked
  | recovering
  deriving DecidableEq, Repr

inductive MemberExclusion where
  | lagging
  | excluded
  deriving DecidableEq, Repr

structure AckedPruneWriter where
  writer : WriterId
  floor : Nat
  ackFloor : Nat
  pinnedBy : Option WriterId
  skipped : Option PruneSkip

structure AckedPruneMember where
  node : WriterId
  lastSeenAt : Option Nat
  excluded : Option MemberExclusion

structure AckedPruneResult where
  prunedRows : Nat
  more : Bool
  writers : List AckedPruneWriter
  members : List AckedPruneMember

inductive DirectiveResult where
  | applied
  | stale
  | refused
  | recovery
  deriving DecidableEq, Repr

inductive AdoptFloorResult where
  | adopted
  | noop
  | refused
  deriving DecidableEq, Repr

/-- What a queue item's promise is settled with. -/
inductive Settled where
  | appended (id : EntryId)
  | external (r : ApplyResult)
  | sealed
  | cert (quarantined : Nat)
  | directive (r : DirectiveResult)
  | adopted
  | retired (writersRemoved : Nat)
  | pruned (prunedRows : Nat)
  | ackedPruned (r : AckedPruneResult)
  | adoptedFloor (r : AdoptFloorResult)
  | rejected (e : SeqscribeError)

/-- What a handler reads from its surroundings while an item is processed: the clock, the activity
checks of the other hubs, and the register hub's last observed entry of the item's scope. -/
structure Ambient where
  now : Nat
  hasActiveConsumer : Topic → Bool := fun _ => false
  hasActiveSubscriber : Topic → Bool := fun _ => false
  lastObserved : Option (WriterId × Nat) := none

/-- The state inside the commit transaction of a flush. -/
structure Txn where
  core : Core
  ambient : Ambient
  /-- Copy-on-write journal of the ring tails: the outer option says whether a topic is in it. -/
  ringUndo : Topic → Option (Option (List LogEntry))
  settle : List Settled
  applied : List AppliedEntry
  anomalies : List Anomaly
  /-- The number of storage calls that still succeed, when one of them fails. -/
  fault : Option Nat

abbrev LogM := EStateM SeqscribeError Txn

def clock : LogM Nat := return (← get).ambient.now

def storageFailure : SeqscribeError := ⟨.ERR_STORAGE, "storage call failed"⟩

/-- A call of the storage handle. -/
def storageCall : LogM Unit := do
  match (← get).fault with
  | none => return
  | some 0 => throw storageFailure
  | some (n + 1) => modify fun t => { t with fault := some n }

def query (f : Db → α) : LogM α := do
  storageCall
  return f (← get).core.db

def execute (f : Db → Db) : LogM Unit := do
  storageCall
  modify fun t => { t with core.db := f t.core.db }

/-- `handle.transaction`: all writes to the database are undone when the body throws. -/
def transaction (body : LogM α) : LogM α := fun t =>
  match body t with
  | .ok a t' => .ok a t'
  | .error e t' => .error e { t' with core.db := t.core.db }

namespace Store

def uniqueViolation : SeqscribeError :=
  ⟨.ERR_STORAGE, "UNIQUE constraint failed: sq_log.topic, sq_log.writer, sq_log.seq"⟩

def insertEntry (e : LogEntry) : LogM Nat := do
  storageCall
  let db := (← get).core.db
  let rowid := db.logSequence + 1
  match db.sqLog.insert ⟨rowid, e⟩ with
  | none => throw uniqueViolation
  | some sqLog =>
    modify fun t => { t with
      core.db.sqLog := sqLog
      core.db.logSequence := rowid
      core.logCounts := fun T =>
        if T = e.topic then (t.core.logCounts T).map (· + 1) else t.core.logCounts T }
    return rowid

def getEntry (topic : Topic) (writer : WriterId) (seq : Nat) : LogM (Option LogEntry) :=
  query fun db => (db.sqLog.get (topic, writer, seq)).map LogRow.entry

def inStream (topic : Topic) (writer : WriterId) (r : LogRow) : Bool :=
  r.entry.topic = topic ∧ r.entry.writer = writer

def entriesRange (topic : Topic) (writer : WriterId) (fromSeq toSeq : Nat) :
    LogM (List LogEntry) :=
  query fun db =>
    (db.sqLog.selectBy
      (fun r => inStream topic writer r && decide (fromSeq ≤ r.entry.seq ∧ r.entry.seq ≤ toSeq))
      (·.entry.seq)).map LogRow.entry

/-- `logCounts.delete(topic)`: recount lazily. -/
def dropLogCount (topic : Topic) : LogM Unit :=
  modify fun t => { t with
    core.logCounts := fun T => if T = topic then none else t.core.logCounts T }

/-- The greatest order of the given rows. -/
def maxOrder (rows : List LogRow) : Option Order := (rows.map fun r => orderOf r.entry).max?

def maxOrderUpTo (topic : Topic) (maxHlcL : Nat) : LogM (Option Order) :=
  query fun db =>
    maxOrder (db.sqLog.rows.filter fun r => r.entry.topic = topic ∧ r.entry.hlc.l ≤ maxHlcL)

/-- The last held seq of a stream whose order is at or before `p`, 0 when there is none. -/
def lastSeqAtOrBeforeOrder (topic : Topic) (writer : WriterId) (p : Order) : LogM Nat :=
  query fun db =>
    (((db.sqLog.rows.filter fun r =>
      inStream topic writer r && decide (orderCompare (orderOf r.entry) p ≤ 0)).map
        fun r => r.entry.seq).max?).getD 0

def topicWriters (topic : Topic) : LogM (List WriterId) :=
  query fun db =>
    ((db.sqLog.rows.filter fun r => r.entry.topic = topic).map fun r => r.entry.writer).dedup

/-- Rowid of the `n`-th newest row of the topic. -/
def rowidAtTailOffset (topic : Topic) (n : Nat) : LogM (Option Nat) :=
  if n < 1 then return none
  else query fun db =>
    let rowids := (db.sqLog.selectBy (fun r => r.entry.topic = topic) (·.rowid)).map LogRow.rowid
    rowids.reverse[n - 1]?

/-- A newer row of the same key of the topic, at or below `uptoRowid`. -/
def hasNewerOfKey (db : Db) (topic : Topic) (uptoRowid : Nat) (a : LogRow) : Bool :=
  db.sqLog.rows.any fun b =>
    b.entry.topic = topic ∧ b.entry.key.isSome ∧ b.entry.key = a.entry.key ∧
      a.rowid < b.rowid ∧ b.rowid ≤ uptoRowid

/-- The order of the key index: key bytes, then rowid. -/
def inKeyOrder (rows : List LogRow) : List LogRow :=
  let bytes (r : LogRow) := (utf8 (r.entry.key.getD [])).map UInt8.toNat
  (rows.insertionSort fun r r' => r.rowid ≤ r'.rowid).insertionSort fun r r' =>
    ¬ bytes r' < bytes r

def supersededRowids (topic : Topic) (floorRowid uptoRowid limit : Nat) : LogM (List Nat) :=
  query fun db =>
    ((inKeyOrder <| db.sqLog.rows.filter fun a =>
      decide (a.entry.topic = topic ∧ a.entry.key.isSome ∧ a.rowid ≤ floorRowid) &&
        hasNewerOfKey db topic uptoRowid a).take limit).map LogRow.rowid

def loneTombstoneRowids (topic : Topic) (tombstoneKind : JsString)
    (floorRowid uptoRowid limit : Nat) : LogM (List Nat) :=
  query fun db =>
    ((inKeyOrder <| db.sqLog.rows.filter fun a =>
      decide (a.entry.topic = topic ∧ a.entry.key.isSome ∧ a.rowid ≤ floorRowid ∧
          a.entry.kind = tombstoneKind) &&
        !(db.sqLog.rows.any fun b =>
          b.entry.topic = topic ∧ b.entry.key.isSome ∧ b.entry.key = a.entry.key ∧
            b.rowid ≠ a.rowid ∧ b.rowid ≤ uptoRowid)).take limit).map LogRow.rowid

def otherWriterRowids (topic : Topic) (writer : WriterId) (floorRowid limit : Nat) :
    LogM (List Nat) :=
  query fun db =>
    ((db.sqLog.selectBy
      (fun r => r.entry.topic = topic ∧ r.rowid ≤ floorRowid ∧ r.entry.writer ≠ writer)
      (·.rowid)).take limit).map LogRow.rowid

def deleteLogRowids (topic : Topic) (rowids : List Nat) : LogM Unit := do
  forM rowids fun rowid => execute fun db =>
    { db with sqLog := db.sqLog.filter fun r => !decide (r.rowid = rowid ∧ r.entry.topic = topic) }
  if rowids.length > 0 then dropLogCount topic

def getWriter (topic : Topic) (writer : WriterId) : LogM (Option WriterRow) :=
  query fun db => db.sqWriters.get (topic, writer)

def listWriters (topic : Topic) : LogM (List WriterRow) :=
  query fun db => db.sqWriters.rows.filter fun w => w.topic = topic

def listAllWriters : LogM (List WriterRow) := query fun db => db.sqWriters.rows

def upsertWriter (w : WriterRow) : LogM Unit :=
  execute fun db => { db with sqWriters := db.sqWriters.upsert w }

def deleteWriter (topic : Topic) (writer : WriterId) : LogM Unit :=
  execute fun db => { db with sqWriters := db.sqWriters.delete (topic, writer) }

def pendingPut (e : LogEntry) : LogM Unit :=
  execute fun db => { db with sqPending := db.sqPending.upsert e }

def pendingGet (topic : Topic) (writer : WriterId) (seq : Nat) : LogM (Option LogEntry) :=
  query fun db => db.sqPending.get (topic, writer, seq)

def pendingDelete (topic : Topic) (writer : WriterId) (seq : Nat) : LogM Unit :=
  execute fun db => { db with sqPending := db.sqPending.delete (topic, writer, seq) }

def pendingCount (topic : Topic) (writer : WriterId) : LogM Nat :=
  query fun db => db.sqPending.count fun e => e.topic = topic ∧ e.writer = writer

def annotate (topic : Topic) (writer : WriterId) (seq : Nat) (kind : AnnotationKind) (atMs : Nat) :
    LogM Unit :=
  execute fun db =>
    { db with sqAnnotations := db.sqAnnotations.insertIgnore ⟨topic, writer, seq, kind, atMs⟩ }

def quarantinePut (e : LogEntry) (reason : QuarantineReason) (atMs : Nat) : LogM Unit :=
  execute fun db => { db with sqQuarantine := db.sqQuarantine.upsert ⟨e, reason, atMs⟩ }

def deleteLogRange (topic : Topic) (writer : WriterId) (fromSeq : Nat) : LogM Unit := do
  execute fun db => { db with
    sqLog := db.sqLog.filter fun r =>
      !(inStream topic writer r && decide (fromSeq ≤ r.entry.seq)) }
  dropLogCount topic

def BATCH : Nat := 2000

/-- The rows at or below a rowid (and, with `hlcBefore`, older than it). -/
def belowFloor (topic : Topic) (belowRowid : Nat) (hlcBefore : Option Int) (r : LogRow) : Bool :=
  decide (r.entry.topic = topic ∧ r.rowid ≤ belowRowid) &&
    match hlcBefore with
    | none => true
    | some h => decide ((r.entry.hlc.l : Int) < h)

/-- The batches of a bounded `DELETE`, each a transaction of its own; `fuel` bounds their number. -/
def deleteBatches (topic : Topic) (belowRowid : Nat) (hlcBefore : Option Int) :
    Nat → Nat → LogM Nat
  | 0, total => return total
  | fuel + 1, total => do
    let rows ← query fun db =>
      (db.sqLog.selectBy (belowFloor topic belowRowid hlcBefore) (·.rowid)).take BATCH
    if rows.length = 0 then return total
    transaction <| forM rows fun r => execute fun db =>
      { db with sqLog := db.sqLog.filter fun r' => !decide (r'.rowid = r.rowid) }
    if rows.length < BATCH then return total + rows.length
    deleteBatches topic belowRowid hlcBefore fuel (total + rows.length)

def deleteLogRowsUpToRowid (topic : Topic) (belowRowid : Nat) (hlcBefore : Option Int) :
    LogM Nat := do
  let fuel := (← get).core.db.sqLog.rows.length + 1
  let total ← deleteBatches topic belowRowid hlcBefore fuel 0
  if total > 0 then dropLogCount topic
  return total

def ackNodeName (topic : Topic) (node : WriterId) (atMs : Nat) : LogM Unit :=
  execute fun db =>
    { db with sqAckNodes := db.sqAckNodes.insertIgnore ⟨topic, node, atMs, none, none⟩ }

def ackNodes (topic : Topic) : LogM (List AckNodeRow) :=
  query fun db => db.sqAckNodes.rows.filter fun r => r.topic = topic

def acksForTopic (topic : Topic) : LogM (List AckRow) :=
  query fun db => db.sqAcks.rows.filter fun r => r.topic = topic

def ackForget (topic : Topic) (node : WriterId) : LogM Unit := do
  execute fun db =>
    { db with sqAcks := db.sqAcks.filter fun r => !decide (r.topic = topic ∧ r.node = node) }
  execute fun db =>
    { db with
      sqAckNodes := db.sqAckNodes.filter fun r => !decide (r.topic = topic ∧ r.node = node) }

def floorGet (topic : Topic) (writer : WriterId) : LogM (Option Floor) :=
  query fun db => (db.sqFloors.get (topic, writer)).map FloorRow.floor

/-- Monotone: a floor is never lowered. -/
def floorSet (topic : Topic) (writer : WriterId) (seq : Nat) (chain : Chain) (atMs : Nat) :
    LogM Unit :=
  execute fun db => { db with
    sqFloors := db.sqFloors.upsertWhere ⟨topic, writer, ⟨seq, chain⟩, atMs⟩
      fun r => decide (seq > r.floor.seq) }

/-- The oldest rows of one stream. -/
def streamHead (topic : Topic) (writer : WriterId) (limit : Nat) : LogM (List LogRow) :=
  query fun db => (db.sqLog.selectBy (inStream topic writer) (·.entry.seq)).take limit

def chainAt (topic : Topic) (writer : WriterId) (seq : Nat) : LogM (Option Chain) :=
  query fun db => (db.sqLog.get (topic, writer, seq)).map (·.entry.chain)

def hlcLAt (topic : Topic) (writer : WriterId) (seq : Nat) : LogM (Option Nat) :=
  query fun db => (db.sqLog.get (topic, writer, seq)).map (·.entry.hlc.l)

def deleteStreamPrefix (topic : Topic) (writer : WriterId) (uptoSeq : Nat) : LogM Unit := do
  execute fun db => { db with
    sqLog := db.sqLog.filter fun r =>
      !(inStream topic writer r && decide (r.entry.seq ≤ uptoSeq)) }
  execute fun db => { db with
    sqAnnotations := db.sqAnnotations.filter fun r =>
      !decide (r.topic = topic ∧ r.writer = writer ∧ r.seq ≤ uptoSeq) }
  dropLogCount topic

def deletePendingUpTo (topic : Topic) (writer : WriterId) (uptoSeq : Nat) : LogM Unit :=
  execute fun db => { db with
    sqPending := db.sqPending.filter fun e =>
      !decide (e.topic = topic ∧ e.writer = writer ∧ e.seq ≤ uptoSeq) }

def cursorsForTopic (topic : Topic) : LogM (List CursorRow) :=
  query fun db => db.sqCursors.rows.filter fun r => r.topic = topic

def cursorDelete (consumer : String) (topic : Topic) : LogM Unit :=
  execute fun db => { db with sqCursors := db.sqCursors.delete (consumer, topic) }

/-- The batches of `archiveCovered`, each a transaction of its own; `fuel` bounds their number. -/
def archiveBatches (topic : Topic) (writer : WriterId) (maxSeq maxRowid atMs : Nat) :
    Nat → Nat → LogM Nat
  | 0, total => return total
  | fuel + 1, total => do
    let moved ← transaction do
      let rows ← query fun db =>
        (db.sqLog.selectBy
          (fun r => inStream topic writer r && decide (r.entry.seq ≤ maxSeq ∧ r.rowid ≤ maxRowid))
          (·.entry.seq)).take BATCH
      forM rows fun r => do
        execute fun db => { db with sqArchive := db.sqArchive.insertIgnore ⟨r.entry, atMs⟩ }
        execute fun db =>
          { db with sqLog := db.sqLog.filter fun r' => !decide (r'.rowid = r.rowid) }
      return rows.length
    if moved < BATCH then return total + moved
    archiveBatches topic writer maxSeq maxRowid atMs fuel (total + moved)

def archiveCovered (topic : Topic) (writer : WriterId) (maxSeq maxRowid atMs : Nat) :
    LogM Nat := do
  let fuel := (← get).core.db.sqLog.rows.length + 1
  let total ← archiveBatches topic writer maxSeq maxRowid atMs fuel 0
  if total > 0 then
    modify fun t => { t with
      core.logCounts := fun T => if T = topic then none else t.core.logCounts T
      core.archiveCounts := fun T =>
        if T = topic then (t.core.archiveCounts T).map (· + total) else t.core.archiveCounts T }
  return total

def logCount (topic : Topic) : LogM Nat := do
  match (← get).core.logCounts topic with
  | some cached => return cached
  | none =>
    let n ← query fun db => db.sqLog.count fun r => r.entry.topic = topic
    modify fun t => { t with
      core.logCounts := fun T => if T = topic then some n else t.core.logCounts T }
    return n

def directivePut (d : WriterDirective) : LogM Unit :=
  execute fun db => { db with sqDirectives := db.sqDirectives.upsert d.stringify }

def directiveGet (topic : Topic) (writer : WriterId) (rgen : Nat) :
    LogM (Option WriterDirective) :=
  query fun db => db.sqDirectives.get (topic, writer, rgen)

def finalityGet (topic : Topic) : LogM (Option FinalityCert) :=
  query fun db => db.sqFinality.get topic

def finalitySet (cert : FinalityCert) : LogM Unit :=
  execute fun db => { db with sqFinality := db.sqFinality.upsert cert }

def metaSetHlc (h : HlcState) : LogM Unit :=
  execute fun db => { db with metaHlc := some h }

end Store

end Seqscribe
