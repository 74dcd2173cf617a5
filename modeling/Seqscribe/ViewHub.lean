import Mathlib.Data.List.Sort
import Seqscribe.Store
import Seqscribe.Replay

namespace Seqscribe
set_option autoImplicit true

def FOLD_BATCH : Nat := 500

/-! The reads and writes of the store by the derived states, each a statement of its own. -/

namespace Db

/-- The held entries of a topic in total order. -/
def topicEntries (db : Db) (topic : Topic) : List LogEntry :=
  ((db.sqLog.rows.map LogRow.entry).filter fun e => e.topic = topic).insertionSort
    fun e e' => orderOf e ≤ orderOf e'

/-- Strictly after `after`, from the beginning when it is null. -/
def entriesAfterOrder (db : Db) (topic : Topic) (after : Option Order) (limit : Nat) :
    List LogEntry :=
  (Replay.after orderOf after (db.topicEntries topic)).take limit

def entriesForTopicFromRowid (db : Db) (topic : Topic) (afterRowid limit : Nat) : List LogRow :=
  (db.sqLog.selectBy (fun r => r.entry.topic = topic ∧ afterRowid < r.rowid) (·.rowid)).take limit

/-- The entries of the next batch of rows in total order. -/
def batchFrom (db : Db) (topic : Topic) (afterRowid : Nat) : List LogEntry :=
  ((db.entriesForTopicFromRowid topic afterRowid FOLD_BATCH).map LogRow.entry).insertionSort
    fun e e' => orderOf e ≤ orderOf e'

def maxRowid (db : Db) (topic : Topic) : Nat :=
  (((db.sqLog.rows.filter fun r => r.entry.topic = topic).map LogRow.rowid).max?).getD 0

/-- `insertEntry` on the tables; a held id refuses the entry. -/
def insertEntry (db : Db) (e : LogEntry) : Db :=
  match db.sqLog.insert ⟨db.logSequence + 1, e⟩ with
  | none => db
  | some sqLog => { db with sqLog := sqLog, logSequence := db.logSequence + 1 }

/-- The rows of one topic that satisfy a condition leave the log. -/
def deleteLogRows (db : Db) (p : LogRow → Bool) : Db :=
  { db with sqLog := db.sqLog.filter fun r => !p r }

/-- One row moves from the log to the archive. -/
def archiveRow (atMs : Nat) (db : Db) (r : LogRow) : Db :=
  { db with
    sqArchive := db.sqArchive.insertIgnore ⟨r.entry, atMs⟩
    sqLog := db.sqLog.filter fun r' => !decide (r'.rowid = r.rowid) }

end Db

structure ViewDef (S R : Type) where
  init : S
  reduce : S → LogEntry → S
  rows : S → List R
  /-- `String(r[rowKey] ?? "")`. -/
  rowKey : R → String
  /-- The upserts and deletes of an entry, given the state before it. -/
  delta : Option (S → LogEntry → List R × List String)
  /-- Every number of the row is finite, and the row has at most `MAX_ROW_BYTES` bytes. -/
  validRow : R → Bool

/-- The left fold of the reducer. -/
def ViewDef.fold (v : ViewDef S R) (es : List LogEntry) : S := es.foldl v.reduce v.init

structure Instance (v : ViewDef S R) where
  state : S
  ord : Option Order
  lastRowid : Nat
  sinceCheckpoint : Nat
  faulted : Bool
  /-- Delta-less views: the rows written last. -/
  rowCache : Option (Table String R v.rowKey)

def Instance.fresh (v : ViewDef S R) : Instance v where
  state := v.init
  ord := none
  lastRowid := 0
  sinceCheckpoint := 0
  faulted := false
  rowCache := none

abbrev Checkpoints (S : Type) := Table Order (Order × S) Prod.fst

/-- One registered view over the store: its checkpoints, its backing table and its instance.
Rows are compared as values where the source compares their canonical JSON. -/
structure ViewHub (v : ViewDef S R) where
  db : Db
  checkpoints : Checkpoints S
  table : Table String R v.rowKey
  inst : Instance v

/-- What a throwing function leaves in memory is the state that it throws. -/
abbrev ViewM (v : ViewDef S R) := Except (ViewHub v) (ViewHub v)

namespace Checkpoints

def latest (cs : List (Order × S)) : Option (Order × S) :=
  (cs.insertionSort fun c c' => c.1 ≤ c'.1).getLast?

/-- Latest checkpoint strictly before `before`. -/
def checkpointBefore (cs : Checkpoints S) (before : Order) : Option (Order × S) :=
  latest (cs.rows.filter fun c => decide (c.1 < before))

def earliestCheckpoint (cs : Checkpoints S) : Option (Order × S) :=
  (cs.rows.insertionSort fun c c' => c.1 ≤ c'.1).head?

def deleteCheckpointsBefore (cs : Checkpoints S) (before : Order) : Checkpoints S :=
  cs.filter fun c => !decide (c.1 < before)

end Checkpoints

namespace ViewHub

variable {v : ViewDef S R} [DecidableEq R] (topic : Topic) (CHECKPOINT_EVERY : Nat)

/-- The rows of the state, validated and sorted by their keys. -/
def sortedRows (h : ViewHub v) : Option (List R) :=
  if (v.rows h.inst.state).all v.validRow then
    some ((v.rows h.inst.state).insertionSort fun r r' => v.rowKey r ≤ v.rowKey r')
  else none

def tableRows (h : ViewHub v) : List R :=
  h.table.rows.insertionSort fun r r' => v.rowKey r ≤ v.rowKey r'

def rewriteTable (h : ViewHub v) : ViewM v :=
  match h.sortedRows with
  | none => .error h
  | some rows => .ok { h with
      table := .ofRows v.rowKey rows
      inst.rowCache := if v.delta.isSome then h.inst.rowCache else some (.ofRows v.rowKey rows) }

/-- Writes only the rows that changed since the last batch. -/
def diffSyncTable (h : ViewHub v) : ViewM v :=
  match h.inst.rowCache with
  | none => rewriteTable h
  | some cache =>
    if (v.rows h.inst.state).all v.validRow then
      let next := Table.ofRows v.rowKey (v.rows h.inst.state)
      let changed := next.rows.filter fun r => decide (cache.get (v.rowKey r) ≠ some r)
      let gone := (cache.rows.map v.rowKey).filter fun k => (next.get k).isNone
      .ok { h with
        table := gone.foldl Table.delete (changed.foldl Table.upsert h.table)
        inst.rowCache := some next }
    else .error h

/-- `validateRow`, then `insertRow`. -/
def insertRow (h : ViewHub v) (r : R) : ViewM v :=
  if v.validRow r then .ok { h with table := h.table.upsert r } else .error h

def applyDelta (h : ViewHub v) (d : List R × List String) : ViewM v :=
  d.1.foldlM insertRow { h with table := d.2.foldl Table.delete h.table }

def verifyDelta (h : ViewHub v) : ViewM v :=
  match h.sortedRows with
  | none => .error h
  | some expected => if expected = h.tableRows then .ok h else rewriteTable h

def checkpointPut (h : ViewHub v) (ord : Order) (state : S) : ViewHub v :=
  { h with checkpoints := h.checkpoints.upsert (ord, state) }

def checkpoint (h : ViewHub v) : ViewM v :=
  match h.inst.ord with
  | none => .ok h
  | some ord =>
    let h := checkpointPut { h with inst.sinceCheckpoint := 0 } ord h.inst.state
    if v.delta.isSome then verifyDelta h else .ok h

/-- The reducer step that `materialize` and `refoldFrom` share. -/
def foldEntry (h : ViewHub v) (e : LogEntry) : ViewM v :=
  let h := { h with
    inst.state := v.reduce h.inst.state e
    inst.ord := some (orderOf e)
    inst.sinceCheckpoint := h.inst.sinceCheckpoint + 1 }
  if h.inst.sinceCheckpoint ≥ CHECKPOINT_EVERY then checkpoint h else .ok h

def fault (h : ViewHub v) : ViewHub v := { h with inst.faulted := true }

/-- The loop of `refoldFrom`; `fuel` bounds the number of batches. -/
def refoldLoop : Nat → Option Order → ViewHub v → ViewM v
  | 0, _, h => .ok h
  | fuel + 1, cursor, h =>
    match h.db.entriesAfterOrder topic cursor FOLD_BATCH with
    | [] => .ok h
    | e :: es => do
      let h ← (e :: es).foldlM (foldEntry CHECKPOINT_EVERY) h
      refoldLoop fuel h.inst.ord h

def refoldFrom (h : ViewHub v) (cursor : Option Order) : ViewHub v :=
  let fuel := h.db.sqLog.rows.length + 1
  match refoldLoop topic CHECKPOINT_EVERY fuel cursor h >>= rewriteTable with
  | .ok h => h
  | .error h => fault h

def recomputeFrom (h : ViewHub v) (lateOrd : Order) : ViewHub v :=
  let h : ViewHub v :=
    match h.checkpoints.checkpointBefore lateOrd with
    | some ckpt => { h with
        inst.state := ckpt.2
        inst.ord := some ckpt.1
        -- checkpoints past the restore point are stale for the new fold
        checkpoints := Table.empty.upsert ckpt }
    | none => { h with
        inst.state := v.init
        inst.ord := none
        checkpoints := Table.empty }
  refoldFrom topic CHECKPOINT_EVERY { h with inst.sinceCheckpoint := 0 } h.inst.ord

/-- One entry of a forward batch: the delta's rows, then the reducer step. -/
def applyEntry (h : ViewHub v) (e : LogEntry) : ViewM v := do
  let h ← match v.delta with
    | some delta => applyDelta h (delta h.inst.state e)
    | none => .ok h
  foldEntry CHECKPOINT_EVERY h e

/-- With a delta the table is up to date already. -/
def syncTable (h : ViewHub v) : ViewM v := if v.delta.isSome then .ok h else diffSyncTable h

/-- The transaction of a forward batch. -/
def forwardBatch (h : ViewHub v) (batch : List LogEntry) (lastRowid : Nat) : ViewM v := do
  let h ← batch.foldlM (applyEntry CHECKPOINT_EVERY) h
  let h ← syncTable h
  return { h with inst.lastRowid := lastRowid }

def newRows (h : ViewHub v) : List LogRow :=
  h.db.entriesForTopicFromRowid topic h.inst.lastRowid FOLD_BATCH

def newBatch (h : ViewHub v) : List LogEntry := h.db.batchFrom topic h.inst.lastRowid

/-- One turn of the loop of `materialize`, and whether the loop goes on. -/
def materializeBatch (h : ViewHub v) : ViewHub v × Bool :=
  let rows := h.newRows topic
  let batch := h.newBatch topic
  match batch.head?, rows.getLast? with
  | some first, some last =>
    if h.inst.ord.any fun ord => decide (orderCompare (orderOf first) ord ≤ 0) then
      -- late arrival below the watermark: recompute the suffix
      (recomputeFrom topic CHECKPOINT_EVERY { h with inst.lastRowid := last.rowid }
        (orderOf first), true)
    else
      match forwardBatch CHECKPOINT_EVERY h batch last.rowid with
      | .ok h => (h, true)
      -- the transaction undoes the tables, not the instance
      | .error h' => (fault { h with inst := h'.inst }, false)
  | _, _ => (h, false)

/-- The loop of `materialize`; `fuel` bounds the number of batches. -/
def materializeLoop : Nat → ViewHub v → ViewHub v
  | 0, h => h
  | fuel + 1, h =>
    match materializeBatch topic CHECKPOINT_EVERY h with
    | (h, true) => materializeLoop fuel h
    | (h, false) => h

def materialize (h : ViewHub v) : ViewHub v :=
  if h.inst.faulted then h
  else materializeLoop topic CHECKPOINT_EVERY (h.db.sqLog.rows.length + 1) h

/-- `register` on the store as it stands, with the version it was registered with before: a fresh
instance, restored from the latest checkpoint. -/
def register (h : ViewHub v) : ViewHub v :=
  let inst : Instance v :=
    match h.checkpoints.checkpointBefore ⟨MAX_SAFE_INTEGER, 0, "", 0⟩ with
    | some ckpt => { Instance.fresh v with state := ckpt.2, ord := some ckpt.1 }
    | none => .fresh v
  let h := refoldFrom topic CHECKPOINT_EVERY { h with inst := inst } inst.ord
  { h with inst.lastRowid := h.db.maxRowid topic }

/-- The loop of `stateAt`, which stops at the first entry past `ord`. -/
def stateAtLoop (v : ViewDef S R) (db : Db) (ord : Order) : Nat → Option Order → S → S
  | 0, _, state => state
  | fuel + 1, cursor, state =>
    let entries := db.entriesAfterOrder topic cursor FOLD_BATCH
    let within := entries.takeWhile fun e => decide (orderCompare (orderOf e) ord ≤ 0)
    if entries = [] ∨ within.length < entries.length then within.foldl v.reduce state
    else stateAtLoop v db ord fuel (Replay.lastKey orderOf within) (within.foldl v.reduce state)

/-- The view's state exactly at `ord`. -/
def stateAt (h : ViewHub v) (ord : Order) : S :=
  let bound : Order := { ord with seq := ord.seq + 1 }
  let fuel := h.db.sqLog.rows.length + 1
  match h.checkpoints.checkpointBefore bound with
  | some ckpt => stateAtLoop topic v h.db ord fuel (some ckpt.1) ckpt.2
  | none => stateAtLoop topic v h.db ord fuel none v.init

def rebaseAtCut (h : ViewHub v) (ord : Order) : ViewHub v :=
  if h.inst.faulted then h
  else
    let h := checkpointPut h ord (stateAt topic h ord)
    { h with checkpoints := h.checkpoints.deleteCheckpointsBefore ord }

/-- From the earliest checkpoint, the permanent cut-state floor. -/
def rebuild (h : ViewHub v) : ViewHub v :=
  let base := h.checkpoints.earliestCheckpoint
  let h := { h with
    checkpoints := match base with
      | some base => Table.empty.upsert base
      | none => Table.empty
    inst.state := match base with
      | some base => base.2
      | none => v.init
    inst.ord := base.map Prod.fst
    inst.lastRowid := 0
    inst.sinceCheckpoint := 0
    inst.faulted := false }
  let h := refoldFrom topic CHECKPOINT_EVERY h h.inst.ord
  { h with inst.lastRowid := h.db.maxRowid topic }

end ViewHub

end Seqscribe
