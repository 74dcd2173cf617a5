import Seqscribe.Retention

namespace Seqscribe
set_option autoImplicit true

/-- An operation in the commit queue. Items carry what the enqueuing call has checked. -/
inductive QueueItem (env : Env) where
  | append (item : AppendItem env)
  | external (item : ExternalItem env)
  | sealStream (topic : Topic) (writer : WriterId)
  | cert (cert : FinalityCert)
  | directive (d : WriterDirective)
  | adopt (topic : Topic) (cut : Cut)
  | retireTopic (topic : Topic) (known : (env.topics topic).isSome)
  | pruneTopic (topic : Topic) (olderThanMs : Option Int) (keepNewest : Option Rat)
      (known : (env.topics topic).isSome)
  | pruneSuperseded (topic : Topic) (uptoRowid maxRows : Nat) (supersedeOtherWriters : Bool)
      (known : (env.topics topic).isSome)
  | pruneAcked (topic : Topic) (o : AckedPruneOptions) (maxRows : Nat)
      (known : (env.topics topic).isSome)
  | adoptFloor (topic : Topic) (writer : WriterId) (seq : Nat) (chain : Chain)
      (known : (env.topics topic).isSome)

variable (env : Env)

def processItem : QueueItem env → LogM Unit
  | .append item => processAppend env item
  | .external item => processExternal env item
  | .sealStream topic writer => processSeal env topic writer
  | .cert cert => processCert env cert
  | .directive d => processDirective env d
  | .adopt topic cut => processAdopt env topic cut
  | .retireTopic topic _ => processRetireTopic env topic
  | .pruneTopic topic olderThanMs keepNewest _ =>
    processPruneTopic env topic olderThanMs keepNewest
  | .pruneSuperseded topic uptoRowid maxRows supersedeOtherWriters _ =>
    processPruneSuperseded env topic uptoRowid maxRows supersedeOtherWriters
  | .pruneAcked topic o maxRows _ => processPruneAcked env topic o maxRows
  | .adoptFloor topic writer seq chain _ => processAdoptFloor env topic writer seq chain

/-- An item with its surroundings at the time it is processed. -/
abbrev Queued := Ambient × QueueItem env

def processQueued (q : Queued env) : LogM Unit := do
  modify fun t => { t with ambient := q.1 }
  processItem env q.2

def commitFailure : SeqscribeError := ⟨.ERR_STORAGE, "commit failed"⟩

/-- `COMMIT`, which fails when the fault of this transaction has not struck before. -/
def commit : LogM Unit := do
  if (← get).fault.isSome then throw commitFailure

def flushBody (batch : List (Queued env)) : LogM Unit := do
  forM batch (processQueued env)
  Store.metaSetHlc (← get).core.hlcState
  commit

def Txn.start (core : Core) (fault : Option Nat) : Txn where
  core := core
  ambient := { now := 0 }
  ringUndo := fun _ => none
  settle := []
  applied := []
  anomalies := []
  fault := fault

/-- The core after an operation, with what it settled, delivered and reported. -/
structure Outcome where
  core : Core
  settle : List Settled := []
  applied : List AppliedEntry := []
  anomalies : List Anomaly := []

/-- An aborted transaction: the caches reload from the store, and the side state that has no
durable source is put back. -/
def restoreAborted (before : Core) (t : Txn) : Core :=
  { t.core with
    heads := fun _ => none
    certs := fun _ => none
    floors := fun _ => none
    vectorsCache := none
    hlcState := before.hlcState
    recoveries := before.recoveries
    rings := fun T => (t.ringUndo T).getD (t.core.rings T)
    scopeTails := before.scopeTails }

/-- One group commit. With a `fault`, a storage call or the commit itself fails. -/
def flush (batch : List (Queued env)) (fault : Option Nat) (core : Core) : Outcome :=
  if batch.isEmpty then { core := core }
  else
    match transaction (flushBody env batch) (Txn.start core fault) with
    | .ok _ t => { core := t.core, settle := t.settle, applied := t.applied,
                   anomalies := t.anomalies }
    | .error e t => { core := restoreAborted core t, settle := batch.map fun _ => .rejected e }

/-- Move the covered rows that every live consumer has passed to the archive. -/
def archiveNow (topic : Topic) : LogM Unit := do
  match ← getCert topic with
  | none => return
  | some cert =>
    let now ← clock
    let cursors ← Store.cursorsForTopic topic
    let stale (c : CursorRow) : Bool :=
      decide ((c.updatedAt : Int) < (now : Int) - env.constants.FINALITY_WINDOW_MS)
    forM (cursors.filter stale) fun c => do
      Store.cursorDelete c.consumer topic
      report (.consumerAbandoned topic c.consumer)
    let minCursor := (cursors.filter fun c => !stale c).foldl (fun m c => min m c.lastRowid)
      MAX_SAFE_INTEGER
    forM cert.cut.rows fun c => do
      if c.seq ≠ 0 then
        let _ ← Store.archiveCovered topic c.writer c.seq minCursor now

/-- What can happen to a log core, one operation at a time: flushes, the archive pass, reads that
fill caches, writes of the other hubs to their own tables, and restarts. -/
inductive Input where
  | flush (batch : List (Queued env)) (fault : Option Nat)
  | archiveNow (topic : Topic) (now : Nat) (fault : Option Nat)
  | getStream (topic : Topic) (writer : WriterId)
  | getCert (topic : Topic)
  | floorOf (topic : Topic) (writer : WriterId)
  | vectors (now : Nat)
  | cursorSet (row : CursorRow)
  | cursorDelete (consumer : String) (topic : Topic)
  | ackUpsert (row : AckRow)
  | ackNodeSeen (row : AckNodeRow)
  | reportCanonicalUnavailable (topic : Topic) (writer : WriterId)
  | clearScopeTail (scope : String)
  | defineTopic (topic : Topic)
  | restart

/-- Run a computation outside any transaction: what it changed stays when it throws. -/
def runDirect (m : LogM α) (now : Nat) (fault : Option Nat) (core : Core) : Outcome :=
  let t := { Txn.start core fault with ambient := { now := now } }
  match m t with
  | .ok _ t' => { core := t'.core, anomalies := t'.anomalies }
  | .error _ t' => { core := t'.core, anomalies := t'.anomalies }

/-- A new process over the same store: volatile state is gone, the clock state is restored. -/
def Core.restart (core : Core) : Core where
  db := core.db
  logCounts := fun _ => none
  archiveCounts := fun _ => none
  hlcState := core.db.metaHlc.getD ⟨0, 0⟩
  heads := fun _ => none
  certs := fun _ => none
  floors := fun _ => none
  vectorsCache := none
  recoveries := fun _ => none
  rings := fun _ => none
  scopeTails := fun _ => none
  defined := []

def Core.init : Core := Core.restart {
  db := Db.empty, logCounts := fun _ => none, archiveCounts := fun _ => none, hlcState := ⟨0, 0⟩,
  heads := fun _ => none, certs := fun _ => none, floors := fun _ => none, vectorsCache := none,
  recoveries := fun _ => none, rings := fun _ => none, scopeTails := fun _ => none, defined := [] }

def step (core : Core) : Input env → Outcome
  | .flush batch fault => flush env batch fault core
  | .archiveNow topic now fault => runDirect (archiveNow env topic) now fault core
  | .getStream topic writer => runDirect (getStream env topic writer) 0 none core
  | .getCert topic => runDirect (getCert topic) 0 none core
  | .floorOf topic writer => runDirect (floorOf topic writer) 0 none core
  | .vectors now => runDirect (vectors env) now none core
  | .cursorSet row => { core := { core with db.sqCursors := core.db.sqCursors.upsert row } }
  | .cursorDelete consumer topic =>
    { core := { core with db.sqCursors := core.db.sqCursors.delete (consumer, topic) } }
  | .ackUpsert row => { core := { core with db.sqAcks := core.db.sqAcks.upsert row } }
  | .ackNodeSeen row => { core := { core with db.sqAckNodes := core.db.sqAckNodes.upsert row } }
  | .reportCanonicalUnavailable topic writer =>
    { core := { core with
        recoveries := Function.update core.recoveries (topic, writer)
          ((core.recoveries (topic, writer)).map fun r =>
            { r with unavailableReported := true }) } }
  | .clearScopeTail scope =>
    { core := { core with scopeTails := Function.update core.scopeTails scope none } }
  | .defineTopic topic => { core := { core with defined := core.defined ++ [topic] } }
  | .restart => { core := core.restart }

/-- The outcomes of a run, one for each input. -/
def run (core : Core) : List (Input env) → List Outcome
  | [] => []
  | i :: is =>
    let o := step env core i
    o :: run o.core is

/-- The core at the end of a run. -/
def runCore (core : Core) (is : List (Input env)) : Core :=
  is.foldl (fun core i => (step env core i).core) core

end Seqscribe
