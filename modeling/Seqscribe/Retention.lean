import Seqscribe.Lifecycle
import Mathlib.Data.Rat.Floor

namespace Seqscribe
set_option autoImplicit true

variable (env : Env)

def FULL_TAIL_DEFAULT : Nat := 500
def ACK_FORGET_LAG_MULTIPLE : Nat := 2

/-- The least rowid a registered consumer has not passed; unbounded without consumers. -/
def cursorFloorOf (topic : Topic) : LogM Nat := do
  let cursors ← Store.cursorsForTopic topic
  return cursors.foldl (fun m c => min m c.lastRowid) MAX_SAFE_INTEGER

def keepNewestFloorOf (topic : Topic) (keepNewest : Option Rat) : LogM Nat := do
  match keepNewest with
  | none => return MAX_SAFE_INTEGER
  | some k =>
    let keep := k.floor
    if keep = 0 then return MAX_SAFE_INTEGER
    else if keep < 0 then return 0
    else return (← Store.rowidAtTailOffset topic keep.toNat).getD 0

def processPruneTopic (topic : Topic) (olderThanMs : Option Int) (keepNewest : Option Rat) :
    LogM Unit := do
  let policy ← topicPolicy env topic
  if policy.kind = .register then
    done (.rejected (misuse s!"pruneTopic: register-kind topics are not prunable ({topic})"))
  else if policy.replication = .fullSync then
    done (.rejected (misuse s!"pruneTopic: full-sync topics are not prunable ({topic})"))
  else if policy.retention ≠ .full then
    done (.rejected (misuse
      s!"pruneTopic: requires retention \"full\" ({topic} is {policy.retention.name})"))
  else
    let cursorFloor ← cursorFloorOf topic
    let keepNewestFloor ← keepNewestFloorOf topic keepNewest
    -- a floor of 0 leaves nothing below it
    let belowRowid := min cursorFloor keepNewestFloor - 1
    let now ← clock
    let hlcBefore := olderThanMs.map fun ms => (now : Int) - ms
    let subscribed := (← get).ambient.hasActiveSubscriber topic
    if belowRowid ≥ 1 ∧ policy.tombstoneKind.isSome ∧ subscribed then
      done (.rejected (misuse
        s!"pruneTopic: keyed topic has an active tail subscriber — use pruneSuperseded ({topic})"))
    else
    let refused ← (
      if belowRowid ≥ 1 ∧ subscribed then do
        let windowFloor ← Store.rowidAtTailOffset topic FULL_TAIL_DEFAULT
        return windowFloor.all fun f => decide (belowRowid ≥ f)
      else return false)
    if refused then
      done (.rejected (misuse s!"pruneTopic: topic has an active tail subscriber ({topic})"))
    else if belowRowid < 1 then
      done (.pruned 0)
    else
      let prunedRows ← Store.deleteLogRowsUpToRowid topic belowRowid hlcBefore
      done (.pruned prunedRows)

def processPruneSuperseded (topic : Topic) (uptoRowid maxRows : Nat)
    (supersedeOtherWriters : Bool) : LogM Unit := do
  let policy ← topicPolicy env topic
  match policy.tombstoneKind with
  | none => done (.rejected (misuse s!"pruneSuperseded: requires a keyed topic ({topic})"))
  | some tombstoneKind =>
    let cursors ← Store.cursorsForTopic topic
    let floor := cursors.foldl (fun m c => min m c.lastRowid) uptoRowid
    let drop (rowids : LogM (List Nat)) : LogM Nat := do
      let rowids ← rowids
      Store.deleteLogRowids topic rowids
      return rowids.length
    if floor ≥ 1 then
      let others ← (
        if supersedeOtherWriters ∧ maxRows > 0 then
          drop (Store.otherWriterRowids topic env.writerId floor maxRows)
        else return 0)
      let budget := maxRows - others
      let superseded ← (
        if budget > 0 then drop (Store.supersededRowids topic floor uptoRowid budget)
        else return 0)
      let budget := budget - superseded
      let tombstones ← (
        if budget > 0 then
          drop (Store.loneTombstoneRowids topic tombstoneKind floor uptoRowid budget)
        else return 0)
      done (.pruned (others + superseded + tombstones))
    else
      done (.pruned 0)

structure AckedPruneOptions where
  olderThanMs : Nat
  maxLagMs : Nat
  members : Option (List WriterId) := none
  excludeMembers : List WriterId := []
  dryRun : Bool := false

structure StreamView where
  writer : WriterId
  contigSeq : Nat
  sealReason : Option SealReason
  finalSeq : Option Nat
  recovering : Bool

structure MemberPlan where
  members : List AckedPruneMember
  included : List WriterId
  forget : List WriterId

/-- The newest of the times at which a member showed itself. -/
def evidenceOf (times : List (Option Nat)) : Option Nat := times.reduceOption.max?

/-- `hlc_l` of the newest held entry of each writer, where its row is held. -/
def writerNewestOf (topic : Topic) (streams : List StreamView) :
    LogM (List (WriterId × Nat)) :=
  streams.foldlM (fun out s => do
    if s.contigSeq = 0 then return out
    match ← Store.hlcLAt topic s.writer s.contigSeq with
    | some l => return out ++ [(s.writer, l)]
    | none => return out) []

def planMember (topic : Topic) (o : AckedPruneOptions) (recorded : List AckNodeRow)
    (writerNewest : List (WriterId × Nat)) (now : Nat) (plan : MemberPlan) (node : WriterId) :
    LogM MemberPlan := do
  let recorded := recorded.find? fun r => decide (r.node = node)
  let firstAt ← (
    match recorded with
    | some r => return some r.firstAt
    | none =>
      if o.members.isSome then do
        if !o.dryRun then Store.ackNodeName topic node now
        return some now
      else return none)
  let evidence := evidenceOf
    [recorded.bind AckNodeRow.seenAt, firstAt,
      (writerNewest.find? fun p => decide (p.1 = node)).map Prod.snd]
  let silentFor (ms : Nat) : Bool := evidence.any fun t => decide (now > t + ms)
  let why : Option MemberExclusion :=
    if node ∈ o.excludeMembers then some .excluded
    else if evidence = none ∨ silentFor o.maxLagMs then some .lagging
    else none
  return {
    members := plan.members ++ [⟨node, recorded.bind AckNodeRow.seenAt, why⟩]
    included := if why = none then plan.included ++ [node] else plan.included
    forget :=
      if recorded.isSome ∧
          (why = some .excluded ∨ silentFor (o.maxLagMs * ACK_FORGET_LAG_MULTIPLE)) then
        plan.forget ++ [node]
      else plan.forget }

def planMembers (topic : Topic) (o : AckedPruneOptions) (streams : List StreamView)
    (selfWriter : WriterId) (now : Nat) : LogM MemberPlan := do
  let recorded ← Store.ackNodes topic
  let writerNewest ← writerNewestOf topic streams
  let names :=
    match o.members with
    | some members => members
    | none =>
      let active := streams.filter fun (s : StreamView) => s.sealReason ≠ some SealReason.retired
      recorded.map AckNodeRow.node ++ active.map StreamView.writer
  let names := (names.dedup.filter fun n => n ≠ selfWriter).insertionSort (· ≤ ·)
  names.foldlM (planMember topic o recorded writerNewest now) ⟨[], [], []⟩

structure AckFloor where
  ackFloor : Nat
  pinnedBy : Option WriterId

/-- The least contig any included member advertised for the stream; its author counts as holding
what it wrote. -/
def ackFloorOf (acks : List AckRow) (included : List WriterId) (s : StreamView) : AckFloor :=
  let cap := if s.sealReason = some .retired then s.finalSeq.getD s.contigSeq else s.contigSeq
  included.foldl (fun out node =>
    let acked := (acks.find? fun a => decide (a.node = node ∧ a.writer = s.writer)).map AckRow.seq
    let a := acked.getD (if node = s.writer then cap else 0)
    if a < out.ackFloor then ⟨a, some node⟩ else out) ⟨cap, none⟩

/-- The running totals of a `pruneAcked` call. -/
structure AckedPrune where
  budget : Nat
  pruned : Nat
  more : Bool
  writers : List AckedPruneWriter

/-- The rows of a stream that go: a prefix that stays at or below every bound. -/
def prunablePrefix (target cursorFloor : Nat) (cutoff : Int) (rows : List LogRow) :
    List LogRow :=
  rows.takeWhile fun r =>
    decide (r.entry.seq ≤ target ∧ (r.entry.hlc.l : Int) < cutoff ∧ r.rowid ≤ cursorFloor)

/-- Record the floor that a prune leaves, with the chain of the last row it takes. -/
def recordFloor (topic : Topic) (writer : WriterId) (seq now : Nat) : LogM Unit := do
  let chain := (← Store.chainAt topic writer seq).getD ""
  Store.floorSet topic writer seq chain now
  modify fun t => { t with
    core.floors := Function.update t.core.floors (topic, writer) (some (some ⟨seq, chain⟩)) }

/-- Delete a prefix of a stream, which raises its floor unless that is beyond the prefix. -/
def dropPrefix (topic : Topic) (writer : WriterId) (prevSeq lastSeq now : Nat) : LogM Unit := do
  if lastSeq > prevSeq then recordFloor topic writer lastSeq now
  Store.deleteStreamPrefix topic writer lastSeq

def pruneAckedStream (topic : Topic) (o : AckedPruneOptions) (acks : List AckRow)
    (included : List WriterId) (cursorFloor now : Nat) (acc : AckedPrune) (s : StreamView) :
    LogM AckedPrune := do
  let prev ← floorOf topic s.writer
  let prevSeq := (prev.map Floor.seq).getD 0
  let af := ackFloorOf acks included s
  let line (floor : Nat) (skipped : Option PruneSkip) : List AckedPruneWriter :=
    acc.writers ++ [⟨s.writer, floor, af.ackFloor, af.pinnedBy, skipped⟩]
  if s.sealReason = some .fork then
    return { acc with writers := line prevSeq (some .forked) }
  else if s.recovering then
    return { acc with writers := line prevSeq (some .recovering) }
  else if acc.budget = 0 then
    return { acc with more := true, writers := line prevSeq none }
  else
    let headCap :=
      if s.sealReason = some .retired then s.finalSeq.getD s.contigSeq else s.contigSeq - 1
    let target := max (min af.ackFloor headCap) prevSeq
    let cutoff : Int := (now : Int) - o.olderThanMs
    let rows ← Store.streamHead topic s.writer (acc.budget + 1)
    let deletable := prunablePrefix target cursorFloor cutoff rows
    let n := min deletable.length acc.budget
    let more := acc.more || decide (n < deletable.length)
    match (deletable.take n).getLast? with
    | none => return { acc with more := more, writers := line prevSeq none }
    | some last =>
      let lastSeq := last.entry.seq
      let floor := max prevSeq lastSeq
      if !o.dryRun then dropPrefix topic s.writer prevSeq lastSeq now
      return { budget := acc.budget - n, pruned := acc.pruned + n, more := more,
               writers := line floor none }

def streamViewOf (recoveries : StreamId → Option RecoveryTarget) (topic : Topic)
    (h : WriterRow) : StreamView :=
  ⟨h.writer, h.contigSeq, h.sealReason, h.finalSeq, (recoveries (topic, h.writer)).isSome⟩

def processPruneAcked (topic : Topic) (o : AckedPruneOptions) (maxRows : Nat) : LogM Unit := do
  match ← ackedRetentionRefusal env topic with
  | some refusal => done (.rejected (misuse s!"pruneAcked: {refusal}"))
  | none =>
    let now ← clock
    let listed ← Store.listWriters topic
    let heads ← listed.foldlM
      (fun (heads : List WriterRow) w => return heads ++ [← getStream env topic w.writer]) []
    let recoveries := (← get).core.recoveries
    let streams := (heads.insertionSort fun a b => a.writer ≤ b.writer).map
      (streamViewOf recoveries topic)
    let plan ← planMembers topic o streams env.writerId now
    let acks ← Store.acksForTopic topic
    let cursorFloor ← cursorFloorOf topic
    let result ← streams.foldlM
      (pruneAckedStream topic o acks plan.included cursorFloor now) ⟨maxRows, 0, false, []⟩
    if !o.dryRun then forM plan.forget fun node => Store.ackForget topic node
    done (.ackedPruned ⟨result.pruned, result.more, result.writers, plan.members⟩)

end Seqscribe
