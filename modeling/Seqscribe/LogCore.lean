import Seqscribe.Codec
import Seqscribe.Store

namespace Seqscribe
set_option autoImplicit true

variable (env : Env)

def topicPolicy (topic : Topic) : LogM TopicPolicy :=
  match env.topics topic with
  | some policy => return policy
  | none => throw ⟨.ERR_UNKNOWN_TOPIC, topic⟩

structure AppendItem where
  topic : Topic
  kind : JsString
  payload : JsonValue
  key : Option Key := none
  causal : Option (WriterId × Nat) := none
  /-- The causal scope of a register write, whose pointer is stamped at commit time. -/
  causalProvider : Option String := none
  ref : Option EntryId := none
  known : (env.topics topic).isSome

structure ExternalItem where
  entry : LogEntry
  via : Option String
  valid : validateEntry env entry = .ok entry
  known : (env.topics entry.topic).isSome

def done (r : Settled) : LogM Unit := modify fun t => { t with settle := t.settle ++ [r] }

def report (a : Anomaly) : LogM Unit := modify fun t => { t with anomalies := t.anomalies ++ [a] }

def noteApplied (entry : LogEntry) (rowid : Option Nat) (via : Option String) : LogM Unit :=
  modify fun t => { t with applied := t.applied ++ [⟨entry, rowid, via⟩] }

def setHlcState (h : HlcState) : LogM Unit := modify fun t => { t with core.hlcState := h }

def getRecovery (topic : Topic) (writer : WriterId) : LogM (Option RecoveryTarget) :=
  return (← get).core.recoveries (topic, writer)

def setRecovery (topic : Topic) (writer : WriterId) (target : Option RecoveryTarget) : LogM Unit :=
  modify fun t => { t with
    core.recoveries := Function.update t.core.recoveries (topic, writer) target }

def freshHead (topic : Topic) (writer : WriterId) : WriterRow where
  topic := topic
  writer := writer
  contigSeq := 0
  contigChain := seedOf env topic writer
  sealReason := none
  rgen := 0
  retiredAt := none
  finalSeq := none
  finalChain := none

def cacheHead (k : StreamId) (head : Option WriterRow) : LogM Unit :=
  modify fun t => { t with core.heads := Function.update t.core.heads k head }

def getStream (topic : Topic) (writer : WriterId) : LogM WriterRow := do
  match (← get).core.heads (topic, writer) with
  | some head => return head
  | none =>
    let head := (← Store.getWriter topic writer).getD (freshHead env topic writer)
    cacheHead (topic, writer) (some head)
    return head

def getCert (topic : Topic) : LogM (Option FinalityCert) := do
  match (← get).core.certs topic with
  | some c => return c
  | none =>
    let c ← Store.finalityGet topic
    modify fun t => { t with core.certs := Function.update t.core.certs topic (some c) }
    return c

def floorOf (topic : Topic) (writer : WriterId) : LogM (Option Floor) := do
  match (← get).core.floors (topic, writer) with
  | some f => return f
  | none =>
    let f ← Store.floorGet topic writer
    modify fun t => { t with core.floors := Function.update t.core.floors (topic, writer) (some f) }
    return f

/-- A retired head is exposed as a tombstone until it is older than the retention bound. -/
def applyHeadToVec (topicVec : TopicVec) (w : WriterRow) (tombstoneFloor : Int) : TopicVec :=
  match w.sealReason, w.finalSeq, w.finalChain with
  | some .retired, some finalSeq, some finalChain =>
    if w.retiredAt.any fun (since : Nat) => decide ((since : Int) < tombstoneFloor) then
      { topicVec with writers := topicVec.writers.delete w.writer }
    else
      { topicVec with
        writers := topicVec.writers.upsert (w.writer, .retired ⟨finalSeq, finalChain, w.rgen⟩) }
  | _, _, _ =>
    let live : LiveVec := ⟨w.contigSeq, w.contigChain, if w.rgen > 0 then some w.rgen else none⟩
    { topicVec with writers := topicVec.writers.upsert (w.writer, .live live) }

/-- `vec[topic] ??= { writers: {} }` -/
def topicVecOf (vec : HaveVectors) (topic : Topic) : TopicVec :=
  (vec.get topic).getD ⟨topic, none, .empty⟩

def tombstoneFloor : LogM Int := return (← clock) - env.constants.TOMBSTONE_RETAIN_MS

/-- The head object is shared with the cache, so its changes show there at once; the row and the
HAVE vector follow. -/
def saveHead (head : WriterRow) : LogM Unit := do
  cacheHead head.stream (some head)
  Store.upsertWriter head
  match (← get).core.vectorsCache with
  | none => return
  | some vec =>
    let floor ← tombstoneFloor env
    let topicVec := applyHeadToVec (topicVecOf vec head.topic) head floor
    modify fun t => { t with core.vectorsCache := some (vec.upsert topicVec) }

/-- The HAVE vectors, rebuilt from the store when they are not cached. -/
def vectors : LogM HaveVectors := do
  match (← get).core.vectorsCache with
  | some vec => return vec
  | none =>
    let floor ← tombstoneFloor env
    let heads ← Store.listAllWriters
    let out := heads.foldl
      (fun out w => out.upsert (applyHeadToVec (topicVecOf out w.topic) w floor)) .empty
    let out ← (← get).core.defined.foldlM
      (fun (out : HaveVectors) topic => do
        let policy ← topicPolicy env topic
        if policy.replication ≠ .fullSync then return out
        let topicVec := topicVecOf out topic
        match ← getCert topic with
        | some cert => return out.upsert { topicVec with fgen := some cert.generation }
        | none => return out.upsert topicVec) out
    modify fun t => { t with core.vectorsCache := some out }
    return out

/-- The seal that a fork puts on a stream; the head as it is afterwards. -/
def sealHead (head : WriterRow) (offending : LogEntry) : LogM WriterRow := do
  let head := { head with sealReason := some .fork }
  saveHead env head
  report (.writerForked offending.topic offending.writer (some offending))
  return head

def mergeClock (e : LogEntry) : LogM Unit := do
  let pt ← clock
  if isOverEpsilon e.hlc pt env.constants.HLC_EPSILON_MS then
    Store.annotate e.topic e.writer e.seq .clockOutlier pt
    report (.clockOutlier e)
  else
    setHlcState (merge (← get).core.hlcState e.hlc pt)

/-- The journal keeps the tail a topic had before the transaction first changed it. -/
def journalRing (topic : Topic) : LogM Unit :=
  modify fun t =>
    if (t.ringUndo topic).isSome then t
    else { t with ringUndo := Function.update t.ringUndo topic (some (t.core.rings topic)) }

def setRing (topic : Topic) (ring : Option (List LogEntry)) : LogM Unit :=
  modify fun t => { t with core.rings := Function.update t.core.rings topic ring }

def persist (e : LogEntry) : LogM (Option Nat) := do
  let policy ← topicPolicy env e.topic
  match policy.retention with
  | .full => return some (← Store.insertEntry e)
  | .ring size =>
    let prev := (← get).core.rings e.topic
    journalRing e.topic
    let ring := prev.getD [] ++ [e]
    setRing e.topic (some (ring.drop (ring.length - size)))
    return none
  | .none => return none

/-- The chain an entry after the head is hashed onto. -/
def WriterRow.prevChain (head : WriterRow) : Chain :=
  if head.contigSeq = 0 then seedOf env head.topic head.writer else head.contigChain

def verifyAndApply (head : WriterRow) (e : LogEntry) (via : Option String) :
    LogM (WriterRow × ApplyResult) := do
  if chainOf env (head.prevChain env) e ≠ e.chain then
    return (← sealHead env head e, .forked)
  if head.contigSeq > 0 then
    let prev ← Store.getEntry e.topic e.writer head.contigSeq
    if prev.any fun p => decide (hlcCompare p.hlc e.hlc > 0) then
      return (← sealHead env head e, .forked)
  let rowid ← persist env e
  let head := { head with contigSeq := e.seq, contigChain := e.chain }
  saveHead env head
  noteApplied e rowid via
  return (head, .applied)

/-- `fuel` bounds the number of rounds; each takes one row out of `sq_pending`. -/
def drainPending (via : Option String) : Nat → WriterRow → LogM Unit
  | 0, _ => return
  | fuel + 1, head => do
    match ← Store.pendingGet head.topic head.writer (head.contigSeq + 1) with
    | none => return
    | some next =>
      Store.pendingDelete head.topic head.writer next.seq
      let (head, r) ← verifyAndApply env head next via
      if r = .forked then return
      drainPending via fuel head

def drainStream (via : Option String) (head : WriterRow) : LogM Unit := do
  drainPending env via ((← get).core.db.sqPending.rows.length + 1) head

/-- The head of a stream that a completed recovery retires. -/
def WriterRow.retire (head : WriterRow) (target : RecoveryTarget) (now : Nat) : WriterRow :=
  { head with
    sealReason := some .retired
    rgen := target.rgen
    retiredAt := some now
    finalSeq := some target.finalSeq
    finalChain := some target.finalChain }

/-- Move the rows of a stream from `fromSeq` to `toSeq` into quarantine and delete every row from
`fromSeq` on. -/
def quarantineRange (topic : Topic) (writer : WriterId) (fromSeq toSeq : Nat)
    (reason : QuarantineReason) (now : Nat) : LogM Nat := do
  let doomed ← Store.entriesRange topic writer fromSeq toSeq
  forM doomed fun entry => do
    Store.quarantinePut entry reason now
    report (.entryQuarantined entry)
  Store.deleteLogRange topic writer fromSeq
  return doomed.length

/-- The chain of the held row at a position; the seed at 0. -/
def chainHeldAt (topic : Topic) (writer : WriterId) (seq : Nat) : LogM (Option Chain) := do
  if seq = 0 then return some (seedOf env topic writer)
  else return (← Store.getEntry topic writer seq).map LogEntry.chain

/-- The first half of a recovery ingest: a canonical entry at or below the head that disagrees
with the local row rewinds the stream to just below it. -/
def recoveryRewind (head : WriterRow) (e : LogEntry) : LogM WriterRow := do
  let now ← clock
  let _ ← quarantineRange e.topic e.writer e.seq head.contigSeq .canonicalized now
  let prev ← chainHeldAt env e.topic e.writer (e.seq - 1)
  -- no row at the new position leaves the chain of the old head in place
  let head :=
    { head with contigSeq := e.seq - 1, contigChain := prev.getD head.contigChain }
  saveHead env head
  return head

/-- The second half: an entry right after the head extends the canonical branch. -/
def recoveryExtend (head : WriterRow) (e : LogEntry) (target : RecoveryTarget)
    (via : Option String) : LogM Unit := do
  let now ← clock
  if e.seq ≠ head.contigSeq + 1 then
    done (.external .pending)
  else if chainOf env (head.prevChain env) e ≠ e.chain then
    done (.external .forked)
  else
    let rowid ← persist env e
    let head := { head with contigSeq := e.seq, contigChain := e.chain }
    saveHead env head
    noteApplied e rowid via
    if head.contigSeq = target.finalSeq ∧ head.contigChain = target.finalChain then
      saveHead env (head.retire target now)
      setRecovery e.topic e.writer none
    done (.external .applied)

def recoveryIngest (head : WriterRow) (e : LogEntry) (target : RecoveryTarget)
    (via : Option String) : LogM Unit := do
  if e.seq ≤ head.contigSeq then
    let stored ← Store.getEntry e.topic e.writer e.seq
    if stored.any fun s => decide (s.chain = e.chain) then
      done (.external .duplicate)
    else
      let head ← recoveryRewind env head e
      recoveryExtend env head e target via
  else
    recoveryExtend env head e target via

/-- The causal pointer of an append: given, or stamped from the scope's own uncommitted tail. -/
def stampCausal (item : AppendItem env) (seq : Nat) : LogM (Option (WriterId × Nat)) := do
  match item.causalProvider with
  | none => return item.causal
  | some scope =>
    let t ← get
    let causal := (t.core.scopeTails scope).orElse fun _ => t.ambient.lastObserved
    modify fun t => { t with
      core.scopeTails := Function.update t.core.scopeTails scope (some (env.writerId, seq)) }
    return causal

def processAppend (item : AppendItem env) : LogM Unit := do
  let head ← getStream env item.topic env.writerId
  if head.sealReason ≠ none then
    done (.rejected ⟨.ERR_WRITER_SEALED, s!"{item.topic}/{env.writerId}"⟩)
  else
  match stamp (← get).core.hlcState (← clock) with
  | .error e => done (.rejected e)
  | .ok (state, hlc) =>
    setHlcState state
    let seq := head.contigSeq + 1
    let causal ← stampCausal env item seq
    -- `dec` throws outside its domain, which aborts the batch
    if seq > MAX_SAFE_INTEGER ∨ hlc.l > MAX_SAFE_INTEGER then
      throw ⟨.ERR_ENTRY_ENCODING, s!"dec() domain violation: {seq}"⟩
    let unchained : LogEntry :=
      { topic := item.topic, writer := env.writerId, seq := seq, hlc := hlc, kind := item.kind,
        key := item.key, causal := causal, ref := item.ref, payload := item.payload, chain := "" }
    let entry := { unchained with chain := chainOf env (head.prevChain env) unchained }
    match validateEntry env entry with
    | .error e => done (.rejected e)
    | .ok _ =>
      let rowid ← persist env entry
      saveHead env { head with contigSeq := seq, contigChain := entry.chain }
      noteApplied entry rowid none
      done (.appended entry.id)

/-- An order at or before the certified one, beyond the writer's cut. -/
def OutsideCover (cert : FinalityCert) (e : LogEntry) : Prop :=
  orderCompare (orderOf e) cert.order ≤ 0 ∧ cert.cutSeq e.writer < e.seq

instance : Decidable (OutsideCover cert e) := inferInstanceAs (Decidable (_ ∧ _))

/-- An entry at or below the head: a duplicate, or a second content of the same id. -/
def recheck (head : WriterRow) (e : LogEntry) : LogM Unit := do
  match ← Store.getEntry e.topic e.writer e.seq with
  | some stored =>
    if stored.chain = e.chain then done (.external .duplicate)
    else
      let _ ← sealHead env head e
      done (.external .forked)
  | none => done (.external .duplicate)

/-- The entry right after the head, and what was waiting for it. -/
def extend (head : WriterRow) (e : LogEntry) (via : Option String) : LogM Unit := do
  let (head, r) ← verifyAndApply env head e via
  if r = .applied then
    mergeClock env e
    drainStream env via head
  done (.external r)

/-- An entry beyond the next one waits in `sq_pending`, as far as the cap allows. -/
def postpone (head : WriterRow) (e : LogEntry) : LogM Unit := do
  match ← Store.pendingGet e.topic e.writer e.seq with
  | some existing =>
    if existing.chain = e.chain then done (.external .duplicate)
    else
      let _ ← sealHead env head e
      done (.external .forked)
  | none =>
    if (← Store.pendingCount e.topic e.writer) ≥ env.constants.PENDING_CAP then
      done (.external .droppedOverflow)
    else
      Store.pendingPut e
      mergeClock env e
      done (.external .pending)

def processExternal (item : ExternalItem env) : LogM Unit := do
  let e := item.entry
  let head ← getStream env e.topic e.writer
  if head.sealReason ≠ none then
    match ← getRecovery e.topic e.writer with
    | some target =>
      if e.seq ≤ target.finalSeq then recoveryIngest env head e target item.via
      else done (.external .sealed)
    | none => done (.external .sealed)
  else
  let cert ← getCert e.topic
  if cert.any fun c => decide (OutsideCover c e) then
    Store.annotate e.topic e.writer e.seq .preFinalityRejected (← clock)
    report (.preFinalityRejected e)
    done (.external .rejectedFinality)
  else if e.seq ≤ head.contigSeq then recheck env head e
  else if e.seq = head.contigSeq + 1 then extend env head e item.via
  else postpone env head e

end Seqscribe
