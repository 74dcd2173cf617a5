import Seqscribe.LogCore

namespace Seqscribe
set_option autoImplicit true

variable (env : Env)

abbrev Cut := Table WriterId CutEntry CutEntry.writer

def processSeal (topic : Topic) (writer : WriterId) : LogM Unit := do
  let head ← getStream env topic writer
  if head.sealReason = none then
    saveHead env { head with sealReason := some .fork }
    report (.writerForked topic writer none)
  done .sealed

/-- Save the head of a stream that a certificate found forked, sealed unless it was already. -/
def saveForked (head : WriterRow) (topic : Topic) (writer : WriterId) : LogM Unit := do
  if head.sealReason = none then
    report (.writerForked topic writer none)
    saveHead env { head with sealReason := some .fork }
  else
    saveHead env head

/-- One writer's share of a certificate; the number of entries it quarantines. -/
def certStream (cert : FinalityCert) (writer : WriterId) : LogM Nat := do
  let now ← clock
  let head ← getStream env cert.topic writer
  let cut := cert.cutSeq writer
  let lastCovered ← Store.lastSeqAtOrBeforeOrder cert.topic writer cert.order
  if lastCovered > cut then
    let held ← chainHeldAt env cert.topic writer cut
    let certified := (cert.cut.get writer).map CutEntry.chain
    let cutChain := (held.orElse fun _ => certified).getD ""
    let quarantined ←
      quarantineRange cert.topic writer (cut + 1) head.contigSeq .postCut now
    saveForked env { head with contigSeq := cut, contigChain := cutChain } cert.topic writer
    return quarantined
  else if cut > 0 ∧ head.contigSeq ≥ cut then
    let mine := (← Store.getEntry cert.topic writer cut).map LogEntry.chain
    let certChain := (cert.cut.get writer).map CutEntry.chain
    if mine.isSome ∧ certChain.isSome ∧ mine ≠ certChain ∧ head.sealReason = none then
      saveForked env head cert.topic writer
    return 0
  else
    return 0

def storeCert (cert : FinalityCert) : LogM Unit := do
  Store.finalitySet cert
  modify fun t => { t with
    core.certs := Function.update t.core.certs cert.topic (some (some cert))
    core.vectorsCache := t.core.vectorsCache.map fun vec =>
      vec.upsert { topicVecOf vec cert.topic with fgen := some cert.generation } }

def processCert (cert : FinalityCert) : LogM Unit := do
  storeCert cert
  let writers ← Store.listWriters cert.topic
  let quarantined ← writers.foldlM (fun n w => return n + (← certStream env cert w.writer)) 0
  done (.cert quarantined)

/-- The chain this node has at the declared end of a retired stream. -/
def localChainAt (head : WriterRow) (d : WriterDirective) (finalSeq : Nat) :
    LogM (Option Chain) := do
  if finalSeq ≠ 0 ∧ finalSeq = head.contigSeq then return some head.contigChain
  else chainHeldAt env d.topic d.writer finalSeq

def directiveTarget (d : WriterDirective) : RecoveryTarget where
  finalSeq := d.finalSeq.getD 0
  finalChain := d.finalChain.getD (seedOf env d.topic d.writer)
  rgen := d.rgen
  unavailableReported := false

def WriterRow.revive (head : WriterRow) (rgen : Nat) : WriterRow :=
  { head with
    sealReason := none, rgen := rgen, retiredAt := none, finalSeq := none, finalChain := none }

/-- A retirement: truncate a stream that agrees with the declared end, else start recovery. -/
def processRetired (head : WriterRow) (d : WriterDirective) : LogM Unit := do
  let target := directiveTarget env d
  let localChainAtFinal ← localChainAt env head d target.finalSeq
  if head.contigSeq ≥ target.finalSeq ∧ localChainAtFinal = some target.finalChain then
    let now ← clock
    let _ ← quarantineRange d.topic d.writer (target.finalSeq + 1) head.contigSeq
      .canonicalized now
    let head := { head with contigSeq := target.finalSeq, contigChain := target.finalChain }
    saveHead env (head.retire target now)
    setRecovery d.topic d.writer none
    done (.directive .applied)
  else
    if head.sealReason = none then
      saveHead env { head with sealReason := some .fork }
    setRecovery d.topic d.writer (some target)
    done (.directive .recovery)

def processDirective (d : WriterDirective) : LogM Unit := do
  let head ← getStream env d.topic d.writer
  let stored ← Store.directiveGet d.topic d.writer d.rgen
  if stored.any fun s => decide (s ≠ d.stringify) then
    report .badDirective
    done (.directive .refused)
  else
    Store.directivePut d
    if d.rgen ≤ head.rgen ∧ head.sealReason ≠ some .fork then
      done (.directive .stale)
    else
    match d.state with
    | .live =>
      if head.sealReason = some .fork then
        report .badDirective
        done (.directive .refused)
      else
        saveHead env (head.revive d.rgen)
        setRecovery d.topic d.writer none
        done (.directive .applied)
    | .retired => processRetired env head d

def processAdopt (topic : Topic) (cut : Cut) : LogM Unit := do
  forM cut.rows fun c => do
    let head ← getStream env topic c.writer
    if head.contigSeq < c.seq then
      saveHead env { head with contigSeq := c.seq, contigChain := c.chain }
  done .adopted

def processRetireTopic (topic : Topic) : LogM Unit := do
  let policy ← topicPolicy env topic
  if policy.kind = .register then
    done (.rejected (misuse s!"retireTopic: register-kind topics are not GC-eligible ({topic})"))
  else if policy.replication = .fullSync then
    done (.rejected (misuse s!"retireTopic: full-sync topics are not GC-eligible ({topic})"))
  else if (← Store.logCount topic) > 0 then
    done (.rejected (misuse s!"retireTopic: topic has durable log entries ({topic})"))
  else if (← get).ambient.hasActiveConsumer topic then
    done (.rejected (misuse s!"retireTopic: topic has an active consumer ({topic})"))
  else if (← get).ambient.hasActiveSubscriber topic then
    done (.rejected (misuse s!"retireTopic: topic has an active subscriber ({topic})"))
  else
    let writers ← Store.listWriters topic
    forM writers fun w => do
      Store.deleteWriter topic w.writer
      cacheHead (topic, w.writer) none
    journalRing topic
    setRing topic none
    modify fun t => { t with
      core.vectorsCache := t.core.vectorsCache.map fun vec => vec.delete topic }
    done (.retired writers.length)

def Retention.name : Retention → String
  | .full => "full"
  | .ring _ => "ring"
  | .none => "none"

/-- Why acknowledged retention does not apply to a topic, if it does not. -/
def ackedRetentionRefusal (topic : Topic) : LogM (Option String) := do
  let p ← topicPolicy env topic
  if p.kind ≠ .append then
    return some s!"register-kind topics are not prunable ({topic})"
  else if p.replication ≠ .fullSync then
    return some s!"requires a full-sync topic ({topic}) — use pruneTopic"
  else if p.retention ≠ .full then
    return some s!"requires retention \"full\" ({topic} is {p.retention.name})"
  else if p.tombstoneKind.isSome then
    return some s!"keyed topics are compacted by pruneSuperseded ({topic})"
  else
    return none

/-- A floor that a recovery target contradicts. -/
def contradictsTarget (target : RecoveryTarget) (seq : Nat) (chain : Chain) : Bool :=
  decide (seq > target.finalSeq) ||
    decide (seq = target.finalSeq) && decide (chain ≠ target.finalChain)

/-- Record a floor; the cached one is read again from the store. -/
def raiseFloor (topic : Topic) (writer : WriterId) (seq : Nat) (chain : Chain) (now : Nat) :
    LogM Unit := do
  Store.floorSet topic writer seq chain now
  modify fun t => { t with core.floors := Function.update t.core.floors (topic, writer) none }

def processAdoptFloor (topic : Topic) (writer : WriterId) (seq : Nat) (chain : Chain) :
    LogM Unit := do
  if (← ackedRetentionRefusal env topic).isSome then
    done (.adoptedFloor .refused)
  else
  let head ← getStream env topic writer
  if head.contigSeq ≥ seq then
    done (.adoptedFloor .noop)
  else
  let target ← getRecovery topic writer
  if head.sealReason ≠ none ∧ target = none then
    done (.adoptedFloor .refused)
  else if target.any fun tgt => contradictsTarget tgt seq chain then
    done (.adoptedFloor .refused)
  else
    let now ← clock
    let head := { head with contigSeq := seq, contigChain := chain }
    let reached := target.filter fun tgt => decide (seq = tgt.finalSeq)
    let head := (reached.map fun tgt => head.retire tgt now).getD head
    if reached.isSome then setRecovery topic writer none
    saveHead env head
    raiseFloor topic writer seq chain now
    Store.deletePendingUpTo topic writer seq
    report (.floorAdopted topic writer)
    if head.sealReason = none then drainStream env none head
    done (.adoptedFloor .adopted)

end Seqscribe
