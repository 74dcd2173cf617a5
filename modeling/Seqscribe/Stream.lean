import Seqscribe.Flush

namespace Seqscribe
set_option autoImplicit true

/-- Whether entries of a topic are kept in the log. -/
def Env.isFull (env : Env) (topic : Topic) : Bool :=
  (env.topics topic).any fun p => decide (p.retention = .full)

/-- Topics that acknowledged retention and floors apply to. -/
def Env.ackedRetention (env : Env) (topic : Topic) : Bool :=
  (env.topics topic).any fun p => decide (p.kind = .append ∧ p.replication = .fullSync ∧
    p.retention = .full ∧ p.tombstoneKind = none)

/-- Everything a node knows about one stream. -/
structure Stream where
  head : WriterRow
  listed : Bool
  rows : Nat → Option LogEntry
  pending : Table EntryId LogEntry LogEntry.id
  quarantine : Nat → Option QuarantineRow
  archive : Nat → Option LogEntry
  floor : Option Floor
  recovery : Option RecoveryTarget

/-- A stream together with the outputs and the clock of the transaction that works on it. -/
structure Local where
  stream : Stream
  settle : List Settled
  applied : List (LogEntry × Option String)
  anomalies : List Anomaly
  hlcState : HlcState

variable (env : Env)

namespace Stream

def contigSeq (S : Stream) : Nat := S.head.contigSeq

def pendingAt (S : Stream) (seq : Nat) : Option LogEntry :=
  S.pending.get (S.head.topic, S.head.writer, seq)

def saveHead (h : WriterRow) (S : Stream) : Stream := { S with head := h, listed := true }

def put (e : LogEntry) (S : Stream) : Stream :=
  if env.isFull e.topic then { S with rows := Function.update S.rows e.seq (some e) } else S

theorem rows_put (S : Stream) (e : LogEntry) (s : Nat) :
    (S.put env e).rows s = if env.isFull e.topic ∧ s = e.seq then some e else S.rows s := by
  unfold put
  split
  · next hfull => simp [hfull, Function.update_apply]
  · next hfull => simp [hfull]

/-- An entry right after the head is chained onto it and is not older than the row at it. -/
def Accepts (S : Stream) (e : LogEntry) : Prop :=
  chainOf env (S.head.prevChain env) e = e.chain ∧
    (0 < S.head.contigSeq →
      ((S.rows S.head.contigSeq).all fun p => decide (hlcCompare p.hlc e.hlc ≤ 0)) = true)

instance (S : Stream) (e : LogEntry) : Decidable (S.Accepts env e) :=
  inferInstanceAs (Decidable (_ ∧ _))

def advance (e : LogEntry) (S : Stream) : Stream :=
  saveHead { S.head with contigSeq := e.seq, contigChain := e.chain } (S.put env e)

def fork (S : Stream) : Stream := S.saveHead { S.head with sealReason := some .fork }

def unpend (seq : Nat) (S : Stream) : Stream :=
  { S with pending := S.pending.delete (S.head.topic, S.head.writer, seq) }

def pend (e : LogEntry) (S : Stream) : Stream := { S with pending := S.pending.upsert e }

@[simp] theorem pending_put (S : Stream) (e : LogEntry) : (S.put env e).pending = S.pending := by
  unfold put
  split <;> rfl

theorem pendingAt_advance (S : Stream) (e : LogEntry) (s : Nat) :
    (S.advance env e).pendingAt s = S.pendingAt s := by
  simp [pendingAt, advance, saveHead]

theorem pendingAt_unpend (S : Stream) (q s : Nat) :
    (S.unpend q).pendingAt s = if q = s then none else S.pendingAt s := by
  simp [pendingAt, unpend, Table.get_delete]

theorem pendingAt_pend (S : Stream) (e : LogEntry) (s : Nat) : (S.pend e).pendingAt s =
    if e.id = (S.head.topic, S.head.writer, s) then some e else S.pendingAt s :=
  Table.get_upsert ..

/-- The held entries from `fromSeq` to `toSeq`. -/
def range (S : Stream) (fromSeq toSeq : Nat) : List LogEntry :=
  (List.range' fromSeq (toSeq + 1 - fromSeq)).filterMap S.rows

/-- The rows from `fromSeq` on leave the log; those up to `toSeq` enter the quarantine. -/
def quarantineFrom (fromSeq toSeq : Nat) (reason : QuarantineReason) (now : Nat) (S : Stream) :
    Stream :=
  { S with
    rows := fun s => if fromSeq ≤ s then none else S.rows s
    quarantine := fun s =>
      match if fromSeq ≤ s ∧ s ≤ toSeq then S.rows s else none with
      | some e => some ⟨e, reason, now⟩
      | none => S.quarantine s }

theorem quarantine_quarantineFrom (S : Stream) (hrow : S.rows s = some e) (hlo : fromSeq ≤ s)
    (hhi : s ≤ toSeq) :
    (S.quarantineFrom fromSeq toSeq reason now).quarantine s = some ⟨e, reason, now⟩ := by
  unfold quarantineFrom
  dsimp only
  rw [if_pos ⟨hlo, hhi⟩, hrow]

/-- Floors are monotone. -/
def raiseFloor (seq : Nat) (chain : Chain) (S : Stream) : Stream :=
  if S.floor.all fun f => decide (seq > f.seq) then { S with floor := some ⟨seq, chain⟩ } else S

/-- What is pending at or below a position is dropped. -/
def dropPending (seq : Nat) (S : Stream) : Stream :=
  { S with pending := S.pending.filter fun e => !decide (e.seq ≤ seq) }

def setRecovery (target : Option RecoveryTarget) (S : Stream) : Stream :=
  { S with recovery := target }

/-- The chain of the held row at a position; the seed at 0. -/
def chainHeldAt (S : Stream) (seq : Nat) : Option Chain :=
  if seq = 0 then some (seedOf env S.head.topic S.head.writer)
  else (S.rows seq).map LogEntry.chain

theorem chainHeldAt_quarantineFrom (S : Stream) (hs : s < fromSeq) :
    (S.quarantineFrom fromSeq hi reason now).chainHeldAt env s = S.chainHeldAt env s := by
  unfold chainHeldAt quarantineFrom
  dsimp only
  rw [if_neg (Nat.not_le_of_lt hs)]

/-- The chain of a recovery rewind: the row at the new position, else what the head had. -/
def rewoundChain (S : Stream) (seq : Nat) : Chain :=
  (S.chainHeldAt env seq).getD S.head.contigChain

/-- The chain of a certificate's rewind: the row at the cut, else what the certificate says. -/
def cutChain (cert : FinalityCert) (S : Stream) : Chain :=
  ((S.chainHeldAt env (cert.cutSeq S.head.writer)).orElse
    fun _ => (cert.cut.get S.head.writer).map CutEntry.chain).getD ""

/-- A held row at or before the certified order, beyond the cut. -/
def HoldsLate (cert : FinalityCert) (S : Stream) : Prop :=
  ∃ s e, S.rows s = some e ∧ OutsideCover cert e

/-- The chain this node has at the declared end of a retired stream. -/
def chainAtEnd (S : Stream) (finalSeq : Nat) : Option Chain :=
  if finalSeq ≠ 0 ∧ finalSeq = S.head.contigSeq then some S.head.contigChain
  else S.chainHeldAt env finalSeq

end Stream

namespace Local

def map (f : Stream → Stream) (L : Local) : Local := { L with stream := f L.stream }

def done (r : Settled) (L : Local) : Local := { L with settle := L.settle ++ [r] }

def report (a : Anomaly) (L : Local) : Local := { L with anomalies := L.anomalies ++ [a] }

def deliver (e : LogEntry) (via : Option String) (L : Local) : Local :=
  { L with applied := L.applied ++ [(e, via)] }

def sealHead (offending : LogEntry) (L : Local) : Local :=
  (L.map Stream.fork).report (.writerForked offending.topic offending.writer (some offending))

def advance (e : LogEntry) (via : Option String) (L : Local) : Local :=
  (L.map (Stream.advance env e)).deliver e via

def verifyAndApply (e : LogEntry) (via : Option String) (L : Local) : Local × ApplyResult :=
  if L.stream.Accepts env e then (L.advance env e via, .applied) else (L.sealHead e, .forked)

def drain (via : Option String) : Nat → Local → Local
  | 0, L => L
  | fuel + 1, L =>
    match L.stream.pendingAt (L.stream.head.contigSeq + 1) with
    | none => L
    | some next =>
      let step := (L.map (Stream.unpend next.seq)).verifyAndApply env next via
      if step.2 = .forked then step.1 else drain via fuel step.1

/-- The drain runs until nothing pending fits. -/
def drainAll (via : Option String) (L : Local) : Local :=
  L.drain env via (L.stream.pending.rows.length + 1)

def mergeClock (e : LogEntry) (now : Nat) (L : Local) : Local :=
  if isOverEpsilon e.hlc now env.constants.HLC_EPSILON_MS then L.report (.clockOutlier e)
  else { L with hlcState := merge L.hlcState e.hlc now }

def quarantineFrom (fromSeq toSeq : Nat) (reason : QuarantineReason) (now : Nat) (L : Local) :
    Local :=
  { L with
    stream := L.stream.quarantineFrom fromSeq toSeq reason now
    anomalies := L.anomalies ++ (L.stream.range fromSeq toSeq).map .entryQuarantined }

def recoveryRewind (e : LogEntry) (now : Nat) (L : Local) : Local :=
  let L' := L.quarantineFrom e.seq L.stream.head.contigSeq .canonicalized now
  L'.map fun S => S.saveHead
    { S.head with contigSeq := e.seq - 1, contigChain := S.rewoundChain env (e.seq - 1) }

def recoveryExtend (e : LogEntry) (target : RecoveryTarget) (via : Option String) (now : Nat)
    (L : Local) : Local :=
  if e.seq ≠ L.stream.head.contigSeq + 1 then L.done (.external .pending)
  else if chainOf env (L.stream.head.prevChain env) e ≠ e.chain then L.done (.external .forked)
  else
    let L' := L.advance env e via
    let L'' :=
      if e.seq = target.finalSeq ∧ e.chain = target.finalChain then
        L'.map fun S => (S.saveHead (S.head.retire target now)).setRecovery none
      else L'
    L''.done (.external .applied)

def recoveryIngest (e : LogEntry) (target : RecoveryTarget) (via : Option String) (now : Nat)
    (L : Local) : Local :=
  if e.seq ≤ L.stream.head.contigSeq then
    if (L.stream.rows e.seq).any fun s => decide (s.chain = e.chain) then
      L.done (.external .duplicate)
    else (L.recoveryRewind env e now).recoveryExtend env e target via now
  else L.recoveryExtend env e target via now

/-- An entry at or below the head of an open stream. -/
def recheck (e : LogEntry) (L : Local) : Local :=
  match L.stream.rows e.seq with
  | some stored =>
    if stored.chain = e.chain then L.done (.external .duplicate)
    else (L.sealHead e).done (.external .forked)
  | none => L.done (.external .duplicate)

/-- The entry right after the head of an open stream. -/
def extend (e : LogEntry) (via : Option String) (now : Nat) (L : Local) : Local :=
  let step := L.verifyAndApply env e via
  if step.2 = .applied then
    ((step.1.mergeClock env e now).drainAll env via).done (.external .applied)
  else step.1.done (.external step.2)

/-- An entry beyond the next one of an open stream. -/
def postpone (e : LogEntry) (now : Nat) (L : Local) : Local :=
  match L.stream.pendingAt e.seq with
  | some existing =>
    if existing.chain = e.chain then L.done (.external .duplicate)
    else (L.sealHead e).done (.external .forked)
  | none =>
    if L.stream.pending.rows.length ≥ env.constants.PENDING_CAP then
      L.done (.external .droppedOverflow)
    else
      ((L.map (Stream.pend e)).mergeClock env e now).done (.external .pending)

def ingest (cert : Option FinalityCert) (e : LogEntry) (via : Option String) (now : Nat)
    (L : Local) : Local :=
  if L.stream.head.sealReason ≠ none then
    match L.stream.recovery with
    | some target =>
      if e.seq ≤ target.finalSeq then L.recoveryIngest env e target via now
      else L.done (.external .sealed)
    | none => L.done (.external .sealed)
  else if cert.any fun c => decide (OutsideCover c e) then
    (L.report (.preFinalityRejected e)).done (.external .rejectedFinality)
  else if e.seq ≤ L.stream.head.contigSeq then L.recheck e
  else if e.seq = L.stream.head.contigSeq + 1 then L.extend env e via now
  else L.postpone env e now

def processSeal (topic : Topic) (writer : WriterId) (L : Local) : Local :=
  if L.stream.head.sealReason = none then
    ((L.map Stream.fork).report (.writerForked topic writer none)).done .sealed
  else L.done .sealed

/-- The seal of a stream that a certificate found forked. -/
def sealForked (topic : Topic) (L : Local) : Local :=
  if L.stream.head.sealReason = none then
    (L.map Stream.fork).report (.writerForked topic L.stream.head.writer none)
  else L

open Classical in
/-- One writer's share of a certificate. -/
noncomputable def certStream (cert : FinalityCert) (now : Nat) (L : Local) : Local :=
  let cut := cert.cutSeq L.stream.head.writer
  if L.stream.HoldsLate cert then
    let chain := L.stream.cutChain env cert
    let L' := (L.quarantineFrom (cut + 1) L.stream.head.contigSeq .postCut now).map fun S =>
      S.saveHead { S.head with contigSeq := cut, contigChain := chain }
    L'.sealForked cert.topic
  else if 0 < cut ∧ cut ≤ L.stream.head.contigSeq ∧
      ∃ mine certified, L.stream.rows cut = some mine ∧
        cert.cut.get L.stream.head.writer = some certified ∧ mine.chain ≠ certified.chain then
    L.sealForked cert.topic
  else L

def processRetired (d : WriterDirective) (now : Nat) (L : Local) : Local :=
  let target := directiveTarget env d
  if target.finalSeq ≤ L.stream.head.contigSeq ∧
      L.stream.chainAtEnd env target.finalSeq = some target.finalChain then
    let L' := L.quarantineFrom (target.finalSeq + 1) L.stream.head.contigSeq .canonicalized now
    let L'' := L'.map fun S =>
      (S.saveHead (WriterRow.retire
        { S.head with contigSeq := target.finalSeq, contigChain := target.finalChain }
        target now)).setRecovery none
    L''.done (.directive .applied)
  else
    let L' := if L.stream.head.sealReason = none then L.map Stream.fork else L
    (L'.map (Stream.setRecovery (some target))).done (.directive .recovery)

/-- The directive of a stream, given the directive stored under its generation. -/
def direct (stored : Option WriterDirective) (d : WriterDirective) (now : Nat) (L : Local) :
    Local :=
  if stored.any fun s => decide (s ≠ d.stringify) then
    (L.report .badDirective).done (.directive .refused)
  else if d.rgen ≤ L.stream.head.rgen ∧ L.stream.head.sealReason ≠ some .fork then
    L.done (.directive .stale)
  else
  match d.state with
  | .live =>
    if L.stream.head.sealReason = some .fork then
      (L.report .badDirective).done (.directive .refused)
    else
      (L.map fun S => (S.saveHead (S.head.revive d.rgen)).setRecovery none).done
        (.directive .applied)
  | .retired => L.processRetired env d now

def adopt (seq : Nat) (chain : Chain) (L : Local) : Local :=
  if L.stream.head.contigSeq < seq then
    L.map fun S => S.saveHead { S.head with contigSeq := seq, contigChain := chain }
  else L

/-- The stream at an adopted floor, before what is pending is drained. -/
def jumpToFloor (seq : Nat) (chain : Chain) (now : Nat) (L : Local) : Local :=
  let reached := L.stream.recovery.filter fun tgt => decide (seq = tgt.finalSeq)
  let head := { L.stream.head with contigSeq := seq, contigChain := chain }
  let head := (reached.map fun tgt => head.retire tgt now).getD head
  let L' := if reached.isSome then L.map (Stream.setRecovery none) else L
  (L'.map fun S => ((S.saveHead head).raiseFloor seq chain).dropPending seq).report
    (.floorAdopted head.topic head.writer)

def adoptFloor (seq : Nat) (chain : Chain) (now : Nat) (L : Local) : Local :=
  if L.stream.head.contigSeq ≥ seq then L.done (.adoptedFloor .noop)
  else if L.stream.head.sealReason ≠ none ∧ L.stream.recovery = none then
    L.done (.adoptedFloor .refused)
  else if L.stream.recovery.any fun tgt => contradictsTarget tgt seq chain then
    L.done (.adoptedFloor .refused)
  else
    let L' := L.jumpToFloor seq chain now
    let L'' := if L'.stream.head.sealReason = none then L'.drainAll env none else L'
    L''.done (.adoptedFloor .adopted)

/-- The entry an append makes on the stream, with what the clock and the scope give it. -/
def appendEntry (item : AppendItem env) (hlc : Hlc) (causal : Option (WriterId × Nat))
    (S : Stream) : LogEntry :=
  let unchained : LogEntry :=
    { topic := item.topic, writer := env.writerId, seq := S.head.contigSeq + 1, hlc := hlc,
      kind := item.kind, key := item.key, causal := causal, ref := item.ref,
      payload := item.payload, chain := "" }
  { unchained with chain := chainOf env (S.head.prevChain env) unchained }

def append (e : LogEntry) (L : Local) : Local := (L.advance env e none).done (.appended e.id)

end Local

end Seqscribe
