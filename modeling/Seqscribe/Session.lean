import Seqscribe.Link
import Seqscribe.Types

namespace Seqscribe
set_option autoImplicit true

/-! One session: HELLO negotiation and grant updates, and the data lane. A frame is the message
that it parses to. Timers are not kept: what a timer calls may run at any time. -/

def PROTO_MIN : Nat := 1
def PROTO_MAX : Nat := 3

inductive SessionState where
  | attached
  | ready
  | closed
  deriving DecidableEq, Repr

inductive SessionCloseReason where
  | helloTimeout
  | transport
  | protocol
  | stall
  | detach
  | nodeClosed
  deriving DecidableEq, Repr

inductive GrantMode where
  | full
  | serve
  | none
  deriving DecidableEq, Repr

/-- The access of a topic, and the class of a peer. -/
inductive Access where
  | content
  | metadata
  deriving DecidableEq, Repr

/-- What a session reads of a topic's definition, which never changes. -/
structure TopicEntry where
  access : Access
  replication : Replication
  schemaHash : String
  deriving DecidableEq, Repr

structure PeerGrant where
  mode : GrantMode
  schemaHash : String
  deriving DecidableEq, Repr

abbrev Grants := Table Topic (Topic × GrantMode) Prod.fst
abbrev PeerGrants := Table Topic (Topic × PeerGrant) Prod.fst

structure MsgHello where
  protoMin : Nat
  protoMax : Nat
  node : WriterId
  grants : PeerGrants
  grantsGen : Nat
  ackGen : Option Nat

/-- A message of the data lane: its mid, and the rest of it. -/
structure DataMsg (α : Type) where
  mid : Nat
  body : α
  deriving DecidableEq, Repr

/-- The texts of the errors that the session itself sends. -/
inductive ErrDetail where
  /-- `data mid ${mid} beyond credit window` -/
  | beyondCreditWindow (mid : Nat)
  deriving DecidableEq, Repr

structure MsgTruncated where
  req : Nat
  topic : Topic
  writer : WriterId
  floorSeq : Nat
  floorChain : Chain
  deriving DecidableEq, Repr

inductive Frame (α : Type) where
  | hello (m : MsgHello)
  | ack (upTo : Nat)
  | data (m : DataMsg α)
  | err (code : ErrCode) (ref : Option Topic) (detail : Option ErrDetail)
  | truncated (m : MsgTruncated)

structure Unacked (α : Type) where
  mid : Nat
  at_ : Nat
  frame : DataMsg α
  sentAt : Nat

structure SessionOpts where
  constants : Constants
  peerClass : Access
  localNode : WriterId

structure Session (α : Type) where
  o : SessionOpts
  topics : Topic → Option TopicEntry
  state : SessionState
  closeReason : Option SessionCloseReason
  proto : Nat
  peerNode : Option WriterId
  grants : Grants
  peerGrants : PeerGrants
  grantsGen : Nat
  peerGrantsGen : Nat
  refusedTopics : List Topic
  /-- The HELLO request is unanswered. -/
  helloRequest : Bool
  nextMid : Nat
  unacked : List (Unacked α)
  /-- Builders, which get their mid at transmission. -/
  outQueue : List (Nat → α)
  lastAckProgressAt : Nat
  recvContigMid : Nat
  recvBuffer : Table Nat (DataMsg α) DataMsg.mid
  -- history: the frames given to the channel, the builders that `sendData` has accepted, and the
  -- messages handed to `onData`
  sent : List (Frame α)
  accepted : List (Nat → α)
  handed : List (DataMsg α)

namespace Session

variable {α : Type}

/-- `channel.send`. -/
def transmit (s : Session α) (f : Frame α) : Session α := { s with sent := s.sent ++ [f] }

def sendControl (s : Session α) (f : Frame α) : Session α :=
  if s.state = .closed then s else s.transmit f

def close (s : Session α) (reason : SessionCloseReason) : Session α :=
  if s.state = .closed then s
  else { s with state := .closed, closeReason := some reason, helloRequest := false }

/-! The HELLO lane. -/

/-- `topics.get(topic).schemaHash`; every granted topic is defined. -/
def schemaHash (s : Session α) (topic : Topic) : String :=
  ((s.topics topic).map TopicEntry.schemaHash).getD ""

/-- What HELLO says of the grants. -/
def helloGrants (s : Session α) : PeerGrants where
  rows := s.grants.rows.map fun g => (g.1, ⟨g.2, s.schemaHash g.1⟩)
  nodup := by
    rw [List.map_map]
    exact s.grants.nodup

def helloMsg (s : Session α) : MsgHello where
  protoMin := PROTO_MIN
  protoMax := PROTO_MAX
  node := s.o.localNode
  grants := s.helloGrants
  grantsGen := s.grantsGen
  ackGen := none

/-- `request("HELLO", …)`: sent now, and again until it is satisfied. -/
def requestHello (s : Session α) : Session α :=
  if s.state = .closed then s
  else { s with helloRequest := true }.sendControl (.hello s.helloMsg)

/-- The retry timer of the request. -/
def retryHello (s : Session α) : Session α :=
  if s.helloRequest then s.sendControl (.hello s.helloMsg) else s

def assertGrant (s : Session α) (g : Topic × GrantMode) : Except SeqscribeError Unit :=
  match s.topics g.1 with
  | none => .error ⟨.ERR_UNKNOWN_TOPIC, g.1⟩
  | some entry =>
    if g.2 = .none then .ok ()
    else if s.o.peerClass = .metadata ∧ entry.access = .content then
      .error (misuse ("metadata-class peer granted content topic " ++ g.1))
    else if g.2 = .full ∧ entry.replication = .subscribeOnly then
      .error (misuse ("\"full\" grant on subscribe-only topic " ++ g.1 ++
        " — grant \"serve\" instead"))
    else .ok ()

def assertGrants (s : Session α) (grants : Grants) : Except SeqscribeError Unit :=
  grants.rows.forM s.assertGrant

/-- The topics that both sides grant in full, with different schemas. -/
def refusals (s : Session α) : List Topic :=
  (s.grants.rows.filter fun g =>
    decide (g.2 = .full) && (s.peerGrants.get g.1).any fun theirs =>
      decide (theirs.2.mode = .full ∧ theirs.2.schemaHash ≠ s.schemaHash g.1)).map Prod.fst

def recomputeRefusals (s : Session α) : Session α :=
  let next := s.refusals
  let s := (next.filter fun topic => decide (topic ∉ s.refusedTopics)).foldl
    (fun s topic => s.sendControl (.err .ERR_SCHEMA_MISMATCH (some topic) none)) s
  { s with refusedTopics := next }

def updateGrants (s : Session α) (grants : Grants) : Except SeqscribeError (Session α) := do
  if s.state = .closed then .error (misuse "updateGrants on a closed session") else
  s.assertGrants grants
  return { s with grants := grants, grantsGen := s.grantsGen + 1 }.recomputeRefusals.requestHello

def mutualFull (s : Session α) (topic : Topic) : Bool :=
  decide (s.state = .ready) && decide (topic ∉ s.refusedTopics) &&
    decide ((s.grants.get topic).map Prod.snd = some .full) &&
    decide ((s.peerGrants.get topic).map (·.2.mode) = some .full)

/-- The peer's grants are recorded. -/
def recordGrants (s : Session α) (m : MsgHello) : Session α :=
  { s with peerGrants := m.grants, peerGrantsGen := m.grantsGen }.recomputeRefusals

/-- An answer settles the request of its generation; anything else is answered. -/
def answerHello (s : Session α) (m : MsgHello) : Session α :=
  match m.ackGen with
  | some ackGen => if ackGen = s.grantsGen then { s with helloRequest := false } else s
  | none => s.sendControl (.hello { s.helloMsg with ackGen := some m.grantsGen })

/-- A post-ready HELLO. -/
def onHelloUpdate (s : Session α) (m : MsgHello) : Session α :=
  (if m.grantsGen > s.peerGrantsGen then s.recordGrants m else s).answerHello m

/-- The request is satisfied by any HELLO of the peer; a grant update that raced the handshake is
announced again. -/
def becomeReady (s : Session α) : Session α :=
  let s := { s with helloRequest := false, state := .ready }
  if s.grantsGen > 0 then s.requestHello else s

/-- What `onHello` does before it drains the data lane. -/
def onHello (s : Session α) (m : MsgHello) : Session α :=
  match s.state with
  | .ready => s.onHelloUpdate m
  | .closed => s
  | .attached =>
    let proto := min PROTO_MAX m.protoMax
    if proto < max PROTO_MIN m.protoMin then
      (s.sendControl (.err .ERR_PROTO_VERSION none none)).close .protocol
    else
      ({ s with proto := proto, peerNode := some m.node }.recordGrants m).becomeReady

/-! The data lane. -/

/-- The loop of `pumpData`, at most `n` times. -/
def pump (now : Nat) : Nat → Session α → Session α
  | 0, s => s
  | n + 1, s =>
    match s.outQueue with
    | [] => s
    | make :: rest =>
      if s.state ≠ .closed ∧ s.unacked.length < s.o.constants.INFLIGHT_CREDITS then
        let frame : DataMsg α := ⟨s.nextMid, make s.nextMid⟩
        let s : Session α := { s with
          outQueue := rest
          nextMid := s.nextMid + 1
          unacked := s.unacked ++ [⟨s.nextMid, now, frame, now⟩] }
        pump now n (s.transmit (.data frame))
      else s

def pumpData (now : Nat) (s : Session α) : Session α := s.pump now s.outQueue.length

/-- `sendData` before it pumps. -/
def offer (s : Session α) (make : Nat → α) : Session α × Bool :=
  if s.state = .closed then (s, false)
  else if s.outQueue.length ≥ s.o.constants.SEND_QUEUE_CAP then (s, false)
  else ({ s with outQueue := s.outQueue ++ [make], accepted := s.accepted ++ [make] }, true)

def sendData (now : Nat) (s : Session α) (make : Nat → α) : Session α × Bool :=
  match s.offer make with
  | (s, true) => (s.pumpData now, true)
  | (s, false) => (s, false)

/-- A frame is due for retransmission. -/
def due (now : Nat) (s : Session α) (u : Unacked α) : Bool :=
  decide (u.sentAt + s.o.constants.CONTROL_RETRY_MS ≤ now)

/-- The loop of `retryUnacked`, over the first `n` frames. -/
def retry (now n : Nat) (s : Session α) : Session α :=
  if s.state = .closed then s
  else { s with
    unacked := (s.unacked.take n).map (fun u => if s.due now u then { u with sentAt := now } else u)
      ++ s.unacked.drop n
    sent := s.sent ++ ((s.unacked.take n).filter (s.due now)).map fun u => .data u.frame }

def retryUnacked (now : Nat) (s : Session α) : Session α := s.retry now s.unacked.length

def stallCheck (now : Nat) (s : Session α) : Session α :=
  match s.unacked with
  | [] => s
  | oldest :: _ =>
    if max oldest.at_ s.lastAckProgressAt + s.o.constants.CHANNEL_STALL_MS < now then s.close .stall
    else s

/-- An ACK retires a prefix of the unacked frames. -/
def retire (now : Nat) (s : Session α) (upTo : Nat) : Session α :=
  let rest := s.unacked.dropWhile fun u => decide (u.mid ≤ upTo)
  { s with
    unacked := rest
    lastAckProgressAt := if rest.length < s.unacked.length then now else s.lastAckProgressAt }

def sendAck (s : Session α) : Session α := s.sendControl (.ack s.recvContigMid)

/-- The loop of `drainData`, at most `n` times. -/
def drain : Nat → Session α → Session α
  | 0, s => s
  | n + 1, s =>
    match s.recvBuffer.get (s.recvContigMid + 1) with
    | none => s
    | some next =>
      drain n { s with
        recvBuffer := s.recvBuffer.delete next.mid
        recvContigMid := next.mid
        handed := s.handed ++ [next] }

def drainData (s : Session α) : Session α :=
  let s' := s.drain s.recvBuffer.rows.length
  if s.recvContigMid < s'.recvContigMid then s'.sendAck else s'

def violationCode (s : Session α) : ErrCode :=
  if s.proto ≥ 2 then .ERR_PROTOCOL else .ERR_ENTRY_ENCODING

/-- `onDataMsg` before it drains. -/
def takeIn (s : Session α) (m : DataMsg α) : Session α :=
  if m.mid ≤ s.recvContigMid then s.sendAck
  else if m.mid > s.recvContigMid + s.o.constants.INFLIGHT_CREDITS then
    (s.sendControl (.err s.violationCode none (some (.beyondCreditWindow m.mid)))).close .protocol
  else { s with recvBuffer := s.recvBuffer.upsert m }

def onDataMsg (s : Session α) (m : DataMsg α) : Session α :=
  let s' := s.takeIn m
  if s'.state = .ready ∧ s.recvContigMid < m.mid then s'.drainData else s'

/-! A frame arrives, and a session opens. -/

/-- What a frame changes before the loops that follow it. -/
def arrive (now : Nat) (f : Frame α) (s : Session α) : Session α :=
  if s.state = .closed then s
  else
    match f with
    | .hello m => s.onHello m
    | .ack upTo => s.retire now upTo
    | .data m => s.takeIn m
    | .err _ _ _ => s
    | .truncated _ => s

/-- `dispatch`, unless the session is closed. -/
def dispatch (now : Nat) (f : Frame α) (s : Session α) : Session α :=
  if s.state = .closed then s
  else
    match f with
    | .hello m =>
      let s' := s.onHello m
      if s.state = .attached ∧ s'.state = .ready then s'.drainData else s'
    | .ack upTo => (s.retire now upTo).pumpData now
    | .data m => s.onDataMsg m
    | .err _ _ _ => s
    | .truncated _ => s

/-- `TopicRegistry.define`: a topic keeps its definition. -/
def define (s : Session α) (topic : Topic) (entry : TopicEntry) : Session α :=
  if (s.topics topic).isSome then s
  else { s with topics := fun t => if t = topic then some entry else s.topics t }

/-- The fields of a new session. -/
def fresh (o : SessionOpts) (topics : Topic → Option TopicEntry) (grants : Grants) : Session α where
  o := o
  topics := topics
  state := .attached
  closeReason := none
  proto := 1
  peerNode := none
  grants := grants
  peerGrants := .empty
  grantsGen := 0
  peerGrantsGen := 0
  refusedTopics := []
  helloRequest := false
  nextMid := 1
  unacked := []
  outQueue := []
  lastAckProgressAt := 0
  recvContigMid := 0
  recvBuffer := .empty
  sent := []
  accepted := []
  handed := []

/-- The constructor. -/
def attach (o : SessionOpts) (topics : Topic → Option TopicEntry) (grants : Grants) :
    Except SeqscribeError (Session α) := do
  let s : Session α := fresh o topics grants
  s.assertGrants grants
  return s.requestHello

/-- A step of a session of its own. A callback may call the session, or close it, in the middle of
a loop: the loops are steps of any length. -/
inductive Acts (s : Session α) : Session α → Prop
  | offer (make : Nat → α) : Acts s (s.offer make).1
  | pump (now n : Nat) : Acts s (s.pump now n)
  | retry (now n : Nat) : Acts s (s.retry now n)
  | stallCheck (now : Nat) : Acts s (s.stallCheck now)
  | drain (n : Nat) : Acts s (s.drain n)
  | sendAck : Acts s s.sendAck
  | retryHello : Acts s s.retryHello
  | updateGrants (grants : Grants) (hok : s.updateGrants grants = .ok s') : Acts s s'
  | define (topic : Topic) (entry : TopicEntry) : Acts s (s.define topic entry)
  | close (reason : SessionCloseReason) : Acts s (s.close reason)

/-- `sendData` is a run of steps. -/
theorem sendData_acts (now : Nat) (s : Session α) (make : Nat → α) :
    Relation.ReflTransGen Acts s (s.sendData now make).1 := by
  have hoffer : Relation.ReflTransGen Acts s (s.offer make).1 := .single (.offer make)
  rw [sendData]
  split
  · next s' he =>
    rw [he] at hoffer
    exact hoffer.tail (.pump now _)
  · next s' he =>
    rw [he] at hoffer
    exact hoffer

theorem drainData_acts (s : Session α) : Relation.ReflTransGen Acts s s.drainData := by
  have hdrain : Relation.ReflTransGen Acts s (s.drain s.recvBuffer.rows.length) :=
    .single (.drain _)
  rw [drainData]
  split
  · exact hdrain.tail .sendAck
  · exact hdrain

/-- `dispatch` is what the frame changes and then a run of steps. -/
theorem dispatch_acts (now : Nat) (f : Frame α) (s : Session α) :
    Relation.ReflTransGen Acts (s.arrive now f) (s.dispatch now f) := by
  by_cases hclosed : s.state = .closed
  · simp only [arrive, dispatch, if_pos hclosed]
    exact .refl
  · simp only [arrive, dispatch, if_neg hclosed]
    cases f with
    | hello m =>
      dsimp only
      split
      · exact drainData_acts _
      · exact .refl
    | ack upTo => exact .single (.pump now _)
    | data m =>
      dsimp only
      rw [onDataMsg]
      split
      · exact drainData_acts _
      · exact .refl
    | err code ref detail => exact .refl
    | truncated m => exact .refl

def party (α : Type) : Link.Party (Session α) (Frame α) where
  acts := Acts
  receives f s s' := ∃ now, s' = s.arrive now f
  sent := sent

/-- Two sessions at the ends of one channel, at some time of a run since they were attached. -/
def Linked (a b : Session α) : Prop :=
  ∃ o o' topics topics' grants grants' a₀ b₀,
    o.constants = o'.constants ∧ attach o topics grants = .ok a₀ ∧
      attach o' topics' grants' = .ok b₀ ∧ Link.Run (party α) (a₀, b₀) (a, b)

end Session

end Seqscribe
