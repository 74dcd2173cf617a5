import Seqscribe.Deltas
import Seqscribe.Encoding

namespace Seqscribe
set_option autoImplicit true

/-! The serving side of subscriptions. Timers are not kept: what a timer calls may run at any
time. A SNAP chunk carries the bytes that its base64 stands for. -/

structure CursorVal where
  e : String
  d : Int
  deriving DecidableEq, Repr

abbrev SubSession := Nat

structure SubEnv where
  env : Env
  /-- `JSON.stringify`. -/
  stringify : JsonValue → JsString
  SUB_DELTA_RETAIN : Nat
  /-- The node has a register hub. -/
  registers : Bool

def encodeCursor (env : SubEnv) (c : CursorVal) : JsString :=
  env.stringify (.obj [(js "e", .str (js c.e)), (js "d", .num c.d)])

abbrev SubChanges := Delta JsString JsonValue

structure SubJournalEntry where
  seq : Nat
  changes : SubChanges
  bytes : Nat

structure SnapCache where
  epoch : String
  seq : Nat
  body : List UInt8

/-- The view name of the request, and its params. -/
abbrev GroupKey := String × JsString

structure SubGroup where
  key : GroupKey
  viewName : Option String
  /-- The topic of a built-in group, "tail" or "register". -/
  ringTopic : Option Topic
  epoch : String
  deltaSeq : Nat
  journal : List SubJournalEntry
  snapCache : Option SnapCache

structure SnapOut where
  body : List UInt8
  count : Nat
  /-- The next chunk to enqueue, from 1. -/
  next : Nat
  cursor : CursorVal
  epoch : String
  seq : Nat

inductive SubErrCode where
  | ERR_UNKNOWN_VIEW
  | ERR_FUTURE_CURSOR
  | of (code : ErrCode)
  deriving DecidableEq, Repr

/-- What passes between a serve and its subscriber: the resume point that is taken up, the frames
that the data lane accepts, and the error that stands for a SNAP. -/
inductive SubEvent where
  | resume (cursor : CursorVal)
  | snap (chunk count : Nat) (data : List UInt8) (cursor : CursorVal)
  | delta (changes : SubChanges) (cursor : CursorVal)
  | err (code : SubErrCode)

/-- The part of a serve that changes. -/
structure ServeState where
  pending : Bool
  snap : Option SnapOut
  -- history
  events : List SubEvent

/-- A resync is owed or under way. -/
def ServeState.resyncing (s : ServeState) : Bool := s.pending || s.snap.isSome

structure Serve where
  /-- The group object, which `groups` may no longer hold. -/
  group : Nat
  session : SubSession
  subId : Nat
  state : ServeState

def Serve.id (s : Serve) : SubSession × Nat := (s.session, s.subId)

def Serve.fresh (group : Nat) (id : SubSession × Nat) : Serve :=
  ⟨group, id.1, id.2, false, none, []⟩

def SubGroup.oldest (g : SubGroup) : Nat :=
  (g.journal.head?.map SubJournalEntry.seq).getD (g.deltaSeq + 1)

/-- A serve, and what its session will answer to `hasRoom` and `sendData`, in this order. -/
structure Serving where
  state : ServeState
  lane : List Bool

namespace Serving

def hasRoom (x : Serving) : Bool × Serving :=
  match x.lane with
  | [] => (false, x)
  | room :: lane => (room, { x with lane := lane })

def note (x : Serving) (e : SubEvent) : Serving := { x with state.events := x.state.events ++ [e] }

def sendData (x : Serving) (frame : SubEvent) : Bool × Serving :=
  match x.lane with
  | [] => (false, x)
  | true :: lane => (true, ({ x with lane := lane }).note frame)
  | false :: lane => (false, { x with lane := lane })

def enterResync (x : Serving) : Serving :=
  if x.state.resyncing then x else { x with state.pending := true }

/-- An envelope around `changes`: the fixed keys, a mid, a subId and the cursor. -/
def deltaFrameBytes (env : SubEnv) (j : SubJournalEntry) (cursor : CursorVal) : Nat :=
  j.bytes + utf8ByteLength (encodeCursor env cursor) + 96

def deliverDelta (env : SubEnv) (g : SubGroup) (j : SubJournalEntry) (x : Serving) : Serving :=
  if x.state.resyncing then x
  else
    let cursor : CursorVal := ⟨g.epoch, j.seq⟩
    if env.env.constants.MAX_FRAME_BYTES < deltaFrameBytes env j cursor then x.enterResync
    else
      match x.sendData (.delta j.changes cursor) with
      | (true, x) => x
      | (false, x) => x.enterResync

/-- The loops over the journal, which stop when the serve falls into resync. -/
def replay (env : SubEnv) (g : SubGroup) (d : Int) : List SubJournalEntry → Serving → Serving
  | [], x => x
  | j :: journal, x =>
    let x := if d < j.seq then x.deliverDelta env g j else x
    if x.state.resyncing then x else x.replay env g d journal

/-- After a SNAP is fully enqueued: the deltas published while it was paced. -/
def catchUp (env : SubEnv) (g : SubGroup) (s : SnapOut) (x : Serving) : Serving :=
  if g.epoch ≠ s.epoch then { x with state.pending := true }
  else if g.deltaSeq = s.seq then x
  else if s.seq + 1 < g.oldest then x.enterResync
  else x.replay env g s.seq g.journal

def rawChunkBudget (env : SubEnv) : Nat := env.env.constants.MAX_FRAME_BYTES * 3 / 8

/-- The loop of `pumpSnap`; the number bounds the chunks that are left. -/
def pumpChunks (env : SubEnv) : Nat → SnapOut → Serving → SnapOut × Serving
  | 0, s, x => (s, x)
  | left + 1, s, x =>
    match x.hasRoom with
    | (false, x) => (s, x)
    | (true, x) =>
      let data := (s.body.drop ((s.next - 1) * rawChunkBudget env)).take (rawChunkBudget env)
      match x.sendData (.snap s.next s.count data s.cursor) with
      | (false, x) => (s, x)
      | (true, x) => pumpChunks env left { s with next := s.next + 1 } x

def pumpSnap (env : SubEnv) (g : SubGroup) (x : Serving) : Serving :=
  match x.state.snap with
  | none => x
  | some s =>
    match pumpChunks env (s.count + 1 - s.next) s x with
    | (s, x) =>
      if s.next ≤ s.count then { x with state.snap := some s }
      else catchUp env g s { x with state.snap := none }

/-- The shared body, or a new one of the rows that the provider gives. -/
def snapBody (env : SubEnv) (rows : Option (List JsonValue)) (g : SubGroup) :
    Option (List UInt8) :=
  match g.snapCache with
  | some cached =>
    if cached.epoch = g.epoch ∧ cached.seq = g.deltaSeq then some cached.body
    else rows.map fun rows => utf8 (env.env.jcs (.arr rows))
  | none => rows.map fun rows => utf8 (env.env.jcs (.arr rows))

def startSnap (env : SubEnv) (g : SubGroup) (body : List UInt8) (x : Serving) : Serving :=
  let budget := rawChunkBudget env
  let snap : SnapOut := {
    body := body
    count := max 1 ((body.length + budget - 1) / budget)
    next := 1
    cursor := ⟨g.epoch, g.deltaSeq⟩
    epoch := g.epoch
    seq := g.deltaSeq }
  pumpSnap env g { x with state.pending := false, state.snap := some snap }

/-- Gives the `snapCache` that the group has afterwards. -/
def tryStartSnap (env : SubEnv) (rows : Option (List JsonValue)) (g : SubGroup) (x : Serving) :
    Option SnapCache × Serving :=
  if x.state.pending = false ∨ x.state.snap.isSome then (g.snapCache, x)
  else
    match x.hasRoom with
    | (false, x) => (g.snapCache, x)
    | (true, x) =>
      match snapBody env rows g with
      | none => (g.snapCache, ({ x with state.pending := false }).note (.err (.of .ERR_STORAGE)))
      | some body => (some ⟨g.epoch, g.deltaSeq, body⟩, startSnap env g body x)

end Serving

structure MsgSub where
  subId : Nat
  view : String
  params : Option JsonValue
  /-- The cursor that `fromCursor` decodes to. -/
  fromCursor : Option CursorVal

/-- What the hub gets from the rest of the node while it handles one call. -/
structure SubTurn where
  lane : List Bool
  /-- `rowsProvider` of a group object, when it does not throw. -/
  rows : Nat → Option (List JsonValue)
  /-- `mintEpoch`, which no call makes twice. -/
  minted : String
  families : String → Option (JsonValue → Except SubErrCode String)
  /-- The topic and the epoch of a view. -/
  views : String → Option (Topic × String)
  peerMaySub : SubSession → Topic → Bool

/-- A group object is never freed, so that a serve can refer to one that `groups` has lost. The
source keeps the serves by session and by group. -/
structure SubHub where
  objects : Nat → SubGroup
  allocated : Nat
  groups : Table GroupKey (GroupKey × Nat) Prod.fst
  groupsByView : String → List Nat
  ringEpochs : Topic → Option String
  serves : Table (SubSession × Nat) Serve Serve.id
  /-- The answers that are left to the call in progress. -/
  lane : List Bool
  -- history: the SUB_ERR answers to a SUB
  errors : List (SubSession × Nat × SubErrCode)

namespace SubHub

def init : SubHub where
  objects _ := ⟨("", []), none, none, "", 0, [], none⟩
  allocated := 0
  groups := .empty
  groupsByView _ := []
  ringEpochs _ := none
  serves := .empty
  lane := []
  errors := []

def topicParams (env : SubEnv) (topic : Topic) : JsString :=
  env.env.jcs (.obj [(js "topic", .str (js topic))])

def registerKey (env : SubEnv) (topic : Topic) : GroupKey := ("register", topicParams env topic)

def ringKey (env : SubEnv) (topic : Topic) : GroupKey := ("tail", topicParams env topic)

/-- `params.topic`, when it is a string. -/
def topicOf : Option JsonValue → Option JsString
  | some (.obj members) =>
    match members.find? fun m => decide (m.1 = js "topic") with
    | some (_, .str s) => some s
    | _ => none
  | _ => none

/-- The charter's names are ASCII: no other string is one that `topics.get` knows. -/
def policyOf (env : SubEnv) (name : JsString) : Option (Topic × TopicPolicy) :=
  if name.all fun u => decide (u < 128) then
    let topic := String.ofList (name.map fun u => Char.ofNat u.toNat)
    (env.env.topics topic).map fun policy => (topic, policy)
  else none

def setGroup (h : SubHub) (o : Nat) (g : SubGroup) : SubHub :=
  { h with objects := Function.update h.objects o g }

/-- `groups.set` of a new group object. -/
def addGroup (h : SubHub) (g : SubGroup) : SubHub × Nat :=
  ({ h with
    objects := Function.update h.objects h.allocated g
    allocated := h.allocated + 1
    groups := h.groups.upsert (g.key, h.allocated) }, h.allocated)

def resolveRegister (env : SubEnv) (turn : SubTurn) (h : SubHub) (params : Option JsonValue) :
    Except SubErrCode (SubHub × Nat) :=
  match topicOf params with
  | none => .error .ERR_UNKNOWN_VIEW
  | some name =>
    match policyOf env name with
    | none => .error (.of .ERR_UNKNOWN_TOPIC)
    | some (topic, policy) =>
      if policy.kind ≠ .register ∨ env.registers = false then .error .ERR_UNKNOWN_VIEW
      else .ok (h.addGroup ⟨registerKey env topic, none, some topic, turn.minted, 0, [], none⟩)

def resolveTail (env : SubEnv) (turn : SubTurn) (h : SubHub) (params : Option JsonValue) :
    Except SubErrCode (SubHub × Nat) :=
  match topicOf params with
  | none => .error .ERR_UNKNOWN_VIEW
  | some name =>
    match policyOf env name with
    | none => .error (.of .ERR_UNKNOWN_TOPIC)
    | some (topic, policy) =>
      if policy.retention = .none then .error .ERR_UNKNOWN_VIEW
      else if policy.retention = .full ∧ policy.replication ≠ .subscribeOnly then
        .error .ERR_UNKNOWN_VIEW
      else
        let epoch := (h.ringEpochs topic).getD turn.minted
        let h := { h with ringEpochs := Function.update h.ringEpochs topic (some epoch) }
        .ok (h.addGroup ⟨ringKey env topic, none, some topic, epoch, 0, [], none⟩)

/-- The view that a family, or a request without params, stands for. -/
def handleOf (turn : SubTurn) (view : String) (params : Option JsonValue) :
    Except SubErrCode String :=
  match turn.families view with
  | some family => family (params.getD .null)
  | none =>
    if (turn.views view).isSome ∧ params.all (fun p => p matches .null) then .ok view
    else .error .ERR_UNKNOWN_VIEW

def resolveView (turn : SubTurn) (h : SubHub) (key : GroupKey) (params : Option JsonValue) :
    Except SubErrCode (SubHub × Nat) :=
  match handleOf turn key.1 params with
  | .error code => .error code
  | .ok name =>
    match turn.views name with
    | none => .error .ERR_UNKNOWN_VIEW
    | some (_, epoch) =>
      match h.addGroup ⟨key, some name, none, epoch, 0, [], none⟩ with
      | (h, g) => .ok ({ h with
          groupsByView := Function.update h.groupsByView name (h.groupsByView name ++ [g]) }, g)

def resolveGroup (env : SubEnv) (turn : SubTurn) (h : SubHub) (m : MsgSub) :
    Except SubErrCode (SubHub × Nat) :=
  let key := (m.view, env.env.jcs (m.params.getD .null))
  match h.groups.get key with
  | some (_, g) => .ok (h, g)
  | none =>
    if m.view = "register" then resolveRegister env turn h m.params
    else if m.view = "tail" then resolveTail env turn h m.params
    else resolveView turn h key m.params

/-- A call of a function of one serve, with its group. -/
def visit (f : Nat → SubGroup → Serving → Option SnapCache × Serving) (h : SubHub)
    (id : SubSession × Nat) : SubHub :=
  match h.serves.get id with
  | none => h
  | some s =>
    match f s.group (h.objects s.group) ⟨s.state, h.lane⟩ with
    | (cache, x) =>
      { h.setGroup s.group { h.objects s.group with snapCache := cache } with
        serves := h.serves.upsert { s with state := x.state }
        lane := x.lane }

def servesOf (h : SubHub) (g : Nat) : List (SubSession × Nat) :=
  (h.serves.rows.filter fun s => decide (s.group = g)).map Serve.id

def servesIn (h : SubHub) (session : SubSession) : List (SubSession × Nat) :=
  (h.serves.rows.filter fun s => decide (s.session = session)).map Serve.id

def removeServe (h : SubHub) (id : SubSession × Nat) : SubHub :=
  match h.serves.get id with
  | none => h
  | some s =>
    let h := { h with serves := h.serves.delete id }
    if h.servesOf s.group = [] then
      h.setGroup s.group { h.objects s.group with snapCache := none }
    else h

def addSubscriber (h : SubHub) (g : Nat) (id : SubSession × Nat) : SubHub :=
  match h.serves.get id with
  | some s =>
    if s.group = g then h
    else
      -- the subId is bound to another view now
      let h := h.removeServe id
      { h with serves := h.serves.upsert (.fresh g id) }
  | none => { h with serves := h.serves.upsert (.fresh g id) }

def refuse (h : SubHub) (id : SubSession × Nat) (code : SubErrCode) : SubHub :=
  { h with errors := h.errors ++ [(id.1, id.2, code)] }

/-- Replays the journal after a resume point. -/
def resume (env : SubEnv) (h : SubHub) (id : SubSession × Nat) (cursor : CursorVal) : SubHub :=
  h.visit (fun _ g x =>
    (g.snapCache, (x.note (.resume cursor)).replay env g cursor.d g.journal)) id

/-- Owes a SNAP and starts it if the lane has room. -/
def owe (env : SubEnv) (turn : SubTurn) (h : SubHub) (id : SubSession × Nat) : SubHub :=
  h.visit (fun o g x => Serving.tryStartSnap env (turn.rows o) g
    { x with state.pending := true }) id

def handleSub (env : SubEnv) (turn : SubTurn) (h : SubHub) (session : SubSession) (m : MsgSub) :
    SubHub :=
  let id := (session, m.subId)
  match resolveGroup env turn h m with
  | .error code => h.refuse id code
  | .ok (h, o) =>
    let g := h.objects o
    match g.ringTopic.or ((g.viewName.bind turn.views).map Prod.fst) with
    | none => h
    | some topic =>
      if turn.peerMaySub session topic = false then h.refuse id (.of .ERR_ACL_DENIED)
      -- a retry of a SUB that a SNAP is about to answer
      else if (h.serves.get id).any fun s => decide (s.group = o) && s.state.resyncing then h
      else
        match m.fromCursor with
        | some cursor =>
          if cursor.e = g.epoch then
            if g.deltaSeq < cursor.d then h.refuse id .ERR_FUTURE_CURSOR
            else if g.oldest ≤ cursor.d + 1 then (h.addSubscriber o id).resume env id cursor
            else (h.addSubscriber o id).owe env turn id
          else (h.addSubscriber o id).owe env turn id
        | none => (h.addSubscriber o id).owe env turn id

/-- What a capacity signal and a timer do for one serve. -/
def drain (env : SubEnv) (turn : SubTurn) : SubHub → SubSession × Nat → SubHub :=
  visit fun o g x =>
    if x.state.snap.isSome then (g.snapCache, x.pumpSnap env g)
    else x.tryStartSnap env (turn.rows o) g

/-- Abandons the SNAPs that are being paced and resyncs every subscriber. -/
def resetGroup (env : SubEnv) (turn : SubTurn) (h : SubHub) (o : Nat) (epoch : String) : SubHub :=
  let g := { h.objects o with epoch := epoch, deltaSeq := 0, journal := [], snapCache := none }
  (h.servesOf o).foldl (visit fun o g x => Serving.tryStartSnap env (turn.rows o) g
    { x with state.snap := none, state.pending := true }) (h.setGroup o g)

def changesJson (changes : SubChanges) : JsonValue :=
  .obj [(js "upserts", .arr changes.upserts), (js "deletes", .arr (changes.deletes.map .str))]

/-- The group after a publish, and the entry that joins its journal. -/
def publishTo (env : SubEnv) (g : SubGroup) (changes : SubChanges) :
    SubGroup × SubJournalEntry :=
  let j : SubJournalEntry :=
    ⟨g.deltaSeq + 1, changes, utf8ByteLength (env.stringify (changesJson changes))⟩
  let journal := g.journal ++ [j]
  ({ g with
    deltaSeq := g.deltaSeq + 1
    snapCache := none
    journal := if env.SUB_DELTA_RETAIN < journal.length then journal.tail else journal }, j)

def publish (env : SubEnv) (h : SubHub) (o : Nat) (changes : SubChanges) : SubHub :=
  match publishTo env (h.objects o) changes with
  | (g, j) =>
    (h.servesOf o).foldl (visit fun _ g x => (g.snapCache, x.deliverDelta env g j))
      (h.setGroup o g)

def ringRow (env : SubEnv) (e : LogEntry) : JsonValue :=
  .obj [(js "key", .str (js s!"{e.writer}:{e.seq}")), (js "writer", .str (js e.writer)),
    (js "seq", .num e.seq), (js "hlc_l", .num e.hlc.l), (js "hlc_c", .num e.hlc.c),
    (js "kind", .str e.kind), (js "payload", .str (env.stringify e.payload))]

def handleRegisterChanged (env : SubEnv) (turn : SubTurn) (h : SubHub) (topic : Topic) : SubHub :=
  match h.groups.get (registerKey env topic) with
  | none => h
  | some (_, o) => h.resetGroup env turn o turn.minted

def handleTailApplied (env : SubEnv) (h : SubHub) (e : LogEntry) : SubHub :=
  match h.groups.get (ringKey env e.topic) with
  | none => h
  | some (_, o) => h.publish env o ⟨[ringRow env e], []⟩

/-- A view's change: a reset with the new epoch, or a delta. -/
def onViewChange (env : SubEnv) (turn : SubTurn) (h : SubHub) (view : String) (epoch : String)
    (change : Option SubChanges) : SubHub :=
  (h.groupsByView view).foldl (fun h o =>
    match change with
    | none => h.resetGroup env turn o epoch
    | some changes => h.publish env o changes) h

def hasActiveSubscribersFor (h : SubHub) (topic : Topic) : Bool :=
  h.groups.rows.any fun g => decide ((h.objects g.2).ringTopic = some topic) &&
    !(h.servesOf g.2).isEmpty

inductive Action where
  | sub (session : SubSession) (m : MsgSub)
  | unsub (session : SubSession) (subId : Nat)
  | sessionClosed (session : SubSession)
  | capacity (session : SubSession)
  | timer (id : SubSession × Nat)
  | registerChanged (topic : Topic)
  | tailApplied (e : LogEntry)
  | viewChange (view epoch : String) (change : Option SubChanges)

def perform (env : SubEnv) (turn : SubTurn) (h : SubHub) : Action → SubHub
  | .sub session m => h.handleSub env turn session m
  | .unsub session subId => h.removeServe (session, subId)
  | .sessionClosed session => (h.servesIn session).foldl removeServe h
  | .capacity session => (h.servesIn session).foldl (drain env turn) h
  | .timer id => h.drain env turn id
  | .registerChanged topic => h.handleRegisterChanged env turn topic
  | .tailApplied e => h.handleTailApplied env e
  | .viewChange view epoch change => h.onViewChange env turn view epoch change

def step (env : SubEnv) (h : SubHub) (a : SubTurn × Action) : Option SubHub :=
  some ({ h with lane := a.1.lane }.perform env a.1 a.2)

end SubHub

end Seqscribe
