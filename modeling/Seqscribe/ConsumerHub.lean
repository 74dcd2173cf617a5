import Seqscribe.Flush
import Seqscribe.Traces
import Seqscribe.ViewHub

namespace Seqscribe
set_option autoImplicit true

/-! Consumers over a log core. The promise of a callback and a timer may settle at any time, and so
may the archive pass run that `onAdvance` asks for. -/

/-- What a registration has been through: calls of its callback, those that resolved, and the
waiters that `caughtUp` registered and resolved. -/
inductive ConsumerEvent where
  | offered (row : LogRow)
  | resolved (row : LogRow)
  | waits (through : Nat)
  | caughtUp (through : Nat)

/-- No drain runs, or the callback of a row does, which the others of its batch follow, or the drain
has come to its end and `finally` is still to run. -/
inductive Drain where
  | idle
  | calling (row : LogRow) (rest : List LogRow)
  | over

structure Consumer where
  topic : Topic
  name : String
  drain : Drain
  rerun : Bool
  /-- A retry is scheduled. -/
  retryTimer : Bool
  /-- The `through` of each waiter. -/
  waiters : List Nat
  -- history
  events : List ConsumerEvent

/-- The topic and the name with a blank between them, and no topic has a blank. -/
abbrev ConsumerKey := Topic × String

namespace Db

def cursorGet (db : Db) (consumer : String) (topic : Topic) : Nat :=
  ((db.sqCursors.get (consumer, topic)).map CursorRow.lastRowid).getD 0

def cursorSet (db : Db) (consumer : String) (topic : Topic) (lastRowid at_ : Nat) : Db :=
  { db with sqCursors := db.sqCursors.upsert ⟨consumer, topic, lastRowid, at_⟩ }

end Db

namespace Consumer

def BATCH : Nat := 64

def key (c : Consumer) : ConsumerKey := (c.topic, c.name)

def cursor (c : Consumer) (db : Db) : Nat := db.cursorGet c.name c.topic

def running : Drain → Bool
  | .idle => false
  | _ => true

/-- `onEntry`. -/
def fresh (topic : Topic) (name : String) : Consumer where
  topic := topic
  name := name
  drain := .idle
  rerun := false
  retryTimer := false
  waiters := []
  events := []

def note (c : Consumer) (e : ConsumerEvent) : Consumer := { c with events := c.events ++ [e] }

/-- Calls the callback with the next row of the batch, if any. -/
def offer (c : Consumer) : List LogRow → Consumer
  | [] => { c with drain := .over }
  | row :: rest => { c with drain := .calling row rest }.note (.offered row)

/-- Reads the rows after the cursor. -/
def read (db : Db) (c : Consumer) : Consumer :=
  c.offer (db.entriesForTopicFromRowid c.topic (c.cursor db) BATCH)

def pump (db : Db) (c : Consumer) : Consumer :=
  if running c.drain then { c with rerun := true } else c.read db

/-- Resolves the waiters that the row reaches. -/
def resolveWaiters (c : Consumer) (rowid : Nat) : Consumer :=
  { c with
    waiters := c.waiters.filter fun w => decide (rowid < w)
    events := c.events ++
      (c.waiters.filter fun w => decide (w ≤ rowid)).map ConsumerEvent.caughtUp }

end Consumer

structure ConsumerHub where
  core : Core
  consumers : Table ConsumerKey Consumer Consumer.key
  closed : Bool

namespace ConsumerHub

def init : ConsumerHub := ⟨Core.init, .empty, false⟩

def set (h : ConsumerHub) (c : Consumer) : ConsumerHub :=
  { h with consumers := h.consumers.upsert c }

def onCore (h : ConsumerHub) (f : Db → Db) : ConsumerHub := { h with core.db := f h.core.db }

def isActive (h : ConsumerHub) (topic : Topic) (name : String) : Bool :=
  (h.consumers.get (topic, name)).isSome

def pumpAt (h : ConsumerHub) (key : ConsumerKey) : ConsumerHub :=
  match h.consumers.get key with
  | none => h
  | some c => h.set (c.pump h.core.db)

def notifyApplied (h : ConsumerHub) (topic : Topic) : ConsumerHub :=
  ((h.consumers.rows.filter fun c => decide (c.topic = topic)).map Consumer.key).foldl pumpAt h

/-- The log core comes to a new state, and its consumers hear of the rows that it applied. -/
def afterLog (h : ConsumerHub) (o : Outcome) : ConsumerHub :=
  (o.applied.filter fun a => a.rowid.isSome).foldl (fun h a => h.notifyApplied a.entry.topic)
    { h with core := o.core }

def onEntry (env : Env) (h : ConsumerHub) (topic : Topic) (name : String) (now : Nat) :
    Option ConsumerHub :=
  match env.topics topic with
  | none => none
  | some policy =>
    if h.closed ∨ policy.retention ≠ .full ∨ (h.consumers.get (topic, name)).isSome then
      none
    else
      let db :=
        if (h.core.db.sqCursors.get (name, topic)).isSome then h.core.db
        else h.core.db.cursorSet name topic 0 now
      let h := { h with core.db := db }
      some ((h.set (.fresh topic name)).pumpAt (topic, name))

/-- `assertInactive`. -/
def inactive (env : Env) (h : ConsumerHub) (topic : Topic) (name : String) : Bool :=
  !h.closed && (env.topics topic).isSome && !h.isActive topic name

/-- From the head, or from the earliest row. -/
def resetConsumer (env : Env) (h : ConsumerHub) (topic : Topic) (name : String) (head : Bool)
    (now : Nat) : Option ConsumerHub :=
  if h.inactive env topic name then
    some (h.onCore fun db =>
      db.cursorSet name topic (if head then db.maxRowid topic else 0) now)
  else none

def cursorDelete (h : ConsumerHub) (consumer : String) (topic : Topic) : ConsumerHub :=
  h.onCore fun db => { db with sqCursors := db.sqCursors.delete (consumer, topic) }

def deleteConsumer (env : Env) (h : ConsumerHub) (topic : Topic) (name : String) :
    Option ConsumerHub :=
  if h.inactive env topic name then some (h.cursorDelete name topic) else none

/-- Deletes the inactive cursors of a topic that the filters let through. -/
def pruneConsumers (env : Env) (h : ConsumerHub) (topic : Topic) (names : String → Bool)
    (inactiveBefore : Option Nat) : Option ConsumerHub :=
  if h.closed ∨ (env.topics topic).isNone then none
  else
    some (((h.core.db.sqCursors.rows.filter fun r => decide (r.topic = topic)).filter fun r =>
      !h.isActive topic r.consumer && names r.consumer &&
        inactiveBefore.all fun before => decide (r.updatedAt < before)).foldl
          (fun h r => h.cursorDelete r.consumer topic) h)

def caughtUp (env : Env) (h : ConsumerHub) (topic : Topic) (name : String) : Option ConsumerHub :=
  if h.closed ∨ (env.topics topic).isNone then none
  else
    (h.consumers.get (topic, name)).map fun c =>
      let through := h.core.db.maxRowid topic
      if through ≤ h.core.db.cursorGet name topic then
        h.set ((c.note (.waits through)).note (.caughtUp through))
      else h.set { c.note (.waits through) with waiters := c.waiters ++ [through] }

/-- The callback has resolved: the cursor moves, then comes the next row or the next batch. -/
def resolved (h : ConsumerHub) (key : ConsumerKey) (now : Nat) : Option ConsumerHub :=
  match h.consumers.get key with
  | none => none
  | some c =>
    match c.drain with
    | .calling row rest =>
      let h := h.onCore fun db => db.cursorSet c.name c.topic row.rowid now
      let c := (c.note (.resolved row)).resolveWaiters row.rowid
      some (h.set (if rest.isEmpty then c.read h.core.db else c.offer rest))
    | _ => none

/-- The callback has failed: the cursor keeps its place with a new timestamp. -/
def failed (h : ConsumerHub) (key : ConsumerKey) (now : Nat) : Option ConsumerHub :=
  match h.consumers.get key with
  | none => none
  | some c =>
    match c.drain with
    | .calling _ _ =>
      let h := h.onCore fun db => db.cursorSet c.name c.topic (c.cursor db) now
      some (h.set { c with drain := .over, retryTimer := true })
    | _ => none

/-- The `finally` of a drain. -/
def settled (h : ConsumerHub) (key : ConsumerKey) : Option ConsumerHub :=
  match h.consumers.get key with
  | none => none
  | some c =>
    match c.drain with
    | .over =>
      let c := { c with drain := .idle }
      some (h.set (if c.rerun then { c with rerun := false }.pump h.core.db else c))
    | _ => none

def retry (h : ConsumerHub) (key : ConsumerKey) : Option ConsumerHub :=
  match h.consumers.get key with
  | none => none
  | some c =>
    if c.retryTimer then some (h.set ({ c with retryTimer := false }.pump h.core.db)) else none

inductive Action (env : Env) where
  | log (i : Input env)
  | onEntry (topic : Topic) (name : String) (now : Nat)
  /-- The function that `onEntry` returned, which is called once. -/
  | unsubscribe (key : ConsumerKey)
  | resetConsumer (topic : Topic) (name : String) (head : Bool) (now : Nat)
  | deleteConsumer (topic : Topic) (name : String)
  | pruneConsumers (topic : Topic) (names : String → Bool) (inactiveBefore : Option Nat)
  | caughtUp (topic : Topic) (name : String)
  | resolved (key : ConsumerKey) (now : Nat)
  | failed (key : ConsumerKey) (now : Nat)
  | settled (key : ConsumerKey)
  | retry (key : ConsumerKey)
  | close
  | restart

/-- Cursors are written by this hub only, and a restart takes the hub along. -/
def foreign {env : Env} : Input env → Bool
  | .cursorSet _ | .cursorDelete .. | .restart => true
  | _ => false

/-- A call that throws is no step. -/
def step (env : Env) (h : ConsumerHub) : Action env → Option ConsumerHub
  | .log i => if foreign i then none else some (h.afterLog (Seqscribe.step env h.core i))
  | .onEntry topic name now => h.onEntry env topic name now
  | .unsubscribe key => some { h with consumers := h.consumers.delete key }
  | .resetConsumer topic name head now => h.resetConsumer env topic name head now
  | .deleteConsumer topic name => h.deleteConsumer env topic name
  | .pruneConsumers topic names inactiveBefore => h.pruneConsumers env topic names inactiveBefore
  | .caughtUp topic name => h.caughtUp env topic name
  | .resolved key now => h.resolved key now
  | .failed key now => h.failed key now
  | .settled key => h.settled key
  | .retry key => h.retry key
  | .close => some { h with consumers := .empty, closed := true }
  | .restart => some ⟨h.core.restart, .empty, false⟩

end ConsumerHub

end Seqscribe
