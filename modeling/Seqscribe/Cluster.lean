import Seqscribe.FullSync
import Seqscribe.WantLoop

namespace Seqscribe
set_option autoImplicit true

/-! Nodes that exchange HAVE, WANT, ENTRIES and TRUNCATED, record acknowledgments and prune. -/

/-! The ack recorder. -/

def ACK_SEEN_REFRESH_MS : Nat := 60000

/-- What a peer acknowledges of a writer. -/
def WriterVec.acked : WriterVec → Nat
  | .live v => v.contig
  | .retired v => v.finalSeq

inductive AckWrite where
  | ackUpsert (row : AckRow)
  | ackNodeSeen (topic : Topic) (node : WriterId) (atMs : Nat) (proto : Option Nat)

def AckWrite.run (db : Db) : AckWrite → Db
  | .ackUpsert row => { db with sqAcks := db.sqAcks.upsert row }
  | .ackNodeSeen topic node atMs proto =>
    { db with sqAckNodes := db.sqAckNodes.upsert <|
        match db.sqAckNodes.get (topic, node) with
        | none => ⟨topic, node, atMs, some atMs, proto⟩
        | some r => { r with seenAt := some atMs, proto := proto.orElse fun _ => r.proto } }

/-- The memo of what is recorded: the seq by topic, node and writer, and the last liveness stamp. -/
structure AckRecorder where
  last : Topic × WriterId × WriterId → Option Nat
  seenWritten : Topic × WriterId → Option Nat

namespace AckRecorder

def empty : AckRecorder := ⟨fun _ => none, fun _ => none⟩

/-- A call of `record` in the middle: the memo, the collected writes, whether the topic changed. -/
structure Recording where
  recorder : AckRecorder
  writes : List AckWrite
  changed : Bool

def recordWriter (topic : Topic) (node : WriterId) (r : Recording) (w : WriterId × WriterVec) :
    Recording :=
  let k := (topic, node, w.1)
  if r.recorder.last k = some w.2.acked then r
  else
    { recorder := { r.recorder with last := Function.update r.recorder.last k (some w.2.acked) }
      writes := r.writes ++ [.ackUpsert ⟨topic, node, w.1, w.2.acked⟩]
      changed := true }

def recordTopic (env : Env) (defined : List Topic) (node : WriterId) (atMs : Nat)
    (proto : Option Nat) (r : Recording) (v : TopicVec) : Recording :=
  if v.topic ∈ defined ∧ env.ackedRetention v.topic then
    let r := v.writers.rows.foldl (recordWriter v.topic node) { r with changed := false }
    let nk := (v.topic, node)
    if r.changed ∨ (r.recorder.seenWritten nk).all fun prev =>
        decide (atMs ≥ prev + ACK_SEEN_REFRESH_MS) then
      { r with
        recorder := { r.recorder with
          seenWritten := Function.update r.recorder.seenWritten nk (some atMs) }
        writes := r.writes ++ [.ackNodeSeen v.topic node atMs proto] }
    else r
  else r

/-- A failed transaction drops the memo. -/
def record (env : Env) (vectors : HaveVectors) (node : WriterId) (atMs : Nat)
    (proto : Option Nat) (fails : Bool) (recorder : AckRecorder) (core : Core) :
    AckRecorder × Core :=
  if node = env.writerId then (recorder, core)
  else
    let r := vectors.rows.foldl (recordTopic env core.defined node atMs proto) ⟨recorder, [], false⟩
    if r.writes.isEmpty then (r.recorder, core)
    else if fails then (empty, core)
    else (r.recorder, { core with db := r.writes.foldl AckWrite.run core.db })

def forget (topic : Topic) (node : WriterId) (recorder : AckRecorder) : AckRecorder where
  last := fun k => if k.1 = topic ∧ k.2.1 = node then none else recorder.last k
  seenWritten := Function.update recorder.seenWritten (topic, node) none

end AckRecorder

/-- The HAVE of a node; none when a topic is defined that it has no policy for. -/
def Core.haveVectors (env : Env) (now : Nat) (core : Core) : Option HaveVectors :=
  match vectors env { Txn.start core none with ambient := { now := now } } with
  | .ok v _ => some v
  | .error _ _ => none

/-- The ENTRIES that `pumpDirty` pushes to a peer that is known to hold a stream up to `known`. -/
def Responder.pushEntries (env : Env) (r : Responder) (topic : Topic) (writer : WriterId)
    (budget known : Nat) : Option MsgEntries :=
  let stream := r.core.stream env (topic, writer)
  let toSeq := stream.head.contigSeq
  if known ≥ toSeq then none
  else if stream.floor.any fun floor => decide (known < floor.seq) then none
  else
    let batch := takeBatch r.cost budget 0 []
      (stream.range (known + 1) (min toSeq (known + ENTRIES_BATCH_MAX)))
    match batch.head?, batch.getLast? with
    | some first, some last =>
      some ⟨none, topic, writer, first.seq, toSeq, batch, decide (last.seq ≥ toSeq)⟩
    | _, _ => none

/-! The cluster. -/

inductive Message where
  | haveVectors (node : WriterId) (vectors : HaveVectors)
  | entries (m : MsgEntries)
  | truncated (m : MsgTruncated)

def WantAnswer.messages : WantAnswer → List Message
  | .entries fs => fs.map .entries
  | .truncated m => [.truncated m]

/-- The nodes, and every message that was ever sent: each may arrive later or never, more than once
and in any order. -/
structure Cluster where
  core : WriterId → Core
  acks : WriterId → AckRecorder
  sent : List Message

def Cluster.init : Cluster := ⟨fun _ => Core.init, fun _ => .empty, []⟩

variable (env : WriterId → Env)

inductive Action where
  | work (n : WriterId) (i : Input (env n))
  | sendHave (n : WriterId) (now : Nat)
  /-- The vectors of a node reach hosts out of band, for `noteAcks`. -/
  | tellVectors (n : WriterId) (vectors : HaveVectors)
  | recordAcks (n node : WriterId) (vectors : HaveVectors) (shared : Topic → Bool) (atMs : Nat)
      (proto : Option Nat) (fails : Bool)
  | forgetAcks (n : WriterId) (topic : Topic) (node : WriterId)
  | serveWant (n : WriterId) (snapshotHub : Bool) (cost : LogEntry → Nat) (proto budget : Nat)
      (m : MsgWant)
  | pushEntries (n : WriterId) (cost : LogEntry → Nat) (topic : Topic) (writer : WriterId)
      (budget known : Nat)

variable {env}

/-- What an item applies to a full-sync topic has arrived from a peer; snapshots are not adopted. -/
def QueueItem.Arrived {env : Env} (sent : List Message) (item : QueueItem env) : Prop :=
  match item with
  | .external item => env.isFullSync item.entry.topic = true →
      ∃ m, .entries m ∈ sent ∧ item.entry ∈ m.entries
  | .adoptFloor topic writer seq chain _ => env.isFullSync topic = true →
      ∃ req, .truncated ⟨req, topic, writer, seq, chain⟩ ∈ sent
  | .adopt topic _ => env.isFullSync topic = false
  | _ => True

namespace Cluster

def perform (c : Cluster) : Action env → Cluster
  | .work n i => { c with core := Function.update c.core n (step (env n) (c.core n) i).core }
  | .sendHave n now => { c with
      core := Function.update c.core n (step (env n) (c.core n) (.vectors now)).core
      sent := c.sent ++ (((c.core n).haveVectors (env n) now).map (Message.haveVectors n)).toList }
  | .tellVectors n vectors => { c with sent := c.sent ++ [.haveVectors n vectors] }
  | .recordAcks n node vectors shared atMs proto fails =>
    let (recorder, core) := AckRecorder.record (env n) (vectors.filter fun v => shared v.topic)
      node atMs proto fails (c.acks n) (c.core n)
    { c with
      core := Function.update c.core n core
      acks := Function.update c.acks n recorder }
  | .forgetAcks n topic node =>
    { c with acks := Function.update c.acks n ((c.acks n).forget topic node) }
  | .serveWant n snapshotHub cost proto budget m => { c with
      sent := c.sent ++ (Responder.wantAnswer (env n) ⟨c.core n, snapshotHub, cost⟩ proto budget
        m).messages }
  | .pushEntries n cost topic writer budget known => { c with
      sent := c.sent ++ ((Responder.pushEntries (env n) ⟨c.core n, false, cost⟩ topic writer budget
        known).map Message.entries).toList }

/-- Messages are recorded and applied once they were sent; streams are served of topics that the
session shares in full. -/
def Enabled (c : Cluster) : Action env → Prop
  | .work _ (.flush batch _) => ∀ q ∈ batch, q.2.Arrived c.sent
  | .work _ (.ackUpsert _) | .work _ (.ackNodeSeen _) => False
  | .recordAcks _ node vectors .. => .haveVectors node vectors ∈ c.sent
  | .serveWant n _ _ _ _ m => (env n).isFullSync m.topic = true
  | .pushEntries n _ topic .. => (env n).isFullSync topic = true
  | _ => True

def run (as : List (Action env)) : Cluster := as.foldl perform init

/-- Every action of a run is enabled where it happens. -/
def Legal (as : List (Action env)) : Prop :=
  ∀ before a, before ++ [a] <+: as → (run before).Enabled a

/-- `contigSeq` of a stream at a node. -/
def contigSeq (env : WriterId → Env) (c : Cluster) (n : WriterId) (k : StreamId) : Nat :=
  ((c.core n).head (env n) k).contigSeq

/-- An action by which a node states its vectors. -/
def Advertises (c : Cluster) (a : Action env) (node : WriterId) (vectors : HaveVectors) : Prop :=
  (∃ now, a = .sendHave node now ∧ (c.core node).haveVectors (env node) now = some vectors) ∨
    a = .tellVectors node vectors

end Cluster

end Seqscribe
