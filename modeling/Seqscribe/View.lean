import Seqscribe.Returns
import Seqscribe.Stream

namespace Seqscribe
set_option autoImplicit true

variable (env : Env)

/-- The stored head of a stream, or the head a stream starts with. -/
def Core.head (core : Core) (k : StreamId) : WriterRow :=
  (core.db.sqWriters.get k).getD (freshHead env k.1 k.2)

def ofStream (k : StreamId) (id : EntryId) : Bool := id.1 = k.1 ∧ id.2.1 = k.2

theorem ofStream_iff {k : StreamId} {id : EntryId} :
    ofStream k id = true ↔ id.1 = k.1 ∧ id.2.1 = k.2 := decide_eq_true_iff

theorem log_get_of_mem {log : Table EntryId LogRow fun r => r.entry.id} (h : r ∈ log.rows) :
    log.get r.entry.id = some r := Table.get_of_mem h

theorem log_id_of_get {log : Table EntryId LogRow fun r => r.entry.id} (h : log.get i = some r) :
    r.entry.id = i := (Table.key_of_get h :)

/-- What a core holds of one stream. -/
def Core.stream (core : Core) (k : StreamId) : Stream where
  head := core.head env k
  listed := (core.db.sqWriters.get k).isSome
  rows := fun s => (core.db.sqLog.get (k.1, k.2, s)).map LogRow.entry
  pending := core.db.sqPending.restrict (ofStream k)
  quarantine := fun s => core.db.sqQuarantine.get (k.1, k.2, s)
  archive := fun s => (core.db.sqArchive.get (k.1, k.2, s)).map ArchiveRow.entry
  floor := (core.db.sqFloors.get k).map FloorRow.floor
  recovery := core.recoveries k

theorem Core.row_of_mem {core : Core} {r : LogRow} (hr : r ∈ core.db.sqLog.rows) :
    (core.stream env r.entry.stream).rows r.entry.seq = some r.entry :=
  congrArg (Option.map LogRow.entry) (log_get_of_mem hr)

/-- The state of a transaction as its streams, certificates and directives, with its outputs. -/
structure View where
  streams : StreamId → Stream
  certs : Topic → Option FinalityCert
  directives : Topic × WriterId × Nat → Option WriterDirective
  settle : List Settled
  applied : List (LogEntry × Option String)
  anomalies : List Anomaly
  hlcState : HlcState
  now : Nat

def Txn.view (t : Txn) : View where
  streams := t.core.stream env
  certs := t.core.db.sqFinality.get
  directives := t.core.db.sqDirectives.get
  settle := t.settle
  applied := t.applied.map fun a => (a.entry, a.via)
  anomalies := t.anomalies
  hlcState := t.core.hlcState
  now := t.ambient.now

/-- How a head shows in a HAVE vector. -/
def WriterRow.vec (h : WriterRow) : WriterVec :=
  match h.sealReason, h.finalSeq, h.finalChain with
  | some .retired, some finalSeq, some finalChain => .retired ⟨finalSeq, finalChain, h.rgen⟩
  | _, _, _ => .live ⟨h.contigSeq, h.contigChain, if h.rgen > 0 then some h.rgen else none⟩

def writerVec (vec : HaveVectors) (k : StreamId) : Option WriterVec :=
  (vec.get k.1).bind fun topicVec => (topicVec.writers.get k.2).map Prod.snd

/-- The caches agree with the store. A tombstone may be missing from the HAVE vectors. -/
structure Core.Coherent (core : Core) : Prop where
  heads : ∀ k h, core.heads k = some h → h = core.head env k
  certs : ∀ T c, core.certs T = some c → c = core.db.sqFinality.get T
  floors : ∀ k f, core.floors k = some f → f = (core.db.sqFloors.get k).map FloorRow.floor
  exposed : ∀ vec, core.vectorsCache = some vec → ∀ k v, writerVec vec k = some v →
    (core.db.sqWriters.get k).map WriterRow.vec = some v
  covered : ∀ vec, core.vectorsCache = some vec → ∀ k h, core.db.sqWriters.get k = some h →
    writerVec vec k = some h.vec ∨ h.sealReason = some .retired ∧ h.retiredAt.isSome

/-- A transaction over coherent caches. -/
structure Ready (t : Txn) : Prop where
  coherent : t.core.Coherent env

namespace View

/-- One stream of a view with the outputs. -/
def localAt (v : View) (k : StreamId) : Local := 
  ⟨v.streams k, v.settle, v.applied, v.anomalies, v.hlcState⟩

def withLocal (v : View) (k : StreamId) (L : Local) : View :=
  { v with
    streams := Function.update v.streams k L.stream
    settle := L.settle
    applied := L.applied
    anomalies := L.anomalies
    hlcState := L.hlcState }

def onStream (k : StreamId) (f : Local → Local) (v : View) : View :=
  v.withLocal k (f (v.localAt k))

@[simp] theorem withLocal_certs (v : View) : (v.withLocal k L).certs = v.certs := rfl
@[simp] theorem withLocal_directives (v : View) :
    (v.withLocal k L).directives = v.directives := rfl
@[simp] theorem withLocal_now (v : View) : (v.withLocal k L).now = v.now := rfl
@[simp] theorem withLocal_settle (v : View) : (v.withLocal k L).settle = L.settle := rfl

@[simp] theorem withLocal_streams_self (v : View) :
    (v.withLocal k L).streams k = L.stream := Function.update_self ..

theorem withLocal_streams_of_ne (v : View) (h : k' ≠ k) :
    (v.withLocal k L).streams k' = v.streams k' := Function.update_of_ne h ..

theorem withLocal_streams (v : View) :
    (v.withLocal k L).streams k' = if k' = k then L.stream else v.streams k' := by
  by_cases h : k' = k
  · subst h
    simp
  · simp [h, withLocal_streams_of_ne]

@[simp] theorem localAt_withLocal (v : View) : (v.withLocal k L).localAt k = L := by
  simp [localAt, withLocal]

@[simp] theorem withLocal_withLocal (v : View) :
    (v.withLocal k L).withLocal k L' = v.withLocal k L' := by
  simp [withLocal]

@[simp] theorem withLocal_localAt (v : View) : v.withLocal k (v.localAt k) = v := by
  simp [withLocal, localAt]

end View

theorem Core.head_stream (core : Core) (k : StreamId) : (core.head env k).stream = k := by
  unfold Core.head
  cases hg : core.db.sqWriters.get k with
  | none => rfl
  | some h => exact Table.key_of_get hg

theorem Core.head_topic (core : Core) (k : StreamId) : (core.head env k).topic = k.1 :=
  congrArg Prod.fst (core.head_stream env k)

theorem Core.head_writer (core : Core) (k : StreamId) : (core.head env k).writer = k.2 :=
  congrArg Prod.snd (core.head_stream env k)

variable {env}

/-- A transaction whose view is `v`, except that the local part of stream `k` is `L`. -/
structure At (env : Env) (k : StreamId) (v : View) (L : Local) (t : Txn) : Prop where
  ready : Ready env t
  stream : t.core.stream env k = L.stream
  others : ∀ k', k' ≠ k → t.core.stream env k' = v.streams k'
  settle : t.settle = L.settle
  applied : (t.applied.map fun a => (a.entry, a.via)) = L.applied
  anomalies : t.anomalies = L.anomalies
  hlcState : t.core.hlcState = L.hlcState
  certs : t.core.db.sqFinality.get = v.certs
  directives : t.core.db.sqDirectives.get = v.directives
  now : t.ambient.now = v.now

theorem Ready.at (ht : Ready env t) (k : StreamId) :
    At env k (t.view env) ((t.view env).localAt k) t :=
  ⟨ht, rfl, fun _ _ => rfl, rfl, rfl, rfl, rfl, rfl, rfl, rfl⟩

theorem At.view_eq (h : At env k v L t) : t.view env = v.withLocal k L := by
  have hstreams : t.core.stream env = Function.update v.streams k L.stream := by
    funext k'
    by_cases hk : k' = k
    · subst hk
      rw [Function.update_self, h.stream]
    · rw [Function.update_of_ne hk, h.others k' hk]
  unfold Txn.view View.withLocal
  simp only [hstreams, h.settle, h.applied, h.anomalies, h.hlcState, h.certs,
    h.directives, h.now]

theorem At.head (h : At env k v L t) : t.core.head env k = L.stream.head := by
  rw [← h.stream]
  rfl

theorem At.head_stream (h : At env k v L t) : L.stream.head.stream = k := by
  rw [← h.head]
  exact t.core.head_stream env k

end Seqscribe
