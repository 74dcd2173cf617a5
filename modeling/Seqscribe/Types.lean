import Seqscribe.Table

namespace Seqscribe
set_option autoImplicit true

/-- A JavaScript string: its UTF-16 code units, unpaired surrogates included. -/
abbrev JsString := List UInt16

instance : LawfulBEq JsString := inferInstance

-- Topics, writer ids and chains are ASCII by charter, so Lean's strings and their order agree
-- with the source's and with SQLite's bytewise comparison. Sequence numbers, generations and
-- times are natural numbers.
abbrev Topic := String
abbrev WriterId := String
abbrev Chain := String
abbrev Key := JsString
abbrev EntryId := Topic × WriterId × Nat

/-- A stream is one writer's log of one topic. -/
abbrev StreamId := Topic × WriterId

/-- `2 ** 53 - 1`. -/
def MAX_SAFE_INTEGER : Nat := 9007199254740991

inductive JsonValue where
  | null
  | bool (b : Bool)
  | num (x : Rat)
  | str (s : JsString)
  | arr (xs : List JsonValue)
  | obj (members : List (JsString × JsonValue))

structure Hlc where
  l : Nat
  c : Nat
  deriving DecidableEq, Repr

abbrev HlcState := Hlc

structure Order where
  l : Nat
  c : Nat
  writer : WriterId
  seq : Nat
  deriving DecidableEq, Repr

structure LogEntry where
  topic : Topic
  writer : WriterId
  seq : Nat
  hlc : Hlc
  kind : JsString
  key : Option Key
  causal : Option (WriterId × Nat)
  ref : Option EntryId
  payload : JsonValue
  chain : Chain

def LogEntry.id (e : LogEntry) : EntryId := (e.topic, e.writer, e.seq)

def LogEntry.stream (e : LogEntry) : StreamId := (e.topic, e.writer)

/-- One writer's column of a cut. -/
structure CutEntry where
  writer : WriterId
  seq : Nat
  chain : Chain
  deriving DecidableEq, Repr

structure FinalityCert where
  topic : Topic
  order : Order
  cut : Table WriterId CutEntry CutEntry.writer
  generation : Nat
  authority : String
  sig : String

/-- `cert.cut[w]?.seq ?? 0`: an absent writer has its cut at 0. -/
def FinalityCert.cutSeq (cert : FinalityCert) (w : WriterId) : Nat :=
  ((cert.cut.get w).map CutEntry.seq).getD 0

inductive DirectiveState where
  | live
  | retired
  deriving DecidableEq, Repr

/-- `keyOrder` is the order of the own members, which `JSON.stringify` follows. -/
structure WriterDirective where
  topic : Topic
  writer : WriterId
  state : DirectiveState
  rgen : Nat
  finalSeq : Option Nat
  finalChain : Option Chain
  authority : String
  sig : String
  keyOrder : List String
  deriving DecidableEq, Repr

/-- `JSON.stringify` of a directive: its members in the order of their keys. Two directives
have the same text exactly when they agree in every member and in that order. -/
def WriterDirective.stringify (d : WriterDirective) : WriterDirective := d

inductive SealReason where
  | fork
  | retired
  deriving DecidableEq, Repr

structure WriterRow where
  topic : Topic
  writer : WriterId
  contigSeq : Nat
  contigChain : Chain
  sealReason : Option SealReason
  rgen : Nat
  retiredAt : Option Nat
  finalSeq : Option Nat
  finalChain : Option Chain
  deriving DecidableEq, Repr

def WriterRow.stream (h : WriterRow) : StreamId := (h.topic, h.writer)

structure RecoveryTarget where
  finalSeq : Nat
  finalChain : Chain
  rgen : Nat
  unavailableReported : Bool
  deriving DecidableEq, Repr

inductive TopicKind where
  | append
  | register
  deriving DecidableEq, Repr

inductive Retention where
  | full
  | ring (size : Nat)
  | none
  deriving DecidableEq, Repr

inductive Replication where
  | fullSync
  | subscribeOnly
  deriving DecidableEq, Repr

/-- The fields of a topic's policy that the log reads. -/
structure TopicPolicy where
  kind : TopicKind
  retention : Retention
  replication : Replication
  finalityAuthority : Option String
  tombstoneKind : Option JsString
  deriving DecidableEq, Repr

structure Constants where
  MAX_ENTRY_BYTES : Nat := 65536
  MAX_FRAME_BYTES : Nat := 262144
  INFLIGHT_CREDITS : Nat := 4
  CHANNEL_STALL_MS : Nat := 30000
  SEND_QUEUE_CAP : Nat := 64
  CONTROL_RETRY_MS : Nat := 5000
  PENDING_CAP : Nat := 1024
  HLC_EPSILON_MS : Nat := 300000
  FINALITY_WINDOW_MS : Nat := 2592000000
  TOMBSTONE_RETAIN_MS : Nat := 34560000000

inductive ErrCode where
  | ERR_UNKNOWN_TOPIC
  | ERR_ENTRY_TOO_LARGE
  | ERR_ENTRY_ENCODING
  | ERR_WRITER_SEALED
  | ERR_STORAGE
  | ERR_MISUSE
  | ERR_PROTO_VERSION
  | ERR_PROTOCOL
  | ERR_SCHEMA_MISMATCH
  | ERR_ACL_DENIED
  deriving DecidableEq, Repr

structure SeqscribeError where
  code : ErrCode
  message : String
  deriving DecidableEq, Repr

def misuse (message : String) : SeqscribeError := ⟨.ERR_MISUSE, message⟩

inductive ApplyResult where
  | applied
  | pending
  | duplicate
  | droppedOverflow
  | forked
  | sealed
  | rejectedFinality
  deriving DecidableEq, Repr

inductive Anomaly where
  | writerForked (topic : Topic) (writer : WriterId) (offending : Option LogEntry)
  | entryQuarantined (entry : LogEntry)
  | preFinalityRejected (entry : LogEntry)
  | clockOutlier (entry : LogEntry)
  | badDirective
  | floorAdopted (topic : Topic) (writer : WriterId)
  | badCert (topic : Topic)
  | consumerAbandoned (topic : Topic) (consumer : String)

/-- What the host supplies: the hash and canonicalization libraries, its constants, this node's
writer id, and the policy it gives to each topic (immutable per process). -/
structure Env where
  sha256Hex : List UInt8 → String
  jcs : JsonValue → JsString
  constants : Constants
  writerId : WriterId
  topics : Topic → Option TopicPolicy

end Seqscribe
