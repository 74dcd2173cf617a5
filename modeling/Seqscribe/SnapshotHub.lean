import Seqscribe.DataFrames
import Seqscribe.JsonRead
import Seqscribe.TextDecode

namespace Seqscribe
set_option autoImplicit true

/-! The transfer of a snapshot: chunks of many peers, reassembled side by side. -/

structure MsgSnapshotOffer where
  topic : Topic
  snapshotId : Chain
  order : Order
  cut : Cut
  certHash : Chain

structure MsgSnapshotGet where
  topic : Topic
  snapshotId : Chain
  wants : List (String × String)

structure MsgSnapshot where
  topic : Topic
  snapshotId : Chain
  chunk : Nat
  of : Nat
  data : JsString
  totalHash : Option Chain

/-- The chunks are a map from their indices. -/
structure Assembly where
  snapshotId : Chain
  of : Nat
  chunks : Table Nat (Nat × JsString) Prod.fst
  bytes : Nat
  totalHash : Option Chain

/-- What a message comes to. After an overflow the session gets an ERR and is closed. -/
inductive SnapshotOutcome where
  | ignored
  | get (m : MsgSnapshotGet)
  | waiting
  | overflow
  | mismatch
  | adopt (raw : JsString)

/-- The requester's side of the hub. -/
structure SnapshotHub where
  assemblies : Table String (String × Assembly) Prod.fst
  /-- The snapshot ids that were asked for, as a set. -/
  requested : List Chain

def sha256HexUtf8 (env : Env) (s : JsString) : Chain := env.sha256Hex (utf8 s)

def certHashOf (env : Env) (cert : FinalityCert) : Chain :=
  sha256HexUtf8 env (env.jcs (certJson cert))

/-- The frames of the snapshot that is stored as `stored`; a request for another one gets none. -/
def handleGet (env : SubEnv) (stored : Option JsString) (m : MsgSnapshotGet) : List MsgSnapshot :=
  match stored with
  | none => []
  | some raw =>
    let snapshotId := sha256HexUtf8 env.env raw
    if snapshotId ≠ m.snapshotId then []
    else
      let bytes := utf8 raw
      let count := snapCount (Serving.rawChunkBudget env) bytes
      (List.range' 1 count).map fun chunk =>
        { topic := m.topic, snapshotId := snapshotId, chunk := chunk, of := count,
          data := b64encode (snapChunk (Serving.rawChunkBudget env) bytes chunk),
          totalHash := some snapshotId }

def Assembly.fresh (m : MsgSnapshot) : Assembly where
  snapshotId := m.snapshotId
  of := m.of
  chunks := .empty
  bytes := 0
  totalHash := none

namespace Assembly

/-- The reassembly of a subscription does the same with its chunks. -/
def sub (asm : Assembly) : ClientSub where
  cursor := none
  chunks := asm.chunks
  chunksOf := asm.of
  chunkBytes := asm.bytes
  chunkCursor := []
  chunkReset := false

/-- The chunk at hand, with its bytes in place of those it replaces. -/
def add (asm : Assembly) (m : MsgSnapshot) : Assembly where
  snapshotId := asm.snapshotId
  of := asm.of
  chunks := asm.chunks.upsert (m.chunk, m.data)
  bytes := asm.bytes + m.data.length - (asm.sub.dataAt m.chunk).length
  totalHash := m.totalHash.or asm.totalHash

/-- The text is read only after all chunks and the hashes. -/
def finish (env : Env) (asm : Assembly) (snapshotId : Chain) : SnapshotOutcome :=
  let raw := textDecode (asm.sub.assemble asm.of)
  if asm.totalHash.any fun totalHash => decide (sha256HexUtf8 env raw ≠ totalHash) then .mismatch
  else if sha256HexUtf8 env raw ≠ snapshotId then .mismatch
  else .adopt raw

end Assembly

def assemblyKey (peerId : String) (topic : Topic) : String := peerId ++ " " ++ topic

namespace SnapshotHub

def empty : SnapshotHub := ⟨.empty, []⟩

def assemblyFor (hub : SnapshotHub) (key : String) (m : MsgSnapshot) : Assembly :=
  match hub.assemblies.get key with
  | none => .fresh m
  | some (_, asm) => if asm.snapshotId ≠ m.snapshotId then .fresh m else asm

def handleChunk (env : Env) (MAX_REASSEMBLY_BYTES : Nat) (hub : SnapshotHub) (peerId : String)
    (m : MsgSnapshot) : SnapshotHub × SnapshotOutcome :=
  let key := assemblyKey peerId m.topic
  let asm := (hub.assemblyFor key m).add m
  if asm.bytes > MAX_REASSEMBLY_BYTES then
    ({ assemblies := hub.assemblies.delete key, requested := hub.requested.erase m.snapshotId },
      .overflow)
  else if asm.chunks.rows.length < asm.of then
    ({ hub with assemblies := hub.assemblies.upsert (key, asm) }, .waiting)
  else ({ hub with assemblies := hub.assemblies.delete key }, asm.finish env m.snapshotId)

/-- `wants` are the views that the node has of the topic. -/
def handleOffer (env : Env) (wants : List (String × String)) (hub : SnapshotHub) (v : View)
    (m : MsgSnapshotOffer) : SnapshotHub × SnapshotOutcome :=
  match v.certs m.topic with
  | none => (hub, .ignored)
  | some cert =>
    if certHashOf env cert ≠ m.certHash then (hub, .ignored)
    else if (m.cut.rows.all fun c =>
        decide (c.seq ≤ (v.streams (m.topic, c.writer)).head.contigSeq)) ∨
        m.snapshotId ∈ hub.requested then (hub, .ignored)
    else
      ({ hub with requested := m.snapshotId :: hub.requested },
        .get ⟨m.topic, m.snapshotId, wants⟩)

/-- A message of a peer. An offer finds the node in some state. -/
inductive Event where
  | offer (v : View) (wants : List (String × String)) (m : MsgSnapshotOffer)
  | chunk (peerId : String) (m : MsgSnapshot)

def handle (env : Env) (MAX_REASSEMBLY_BYTES : Nat) (hub : SnapshotHub) :
    Event → SnapshotHub × SnapshotOutcome
  | .offer v wants m => hub.handleOffer env wants v m
  | .chunk peerId m => hub.handleChunk env MAX_REASSEMBLY_BYTES peerId m

/-- The messages of all peers, in the order in which they come. -/
def handleAll (env : Env) (MAX_REASSEMBLY_BYTES : Nat) :
    SnapshotHub → List Event → SnapshotHub × List SnapshotOutcome
  | hub, [] => (hub, [])
  | hub, event :: events =>
    let r := hub.handle env MAX_REASSEMBLY_BYTES event
    let rest := handleAll env MAX_REASSEMBLY_BYTES r.1 events
    (rest.1, r.2 :: rest.2)

end SnapshotHub

/-- On the data lane. -/
def MsgSnapshot.body (m : MsgSnapshot) : DataBody :=
  .snapshot m.topic m.snapshotId m.chunk m.of m.data (m.totalHash.getD "")

/-! Peers and topics are told apart by the key. -/

theorem no_space_of_topic {topic : Topic} (h : TOPIC_RE topic = true) : ' ' ∉ topic.toList := by
  intro hspace
  rw [TOPIC_RE, matchesAll, Bool.and_eq_true, Bool.and_eq_true, List.all_eq_true] at h
  exact absurd (h.1.1 ' ' hspace) (by decide)

/-- The last space of the key ends the peer's label. -/
theorem assemblyKey_inj {peer peer' : String} {topic topic' : Topic}
    (ht : TOPIC_RE topic = true) (ht' : TOPIC_RE topic' = true)
    (h : assemblyKey peer topic = assemblyKey peer' topic') : peer = peer' ∧ topic = topic' := by
  have hlists := congrArg (fun s : String => s.toList.reverse) h
  simp only [assemblyKey, String.toList_append, List.reverse_append, List.append_assoc] at hlists
  have hspaces : ∀ {topic : Topic}, TOPIC_RE topic = true → ∀ c ∈ topic.toList.reverse, c ≠ ' ' := by
    intro topic ht c hc hspace
    exact no_space_of_topic ht (hspace ▸ List.mem_reverse.1 hc)
  suffices hsplit : ∀ {x y u v : List Char}, (∀ c ∈ x, c ≠ ' ') → (∀ c ∈ y, c ≠ ' ') →
      x ++ ' ' :: u = y ++ ' ' :: v → x = y ∧ u = v by
    obtain ⟨htopics, hpeers⟩ := hsplit (hspaces ht) (hspaces ht') hlists
    exact ⟨String.toList_inj.1 (List.reverse_inj.1 hpeers),
      String.toList_inj.1 (List.reverse_inj.1 htopics)⟩
  intro x
  induction x with
  | nil =>
    intro y u v _ hy heq
    cases y with
    | nil => exact ⟨rfl, (List.cons.inj heq).2⟩
    | cons c y => exact absurd (List.cons.inj heq).1.symm (hy c List.mem_cons_self)
  | cons c x ih =>
    intro y u v hx hy heq
    cases y with
    | nil => exact absurd (List.cons.inj heq).1 (hx c List.mem_cons_self)
    | cons c' y =>
      obtain ⟨rfl, hrest⟩ := List.cons.inj heq
      obtain ⟨rfl, rfl⟩ := ih (fun d hd => hx d (List.mem_cons_of_mem c hd))
        (fun d hd => hy d (List.mem_cons_of_mem c hd)) hrest
      exact ⟨rfl, rfl⟩

/-! What every assembly keeps. -/

/-- A sum over a table after an update: what the key had is replaced. -/
theorem sum_upsert {κ ρ : Type} [DecidableEq κ] {key : ρ → κ} (T : Table κ ρ key) (r : ρ)
    (size : ρ → Nat) : ((T.upsert r).rows.map size).sum + ((T.get (key r)).map size).getD 0 =
      (T.rows.map size).sum + size r := by
  cases hget : T.get (key r) with
  | none => simp [Table.rows_upsert_of_get_eq_none hget]
  | some old =>
    obtain ⟨hold, hkey⟩ := Table.get_eq_some_iff.1 hget
    rw [Table.rows_upsert_of_get_ne_none (by rw [hget]; exact Option.some_ne_none old)]
    obtain ⟨before, later, hrows⟩ := List.append_of_mem hold
    have hnodup := T.nodup
    rw [hrows, List.map_append, List.map_cons, List.nodup_append, List.nodup_cons] at hnodup
    have hothers : ∀ rows : List ρ, (∀ r' ∈ rows, key r' ≠ key r) →
        rows.map (fun r' => if key r' = key r then r else r') = rows := by
      intro rows hne
      apply (List.map_congr_left fun r' hr' => ?_).trans (List.map_id rows)
      exact if_neg (hne r' hr')
    have hbefore : ∀ r' ∈ before, key r' ≠ key r := by
      intro r' hr' heq
      exact hnodup.2.2 _ (List.mem_map_of_mem hr') _ List.mem_cons_self (heq.trans hkey.symm)
    have hlater : ∀ r' ∈ later, key r' ≠ key r := by
      intro r' hr' heq
      exact hnodup.2.1.1 (hkey ▸ heq ▸ List.mem_map_of_mem hr')
    rw [hrows, List.map_append, List.map_cons, hothers before hbefore, hothers later hlater,
      if_pos hkey]
    simp only [List.map_append, List.map_cons, List.sum_append, List.sum_cons, Option.map_some,
      Option.getD_some]
    omega

/-- The bytes are counted, whatever the indices and the repetitions. -/
def Assembly.Counted (asm : Assembly) : Prop :=
  asm.bytes = (asm.chunks.rows.map fun r => r.2.length).sum

theorem Assembly.counted_fresh (m : MsgSnapshot) : (fresh m).Counted := rfl

theorem Assembly.Counted.add {asm : Assembly} (h : asm.Counted) (m : MsgSnapshot) :
    (asm.add m).Counted := by
  have hsum := sum_upsert asm.chunks (m.chunk, m.data) fun r => r.2.length
  rw [Counted] at h ⊢
  have hold : (asm.sub.dataAt m.chunk).length =
      ((asm.chunks.get m.chunk).map fun r => r.2.length).getD 0 := by
    rw [ClientSub.dataAt, sub]
    cases asm.chunks.get m.chunk with
    | none => rfl
    | some r => rfl
  rw [Assembly.add, hold, h]
  dsimp only at hsum ⊢
  omega

namespace SnapshotHub

variable {env : Env} {limit : Nat} {hub : SnapshotHub}

/-- An assembly is incomplete, and its bytes are within the bound. -/
def Bounded (limit : Nat) (asm : Assembly) : Prop :=
  asm.Counted ∧ asm.bytes ≤ limit ∧ asm.chunks.rows.length < asm.of

theorem counted_assemblyFor (h : ∀ a ∈ hub.assemblies.rows, Bounded limit a.2) (key : String)
    (m : MsgSnapshot) : (hub.assemblyFor key m).Counted := by
  rw [assemblyFor]
  split
  next => exact Assembly.counted_fresh m
  next asm hget =>
    split
    next => exact Assembly.counted_fresh m
    next => exact (h _ (Table.get_eq_some_iff.1 hget).1).1

theorem handle_bounded (h : ∀ a ∈ hub.assemblies.rows, Bounded limit a.2) (event : Event) :
    ∀ a ∈ (hub.handle env limit event).1.assemblies.rows, Bounded limit a.2 := by
  cases event with
  | offer v wants m =>
    rw [handle, handleOffer]
    split
    next => exact h
    next =>
      split
      next => exact h
      next =>
        split
        next => exact h
        next => exact h
  | chunk peerId m =>
    have hdelete : ∀ a ∈ (hub.assemblies.delete (assemblyKey peerId m.topic)).rows,
        Bounded limit a.2 := fun a ha => h a (List.mem_of_mem_filter ha)
    rw [handle, handleChunk]
    split
    next => exact hdelete
    next hfits =>
      split
      next hmissing =>
        intro a ha
        rcases Table.mem_upsert.1 ha with rfl | ⟨ha, -⟩
        · exact ⟨(counted_assemblyFor h _ m).add m, Nat.le_of_not_lt hfits, hmissing⟩
        · exact h a ha
      next => exact hdelete

/-- What is adopted has the hash that the chunk names. -/
theorem handle_adopt {raw : JsString} {peerId : String} {m : MsgSnapshot}
    (h : (hub.handle env limit (.chunk peerId m)).2 = .adopt raw) :
    sha256HexUtf8 env raw = m.snapshotId := by
  rw [handle, handleChunk] at h
  split at h
  next => cases h
  next =>
    split at h
    next => cases h
    next =>
      rw [Assembly.finish] at h
      dsimp only at h
      split at h
      next => cases h
      next =>
        split at h
        next => cases h
        next heq =>
          cases h
          exact not_not.1 heq

theorem handle_wellFormed {raw : JsString} {event : Event}
    (h : (hub.handle env limit event).2 = .adopt raw) : isWellFormed raw = true := by
  cases event with
  | offer v wants m =>
    rw [handle, handleOffer] at h
    split at h
    next => cases h
    next =>
      split at h
      next => cases h
      next => split at h <;> cases h
  | chunk peerId m =>
    rw [handle, handleChunk] at h
    split at h
    next => cases h
    next =>
      split at h
      next => cases h
      next =>
        rw [Assembly.finish] at h
        split at h
        next => cases h
        next =>
          split at h
          next => cases h
          next =>
            cases h
            exact wellFormed_textDecode _

theorem handleAll_bounded (h : ∀ a ∈ hub.assemblies.rows, Bounded limit a.2)
    (events : List Event) :
    ∀ a ∈ (hub.handleAll env limit events).1.assemblies.rows, Bounded limit a.2 := by
  induction events generalizing hub with
  | nil => exact h
  | cons event events ih => exact ih (handle_bounded h event)

theorem handleAll_adopt {raw : JsString} {peerId : String} {m : MsgSnapshot} {events : List Event}
    (h : (Event.chunk peerId m, .adopt raw) ∈ events.zip (hub.handleAll env limit events).2) :
    sha256HexUtf8 env raw = m.snapshotId ∧ isWellFormed raw = true := by
  induction events generalizing hub with
  | nil => cases h
  | cons event events ih =>
    rw [handleAll, List.zip_cons_cons] at h
    rcases List.mem_cons.1 h with h | h
    · obtain ⟨rfl, hadopt⟩ := Prod.mk.inj h
      exact ⟨handle_adopt hadopt.symm, handle_wellFormed hadopt.symm⟩
    · exact ih h

/-! One peer's snapshot among the messages of all others. -/

/-- The event is a chunk of a peer for a topic. -/
def Event.hits (key : String) : Event → Bool
  | .offer .. => false
  | .chunk peerId m => decide (assemblyKey peerId m.topic = key)

/-- Messages of other peers and topics leave an assembly as it is. -/
theorem handle_other {key : String} {event : Event} (h : event.hits key = false) :
    (hub.handle env limit event).1.assemblies.get key = hub.assemblies.get key := by
  cases event with
  | offer v wants m =>
    rw [handle, handleOffer]
    split
    next => rfl
    next =>
      split
      next => rfl
      next => split <;> rfl
  | chunk peerId m =>
    have hne : assemblyKey peerId m.topic ≠ key := of_decide_eq_false h
    have hdelete : (hub.assemblies.delete (assemblyKey peerId m.topic)).get key =
        hub.assemblies.get key := by
      rw [Table.get_delete, if_neg hne]
    rw [handle, handleChunk]
    split
    next => exact hdelete
    next =>
      split
      next =>
        dsimp only
        rw [Table.get_upsert, if_neg hne]
      next => exact hdelete

end SnapshotHub

section
variable {env : SubEnv} {limit : Nat} {hub : SnapshotHub} {topic : Topic} {raw : JsString}
  {key : String}

/-- A chunk of the snapshot that is stored as `raw`. -/
def snapshotFrame (env : SubEnv) (topic : Topic) (raw : JsString) (chunk : Nat) : MsgSnapshot where
  topic := topic
  snapshotId := sha256HexUtf8 env.env raw
  chunk := chunk
  of := snapCount (Serving.rawChunkBudget env) (utf8 raw)
  data := b64encode (snapChunk (Serving.rawChunkBudget env) (utf8 raw) chunk)
  totalHash := some (sha256HexUtf8 env.env raw)

theorem handleGet_frames (env : SubEnv) (topic : Topic) (raw : JsString)
    (wants : List (String × String)) :
    handleGet env (some raw) ⟨topic, sha256HexUtf8 env.env raw, wants⟩ =
      (List.range' 1 (snapCount (Serving.rawChunkBudget env) (utf8 raw))).map
        (snapshotFrame env topic raw) := by
  rw [handleGet]
  exact if_neg fun h => h rfl

/-- They are the frames that the data lane is shown to carry. -/
theorem handleGet_body (env : SubEnv) (raw : JsString) (topic : Topic)
    (wants : List (String × String)) :
    (handleGet env (some raw) ⟨topic, sha256HexUtf8 env.env raw, wants⟩).map MsgSnapshot.body =
      snapshotFrames env topic raw := by
  rw [handleGet_frames, List.map_map]
  rfl

/-- The chunks `cs` of the snapshot have come, and the next one finds no others. -/
def Collecting (env : SubEnv) (raw : JsString) (key : String) (cs : List Nat)
    (hub : SnapshotHub) : Prop :=
  ∀ topic chunk, Gathered (snapCount (Serving.rawChunkBudget env) (utf8 raw)) []
    (fun c => b64encode (snapChunk (Serving.rawChunkBudget env) (utf8 raw) c)) cs
    (hub.assemblyFor key (snapshotFrame env topic raw chunk)).sub

/-- No chunk that the hub holds can be taken for one of the snapshot. -/
def SnapshotHub.Clear (hub : SnapshotHub) (key : String) (snapshotId : Chain) : Prop :=
  ∀ a, hub.assemblies.get key = some a → a.2.snapshotId ≠ snapshotId

theorem SnapshotHub.Clear.collecting (h : hub.Clear key (sha256HexUtf8 env.env raw)) :
    Collecting env raw key [] hub := by
  intro topic chunk
  have hfresh : hub.assemblyFor key (snapshotFrame env topic raw chunk) =
      .fresh (snapshotFrame env topic raw chunk) := by
    rw [assemblyFor]
    split
    next => rfl
    next k asm hget => exact if_pos (h (k, asm) hget)
  rw [hfresh]
  exact ⟨rfl, rfl, by simp [Assembly.fresh, Assembly.sub, Table.empty], rfl⟩

/-- What is held depends on one assembly. -/
theorem Collecting.congr {cs : List Nat} {hub' : SnapshotHub} (h : Collecting env raw key cs hub)
    (heq : hub'.assemblies.get key = hub.assemblies.get key) :
    Collecting env raw key cs hub' := by
  intro topic chunk
  rw [SnapshotHub.assemblyFor, heq]
  exact h topic chunk

theorem snapshotId_assemblyFor (hub : SnapshotHub) (key : String) (m : MsgSnapshot) :
    (hub.assemblyFor key m).snapshotId = m.snapshotId := by
  rw [SnapshotHub.assemblyFor]
  split
  next => rfl
  next =>
    split
    next => rfl
    next heq => exact not_not.1 heq

/-- The chunks of the whole text come to it. -/
theorem finish_gathered {cs : List Nat} {asm : Assembly}
    (h : Gathered (snapCount (Serving.rawChunkBudget env) (utf8 raw)) []
      (fun c => b64encode (snapChunk (Serving.rawChunkBudget env) (utf8 raw) c)) cs asm.sub)
    (hall : ∀ c, 1 ≤ c → c ≤ snapCount (Serving.rawChunkBudget env) (utf8 raw) → c ∈ cs)
    (hpos : 0 < Serving.rawChunkBudget env) (hwf : isWellFormed raw = true)
    (hmark : (codePoints raw).head? ≠ some 0xFEFF)
    (htotal : asm.totalHash = some (sha256HexUtf8 env.env raw)) :
    asm.finish env.env (sha256HexUtf8 env.env raw) = .adopt raw := by
  have hbytes : asm.sub.assemble asm.of = utf8 raw := by
    have hof : asm.of = snapCount (Serving.rawChunkBudget env) (utf8 raw) := h.chunksOf
    rw [← @flatMap_snapChunks _ (utf8 raw) hpos, ClientSub.assemble, hof, List.flatMap_def,
      List.flatMap_def]
    congr 1
    apply List.map_congr_left
    intro c hc
    have hrange := List.mem_range'_1.1 hc
    rw [h.dataAt, if_pos (hall c hrange.1 (by omega)), b64decode_b64encode]
  rw [Assembly.finish, hbytes, textDecode_utf8 hwf hmark, htotal]
  simp

/-- A chunk waits for those that are missing; the last one brings the text. -/
theorem Collecting.chunk {cs : List Nat} {peerId : String} {c : Nat}
    (h : Collecting env raw (assemblyKey peerId topic) cs hub)
    (hpos : 0 < Serving.rawChunkBudget env) (hwf : isWellFormed raw = true)
    (hmark : (codePoints raw).head? ≠ some 0xFEFF)
    (hfits : snapBytes (Serving.rawChunkBudget env) (utf8 raw) ≤ limit)
    (hcs : ∀ c' ∈ c :: cs, 1 ≤ c' ∧ c' ≤ snapCount (Serving.rawChunkBudget env) (utf8 raw)) :
    ((∃ c', 1 ≤ c' ∧ c' ≤ snapCount (Serving.rawChunkBudget env) (utf8 raw) ∧ c' ∉ c :: cs) →
      (hub.handle env.env limit (.chunk peerId (snapshotFrame env topic raw c))).2 = .waiting ∧
        Collecting env raw (assemblyKey peerId topic) (c :: cs)
          (hub.handle env.env limit (.chunk peerId (snapshotFrame env topic raw c))).1) ∧
    ((∀ c', 1 ≤ c' → c' ≤ snapCount (Serving.rawChunkBudget env) (utf8 raw) → c' ∈ c :: cs) →
      (hub.handle env.env limit (.chunk peerId (snapshotFrame env topic raw c))).2 =
        .adopt raw) := by
  let m := snapshotFrame env topic raw c
  let asm := (hub.assemblyFor (assemblyKey peerId topic) m).add m
  have hgathered : Gathered (snapCount (Serving.rawChunkBudget env) (utf8 raw)) []
      (fun c => b64encode (snapChunk (Serving.rawChunkBudget env) (utf8 raw) c)) (c :: cs)
      asm.sub := (h topic c).add c
  have hid : asm.snapshotId = sha256HexUtf8 env.env raw := snapshotId_assemblyFor hub _ m
  have hof : asm.of = snapCount (Serving.rawChunkBudget env) (utf8 raw) := hgathered.chunksOf
  have hsize := hgathered.size hcs
  have hin : ¬ asm.bytes > limit := Nat.not_lt.2 ((hgathered.bytes_le hcs).trans hfits)
  have hchunk : hub.handle env.env limit (.chunk peerId m) =
      if asm.bytes > limit then
        ({ assemblies := hub.assemblies.delete (assemblyKey peerId topic),
           requested := hub.requested.erase m.snapshotId }, .overflow)
      else if asm.chunks.rows.length < asm.of then
        ({ hub with assemblies := hub.assemblies.upsert (assemblyKey peerId topic, asm) }, .waiting)
      else
        ({ hub with assemblies := hub.assemblies.delete (assemblyKey peerId topic) },
          asm.finish env.env m.snapshotId) := rfl
  rw [if_neg hin] at hchunk
  rw [show snapshotFrame env topic raw c = m from rfl, hchunk]
  constructor
  · intro hmissing
    have hlt : asm.chunks.rows.length < asm.of := hof ▸ hsize.2 hmissing
    rw [if_pos hlt]
    refine ⟨rfl, fun topic' chunk => ?_⟩
    have hsame : SnapshotHub.assemblyFor
        { hub with assemblies := hub.assemblies.upsert (assemblyKey peerId topic, asm) }
        (assemblyKey peerId topic) (snapshotFrame env topic' raw chunk) = asm := by
      rw [SnapshotHub.assemblyFor]
      dsimp only
      rw [Table.get_upsert, if_pos rfl]
      exact if_neg fun hne => hne hid
    rw [hsame]
    exact hgathered
  · intro hall
    have hfull : ¬ asm.chunks.rows.length < asm.of := by
      intro hlt
      obtain ⟨c', hone, hle, hnot⟩ := hsize.1 (hof ▸ hlt)
      exact hnot (hall c' hone hle)
    rw [if_neg hfull]
    exact finish_gathered hgathered hall hpos hwf hmark rfl

/-- Chunks of the snapshot, of which some are missing, among messages of other peers and topics. -/
theorem handleAll_collecting {seen cs : List Nat} {peerId : String}
    {events : List SnapshotHub.Event} (h : Collecting env raw (assemblyKey peerId topic) seen hub)
    (hpos : 0 < Serving.rawChunkBudget env) (hwf : isWellFormed raw = true)
    (hmark : (codePoints raw).head? ≠ some 0xFEFF)
    (hfits : snapBytes (Serving.rawChunkBudget env) (utf8 raw) ≤ limit)
    (hevents : events.filter (SnapshotHub.Event.hits (assemblyKey peerId topic)) =
      cs.map fun c => .chunk peerId (snapshotFrame env topic raw c))
    (hcs : ∀ c ∈ seen ++ cs, 1 ≤ c ∧ c ≤ snapCount (Serving.rawChunkBudget env) (utf8 raw))
    (hmissing : ∃ c, 1 ≤ c ∧ c ≤ snapCount (Serving.rawChunkBudget env) (utf8 raw) ∧
      c ∉ seen ++ cs) :
    (∀ x ∈ events.zip (hub.handleAll env.env limit events).2,
      x.1.hits (assemblyKey peerId topic) = true → x.2 = .waiting) ∧
    ∃ seen' : List Nat, (∀ c, c ∈ seen' ↔ c ∈ seen ++ cs) ∧
      Collecting env raw (assemblyKey peerId topic) seen' (hub.handleAll env.env limit events).1 := by
  induction events generalizing hub seen cs with
  | nil =>
    have hnil : cs = [] := List.map_eq_nil_iff.1 hevents.symm
    subst hnil
    exact ⟨fun x hx => absurd hx List.not_mem_nil, seen, fun c => by rw [List.append_nil], h⟩
  | cons event events ih =>
    rw [SnapshotHub.handleAll, List.zip_cons_cons]
    cases hhits : event.hits (assemblyKey peerId topic) with
    | false =>
      rw [List.filter_cons_of_neg (by rw [hhits]; exact Bool.false_ne_true)] at hevents
      obtain ⟨hwaiting, hend⟩ := ih (h.congr (SnapshotHub.handle_other hhits)) hevents hcs hmissing
      refine ⟨?_, hend⟩
      intro x hx hxhits
      rcases List.mem_cons.1 hx with rfl | hx
      · exact absurd (hhits.symm.trans hxhits) Bool.false_ne_true
      · exact hwaiting x hx hxhits
    | true =>
      rw [List.filter_cons_of_pos hhits] at hevents
      cases cs with
      | nil => cases hevents
      | cons c cs =>
        rw [List.map_cons, List.cons.injEq] at hevents
        obtain ⟨rfl, hevents⟩ := hevents
        have hmem : ∀ c', c' ∈ (c :: seen) ++ cs ↔ c' ∈ seen ++ c :: cs := by
          intro c'
          simp only [List.mem_append, List.mem_cons]
          tauto
        obtain ⟨c₀, hone, hle, hnot⟩ := hmissing
        obtain ⟨hwait, hnext⟩ := (h.chunk hpos hwf hmark hfits fun c' hc' =>
          hcs c' ((hmem c').1 (List.mem_append_left _ hc'))).1 ⟨c₀, hone, hle, fun hc =>
            hnot ((hmem c₀).1 (List.mem_append_left _ hc))⟩
        obtain ⟨hwaiting, seen', hseen, hend⟩ := ih hnext hevents
          (fun c' hc' => hcs c' ((hmem c').1 hc')) ⟨c₀, hone, hle, fun hc => hnot ((hmem c₀).1 hc)⟩
        refine ⟨?_, seen', fun c' => (hseen c').trans (hmem c'), hend⟩
        intro x hx hxhits
        rcases List.mem_cons.1 hx with rfl | hx
        · exact hwait
        · exact hwaiting x hx hxhits

end

/-- An object's text starts with its brace. -/
theorem no_mark_canonicalText (num : NumberText) (members : List (JsString × JsonValue)) :
    (codePoints (canonicalText num (.obj members))).head? ≠ some 0xFEFF := by
  have hbrace : ∀ s : JsString, codePoints (js "\x7b" ++ s) = 123 :: codePoints s :=
    fun s => codePoints_unit (u := 123) (fun h => absurd h.1 (by decide))
      (fun h => absurd h.1 (by decide))
  rw [canonicalText_eq, JsonValue.sorted, jsonText, joined, List.append_assoc, hbrace]
  simp

/-- Whatever the peers send, each holds at most one unfinished assembly for a topic, whose bytes
are counted and bounded, and the text that is adopted is the one that its id stands for, or one
that collides with it. -/
theorem snapshot_reassembly_safe (env : Env) (limit : Nat) (events : List SnapshotHub.Event) :
    let r := SnapshotHub.empty.handleAll env limit events
    (∀ a ∈ r.1.assemblies.rows, a.2.bytes = (a.2.chunks.rows.map fun c => c.2.length).sum ∧
      a.2.bytes ≤ limit ∧ a.2.chunks.rows.length < a.2.of) ∧
    ∀ peerId m raw, (.chunk peerId m, .adopt raw) ∈ events.zip r.2 →
      sha256HexUtf8 env raw = m.snapshotId ∧
      ∀ stored, isWellFormed stored = true → sha256HexUtf8 env stored = m.snapshotId →
        raw = stored ∨ Collide env (utf8 raw) (utf8 stored) := by
  refine ⟨SnapshotHub.handleAll_bounded (fun a ha => absurd ha List.not_mem_nil) events, ?_⟩
  intro peerId m raw hadopt
  obtain ⟨hid, hwf⟩ := SnapshotHub.handleAll_adopt hadopt
  refine ⟨hid, fun stored hstored hsame => ?_⟩
  by_cases hbytes : utf8 raw = utf8 stored
  · exact .inl (utf8_inj hwf hstored hbytes)
  · exact .inr ⟨hbytes, hid.trans hsame.symm⟩

/-- Frames that take one byte of a snapshot each. -/
def tinyFrames : SubEnv where
  env := { decimalEnv "a" with constants := { MAX_FRAME_BYTES := 3 } }
  stringify := jsonText decimalNumbers.toNumberText
  SUB_DELTA_RETAIN := 256
  registers := false

/-- Another peer's chunk of the same snapshot. -/
def strayChunk : SnapshotHub.Event :=
  .chunk "q" (snapshotFrame tinyFrames "t" (tinyFrames.env.jcs (.obj [])) 1)

end Seqscribe
