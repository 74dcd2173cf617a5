import Mathlib.Data.List.Perm.Subperm
import Mathlib.Algebra.Order.BigOperators.Group.List
import Mathlib.Algebra.Order.Ring.Nat
import Seqscribe.Base64
import Seqscribe.SubGaps

namespace Seqscribe
set_option autoImplicit true

/-! The chunks of a SNAP, from the body to the frames and back. -/

structure MsgSnap where
  subId : Nat
  chunk : Nat
  of : Nat
  data : JsString
  cursor : JsString
  reset : Bool

/-- What the reassembly of a subscription keeps. The chunks are a map from their indices. -/
structure ClientSub where
  cursor : Option JsString
  chunks : Table Nat (Nat × JsString) Prod.fst
  chunksOf : Nat
  chunkBytes : Nat
  chunkCursor : JsString
  chunkReset : Bool

/-- What a SNAP frame comes to: chunks are missing, the bound is exceeded, which closes the
session, or the body goes to the parser. -/
inductive SnapOutcome where
  | waiting
  | overflow
  | badBody (total : List UInt8)
  | snapshot (total : List UInt8) (rows : List JsonValue) (reset : Bool)

/-- The reassembled body. -/
def SnapOutcome.total : SnapOutcome → Option (List UInt8)
  | .waiting | .overflow => none
  | .badBody total => some total
  | .snapshot total _ _ => some total

namespace ClientSub

/-- `subscribe`. -/
def fresh (fromCursor : Option JsString) : ClientSub where
  cursor := fromCursor
  chunks := .empty
  chunksOf := 0
  chunkBytes := 0
  chunkCursor := []
  chunkReset := false

def dataAt (sub : ClientSub) (chunk : Nat) : JsString :=
  ((sub.chunks.get chunk).map Prod.snd).getD []

/-- A frame of another SNAP drops what has come of the last one. -/
def restartWith (sub : ClientSub) (m : MsgSnap) : ClientSub :=
  if m.of ≠ sub.chunksOf ∨ m.cursor ≠ sub.chunkCursor then
    { sub with
      chunks := .empty, chunkBytes := 0, chunksOf := m.of, chunkCursor := m.cursor,
      chunkReset := m.reset }
  else sub

def discard (sub : ClientSub) : ClientSub :=
  { sub with chunks := .empty, chunksOf := 0, chunkBytes := 0 }

def assemble (sub : ClientSub) (count : Nat) : List UInt8 :=
  (List.range' 1 count).flatMap fun chunk => b64decode (sub.dataAt chunk)

/-- `parse` is `JSON.parse` of the decoded text, where it gives an array. -/
def handleSnap (MAX_REASSEMBLY_BYTES : Nat) (parse : List UInt8 → Option (List JsonValue))
    (sub : ClientSub) (m : MsgSnap) : ClientSub × SnapOutcome :=
  let sub := sub.restartWith m
  let chunkBytes := sub.chunkBytes + m.data.length - (sub.dataAt m.chunk).length
  if chunkBytes > MAX_REASSEMBLY_BYTES then (sub.discard, .overflow)
  else
    let sub := { sub with chunkBytes := chunkBytes, chunks := sub.chunks.upsert (m.chunk, m.data) }
    if sub.chunks.rows.length < m.of then (sub, .waiting)
    else
      let total := sub.assemble m.of
      match parse total with
      | none => (sub.discard, .badBody total)
      | some rows =>
        ({ sub.discard with cursor := some m.cursor }, .snapshot total rows sub.chunkReset)

/-- The outcomes of frames that come one after another. -/
def handleSnaps (MAX_REASSEMBLY_BYTES : Nat) (parse : List UInt8 → Option (List JsonValue)) :
    ClientSub → List MsgSnap → ClientSub × List SnapOutcome
  | sub, [] => (sub, [])
  | sub, m :: ms =>
    let r := sub.handleSnap MAX_REASSEMBLY_BYTES parse m
    let rest := handleSnaps MAX_REASSEMBLY_BYTES parse r.1 ms
    (rest.1, r.2 :: rest.2)

end ClientSub

/-- `Math.max(1, Math.ceil(body.length / rawBudget))`. -/
def snapCount (rawBudget : Nat) (body : List UInt8) : Nat :=
  max 1 ((body.length + rawBudget - 1) / rawBudget)

/-- `s.body.subarray((chunk - 1) * rawBudget, chunk * rawBudget)`. -/
def snapChunk (rawBudget : Nat) (body : List UInt8) (chunk : Nat) : List UInt8 :=
  (body.drop ((chunk - 1) * rawBudget)).take rawBudget

/-- The frame that `pumpSnap` makes of a chunk. -/
def snapFrame (rawBudget subId : Nat) (body : List UInt8) (cursor : JsString) (chunk : Nat) :
    MsgSnap where
  subId := subId
  chunk := chunk
  of := snapCount rawBudget body
  data := b64encode (snapChunk rawBudget body chunk)
  cursor := cursor
  reset := true

/-- The base64 of all chunks. -/
def snapBytes (rawBudget : Nat) (body : List UInt8) : Nat :=
  ((List.range' 1 (snapCount rawBudget body)).map fun chunk =>
    (b64encode (snapChunk rawBudget body chunk)).length).sum

namespace Serving

variable {env : SubEnv} {s : SnapOut} {x : Serving}

def chunkEvent (env : SubEnv) (s : SnapOut) (chunk : Nat) : SubEvent :=
  .snap chunk s.count (snapChunk (rawChunkBudget env) s.body chunk) s.cursor

/-- The chunks that go out in one go are the next ones. -/
theorem pumpChunks_events (left : Nat) (s : SnapOut) (x : Serving) : ∃ k ≤ left,
    (pumpChunks env left s x).1 = { s with next := s.next + k } ∧
    (pumpChunks env left s x).2.state = { x.state with
      events := x.state.events ++ (List.range' s.next k).map (chunkEvent env s) } := by
  induction left generalizing s x with
  | zero => exact ⟨0, Nat.le_refl 0, rfl, by simp [pumpChunks]⟩
  | succ left ih =>
    rw [pumpChunks]
    split
    next y hroom => exact ⟨0, Nat.zero_le _, rfl, by simp [hasRoom_state hroom]⟩
    next y hroom =>
      have hy := hasRoom_state hroom
      dsimp only
      split
      next z hsend => exact ⟨0, Nat.zero_le _, rfl, by simp [sendData_refused hsend, hy]⟩
      next z hsend =>
        obtain ⟨k, hk, hnext, hstate⟩ := ih { s with next := s.next + 1 } z
        refine ⟨k + 1, Nat.succ_le_succ hk, ?_, ?_⟩
        · rw [hnext]
          simp only [SnapOut.mk.injEq, and_self, and_true, true_and]
          omega
        · rw [hstate, sendData_ok hsend, hy, List.range'_succ]
          simp [chunkEvent, snapChunk]

end Serving

/-- A SNAP event on the wire. -/
def SubEvent.wire (env : SubEnv) (subId : Nat) : SubEvent → Option MsgSnap
  | .snap chunk count data cursor =>
    some ⟨subId, chunk, count, b64encode data, encodeCursor env cursor, true⟩
  | _ => none

/-- The chunks that `tryStartSnap` starts to send are the frames of its body. -/
theorem wire_chunkEvent {env : SubEnv} {s : SnapOut}
    (hcount : s.count = snapCount (Serving.rawChunkBudget env) s.body) (subId chunk : Nat) :
    (Serving.chunkEvent env s chunk).wire env subId =
      some (snapFrame (Serving.rawChunkBudget env) subId s.body (encodeCursor env s.cursor)
        chunk) := by
  rw [Serving.chunkEvent, SubEvent.wire, hcount]
  rfl

variable {rawBudget : Nat} {body : List UInt8}

theorem length_le_snapCount (hpos : 0 < rawBudget) :
    body.length ≤ snapCount rawBudget body * rawBudget := by
  rw [snapCount]
  have hdiv : body.length ≤ (body.length + rawBudget - 1) / rawBudget * rawBudget := by
    have := Nat.div_add_mod (body.length + rawBudget - 1) rawBudget
    have := Nat.mod_lt (body.length + rawBudget - 1) hpos
    rw [Nat.mul_comm]
    omega
  exact hdiv.trans (Nat.mul_le_mul_right _ (Nat.le_max_right ..))

/-- Consecutive chunks are a stretch of the body. -/
theorem flatMap_snapChunk (rawBudget : Nat) (body : List UInt8) (chunk n : Nat) :
    (List.range' (chunk + 1) n).flatMap (snapChunk rawBudget body) =
      (body.drop (chunk * rawBudget)).take (n * rawBudget) := by
  induction n generalizing chunk with
  | zero => simp
  | succ n ih =>
    rw [List.range'_succ, List.flatMap_cons, ih, snapChunk, Nat.add_sub_cancel, Nat.add_mul n,
      Nat.one_mul, Nat.add_comm (n * rawBudget), List.take_add, List.drop_drop, Nat.add_mul,
      Nat.one_mul]

theorem flatMap_snapChunks (hpos : 0 < rawBudget) :
    (List.range' 1 (snapCount rawBudget body)).flatMap (snapChunk rawBudget body) = body := by
  have h := flatMap_snapChunk rawBudget body 0 (snapCount rawBudget body)
  rw [Nat.zero_add, Nat.zero_mul, List.drop_zero,
    List.take_of_length_le (length_le_snapCount hpos)] at h
  exact h

/-- Padding apart, the chunks are as long as the whole. -/
theorem snapBytes_of_dvd (hpos : 0 < rawBudget) (hdvd : 3 ∣ rawBudget) :
    snapBytes rawBudget body = (b64encode body).length := by
  have hstretch : ∀ n chunk, ((List.range' (chunk + 1) n).map fun c =>
      (b64encode (snapChunk rawBudget body c)).length).sum =
        (b64encode ((body.drop (chunk * rawBudget)).take (n * rawBudget))).length := by
    intro n
    induction n with
    | zero => simp [b64encode]
    | succ n ih =>
      intro chunk
      have hmod : rawBudget % 3 = 0 := Nat.mod_eq_zero_of_dvd hdvd
      have hmod' : n * rawBudget % 3 = 0 := by
        rw [Nat.mul_mod, hmod, Nat.mul_zero, Nat.zero_mod]
      rw [List.range'_succ, List.map_cons, List.sum_cons, ih]
      simp only [length_b64encode, snapChunk, List.length_take, List.length_drop,
        Nat.add_sub_cancel, Nat.add_mul, Nat.one_mul]
      omega
  have h := hstretch (snapCount rawBudget body) 0
  rw [Nat.zero_add, Nat.zero_mul, List.drop_zero,
    List.take_of_length_le (length_le_snapCount hpos)] at h
  exact h

/-! What the reassembly holds on the way. -/

/-- The chunks `cs` of a SNAP of `n` chunks have come, and no others. -/
structure Gathered (n : Nat) (cursor : JsString) (data : Nat → JsString) (cs : List Nat)
    (sub : ClientSub) : Prop where
  chunksOf : sub.chunksOf = n
  chunkCursor : sub.chunkCursor = cursor
  chunks : ∀ r, r ∈ sub.chunks.rows ↔ r.1 ∈ cs ∧ r.2 = data r.1
  bytes : sub.chunkBytes = (sub.chunks.rows.map fun r => r.2.length).sum

/-- No chunk that the reassembly holds can be taken for one of the SNAP. -/
def ClientSub.Clear (n : Nat) (cursor : JsString) (sub : ClientSub) : Prop :=
  sub.chunksOf ≠ n ∨ sub.chunkCursor ≠ cursor ∨ sub.chunks = .empty ∧ sub.chunkBytes = 0

section
variable {n limit : Nat} {cursor : JsString} {data : Nat → JsString} {cs : List Nat}
  {sub : ClientSub} {m : MsgSnap}

theorem ClientSub.Clear.restart (h : sub.Clear n cursor) (hof : m.of = n)
    (hcursor : m.cursor = cursor) : Gathered n cursor data [] (sub.restartWith m) := by
  rw [ClientSub.restartWith]
  split
  next => exact ⟨hof, hcursor, by simp [Table.empty], rfl⟩
  next hsame =>
    rw [not_or, ne_eq, ne_eq, not_not, not_not] at hsame
    obtain ⟨hempty, hbytes⟩ := (h.resolve_left (by rw [← hsame.1, hof]; exact fun h => h rfl)).resolve_left
      (by rw [← hsame.2, hcursor]; exact fun h => h rfl)
    refine ⟨hsame.1.symm.trans hof, hsame.2.symm.trans hcursor, ?_, ?_⟩
    · simp [hempty, Table.empty]
    · simp [hempty, hbytes, Table.empty]

theorem Gathered.restart (h : Gathered n cursor data cs sub) (hof : m.of = n)
    (hcursor : m.cursor = cursor) : sub.restartWith m = sub := by
  rw [ClientSub.restartWith, if_neg]
  rw [hof, hcursor, h.chunksOf, h.chunkCursor]
  simp

theorem Gathered.dataAt (h : Gathered n cursor data cs sub) (c : Nat) :
    sub.dataAt c = if c ∈ cs then data c else [] := by
  rw [ClientSub.dataAt]
  cases hget : sub.chunks.get c with
  | none =>
    split
    next hc =>
      have hmem : (c, data c) ∈ sub.chunks.rows := (h.chunks _).2 ⟨hc, rfl⟩
      exact absurd rfl (Table.get_eq_none_iff.1 hget _ hmem)
    next => rfl
  | some r =>
    obtain ⟨hr, rfl⟩ := Table.get_eq_some_iff.1 hget
    obtain ⟨hc, hdata⟩ := (h.chunks r).1 hr
    rw [if_pos hc, ← hdata]
    rfl

/-- A chunk joins the others, once. -/
theorem Gathered.add (h : Gathered n cursor data cs sub) (c : Nat) :
    Gathered n cursor data (c :: cs) { sub with
      chunkBytes := sub.chunkBytes + (data c).length - (sub.dataAt c).length
      chunks := sub.chunks.upsert (c, data c) } := by
  have hmem : ∀ r, r ∈ (sub.chunks.upsert (c, data c)).rows ↔ r.1 ∈ c :: cs ∧ r.2 = data r.1 := by
    intro r
    rw [Table.mem_upsert, h.chunks, List.mem_cons]
    constructor
    · rintro (rfl | ⟨⟨hc, hdata⟩, -⟩)
      · exact ⟨.inl rfl, rfl⟩
      · exact ⟨.inr hc, hdata⟩
    · rintro ⟨hc, hdata⟩
      by_cases heq : r.1 = c
      · exact .inl (Prod.ext heq (hdata.trans (congrArg data heq)))
      · exact .inr ⟨⟨hc.resolve_left heq, hdata⟩, heq⟩
  refine ⟨h.chunksOf, h.chunkCursor, hmem, ?_⟩
  dsimp only
  rw [h.dataAt, h.bytes]
  cases hget : sub.chunks.get c with
  | none =>
    have hc : c ∉ cs := by
      intro hc
      have hrow : (c, data c) ∈ sub.chunks.rows := (h.chunks _).2 ⟨hc, rfl⟩
      exact Table.get_eq_none_iff.1 hget _ hrow rfl
    rw [if_neg hc, Table.rows_upsert_of_get_eq_none hget]
    simp
  | some r =>
    obtain ⟨hr, hrc⟩ := Table.get_eq_some_iff.1 hget
    have hc : c ∈ cs := hrc ▸ ((h.chunks r).1 hr).1
    have hsame : (sub.chunks.rows.map fun r => if r.1 = c then (c, data c) else r) =
        sub.chunks.rows := by
      conv_rhs => rw [← List.map_id sub.chunks.rows]
      apply List.map_congr_left
      intro r' hr'
      split
      next heq =>
        obtain rfl := heq
        exact Prod.ext rfl ((h.chunks r').1 hr').2.symm
      next => rfl
    rw [if_pos hc, Table.rows_upsert_of_get_ne_none (by rw [hget]; exact Option.some_ne_none r)]
    dsimp only
    rw [hsame]
    omega

/-- What has come are some of the chunks. -/
theorem Gathered.subperm (h : Gathered n cursor data cs sub) (hcs : ∀ c ∈ cs, 1 ≤ c ∧ c ≤ n) :
    (sub.chunks.rows.map Prod.fst).Subperm (List.range' 1 n) := by
  apply List.subperm_of_subset sub.chunks.nodup
  intro c hc
  obtain ⟨r, hr, rfl⟩ := List.mem_map.1 hc
  have hin := hcs _ ((h.chunks r).1 hr).1
  exact List.mem_range'_1.2 ⟨hin.1, by omega⟩

theorem Gathered.size (h : Gathered n cursor data cs sub) (hcs : ∀ c ∈ cs, 1 ≤ c ∧ c ≤ n) :
    sub.chunks.rows.length < n ↔ ∃ c, 1 ≤ c ∧ c ≤ n ∧ c ∉ cs := by
  have hkeys : ∀ c, c ∈ sub.chunks.rows.map Prod.fst ↔ c ∈ cs := by
    intro c
    constructor
    · intro hc
      obtain ⟨r, hr, rfl⟩ := List.mem_map.1 hc
      exact ((h.chunks r).1 hr).1
    · intro hc
      exact List.mem_map.2 ⟨(c, data c), (h.chunks _).2 ⟨hc, rfl⟩, rfl⟩
  have hsub := h.subperm hcs
  constructor
  · intro hlt
    by_contra hall
    have hback : (List.range' 1 n).Subperm (sub.chunks.rows.map Prod.fst) := by
      apply List.subperm_of_subset List.nodup_range'
      intro c hc
      rw [hkeys]
      by_contra hnot
      have hin := List.mem_range'_1.1 hc
      exact hall ⟨c, hin.1, by omega, hnot⟩
    have hle := hback.length_le
    rw [List.length_range', List.length_map] at hle
    omega
  · rintro ⟨c, hone, hle, hnot⟩
    by_contra hge
    have hperm := hsub.perm_of_length_le (by rw [List.length_range', List.length_map]; omega)
    exact hnot ((hkeys c).1 (hperm.mem_iff.2 (List.mem_range'_1.2 ⟨hone, by omega⟩)))

/-- The chunks that have come are no longer than all of them. -/
theorem Gathered.bytes_le (h : Gathered n cursor data cs sub) (hcs : ∀ c ∈ cs, 1 ≤ c ∧ c ≤ n) :
    sub.chunkBytes ≤ ((List.range' 1 n).map fun c => (data c).length).sum := by
  obtain ⟨keys, hperm, hsub⟩ := h.subperm hcs
  have hrows : (sub.chunks.rows.map fun r => r.2.length) =
      (sub.chunks.rows.map Prod.fst).map fun c => (data c).length := by
    rw [List.map_map]
    apply List.map_congr_left
    intro r hr
    exact congrArg List.length ((h.chunks r).1 hr).2
  rw [h.bytes, hrows, ← (hperm.map _).sum_eq]
  exact (hsub.map _).sum_le_sum fun _ _ => Nat.zero_le _

/-- A chunk of the SNAP waits for those that are missing; the last one brings the body. -/
theorem Gathered.handleSnap (h : Gathered n cursor data cs (sub.restartWith m))
    (parse : List UInt8 → Option (List JsonValue)) (hof : m.of = n) (hdata : m.data = data m.chunk)
    (hcs : ∀ c ∈ m.chunk :: cs, 1 ≤ c ∧ c ≤ n)
    (hfits : ((List.range' 1 n).map fun c => (data c).length).sum ≤ limit) :
    ((∃ c, 1 ≤ c ∧ c ≤ n ∧ c ∉ m.chunk :: cs) →
      (sub.handleSnap limit parse m).2 = .waiting ∧
        Gathered n cursor data (m.chunk :: cs) (sub.handleSnap limit parse m).1) ∧
    ((∀ c, 1 ≤ c → c ≤ n → c ∈ m.chunk :: cs) →
      (sub.handleSnap limit parse m).2.total =
        some ((List.range' 1 n).flatMap fun c => b64decode (data c))) := by
  have hadd := h.add m.chunk
  rw [← hdata] at hadd
  have hsize := hadd.size hcs
  have hbytes := hadd.bytes_le hcs
  have hin : ¬ (sub.restartWith m).chunkBytes + m.data.length -
      ((sub.restartWith m).dataAt m.chunk).length > limit := Nat.not_lt.2 (hbytes.trans hfits)
  rw [ClientSub.handleSnap]
  dsimp only
  rw [if_neg hin]
  dsimp only at hsize
  rw [← hof] at hsize
  constructor
  · intro hmissing
    rw [if_pos (hsize.2 (hof ▸ hmissing))]
    exact ⟨rfl, hadd⟩
  · intro hall
    have hfull : ¬ ((sub.restartWith m).chunks.upsert (m.chunk, m.data)).rows.length < m.of := by
      rw [hsize]
      rintro ⟨c, hone, hle, hnot⟩
      exact hnot (hall c hone (hof ▸ hle))
    rw [if_neg hfull]
    have htotal : (({ sub.restartWith m with
        chunkBytes := (sub.restartWith m).chunkBytes + m.data.length -
          ((sub.restartWith m).dataAt m.chunk).length
        chunks := (sub.restartWith m).chunks.upsert (m.chunk, m.data) } : ClientSub).assemble m.of) =
        (List.range' 1 n).flatMap fun c => b64decode (data c) := by
      rw [ClientSub.assemble, hof, List.flatMap_def, List.flatMap_def]
      congr 1
      apply List.map_congr_left
      intro c hc
      have hrange := List.mem_range'_1.1 hc
      rw [hadd.dataAt, if_pos (hall c hrange.1 (by omega))]
    dsimp only at htotal ⊢
    rw [htotal]
    split <;> rfl

end

section
variable {limit : Nat} {cursor : JsString} {sub : ClientSub} {cs : List Nat}
  (subId : Nat) (parse : List UInt8 → Option (List JsonValue))

/-- Chunks of one SNAP, of which some are missing. -/
theorem handleSnaps_waiting (hclear : sub.Clear (snapCount rawBudget body) cursor)
    (hfits : snapBytes rawBudget body ≤ limit)
    (hcs : ∀ c ∈ cs, 1 ≤ c ∧ c ≤ snapCount rawBudget body)
    (hmissing : ∃ c, 1 ≤ c ∧ c ≤ snapCount rawBudget body ∧ c ∉ cs) (m : MsgSnap)
    (hof : m.of = snapCount rawBudget body) (hcursor : m.cursor = cursor) :
    (∀ o ∈ (sub.handleSnaps limit parse (cs.map (snapFrame rawBudget subId body cursor))).2,
      o = .waiting) ∧
    ∃ seen : List Nat, (∀ c, c ∈ seen ↔ c ∈ cs) ∧
      Gathered (snapCount rawBudget body) cursor
        (fun c => b64encode (snapChunk rawBudget body c)) seen
        ((sub.handleSnaps limit parse
          (cs.map (snapFrame rawBudget subId body cursor))).1.restartWith m) := by
  suffices h : ∀ (seen : List Nat) (sub : ClientSub),
      (∀ m : MsgSnap, m.of = snapCount rawBudget body → m.cursor = cursor →
        Gathered (snapCount rawBudget body) cursor
          (fun c => b64encode (snapChunk rawBudget body c)) seen (sub.restartWith m)) →
      (∀ c ∈ seen ++ cs, 1 ≤ c ∧ c ≤ snapCount rawBudget body) →
      (∃ c, 1 ≤ c ∧ c ≤ snapCount rawBudget body ∧ c ∉ seen ++ cs) →
      (∀ o ∈ (sub.handleSnaps limit parse (cs.map (snapFrame rawBudget subId body cursor))).2,
        o = .waiting) ∧
      ∃ seen' : List Nat, (∀ c, c ∈ seen' ↔ c ∈ seen ++ cs) ∧
        Gathered (snapCount rawBudget body) cursor
          (fun c => b64encode (snapChunk rawBudget body c)) seen'
          ((sub.handleSnaps limit parse
            (cs.map (snapFrame rawBudget subId body cursor))).1.restartWith m) from
    h [] sub (fun m hof hcursor => hclear.restart hof hcursor) hcs hmissing
  clear hcs hmissing hclear
  induction cs with
  | nil =>
    intro seen sub hat _ _
    exact ⟨nofun, seen, fun c => by rw [List.append_nil], hat m hof hcursor⟩
  | cons c cs ih =>
    intro seen sub hat hcs hmissing
    have hmem : ∀ c', c' ∈ (c :: seen) ++ cs ↔ c' ∈ seen ++ c :: cs := by
      intro c'
      simp only [List.mem_append, List.mem_cons]
      tauto
    have hstep := (hat (snapFrame rawBudget subId body cursor c) rfl rfl).handleSnap parse rfl rfl
      (fun c' hc' => hcs c' ((hmem c').1 (List.mem_append_left _ hc'))) hfits
    obtain ⟨c₀, hone, hle, hnot⟩ := hmissing
    obtain ⟨hwait, hgathered⟩ := hstep.1 ⟨c₀, hone, hle, fun hc =>
      hnot ((hmem c₀).1 (List.mem_append_left _ hc))⟩
    obtain ⟨hrest, seen', hseen, hend⟩ := ih (c :: seen) _
      (fun m hof hcursor => (hgathered.restart hof hcursor).symm ▸ hgathered)
      (fun c' hc' => hcs c' ((hmem c').1 hc')) ⟨c₀, hone, hle, fun hc => hnot ((hmem c₀).1 hc)⟩
    refine ⟨?_, seen', fun c' => (hseen c').trans (hmem c'), hend⟩
    intro o ho
    rcases List.mem_cons.1 ho with rfl | ho
    · exact hwait
    · exact hrest o ho

/-- Whatever the order and the repetitions, the chunks of a SNAP whose base64 fits wait until none
is missing, and then come to the body. -/
theorem snap_reassembled (hpos : 0 < rawBudget) (hfits : snapBytes rawBudget body ≤ limit)
    (hclear : sub.Clear (snapCount rawBudget body) cursor) :
    (∀ bytes, b64decode (b64encode bytes) = bytes) ∧
    (3 ∣ rawBudget → snapBytes rawBudget body = (b64encode body).length) ∧
    ∀ cs c, (∀ i ∈ c :: cs, 1 ≤ i ∧ i ≤ snapCount rawBudget body) →
      (∃ i, 1 ≤ i ∧ i ≤ snapCount rawBudget body ∧ i ∉ cs) →
      let r := sub.handleSnaps limit parse (cs.map (snapFrame rawBudget subId body cursor))
      let o := (r.1.handleSnap limit parse (snapFrame rawBudget subId body cursor c)).2
      (∀ o ∈ r.2, o = .waiting) ∧
        ((∃ i, 1 ≤ i ∧ i ≤ snapCount rawBudget body ∧ i ∉ c :: cs) → o = .waiting) ∧
        ((∀ i, 1 ≤ i → i ≤ snapCount rawBudget body → i ∈ c :: cs) → o.total = some body) := by
  refine ⟨b64decode_b64encode, snapBytes_of_dvd hpos, fun cs c hcs hmissing => ?_⟩
  obtain ⟨hwaiting, seen, hseen, hgathered⟩ := handleSnaps_waiting subId parse hclear hfits
    (fun i hi => hcs i (List.mem_cons_of_mem c hi)) hmissing
    (snapFrame rawBudget subId body cursor c) rfl rfl
  have hmem : ∀ i, i ∈ c :: seen ↔ i ∈ c :: cs := by
    intro i
    rw [List.mem_cons, List.mem_cons, hseen]
  have hlast := hgathered.handleSnap parse rfl rfl
    (fun i hi => hcs i ((hmem i).1 hi)) hfits
  refine ⟨hwaiting, ?_, ?_⟩
  · rintro ⟨i, hone, hle, hnot⟩
    exact (hlast.1 ⟨i, hone, hle, fun hi => hnot ((hmem i).1 hi)⟩).1
  · intro hall
    rw [hlast.2 fun i hone hle => (hmem i).2 (hall i hone hle)]
    simp only [b64decode_b64encode]
    exact congrArg some (flatMap_snapChunks hpos)

end

/-- A body of two chunks, whose base64 is padded twice. -/
def paddedBody : List UInt8 := List.replicate 386 48

theorem snap_reassembled_of_padded :
    (∀ bytes, b64decode (b64encode bytes) = bytes) ∧
    (3 ∣ 193 → snapBytes 193 paddedBody = (b64encode paddedBody).length) ∧
    ∀ cs c, (∀ i ∈ c :: cs, 1 ≤ i ∧ i ≤ snapCount 193 paddedBody) →
      (∃ i, 1 ≤ i ∧ i ≤ snapCount 193 paddedBody ∧ i ∉ cs) →
      let r := (ClientSub.fresh none).handleSnaps 520 (fun _ => none)
        (cs.map (snapFrame 193 1 paddedBody (js "c")))
      let o := (r.1.handleSnap 520 (fun _ => none) (snapFrame 193 1 paddedBody (js "c") c)).2
      (∀ o ∈ r.2, o = .waiting) ∧
        ((∃ i, 1 ≤ i ∧ i ≤ snapCount 193 paddedBody ∧ i ∉ c :: cs) → o = .waiting) ∧
        ((∀ i, 1 ≤ i → i ≤ snapCount 193 paddedBody → i ∈ c :: cs) →
          o.total = some paddedBody) :=
  snap_reassembled 1 (fun _ => none) (by decide) (by decide +kernel)
    (.inr (.inl (by decide +kernel)))

/-- At a bound that the base64 of the whole body meets, its padded chunks do not come through. -/
theorem padded_chunks_overflow :
    193 = Serving.rawChunkBudget
      ⟨{ hostEnv "a" with constants := { MAX_FRAME_BYTES := 515 } }, canonicalize, 500, false⟩ ∧
    (b64encode paddedBody).length ≤ 516 ∧
    ((ClientSub.fresh none).handleSnaps 516 (fun _ => none)
      ((List.range' 1 (snapCount 193 paddedBody)).map
        (snapFrame 193 1 paddedBody (js "c")))).2.map SnapOutcome.total = [none, none] ∧
    snapCount 193 paddedBody = 2 := by
  decide +kernel

end Seqscribe
