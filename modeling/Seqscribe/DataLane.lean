import Seqscribe.Session

namespace Seqscribe
set_option autoImplicit true

/-! The data lane over a lossy channel: every accepted message is handed over once, in order. -/

namespace Session

variable {α : Type}

/-- The messages of the accepted builders, whose mids count from 1. -/
def payloads (accepted : List (Nat → α)) : List (DataMsg α) :=
  accepted.mapIdx fun i make => ⟨i + 1, make (i + 1)⟩

theorem getElem?_payloads (accepted : List (Nat → α)) (i : Nat) :
    (payloads accepted)[i]? = accepted[i]?.map fun make => ⟨i + 1, make (i + 1)⟩ := by
  rw [payloads, List.getElem?_mapIdx]

theorem payloads_append (accepted : List (Nat → α)) (make : Nat → α) :
    payloads (accepted ++ [make]) =
      payloads accepted ++ [⟨accepted.length + 1, make (accepted.length + 1)⟩] := by
  rw [payloads, List.mapIdx_append]
  simp [payloads]

/-- A message stands where its mid says. -/
theorem getElem?_of_mem_payloads {m : DataMsg α} {accepted : List (Nat → α)}
    (h : m ∈ payloads accepted) :
    1 ≤ m.mid ∧ (payloads accepted)[m.mid - 1]? = some m := by
  obtain ⟨i, hi⟩ := List.mem_iff_getElem?.1 h
  have hm := hi
  rw [getElem?_payloads] at hm
  obtain ⟨make, hmake, rfl⟩ := Option.map_eq_some_iff.1 hm
  exact ⟨Nat.le_add_left .., hi⟩

/-- A frame that carries no message and no complaint about the credit window, and acknowledges no
more than has been handed over. -/
def Harmless (s : Session α) : Frame α → Prop
  | .hello _ => True
  | .ack upTo => upTo = s.recvContigMid
  | .data _ => False
  | .err _ _ detail => detail = none
  | .truncated _ => True

/-- The data lane is as it was, but for harmless frames. -/
structure SameLane (s s' : Session α) : Prop where
  o : s'.o = s.o
  nextMid : s'.nextMid = s.nextMid
  unacked : s'.unacked = s.unacked
  outQueue : s'.outQueue = s.outQueue
  recvContigMid : s'.recvContigMid = s.recvContigMid
  recvBuffer : s'.recvBuffer = s.recvBuffer
  accepted : s'.accepted = s.accepted
  handed : s'.handed = s.handed
  sent : ∀ f ∈ s'.sent, f ∈ s.sent ∨ Harmless s f

/-- The sender's part of the lane is as it was. -/
structure SameSender (s s' : Session α) : Prop where
  o : s'.o = s.o
  nextMid : s'.nextMid = s.nextMid
  unacked : s'.unacked = s.unacked
  outQueue : s'.outQueue = s.outQueue
  accepted : s'.accepted = s.accepted
  data : ∀ m, .data m ∈ s'.sent → .data m ∈ s.sent

/-- The receiver's part of the lane is as it was. -/
structure SameReceiver (s s' : Session α) : Prop where
  o : s'.o = s.o
  recvContigMid : s'.recvContigMid = s.recvContigMid
  recvBuffer : s'.recvBuffer = s.recvBuffer
  handed : s'.handed = s.handed
  acks : ∀ upTo, .ack upTo ∈ s'.sent → .ack upTo ∈ s.sent ∨ upTo = s.recvContigMid
  credit : ∀ code ref mid, .err code ref (some (.beyondCreditWindow mid)) ∈ s'.sent →
    .err code ref (some (.beyondCreditWindow mid)) ∈ s.sent

namespace SameLane

theorem sender {s s' : Session α} (h : SameLane s s') : SameSender s s' := by
  refine ⟨h.o, h.nextMid, h.unacked, h.outQueue, h.accepted, ?_⟩
  intro m hm
  exact (h.sent _ hm).resolve_right id

theorem receiver {s s' : Session α} (h : SameLane s s') : SameReceiver s s' := by
  refine ⟨h.o, h.recvContigMid, h.recvBuffer, h.handed, fun upTo hack => h.sent _ hack, ?_⟩
  intro code ref mid herr
  apply (h.sent _ herr).resolve_right
  intro hnone
  cases hnone

theorem refl (s : Session α) : SameLane s s :=
  ⟨rfl, rfl, rfl, rfl, rfl, rfl, rfl, rfl, fun _ hf => .inl hf⟩

theorem trans {s s' s'' : Session α} (h : SameLane s s') (h' : SameLane s' s'') :
    SameLane s s'' := by
  refine ⟨h'.o.trans h.o, h'.nextMid.trans h.nextMid, h'.unacked.trans h.unacked,
    h'.outQueue.trans h.outQueue, h'.recvContigMid.trans h.recvContigMid,
    h'.recvBuffer.trans h.recvBuffer, h'.accepted.trans h.accepted, h'.handed.trans h.handed, ?_⟩
  intro f hf
  rcases h'.sent f hf with hold | hnew
  · exact h.sent f hold
  · right
    cases f with
    | hello m => trivial
    | ack upTo => exact hnew.trans h.recvContigMid
    | data m => exact hnew.elim
    | err code ref detail => exact hnew
    | truncated m => trivial

theorem sendControl {s : Session α} (hf : Harmless s f) : SameLane s (s.sendControl f) := by
  rw [Session.sendControl]
  split
  · exact .refl s
  · refine ⟨rfl, rfl, rfl, rfl, rfl, rfl, rfl, rfl, ?_⟩
    intro g hg
    rcases List.mem_append.1 hg with hold | hnew
    · exact .inl hold
    · obtain rfl := List.mem_singleton.1 hnew
      exact .inr hf

theorem close (s : Session α) (reason : SessionCloseReason) : SameLane s (s.close reason) := by
  rw [Session.close]
  split
  · exact .refl s
  · exact ⟨rfl, rfl, rfl, rfl, rfl, rfl, rfl, rfl, fun _ hf => .inl hf⟩

theorem stallCheck (s : Session α) (now : Nat) : SameLane s (s.stallCheck now) := by
  rw [Session.stallCheck]
  split
  · exact .refl s
  · split
    · exact .close s .stall
    · exact .refl s

theorem requestHello (s : Session α) : SameLane s s.requestHello := by
  rw [Session.requestHello]
  split
  · exact .refl s
  · have hrequest : SameLane s { s with helloRequest := true } :=
      ⟨rfl, rfl, rfl, rfl, rfl, rfl, rfl, rfl, fun _ hf => .inl hf⟩
    exact hrequest.trans (.sendControl trivial)

theorem retryHello (s : Session α) : SameLane s s.retryHello := by
  rw [Session.retryHello]
  split
  · exact .sendControl trivial
  · exact .refl s

theorem recomputeRefusals (s : Session α) : SameLane s s.recomputeRefusals := by
  have hfold : ∀ (next : List Topic) (s : Session α), SameLane s (next.foldl
      (fun s topic => s.sendControl (.err .ERR_SCHEMA_MISMATCH (some topic) none)) s) := by
    intro next
    induction next with
    | nil => exact .refl
    | cons topic next ih =>
      intro s
      exact (SameLane.sendControl (by rfl)).trans (ih _)
  have h := hfold (s.refusals.filter fun topic => decide (topic ∉ s.refusedTopics)) s
  exact ⟨h.o, h.nextMid, h.unacked, h.outQueue, h.recvContigMid, h.recvBuffer, h.accepted,
    h.handed, h.sent⟩

theorem updateGrants {s s' : Session α} {grants : Grants} (h : s.updateGrants grants = .ok s') :
    SameLane s s' := by
  rw [Session.updateGrants] at h
  split at h
  · cases h
  · cases hassert : s.assertGrants grants with
    | error e =>
      rw [hassert] at h
      cases h
    | ok u =>
      rw [hassert] at h
      cases h
      have hset : SameLane s { s with grants := grants, grantsGen := s.grantsGen + 1 } :=
        ⟨rfl, rfl, rfl, rfl, rfl, rfl, rfl, rfl, fun _ hf => .inl hf⟩
      exact (hset.trans (.recomputeRefusals _)).trans (.requestHello _)

theorem define (s : Session α) (topic : Topic) (entry : TopicEntry) :
    SameLane s (s.define topic entry) := by
  rw [Session.define]
  split
  · exact .refl s
  · exact ⟨rfl, rfl, rfl, rfl, rfl, rfl, rfl, rfl, fun _ hf => .inl hf⟩

theorem recordGrants (s : Session α) (m : MsgHello) : SameLane s (s.recordGrants m) := by
  have hset : SameLane s { s with peerGrants := m.grants, peerGrantsGen := m.grantsGen } :=
    ⟨rfl, rfl, rfl, rfl, rfl, rfl, rfl, rfl, fun _ hf => .inl hf⟩
  exact hset.trans (.recomputeRefusals _)

theorem answerHello (s : Session α) (m : MsgHello) : SameLane s (s.answerHello m) := by
  rw [Session.answerHello]
  cases m.ackGen with
  | none => exact .sendControl trivial
  | some ackGen =>
    dsimp only
    split
    · exact ⟨rfl, rfl, rfl, rfl, rfl, rfl, rfl, rfl, fun _ hf => .inl hf⟩
    · exact .refl s

theorem onHelloUpdate (s : Session α) (m : MsgHello) : SameLane s (s.onHelloUpdate m) := by
  rw [Session.onHelloUpdate]
  split
  · exact (SameLane.recordGrants s m).trans (.answerHello _ m)
  · exact .answerHello s m

theorem becomeReady (s : Session α) : SameLane s s.becomeReady := by
  have hready : SameLane s { s with helloRequest := false, state := .ready } :=
    ⟨rfl, rfl, rfl, rfl, rfl, rfl, rfl, rfl, fun _ hf => .inl hf⟩
  rw [Session.becomeReady]
  split
  · exact hready.trans (.requestHello _)
  · exact hready

theorem onHello (s : Session α) (m : MsgHello) : SameLane s (s.onHello m) := by
  rw [Session.onHello]
  split
  · exact .onHelloUpdate s m
  · exact .refl s
  · dsimp only
    split
    · exact (SameLane.sendControl (by rfl)).trans (.close _ _)
    · have hset : SameLane s { s with
          proto := min PROTO_MAX m.protoMax, peerNode := some m.node } :=
        ⟨rfl, rfl, rfl, rfl, rfl, rfl, rfl, rfl, fun _ hf => .inl hf⟩
      exact (hset.trans (.recordGrants _ m)).trans (.becomeReady _)

end SameLane

/-- The lane from a sender to a receiver. -/
structure DataLane (a b : Session α) : Prop where
  constants : a.o.constants = b.o.constants
  first : a.unacked.length < a.nextMid
  assigned : a.nextMid ≤ a.accepted.length + 1
  queue : a.outQueue = a.accepted.drop (a.nextMid - 1)
  mids : a.unacked.map Unacked.mid =
    List.range' (a.nextMid - a.unacked.length) a.unacked.length
  window : a.unacked.length ≤ a.o.constants.INFLIGHT_CREDITS
  frames : ∀ u ∈ a.unacked, u.frame ∈ payloads a.accepted ∧ u.frame.mid < a.nextMid
  sent : ∀ m, .data m ∈ a.sent → m ∈ payloads a.accepted ∧ m.mid < a.nextMid
  /-- What is no longer unacknowledged has been handed over. -/
  base : a.nextMid ≤ b.recvContigMid + a.unacked.length + 1
  acks : ∀ upTo, .ack upTo ∈ b.sent → upTo ≤ b.recvContigMid
  buffer : ∀ m ∈ b.recvBuffer.rows, m ∈ payloads a.accepted ∧ m.mid < a.nextMid
  contig : b.recvContigMid < a.nextMid
  handed : b.handed = (payloads a.accepted).take b.recvContigMid
  credit : ∀ code ref mid, .err code ref (some (.beyondCreditWindow mid)) ∉ b.sent

namespace DataLane

variable {a b : Session α}

theorem sender_same (h : DataLane a b) (hsame : SameSender a a') : DataLane a' b := by
  constructor
  · rw [hsame.o]
    exact h.constants
  · rw [hsame.unacked, hsame.nextMid]
    exact h.first
  · rw [hsame.accepted, hsame.nextMid]
    exact h.assigned
  · rw [hsame.outQueue, hsame.accepted, hsame.nextMid]
    exact h.queue
  · rw [hsame.unacked, hsame.nextMid]
    exact h.mids
  · rw [hsame.unacked, hsame.o]
    exact h.window
  · rw [hsame.unacked, hsame.accepted, hsame.nextMid]
    exact h.frames
  · rw [hsame.accepted, hsame.nextMid]
    exact fun m hm => h.sent m (hsame.data m hm)
  · rw [hsame.unacked, hsame.nextMid]
    exact h.base
  · exact h.acks
  · rw [hsame.accepted, hsame.nextMid]
    exact h.buffer
  · rw [hsame.nextMid]
    exact h.contig
  · rw [hsame.accepted]
    exact h.handed
  · exact h.credit

theorem receiver_same (h : DataLane a b) (hsame : SameReceiver b b') : DataLane a b' := by
  constructor
  · rw [hsame.o]
    exact h.constants
  · exact h.first
  · exact h.assigned
  · exact h.queue
  · exact h.mids
  · exact h.window
  · exact h.frames
  · exact h.sent
  · rw [hsame.recvContigMid]
    exact h.base
  · rw [hsame.recvContigMid]
    intro upTo hack
    rcases hsame.acks upTo hack with hold | hnew
    · exact h.acks upTo hold
    · exact Nat.le_of_eq hnew
  · rw [hsame.recvBuffer]
    exact h.buffer
  · rw [hsame.recvContigMid]
    exact h.contig
  · rw [hsame.recvContigMid, hsame.handed]
    exact h.handed
  · exact fun code ref mid herr => h.credit code ref mid (hsame.credit code ref mid herr)

/-- A message is accepted. -/
theorem offer (h : DataLane a b) (make : Nat → α) : DataLane (a.offer make).1 b := by
  rw [Session.offer]
  split
  · exact h
  split
  · exact h
  have hgrow : ∀ m, m ∈ payloads a.accepted → m ∈ payloads (a.accepted ++ [make]) := by
    intro m hm
    rw [payloads_append]
    exact List.mem_append_left _ hm
  have hfirst := h.first
  have hassigned := h.assigned
  have hcontig := h.contig
  constructor
  · exact h.constants
  · exact h.first
  · simp only [List.length_append, List.length_singleton]
    omega
  · dsimp only
    rw [h.queue, List.drop_append_of_le_length (by omega)]
  · exact h.mids
  · exact h.window
  · exact fun u hu => ⟨hgrow _ (h.frames u hu).1, (h.frames u hu).2⟩
  · exact fun m hm => ⟨hgrow m (h.sent m hm).1, (h.sent m hm).2⟩
  · exact h.base
  · exact h.acks
  · exact fun m hm => ⟨hgrow m (h.buffer m hm).1, (h.buffer m hm).2⟩
  · exact h.contig
  · dsimp only
    rw [payloads_append, List.take_append_of_le_length]
    · exact h.handed
    · rw [payloads, List.length_mapIdx]
      omega
  · exact h.credit

/-- The head of the queue gets its mid and is transmitted. -/
theorem pumpOne (h : DataLane a b) (hqueue : a.outQueue = make :: rest)
    (hcredit : a.unacked.length < a.o.constants.INFLIGHT_CREDITS) (now : Nat) :
    DataLane (transmit { a with
      outQueue := rest
      nextMid := a.nextMid + 1
      unacked := a.unacked ++ [⟨a.nextMid, now, ⟨a.nextMid, make a.nextMid⟩, now⟩] }
      (.data ⟨a.nextMid, make a.nextMid⟩)) b := by
  have hfirst := h.first
  have hbase := h.base
  have hcontig := h.contig
  have hdrop := h.queue.symm.trans hqueue
  have hget : a.accepted[a.nextMid - 1]? = some make := by
    rw [← List.head?_drop, hdrop]
    rfl
  have hlen : a.nextMid - 1 < a.accepted.length := (List.getElem?_eq_some_iff.1 hget).1
  have hnew : (⟨a.nextMid, make a.nextMid⟩ : DataMsg α) ∈ payloads a.accepted := by
    rw [List.mem_iff_getElem?]
    refine ⟨a.nextMid - 1, ?_⟩
    rw [getElem?_payloads, hget, Nat.sub_add_cancel (by omega)]
    rfl
  constructor
  · exact h.constants
  · simp only [transmit, List.length_append, List.length_singleton]
    omega
  · simp only [transmit]
    omega
  · simp only [transmit]
    rw [Nat.add_sub_cancel, ← Nat.sub_add_cancel (show 1 ≤ a.nextMid by omega),
      ← List.drop_drop, hdrop]
    rfl
  · simp only [transmit, List.map_append, List.length_append, List.length_singleton, h.mids,
      List.map_cons, List.map_nil, List.range'_1_concat]
    rw [Nat.add_sub_add_right, Nat.sub_add_cancel (by omega)]
  · simp only [transmit, List.length_append, List.length_singleton]
    omega
  · intro u hu
    simp only [transmit] at hu ⊢
    rcases List.mem_append.1 hu with hold | hlast
    · have := h.frames u hold
      exact ⟨this.1, by omega⟩
    · obtain rfl := List.mem_singleton.1 hlast
      exact ⟨hnew, Nat.lt_succ_self _⟩
  · intro m hm
    simp only [transmit] at hm ⊢
    rcases List.mem_append.1 hm with hold | hlast
    · have := h.sent m hold
      exact ⟨this.1, by omega⟩
    · cases List.mem_singleton.1 hlast
      exact ⟨hnew, Nat.lt_succ_self _⟩
  · simp only [transmit, List.length_append, List.length_singleton]
    omega
  · exact h.acks
  · intro m hm
    have := h.buffer m hm
    exact ⟨this.1, Nat.lt_succ_of_lt this.2⟩
  · exact Nat.lt_succ_of_lt h.contig
  · exact h.handed
  · exact h.credit

theorem pump (h : DataLane a b) (now n : Nat) : DataLane (a.pump now n) b := by
  induction n generalizing a with
  | zero => exact h
  | succ n ih =>
    rw [Session.pump]
    cases hqueue : a.outQueue with
    | nil => exact h
    | cons make rest =>
      dsimp only
      split
      · next hc => exact ih (h.pumpOne hqueue hc.2 now)
      · exact h

/-- A retransmission repeats what was sent. -/
theorem retry (h : DataLane a b) (now n : Nat) : DataLane (a.retry now n) b := by
  rw [Session.retry]
  split
  · exact h
  have hsplit := List.take_append_drop n a.unacked
  have hstamp : ∀ (u : Unacked α),
      (if a.due now u then { u with sentAt := now } else u).mid = u.mid ∧
        (if a.due now u then { u with sentAt := now } else u).frame = u.frame := by
    intro u
    split
    · exact ⟨rfl, rfl⟩
    · exact ⟨rfl, rfl⟩
  have hlen : ((a.unacked.take n).map (fun u => if a.due now u then { u with sentAt := now }
      else u) ++ a.unacked.drop n).length = a.unacked.length := by
    rw [List.length_append, List.length_map, ← List.length_append, hsplit]
  have hmids : ((a.unacked.take n).map (fun u => if a.due now u then { u with sentAt := now }
      else u) ++ a.unacked.drop n).map Unacked.mid = a.unacked.map Unacked.mid := by
    rw [List.map_append, List.map_map]
    conv_rhs => rw [← hsplit, List.map_append]
    congr 1
    apply List.map_congr_left
    intro u _
    exact (hstamp u).1
  constructor
  · exact h.constants
  · simp only [hlen]
    exact h.first
  · exact h.assigned
  · exact h.queue
  · simp only [hlen, hmids]
    exact h.mids
  · simp only [hlen]
    exact h.window
  · intro u hu
    rcases List.mem_append.1 hu with hstamped | hold
    · obtain ⟨v, hv, rfl⟩ := List.mem_map.1 hstamped
      rw [(hstamp v).2]
      exact h.frames v (List.mem_of_mem_take hv)
    · exact h.frames u (List.mem_of_mem_drop hold)
  · intro m hm
    rcases List.mem_append.1 hm with hold | hagain
    · exact h.sent m hold
    · obtain ⟨u, hu, he⟩ := List.mem_map.1 hagain
      cases he
      exact h.frames u (List.mem_of_mem_take (List.mem_of_mem_filter hu))
  · simp only [hlen]
    exact h.base
  · exact h.acks
  · exact h.buffer
  · exact h.contig
  · exact h.handed
  · exact h.credit

/-- An acknowledgement retires what has been handed over. -/
theorem retire (h : DataLane a b) (hack : upTo ≤ b.recvContigMid) (now : Nat) :
    DataLane (a.retire now upTo) b := by
  rw [Session.retire]
  have hfirst := h.first
  have hwindow := h.window
  obtain ⟨t, hsplit⟩ : ∃ t, t = a.unacked.takeWhile fun u => decide (u.mid ≤ upTo) := ⟨_, rfl⟩
  obtain ⟨rest, hrest⟩ : ∃ rest, rest = a.unacked.dropWhile fun u => decide (u.mid ≤ upTo) :=
    ⟨_, rfl⟩
  have hall : t ++ rest = a.unacked := by
    rw [hsplit, hrest, List.takeWhile_append_dropWhile]
  have hdrop : rest = a.unacked.drop t.length := by
    rw [← hall, List.drop_left]
  have hlen : t.length + rest.length = a.unacked.length := by
    rw [← hall, List.length_append]
  have hmids : rest.map Unacked.mid = List.range' (a.nextMid - rest.length) rest.length := by
    rw [hdrop, List.map_drop, h.mids, List.drop_range', ← hdrop]
    congr 1
    · omega
    · omega
  have hretired : a.nextMid ≤ b.recvContigMid + rest.length + 1 := by
    cases hlast : t.getLast? with
    | none =>
      rw [List.getLast?_eq_none_iff.1 hlast] at hlen
      have := h.base
      simp only [List.length_nil, Nat.zero_add] at hlen
      omega
    | some u =>
      have hne : t ≠ [] := by
        rintro rfl
        cases hlast
      have hpos : 0 < t.length := List.length_pos_of_ne_nil hne
      have hmem := List.mem_of_getLast? hlast
      have hle : u.mid ≤ upTo := by
        rw [hsplit] at hmem
        simpa using List.all_eq_true.1 List.all_takeWhile u hmem
      have hget : (a.unacked.map Unacked.mid)[t.length - 1]? = some u.mid := by
        rw [List.getElem?_map, ← hall, List.getElem?_append_left (by omega),
          ← List.getLast?_eq_getElem?, hlast]
        rfl
      rw [h.mids, List.getElem?_range'] at hget
      · have := Option.some.inj hget
        omega
      · omega
  rw [← hrest]
  constructor
  · exact h.constants
  · dsimp only
    omega
  · exact h.assigned
  · exact h.queue
  · exact hmids
  · dsimp only
    omega
  · intro u hu
    dsimp only at hu
    rw [hdrop] at hu
    exact h.frames u (List.mem_of_mem_drop hu)
  · exact h.sent
  · exact hretired
  · exact h.acks
  · exact h.buffer
  · exact h.contig
  · exact h.handed
  · exact h.credit

/-- The frame of the next mid is handed over. -/
theorem drain (h : DataLane a b) (n : Nat) : DataLane a (b.drain n) := by
  induction n generalizing b with
  | zero => exact h
  | succ n ih =>
    rw [Session.drain]
    cases hnext : b.recvBuffer.get (b.recvContigMid + 1) with
    | none => exact h
    | some next =>
      dsimp only
      apply ih
      obtain ⟨hmem, hmid⟩ := Table.get_eq_some_iff.1 hnext
      obtain ⟨hpayload, hlt⟩ := h.buffer next hmem
      have hget := (getElem?_of_mem_payloads hpayload).2
      rw [hmid, Nat.add_sub_cancel] at hget
      constructor
      · exact h.constants
      · exact h.first
      · exact h.assigned
      · exact h.queue
      · exact h.mids
      · exact h.window
      · exact h.frames
      · exact h.sent
      · have := h.base
        dsimp only
        omega
      · intro upTo hack
        have := h.acks upTo hack
        dsimp only
        omega
      · intro m hm
        exact h.buffer m (List.mem_of_mem_filter hm)
      · exact hlt
      · dsimp only
        rw [hmid, List.take_add_one, hget, ← h.handed]
        rfl
      · exact h.credit

theorem sendAck (h : DataLane a b) : DataLane a b.sendAck :=
  h.receiver_same (SameLane.sendControl (by rfl)).receiver

/-- No frame of the sender lies beyond the credit window. -/
theorem within_window (h : DataLane a b) (hsent : .data m ∈ a.sent) :
    m.mid ≤ b.recvContigMid + b.o.constants.INFLIGHT_CREDITS := by
  have hlt := (h.sent m hsent).2
  have hbase := h.base
  have hwindow := h.window
  rw [h.constants] at hwindow
  omega

theorem takeIn (h : DataLane a b) (hsent : .data m ∈ a.sent) : DataLane a (b.takeIn m) := by
  have hwithin := h.within_window hsent
  rw [Session.takeIn]
  split
  · exact h.sendAck
  split
  · next hbeyond => exact absurd hwithin (not_le.2 hbeyond)
  · constructor
    · exact h.constants
    · exact h.first
    · exact h.assigned
    · exact h.queue
    · exact h.mids
    · exact h.window
    · exact h.frames
    · exact h.sent
    · exact h.base
    · exact h.acks
    · intro m' hm'
      rcases Table.eq_or_mem_of_mem_upsert hm' with rfl | hold
      · exact h.sent m' hsent
      · exact h.buffer m' hold
    · exact h.contig
    · exact h.handed
    · exact h.credit

end DataLane

/-! Each end is a sender and a receiver: what one of them does leaves the other. -/

namespace SameReceiver

theorem offer (s : Session α) (make : Nat → α) : SameReceiver s (s.offer make).1 := by
  have hrefl : SameReceiver s s := (SameLane.refl s).receiver
  rw [Session.offer]
  split
  · exact hrefl
  split
  · exact hrefl
  · exact ⟨rfl, rfl, rfl, rfl, hrefl.acks, hrefl.credit⟩

theorem pump (s : Session α) (now n : Nat) : SameReceiver s (s.pump now n) := by
  induction n generalizing s with
  | zero => exact (SameLane.refl s).receiver
  | succ n ih =>
    rw [Session.pump]
    split
    · exact (SameLane.refl s).receiver
    · next make rest hqueue =>
      split
      · have h := ih (transmit { s with
          outQueue := rest
          nextMid := s.nextMid + 1
          unacked := s.unacked ++ [⟨s.nextMid, now, ⟨s.nextMid, make s.nextMid⟩, now⟩] }
          (.data ⟨s.nextMid, make s.nextMid⟩))
        refine ⟨h.o, h.recvContigMid, h.recvBuffer, h.handed, ?_, ?_⟩
        · intro upTo hack
          rcases h.acks upTo hack with hold | hnew
          · left
            simpa [transmit] using hold
          · exact .inr hnew
        · intro code ref mid herr
          simpa [transmit] using h.credit code ref mid herr
      · exact (SameLane.refl s).receiver

theorem retry (s : Session α) (now n : Nat) : SameReceiver s (s.retry now n) := by
  rw [Session.retry]
  split
  · exact (SameLane.refl s).receiver
  · refine ⟨rfl, rfl, rfl, rfl, ?_, ?_⟩
    · intro upTo hack
      left
      simpa using hack
    · intro code ref mid herr
      simpa using herr

theorem retire (s : Session α) (now upTo : Nat) : SameReceiver s (s.retire now upTo) :=
  ⟨rfl, rfl, rfl, rfl, fun _ hack => .inl hack, fun _ _ _ herr => herr⟩

end SameReceiver

namespace SameSender

theorem drain (s : Session α) (n : Nat) : SameSender s (s.drain n) := by
  induction n generalizing s with
  | zero => exact (SameLane.refl s).sender
  | succ n ih =>
    rw [Session.drain]
    split
    · exact (SameLane.refl s).sender
    · next next hnext =>
      have h := ih { s with
        recvBuffer := s.recvBuffer.delete next.mid
        recvContigMid := next.mid
        handed := s.handed ++ [next] }
      exact ⟨h.o, h.nextMid, h.unacked, h.outQueue, h.accepted, h.data⟩

theorem takeIn (s : Session α) (m : DataMsg α) : SameSender s (s.takeIn m) := by
  rw [Session.takeIn]
  split
  · exact (SameLane.sendControl (by rfl)).sender
  split
  · have herr : SameSender s (s.sendControl
        (.err s.violationCode none (some (.beyondCreditWindow m.mid)))) := by
      rw [Session.sendControl]
      split
      · exact (SameLane.refl s).sender
      · refine ⟨rfl, rfl, rfl, rfl, rfl, ?_⟩
        intro m' hm'
        simpa [transmit] using hm'
    have hclose := (SameLane.close (s.sendControl
      (.err s.violationCode none (some (.beyondCreditWindow m.mid)))) .protocol).sender
    exact ⟨hclose.o.trans herr.o, hclose.nextMid.trans herr.nextMid,
      hclose.unacked.trans herr.unacked, hclose.outQueue.trans herr.outQueue,
      hclose.accepted.trans herr.accepted, fun m' hm' => herr.data m' (hclose.data m' hm')⟩
  · exact ⟨rfl, rfl, rfl, rfl, rfl, fun _ hm' => hm'⟩

end SameSender

/-- The steps of both ends keep the lane. -/
theorem dataLane_keeps : Link.Keeps (party α) DataLane where
  sender := by
    intro a a' b h hacts
    cases hacts with
    | offer make => exact h.offer make
    | pump now n => exact h.pump now n
    | retry now n => exact h.retry now n
    | stallCheck now => exact h.sender_same (SameLane.stallCheck a now).sender
    | drain n => exact h.sender_same (.drain a n)
    | sendAck => exact h.sender_same (SameLane.sendControl (by rfl)).sender
    | retryHello => exact h.sender_same (SameLane.retryHello a).sender
    | updateGrants grants hok => exact h.sender_same (SameLane.updateGrants hok).sender
    | define topic entry => exact h.sender_same (SameLane.define a topic entry).sender
    | close reason => exact h.sender_same (SameLane.close a reason).sender
  receiver := by
    intro a b b' h hacts
    cases hacts with
    | offer make => exact h.receiver_same (.offer b make)
    | pump now n => exact h.receiver_same (.pump b now n)
    | retry now n => exact h.receiver_same (.retry b now n)
    | stallCheck now => exact h.receiver_same (SameLane.stallCheck b now).receiver
    | drain n => exact h.drain n
    | sendAck => exact h.sendAck
    | retryHello => exact h.receiver_same (SameLane.retryHello b).receiver
    | updateGrants grants hok => exact h.receiver_same (SameLane.updateGrants hok).receiver
    | define topic entry => exact h.receiver_same (SameLane.define b topic entry).receiver
    | close reason => exact h.receiver_same (SameLane.close b reason).receiver
  delivered := by
    rintro a b f b' h hsent ⟨now, rfl⟩
    rw [arrive.eq_def]
    split
    · exact h
    · cases f with
      | hello m => exact h.receiver_same (SameLane.onHello b m).receiver
      | ack upTo => exact h.receiver_same (.retire b now upTo)
      | data m => exact h.takeIn hsent
      | err code ref detail => exact h
      | truncated m => exact h
  answered := by
    rintro a b f a' h hsent ⟨now, rfl⟩
    rw [arrive.eq_def]
    split
    · exact h
    · cases f with
      | hello m => exact h.sender_same (SameLane.onHello a m).sender
      | ack upTo => exact h.retire (h.acks upTo hsent) now
      | data m => exact h.sender_same (.takeIn a m)
      | err code ref detail => exact h
      | truncated m => exact h

theorem attach_eq {o : SessionOpts} {topics : Topic → Option TopicEntry} {grants : Grants}
    {s : Session α} (h : attach o topics grants = .ok s) :
    (fresh o topics grants : Session α).assertGrants grants = .ok () ∧
      s = (fresh o topics grants).requestHello := by
  rw [attach] at h
  cases hassert : (fresh o topics grants : Session α).assertGrants grants with
  | error e =>
    simp only [hassert] at h
    cases h
  | ok u =>
    simp only [hassert] at h
    cases h
    exact ⟨rfl, rfl⟩

/-- Two new sessions with the same constants. -/
theorem dataLane_fresh {o o' : SessionOpts} (hconstants : o.constants = o'.constants)
    (topics topics' : Topic → Option TopicEntry) (grants grants' : Grants) :
    DataLane (fresh o topics grants : Session α) (fresh o' topics' grants') := by
  constructor
  · exact hconstants
  · exact Nat.one_pos
  · exact le_refl _
  · rfl
  · rfl
  · exact Nat.zero_le _
  · intro u hu
    cases hu
  · intro m hm
    cases hm
  · exact le_refl _
  · intro upTo hack
    cases hack
  · intro m hm
    cases hm
  · exact Nat.one_pos
  · rfl
  · intro code ref mid herr
    cases herr

theorem Linked.dataLane {a b : Session α} (h : Linked a b) : DataLane a b ∧ DataLane b a := by
  obtain ⟨o, o', topics, topics', grants, grants', a₀, b₀, hconstants, ha, hb, hrun⟩ := h
  apply dataLane_keeps.run hrun
  obtain ⟨-, rfl⟩ := attach_eq ha
  obtain ⟨-, rfl⟩ := attach_eq hb
  have hsame := fun o topics grants => SameLane.requestHello (fresh o topics grants : Session α)
  constructor
  · exact ((dataLane_fresh hconstants topics topics' grants grants').sender_same
      (hsame o topics grants).sender).receiver_same (hsame o' topics' grants').receiver
  · exact ((dataLane_fresh hconstants.symm topics' topics grants' grants).sender_same
      (hsame o' topics' grants').sender).receiver_same (hsame o topics grants).receiver

end Session

open Session in
/-- At every moment of every run of two sessions over a lossy channel, what one of them has handed
to `onData` is a prefix of what the other one's `sendData` has accepted; the unacknowledged frames
carry consecutive mids and are no more than the credits; and a session never sees a frame beyond
the credit window. -/
theorem reliable_data_lane {α : Type} (a b : Session α) (hlinked : Linked a b) :
    b.handed <+: payloads a.accepted ∧
      a.unacked.map Unacked.mid =
        List.range' (a.nextMid - a.unacked.length) a.unacked.length ∧
      a.unacked.length ≤ a.o.constants.INFLIGHT_CREDITS ∧
      (∀ m, .data m ∈ a.sent →
        m.mid ≤ b.recvContigMid + b.o.constants.INFLIGHT_CREDITS ∧ (b.takeIn m).state = b.state) ∧
      ∀ code ref mid, .err code ref (some (.beyondCreditWindow mid)) ∉ b.sent := by
  have h := hlinked.dataLane.1
  refine ⟨?_, h.mids, h.window, ?_, h.credit⟩
  · rw [h.handed]
    exact List.take_prefix _ _
  · intro m hm
    have hwithin := h.within_window hm
    refine ⟨hwithin, ?_⟩
    rw [takeIn]
    split
    · rw [sendAck, sendControl]
      split
      · rfl
      · rfl
    split
    · next hbeyond => exact absurd hwithin (not_le.2 hbeyond)
    · rfl

def plainOpts (node : WriterId) : SessionOpts := ⟨{}, .content, node⟩

/-- A session of a node without topics. -/
def plainSession (node : WriterId) : Session Nat :=
  (Session.fresh (plainOpts node) (fun _ => none) .empty).requestHello

/-- A message is accepted and transmitted, arrives at the other end and is handed over. -/
theorem reliable_data_lane_of_one :
    let a := ((plainSession "a").offer fun _ => 7).1.pump 0 1
    let b := ((plainSession "b").arrive 0 (.data ⟨1, 7⟩)).drain 1
    b.handed = [⟨1, 7⟩] ∧ b.handed <+: Session.payloads a.accepted := by
  intro a b
  have hlinked : Session.Linked a b := by
    refine ⟨plainOpts "a", plainOpts "b", fun _ => none, fun _ => none, .empty, .empty,
      plainSession "a", plainSession "b", rfl, rfl, rfl, ?_⟩
    have hoffer : Link.Step (Session.party Nat) (plainSession "a", plainSession "b")
        (((plainSession "a").offer fun _ => 7).1, plainSession "b") := .left (.offer _)
    have hpump : Link.Step (Session.party Nat)
        (((plainSession "a").offer fun _ => 7).1, plainSession "b") (a, plainSession "b") :=
      .left (.pump 0 1)
    have harrive : Link.Step (Session.party Nat) (a, plainSession "b")
        (a, (plainSession "b").arrive 0 (.data ⟨1, 7⟩)) :=
      .toRight (List.mem_append_right _ (List.mem_singleton.2 rfl)) ⟨0, rfl⟩
    exact (((Relation.ReflTransGen.single hoffer).tail hpump).tail harrive).tail
      (.right (.drain 1))
  exact ⟨rfl, (reliable_data_lane a b hlinked).1⟩

end Seqscribe
