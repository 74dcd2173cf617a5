import Seqscribe.DataLane

namespace Seqscribe
set_option autoImplicit true

/-! The data lane with builders that throw. -/

/-- What a builder gives for its mid, unless it throws. -/
abbrev Built (α : Type) := Except SeqscribeError α

/-- What the lane knows of the JSON text of a message. -/
structure Wire (α : Type) where
  t : α → String
  /-- `utf8ByteLength(JSON.stringify(m))` -/
  byteLength : DataMsg α → Nat

def serializeMsg (w : Wire α) (c : Constants) (m : DataMsg α) : Built (DataMsg α) :=
  if w.byteLength m > c.MAX_FRAME_BYTES then
    .error ⟨.ERR_ENTRY_ENCODING, "frame exceeds MAX_FRAME_BYTES (" ++ w.t m.body ++ ")"⟩
  else .ok m

namespace Session

/-- `serializeMsg(make(mid), this.c)` -/
def frameFor (w : Wire α) (c : Constants) (make : Nat → Built α) (mid : Nat) :
    Built (DataMsg α) := do
  serializeMsg w c ⟨mid, ← make mid⟩

/-- The loop of `pumpData`, at most `n` times, with what it throws. The builder has left the queue
and its mid is spent when the build fails. -/
def pumpBuilt (w : Wire α) (now : Nat) :
    Nat → Session (Built α) → Session (Built α) × Option SeqscribeError
  | 0, s => (s, none)
  | n + 1, s =>
    match s.outQueue with
    | [] => (s, none)
    | make :: rest =>
      if s.state ≠ .closed ∧ s.unacked.length < s.o.constants.INFLIGHT_CREDITS then
        let mid := s.nextMid
        match frameFor w s.o.constants make mid with
        | .error e => ({ s with outQueue := rest, nextMid := s.nextMid + 1 }, some e)
        | .ok _ =>
          let frame : DataMsg (Built α) := ⟨mid, make mid⟩
          let s : Session (Built α) := { s with
            outQueue := rest
            nextMid := s.nextMid + 1
            unacked := s.unacked ++ [⟨mid, now, frame, now⟩] }
          pumpBuilt w now n (s.transmit (.data frame))
      else (s, none)

/-- The steps of `Acts`, with builders that throw. -/
inductive BuiltActs (w : Wire α) (s : Session (Built α)) : Session (Built α) → Prop
  | offer (make : Nat → Built α) : BuiltActs w s (s.offer make).1
  | pump (now n : Nat) : BuiltActs w s (s.pumpBuilt w now n).1
  | retry (now n : Nat) : BuiltActs w s (s.retry now n)
  | stallCheck (now : Nat) : BuiltActs w s (s.stallCheck now)
  | drain (n : Nat) : BuiltActs w s (s.drain n)
  | sendAck : BuiltActs w s s.sendAck
  | retryHello : BuiltActs w s s.retryHello
  | updateGrants (grants : Grants) (hok : s.updateGrants grants = .ok s') : BuiltActs w s s'
  | define (topic : Topic) (entry : TopicEntry) : BuiltActs w s (s.define topic entry)
  | close (reason : SessionCloseReason) : BuiltActs w s (s.close reason)

def builtParty (w : Wire α) : Link.Party (Session (Built α)) (Frame (Built α)) where
  acts := BuiltActs w
  receives f s s' := ∃ now, s' = s.arrive now f
  sent := sent

/-- Two sessions with builders that throw, at some time of a run since they were attached. -/
def LinkedBuilt (w : Wire α) (a b : Session (Built α)) : Prop :=
  ∃ o o' topics topics' grants grants' a₀ b₀,
    o.constants = o'.constants ∧ attach o topics grants = .ok a₀ ∧
      attach o' topics' grants' = .ok b₀ ∧ Link.Run (builtParty w) (a₀, b₀) (a, b)

/-! A session takes back nothing that it has sent. -/

theorem sent_sendControl (s : Session α) (f : Frame α) : s.sent <+: (s.sendControl f).sent := by
  rw [sendControl]
  split
  · exact List.prefix_refl _
  · exact List.prefix_append _ _

theorem sent_close (s : Session α) (reason : SessionCloseReason) :
    s.sent <+: (s.close reason).sent := by
  rw [close]
  split
  · exact List.prefix_refl _
  · exact List.prefix_refl _

theorem sent_requestHello (s : Session α) : s.sent <+: s.requestHello.sent := by
  rw [requestHello]
  split
  · exact List.prefix_refl _
  · exact sent_sendControl { s with helloRequest := true } _

theorem sent_recomputeRefusals (s : Session α) : s.sent <+: s.recomputeRefusals.sent := by
  rw [recomputeRefusals]
  apply List.foldlRecOn (motive := fun s' : Session α => s.sent <+: s'.sent)
  · exact List.prefix_refl _
  · exact fun s' h topic _ => h.trans (sent_sendControl s' _)

theorem sent_updateGrants {s s' : Session α} {grants : Grants}
    (h : s.updateGrants grants = .ok s') : s.sent <+: s'.sent := by
  rw [updateGrants] at h
  split at h
  · cases h
  · cases hassert : s.assertGrants grants with
    | error e =>
      rw [hassert] at h
      cases h
    | ok u =>
      rw [hassert] at h
      cases h
      exact (sent_recomputeRefusals { s with
        grants := grants
        grantsGen := s.grantsGen + 1 }).trans (sent_requestHello _)

theorem sent_onHello (s : Session α) (m : MsgHello) : s.sent <+: (s.onHello m).sent := by
  have hanswer : ∀ s : Session α, s.sent <+: (s.answerHello m).sent := by
    intro s
    rw [answerHello]
    split
    · split
      · exact List.prefix_refl _
      · exact List.prefix_refl _
    · exact sent_sendControl s _
  have hrecord : ∀ s : Session α, s.sent <+: (s.recordGrants m).sent :=
    fun s => sent_recomputeRefusals { s with peerGrants := m.grants, peerGrantsGen := m.grantsGen }
  rw [onHello]
  split
  · rw [onHelloUpdate]
    split
    · exact (hrecord s).trans (hanswer _)
    · exact hanswer s
  · exact List.prefix_refl _
  · dsimp only
    split
    · exact (sent_sendControl s _).trans (sent_close _ _)
    · have hready : ∀ s : Session α, s.sent <+: s.becomeReady.sent := by
        intro s
        rw [becomeReady]
        split
        · exact sent_requestHello { s with helloRequest := false, state := .ready }
        · exact List.prefix_refl _
      exact (hrecord { s with
        proto := min PROTO_MAX m.protoMax
        peerNode := some m.node }).trans (hready _)

theorem sent_takeIn (s : Session α) (m : DataMsg α) : s.sent <+: (s.takeIn m).sent := by
  rw [takeIn]
  split
  · exact sent_sendControl s _
  split
  · exact (sent_sendControl s _).trans (sent_close _ _)
  · exact List.prefix_refl _

theorem sent_arrive (now : Nat) (f : Frame α) (s : Session α) :
    s.sent <+: (s.arrive now f).sent := by
  rw [arrive.eq_def]
  split
  · exact List.prefix_refl _
  · cases f with
    | hello m => exact sent_onHello s m
    | ack upTo => exact List.prefix_refl _
    | data m => exact sent_takeIn s m
    | err code ref detail => exact List.prefix_refl _
    | truncated m => exact List.prefix_refl _

theorem sent_drain (n : Nat) (s : Session α) : (s.drain n).sent = s.sent := by
  induction n generalizing s with
  | zero => rfl
  | succ n ih =>
    rw [drain]
    split
    · rfl
    · exact ih _

/-- The accepted builder whose turn comes with the mid builds a frame that fits. -/
def BuildsAt (w : Wire α) (a : Session (Built α)) (mid : Nat) : Prop :=
  ∃ make, a.accepted[mid - 1]? = some make ∧ (frameFor w a.o.constants make mid).isOk = true

/-- Every builder whose turn has come builds. -/
def AllBuilt (w : Wire α) (a : Session (Built α)) : Prop :=
  ∀ mid, 0 < mid → mid < a.nextMid → BuildsAt w a mid

/-- A message of an accepted builder whose turn has come, and who builds. -/
def GoesOut (w : Wire α) (a : Session (Built α)) (m : DataMsg (Built α)) : Prop :=
  m ∈ payloads a.accepted ∧ m.mid < a.nextMid ∧ BuildsAt w a m.mid

/-- The lane keeps its constants, and what it has accepted and numbered. -/
structure Grows (a a' : Session (Built α)) : Prop where
  o : a'.o = a.o
  accepted : a.accepted <+: a'.accepted
  nextMid : a.nextMid ≤ a'.nextMid

theorem Grows.buildsAt {w : Wire α} (h : Grows a a') (hb : BuildsAt w a mid) :
    BuildsAt w a' mid := by
  obtain ⟨make, hmake, hok⟩ := hb
  refine ⟨make, ?_, ?_⟩
  · obtain ⟨more, hmore⟩ := h.accepted
    rw [← hmore, List.getElem?_append_left (List.getElem?_eq_some_iff.1 hmake).1]
    exact hmake
  · rw [h.o]
    exact hok

/-- The builder of a mid does not change. -/
theorem Grows.buildsAt_back {w : Wire α} (h : Grows a a') (hmid : mid - 1 < a.accepted.length)
    (hb : BuildsAt w a' mid) : BuildsAt w a mid := by
  obtain ⟨make, hmake, hok⟩ := hb
  refine ⟨make, ?_, ?_⟩
  · obtain ⟨more, hmore⟩ := h.accepted
    rw [← hmore, List.getElem?_append_left hmid] at hmake
    exact hmake
  · rw [← h.o]
    exact hok

theorem Grows.payloads_prefix {a a' : Session (Built α)} (h : Grows a a') :
    payloads a.accepted <+: payloads a'.accepted := by
  obtain ⟨more, hmore⟩ := h.accepted
  rw [← hmore, payloads, payloads, List.mapIdx_append]
  exact List.prefix_append _ _

theorem Grows.goesOut {w : Wire α} (h : Grows a a') (hm : GoesOut w a m) : GoesOut w a' m :=
  ⟨h.payloads_prefix.subset hm.1, Nat.lt_of_lt_of_le hm.2.1 h.nextMid, h.buildsAt hm.2.2⟩

/-- The lane from a sender whose builders may throw to a receiver. -/
structure BuiltLane (w : Wire α) (a b : Session (Built α)) : Prop where
  first : 0 < a.nextMid
  assigned : a.nextMid ≤ a.accepted.length + 1
  queue : a.outQueue = a.accepted.drop (a.nextMid - 1)
  frames : ∀ u ∈ a.unacked, GoesOut w a u.frame
  sent : ∀ m, .data m ∈ a.sent → GoesOut w a m
  /-- What is built is on the lane. -/
  built : ∀ mid, 0 < mid → mid < a.nextMid → BuildsAt w a mid → ∃ m, .data m ∈ a.sent ∧ m.mid = mid
  buffer : ∀ m ∈ b.recvBuffer.rows, GoesOut w a m
  /-- Every mid that the receiver has passed was built. -/
  passed : ∀ mid, 0 < mid → mid ≤ b.recvContigMid → mid < a.nextMid ∧ BuildsAt w a mid
  handed : b.handed = (payloads a.accepted).take b.recvContigMid
  /-- While every build succeeds this is the lane of builders that do not throw. -/
  reliable : AllBuilt w a → DataLane a b

namespace BuiltLane

variable {w : Wire α} {a a' b b' : Session (Built α)}

theorem allBuilt_back (h : BuiltLane w a b) (hgrows : Grows a a') (hall : AllBuilt w a') :
    AllBuilt w a := by
  intro mid hpos hmid
  have hassigned := h.assigned
  exact hgrows.buildsAt_back (by omega)
    (hall mid hpos (Nat.lt_of_lt_of_le hmid hgrows.nextMid))

/-- The receiver's end when only the sender moves. -/
theorem receiver_end (h : BuiltLane w a b) (hgrows : Grows a a') :
    (∀ m ∈ b.recvBuffer.rows, GoesOut w a' m) ∧
      (∀ mid, 0 < mid → mid ≤ b.recvContigMid → mid < a'.nextMid ∧ BuildsAt w a' mid) ∧
      b.handed = (payloads a'.accepted).take b.recvContigMid := by
  refine ⟨fun m hm => hgrows.goesOut (h.buffer m hm), ?_, ?_⟩
  · intro mid hpos hmid
    obtain ⟨hlt, hb⟩ := h.passed mid hpos hmid
    exact ⟨Nat.lt_of_lt_of_le hlt hgrows.nextMid, hgrows.buildsAt hb⟩
  · have hlen : b.recvContigMid ≤ (payloads a.accepted).length := by
      rw [payloads, List.length_mapIdx]
      rcases Nat.eq_zero_or_pos b.recvContigMid with hzero | hpos
      · omega
      · have := (h.passed _ hpos (Nat.le_refl _)).1
        have := h.assigned
        omega
    obtain ⟨more, hmore⟩ := hgrows.payloads_prefix
    rw [← hmore, List.take_append_of_le_length hlen]
    exact h.handed

/-- A step of the sender that leaves the lane. -/
theorem sender_same (h : BuiltLane w a b) (hsame : SameSender a a')
    (hsent : a.sent <+: a'.sent) : BuiltLane w a' b := by
  have hgrows : Grows a a' :=
    ⟨hsame.o, hsame.accepted ▸ List.prefix_refl _, Nat.le_of_eq hsame.nextMid.symm⟩
  obtain ⟨hbuffer, hpassed, hhanded⟩ := h.receiver_end hgrows
  constructor
  · rw [hsame.nextMid]
    exact h.first
  · rw [hsame.nextMid, hsame.accepted]
    exact h.assigned
  · rw [hsame.outQueue, hsame.accepted, hsame.nextMid]
    exact h.queue
  · rw [hsame.unacked]
    exact fun u hu => hgrows.goesOut (h.frames u hu)
  · exact fun m hm => hgrows.goesOut (h.sent m (hsame.data m hm))
  · intro mid hpos hmid hb
    rw [hsame.nextMid] at hmid
    have hassigned := h.assigned
    obtain ⟨m, hm, hmmid⟩ := h.built mid hpos hmid (hgrows.buildsAt_back (by omega) hb)
    exact ⟨m, hsent.subset hm, hmmid⟩
  · exact hbuffer
  · exact hpassed
  · exact hhanded
  · exact fun hall => (h.reliable (h.allBuilt_back hgrows hall)).sender_same hsame

theorem receiver_same (h : BuiltLane w a b) (hsame : SameReceiver b b') : BuiltLane w a b' := by
  constructor
  · exact h.first
  · exact h.assigned
  · exact h.queue
  · exact h.frames
  · exact h.sent
  · exact h.built
  · rw [hsame.recvBuffer]
    exact h.buffer
  · rw [hsame.recvContigMid]
    exact h.passed
  · rw [hsame.recvContigMid, hsame.handed]
    exact h.handed
  · exact fun hall => (h.reliable hall).receiver_same hsame

/-- A message is accepted. -/
theorem offer (h : BuiltLane w a b) (make : Nat → Built α) : BuiltLane w (a.offer make).1 b := by
  have hreliable := fun hall => (h.reliable hall).offer make
  rw [Session.offer] at hreliable ⊢
  split
  · exact h
  split
  · exact h
  next hopen hroom =>
  rw [if_neg hopen, if_neg hroom] at hreliable
  have hgrows : Grows a { a with
      outQueue := a.outQueue ++ [make], accepted := a.accepted ++ [make] } :=
    ⟨rfl, List.prefix_append _ _, Nat.le_refl _⟩
  obtain ⟨hbuffer, hpassed, hhanded⟩ := h.receiver_end hgrows
  have hassigned := h.assigned
  have hfirst := h.first
  constructor
  · exact h.first
  · simp only [List.length_append, List.length_singleton]
    omega
  · dsimp only
    rw [h.queue, List.drop_append_of_le_length (by omega)]
  · exact fun u hu => hgrows.goesOut (h.frames u hu)
  · exact fun m hm => hgrows.goesOut (h.sent m hm)
  · intro mid hpos hmid hb
    have hlt : mid < a.nextMid := hmid
    exact h.built mid hpos hlt (hgrows.buildsAt_back (by omega) hb)
  · exact hbuffer
  · exact hpassed
  · exact hhanded
  · exact fun hall => hreliable (h.allBuilt_back hgrows hall)

/-- The builder at the head of the queue has the next mid as its turn. -/
theorem head_turn (h : BuiltLane w a b) (hqueue : a.outQueue = make :: rest) :
    a.accepted[a.nextMid - 1]? = some make ∧ rest = a.accepted.drop a.nextMid ∧
      a.nextMid ≤ a.accepted.length := by
  have hfirst := h.first
  have hdrop := h.queue.symm.trans hqueue
  have hget : a.accepted[a.nextMid - 1]? = some make := by
    rw [← List.head?_drop, hdrop]
    rfl
  have hlen := (List.getElem?_eq_some_iff.1 hget).1
  refine ⟨hget, ?_, by omega⟩
  rw [← Nat.sub_add_cancel (show 1 ≤ a.nextMid from hfirst), ← List.drop_drop, hdrop]
  rfl

/-- The head of the queue gets its mid, and its build throws. -/
theorem failOne (h : BuiltLane w a b) (hqueue : a.outQueue = make :: rest)
    (hfail : frameFor w a.o.constants make a.nextMid = .error e) :
    BuiltLane w { a with outQueue := rest, nextMid := a.nextMid + 1 } b := by
  obtain ⟨hget, hrest, hlen⟩ := h.head_turn hqueue
  have hgrows : Grows a { a with outQueue := rest, nextMid := a.nextMid + 1 } :=
    ⟨rfl, List.prefix_refl _, Nat.le_succ _⟩
  obtain ⟨hbuffer, hpassed, hhanded⟩ := h.receiver_end hgrows
  have hgap : ¬ BuildsAt w a a.nextMid := by
    rintro ⟨make', hmake', hok⟩
    obtain rfl := Option.some.inj (hmake'.symm.trans hget)
    rw [hfail] at hok
    cases hok
  constructor
  · exact Nat.succ_pos _
  · dsimp only
    omega
  · exact hrest
  · exact fun u hu => hgrows.goesOut (h.frames u hu)
  · exact fun m hm => hgrows.goesOut (h.sent m hm)
  · intro mid hpos hmid hb
    rcases Nat.lt_succ_iff_lt_or_eq.1 hmid with hlt | rfl
    · exact h.built mid hpos hlt hb
    · exact absurd hb hgap
  · exact hbuffer
  · exact hpassed
  · exact hhanded
  · exact fun hall => absurd (hall a.nextMid h.first (Nat.lt_succ_self _)) hgap

/-- The head of the queue gets its mid and is transmitted. -/
theorem pumpOne (h : BuiltLane w a b) (hqueue : a.outQueue = make :: rest)
    (hcredit : a.unacked.length < a.o.constants.INFLIGHT_CREDITS) (now : Nat)
    (hbuilt : frameFor w a.o.constants make a.nextMid = .ok f) :
    BuiltLane w (transmit { a with
      outQueue := rest
      nextMid := a.nextMid + 1
      unacked := a.unacked ++ [⟨a.nextMid, now, ⟨a.nextMid, make a.nextMid⟩, now⟩] }
      (.data ⟨a.nextMid, make a.nextMid⟩)) b := by
  obtain ⟨hget, hrest, hlen⟩ := h.head_turn hqueue
  have hgrows : Grows a (transmit { a with
      outQueue := rest
      nextMid := a.nextMid + 1
      unacked := a.unacked ++ [⟨a.nextMid, now, ⟨a.nextMid, make a.nextMid⟩, now⟩] }
      (.data ⟨a.nextMid, make a.nextMid⟩)) := ⟨rfl, List.prefix_refl _, Nat.le_succ _⟩
  obtain ⟨hbuffer, hpassed, hhanded⟩ := h.receiver_end hgrows
  have hfirst := h.first
  have hbuilds : BuildsAt w a a.nextMid := ⟨make, hget, by rw [hbuilt]; rfl⟩
  have hnew : (⟨a.nextMid, make a.nextMid⟩ : DataMsg (Built α)) ∈ payloads a.accepted := by
    rw [List.mem_iff_getElem?]
    refine ⟨a.nextMid - 1, ?_⟩
    rw [getElem?_payloads, hget, Nat.sub_add_cancel hfirst]
    rfl
  constructor
  · exact Nat.succ_pos _
  · simp only [transmit]
    omega
  · exact hrest
  · intro u hu
    rcases List.mem_append.1 hu with hold | hlast
    · exact hgrows.goesOut (h.frames u hold)
    · obtain rfl := List.mem_singleton.1 hlast
      exact ⟨hnew, Nat.lt_succ_self _, hbuilds⟩
  · intro m hm
    rcases List.mem_append.1 hm with hold | hlast
    · exact hgrows.goesOut (h.sent m hold)
    · cases List.mem_singleton.1 hlast
      exact ⟨hnew, Nat.lt_succ_self _, hbuilds⟩
  · intro mid hpos hmid hb
    rcases Nat.lt_succ_iff_lt_or_eq.1 hmid with hlt | rfl
    · obtain ⟨m, hm, hmmid⟩ := h.built mid hpos hlt hb
      exact ⟨m, List.mem_append_left _ hm, hmmid⟩
    · exact ⟨_, List.mem_append_right _ (List.mem_singleton.2 rfl), rfl⟩
  · exact hbuffer
  · exact hpassed
  · exact hhanded
  · exact fun hall => (h.reliable (h.allBuilt_back hgrows hall)).pumpOne hqueue hcredit now

theorem pumpBuilt (h : BuiltLane w a b) (now n : Nat) :
    BuiltLane w (a.pumpBuilt w now n).1 b := by
  induction n generalizing a with
  | zero => exact h
  | succ n ih =>
    rw [Session.pumpBuilt]
    cases hqueue : a.outQueue with
    | nil => exact h
    | cons make rest =>
      dsimp only
      split
      · next hc =>
        cases hbuilt : frameFor w a.o.constants make a.nextMid with
        | error e => exact h.failOne hqueue hbuilt
        | ok f => exact ih (h.pumpOne hqueue hc.2 now hbuilt)
      · exact h

/-- A retransmission repeats what was sent. -/
theorem retry (h : BuiltLane w a b) (now n : Nat) : BuiltLane w (a.retry now n) b := by
  have hreliable := fun hall => (h.reliable hall).retry now n
  have hgrows : Grows a (a.retry now n) := by
    rw [Session.retry]
    split
    · exact ⟨rfl, List.prefix_refl _, Nat.le_refl _⟩
    · exact ⟨rfl, List.prefix_refl _, Nat.le_refl _⟩
  obtain ⟨hbuffer, hpassed, hhanded⟩ := h.receiver_end hgrows
  have hall := fun hall => hreliable (h.allBuilt_back hgrows hall)
  rw [Session.retry] at hgrows hbuffer hpassed hhanded hall ⊢
  split
  · exact h
  next hopen =>
  rw [if_neg hopen] at hgrows hbuffer hpassed hhanded hall
  constructor
  · exact h.first
  · exact h.assigned
  · exact h.queue
  · intro u hu
    rcases List.mem_append.1 hu with hstamped | hold
    · obtain ⟨v, hv, rfl⟩ := List.mem_map.1 hstamped
      have hv := hgrows.goesOut (h.frames v (List.mem_of_mem_take hv))
      split
      · exact hv
      · exact hv
    · exact hgrows.goesOut (h.frames u (List.mem_of_mem_drop hold))
  · intro m hm
    rcases List.mem_append.1 hm with hold | hagain
    · exact hgrows.goesOut (h.sent m hold)
    · obtain ⟨u, hu, he⟩ := List.mem_map.1 hagain
      cases he
      exact hgrows.goesOut (h.frames u (List.mem_of_mem_take (List.mem_of_mem_filter hu)))
  · intro mid hpos hmid hb
    obtain ⟨m, hm, hmmid⟩ := h.built mid hpos hmid hb
    exact ⟨m, List.mem_append_left _ hm, hmmid⟩
  · exact hbuffer
  · exact hpassed
  · exact hhanded
  · exact hall

/-- The frame of the next mid is handed over. -/
theorem drain (h : BuiltLane w a b) (n : Nat) : BuiltLane w a (b.drain n) := by
  have hreliable := fun hall => (h.reliable hall).drain n
  suffices hlane : (∀ m ∈ (b.drain n).recvBuffer.rows, GoesOut w a m) ∧
      (∀ mid, 0 < mid → mid ≤ (b.drain n).recvContigMid → mid < a.nextMid ∧ BuildsAt w a mid) ∧
      (b.drain n).handed = (payloads a.accepted).take (b.drain n).recvContigMid from
    ⟨h.first, h.assigned, h.queue, h.frames, h.sent, h.built, hlane.1, hlane.2.1, hlane.2.2,
      hreliable⟩
  clear hreliable
  have hbuffer := h.buffer
  have hpassed := h.passed
  have hhanded := h.handed
  clear h
  induction n generalizing b with
  | zero => exact ⟨hbuffer, hpassed, hhanded⟩
  | succ n ih =>
    rw [Session.drain]
    cases hnext : b.recvBuffer.get (b.recvContigMid + 1) with
    | none => exact ⟨hbuffer, hpassed, hhanded⟩
    | some next =>
      dsimp only
      obtain ⟨hmem, hmid⟩ := Table.get_eq_some_iff.1 hnext
      obtain ⟨hpayload, hlt, hbuilds⟩ := hbuffer next hmem
      have hget := (getElem?_of_mem_payloads hpayload).2
      rw [hmid, Nat.add_sub_cancel] at hget
      apply ih
      · exact fun m hm => hbuffer m (List.mem_of_mem_filter hm)
      · intro mid hpos hle
        rcases Nat.lt_or_ge b.recvContigMid mid with hafter | hbefore
        · have heq : mid = next.mid := by
            dsimp only at hle
            omega
          rw [heq]
          exact ⟨hlt, hbuilds⟩
        · exact hpassed mid hpos hbefore
      · dsimp only
        rw [hmid, List.take_add_one, hget, ← hhanded]
        rfl

/-- An acknowledgement retires what has been handed over. -/
theorem retire (h : BuiltLane w a b) (hack : .ack upTo ∈ b.sent) (now : Nat) :
    BuiltLane w (a.retire now upTo) b := by
  constructor
  · exact h.first
  · exact h.assigned
  · exact h.queue
  · exact fun u hu => h.frames u (List.dropWhile_sublist _ |>.subset hu)
  · exact h.sent
  · exact h.built
  · exact h.buffer
  · exact h.passed
  · exact h.handed
  · exact fun hall => (h.reliable hall).retire ((h.reliable hall).acks upTo hack) now

theorem takeIn (h : BuiltLane w a b) (hsent : .data m ∈ a.sent) : BuiltLane w a (b.takeIn m) := by
  have hreliable := fun hall => (h.reliable hall).takeIn hsent
  rw [Session.takeIn] at hreliable ⊢
  split
  · exact h.receiver_same (SameLane.sendControl (by rfl)).receiver
  next hnew =>
  rw [if_neg hnew] at hreliable
  split
  · next hbeyond =>
    rw [if_pos hbeyond] at hreliable
    have hclosed : ∀ (f : Frame (Built α)) (reason : SessionCloseReason),
        ((b.sendControl f).close reason).recvContigMid = b.recvContigMid ∧
          ((b.sendControl f).close reason).recvBuffer = b.recvBuffer ∧
          ((b.sendControl f).close reason).handed = b.handed := by
      intro f reason
      have hframe : (b.sendControl f).recvContigMid = b.recvContigMid ∧
          (b.sendControl f).recvBuffer = b.recvBuffer ∧ (b.sendControl f).handed = b.handed := by
        rw [Session.sendControl]
        split
        · exact ⟨rfl, rfl, rfl⟩
        · exact ⟨rfl, rfl, rfl⟩
      rw [Session.close]
      split
      · exact hframe
      · exact hframe
    obtain ⟨hcontig, hbuffer, hhanded⟩ := hclosed
      (.err b.violationCode none (some (.beyondCreditWindow m.mid))) .protocol
    constructor
    · exact h.first
    · exact h.assigned
    · exact h.queue
    · exact h.frames
    · exact h.sent
    · exact h.built
    · rw [hbuffer]
      exact h.buffer
    · rw [hcontig]
      exact h.passed
    · rw [hcontig, hhanded]
      exact h.handed
    · exact hreliable
  · next hwithin =>
    rw [if_neg hwithin] at hreliable
    constructor
    · exact h.first
    · exact h.assigned
    · exact h.queue
    · exact h.frames
    · exact h.sent
    · exact h.built
    · intro m' hm'
      rcases Table.eq_or_mem_of_mem_upsert hm' with rfl | hold
      · exact h.sent m' hsent
      · exact h.buffer m' hold
    · exact h.passed
    · exact h.handed
    · exact hreliable

end BuiltLane

/-- The receiver's part is as it was after a pump that may throw. -/
theorem SameReceiver.pumpBuilt (w : Wire α) (s : Session (Built α)) (now n : Nat) :
    SameReceiver s (s.pumpBuilt w now n).1 := by
  induction n generalizing s with
  | zero => exact (SameLane.refl s).receiver
  | succ n ih =>
    rw [Session.pumpBuilt]
    split
    · exact (SameLane.refl s).receiver
    · next make rest hqueue =>
      split
      · dsimp only
        split
        · exact ⟨rfl, rfl, rfl, rfl, fun _ hack => .inl hack, fun _ _ _ herr => herr⟩
        · have h := ih (transmit { s with
            outQueue := rest
            nextMid := s.nextMid + 1
            unacked := s.unacked ++ [⟨s.nextMid, now, ⟨s.nextMid, make s.nextMid⟩, now⟩] }
            (.data ⟨s.nextMid, make s.nextMid⟩))
          refine ⟨h.o, h.recvContigMid, h.recvBuffer, h.handed, ?_, ?_⟩
          · intro upTo hack
            rcases h.acks upTo hack with hold | hnew
            · left
              simpa [transmit] using hold
            · exact .inr hnew
          · intro code ref mid herr
            simpa [transmit] using h.credit code ref mid herr
      · exact (SameLane.refl s).receiver

/-- The steps of both ends keep the lane. -/
theorem builtLane_keeps (w : Wire α) : Link.Keeps (builtParty w) (BuiltLane w) where
  sender := by
    intro a a' b h hacts
    cases hacts with
    | offer make => exact h.offer make
    | pump now n => exact h.pumpBuilt now n
    | retry now n => exact h.retry now n
    | stallCheck now =>
      apply h.sender_same (SameLane.stallCheck a now).sender
      rw [stallCheck]
      split
      · exact List.prefix_refl _
      · split
        · exact sent_close a _
        · exact List.prefix_refl _
    | drain n =>
      apply h.sender_same (.drain a n)
      exact sent_drain n a ▸ List.prefix_refl _
    | sendAck => exact h.sender_same (SameLane.sendControl (by rfl)).sender (sent_sendControl a _)
    | retryHello =>
      apply h.sender_same (SameLane.retryHello a).sender
      rw [retryHello]
      split
      · exact sent_sendControl a _
      · exact List.prefix_refl _
    | updateGrants grants hok =>
      exact h.sender_same (SameLane.updateGrants hok).sender (sent_updateGrants hok)
    | define topic entry =>
      apply h.sender_same (SameLane.define a topic entry).sender
      rw [define]
      split
      · exact List.prefix_refl _
      · exact List.prefix_refl _
    | close reason => exact h.sender_same (SameLane.close a reason).sender (sent_close a reason)
  receiver := by
    intro a b b' h hacts
    cases hacts with
    | offer make => exact h.receiver_same (.offer b make)
    | pump now n => exact h.receiver_same (.pumpBuilt w b now n)
    | retry now n => exact h.receiver_same (.retry b now n)
    | stallCheck now => exact h.receiver_same (SameLane.stallCheck b now).receiver
    | drain n => exact h.drain n
    | sendAck => exact h.receiver_same (SameLane.sendControl (by rfl)).receiver
    | retryHello => exact h.receiver_same (SameLane.retryHello b).receiver
    | updateGrants grants hok => exact h.receiver_same (SameLane.updateGrants hok).receiver
    | define topic entry => exact h.receiver_same (SameLane.define b topic entry).receiver
    | close reason => exact h.receiver_same (SameLane.close b reason).receiver
  delivered := by
    rintro a b f b' h hsent ⟨now, rfl⟩
    rw [arrive.eq_def]
    split
    · exact h
    · cases f with
      | hello m => exact h.receiver_same (SameLane.onHello b m).receiver
      | ack upTo => exact h.receiver_same (.retire b now upTo)
      | data m => exact h.takeIn hsent
      | err code ref detail => exact h
      | truncated m => exact h
  answered := by
    rintro a b f a' h hsent ⟨now, rfl⟩
    have hgrows := sent_arrive now f a
    rw [arrive.eq_def] at hgrows ⊢
    split
    · exact h
    · next hopen =>
      rw [if_neg hopen] at hgrows
      cases f with
      | hello m => exact h.sender_same (SameLane.onHello a m).sender hgrows
      | ack upTo => exact h.retire hsent now
      | data m => exact h.sender_same (.takeIn a m) hgrows
      | err code ref detail => exact h
      | truncated m => exact h

theorem builtLane_fresh (w : Wire α) {o o' : SessionOpts} (hconstants : o.constants = o'.constants)
    (topics topics' : Topic → Option TopicEntry) (grants grants' : Grants) :
    BuiltLane w (fresh o topics grants) (fresh o' topics' grants') where
  first := Nat.one_pos
  assigned := Nat.le_refl _
  queue := rfl
  frames := fun _ hu => nomatch hu
  sent := fun _ hm => nomatch hm
  built := fun _ hpos hmid => absurd hmid (Nat.not_lt.2 hpos)
  buffer := fun _ hm => nomatch hm
  passed := fun _ hpos hmid => absurd hmid (Nat.not_le.2 hpos)
  handed := rfl
  reliable := fun _ => dataLane_fresh hconstants topics topics' grants grants'

theorem LinkedBuilt.builtLane {w : Wire α} {a b : Session (Built α)} (h : LinkedBuilt w a b) :
    BuiltLane w a b ∧ BuiltLane w b a := by
  obtain ⟨o, o', topics, topics', grants, grants', a₀, b₀, hconstants, ha, hb, hrun⟩ := h
  apply (builtLane_keeps w).run hrun
  obtain ⟨-, rfl⟩ := attach_eq ha
  obtain ⟨-, rfl⟩ := attach_eq hb
  have hsame := fun o topics grants =>
    SameLane.requestHello (fresh o topics grants : Session (Built α))
  have hsent := fun o topics grants =>
    sent_requestHello (fresh o topics grants : Session (Built α))
  constructor
  · exact ((builtLane_fresh w hconstants topics topics' grants grants').sender_same
      (hsame o topics grants).sender (hsent o topics grants)).receiver_same
        (hsame o' topics' grants').receiver
  · exact ((builtLane_fresh w hconstants.symm topics' topics grants' grants).sender_same
      (hsame o' topics' grants').sender (hsent o' topics' grants')).receiver_same
        (hsame o topics grants).receiver

/-- Nothing is missing on the lane: every mid that is spent has its frame, the other end takes
each of them, and hands the messages over in the order in which they were accepted. -/
structure Unbroken (a b : Session (Built α)) : Prop where
  consecutive : ∀ mid, 0 < mid → mid < a.nextMid → ∃ m, .data m ∈ a.sent ∧ m.mid = mid
  window : ∀ m, .data m ∈ a.sent →
    m.mid ≤ b.recvContigMid + b.o.constants.INFLIGHT_CREDITS
  order : b.handed <+: payloads a.accepted

end Session

open Session in
/-- In every run the lane is unbroken exactly when every accepted builder whose turn has come has
built a frame that fits, its turn in the order of acceptance being its mid. The other end never
gets past a mid whose build has failed. -/
theorem failed_build_breaks_lane {α : Type} (w : Wire α) (a b : Session (Built α))
    (hlinked : LinkedBuilt w a b) :
    (Unbroken a b ↔ AllBuilt w a) ∧
      ∀ mid, 0 < mid → mid < a.nextMid → ¬ BuildsAt w a mid → b.recvContigMid < mid := by
  have h := hlinked.builtLane.1
  refine ⟨⟨fun hlane mid hpos hmid => ?_, fun hall => ⟨fun mid hpos hmid => ?_, ?_, ?_⟩⟩, ?_⟩
  · obtain ⟨m, hm, rfl⟩ := hlane.consecutive mid hpos hmid
    exact (h.sent m hm).2.2
  · exact h.built mid hpos hmid (hall mid hpos hmid)
  · exact fun m hm => (h.reliable hall).within_window hm
  · rw [h.handed]
    exact List.take_prefix _ _
  · intro mid hpos hmid hfail
    by_contra hpast
    exact hfail (h.passed mid hpos (Nat.not_lt.1 hpast)).2

/-- Messages that are their own length. -/
def plainWire : Wire Nat := ⟨fun _ => "SNAP", DataMsg.body⟩

def builtSession (node : WriterId) : Session (Built Nat) :=
  (Session.fresh (plainOpts node) (fun _ => none) .empty).requestHello

/-- A session that has accepted the builder, and has pumped. -/
def afterBuild (s : Session (Built Nat)) (length : Nat) : Session (Built Nat) :=
  ((s.offer fun _ => .ok length).1.pumpBuilt plainWire 0 1).1

theorem linked_afterBuild (hlinked : Session.LinkedBuilt plainWire a b) (length : Nat) :
    Session.LinkedBuilt plainWire (afterBuild a length) b := by
  obtain ⟨o, o', topics, topics', grants, grants', a₀, b₀, hconstants, ha, hb, hrun⟩ := hlinked
  have hoffer := hrun.tail (.left (.offer fun _ => .ok length))
  exact ⟨o, o', topics, topics', grants, grants', a₀, b₀, hconstants, ha, hb,
    hoffer.tail (.left (.pump 0 1))⟩

theorem linked_built :
    Session.LinkedBuilt plainWire (builtSession "a") (builtSession "b") :=
  ⟨plainOpts "a", plainOpts "b", fun _ => none, fun _ => none, .empty, .empty, builtSession "a",
    builtSession "b", rfl, rfl, rfl, .refl⟩

/-- A message that fits goes out. -/
theorem failed_build_breaks_lane_of_one :
    Session.Unbroken (afterBuild (builtSession "a") 7) (builtSession "b") := by
  apply (failed_build_breaks_lane plainWire (afterBuild (builtSession "a") 7) (builtSession "b")
    (linked_afterBuild linked_built 7)).1.2
  intro mid hpos hmid
  have hmid : mid < 2 := hmid
  obtain rfl : mid = 1 := by omega
  exact ⟨fun _ => .ok 7, rfl, by decide⟩

/-- A message is a byte too long for a frame; the next one goes out with the mid after the mid that
is missing. -/
theorem failed_build_leaves_gap :
    Session.LinkedBuilt plainWire (afterBuild (afterBuild (builtSession "a") 262145) 7)
      (builtSession "b") ∧
    (afterBuild (builtSession "a") 262145).nextMid = 2 ∧
    (afterBuild (afterBuild (builtSession "a") 262145) 7).unacked.map Unacked.mid = [2] ∧
    ¬ Session.Unbroken (afterBuild (afterBuild (builtSession "a") 262145) 7) (builtSession "b") := by
  refine ⟨linked_afterBuild (linked_afterBuild linked_built _) _, by decide, by decide, ?_⟩
  intro h
  obtain ⟨m, hm, hmid⟩ := h.consecutive 1 Nat.one_pos (by decide)
  have hsent : (afterBuild (afterBuild (builtSession "a") 262145) 7).sent =
      (builtSession "a").sent ++ [.data ⟨2, .ok 7⟩] := rfl
  rw [hsent] at hm
  rcases List.mem_append.1 hm with hhello | hlast
  · cases List.mem_singleton.1 hhello
  · cases List.mem_singleton.1 hlast
    cases hmid

end Seqscribe
