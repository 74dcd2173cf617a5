import Mathlib.Data.List.TakeWhile
import Seqscribe.GrantAgreement

namespace Seqscribe
set_option autoImplicit true

/-! What a drained data lane takes in one go. -/

/-- The frames in flight and those that wait for their credit. -/
def laneRoom (c : Constants) : Nat :=
  if c.INFLIGHT_CREDITS = 0 ∨ c.SEND_QUEUE_CAP = 0 then 0 else c.INFLIGHT_CREDITS + c.SEND_QUEUE_CAP

namespace Session

variable {α : Type}

def bodyOf : Frame α → Option α
  | .data m => some m.body
  | _ => none

/-- The bodies of the data frames given to the channel. -/
def dataSent (s : Session α) : List α := s.sent.filterMap bodyOf

/-- Messages for the data lane, up to the first that is tail-dropped. -/
def sendAll (now : Nat) : List α → Session α → Session α
  | [], s => s
  | f :: fs, s =>
    match s.sendData now fun _ => f with
    | (s, true) => sendAll now fs s
    | (s, false) => s

/-- The peer has received all that is in flight. -/
def acknowledge (now : Nat) (s : Session α) : Session α := s.dispatch now (.ack (s.nextMid - 1))

def acknowledgeTimes (now : Nat) : Nat → Session α → Session α
  | 0, s => s
  | n + 1, s => acknowledgeTimes now n (s.acknowledge now)

/-- The lane drains over a lossless link. -/
def drainLane (now : Nat) (s : Session α) : Session α :=
  s.acknowledgeTimes now (s.outQueue.length + 1)

/-- The lane is drained; without credits what waits stays. -/
structure Idle (s : Session α) : Prop where
  opened : s.state ≠ .closed
  unacked : s.unacked = []
  outQueue : s.outQueue = [] ∨ s.o.constants.INFLIGHT_CREDITS = 0

/-- The lane carries the messages since `s₀`, in their order. -/
structure Carries (s₀ s : Session α) (fs : List α) : Prop where
  o : s.o = s₀.o
  same : SameGrants s₀ s
  state : s.state = s₀.state
  mids : ∀ u ∈ s.unacked, u.mid < s.nextMid
  window : s.unacked.length ≤ s.o.constants.INFLIGHT_CREDITS
  carried : ∃ waiting : List α, s.outQueue = waiting.map (fun f _ => f) ∧
    s.dataSent ++ waiting = s₀.dataSent ++ fs

/-- What waits does so for a credit. -/
def Full (s : Session α) : Prop :=
  s.outQueue ≠ [] → s.unacked.length = s.o.constants.INFLIGHT_CREDITS

def inLane (s : Session α) : Nat := s.unacked.length + s.outQueue.length

theorem dataSent_transmit (s : Session α) (m : DataMsg α) :
    (s.transmit (.data m)).dataSent = s.dataSent ++ [m.body] := by
  rw [dataSent, dataSent, transmit, List.filterMap_append]
  rfl

theorem pump_of_stalled {s : Session α} (now n : Nat)
    (h : s.outQueue = [] ∨ s.o.constants.INFLIGHT_CREDITS = 0) : s.pump now n = s := by
  cases n with
  | zero => rfl
  | succ n =>
    rw [pump]
    split
    · rfl
    · next make rest hqueue =>
      rcases h with hnil | hzero
      · rw [hnil] at hqueue
        cases hqueue
      · apply if_neg
        rintro ⟨-, hcredit⟩
        rw [hzero] at hcredit
        exact Nat.not_lt_zero _ hcredit

namespace Carries

variable {s₀ s : Session α}

theorem pump (h : Carries s₀ s fs) (hopen : s.state ≠ .closed) (now n : Nat) :
    Carries s₀ (s.pump now n) fs ∧ (s.pump now n).inLane = s.inLane ∧
      (s.outQueue.length ≤ n → (s.pump now n).Full) := by
  induction n generalizing s with
  | zero =>
    refine ⟨h, rfl, fun hlen hqueue => absurd ?_ hqueue⟩
    exact List.length_eq_zero_iff.1 (Nat.le_zero.1 hlen)
  | succ n ih =>
    rw [Session.pump]
    split
    · next hnil => exact ⟨h, rfl, fun _ hqueue => absurd hnil hqueue⟩
    · next make rest hqueue =>
      obtain ⟨waiting, hwaiting, hcarried⟩ := h.carried
      split
      · next hcredit =>
        rw [hqueue] at hwaiting
        cases waiting with
        | nil => cases hwaiting
        | cons f waiting =>
          obtain ⟨rfl, hrest⟩ := List.cons.inj hwaiting
          have hstep : Carries s₀ (transmit { s with
              outQueue := rest
              nextMid := s.nextMid + 1
              unacked := s.unacked ++ [⟨s.nextMid, now, ⟨s.nextMid, f⟩, now⟩] }
                (.data ⟨s.nextMid, f⟩)) fs := by
            constructor
            · exact h.o
            · apply h.same.trans
              refine ⟨rfl, rfl, rfl, rfl, rfl, rfl, .inl ⟨rfl, rfl⟩, fun m => ?_⟩
              simp [transmit]
            · exact h.state
            · intro u hu
              rcases List.mem_append.1 hu with hold | hnew
              · exact Nat.lt_succ_of_lt (h.mids u hold)
              · cases List.mem_singleton.1 hnew
                exact Nat.lt_succ_self _
            · rw [transmit]
              dsimp only
              rw [List.length_append]
              exact hcredit.2
            · refine ⟨waiting, hrest, ?_⟩
              rw [dataSent_transmit, List.append_assoc]
              exact hcarried
          obtain ⟨hcarries, hcount, hfull⟩ := ih hstep hopen
          refine ⟨hcarries, hcount.trans ?_, fun hlen => hfull ?_⟩
          · rw [inLane, inLane, hqueue, transmit]
            simp only [List.length_append, List.length_cons, List.length_nil]
            omega
          · rw [hqueue, List.length_cons] at hlen
            exact Nat.le_of_succ_le_succ hlen
      · next hcredit =>
        refine ⟨h, rfl, fun _ _ => ?_⟩
        have hnot : ¬ s.unacked.length < s.o.constants.INFLIGHT_CREDITS :=
          fun hlt => hcredit ⟨hopen, hlt⟩
        exact Nat.le_antisymm h.window (not_lt.1 hnot)

/-- `sendData` takes a message exactly when the lane has room. -/
theorem sendData (h : Carries s₀ s fs) (hopen : s.state ≠ .closed) (hfull : s.Full)
    (hcap : 0 < s.o.constants.SEND_QUEUE_CAP) (now : Nat) (f : α) :
    (s.inLane < s.o.constants.INFLIGHT_CREDITS + s.o.constants.SEND_QUEUE_CAP →
      ∃ s', s.sendData now (fun _ => f) = (s', true) ∧ Carries s₀ s' (fs ++ [f]) ∧ s'.Full ∧
        s'.inLane = s.inLane + 1) ∧
    (s.inLane = s.o.constants.INFLIGHT_CREDITS + s.o.constants.SEND_QUEUE_CAP →
      s.sendData now (fun _ => f) = (s, false)) := by
  have hqueue : s.outQueue = [] ∨ s.unacked.length = s.o.constants.INFLIGHT_CREDITS := by
    by_cases hnil : s.outQueue = []
    · exact .inl hnil
    · exact .inr (hfull hnil)
  constructor
  · intro hroom
    have hshort : ¬ s.outQueue.length ≥ s.o.constants.SEND_QUEUE_CAP := by
      rw [inLane] at hroom
      rcases hqueue with hnil | hcredits
      · rw [hnil]
        exact not_le.2 hcap
      · omega
    have hoffer : Carries s₀ { s with
        outQueue := s.outQueue ++ [fun _ => f], accepted := s.accepted ++ [fun _ => f] }
          (fs ++ [f]) := by
      obtain ⟨waiting, hwaiting, hcarried⟩ := h.carried
      refine ⟨h.o, h.same.trans ?_, h.state, h.mids, h.window, waiting ++ [f], ?_, ?_⟩
      · exact ⟨rfl, rfl, rfl, rfl, rfl, rfl, .inl ⟨rfl, rfl⟩, fun _ => .rfl⟩
      · rw [List.map_append, ← hwaiting]
        rfl
      · rw [← List.append_assoc, ← List.append_assoc, ← hcarried]
        rfl
    obtain ⟨hcarries, hcount, hfull'⟩ := hoffer.pump hopen now (s.outQueue ++ [fun _ => f]).length
    refine ⟨_, ?_, hcarries, hfull' (Nat.le_refl _), ?_⟩
    · rw [Session.sendData, offer, if_neg hopen, if_neg hshort]
      rfl
    · rw [hcount, inLane, inLane]
      dsimp only
      rw [List.length_append]
      rfl
  · intro hroom
    have hlong : s.outQueue.length ≥ s.o.constants.SEND_QUEUE_CAP := by
      have hwindow := h.window
      rw [inLane] at hroom
      omega
    rw [Session.sendData, offer, if_neg hopen, if_pos hlong]

theorem sendAll (h : Carries s₀ s before) (hopen : s.state ≠ .closed) (hfull : s.Full)
    (hcap : 0 < s.o.constants.SEND_QUEUE_CAP) (now : Nat) (fs : List α)
    (hroom : s.inLane ≤ s.o.constants.INFLIGHT_CREDITS + s.o.constants.SEND_QUEUE_CAP) :
    Carries s₀ (s.sendAll now fs) (before ++ fs.take
      (s.o.constants.INFLIGHT_CREDITS + s.o.constants.SEND_QUEUE_CAP - s.inLane)) := by
  induction fs generalizing s before with
  | nil =>
    rw [List.take_nil, List.append_nil]
    exact h
  | cons f fs ih =>
    obtain ⟨haccepted, hdropped⟩ := h.sendData hopen hfull hcap now f
    rw [Session.sendAll]
    rcases Nat.lt_or_eq_of_le hroom with hlt | heq
    · obtain ⟨s', hsend, hcarries, hfull', hcount⟩ := haccepted hlt
      have ho : s'.o = s.o := hcarries.o.trans h.o.symm
      have hnext := ih hcarries (hcarries.state.trans h.state.symm ▸ hopen) hfull' (ho ▸ hcap)
        (by rw [ho, hcount]; exact hlt)
      rw [hsend]
      dsimp only
      rw [ho, hcount] at hnext
      have hmore : s.o.constants.INFLIGHT_CREDITS + s.o.constants.SEND_QUEUE_CAP - s.inLane =
          s.o.constants.INFLIGHT_CREDITS + s.o.constants.SEND_QUEUE_CAP - (s.inLane + 1) + 1 := by
        omega
      rw [hmore, List.take_succ_cons, ← List.singleton_append, ← List.append_assoc]
      exact hnext
    · rw [hdropped heq, heq, Nat.sub_self, List.take_zero, List.append_nil]
      exact h

/-- All that is in flight is retired, and what waits moves up. -/
theorem acknowledge (h : Carries s₀ s fs) (hopen : s.state ≠ .closed) (now : Nat) :
    Carries s₀ (s.acknowledge now) fs ∧
      (s.acknowledge now).inLane = s.outQueue.length ∧ (s.acknowledge now).Full := by
  have hretired : s.unacked.dropWhile (fun u => decide (u.mid ≤ s.nextMid - 1)) = [] := by
    apply List.dropWhile_eq_nil_iff.2
    intro u hu
    exact decide_eq_true (Nat.le_sub_one_of_lt (h.mids u hu))
  have hretire : Carries s₀ (s.retire now (s.nextMid - 1)) fs := by
    refine ⟨h.o, h.same.trans (.retire s now _), h.state, ?_, ?_, h.carried⟩
    · intro u hu
      rw [retire] at hu
      dsimp only at hu
      rw [hretired] at hu
      cases hu
    · rw [retire]
      dsimp only
      rw [hretired]
      exact Nat.zero_le _
  obtain ⟨hcarries, hcount, hfull⟩ := hretire.pump hopen now s.outQueue.length
  have heq : s.acknowledge now = (s.retire now (s.nextMid - 1)).pump now s.outQueue.length := by
    rw [Session.acknowledge, dispatch, if_neg hopen]
    rfl
  rw [heq]
  refine ⟨hcarries, hcount.trans ?_, hfull (Nat.le_refl _)⟩
  rw [inLane, retire]
  dsimp only
  rw [hretired]
  exact Nat.zero_add _

theorem acknowledgeTimes (h : Carries s₀ s fs) (hopen : s.state ≠ .closed)
    (hcredits : 0 < s.o.constants.INFLIGHT_CREDITS) (now n : Nat) (hn : s.outQueue.length < n) :
    Carries s₀ (s.acknowledgeTimes now n) fs ∧ (s.acknowledgeTimes now n).inLane = 0 := by
  induction n generalizing s with
  | zero => exact absurd hn (Nat.not_lt_zero _)
  | succ n ih =>
    obtain ⟨hcarries, hcount, hfull⟩ := h.acknowledge hopen now
    have ho : (s.acknowledge now).o = s.o := hcarries.o.trans h.o.symm
    rw [Session.acknowledgeTimes]
    by_cases hqueue : (s.acknowledge now).outQueue = []
    · rcases Nat.eq_zero_or_pos n with rfl | hpos
      · refine ⟨hcarries, hcount.trans ?_⟩
        exact Nat.le_zero.1 (Nat.le_of_lt_succ hn)
      · apply ih hcarries (hcarries.state.trans h.state.symm ▸ hopen) (ho ▸ hcredits)
        rw [hqueue]
        exact hpos
    · apply ih hcarries (hcarries.state.trans h.state.symm ▸ hopen) (ho ▸ hcredits)
      -- a credit each was free for what waited
      have hmoved := hfull hqueue
      rw [ho] at hmoved
      rw [inLane, hmoved] at hcount
      omega

end Carries

/-- Without room nothing is transmitted, whether the message is dropped or waits for good. -/
theorem Idle.sendData {s : Session α} (h : Idle s) (hroom : laneRoom s.o.constants = 0) (now : Nat)
    (make : Nat → α) :
    let s' := (s.sendData now make).1
    Idle s' ∧ s'.o = s.o ∧ SameGrants s s' ∧ s'.state = s.state ∧ s'.sent = s.sent := by
  intro s'
  by_cases hcap : s.outQueue.length ≥ s.o.constants.SEND_QUEUE_CAP
  · have heq : s' = s := by
      change (s.sendData now make).1 = s
      rw [Session.sendData, offer, if_neg h.opened, if_pos hcap]
    rw [heq]
    exact ⟨h, rfl, .refl s, rfl, rfl⟩
  · have hzero : s.o.constants.INFLIGHT_CREDITS = 0 := by
      rw [laneRoom] at hroom
      split at hroom
      · next hnone =>
        refine hnone.resolve_right fun hzero => hcap ?_
        rw [hzero]
        exact Nat.zero_le _
      · omega
    have heq : s' = { s with
        outQueue := s.outQueue ++ [make], accepted := s.accepted ++ [make] } := by
      change (s.sendData now make).1 = _
      rw [Session.sendData, offer, if_neg h.opened, if_neg hcap]
      exact pump_of_stalled _ _ (.inr hzero)
    rw [heq]
    refine ⟨⟨h.opened, h.unacked, .inr hzero⟩, rfl, ?_, rfl, rfl⟩
    exact ⟨rfl, rfl, rfl, rfl, rfl, rfl, .inl ⟨rfl, rfl⟩, fun _ => .rfl⟩

theorem Idle.sendAll {s : Session α} (h : Idle s) (hroom : laneRoom s.o.constants = 0) (now : Nat)
    (fs : List α) :
    let s' := s.sendAll now fs
    Idle s' ∧ s'.o = s.o ∧ SameGrants s s' ∧ s'.state = s.state ∧ s'.sent = s.sent := by
  induction fs generalizing s with
  | nil => exact ⟨h, rfl, .refl s, rfl, rfl⟩
  | cons f fs ih =>
    have hone := h.sendData hroom now fun _ => f
    rw [Session.sendAll]
    split
    · next s' he =>
      rw [he] at hone
      obtain ⟨hidle, ho, hsame, hstate, hsent⟩ := hone
      dsimp only at ho
      obtain ⟨hidle', ho', hsame', hstate', hsent'⟩ := ih hidle (ho ▸ hroom)
      exact ⟨hidle', ho'.trans ho, hsame.trans hsame', hstate'.trans hstate, hsent'.trans hsent⟩
    · next s' he =>
      rw [he] at hone
      exact hone

theorem Idle.acknowledge {s : Session α} (h : Idle s) (now : Nat) : s.acknowledge now = s := by
  have hretire : s.retire now (s.nextMid - 1) = s := by
    obtain ⟨-, hunacked, -⟩ := h
    cases s
    dsimp only at hunacked
    rw [hunacked]
    rfl
  rw [Session.acknowledge, dispatch, if_neg h.opened]
  exact (congrArg (pumpData now) hretire).trans (pump_of_stalled _ _ h.outQueue)

theorem Idle.drainLane {s : Session α} (h : Idle s) (now : Nat) : s.drainLane now = s := by
  have htimes : ∀ n, s.acknowledgeTimes now n = s := by
    intro n
    induction n with
    | zero => rfl
    | succ n ih => rw [acknowledgeTimes, h.acknowledge, ih]
  exact htimes _

/-- A drained lane takes as many messages as it has room, and drained again it has transmitted
exactly these. -/
theorem Idle.sendAll_drainLane {s : Session α} (h : Idle s) (now : Nat) (fs : List α) :
    let s' := (s.sendAll now fs).drainLane now
    Idle s' ∧ s'.o = s.o ∧ SameGrants s s' ∧ s'.state = s.state ∧
      s'.dataSent = s.dataSent ++ fs.take (laneRoom s.o.constants) := by
  intro s'
  by_cases hroom : laneRoom s.o.constants = 0
  · obtain ⟨hidle, ho, hsame, hstate, hsent⟩ := h.sendAll hroom now fs
    have heq : s' = s.sendAll now fs := hidle.drainLane now
    rw [heq, hroom, List.take_zero, List.append_nil]
    exact ⟨hidle, ho, hsame, hstate, congrArg (List.filterMap bodyOf) hsent⟩
  · rw [laneRoom] at hroom ⊢
    split at hroom
    · exact absurd rfl hroom
    next hsome =>
    rw [if_neg hsome]
    rw [not_or] at hsome
    have hcredits := Nat.pos_of_ne_zero hsome.1
    have hqueue : s.outQueue = [] := h.outQueue.resolve_right hsome.1
    have hempty : s.inLane = 0 := by
      rw [inLane, h.unacked, hqueue]
      rfl
    have hstart : Carries s s [] := by
      refine ⟨rfl, .refl s, rfl, ?_, ?_, [], hqueue, rfl⟩
      · rw [h.unacked]
        intro u hu
        cases hu
      · rw [h.unacked]
        exact Nat.zero_le _
    have hsent := hstart.sendAll h.opened (fun hne => absurd hqueue hne)
      (Nat.pos_of_ne_zero hsome.2) now fs (hempty ▸ Nat.zero_le _)
    rw [hempty, Nat.sub_zero, List.nil_append] at hsent
    obtain ⟨hcarries, hnone⟩ := hsent.acknowledgeTimes (hsent.state ▸ h.opened)
      (hsent.o ▸ hcredits) now _ (Nat.lt_succ_self _)
    rw [inLane, Nat.add_eq_zero_iff, List.length_eq_zero_iff, List.length_eq_zero_iff] at hnone
    obtain ⟨waiting, hwaiting, hcarried⟩ := hcarries.carried
    refine ⟨⟨hcarries.state ▸ h.opened, hnone.1, .inl hnone.2⟩, hcarries.o, hcarries.same,
      hcarries.state, ?_⟩
    rw [hnone.2] at hwaiting
    rw [List.map_eq_nil_iff.1 hwaiting.symm, List.append_nil] at hcarried
    exact hcarried

end Session

end Seqscribe
