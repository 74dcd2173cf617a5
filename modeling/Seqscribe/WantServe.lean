import Mathlib.Algebra.Order.BigOperators.Group.List
import Seqscribe.Greedy
import Seqscribe.Host
import Seqscribe.LaneRoom
import Seqscribe.View

namespace Seqscribe
set_option autoImplicit true

/-! The responder's side of WANT, and what the retries of one WANT deliver. -/

def ENTRIES_BATCH_MAX : Nat := 100

structure MsgWant where
  req : Nat
  topic : Topic
  writer : WriterId
  fromSeq : Nat

structure MsgEntries where
  req : Option Nat
  topic : Topic
  writer : WriterId
  fromSeq : Nat
  toSeq : Nat
  entries : List LogEntry
  done : Bool

/-- What a WANT is answered with. -/
inductive WantAnswer where
  | entries (fs : List MsgEntries)
  | truncated (m : MsgTruncated)

def WantAnswer.send (now : Nat) (s : Session MsgEntries) : WantAnswer → Session MsgEntries
  | .entries fs => s.sendAll now fs
  | .truncated m => s.sendControl (.truncated m)

/-- What a node serves a WANT from. -/
structure Responder where
  core : Core
  /-- There is a snapshot hub. -/
  snapshotHub : Bool
  /-- `utf8ByteLength(JSON.stringify(entry))` -/
  cost : LogEntry → Nat

namespace Responder

variable (env : Env)

/-- A WANT below the cut of the certificate gets a snapshot offered. -/
def maybeOffer (r : Responder) (m : MsgWant) : Bool :=
  r.snapshotHub && (r.core.db.sqFinality.get m.topic).any fun cert =>
    decide (m.fromSeq ≤ cert.cutSeq m.writer)

/-- The empty `done` frame. -/
def completion (m : MsgWant) (toSeq : Nat) : MsgEntries :=
  ⟨some m.req, m.topic, m.writer, m.fromSeq, toSeq, [], true⟩

/-- The loop over the rows of one frame: the first is always in. -/
def takeBatch (cost : LogEntry → Nat) (budget : Nat) :
    Nat → List LogEntry → List LogEntry → List LogEntry
  | _, batch, [] => batch
  | bytes, batch, entry :: rows =>
    if batch.length > 0 ∧ bytes + cost entry > budget then batch
    else takeBatch cost budget (bytes + cost entry) (batch ++ [entry]) rows

/-- The rows of the next frame. -/
def nextBatch (r : Responder) (m : MsgWant) (budget toSeq start : Nat) : List LogEntry :=
  takeBatch r.cost budget 0 []
    ((r.core.stream env (m.topic, m.writer)).range start (min toSeq (start + ENTRIES_BATCH_MAX - 1)))

/-- The loop of `serveWant`, at most `n` times. -/
def serveRange (r : Responder) (now : Nat) (m : MsgWant) (budget toSeq : Nat) :
    Nat → Nat → Session MsgEntries → Session MsgEntries
  | 0, _, s => s
  | n + 1, start, s =>
    if start ≤ toSeq then
      let batch := r.nextBatch env m budget toSeq start
      match batch.getLast? with
      | none => s
      | some last =>
        match s.sendData now fun _ =>
          ⟨some m.req, m.topic, m.writer, start, toSeq, batch, decide (last.seq ≥ toSeq)⟩ with
        | (s, true) => serveRange r now m budget toSeq n (last.seq + 1) s
        | (s, false) => s
    else s

def serveBelowFloor (now : Nat) (m : MsgWant) (floor : Floor) (toSeq : Nat)
    (s : Session MsgEntries) : Session MsgEntries :=
  if s.proto ≥ 3 then
    s.sendControl (.truncated ⟨m.req, m.topic, m.writer, floor.seq, floor.chain⟩)
  else (s.sendData now fun _ => completion m toSeq).1

def serveWant (r : Responder) (now : Nat) (m : MsgWant) (s : Session MsgEntries) :
    Session MsgEntries :=
  if s.mutualFull m.topic = false then s.sendControl (.err .ERR_ACL_DENIED (some m.topic) none)
  else
    let stream := r.core.stream env (m.topic, m.writer)
    let toSeq := stream.head.contigSeq
    if r.maybeOffer m then (s.sendData now fun _ => completion m toSeq).1
    else
      match stream.floor.filter fun floor => decide (m.fromSeq ≤ floor.seq) with
      | some floor => serveBelowFloor now m floor toSeq s
      | none =>
        if m.fromSeq > toSeq then (s.sendData now fun _ => completion m toSeq).1
        else
          r.serveRange env now m (s.o.constants.MAX_FRAME_BYTES / 2) toSeq
            (toSeq + 1 - m.fromSeq) m.fromSeq s

/-! The frames of an answer. -/

/-- The frames of `serveRange`, were there room for all of them. -/
def frames (r : Responder) (m : MsgWant) (budget toSeq : Nat) : Nat → Nat → List MsgEntries
  | 0, _ => []
  | n + 1, start =>
    if start ≤ toSeq then
      let batch := r.nextBatch env m budget toSeq start
      match batch.getLast? with
      | none => []
      | some last =>
        ⟨some m.req, m.topic, m.writer, start, toSeq, batch, decide (last.seq ≥ toSeq)⟩ ::
          frames r m budget toSeq n (last.seq + 1)
    else []

theorem serveRange_eq (r : Responder) (now : Nat) (m : MsgWant) (budget toSeq n start : Nat)
    (s : Session MsgEntries) :
    r.serveRange env now m budget toSeq n start s =
      s.sendAll now (r.frames env m budget toSeq n start) := by
  induction n generalizing start s with
  | zero => rfl
  | succ n ih =>
    rw [serveRange, frames]
    split
    · dsimp only
      split
      · rfl
      · next last hlast =>
        rw [Session.sendAll]
        split
        · next s' he =>
          rw [he]
          exact ih _ s'
        · next s' he =>
          rw [he]
    · rfl

/-- The rows of a frame are within the budget; a single row always is. -/
def FitsBudget (cost : LogEntry → Nat) (budget : Nat) (xs : List LogEntry) : Prop :=
  xs.length ≤ 1 ∨ (xs.map cost).sum ≤ budget

/-- The rows go into one frame. -/
def FitsFrame (cost : LogEntry → Nat) (budget : Nat) (xs : List LogEntry) : Prop :=
  xs.length ≤ ENTRIES_BATCH_MAX ∧ FitsBudget cost budget xs

theorem FitsFrame.part {cost : LogEntry → Nat} (hpart : xs <:+: ys)
    (h : FitsFrame cost budget ys) : FitsFrame cost budget xs := by
  refine ⟨hpart.length_le.trans h.1, ?_⟩
  rcases h.2 with hone | hsum
  · exact .inl (hpart.length_le.trans hone)
  · right
    obtain ⟨before, after, rfl⟩ := hpart
    rw [List.map_append, List.map_append, List.sum_append, List.sum_append] at hsum
    omega

/-- The loop stops only before a row that does not fit. -/
theorem takeBatch_eq (cost : LogEntry → Nat) (budget : Nat) (rows batch : List LogEntry)
    (hbatch : FitsBudget cost budget batch) :
    ∃ p q, rows = p ++ q ∧ takeBatch cost budget (batch.map cost).sum batch rows = batch ++ p ∧
      FitsBudget cost budget (batch ++ p) ∧
      (batch = [] → rows ≠ [] → p ≠ []) ∧
      ∀ e q', q = e :: q' → ¬ FitsBudget cost budget (batch ++ p ++ [e]) := by
  induction rows generalizing batch with
  | nil =>
    refine ⟨[], [], rfl, ?_, ?_, fun _ hne => hne, ?_⟩
    · rw [takeBatch, List.append_nil]
    · rw [List.append_nil]
      exact hbatch
    · rintro e q' ⟨⟩
  | cons entry rows ih =>
    rw [takeBatch]
    split
    · next hover =>
      refine ⟨[], entry :: rows, rfl, (List.append_nil _).symm, ?_, ?_, ?_⟩
      · rw [List.append_nil]
        exact hbatch
      · intro hnil
        rw [hnil] at hover
        exact absurd hover.1 (Nat.lt_irrefl _)
      · intro e q' hq hfits
        obtain ⟨rfl, -⟩ := List.cons.inj hq
        rw [FitsBudget, List.append_nil, List.length_append, List.map_append,
          List.sum_append] at hfits
        simp only [List.length_singleton, List.map_singleton, List.sum_singleton] at hfits
        omega
    · next hunder =>
      have hmore : FitsBudget cost budget (batch ++ [entry]) := by
        rw [FitsBudget, List.length_append, List.map_append, List.sum_append]
        simp only [List.length_singleton, List.map_singleton, List.sum_singleton]
        omega
      obtain ⟨p, q, hrows, htake, hfits, -, hstop⟩ := ih (batch ++ [entry]) hmore
      have hsum : (batch.map cost).sum + cost entry = ((batch ++ [entry]).map cost).sum := by
        rw [List.map_append, List.sum_append]
        rfl
      refine ⟨entry :: p, q, ?_, ?_, ?_, fun _ _ => List.cons_ne_nil _ _, ?_⟩
      · rw [hrows]
        rfl
      · rw [hsum, htake, List.append_assoc]
        rfl
      · rw [List.append_assoc] at hfits
        exact hfits
      · rw [List.append_assoc] at hstop
        exact hstop

/-- The responder holds the rows from `first` to `toSeq`. -/
def Holds (stream : Stream) (first toSeq : Nat) (row : Nat → LogEntry) : Prop :=
  ∀ s, first ≤ s → s ≤ toSeq → stream.rows s = some (row s) ∧ (row s).seq = s

theorem Holds.range {stream : Stream} (h : Holds stream first toSeq row) (hstart : first ≤ start)
    (hend : last ≤ toSeq) :
    stream.range start last = (List.range' start (last + 1 - start)).map row := by
  rw [Stream.range, ← List.filterMap_eq_map]
  apply List.filterMap_congr
  intro s hs
  rw [List.mem_range'_1] at hs
  exact (h s (hstart.trans hs.1) (by omega)).1

/-- One frame of a range that is held: it takes up the next rows, as many as go into it. -/
theorem frames_succ (r : Responder) (m : MsgWant) (budget : Nat) {toSeq start : Nat} (n : Nat)
    (h : Holds (r.core.stream env (m.topic, m.writer)) first toSeq row) (hfirst : first ≤ start)
    (hstart : start ≤ toSeq) :
    ∃ len, 0 < len ∧ start + len ≤ toSeq + 1 ∧
      r.frames env m budget toSeq (n + 1) start =
        ⟨some m.req, m.topic, m.writer, start, toSeq, (List.range' start len).map row,
          decide (start + len - 1 ≥ toSeq)⟩ :: r.frames env m budget toSeq n (start + len) ∧
      FitsFrame r.cost budget ((List.range' start len).map row) ∧
      (start + len ≤ toSeq →
        ¬ FitsFrame r.cost budget ((List.range' start len).map row ++ [row (start + len)])) := by
  have hmax : ENTRIES_BATCH_MAX = 100 := rfl
  obtain ⟨p, q, hsplit, htake, hfits, hne, hstop⟩ := takeBatch_eq r.cost budget
    ((r.core.stream env (m.topic, m.writer)).range start
      (min toSeq (start + ENTRIES_BATCH_MAX - 1))) [] (.inl (Nat.zero_le _))
  have hbatch : r.nextBatch env m budget toSeq start = p := htake
  rw [List.nil_append] at hfits hstop
  rw [h.range hfirst (Nat.min_le_left _ _), List.map_eq_append_iff] at hsplit
  obtain ⟨xs, ys, hrange, rfl, rfl⟩ := hsplit
  obtain ⟨len, hlen, rfl, rfl⟩ := List.range'_eq_append_iff.1 hrange
  have hpos : 0 < len := by
    apply Nat.pos_of_ne_zero
    rintro rfl
    apply hne rfl _ rfl
    rw [h.range hfirst (Nat.min_le_left _ _)]
    intro hnil
    have hzero := congrArg List.length hnil
    rw [List.length_map, List.length_range', List.length_nil] at hzero
    omega
  have hlast : ((List.range' start len).map row).getLast? = some (row (start + len - 1)) := by
    rw [List.getLast?_map, List.getLast?_range', if_neg hpos.ne']
    rfl
  have hseq : (row (start + len - 1)).seq = start + len - 1 := by
    refine (h _ ?_ ?_).2
    · omega
    · omega
  refine ⟨len, hpos, by omega, ?_, ⟨?_, hfits⟩, ?_⟩
  · rw [frames, if_pos hstart, hbatch]
    dsimp only
    rw [hlast]
    dsimp only
    rw [hseq, Nat.sub_add_cancel (by omega)]
  · rw [List.length_map, List.length_range']
    omega
  · rintro hmore ⟨hlength, hbudget⟩
    rw [List.length_append, List.length_map, List.length_range', List.length_singleton] at hlength
    -- the limit of rows is not reached, so the budget has stopped the loop
    have hcap : min toSeq (start + ENTRIES_BATCH_MAX - 1) + 1 - start - len =
        min toSeq (start + ENTRIES_BATCH_MAX - 1) - start - len + 1 := by omega
    rw [Nat.mul_one, hcap, List.range'_succ, List.map_cons] at hstop
    exact hstop _ _ rfl hbudget

/-- The frames cut the range greedily. -/
theorem frames_cut (r : Responder) (m : MsgWant) (budget : Nat) {toSeq : Nat}
    (h : Holds (r.core.stream env (m.topic, m.writer)) first toSeq row) (n start : Nat)
    (hfirst : first ≤ start) (hn : toSeq + 1 - start ≤ n) :
    Greedy.Cut (FitsFrame r.cost budget) ((List.range' start (toSeq + 1 - start)).map row)
      ((r.frames env m budget toSeq n start).map MsgEntries.entries) := by
  induction n generalizing start with
  | zero =>
    rw [Nat.le_zero.1 hn]
    exact .nil
  | succ n ih =>
    rcases Nat.lt_or_ge toSeq start with hafter | hstart
    · rw [frames, if_neg (not_le.2 hafter), Nat.sub_eq_zero_of_le hafter]
      exact .nil
    · obtain ⟨len, hpos, hend, hframes, hfits, hmax⟩ :=
        frames_succ env r m budget n h hfirst hstart
      have hsplit : (List.range' start (toSeq + 1 - start)).map row =
          (List.range' start len).map row ++
            (List.range' (start + len) (toSeq + 1 - (start + len))).map row := by
        rw [← List.map_append, List.range'_append_1]
        congr 2
        omega
      rw [hframes, List.map_cons, hsplit]
      apply Greedy.Cut.cons _ hfits _ (ih (start + len) (by omega) (by omega))
      · rw [Ne, List.map_eq_nil_iff, List.range'_eq_nil_iff]
        exact hpos.ne'
      · intro e rest hrest
        rw [List.map_eq_cons_iff] at hrest
        obtain ⟨s, tail, hrange, rfl, -⟩ := hrest
        obtain ⟨rfl, hlt, -⟩ := List.range'_eq_cons_iff.1 hrange
        exact hmax (by omega)

/-- Exactly the last frame is the `done` one. -/
theorem frames_done (r : Responder) (m : MsgWant) (budget : Nat) {toSeq : Nat}
    (h : Holds (r.core.stream env (m.topic, m.writer)) first toSeq row) (n start : Nat)
    (hfirst : first ≤ start) (hstart : start ≤ toSeq) (hn : toSeq + 1 - start ≤ n) :
    ∃ init last, r.frames env m budget toSeq n start = init ++ [last] ∧ last.done = true ∧
      ∀ f ∈ init, f.done = false := by
  induction n generalizing start with
  | zero => omega
  | succ n ih =>
    obtain ⟨len, hpos, hend, hframes, -, -⟩ := frames_succ env r m budget n h hfirst hstart
    rw [hframes]
    rcases Nat.lt_or_ge toSeq (start + len) with hafter | hmore
    · have hnone : r.frames env m budget toSeq n (start + len) = [] := by
        cases n with
        | zero => rfl
        | succ n => rw [frames, if_neg (not_le.2 hafter)]
      rw [hnone]
      refine ⟨[], _, rfl, decide_eq_true (by omega), ?_⟩
      intro f hf
      cases hf
    · obtain ⟨init, last, hrest, hdone, hinit⟩ := ih (start + len) (by omega) hmore (by omega)
      rw [hrest, ← List.cons_append]
      refine ⟨_, last, rfl, hdone, ?_⟩
      intro f hf
      rcases List.mem_cons.1 hf with rfl | hin
      · exact decide_eq_false (by omega)
      · exact hinit f hin

/-! The retries of one WANT. -/

/-- Everything that the responder would send for a WANT that it can serve. -/
def answer (r : Responder) (m : MsgWant) (budget : Nat) : List MsgEntries :=
  let toSeq := (r.core.stream env (m.topic, m.writer)).head.contigSeq
  if r.maybeOffer m then [completion m toSeq]
  else r.frames env m budget toSeq (toSeq + 1 - m.fromSeq) m.fromSeq

/-- The responder holds the whole range that is requested, which is a deficit. -/
structure Serves (r : Responder) (m : MsgWant) : Prop where
  deficit : m.fromSeq ≤ (r.core.stream env (m.topic, m.writer)).head.contigSeq
  rows : ∀ s, m.fromSeq ≤ s → s ≤ (r.core.stream env (m.topic, m.writer)).head.contigSeq →
    ((r.core.stream env (m.topic, m.writer)).rows s).isSome = true
  floor : ∀ floor, (r.core.stream env (m.topic, m.writer)).floor = some floor →
    floor.seq < m.fromSeq

variable {env} in
theorem Serves.holds {r : Responder} {m : MsgWant} (h : r.Serves env m) :
    ∃ row, Holds (r.core.stream env (m.topic, m.writer)) m.fromSeq
      (r.core.stream env (m.topic, m.writer)).head.contigSeq row := by
  have hseq : ∀ s e, (r.core.stream env (m.topic, m.writer)).rows s = some e → e.seq = s := by
    intro s e he
    obtain ⟨row, hget, rfl⟩ := Option.map_eq_some_iff.1 he
    exact congrArg (fun id : EntryId => id.2.2) (log_id_of_get hget)
  have hsome := fun s hs hs' => Option.isSome_iff_exists.1 (h.rows s hs hs')
  obtain ⟨first, -⟩ := hsome m.fromSeq (Nat.le_refl _) h.deficit
  refine ⟨fun s => ((r.core.stream env (m.topic, m.writer)).rows s).getD first, ?_⟩
  intro s hs hs'
  obtain ⟨e, he⟩ := hsome s hs hs'
  have hrow : ((r.core.stream env (m.topic, m.writer)).rows s).getD first = e := by
    rw [he]
    rfl
  exact ⟨he.trans (congrArg some hrow.symm), (congrArg LogEntry.seq hrow).trans (hseq s e he)⟩

def wantAnswer (r : Responder) (proto budget : Nat) (m : MsgWant) : WantAnswer :=
  let stream := r.core.stream env (m.topic, m.writer)
  let toSeq := stream.head.contigSeq
  if r.maybeOffer m then .entries [completion m toSeq]
  else
    match stream.floor.filter fun floor => decide (m.fromSeq ≤ floor.seq) with
    | some floor =>
      if proto ≥ 3 then .truncated ⟨m.req, m.topic, m.writer, floor.seq, floor.chain⟩
      else .entries [completion m toSeq]
    | none =>
      if m.fromSeq > toSeq then .entries [completion m toSeq]
      else .entries (r.frames env m budget toSeq (toSeq + 1 - m.fromSeq) m.fromSeq)

/-- `serveWant` sends the answer, as far as the lane has room for it. -/
theorem serveWant_eq (r : Responder) (now : Nat) (m : MsgWant) {s : Session MsgEntries}
    (hmutual : s.mutualFull m.topic = true) :
    r.serveWant env now m s =
      (r.wantAnswer env s.proto (s.o.constants.MAX_FRAME_BYTES / 2) m).send now s := by
  have hone : ∀ f : MsgEntries, (s.sendData now fun _ => f).1 = s.sendAll now [f] := by
    intro f
    rw [Session.sendAll]
    cases s.sendData now fun _ => f with
    | mk s' taken =>
      cases taken with
      | true => rfl
      | false => rfl
  rw [serveWant, wantAnswer, if_neg (by rw [hmutual]; exact Bool.noConfusion)]
  dsimp only
  split
  · exact hone _
  · split
    · rw [serveBelowFloor]
      split
      · rfl
      · exact hone _
    · split
      · exact hone _
      · exact serveRange_eq env r now m _ _ _ _ s

theorem Serves.wantAnswer_eq {r : Responder} {m : MsgWant} (h : r.Serves env m)
    (proto budget : Nat) : r.wantAnswer env proto budget m = .entries (r.answer env m budget) := by
  rw [wantAnswer, answer]
  split
  · rfl
  · split
    · next floor hfloor =>
      obtain ⟨hsome, hbelow⟩ := Option.filter_eq_some_iff.1 hfloor
      exact absurd (of_decide_eq_true hbelow) (not_le.2 (h.floor floor hsome))
    · rw [if_neg (not_lt.2 h.deficit)]

theorem Serves.serveWant_eq {r : Responder} {m : MsgWant} (h : r.Serves env m) (now : Nat)
    {s : Session MsgEntries} (hmutual : s.mutualFull m.topic = true) :
    r.serveWant env now m s =
      s.sendAll now (r.answer env m (s.o.constants.MAX_FRAME_BYTES / 2)) := by
  rw [Responder.serveWant_eq env r now m hmutual, h.wantAnswer_eq]
  rfl

/-- A service, after which the lane drains. -/
def service (r : Responder) (now : Nat) (m : MsgWant) (s : Session MsgEntries) :
    Session MsgEntries :=
  (r.serveWant env now m s).drainLane now

/-- The session after the first `n` services of one WANT; `clock` has their times. -/
def afterServices (r : Responder) (clock : Nat → Nat) (m : MsgWant) (s : Session MsgEntries) :
    Nat → Session MsgEntries
  | 0 => s
  | n + 1 => r.service env (clock n) m (afterServices r clock m s n)

/-- What service `n` delivers. -/
def delivery (r : Responder) (clock : Nat → Nat) (m : MsgWant) (s : Session MsgEntries) (n : Nat) :
    List MsgEntries :=
  (r.afterServices env clock m s (n + 1)).dataSent.drop
    (r.afterServices env clock m s n).dataSent.length

/-- Every service delivers the same frames, as many as the lane has room for. -/
theorem delivery_eq {r : Responder} {m : MsgWant} (h : r.Serves env m) (clock : Nat → Nat)
    {s : Session MsgEntries} (hidle : s.Idle) (hmutual : s.mutualFull m.topic = true) (n : Nat) :
    r.delivery env clock m s n =
      (r.answer env m (s.o.constants.MAX_FRAME_BYTES / 2)).take (laneRoom s.o.constants) := by
  have hafter : ∀ n, (r.afterServices env clock m s n).Idle ∧
      (r.afterServices env clock m s n).o = s.o ∧
      (r.afterServices env clock m s n).mutualFull m.topic = true := by
    intro n
    induction n with
    | zero => exact ⟨hidle, rfl, hmutual⟩
    | succ n ih =>
      obtain ⟨hidle', ho', hmutual'⟩ := ih
      obtain ⟨hidle'', ho'', hsame, hstate, -⟩ := hidle'.sendAll_drainLane (clock n)
        (r.answer env m ((r.afterServices env clock m s n).o.constants.MAX_FRAME_BYTES / 2))
      rw [afterServices, service, h.serveWant_eq env (clock n) hmutual']
      refine ⟨hidle'', ho''.trans ho', ?_⟩
      rw [Session.mutualFull, hstate, hsame.refusedTopics, hsame.grants, hsame.peerGrants]
      exact hmutual'
  obtain ⟨hidle', ho', hmutual'⟩ := hafter n
  obtain ⟨-, -, -, -, hsent⟩ := hidle'.sendAll_drainLane (clock n)
    (r.answer env m ((r.afterServices env clock m s n).o.constants.MAX_FRAME_BYTES / 2))
  rw [delivery, afterServices, service, h.serveWant_eq env (clock n) hmutual', hsent, ho',
    List.drop_left']
  rfl

/-- Some service delivers the `done` frame, and until then every retry delivers an entry that no
earlier service has delivered. -/
def Progresses (deliveries : Nat → List MsgEntries) : Prop :=
  (∃ n, ∃ f ∈ deliveries n, f.done = true) ∧
    ∀ n, 0 < n → (∀ k < n, ∀ f ∈ deliveries k, f.done = false) →
      ∃ f ∈ deliveries n, ∃ e ∈ f.entries, ∀ k < n, ∀ f' ∈ deliveries k, e ∉ f'.entries

/-- Services that deliver the same beginning of an answer progress when it is all of the answer. -/
theorem progresses_take {init : List MsgEntries} {last : MsgEntries}
    (hlast : ∀ f ∈ init, f.done = false) (hdone : last.done = true) (room : Nat) :
    Progresses (fun _ => (init ++ [last]).take room) ↔ (init ++ [last]).length ≤ room := by
  constructor
  · rintro ⟨⟨n, f, hf, hfdone⟩, -⟩
    by_contra hmore
    rw [List.length_append, List.length_singleton] at hmore
    rw [List.take_append_of_le_length (by omega)] at hf
    rw [hlast f (List.mem_of_mem_take hf)] at hfdone
    cases hfdone
  · intro hroom
    have hin : last ∈ (init ++ [last]).take room := by
      rw [List.take_of_length_le hroom]
      exact List.mem_append_right _ (List.mem_singleton.2 rfl)
    refine ⟨⟨0, last, hin, hdone⟩, ?_⟩
    intro n hn hnone
    rw [hnone 0 hn last hin] at hdone
    cases hdone

/-- The requested range can be cut into frames that the lane has room for. -/
def GoesInto (r : Responder) (m : MsgWant) (budget room : Nat) : Prop :=
  ∃ cut : List (List LogEntry),
    cut.flatten = (r.core.stream env (m.topic, m.writer)).range m.fromSeq
      (r.core.stream env (m.topic, m.writer)).head.contigSeq ∧
    (∀ piece ∈ cut, FitsFrame r.cost budget piece) ∧ cut.length ≤ room

/-- The answer of entries: exactly its last frame is the `done` one, and it cuts the range
greedily. -/
theorem Serves.answer_eq {r : Responder} {m : MsgWant} (h : r.Serves env m)
    (hoffer : r.maybeOffer m = false) (budget : Nat) :
    ∃ init last, r.answer env m budget = init ++ [last] ∧ last.done = true ∧
      (∀ f ∈ init, f.done = false) ∧
      Greedy.Cut (FitsFrame r.cost budget) ((r.core.stream env (m.topic, m.writer)).range m.fromSeq
        (r.core.stream env (m.topic, m.writer)).head.contigSeq)
          ((init ++ [last]).map MsgEntries.entries) := by
  obtain ⟨row, hrow⟩ := h.holds
  have hcut := frames_cut env r m budget hrow _ m.fromSeq (Nat.le_refl _) (Nat.le_refl _)
  obtain ⟨init, last, hframes, hdone, hinit⟩ := frames_done env r m budget hrow _ m.fromSeq
    (Nat.le_refl _) h.deficit (Nat.le_refl _)
  rw [← hrow.range (Nat.le_refl _) (Nat.le_refl _), hframes] at hcut
  have hanswer : r.answer env m budget = r.frames env m budget _ _ _ :=
    if_neg (by rw [hoffer]; exact Bool.noConfusion)
  exact ⟨init, last, hanswer.trans hframes, hdone, hinit, hcut⟩

/-- A deficit with more rows than so many full frames hold never gets to its `done` frame. -/
theorem not_progresses_of_long {r : Responder} {m : MsgWant} (h : r.Serves env m)
    (hoffer : r.maybeOffer m = false) (clock : Nat → Nat) {s : Session MsgEntries}
    (hidle : s.Idle) (hmutual : s.mutualFull m.topic = true)
    (hlong : m.fromSeq + ENTRIES_BATCH_MAX * laneRoom s.o.constants ≤
      (r.core.stream env (m.topic, m.writer)).head.contigSeq) :
    ¬ Progresses (r.delivery env clock m s) := by
  obtain ⟨init, last, hanswer, hdone, hinit, hcut⟩ :=
    h.answer_eq env hoffer (s.o.constants.MAX_FRAME_BYTES / 2)
  rw [funext (delivery_eq env h clock hidle hmutual), hanswer, progresses_take hinit hdone]
  intro hroom
  obtain ⟨row, hrow⟩ := h.holds
  have hrows := congrArg List.length hcut.flatten
  rw [hrow.range (Nat.le_refl _) (Nat.le_refl _), List.length_map, List.length_range',
    List.length_flatten] at hrows
  have hpieces : ∀ len ∈ ((init ++ [last]).map MsgEntries.entries).map List.length,
      len ≤ ENTRIES_BATCH_MAX := by
    intro len hlen
    obtain ⟨piece, hpiece, rfl⟩ := List.mem_map.1 hlen
    exact (hcut.fits piece hpiece).1
  have hsum : (((init ++ [last]).map MsgEntries.entries).map List.length).sum ≤
      (((init ++ [last]).map MsgEntries.entries).map List.length).length * ENTRIES_BATCH_MAX :=
    List.sum_le_card_nsmul _ _ hpieces
  rw [List.length_map, List.length_map] at hsum
  have hmost := Nat.mul_le_mul_right ENTRIES_BATCH_MAX hroom
  rw [Nat.mul_comm (laneRoom _)] at hmost
  omega

end Responder

open Responder

/-- The retries of a WANT make progress exactly when the lane has room for the whole answer: each
one begins where the first began. -/
theorem want_retry_progress (env : Env) (r : Responder) (m : MsgWant) (clock : Nat → Nat)
    (s : Session MsgEntries) (hserves : r.Serves env m) (hidle : s.Idle)
    (hmutual : s.mutualFull m.topic = true) :
    Progresses (r.delivery env clock m s) ↔
      if r.maybeOffer m then 0 < laneRoom s.o.constants
      else r.GoesInto env m (s.o.constants.MAX_FRAME_BYTES / 2) (laneRoom s.o.constants) := by
  split
  · next hoffer =>
    have hone : r.answer env m (s.o.constants.MAX_FRAME_BYTES / 2) = [] ++ [completion m
        (r.core.stream env (m.topic, m.writer)).head.contigSeq] := if_pos hoffer
    rw [funext (delivery_eq env hserves clock hidle hmutual), hone]
    apply progresses_take _ rfl
    intro f hf
    cases hf
  · next hoffer =>
    obtain ⟨init, last, hanswer, hdone, hinit, hcut⟩ := hserves.answer_eq env
      (Bool.eq_false_of_not_eq_true hoffer) (s.o.constants.MAX_FRAME_BYTES / 2)
    rw [funext (delivery_eq env hserves clock hidle hmutual), hanswer,
      progresses_take hinit hdone]
    constructor
    · intro hroom
      refine ⟨_, hcut.flatten, hcut.fits, ?_⟩
      rw [List.length_map]
      exact hroom
    · rintro ⟨cut, hflatten, hfits, hroom⟩
      rw [← hflatten] at hcut
      have hle := hcut.length_le FitsFrame.part hfits
      rw [List.length_map] at hle
      exact hle.trans hroom

/-! A stream of any length on the host's topic. -/

def longChain : Nat → Chain
  | 0 => seedOf (hostEnv "w") "t" "w"
  | n + 1 => chainOf (hostEnv "w") (longChain n) (hostEntry "w" (n + 1) (n + 1) "k" "")

def longEntry (s : Nat) : LogEntry := hostEntry "w" s s "k" (longChain s)

def longLog (n : Nat) : Table EntryId LogRow fun r => r.entry.id where
  rows := (List.range' 1 n).map fun s => ⟨s, longEntry s⟩
  nodup := by
    rw [List.map_map]
    apply List.Nodup.map _ (List.nodup_range' 1)
    intro s s' hid
    exact congrArg (fun id : EntryId => id.2.2) hid

def longWriter (n : Nat) : WriterRow :=
  { freshHead (hostEnv "w") "t" "w" with contigSeq := n, contigChain := longChain n }

/-- The author of the stream. -/
def longResponder (n : Nat) : Responder where
  core := { Core.init with
    db.sqLog := longLog n
    db.sqWriters := ⟨[longWriter n], List.nodup_singleton _⟩ }
  snapshotHub := true
  cost e := utf8ByteLength ((hostEnv "w").jcs (entryJson e))

def longWant : MsgWant := ⟨1, "t", "w", 1⟩

theorem longResponder_serves (hn : 1 ≤ n) : (longResponder n).Serves (hostEnv "w") longWant := by
  have hhead : ((longResponder n).core.stream (hostEnv "w") ("t", "w")).head = longWriter n := rfl
  constructor
  · exact hn
  · intro s hs hs'
    have hmem : (⟨s, longEntry s⟩ : LogRow) ∈ (longLog n).rows := by
      apply List.mem_map_of_mem
      rw [List.mem_range'_1, Nat.add_comm]
      exact ⟨hs, Nat.lt_succ_of_le hs'⟩
    have hrow : ((longResponder n).core.stream (hostEnv "w") ("t", "w")).rows s =
        some (longEntry s) := congrArg (Option.map LogRow.entry) (log_get_of_mem hmem)
    exact Option.isSome_iff_exists.2 ⟨_, hrow⟩
  · intro floor hfloor
    cases hfloor

/-- A session that is ready and shares the topic. -/
def readySession : Session MsgEntries :=
  (sharingSession "w").arrive 0 (.hello (sharingHello "b" 0 none))

/-- One entry goes into one frame. -/
theorem short_deficit_progresses :
    Progresses ((longResponder 1).delivery (hostEnv "w") id longWant readySession) := by
  refine (want_retry_progress (hostEnv "w") (longResponder 1) longWant id readySession
    (longResponder_serves (Nat.le_refl _)) ⟨by rintro ⟨⟩, rfl, .inl rfl⟩ rfl).2 ?_
  obtain ⟨row, hrow⟩ := (longResponder_serves (Nat.le_refl 1)).holds
  refine ⟨[[row 1]], (hrow.range (Nat.le_refl 1) (Nat.le_refl 1)).symm, ?_, ?_⟩
  · intro piece hpiece
    cases List.mem_singleton.1 hpiece
    refine ⟨?_, .inl (Nat.le_refl 1)⟩
    exact Nat.succ_le_succ (Nat.zero_le 99)
  · exact Nat.succ_le_succ (Nat.zero_le 67)

/-- With the default constants a deficit of 6801 entries is never served to its end. -/
theorem long_deficit_spins :
    ¬ Progresses ((longResponder 6801).delivery (hostEnv "w") id longWant readySession) := by
  apply not_progresses_of_long (hostEnv "w") (longResponder_serves (by omega)) rfl id
  · exact ⟨by rintro ⟨⟩, rfl, .inl rfl⟩
  · rfl
  · exact Nat.le_of_eq rfl

end Seqscribe
