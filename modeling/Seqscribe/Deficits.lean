import Seqscribe.Cluster
import Seqscribe.Traces
import Seqscribe.WantLoop

namespace Seqscribe
set_option autoImplicit true

/-! The requester's side of WANT on one session, over all its streams. HAVE rounds and answers arrive
in any order, and what they queue on the log is applied later. -/

def MAX_WANT_CONCURRENT : Nat := 4

structure StreamWant where
  req : Nat
  stream : StreamId
  fromSeq : Nat

/-- The WANTs of a session, out or waiting. -/
structure Wants where
  wantReq : Nat
  wantQueue : List StreamId
  activeWants : Table Nat StreamWant StreamWant.req
  wantedStreams : StreamId → Bool

namespace Wants

def init : Wants := ⟨0, [], .empty, fun _ => false⟩

variable (drops : StreamId → Bool) (start : StreamId → Nat)

/-- The loop of `pumpWants`, over what waits. -/
def pump (w : Wants) : List StreamId → Wants
  | [] => { w with wantQueue := [] }
  | k :: queue =>
    if w.activeWants.rows.length ≥ MAX_WANT_CONCURRENT then { w with wantQueue := k :: queue }
    else if drops k then
      pump { w with wantedStreams := Function.update w.wantedStreams k false } queue
    else
      pump { w with
        wantReq := w.wantReq + 1
        activeWants := w.activeWants.upsert ⟨w.wantReq + 1, k, start k⟩ } queue

def pumpWants (w : Wants) : Wants := w.pump drops start w.wantQueue

def queueWant (w : Wants) (k : StreamId) : Wants :=
  if w.wantedStreams k then w
  else
    { w with
      wantedStreams := Function.update w.wantedStreams k true
      wantQueue := w.wantQueue ++ [k] }.pumpWants drops start

def finishWant (w : Wants) (req : Nat) : Wants :=
  match w.activeWants.get req with
  | none => w
  | some want =>
    { w with
      activeWants := w.activeWants.delete req
      wantedStreams := Function.update w.wantedStreams want.stream false }.pumpWants drops start

/-- A WANT of the stream is out, or waits. -/
def Wanted (w : Wants) (k : StreamId) : Prop :=
  k ∈ w.wantQueue ∨ ∃ want ∈ w.activeWants.rows, want.stream = k

/-- The set of wanted streams and the requests are those of the WANTs. -/
structure Sound (w : Wants) : Prop where
  flagged : ∀ k, w.wantedStreams k = true → w.Wanted k
  reqs : ∀ want ∈ w.activeWants.rows, want.req ≤ w.wantReq

/-- No WANT is lost but of streams that are dropped, and new ones have new requests. -/
structure Kept (w w' : Wants) : Prop where
  wanted : ∀ k, w.Wanted k → w'.Wanted k ∨ drops k = true
  later : w.wantReq ≤ w'.wantReq
  same : ∀ req want, req ≤ w.wantReq → w'.activeWants.get req = some want →
    w.activeWants.get req = some want

variable {drops start} {w w' : Wants}

theorem Kept.refl (w : Wants) : Kept drops w w := ⟨fun _ h => .inl h, Nat.le_refl _, fun _ _ _ h => h⟩

/-- The pump, from WANTs that wait in `queue`. -/
theorem pump_kept (queue : List StreamId)
    (hflagged : ∀ k, w.wantedStreams k = true →
      k ∈ queue ∨ ∃ want ∈ w.activeWants.rows, want.stream = k)
    (hreqs : ∀ want ∈ w.activeWants.rows, want.req ≤ w.wantReq) :
    (w.pump drops start queue).Sound ∧ Kept drops { w with wantQueue := queue }
      (w.pump drops start queue) := by
  induction queue generalizing w with
  | nil =>
    rw [pump]
    exact ⟨⟨hflagged, hreqs⟩, .refl _⟩
  | cons k queue ih =>
    rw [pump]
    split
    next => exact ⟨⟨hflagged, hreqs⟩, .refl _⟩
    next =>
    split
    next hdrops =>
      have hstill (k' : StreamId) (hk' : Function.update w.wantedStreams k false k' = true) :
          k' ∈ queue ∨ ∃ want ∈ w.activeWants.rows, want.stream = k' := by
        by_cases heq : k' = k
        · subst heq
          rw [Function.update_self] at hk'
          cases hk'
        · rw [Function.update_of_ne heq] at hk'
          exact (hflagged k' hk').imp_left fun hmem => (List.mem_cons.1 hmem).resolve_left heq
      obtain ⟨hsound, hkept⟩ := ih (w := { w with
        wantedStreams := Function.update w.wantedStreams k false }) hstill hreqs
      refine ⟨hsound, fun k' hk' => ?_, hkept.later, hkept.same⟩
      rcases hk' with hk' | hactive
      · rcases List.mem_cons.1 hk' with rfl | hk'
        · exact .inr hdrops
        · exact hkept.wanted k' (.inl hk')
      · exact hkept.wanted k' (.inr hactive)
    next =>
      have hfresh (want : StreamWant) (hwant : want ∈ w.activeWants.rows) :
          want.req ≠ w.wantReq + 1 :=
        Nat.ne_of_lt (Nat.lt_succ_of_le (hreqs want hwant))
      have hnew (k' : StreamId) (hk' : k' ∈ k :: queue ∨ ∃ want ∈ w.activeWants.rows,
          want.stream = k') : k' ∈ queue ∨ ∃ want ∈ (w.activeWants.upsert
            ⟨w.wantReq + 1, k, start k⟩).rows, want.stream = k' := by
        rcases hk' with hmem | ⟨want, hwant, rfl⟩
        · rcases List.mem_cons.1 hmem with rfl | hmem
          · exact .inr ⟨_, Table.mem_upsert_self _ _, rfl⟩
          · exact .inl hmem
        · exact .inr ⟨want, Table.mem_upsert.2 (.inr ⟨hwant, hfresh want hwant⟩), rfl⟩
      have hreqs' (want : StreamWant) (hwant : want ∈ (w.activeWants.upsert
          ⟨w.wantReq + 1, k, start k⟩).rows) : want.req ≤ w.wantReq + 1 := by
        rcases Table.mem_upsert.1 hwant with rfl | ⟨hwant, -⟩
        · exact Nat.le_refl _
        · exact Nat.le_succ_of_le (hreqs want hwant)
      obtain ⟨hsound, hkept⟩ := ih (w := { w with
        wantReq := w.wantReq + 1
        activeWants := w.activeWants.upsert ⟨w.wantReq + 1, k, start k⟩ })
        (fun k' hk' => hnew k' (hflagged k' hk')) hreqs'
      refine ⟨hsound, fun k' hk' => hkept.wanted k' (hnew k' hk'), ?_, ?_⟩
      · exact (Nat.le_succ _).trans hkept.later
      · intro req want hreq hget
        have hget' := hkept.same req want (Nat.le_succ_of_le hreq) hget
        replace hget' : (w.activeWants.upsert ⟨w.wantReq + 1, k, start k⟩).get req = some want :=
          hget'
        rwa [Table.get_upsert, if_neg] at hget'
        exact Nat.ne_of_gt (Nat.lt_succ_of_le hreq)

theorem Sound.pumpWants (drops : StreamId → Bool) (start : StreamId → Nat)
    (h : w.Sound) :
    (w.pumpWants drops start).Sound ∧ Kept drops w (w.pumpWants drops start) :=
  pump_kept w.wantQueue h.flagged h.reqs

/-- A stream that is queued is wanted from then on, or is dropped. -/
theorem Sound.queueWant (drops : StreamId → Bool) (start : StreamId → Nat)
    (h : w.Sound) (k : StreamId) :
    (w.queueWant drops start k).Sound ∧ Kept drops w (w.queueWant drops start k) ∧
      ((w.queueWant drops start k).Wanted k ∨ drops k = true) := by
  rw [Wants.queueWant]
  split
  next hwanted => exact ⟨h, .refl w, .inl (h.flagged k hwanted)⟩
  next =>
    have hqueued : ({ w with
        wantedStreams := Function.update w.wantedStreams k true
        wantQueue := w.wantQueue ++ [k] } : Wants).Sound := by
      refine ⟨fun k' hk' => ?_, h.reqs⟩
      by_cases heq : k' = k
      · exact .inl (List.mem_append_right _ (List.mem_singleton.2 heq))
      · replace hk' : Function.update w.wantedStreams k true k' = true := hk'
        rw [Function.update_of_ne heq] at hk'
        exact (h.flagged k' hk').imp_left fun hmem => List.mem_append_left _ hmem
    obtain ⟨hsound, hkept⟩ := hqueued.pumpWants drops start
    refine ⟨hsound, ⟨fun k' hk' => ?_, hkept.later, hkept.same⟩, ?_⟩
    · exact hkept.wanted k' (hk'.imp_left fun hmem => List.mem_append_left _ hmem)
    · exact hkept.wanted k (.inl (List.mem_append_right _ (List.mem_singleton.2 rfl)))

/-- Finishing a WANT loses no other. -/
theorem Sound.finishWant (drops : StreamId → Bool) (start : StreamId → Nat)
    (h : w.Sound) (req : Nat) :
    (w.finishWant drops start req).Sound ∧ (∀ k, w.Wanted k →
      (w.finishWant drops start req).Wanted k ∨ drops k = true ∨
        ∃ want, w.activeWants.get req = some want ∧ want.stream = k) ∧
      w.wantReq ≤ (w.finishWant drops start req).wantReq ∧
      ∀ req' want, req' ≤ w.wantReq →
        (w.finishWant drops start req).activeWants.get req' = some want →
          w.activeWants.get req' = some want := by
  rw [Wants.finishWant]
  split
  next => exact ⟨h, fun k hk => .inl hk, Nat.le_refl _, fun _ _ _ hget => hget⟩
  next want hget =>
    have hother (want' : StreamWant) (hwant' : want' ∈ w.activeWants.rows)
        (hne : want'.stream ≠ want.stream) : want' ∈ (w.activeWants.delete req).rows := by
      refine List.mem_filter.2 ⟨hwant', decide_eq_true ?_⟩
      rintro rfl
      rw [Table.get_of_mem hwant'] at hget
      exact hne (congrArg StreamWant.stream (Option.some.inj hget))
    have hfinished : ({ w with
        activeWants := w.activeWants.delete req
        wantedStreams := Function.update w.wantedStreams want.stream false } : Wants).Sound := by
      constructor
      · intro k hk
        by_cases heq : k = want.stream
        · subst heq
          replace hk : Function.update w.wantedStreams want.stream false want.stream = true := hk
          rw [Function.update_self] at hk
          cases hk
        · replace hk : Function.update w.wantedStreams want.stream false k = true := hk
          rw [Function.update_of_ne heq] at hk
          refine (h.flagged k hk).imp_right ?_
          rintro ⟨want', hwant', rfl⟩
          exact ⟨want', hother want' hwant' heq, rfl⟩
      · intro want' hwant'
        exact h.reqs want' (List.mem_of_mem_filter hwant')
    obtain ⟨hsound, hkept⟩ := hfinished.pumpWants drops start
    refine ⟨hsound, fun k hk => ?_, hkept.later, fun req' want' hreq hget' => ?_⟩
    · by_cases heq : want.stream = k
      · exact .inr (.inr ⟨want, hget, heq⟩)
      · have hstill : ({ w with
            activeWants := w.activeWants.delete req
            wantedStreams := Function.update w.wantedStreams want.stream false } : Wants).Wanted
              k := by
          refine hk.imp_right ?_
          rintro ⟨want', hwant', rfl⟩
          exact ⟨want', hother want' hwant' fun h => heq h.symm, rfl⟩
        exact (hkept.wanted k hstill).imp_right .inl
    · have hdeleted := hkept.same req' want' hreq hget'
      replace hdeleted : (w.activeWants.delete req).get req' = some want' := hdeleted
      rw [Table.get_delete] at hdeleted
      split at hdeleted
      next => cases hdeleted
      next => exact hdeleted

end Wants

namespace Stream

/-- A stream that looks for its canonical entries is sealed. -/
def Seeks (S : Stream) : Prop := S.recovery ≠ none → S.head.sealReason ≠ none

/-- A move that neither opens a sealed stream nor sets a target. -/
def Steady : Act → Prop
  | .revive _ | .vacate => False
  | .seek target => target = none
  | _ => True

/-- What such moves leave of a stream: a head that goes on, or a seal. -/
structure Goes (S S' : Stream) : Prop where
  id : S'.head.stream = S.head.stream
  sealed : S.head.sealReason ≠ none → S'.head.sealReason ≠ none
  seeks : S.Seeks → S'.Seeks
  on : S.head.contigSeq ≤ S'.head.contigSeq ∨ S'.head.sealReason ≠ none

theorem Goes.refl (S : Stream) : S.Goes S :=
  ⟨rfl, fun hseal => hseal, fun hseeks => hseeks, .inl (Nat.le_refl _)⟩

theorem Goes.of_sealed {S S' : Stream} (hid : S'.head.stream = S.head.stream)
    (hseal : S'.head.sealReason ≠ none) : S.Goes S' :=
  ⟨hid, fun _ => hseal, fun _ _ => hseal, .inr hseal⟩

theorem Goes.trans {S S' S'' : Stream} (h : S.Goes S') (h' : S'.Goes S'') : S.Goes S'' where
  id := h'.id.trans h.id
  sealed := fun hseal => h'.sealed (h.sealed hseal)
  seeks := fun hseeks => h'.seeks (h.seeks hseeks)
  on := by
    rcases h.on with hle | hseal
    · exact h'.on.imp_left hle.trans
    · exact .inr (h'.sealed hseal)

theorem Move.goes {S S' : Stream} (h : S.Move env a S') (ha : Steady a) : S.Goes S' := by
  have hid := h.head_stream
  cases h with
  | advance _ e _ hseq =>
    have hrecovery : (S.advance env e).recovery = S.recovery := by
      rw [Stream.advance, Stream.saveHead, Stream.put]
      split <;> rfl
    refine ⟨hid, fun hseal => hseal, fun hseeks hrec => hseeks (hrecovery ▸ hrec), .inl ?_⟩
    exact (Nat.le_succ _).trans (Nat.le_of_eq hseq.symm)
  | rewind => exact .of_sealed hid (Option.some_ne_none _)
  | jump _ _ _ hs => exact ⟨hid, fun hseal => hseal, fun hseeks => hseeks, .inl (Nat.le_of_lt hs)⟩
  | fork => exact .of_sealed hid (Option.some_ne_none _)
  | retire => exact .of_sealed hid (Option.some_ne_none _)
  | revive => exact ha.elim
  | seek _ target =>
    exact ⟨hid, fun hseal => hseal, fun _ hrec => absurd ha hrec, .inl (Nat.le_refl _)⟩
  | shelve => exact ⟨hid, fun hseal => hseal, fun hseeks => hseeks, .inl (Nat.le_refl _)⟩
  | thin _ _ hthin =>
    have hhead := hthin.head
    refine ⟨hid, fun hseal => ?_, fun hseeks hrec => ?_, .inl (Nat.le_of_eq ?_)⟩
    · rwa [hhead]
    · rw [hhead]
      exact hseeks (hthin.recovery ▸ hrec)
    · rw [hhead]
  | vacate => exact ha.elim

theorem Moves.goes {S S' : Stream} {P : Act → Prop} (h : S.Moves env P S')
    (hP : ∀ a, P a → Steady a) : S.Goes S' := by
  induction h with
  | refl => exact .refl S
  | tail _ hmove ih =>
    obtain ⟨a, ha, hmove⟩ := hmove
    exact ih.trans (hmove.goes (hP a ha))

end Stream

/-! The log as far as a session sees it. -/

structure SessionLog (env : Env) (shared : Topic → Bool) where
  held : StreamId → Local
  certs : Topic → Option FinalityCert
  named : ∀ k, (held k).stream.head.stream = k
  /-- Shared topics are full-sync ones, which are never retired. -/
  seeks : ∀ k, shared k.1 = true → (held k).stream.Seeks

namespace SessionLog

variable {env : Env} {shared : Topic → Bool}

def put (log : SessionLog env shared) (k : StreamId) (L : Local)
    (h : (log.held k).stream.Goes L.stream) : SessionLog env shared where
  held := Function.update log.held k L
  certs := log.certs
  named := by
    intro k'
    by_cases hk : k' = k
    · subst hk
      rw [Function.update_self]
      exact h.id.trans (log.named k')
    · rw [Function.update_of_ne hk]
      exact log.named k'
  seeks := by
    intro k' hshared
    by_cases hk : k' = k
    · subst hk
      rw [Function.update_self]
      exact h.seeks (log.seeks k' hshared)
    · rw [Function.update_of_ne hk]
      exact log.seeks k' hshared

theorem goes_ingest {L : Local} (hid : e.stream = L.stream.head.stream) (hpos : 0 < e.seq) :
    L.stream.Goes (L.ingest env cert e via now).stream := by
  apply (Stream.Moves.ingest hid hpos).goes
  intro a ha
  cases a with
  | revive => exact ha
  | vacate => exact ha
  | seek => exact ha
  | _ => trivial

/-- An entry beside the head leaves the head where it is, or seals the stream. -/
theorem contigSeq_ingest {L : Local} (hid : e.stream = L.stream.head.stream) (hpos : 0 < e.seq)
    (hopen : L.stream.head.sealReason = none) (hseq : e.seq ≠ L.stream.head.contigSeq + 1) :
    (L.ingest env cert e via now).stream.head.contigSeq = L.stream.head.contigSeq := by
  have hmoves : L.stream.Moves env (L.stream.Ingests env cert e)
      (L.ingest env cert e via now).stream := .ingest hid hpos
  apply hmoves.preserves (I := fun S => S.head.contigSeq = L.stream.head.contigSeq) _ rfl
  intro a S S' ha hS hmove
  cases hmove with
  | advance =>
    replace ha := (if_pos hopen).mp ha
    exact absurd ha.2.1 hseq
  | rewind => exact absurd hopen ha.1
  | retire => exact absurd hopen ha.1
  | fork => exact hS
  | seek => exact hS
  | shelve => exact hS
  | _ => exact ha.elim

def ingest (log : SessionLog env shared) (item : ExternalItem env) (now : Nat) :
    SessionLog env shared :=
  let e := item.entry
  log.put e.stream ((log.held e.stream).ingest env (log.certs e.topic) e item.via now)
    (goes_ingest (log.named e.stream).symm (one_le_seq_of_validateEntry item.valid))

theorem goes_processSeal {L : Local} (T : Topic) (w : WriterId) :
    L.stream.Goes (L.processSeal T w).stream := by
  rw [Local.processSeal]
  split
  next => exact .of_sealed rfl (Option.some_ne_none _)
  next => exact .refl _

def sealStream (log : SessionLog env shared) (k : StreamId) : SessionLog env shared :=
  log.put k ((log.held k).processSeal k.1 k.2) (goes_processSeal k.1 k.2)

theorem goes_adoptFloor (env : Env) (k : StreamId) (now : Nat) (m : MsgTruncated) (L : Local) :
    L.stream.Goes (Requester.adoptFloor env k now m L).stream := by
  rw [Requester.adoptFloor]
  split
  next =>
    apply (show L.stream.Moves env _ _ from .adoptFloor).goes
    intro a ha
    cases a with
    | revive => exact ha
    | vacate => exact ha
    | seek => exact ha
    | _ => trivial
  next => exact .refl _

def adoptFloor (log : SessionLog env shared) (m : MsgTruncated) (now : Nat) :
    SessionLog env shared :=
  let k := (m.topic, m.writer)
  log.put k (Requester.adoptFloor env k now m (log.held k)) (goes_adoptFloor env k now m _)

theorem goes_noteUnavailable {S : Stream} : S.Goes S.noteUnavailable where
  id := rfl
  sealed := fun hseal => hseal
  seeks := fun hseeks hrec => hseeks fun hnone => hrec (Option.map_eq_none_iff.2 hnone)
  on := .inl (Nat.le_refl _)

/-- `reportCanonicalUnavailable`. -/
def noteUnavailable (log : SessionLog env shared) (k : StreamId) : SessionLog env shared :=
  log.put k ((log.held k).map Stream.noteUnavailable) goes_noteUnavailable

end SessionLog

/-! The session. -/

/-- What a session has put on the log's queue. -/
inductive PullItem (env : Env) where
  | entry (frame : Option Nat) (item : ExternalItem env)
  | sealStream (k : StreamId)
  | adoptFloor (m : MsgTruncated) (peerHead : Nat)

def PullItem.frame : PullItem env → Option Nat
  | .entry frame _ => frame
  | _ => none

/-- The outcome of an adoption, until the session hears of it. -/
structure FloorOutcome where
  m : MsgTruncated
  peerHead : Nat
  refused : Bool

structure Pull (env : Env) (shared : Topic → Bool) where
  log : SessionLog env shared
  /-- The PROBE evidence of forks: the last common positions. -/
  lastCommon : StreamId → Option Nat
  known : StreamId → Nat
  wants : Wants
  recoveryProgress : StreamId → Option Nat
  syncProgress : StreamId → Option Nat
  stalled : StreamId → Bool
  queue : List (PullItem env)
  /-- The frames whose entries the log has not settled, or whose settling is not seen yet. -/
  frames : Table Nat (Nat × MsgEntries) Prod.fst
  nextFrame : Nat
  floors : List FloorOutcome
  -- history
  advertised : StreamId → Nat
  peerFgen : StreamId → Nat
  /-- The highest floor that an answer did not take the stream across. -/
  uncrossed : StreamId → Option Nat

namespace Pull

variable {env : Env} {shared : Topic → Bool}

def init (log : SessionLog env shared) (lastCommon : StreamId → Option Nat) : Pull env shared where
  log := log
  lastCommon := lastCommon
  known := fun _ => 0
  wants := .init
  recoveryProgress := fun _ => none
  syncProgress := fun _ => none
  stalled := fun _ => false
  queue := []
  frames := .empty
  nextFrame := 0
  floors := []
  advertised := fun _ => 0
  peerFgen := fun _ => 0
  uncrossed := fun _ => none

def stream (σ : Pull env shared) (k : StreamId) : Stream := (σ.log.held k).stream

def contigSeq (σ : Pull env shared) (k : StreamId) : Nat := (σ.stream k).head.contigSeq

def recoveryFrom (σ : Pull env shared) (k : StreamId) : Nat :=
  match σ.lastCommon k with
  | some lastCommon =>
    if lastCommon ≤ MAX_SAFE_INTEGER ∧ lastCommon > 0 then lastCommon + 1 else 1
  | none => 1

/-- Where the next WANT of a stream starts. -/
def wantFrom (σ : Pull env shared) (k : StreamId) : Nat :=
  if (σ.stream k).recovery.isSome then σ.recoveryFrom k else σ.contigSeq k + 1

/-- `pumpWants` passes a sealed stream over that is not recovering. -/
def drops (σ : Pull env shared) (k : StreamId) : Bool :=
  (σ.stream k).head.sealReason.isSome && (σ.stream k).recovery.isNone

def queueWant (σ : Pull env shared) (k : StreamId) : Pull env shared :=
  { σ with wants := σ.wants.queueWant σ.drops σ.wantFrom k }

def finishWant (σ : Pull env shared) (req : Nat) : Pull env shared :=
  { σ with wants := σ.wants.finishWant σ.drops σ.wantFrom req }

/-- Fork path ②: the peer's chain disagrees with the verified entries. -/
def contradicts (σ : Pull env shared) (k : StreamId) (v : LiveVec) : Bool :=
  decide (v.contig > 0 ∧ v.contig ≤ σ.contigSeq k) &&
    (if v.contig = σ.contigSeq k then some (σ.stream k).head.contigChain
      else ((σ.stream k).rows v.contig).map LogEntry.chain).any fun chain => decide (chain ≠ v.chain)

/-- `known.set`. -/
def know (σ : Pull env shared) (k : StreamId) (seq : Nat) : Pull env shared :=
  { σ with known := Function.update σ.known k seq }

def processWriter (k : StreamId) (σ : Pull env shared) (w : WriterVec) :
    Pull env shared :=
  let σ := σ.know k w.acked
  match w with
  | .retired _ => if (σ.stream k).recovery.isSome then σ.queueWant k else σ
  | .live v =>
    if (σ.stream k).head.sealReason.isSome then
      if (σ.stream k).recovery.isSome then σ.queueWant k else σ
    else if σ.contradicts k v then { σ with queue := σ.queue ++ [PullItem.sealStream k] }
    else if v.contig > σ.contigSeq k then σ.queueWant k
    else σ

/-- The history of a round. -/
def advertise (fgen : Nat) (k : StreamId) (σ : Pull env shared) (w : WriterVec) : Pull env shared :=
  { σ with
    peerFgen := Function.update σ.peerFgen k fgen
    advertised := match w with
      | .live v => Function.update σ.advertised k (max (σ.advertised k) v.contig)
      | .retired _ => σ.advertised }

/-- A certified topic is passed over as long as no certificate is held: no WANT below a cut. -/
def hearWriter (fgen : Nat) (k : StreamId) (σ : Pull env shared) (w : WriterVec) :
    Pull env shared :=
  let σ := σ.advertise fgen k w
  if (σ.log.certs k.1).isNone ∧ fgen > 0 then σ else σ.processWriter k w

def processTopic (σ : Pull env shared) (v : TopicVec) : Pull env shared :=
  if shared v.topic then
    v.writers.rows.foldl (fun σ w => σ.hearWriter (v.fgen.getD 0) (v.topic, w.1) w.2) σ
  else σ

/-- A completed HAVE round. -/
def processPeerVectors (σ : Pull env shared) (vectors : HaveVectors) : Pull env shared :=
  vectors.rows.foldl processTopic σ

/-- The valid entries of a frame. -/
def received (env : Env) (peerId : String) (m : MsgEntries) : List (ExternalItem env) :=
  m.entries.filterMap fun raw =>
    if h : ((validateEntry env raw).isOk = true ∧ raw.stream = (m.topic, m.writer)) ∧
        (env.topics raw.topic).isSome = true then
      some { entry := raw, via := some peerId, valid := validateEntry_self h.1.1, known := h.2 }
    else none

def onEntries (σ : Pull env shared) (peerId : String) (m : MsgEntries) : Pull env shared :=
  if shared m.topic then
    { σ with
      known := Function.update σ.known (m.topic, m.writer) (max (σ.known (m.topic, m.writer)) m.toSeq)
      queue := σ.queue ++ (received env peerId m).map (.entry (some σ.nextFrame))
      frames := σ.frames.upsert (σ.nextFrame, m)
      nextFrame := σ.nextFrame + 1 }
  else σ

/-- What `onEntries` decides once the answer to a WANT is applied. -/
def afterRound (σ : Pull env shared) (k : StreamId) (toSeq : Nat) : Pull env shared :=
  if (σ.stream k).recovery.isSome then
    let σ' := { σ with
      recoveryProgress := Function.update σ.recoveryProgress k (some (σ.contigSeq k)) }
    if (σ.recoveryProgress k).any fun before => decide (before ≥ σ.contigSeq k) then
      { σ' with log := σ'.log.noteUnavailable k }
    else σ'.queueWant k
  else if (σ.stream k).head.sealReason = none ∧ toSeq > σ.contigSeq k then
    if (σ.log.certs k.1).any fun cert => decide (cert.cutSeq k.2 > σ.contigSeq k) then σ
    else
      let σ' := { σ with syncProgress := Function.update σ.syncProgress k (some (σ.contigSeq k)) }
      if (σ.syncProgress k).any fun before => decide (before ≥ σ.contigSeq k) then
        { σ' with stalled := Function.update σ.stalled k true }
      else { σ' with stalled := Function.update σ.stalled k false }.queueWant k
  else { σ with
    syncProgress := Function.update σ.syncProgress k none
    stalled := Function.update σ.stalled k false }

/-- The entries of a frame are settled. -/
def afterEntries (σ : Pull env shared) (m : MsgEntries) : Pull env shared :=
  match m.req with
  | none => σ
  | some req =>
    if m.done then
      match σ.wants.activeWants.get req with
      | none => σ
      | some _ => (σ.finishWant req).afterRound (m.topic, m.writer) m.toSeq
    else σ

/-- History: the answer left the stream at or below its floor. -/
def uncross (σ : Pull env shared) (m : MsgTruncated) : Pull env shared :=
  let k := (m.topic, m.writer)
  { σ with uncrossed :=
      Function.update σ.uncrossed k (some (max ((σ.uncrossed k).getD 0) m.floorSeq)) }

/-- A floor outside what the WANT asked for and the peer has. -/
def misplaced (σ : Pull env shared) (want : StreamWant) (m : MsgTruncated) : Prop :=
  m.floorSeq < want.fromSeq ∨ m.floorSeq > σ.known (m.topic, m.writer)

instance (σ : Pull env shared) (want : StreamWant) (m : MsgTruncated) :
    Decidable (σ.misplaced want m) :=
  inferInstanceAs (Decidable (_ ∨ _))

def onTruncated (σ : Pull env shared) (m : MsgTruncated) : Pull env shared :=
  let k := (m.topic, m.writer)
  if shared m.topic then
    match σ.wants.activeWants.get m.req with
    | none => σ
    | some want =>
      if want.stream ≠ k then σ
      else if σ.misplaced want m then (σ.uncross m).finishWant m.req
      else { σ with queue := σ.queue ++ [.adoptFloor m (σ.known k)] }
  else σ

/-- What `onTruncated` decides once the floor is adopted or not. -/
def afterFloor (σ : Pull env shared) (a : FloorOutcome) : Pull env shared :=
  let k := (a.m.topic, a.m.writer)
  if a.refused then (σ.uncross a.m).finishWant a.m.req
  else
    let σ := σ.finishWant a.m.req
    if σ.contigSeq k < a.peerHead then σ.queueWant k else σ

/-- The log takes up the next item. -/
def flush (σ : Pull env shared) (now : Nat) : Option (Pull env shared) :=
  match σ.queue with
  | [] => none
  | item :: rest =>
    let σ := { σ with queue := rest }
    match item with
    | .entry _ item => some { σ with log := σ.log.ingest item now }
    | .sealStream k => some { σ with log := σ.log.sealStream k }
    | .adoptFloor m peerHead =>
      let log := σ.log.adoptFloor m now
      let refused := match (log.held (m.topic, m.writer)).settle.getLast? with
        | some (.adoptedFloor .refused) => true
        | _ => false
      some { σ with log := log, floors := σ.floors ++ [⟨m, peerHead, refused⟩] }

end Pull

/-- What can happen on a session, one callback at a time. -/
inductive PullEvent (env : Env) where
  /-- A HAVE round is complete. -/
  | round (vectors : HaveVectors)
  | entries (peerId : String) (m : MsgEntries)
  | truncated (m : MsgTruncated)
  /-- An entry from elsewhere: another peer, or an import. -/
  | relay (item : ExternalItem env)
  /-- The pump has pushed the entries up to a position. -/
  | pushed (k : StreamId) (seq : Nat)
  | flush (now : Nat)
  /-- `Promise.all` over the entries of a frame resolves. -/
  | settled (frame : Nat)
  /-- The promise of an adoption resolves. -/
  | adopted

def pullStep (σ : Pull env shared) : PullEvent env → Option (Pull env shared)
  | .round vectors => some (σ.processPeerVectors vectors)
  | .entries peerId m => some (σ.onEntries peerId m)
  | .truncated m => some (σ.onTruncated m)
  | .relay item => some { σ with queue := σ.queue ++ [.entry none item] }
  | .pushed k seq => some (σ.know k seq)
  | .flush now => σ.flush now
  | .settled frame =>
    match σ.frames.get frame with
    | none => none
    | some (_, m) =>
      if σ.queue.any fun item => decide (item.frame = some frame) then none
      else some ({ σ with frames := σ.frames.delete frame }.afterEntries m)
  | .adopted =>
    match σ.floors with
    | [] => none
    | a :: rest => some ({ σ with floors := rest }.afterFloor a)

namespace Pull

variable {env : Env} {shared : Topic → Bool}

def Sealed (σ : Pull env shared) (k : StreamId) : Prop := (σ.stream k).head.sealReason ≠ none

/-- The peer has a certificate of the topic, and this node has none. -/
def AwaitsCert (σ : Pull env shared) (k : StreamId) : Prop :=
  σ.log.certs k.1 = none ∧ 0 < σ.peerFgen k

/-- The stream is below the cut that a snapshot would take it to. -/
def AwaitsSnapshot (σ : Pull env shared) (k : StreamId) : Prop :=
  ∃ cert, σ.log.certs k.1 = some cert ∧ σ.contigSeq k < cert.cutSeq k.2

def BelowFloor (σ : Pull env shared) (k : StreamId) : Prop :=
  ∃ floorSeq, σ.uncrossed k = some floorSeq ∧ σ.contigSeq k ≤ floorSeq

/-- Why a known deficit may wait. -/
def Excused (σ : Pull env shared) (k : StreamId) : Prop :=
  σ.Sealed k ∨ σ.stalled k = true ∨ σ.BelowFloor k ∨ σ.AwaitsCert k ∨ σ.AwaitsSnapshot k

def Covered (σ : Pull env shared) (k : StreamId) : Prop :=
  σ.wants.Wanted k ∨ σ.advertised k ≤ σ.contigSeq k ∨ σ.Excused k

/-- The deficit of the stream waits only for a floor or a cut to be crossed. -/
def Exposed (σ : Pull env shared) (k : StreamId) : Prop :=
  σ.contigSeq k < σ.advertised k ∧ ¬ σ.wants.Wanted k ∧ ¬ σ.Sealed k ∧ σ.stalled k = false ∧
    ¬ σ.AwaitsCert k

/-- A position that the stream need not go beyond. -/
def Reaches (σ : Pull env shared) (k : StreamId) (seq : Nat) : Prop :=
  σ.advertised k ≤ seq ∨ σ.advertised k ≤ σ.contigSeq k ∨ σ.Sealed k

def StaysBelow (σ : Pull env shared) (k : StreamId) (floorSeq : Nat) : Prop :=
  σ.contigSeq k ≤ floorSeq ∨ σ.advertised k ≤ σ.contigSeq k ∨ σ.Sealed k

end Pull

/-- No item takes a stream across the floor or the cut that its deficit waits for. -/
def PullItem.Timely (σ : Pull env shared) : PullItem env → Prop
  | .entry _ item =>
    σ.Exposed item.entry.stream → item.entry.seq ≠ σ.contigSeq item.entry.stream + 1
  | .sealStream _ => True
  | .adoptFloor m _ => ¬ σ.Exposed (m.topic, m.writer)

/-- The condition on a callback: no answer is older than what has been advertised. -/
def PullEvent.Timely (σ : Pull env shared) : PullEvent env → Prop
  | .round vectors => ∀ v ∈ vectors.rows, ∀ w ∈ v.writers.rows,
      σ.AwaitsCert (v.topic, w.1) → 0 < v.fgen.getD 0
  | .truncated m => ∀ want ∈ σ.wants.activeWants.get m.req, σ.misplaced want m →
      σ.StaysBelow (m.topic, m.writer) m.floorSeq
  | .flush _ => ∀ item ∈ σ.queue.head?, item.Timely σ
  | .settled frame => ∀ p ∈ σ.frames.get frame, p.2.done = true →
      ∀ req ∈ p.2.req, ∀ want ∈ σ.wants.activeWants.get req,
        want.stream = (p.2.topic, p.2.writer) ∧ σ.Reaches (p.2.topic, p.2.writer) p.2.toSeq
  | .adopted => ∀ a ∈ σ.floors.head?,
      if a.refused then σ.StaysBelow (a.m.topic, a.m.writer) a.m.floorSeq
      else σ.Reaches (a.m.topic, a.m.writer) a.peerHead
  | _ => True

namespace Pull

variable {env : Env} {shared : Topic → Bool} {σ σ' : Pull env shared} {k : StreamId}

/-- A WANT of the request, if it is still out, is one of the answer's stream. -/
def Owns (σ : Pull env shared) (m : MsgTruncated) : Prop :=
  m.req ≤ σ.wants.wantReq ∧
    ∀ want, σ.wants.activeWants.get m.req = some want → want.stream = (m.topic, m.writer)

structure Framed (σ : Pull env shared) : Prop where
  wants : σ.wants.Sound
  adopting : ∀ m peerHead, .adoptFloor m peerHead ∈ σ.queue → σ.Owns m
  adopted : ∀ a ∈ σ.floors, σ.Owns a.m
  frames : ∀ p ∈ σ.frames.rows, shared p.2.topic = true

structure Sound (σ : Pull env shared) : Prop extends σ.Framed where
  covered : ∀ k, σ.Covered k

/-- What covers a stream apart from its WANTs stays. -/
theorem Covered.mono (h : σ.Covered k) (hstream : σ'.stream k = σ.stream k)
    (hcerts : σ'.log.certs = σ.log.certs) (hadvertised : σ'.advertised k = σ.advertised k)
    (hfgen : σ'.peerFgen k = σ.peerFgen k) (huncrossed : σ'.uncrossed k = σ.uncrossed k)
    (hstalled : σ'.stalled k = σ.stalled k)
    (hwanted : σ.wants.Wanted k → σ'.wants.Wanted k ∨ σ.Sealed k) : σ'.Covered k := by
  have hsealed (hseal : σ.Sealed k) : σ'.Sealed k := by rwa [Sealed, hstream]
  rcases h with h | h | h | h | ⟨floorSeq, hfloor, hle⟩ | ⟨hcert, hfgen'⟩ | ⟨cert, hcert, hlt⟩
  · exact (hwanted h).imp_right fun h => .inr (.inl (hsealed h))
  · refine .inr (.inl ?_)
    rwa [hadvertised, contigSeq, hstream]
  · exact .inr (.inr (.inl (hsealed h)))
  · exact .inr (.inr (.inr (.inl (hstalled.trans h))))
  · refine .inr (.inr (.inr (.inr (.inl ⟨floorSeq, huncrossed.trans hfloor, ?_⟩))))
    rwa [contigSeq, hstream]
  · refine .inr (.inr (.inr (.inr (.inr (.inl ⟨?_, ?_⟩)))))
    · rwa [hcerts]
    · rwa [hfgen]
  · refine .inr (.inr (.inr (.inr (.inr (.inr ⟨cert, ?_, ?_⟩)))))
    · rwa [hcerts]
    · rwa [contigSeq, hstream]

theorem sealed_of_drops (h : σ.drops k = true) : σ.Sealed k :=
  Option.isSome_iff_ne_none.1 (Bool.and_eq_true_iff.1 h).1

theorem Framed.of_wants (h : σ.Framed) {w : Wants} (hw : w.Sound)
    (hlater : σ.wants.wantReq ≤ w.wantReq)
    (hsame : ∀ req want, req ≤ σ.wants.wantReq → w.activeWants.get req = some want →
      σ.wants.activeWants.get req = some want) : { σ with wants := w }.Framed := by
  have howns (m : MsgTruncated) (hm : σ.Owns m) : { σ with wants := w }.Owns m :=
    ⟨hm.1.trans hlater, fun want hget => hm.2 want (hsame m.req want hm.1 hget)⟩
  exact ⟨hw, fun m peerHead hm => howns m (h.adopting m peerHead hm),
    fun a ha => howns a.m (h.adopted a ha), h.frames⟩

/-- The stream that is queued need not have been covered. -/
theorem Framed.queueWant (h : σ.Framed) (hothers : ∀ k', k' ≠ k → σ.Covered k') :
    (σ.queueWant k).Sound := by
  obtain ⟨hsound, hkept, hwanted⟩ := h.wants.queueWant σ.drops σ.wantFrom k
  refine ⟨h.of_wants hsound hkept.later hkept.same, fun k' => ?_⟩
  by_cases hk : k' = k
  · subst hk
    exact hwanted.imp_right fun hdrops => .inr (.inl (sealed_of_drops hdrops))
  · refine (hothers k' hk).mono rfl rfl rfl rfl rfl rfl ?_
    exact fun hw => (hkept.wanted k' hw).imp_right sealed_of_drops

/-- Finishing a WANT uncovers its own stream at most. -/
theorem Framed.finishWant (h : σ.Framed) (req : Nat)
    (hstream : ∀ want, σ.wants.activeWants.get req = some want → want.stream = k)
    (hothers : ∀ k', k' ≠ k → σ.Covered k') :
    (σ.finishWant req).Framed ∧ ∀ k', k' ≠ k → (σ.finishWant req).Covered k' := by
  obtain ⟨hsound, hwanted, hlater, hsame⟩ :=
    h.wants.finishWant σ.drops σ.wantFrom req
  refine ⟨h.of_wants hsound hlater hsame, fun k' hk => ?_⟩
  refine (hothers k' hk).mono rfl rfl rfl rfl rfl rfl fun hw => ?_
  rcases hwanted k' hw with hw | hdrops | ⟨want, hget, rfl⟩
  · exact .inl hw
  · exact .inr (sealed_of_drops hdrops)
  · exact absurd (hstream want hget) hk

/-- The stream of a changed head stays covered where it was. -/
theorem Sound.put (h : σ.Sound) {L : Local} (hgoes : (σ.log.held k).stream.Goes L.stream)
    (hstill : σ.Exposed k →
      L.stream.head.contigSeq = σ.contigSeq k ∨ L.stream.head.sealReason ≠ none) :
    { σ with log := σ.log.put k L hgoes }.Sound := by
  refine ⟨⟨h.wants, h.adopting, h.adopted, h.frames⟩, fun k' => ?_⟩
  by_cases hk : k' = k
  · subst hk
    have hself : { σ with log := σ.log.put k' L hgoes }.stream k' = L.stream :=
      congrArg Local.stream (Function.update_self _ _ _)
    have hsealed (hseal : L.stream.head.sealReason ≠ none) :
        { σ with log := σ.log.put k' L hgoes }.Sealed k' := by
      rwa [Sealed, hself]
    have hcontig : { σ with log := σ.log.put k' L hgoes }.contigSeq k' =
        L.stream.head.contigSeq := by
      rw [contigSeq, hself]
    by_cases hexposed : σ.Exposed k'
    · rcases hstill hexposed with hsame | hseal
      · rcases h.covered k' with hc | hc | hc | hc | ⟨floorSeq, hfloor, hle⟩ | hc | ⟨cert, hcert, hlt⟩
        · exact .inl hc
        · exact absurd hexposed.1 (Nat.not_lt_of_le hc)
        · exact absurd hc hexposed.2.2.1
        · exact .inr (.inr (.inr (.inl hc)))
        · refine .inr (.inr (.inr (.inr (.inl ⟨floorSeq, hfloor, ?_⟩))))
          rwa [hcontig, hsame]
        · exact .inr (.inr (.inr (.inr (.inr (.inl hc)))))
        · refine .inr (.inr (.inr (.inr (.inr (.inr ⟨cert, hcert, ?_⟩)))))
          rwa [hcontig, hsame]
      · exact .inr (.inr (.inl (hsealed hseal)))
    · by_cases hwanted : σ.wants.Wanted k'
      · exact .inl hwanted
      by_cases hseal : σ.Sealed k'
      · exact .inr (.inr (.inl (hsealed (hgoes.sealed hseal))))
      by_cases hstalled : σ.stalled k' = true
      · exact .inr (.inr (.inr (.inl hstalled)))
      by_cases hcert : σ.AwaitsCert k'
      · exact .inr (.inr (.inr (.inr (.inr (.inl hcert)))))
      have hmet : σ.advertised k' ≤ σ.contigSeq k' := by
        by_contra hlt
        exact hexposed ⟨Nat.lt_of_not_le hlt, hwanted, hseal, Bool.eq_false_of_not_eq_true hstalled,
          hcert⟩
      rcases hgoes.on with hle | hseal'
      · refine .inr (.inl ?_)
        rw [hcontig]
        exact hmet.trans hle
      · exact .inr (.inr (.inl (hsealed hseal')))
  · refine (h.covered k').mono ?_ rfl rfl rfl rfl rfl .inl
    exact congrArg Local.stream (Function.update_of_ne hk _ _)

/-- What a round says of one writer leaves no deficit behind that is not queued. -/
theorem Sound.writer (h : σ.Sound) (fgen : Nat) (k : StreamId) (w : WriterVec)
    (hfgen : σ.AwaitsCert k → 0 < fgen) :
    (σ.hearWriter fgen k w).Sound := by
  have hself : (σ.advertise fgen k w).peerFgen k = fgen := Function.update_self _ _ _
  have hothers (k' : StreamId) (hk : k' ≠ k) : (σ.advertise fgen k w).Covered k' := by
    refine (h.covered k').mono rfl rfl ?_ (Function.update_of_ne hk _ _) rfl rfl .inl
    cases w with
    | live v => exact Function.update_of_ne hk _ _
    | retired => rfl
  rw [hearWriter]
  split
  next hskip =>
    refine ⟨⟨h.wants, h.adopting, h.adopted, h.frames⟩, fun k' => ?_⟩
    by_cases hk : k' = k
    · subst hk
      refine .inr (.inr (.inr (.inr (.inr (.inl ⟨Option.isNone_iff_eq_none.1 hskip.1, ?_⟩)))))
      rw [hself]
      exact hskip.2
    · exact hothers k' hk
  next hskip =>
    have hcert : ¬ σ.AwaitsCert k := fun hc =>
      hskip ⟨Option.isNone_iff_eq_none.2 hc.1, hfgen hc⟩
    rw [processWriter.eq_def]
    dsimp only
    generalize hσ : (σ.advertise fgen k w).know k w.acked = τ
    have hframed : τ.Framed := hσ ▸ ⟨h.wants, h.adopting, h.adopted, h.frames⟩
    have hrest (k' : StreamId) (hk : k' ≠ k) : τ.Covered k' := by
      subst hσ
      exact (hothers k' hk).mono rfl rfl rfl rfl rfl rfl .inl
    -- the exits that queue nothing
    have hquiet (hle : ∀ v, w = .live v → v.contig ≤ σ.contigSeq k ∨ σ.Sealed k) : τ.Sound := by
      refine ⟨hframed, fun k' => ?_⟩
      by_cases hk : k' = k
      · subst hk hσ
        by_cases hseal : σ.Sealed k'
        · exact .inr (.inr (.inl hseal))
        rcases h.covered k' with hc | hc | hc | hc | hc | hc | hc
        · exact .inl hc
        · refine .inr (.inl ?_)
          cases w with
          | live v =>
            refine (Nat.le_of_eq (Function.update_self _ _ _)).trans ?_
            exact max_le hc ((hle v rfl).resolve_right hseal)
          | retired => exact hc
        · exact absurd hc hseal
        · exact .inr (.inr (.inr (.inl hc)))
        · exact .inr (.inr (.inr (.inr (.inl hc))))
        · exact absurd hc hcert
        · exact .inr (.inr (.inr (.inr (.inr (.inr hc)))))
      · exact hrest k' hk
    have hstream : τ.stream k = σ.stream k := hσ ▸ rfl
    have hcontig : τ.contigSeq k = σ.contigSeq k := by rw [contigSeq, contigSeq, hstream]
    cases w with
    | retired =>
      dsimp only
      split
      next => exact hframed.queueWant hrest
      next => exact hquiet nofun
    | live v =>
      dsimp only
      split
      next hseal =>
        split
        next => exact hframed.queueWant hrest
        next =>
          refine hquiet fun _ _ => .inr ?_
          rw [hstream] at hseal
          exact Option.isSome_iff_ne_none.1 hseal
      next =>
      split
      next hcontradicts =>
        have hle := (of_decide_eq_true (Bool.and_eq_true_iff.1 hcontradicts).1).2
        have hsound := hquiet fun v' hv' => by
          cases hv'
          exact .inl (hcontig ▸ hle)
        refine ⟨⟨hsound.wants, fun m peerHead hm => ?_, hsound.adopted, hsound.frames⟩, fun k' =>
          (hsound.covered k').mono rfl rfl rfl rfl rfl rfl .inl⟩
        rcases List.mem_append.1 hm with hm | hm
        · exact hsound.adopting m peerHead hm
        · cases List.mem_singleton.1 hm
      next =>
      split
      next => exact hframed.queueWant hrest
      next hle =>
        refine hquiet fun v' hv' => ?_
        cases hv'
        exact .inl (hcontig ▸ Nat.le_of_not_lt hle)

theorem processWriter_same (σ : Pull env shared) (k : StreamId) (w : WriterVec) :
    (σ.processWriter k w).log = σ.log ∧ (σ.processWriter k w).peerFgen = σ.peerFgen := by
  rw [processWriter.eq_def]
  dsimp only
  cases w with
  | retired =>
    dsimp only
    split <;> exact ⟨rfl, rfl⟩
  | live v =>
    dsimp only
    split
    next => split <;> exact ⟨rfl, rfl⟩
    next =>
    split
    next => exact ⟨rfl, rfl⟩
    next => split <;> exact ⟨rfl, rfl⟩

theorem hearWriter_same (σ : Pull env shared) (fgen : Nat) (k : StreamId) (w : WriterVec) :
    (σ.hearWriter fgen k w).log = σ.log ∧
      (σ.hearWriter fgen k w).peerFgen = Function.update σ.peerFgen k fgen := by
  rw [hearWriter]
  split
  next => exact ⟨rfl, rfl⟩
  next => exact processWriter_same (σ.advertise fgen k w) k w

/-- A session in the middle of a round. -/
structure Rounding (σ : Pull env shared) (vectors : HaveVectors) (τ : Pull env shared) : Prop where
  sound : τ.Sound
  log : τ.log = σ.log
  fgen : ∀ k, τ.peerFgen k = σ.peerFgen k ∨
    ∃ v ∈ vectors.rows, v.topic = k.1 ∧ τ.peerFgen k = v.fgen.getD 0

/-- A round names each topic once, so it does not take back that the peer has a certificate. -/
theorem Sound.round (h : σ.Sound) {vectors : HaveVectors}
    (htimely : PullEvent.Timely σ (.round vectors)) : (σ.processPeerVectors vectors).Sound := by
  have hend : σ.Rounding vectors (σ.processPeerVectors vectors) := by
    refine List.foldlRecOn vectors.rows processTopic (motive := σ.Rounding vectors)
      ⟨h, rfl, fun _ => .inl rfl⟩ ?_
    intro τ hτ v hv
    rw [processTopic]
    split
    next =>
      refine List.foldlRecOn v.writers.rows _ (motive := σ.Rounding vectors) hτ ?_
      intro τ ⟨hsound, hlog, hfgen⟩ w hw
      have hwaits (hawaits : τ.AwaitsCert (v.topic, w.1)) : 0 < v.fgen.getD 0 := by
        rcases hfgen (v.topic, w.1) with hsame | ⟨v', hv', htopic, hseen⟩
        · apply htimely v hv w hw
          rw [AwaitsCert, ← hlog, ← hsame]
          exact hawaits
        · have heq : v' = v := List.inj_on_of_nodup_map vectors.nodup hv' hv htopic
          rw [← heq, ← hseen]
          exact hawaits.2
      obtain ⟨hsame, hset⟩ := hearWriter_same τ (v.fgen.getD 0) (v.topic, w.1) w.2
      refine ⟨hsound.writer _ (v.topic, w.1) w.2 hwaits, hsame.trans hlog, fun k => ?_⟩
      rw [hset]
      by_cases hk : k = (v.topic, w.1)
      · subst hk
        exact .inr ⟨v, hv, rfl, Function.update_self _ _ _⟩
      · rw [Function.update_of_ne hk]
        exact hfgen k
    next => exact hτ
  exact hend.sound

theorem Sound.entries (h : σ.Sound) (peerId : String) (m : MsgEntries) :
    (σ.onEntries peerId m).Sound := by
  rw [onEntries]
  split
  next hshared =>
    refine ⟨⟨h.wants, fun m' peerHead hm => ?_, h.adopted, fun p hp => ?_⟩,
      fun k => (h.covered k).mono rfl rfl rfl rfl rfl rfl .inl⟩
    · rcases List.mem_append.1 hm with hm | hm
      · exact h.adopting m' peerHead hm
      · obtain ⟨item, -, heq⟩ := List.mem_map.1 hm
        cases heq
    · rcases Table.mem_upsert.1 hp with rfl | ⟨hp, -⟩
      · exact hshared
      · exact h.frames p hp
  next => exact h

theorem Sound.relay (h : σ.Sound) (item : ExternalItem env) :
    { σ with queue := σ.queue ++ [PullItem.entry none item] }.Sound := by
  refine ⟨⟨h.wants, fun m peerHead hm => ?_, h.adopted, h.frames⟩,
    fun k => (h.covered k).mono rfl rfl rfl rfl rfl rfl .inl⟩
  rcases List.mem_append.1 hm with hm | hm
  · exact h.adopting m peerHead hm
  · cases List.mem_singleton.1 hm

/-- An answer that leaves a stream at or below its floor excuses it. -/
theorem Framed.uncross (h : σ.Framed) {m : MsgTruncated}
    (hstream : ∀ want, σ.wants.activeWants.get m.req = some want →
      want.stream = (m.topic, m.writer))
    (hothers : ∀ k, k ≠ (m.topic, m.writer) → σ.Covered k)
    (hbelow : σ.StaysBelow (m.topic, m.writer) m.floorSeq) :
    ((σ.uncross m).finishWant m.req).Sound := by
  have hframed : (σ.uncross m).Framed := ⟨h.wants, h.adopting, h.adopted, h.frames⟩
  obtain ⟨hfinished, hrest⟩ := hframed.finishWant m.req (k := (m.topic, m.writer)) hstream fun k hk =>
    (hothers k hk).mono rfl rfl rfl rfl (Function.update_of_ne hk _ _) rfl .inl
  refine ⟨hfinished, fun k => ?_⟩
  by_cases hk : k = (m.topic, m.writer)
  · subst hk
    rcases hbelow with hle | hmet | hseal
    · refine .inr (.inr (.inr (.inr (.inl ⟨_, Function.update_self _ _ _, ?_⟩))))
      exact hle.trans (Nat.le_max_right _ _)
    · exact .inr (.inl hmet)
    · exact .inr (.inr (.inl hseal))
  · exact hrest k hk

theorem Sound.truncated (h : σ.Sound) {m : MsgTruncated}
    (htimely : PullEvent.Timely σ (.truncated m)) : (σ.onTruncated m).Sound := by
  rw [onTruncated]
  split
  next =>
    split
    next => exact h
    next want hget =>
      split
      next => exact h
      next hstream =>
      have howner (want' : StreamWant) (hget' : σ.wants.activeWants.get m.req = some want') :
          want'.stream = (m.topic, m.writer) := by
        obtain rfl := Option.some.inj (hget.symm.trans hget')
        exact not_not.1 hstream
      split
      next hmisplaced =>
        exact h.uncross howner (fun k _ => h.covered k) (htimely want hget hmisplaced)
      next =>
        refine ⟨⟨h.wants, fun m' peerHead hm => ?_, h.adopted, h.frames⟩,
          fun k => (h.covered k).mono rfl rfl rfl rfl rfl rfl .inl⟩
        rcases List.mem_append.1 hm with hm | hm
        · exact h.adopting m' peerHead hm
        · obtain ⟨rfl, -⟩ := PullItem.adoptFloor.inj (List.mem_singleton.1 hm)
          refine ⟨?_, howner⟩
          obtain ⟨hmem, hreq⟩ := Table.get_eq_some_iff.1 hget
          exact hreq ▸ h.wants.reqs want hmem
  next => exact h

theorem Sound.flush (h : σ.Sound) {now : Nat} (htimely : PullEvent.Timely σ (.flush now))
    (hflush : σ.flush now = some σ') : σ'.Sound := by
  rw [Pull.flush] at hflush
  split at hflush
  next => cases hflush
  next item rest hqueue =>
  replace htimely : item.Timely σ := htimely item (by rw [hqueue]; rfl)
  have hmem (item' : PullItem env) (h : item' ∈ rest) : item' ∈ σ.queue := by
    rw [hqueue]
    exact List.mem_cons_of_mem item h
  have htail : { σ with queue := rest }.Sound :=
    ⟨⟨h.wants, fun m peerHead hm => h.adopting m peerHead (hmem _ hm), h.adopted, h.frames⟩,
      fun k => (h.covered k).mono rfl rfl rfl rfl rfl rfl .inl⟩
  cases item with
  | entry frame item =>
    obtain rfl := Option.some.inj hflush
    have hid := (σ.log.named item.entry.stream).symm
    have hpos := one_le_seq_of_validateEntry item.valid
    refine htail.put (SessionLog.goes_ingest hid hpos) fun hexposed => .inl ?_
    apply SessionLog.contigSeq_ingest hid hpos
    · exact not_not.1 hexposed.2.2.1
    · exact htimely hexposed
  | sealStream k =>
    obtain rfl := Option.some.inj hflush
    refine htail.put (SessionLog.goes_processSeal k.1 k.2) fun _ => .inr ?_
    rw [Local.processSeal]
    split
    next => exact nofun
    next hseal => exact hseal
  | adoptFloor m peerHead =>
    obtain rfl := Option.some.inj hflush
    have hput := htail.put (SessionLog.goes_adoptFloor env (m.topic, m.writer) now m _)
      fun hexposed => absurd hexposed htimely
    refine ⟨⟨hput.wants, hput.adopting, fun a ha => ?_, hput.frames⟩, fun k =>
      (hput.covered k).mono rfl rfl rfl rfl rfl rfl .inl⟩
    rcases List.mem_append.1 ha with ha | ha
    · exact hput.adopted a ha
    · obtain rfl := List.mem_singleton.1 ha
      apply h.adopting m peerHead
      rw [hqueue]
      exact List.mem_cons_self

/-- After a completed answer a stream has reached what it need reach, waits, or is queued again. -/
theorem Framed.afterRound (h : σ.Framed) (hshared : shared k.1 = true)
    (hothers : ∀ k', k' ≠ k → σ.Covered k') (hreaches : σ.Reaches k toSeq) :
    (σ.afterRound k toSeq).Sound := by
  -- what changes for this stream only
  have hself {τ : Pull env shared} (hlog : τ.log = σ.log)
      (hwants : τ.wants = σ.wants) (hadvertised : τ.advertised = σ.advertised)
      (hfgen : τ.peerFgen = σ.peerFgen) (huncrossed : τ.uncrossed = σ.uncrossed)
      (hstalled : ∀ k', k' ≠ k → τ.stalled k' = σ.stalled k') (k' : StreamId) (hk : k' ≠ k) :
      τ.Covered k' := by
    refine (hothers k' hk).mono ?_ ?_ ?_ ?_ ?_ (hstalled k' hk) ?_
    · rw [stream, stream, hlog]
    · rw [hlog]
    · rw [hadvertised]
    · rw [hfgen]
    · rw [huncrossed]
    · rw [hwants]
      exact .inl
  have hjoin {τ : Pull env shared} (hτ : τ.Framed) (hrest : ∀ k', k' ≠ k → τ.Covered k')
      (hcovered : τ.Covered k) : τ.Sound := by
    refine ⟨hτ, fun k' => ?_⟩
    by_cases hk : k' = k
    · rwa [hk]
    · exact hrest k' hk
  rw [Pull.afterRound]
  dsimp only
  split
  next hrecovering =>
    have hseal : σ.Sealed k :=
      σ.log.seeks k hshared (Option.isSome_iff_ne_none.1 hrecovering)
    generalize Function.update σ.recoveryProgress k (some (σ.contigSeq k)) = progress
    generalize hτ : { σ with recoveryProgress := progress } = τ
    have hframed : τ.Framed := hτ ▸ ⟨h.wants, h.adopting, h.adopted, h.frames⟩
    have hrest : ∀ k', k' ≠ k → τ.Covered k' := by
      subst hτ
      exact hself rfl rfl rfl rfl rfl fun _ _ => rfl
    replace hseal : τ.Sealed k := hτ ▸ hseal
    split
    next =>
      have hsound := hjoin hframed hrest (.inr (.inr (.inl hseal)))
      subst hτ
      exact hsound.put (L := (σ.log.held k).map Stream.noteUnavailable)
        SessionLog.goes_noteUnavailable fun hexposed => absurd hseal hexposed.2.2.1
    next => exact hframed.queueWant hrest
  next =>
  split
  next hbehind =>
    split
    next hcut =>
      obtain ⟨cert, hcert, hlt⟩ : ∃ cert, σ.log.certs k.1 = some cert ∧
          σ.contigSeq k < cert.cutSeq k.2 := by
        cases hcert : σ.log.certs k.1 with
        | none =>
          rw [hcert] at hcut
          cases hcut
        | some cert =>
          rw [hcert] at hcut
          exact ⟨cert, rfl, of_decide_eq_true hcut⟩
      exact hjoin h hothers (.inr (.inr (.inr (.inr (.inr (.inr ⟨cert, hcert, hlt⟩))))))
    next =>
      split
      next =>
        refine hjoin ⟨h.wants, h.adopting, h.adopted, h.frames⟩
          (hself rfl rfl rfl rfl rfl fun k' hk => Function.update_of_ne hk _ _) ?_
        exact .inr (.inr (.inr (.inl (Function.update_self _ _ _))))
      next =>
        exact Framed.queueWant ⟨h.wants, h.adopting, h.adopted, h.frames⟩
          (hself rfl rfl rfl rfl rfl fun k' hk => Function.update_of_ne hk _ _)
  next hcaught =>
    refine hjoin ⟨h.wants, h.adopting, h.adopted, h.frames⟩
      (hself rfl rfl rfl rfl rfl fun k' hk => Function.update_of_ne hk _ _) ?_
    by_cases hseal : σ.Sealed k
    · exact .inr (.inr (.inl hseal))
    have hle : toSeq ≤ σ.contigSeq k := by
      by_contra hlt
      exact hcaught ⟨not_not.1 hseal, Nat.lt_of_not_le hlt⟩
    rcases hreaches with hreached | hmet | hsealed
    · exact .inr (.inl (hreached.trans hle))
    · exact .inr (.inl hmet)
    · exact absurd hsealed hseal

theorem Sound.settled (h : σ.Sound) {frame : Nat} {p : Nat × MsgEntries}
    (hget : σ.frames.get frame = some p) (htimely : PullEvent.Timely σ (.settled frame)) :
    ({ σ with frames := σ.frames.delete frame }.afterEntries p.2).Sound := by
  have hframed : { σ with frames := σ.frames.delete frame }.Framed :=
    ⟨h.wants, h.adopting, h.adopted, fun p hp => h.frames p (List.mem_of_mem_filter hp)⟩
  have hsound : { σ with frames := σ.frames.delete frame }.Sound :=
    ⟨hframed, fun k => (h.covered k).mono rfl rfl rfl rfl rfl rfl .inl⟩
  rw [afterEntries]
  split
  next => exact hsound
  next req hreq =>
  split
  next hdone =>
    split
    next => exact hsound
    next want hwant =>
      obtain ⟨hstream, hreaches⟩ := htimely p hget hdone req hreq want hwant
      obtain ⟨hfinished, hrest⟩ := hframed.finishWant req
        (fun want' hwant' => show want'.stream = (p.2.topic, p.2.writer) by
          obtain rfl := Option.some.inj (hwant.symm.trans hwant')
          exact hstream)
        fun k _ => hsound.covered k
      apply hfinished.afterRound (h.frames p (Table.get_eq_some_iff.1 hget).1) hrest
      exact hreaches
  next => exact hsound

theorem Sound.afterFloor (h : σ.Sound) {a : FloorOutcome} {rest : List FloorOutcome}
    (hfloors : σ.floors = a :: rest) (htimely : PullEvent.Timely σ .adopted) :
    ({ σ with floors := rest }.afterFloor a).Sound := by
  have hmem (a' : FloorOutcome) (ha' : a' ∈ rest) : a' ∈ σ.floors := by
    rw [hfloors]
    exact List.mem_cons_of_mem a ha'
  have hsound : { σ with floors := rest }.Sound :=
    ⟨⟨h.wants, h.adopting, fun a' ha' => h.adopted a' (hmem a' ha'), h.frames⟩,
      fun k => (h.covered k).mono rfl rfl rfl rfl rfl rfl .inl⟩
  have howns : σ.Owns a.m := by
    apply h.adopted a
    rw [hfloors]
    exact List.mem_cons_self
  replace htimely := htimely a (by rw [hfloors]; rfl)
  rw [Pull.afterFloor]
  split
  next hrefused =>
    rw [if_pos hrefused] at htimely
    exact hsound.uncross howns.2 (fun k _ => hsound.covered k) htimely
  next hrefused =>
    rw [if_neg hrefused] at htimely
    obtain ⟨hfinished, hothers⟩ := hsound.finishWant a.m.req (k := (a.m.topic, a.m.writer)) howns.2
      fun k _ => hsound.covered k
    dsimp only
    split
    next => exact hfinished.queueWant hothers
    next hle =>
      refine ⟨hfinished, fun k => ?_⟩
      by_cases hk : k = (a.m.topic, a.m.writer)
      · subst hk
        rcases htimely with hreached | hmet | hseal
        · exact .inr (.inl (hreached.trans (Nat.le_of_not_lt hle)))
        · exact .inr (.inl hmet)
        · exact .inr (.inr (.inl hseal))
      · exact hothers k hk

theorem Sound.step (h : σ.Sound) (event : PullEvent env) (htimely : event.Timely σ)
    (hstep : pullStep σ event = some σ') : σ'.Sound := by
  cases event with
  | round vectors =>
    obtain rfl := Option.some.inj hstep
    exact h.round htimely
  | entries peerId m =>
    obtain rfl := Option.some.inj hstep
    exact h.entries peerId m
  | truncated m =>
    obtain rfl := Option.some.inj hstep
    exact h.truncated htimely
  | relay item =>
    obtain rfl := Option.some.inj hstep
    exact h.relay item
  | pushed k seq =>
    obtain rfl := Option.some.inj hstep
    exact ⟨⟨h.wants, h.adopting, h.adopted, h.frames⟩,
      fun k' => (h.covered k').mono rfl rfl rfl rfl rfl rfl .inl⟩
  | flush now => exact h.flush htimely hstep
  | settled frame =>
    rw [pullStep] at hstep
    split at hstep
    next => cases hstep
    next hget =>
      split at hstep
      next => cases hstep
      next =>
        obtain rfl := Option.some.inj hstep
        exact h.settled hget htimely
  | adopted =>
    rw [pullStep] at hstep
    split at hstep
    next => cases hstep
    next hfloors =>
      obtain rfl := Option.some.inj hstep
      exact h.afterFloor hfloors htimely

theorem sound_init (log : SessionLog env shared) (lastCommon : StreamId → Option Nat) :
    (init log lastCommon).Sound where
  wants := ⟨nofun, fun _ h => absurd h List.not_mem_nil⟩
  adopting := fun _ _ h => absurd h List.not_mem_nil
  adopted := fun _ h => absurd h List.not_mem_nil
  frames := fun _ h => absurd h List.not_mem_nil
  covered := fun _ => .inr (.inl (Nat.zero_le _))

/-- No known deficit is forgotten, in every run of a session whose callbacks are timely. -/
theorem no_deficit_forgotten (log : SessionLog env shared) (lastCommon : StreamId → Option Nat)
    {as : List (PullEvent env)} (h : Trace pullStep PullEvent.Timely (init log lastCommon) as σ)
    (k : StreamId) (hqueued : k ∉ σ.wants.wantQueue)
    (hactive : ∀ want ∈ σ.wants.activeWants.rows, want.stream ≠ k) :
    σ.advertised k ≤ σ.contigSeq k ∨ σ.Excused k := by
  have hsound : σ.Sound := h.keeps Sound (sound_init log lastCommon) fun _ event _ hτ htimely hstep =>
    hτ.step event htimely hstep
  rcases hsound.covered k with (hin | ⟨want, hwant, hstream⟩) | hcovered
  · exact absurd hin hqueued
  · exact absurd hstream (hactive want hwant)
  · exact hcovered

/-! Two rounds and one answer. -/

/-- The log of a node that holds nothing. -/
def emptyLog (shared : Topic → Bool) : SessionLog env shared where
  held := (Core.init.view env).localAt
  certs := fun _ => none
  named := fun k => (Core.sound_init k).id
  seeks := fun _ _ hrec => absurd rfl hrec

abbrev HostPull : Type := Pull (hostEnv "b") fun _ => true

def hostPull : HostPull := init (emptyLog _) fun _ => none

/-- The peer's vectors: it has the entries of `w` up to a position. -/
def advert (contig : Nat) : HaveVectors :=
  .ofRows TopicVec.topic
    [⟨"t", none, .ofRows Prod.fst [("w", .live { contig := contig, chain := "", rgen := none })]⟩]

/-- The answer to the first WANT: the first entry, captured when the peer had no more. -/
def firstAnswer : MsgEntries where
  req := some 1
  topic := "t"
  writer := "w"
  fromSeq := 1
  toSeq := 1
  entries := [hostEntry "w" 1 1 "k"
    "2b9b9a7838c39f166c0015237d70501dc4ea31d32bf5c34ee8c0d5d8bdf67e27"]
  done := true

instance (σ : Pull env shared) (k : StreamId) : Decidable (σ.wants.Wanted k) :=
  inferInstanceAs (Decidable (_ ∨ _))

instance (σ : Pull env shared) (k : StreamId) : Decidable (σ.Sealed k) :=
  inferInstanceAs (Decidable (_ ≠ _))

instance (σ : Pull env shared) (k : StreamId) : Decidable (σ.AwaitsCert k) :=
  inferInstanceAs (Decidable (_ ∧ _))

instance (σ : Pull env shared) (k : StreamId) : Decidable (σ.Exposed k) :=
  inferInstanceAs (Decidable (_ ∧ _))

instance (σ : Pull env shared) (k : StreamId) (seq : Nat) : Decidable (σ.Reaches k seq) :=
  inferInstanceAs (Decidable (_ ∨ _))

instance (σ : Pull env shared) (k : StreamId) (seq : Nat) : Decidable (σ.StaysBelow k seq) :=
  inferInstanceAs (Decidable (_ ∨ _))

instance (σ : Pull env shared) : (item : PullItem env) → Decidable (item.Timely σ)
  | .entry .. => inferInstanceAs (Decidable (_ → _))
  | .sealStream _ => .isTrue trivial
  | .adoptFloor .. => inferInstanceAs (Decidable (¬ _))

instance (σ : Pull env shared) : (event : PullEvent env) → Decidable (event.Timely σ)
  | .round vectors => inferInstanceAs (Decidable (∀ v ∈ vectors.rows, ∀ w ∈ v.writers.rows, _ → _))
  | .truncated m => inferInstanceAs (Decidable (∀ want ∈ σ.wants.activeWants.get m.req, _ → _))
  | .flush _ => inferInstanceAs (Decidable (∀ item ∈ σ.queue.head?, item.Timely σ))
  | .settled frame => inferInstanceAs (Decidable (∀ p ∈ σ.frames.get frame, p.2.done = true →
      ∀ req ∈ p.2.req, ∀ want ∈ σ.wants.activeWants.get req, _))
  | .adopted => inferInstanceAs (Decidable (∀ a ∈ σ.floors.head?, if a.refused then _ else _))
  | .entries .. | .relay .. | .pushed .. => .isTrue trivial

/-- A round, its WANT and the answer. -/
def answered : List (PullEvent (hostEnv "b")) :=
  [.round (advert 1), .entries "peer" firstAnswer, .flush 20, .settled 0]

theorem no_deficit_forgotten_of_answer : ∃ σ,
    Trace pullStep PullEvent.Timely hostPull answered σ ∧ σ.contigSeq ("t", "w") = 1 ∧
      (σ.advertised ("t", "w") ≤ σ.contigSeq ("t", "w") ∨ σ.Excused ("t", "w")) := by
  have hrun : (runTrace pullStep PullEvent.Timely hostPull answered).any (fun σ =>
      decide (σ.contigSeq ("t", "w") = 1) && σ.wants.wantQueue.isEmpty &&
        σ.wants.activeWants.rows.isEmpty) = true := by
    decide +kernel
  obtain ⟨σ, hσ, hend⟩ := (Option.any_eq_true _ _).1 hrun
  obtain ⟨hend, hactive⟩ := Bool.and_eq_true_iff.1 hend
  obtain ⟨hcontig, hqueue⟩ := Bool.and_eq_true_iff.1 hend
  have htrace := Trace.of_runTrace hσ
  refine ⟨σ, htrace, of_decide_eq_true hcontig, ?_⟩
  apply no_deficit_forgotten (emptyLog _) (fun _ => none) htrace
  · rw [List.isEmpty_iff.1 hqueue]
    exact List.not_mem_nil
  · rw [List.isEmpty_iff.1 hactive]
    exact fun _ h => absurd h List.not_mem_nil

theorem not_excused (hseal : (σ.stream k).head.sealReason = none) (hstalled : σ.stalled k = false)
    (huncrossed : σ.uncrossed k = none) (hcert : σ.log.certs k.1 = none)
    (hfgen : σ.peerFgen k = 0) : ¬ σ.Excused k := by
  rintro (h | h | ⟨floorSeq, h, -⟩ | ⟨-, h⟩ | ⟨cert, h, -⟩)
  · exact h hseal
  · rw [hstalled] at h
    cases h
  · rw [huncrossed] at h
    cases h
  · rw [hfgen] at h
    exact Nat.lt_irrefl 0 h
  · rw [hcert] at h
    cases h

/-- A second round completes before the answer to the WANT of the first. -/
def overtaken : List (PullEvent (hostEnv "b")) :=
  [.round (advert 1), .round (advert 2), .entries "peer" firstAnswer, .flush 20, .settled 0]

/-- Nothing queues the second entry. -/
theorem newer_deficit_forgotten : ∃ σ : HostPull,
    Trace pullStep (fun _ _ => True) hostPull overtaken σ ∧
    σ.queue = [] ∧ σ.frames.rows = [] ∧ σ.floors = [] ∧
    ("t", "w") ∉ σ.wants.wantQueue ∧
    (∀ want ∈ σ.wants.activeWants.rows, want.stream ≠ ("t", "w")) ∧
    σ.contigSeq ("t", "w") < σ.advertised ("t", "w") ∧ ¬ σ.Excused ("t", "w") := by
  have hrun : (runTrace pullStep (fun _ _ => True) hostPull overtaken).any (fun σ =>
      (σ.queue.isEmpty && σ.frames.rows.isEmpty && σ.floors.isEmpty && σ.wants.wantQueue.isEmpty &&
        σ.wants.activeWants.rows.isEmpty) &&
      decide (σ.contigSeq ("t", "w") < σ.advertised ("t", "w") ∧
        (σ.stream ("t", "w")).head.sealReason = none ∧ σ.stalled ("t", "w") = false ∧
        σ.uncrossed ("t", "w") = none ∧ σ.log.certs "t" = none ∧ σ.peerFgen ("t", "w") = 0)) =
      true := by
    decide +kernel
  obtain ⟨σ, hσ, hend⟩ := (Option.any_eq_true _ _).1 hrun
  obtain ⟨hidle, hdeficit⟩ := Bool.and_eq_true_iff.1 hend
  simp only [Bool.and_eq_true, List.isEmpty_iff] at hidle
  obtain ⟨⟨⟨⟨hqueue, hframes⟩, hfloors⟩, hwaiting⟩, hactive⟩ := hidle
  obtain ⟨hlt, hseal, hstalled, huncrossed, hcert, hfgen⟩ := of_decide_eq_true hdeficit
  refine ⟨σ, Trace.of_runTrace hσ, hqueue, hframes, hfloors, ?_, ?_, hlt,
    not_excused hseal hstalled huncrossed hcert hfgen⟩
  · rw [hwaiting]
    exact List.not_mem_nil
  · rw [hactive]
    exact fun _ h => absurd h List.not_mem_nil

end Pull

end Seqscribe
