import Seqscribe.Absorption
import Seqscribe.Descent
import Seqscribe.Run
import Seqscribe.WantServe

namespace Seqscribe
set_option autoImplicit true

/-! The requester's side of WANT for one stream and one peer: when a finished WANT is followed by
another one. -/

structure WantState where
  req : Nat
  fromSeq : Nat
  deriving DecidableEq, Repr

/-- What the requester keeps of one stream with one peer, and the stream itself. The session is
ready and shares the topic in full. -/
structure Requester where
  held : Local
  cert : Option FinalityCert
  /-- The PROBE evidence of the fork: the last common position. -/
  lastCommon : Option Nat
  known : Nat
  wantReq : Nat
  activeWant : Option WantState
  /-- The stream waits in `wantQueue`. -/
  queued : Bool
  recoveryProgress : Option Nat
  syncProgress : Option Nat
  stalled : Bool

namespace Requester

variable (env : Env) (k : StreamId)

def stream (σ : Requester) : Stream := σ.held.stream

def contigSeq (σ : Requester) : Nat := σ.stream.head.contigSeq

def recoveryFrom (σ : Requester) : Nat :=
  match σ.lastCommon with
  | some lastCommon =>
    if lastCommon ≤ MAX_SAFE_INTEGER ∧ lastCommon > 0 then lastCommon + 1 else 1
  | none => 1

/-- Where the next WANT starts. -/
def wantFrom (σ : Requester) : Nat :=
  if σ.stream.recovery.isSome then σ.recoveryFrom else σ.contigSeq + 1

/-- `pumpWants`, as far as this stream goes. -/
def pumpWants (σ : Requester) : Requester :=
  if σ.queued then
    if σ.stream.head.sealReason ≠ none ∧ σ.stream.recovery = none then { σ with queued := false }
    else { σ with
      queued := false
      wantReq := σ.wantReq + 1
      activeWant := some ⟨σ.wantReq + 1, σ.wantFrom⟩ }
  else σ

def queueWant (σ : Requester) : Requester :=
  if σ.queued ∨ σ.activeWant.isSome then σ else { σ with queued := true }.pumpWants

def finishWant (σ : Requester) (req : Nat) : Requester :=
  if σ.activeWant.any fun want => decide (want.req = req) then { σ with activeWant := none } else σ

/-- What `onEntries` decides once the answer to a WANT is applied. -/
def afterRound (σ : Requester) (toSeq : Nat) : Requester :=
  if σ.stream.recovery.isSome then
    let σ' := { σ with recoveryProgress := some σ.contigSeq }
    if σ.recoveryProgress.any fun before => decide (before ≥ σ.contigSeq) then
      { σ' with held := σ'.held.map Stream.noteUnavailable }
    else σ'.queueWant
  else if σ.stream.head.sealReason = none ∧ toSeq > σ.contigSeq then
    if σ.cert.any fun cert => decide (cert.cutSeq k.2 > σ.contigSeq) then σ
    else
      let σ' := { σ with syncProgress := some σ.contigSeq }
      if σ.syncProgress.any fun before => decide (before ≥ σ.contigSeq) then
        { σ' with stalled := true }
      else { σ' with stalled := false }.queueWant
  else { σ with syncProgress := none, stalled := false }

/-- The valid entries of the stream are applied, one after the other. -/
def applyEntries (now : Nat) (via : Option String) (cert : Option FinalityCert)
    (entries : List LogEntry) (L : Local) : Local :=
  (entries.filter fun e => (validateEntry env e).isOk && decide (e.stream = k)).foldl
    (fun L e => L.ingest env cert e via now) L

def onEntries (now : Nat) (via : Option String) (σ : Requester) (m : MsgEntries) : Requester :=
  let σ' := { σ with
    known := max σ.known m.toSeq
    held := applyEntries env k now via σ.cert m.entries σ.held }
  match m.req with
  | none => σ'
  | some req =>
    if m.done ∧ (σ'.activeWant.any fun want => decide (want.req = req)) then
      (σ'.finishWant req).afterRound k m.toSeq
    else σ'

/-- `adoptFloor`, which only topics with acknowledged retention do not refuse. -/
def adoptFloor (now : Nat) (m : MsgTruncated) (L : Local) : Local :=
  if env.ackedRetention k.1 then L.adoptFloor env m.floorSeq m.floorChain now
  else L.done (.adoptedFloor .refused)

/-- What `onTruncated` decides once the floor is adopted or not. -/
def afterFloor (σ : Requester) : Requester :=
  match σ.held.settle.getLast? with
  | some (.adoptedFloor .refused) => σ
  | _ => if σ.contigSeq < σ.known then σ.queueWant else σ

def onTruncated (now : Nat) (σ : Requester) (m : MsgTruncated) : Requester :=
  match σ.activeWant.filter fun want => decide (want.req = m.req ∧ (m.topic, m.writer) = k) with
  | none => σ
  | some want =>
    if m.floorSeq < want.fromSeq ∨ m.floorSeq > σ.known then σ.finishWant m.req
    else ({ σ with held := adoptFloor env k now m σ.held }.finishWant m.req).afterFloor

/-- The responder has the same head, floor and certificate of the stream. -/
def SamePeer (r r' : Responder) : Prop :=
  (r'.core.stream env k).head.contigSeq = (r.core.stream env k).head.contigSeq ∧
    (r'.core.stream env k).floor = (r.core.stream env k).floor ∧
    r'.core.db.sqFinality.get k.1 = r.core.db.sqFinality.get k.1 ∧
    r'.snapshotHub = r.snapshotHub

/-- A responder's answer to the active WANT. -/
def Answers (r : Responder) (proto : Nat) (σ : Requester) (answer : WantAnswer) : Prop :=
  ∃ want r' budget, σ.activeWant = some want ∧ SamePeer env k r r' ∧
    r'.wantAnswer env proto budget ⟨want.req, k.1, k.2, want.fromSeq⟩ = answer

/-- The entries of the answer have arrived, and another WANT is out. -/
inductive AfterEntries (r : Responder) (proto : Nat) (σ : Requester) : Requester → Prop
  | intro (now : Nat) (via : Option String) (h : Answers env k r proto σ (.entries fs))
      (hmore : σ.wantReq < (fs.foldl (onEntries env k now via) σ).wantReq) :
      AfterEntries r proto σ (fs.foldl (onEntries env k now via) σ)

/-- The answer was TRUNCATED, and another WANT is out. -/
inductive AfterTruncated (r : Responder) (proto : Nat) (σ : Requester) (m : MsgTruncated) :
    Requester → Prop
  | intro (now : Nat) (h : Answers env k r proto σ (.truncated m))
      (hmore : σ.wantReq < (onTruncated env k now σ m).wantReq) :
      AfterTruncated r proto σ m (onTruncated env k now σ m)

/-- A WANT is followed by another one. -/
inductive Reissues (r : Responder) (proto : Nat) (σ σ' : Requester) : Prop
  | entries (h : AfterEntries env k r proto σ σ')
  | truncated (m : MsgTruncated) (h : AfterTruncated env k r proto σ m σ')

/-- Every chain of WANTs from here is finite. -/
def Ends (r : Responder) (proto : Nat) (σ : Requester) : Prop :=
  Descent.Ends (Reissues env k r proto) σ

/-- No WANT of a chain from here starts at or below the floor that answered the one before. -/
def PassesFloors (r : Responder) (proto : Nat) (σ : Requester) : Prop :=
  ∀ τ τ' m, Relation.ReflTransGen (Reissues env k r proto) σ τ →
    AfterTruncated env k r proto τ m τ' →
      ∀ want, τ'.activeWant = some want → m.floorSeq < want.fromSeq

/-! The answers of a responder. -/

variable {env k}

/-- The frames of one answer: all up to `toSeq`, and none after the `done` one. -/
inductive Framed (req toSeq : Nat) : List MsgEntries → Prop
  | nil : Framed req toSeq []
  | last (f : MsgEntries) (hreq : f.req = some req) (htoSeq : f.toSeq = toSeq)
      (hseqs : ∀ e ∈ f.entries, e.seq ≤ toSeq) : Framed req toSeq [f]
  | cons (f : MsgEntries) (hreq : f.req = some req) (htoSeq : f.toSeq = toSeq)
      (hseqs : ∀ e ∈ f.entries, e.seq ≤ toSeq) (hmore : f.done = false)
      (h : Framed req toSeq fs) : Framed req toSeq (f :: fs)

theorem framed_completion (m : MsgWant) (toSeq : Nat) :
    Framed m.req toSeq [Responder.completion m toSeq] := by
  apply Framed.last (Responder.completion m toSeq) rfl rfl
  intro e he
  cases he

theorem nextBatch_seq {r : Responder} {m : MsgWant}
    (he : e ∈ r.nextBatch env m budget toSeq start) : e.seq ≤ toSeq := by
  obtain ⟨p, q, hrows, htake, -⟩ := Responder.takeBatch_eq r.cost budget
    ((r.core.stream env (m.topic, m.writer)).range start
      (min toSeq (start + ENTRIES_BATCH_MAX - 1))) [] (.inl (Nat.zero_le _))
  have hbatch : r.nextBatch env m budget toSeq start = p := htake
  have hin : e ∈ (r.core.stream env (m.topic, m.writer)).range start
      (min toSeq (start + ENTRIES_BATCH_MAX - 1)) := by
    rw [hrows]
    exact List.mem_append_left _ (hbatch ▸ he)
  obtain ⟨s, hs, hrow⟩ := List.mem_filterMap.1 hin
  obtain ⟨row, hget, rfl⟩ := Option.map_eq_some_iff.1 hrow
  have hseq : row.entry.seq = s := congrArg (fun id : EntryId => id.2.2) (log_id_of_get hget)
  rw [List.mem_range'_1] at hs
  omega

theorem framed_frames (r : Responder) (m : MsgWant) (budget toSeq n start : Nat) :
    Framed m.req toSeq (r.frames env m budget toSeq n start) := by
  induction n generalizing start with
  | zero => exact .nil
  | succ n ih =>
    rw [Responder.frames]
    split
    · dsimp only
      split
      · exact .nil
      · next last hlast =>
        have hseqs : ∀ e ∈ r.nextBatch env m budget toSeq start, e.seq ≤ toSeq :=
          fun e he => nextBatch_seq he
        by_cases hdone : last.seq ≥ toSeq
        · have hnone : r.frames env m budget toSeq n (last.seq + 1) = [] := by
            cases n with
            | zero => rfl
            | succ n => rw [Responder.frames, if_neg (not_le.2 (Nat.lt_succ_of_le hdone))]
          rw [hnone]
          exact .last _ rfl rfl hseqs
        · exact .cons _ rfl rfl hseqs (decide_eq_false hdone) (ih (last.seq + 1))
    · exact .nil

/-- The floor that a WANT is answered TRUNCATED with. -/
def truncation (env : Env) (k : StreamId) (r : Responder) (proto fromSeq : Nat) : Option Floor :=
  if r.maybeOffer ⟨0, k.1, k.2, fromSeq⟩ then none
  else if proto ≥ 3 then
    (r.core.stream env k).floor.filter fun floor => decide (fromSeq ≤ floor.seq)
  else none

theorem truncation_congr {r r' : Responder} (h : SamePeer env k r r') (proto fromSeq : Nat) :
    truncation env k r' proto fromSeq = truncation env k r proto fromSeq := by
  rw [truncation, truncation, Responder.maybeOffer, Responder.maybeOffer, h.2.1, h.2.2.1, h.2.2.2]

theorem wantAnswer_entries {r : Responder}
    (h : r.wantAnswer env proto budget ⟨req, k.1, k.2, fromSeq⟩ = .entries fs) :
    truncation env k r proto fromSeq = none ∧
      Framed req (r.core.stream env k).head.contigSeq fs := by
  rw [Responder.wantAnswer] at h
  rw [truncation]
  change (if r.maybeOffer ⟨0, k.1, k.2, fromSeq⟩ then _ else _) = _ at h
  split at h
  · next hoffer =>
    cases h
    exact ⟨if_pos hoffer, framed_completion ⟨req, k.1, k.2, fromSeq⟩ _⟩
  next hoffer =>
  rw [if_neg hoffer]
  split at h
  · next floor hfloor =>
    split at h
    · cases h
    · next hproto =>
      cases h
      exact ⟨if_neg hproto, framed_completion ⟨req, k.1, k.2, fromSeq⟩ _⟩
  · next hfloor =>
    have hnone : (if proto ≥ 3 then
        (r.core.stream env k).floor.filter fun floor => decide (fromSeq ≤ floor.seq)
          else none) = none := by
      split
      · exact hfloor
      · rfl
    split at h
    · cases h
      exact ⟨hnone, framed_completion ⟨req, k.1, k.2, fromSeq⟩ _⟩
    · cases h
      exact ⟨hnone, framed_frames r ⟨req, k.1, k.2, fromSeq⟩ _ _ _ _⟩

theorem wantAnswer_truncated {r : Responder}
    (h : r.wantAnswer env proto budget ⟨req, k.1, k.2, fromSeq⟩ = .truncated m) :
    ∃ floor, truncation env k r proto fromSeq = some floor ∧ fromSeq ≤ floor.seq ∧
      m = ⟨req, k.1, k.2, floor.seq, floor.chain⟩ := by
  rw [Responder.wantAnswer] at h
  change (if r.maybeOffer ⟨0, k.1, k.2, fromSeq⟩ then _ else _) = _ at h
  split at h
  · cases h
  next hoffer =>
  split at h
  · next floor hfloor =>
    split at h
    · next hproto =>
      cases h
      refine ⟨floor, ?_, ?_, rfl⟩
      · rw [truncation, if_neg hoffer, if_pos hproto]
        exact hfloor
      · exact of_decide_eq_true (Option.filter_eq_some_iff.1 hfloor).2
    · cases h
  · split at h
    · cases h
    · cases h

/-- Such a WANT is answered TRUNCATED. -/
theorem wantAnswer_of_truncation {r : Responder}
    (h : truncation env k r proto fromSeq = some floor) (budget req : Nat) :
    r.wantAnswer env proto budget ⟨req, k.1, k.2, fromSeq⟩ =
      .truncated ⟨req, k.1, k.2, floor.seq, floor.chain⟩ := by
  rw [truncation] at h
  split at h
  · cases h
  next hoffer =>
  split at h
  · next hproto =>
    rw [Responder.wantAnswer]
    change (if r.maybeOffer ⟨0, k.1, k.2, fromSeq⟩ then _ else _) = _
    rw [if_neg hoffer]
    dsimp only
    rw [h]
    exact if_pos hproto
  · cases h

end Requester

end Seqscribe
