import Seqscribe.WantLoop

namespace Seqscribe
set_option autoImplicit true

/-! When the chain of WANTs for one stream ends. -/

namespace Requester

variable {env : Env} {k : StreamId}

/-- A WANT is out. -/
structure Issued (σ : Requester) : Prop where
  queued : σ.queued = false
  want : σ.activeWant = some ⟨σ.wantReq, σ.wantFrom⟩
  pulls : σ.stream.head.sealReason ≠ none → σ.stream.recovery ≠ none

/-- A new WANT is out; the rest is as it was. -/
structure Requeued (σ σ' : Requester) : Prop where
  issued : Issued σ'
  held : σ'.held = σ.held
  lastCommon : σ'.lastCommon = σ.lastCommon
  known : σ'.known = σ.known
  recoveryProgress : σ'.recoveryProgress = σ.recoveryProgress
  syncProgress : σ'.syncProgress = σ.syncProgress
  wantReq : σ'.wantReq = σ.wantReq + 1

theorem queueWant_eq {σ : Requester} (hqueued : σ.queued = false) (hnone : σ.activeWant = none) :
    σ.queueWant =
      if σ.stream.head.sealReason ≠ none ∧ σ.stream.recovery = none then { σ with queued := false }
      else { σ with
        queued := false
        wantReq := σ.wantReq + 1
        activeWant := some ⟨σ.wantReq + 1, σ.wantFrom⟩ } := by
  have hidle : ¬ (σ.queued = true ∨ σ.activeWant.isSome = true) := by
    rw [hqueued, hnone]
    simp
  rw [queueWant, if_neg hidle, pumpWants, if_pos rfl]
  rfl

theorem queueWant_requeues {σ : Requester} (hqueued : σ.queued = false)
    (hnone : σ.activeWant = none)
    (hpulls : σ.stream.head.sealReason ≠ none → σ.stream.recovery ≠ none) :
    Requeued σ σ.queueWant := by
  rw [queueWant_eq hqueued hnone, if_neg (fun h => hpulls h.1 h.2)]
  exact ⟨⟨rfl, rfl, hpulls⟩, rfl, rfl, rfl, rfl, rfl, rfl⟩

/-- A sealed stream that does not recover gets no WANT. -/
theorem queueWant_drops {σ : Requester} (hqueued : σ.queued = false)
    (hnone : σ.activeWant = none) (hsealed : σ.stream.head.sealReason ≠ none)
    (hrecovery : σ.stream.recovery = none) :
    σ.queueWant.activeWant = none ∧ σ.queueWant.wantReq = σ.wantReq := by
  rw [queueWant_eq hqueued hnone, if_pos ⟨hsealed, hrecovery⟩]
  exact ⟨hnone, rfl⟩

theorem requeued_of_more {σ : Requester} (hqueued : σ.queued = false) (hnone : σ.activeWant = none)
    (hmore : σ.wantReq < σ.queueWant.wantReq) : Requeued σ σ.queueWant := by
  apply queueWant_requeues hqueued hnone
  intro hsealed hrecovery
  rw [(queueWant_drops hqueued hnone hsealed hrecovery).2] at hmore
  exact Nat.lt_irrefl _ hmore

/-- The answer has left another WANT: the recovery or the open stream has moved on since the last
round. -/
inductive Progressed (toSeq : Nat) (σ σ' : Requester) : Prop
  | recovering (hrecovery : σ.stream.recovery ≠ none)
      (hmoved : ∀ before, σ.recoveryProgress = some before → before < σ.contigSeq)
      (h : Requeued { σ with recoveryProgress := some σ.contigSeq } σ')
  | syncing (hrecovery : σ.stream.recovery = none) (hopen : σ.stream.head.sealReason = none)
      (hbehind : σ.contigSeq < toSeq)
      (hmoved : ∀ before, σ.syncProgress = some before → before < σ.contigSeq)
      (h : Requeued { σ with syncProgress := some σ.contigSeq, stalled := false } σ')

theorem afterRound_progressed {σ : Requester} (hqueued : σ.queued = false)
    (hnone : σ.activeWant = none) (hmore : σ.wantReq < (σ.afterRound k toSeq).wantReq) :
    Progressed toSeq σ (σ.afterRound k toSeq) := by
  rw [afterRound] at hmore ⊢
  split at hmore
  · next hrecovery =>
    rw [if_pos hrecovery]
    dsimp only at hmore ⊢
    split at hmore
    · exact absurd hmore (Nat.lt_irrefl _)
    · next hmoved =>
      rw [if_neg hmoved]
      apply Progressed.recovering _ _ (requeued_of_more hqueued hnone hmore)
      · exact Option.isSome_iff_ne_none.1 hrecovery
      · intro before hbefore
        rw [hbefore] at hmoved
        exact not_le.1 fun hle => hmoved (decide_eq_true hle)
  · next hrecovery =>
    rw [if_neg hrecovery]
    split at hmore
    · next hbehind =>
      rw [if_pos hbehind]
      split at hmore
      · exact absurd hmore (Nat.lt_irrefl _)
      next hcert =>
      rw [if_neg hcert]
      dsimp only at hmore ⊢
      split at hmore
      · exact absurd hmore (Nat.lt_irrefl _)
      · next hmoved =>
        rw [if_neg hmoved]
        apply Progressed.syncing _ hbehind.1 hbehind.2 _ (requeued_of_more hqueued hnone hmore)
        · exact Option.not_isSome_iff_eq_none.1 hrecovery
        · intro before hbefore
          rw [hbefore] at hmoved
          exact not_le.1 fun hle => hmoved (decide_eq_true hle)
    · exact absurd hmore (Nat.lt_irrefl _)

/-- Frames of the answer have been applied. -/
structure Received (M toSeq : Nat) (σ σ' : Requester) : Prop where
  held : Local.Absorbed M σ.held σ'.held
  known : σ'.known ≤ max σ.known toSeq
  lastCommon : σ'.lastCommon = σ.lastCommon
  recoveryProgress : σ'.recoveryProgress = σ.recoveryProgress
  syncProgress : σ'.syncProgress = σ.syncProgress

namespace Received

theorem refl (M toSeq : Nat) (σ : Requester) : Received M toSeq σ σ :=
  ⟨.of_stream rfl, Nat.le_max_left _ _, rfl, rfl, rfl⟩

theorem trans {σ σ' σ'' : Requester} (h : Received M toSeq σ σ') (h' : Received M toSeq σ' σ'') :
    Received M toSeq σ σ'' := by
  refine ⟨h.held.trans h'.held, h'.known.trans ?_, h'.lastCommon.trans h.lastCommon,
    h'.recoveryProgress.trans h.recoveryProgress, h'.syncProgress.trans h.syncProgress⟩
  exact max_le h.known (Nat.le_max_right _ _)

end Received

theorem applyEntries_absorbed (env : Env) (k : StreamId) (now : Nat) (via : Option String) (cert : Option FinalityCert)
    {entries : List LogEntry} (hseqs : ∀ e ∈ entries, e.seq ≤ M) (L : Local) :
    Local.Absorbed M L (applyEntries env k now via cert entries L) := by
  rw [applyEntries]
  have hkept : ∀ e ∈ entries.filter fun e => (validateEntry env e).isOk && decide (e.stream = k),
      e.seq ≤ M := fun e he => hseqs e (List.mem_of_mem_filter he)
  generalize entries.filter (fun e => (validateEntry env e).isOk && decide (e.stream = k)) = kept
    at hkept
  induction kept generalizing L with
  | nil => exact .of_stream rfl
  | cons e kept ih =>
    rw [List.foldl_cons]
    have hone : Local.Absorbed M L (L.ingest env cert e via now) :=
      .ingest L (hkept e List.mem_cons_self) cert via now
    exact hone.trans (ih _ fun e he => hkept e (List.mem_cons_of_mem _ he))

/-- One frame: what it carries is applied, and after the last one the round is over. -/
theorem onEntries_received (env : Env) (k : StreamId) (now : Nat) (via : Option String)
    {σ : Requester} {f : MsgEntries}
    (hissued : σ.queued = false ∧ σ.activeWant = some ⟨req, start⟩) (hreq : f.req = some req)
    (hseqs : ∀ e ∈ f.entries, e.seq ≤ M) :
    ∃ ρ, Received M f.toSeq σ ρ ∧ ρ.queued = false ∧ ρ.wantReq = σ.wantReq ∧
      (f.done = false → ρ.activeWant = some ⟨req, start⟩ ∧ onEntries env k now via σ f = ρ) ∧
      (f.done = true → ρ.activeWant = none ∧
        onEntries env k now via σ f = ρ.afterRound k f.toSeq) := by
  obtain ⟨hqueued, hwant⟩ := hissued
  have hheld := applyEntries_absorbed env k now via σ.cert hseqs σ.held
  have hmine : σ.activeWant.any (fun want => decide (want.req = req)) = true := by
    rw [hwant]
    exact decide_eq_true rfl
  rw [onEntries, hreq]
  dsimp only
  cases hdone : f.done with
  | false =>
    refine ⟨{ σ with
      known := max σ.known f.toSeq
      held := applyEntries env k now via σ.cert f.entries σ.held }, ⟨hheld, Nat.le_refl _, rfl, rfl,
        rfl⟩, hqueued, rfl, fun _ => ⟨hwant, ?_⟩, nofun⟩
    exact if_neg fun h => Bool.noConfusion h.1
  | true =>
    refine ⟨{ σ with
      known := max σ.known f.toSeq
      held := applyEntries env k now via σ.cert f.entries σ.held
      activeWant := none }, ⟨hheld, Nat.le_refl _, rfl, rfl, rfl⟩, hqueued, rfl, nofun,
        fun _ => ⟨rfl, ?_⟩⟩
    rw [if_pos ⟨rfl, hmine⟩, finishWant]
    exact congrArg (afterRound k · f.toSeq) (if_pos hmine)

/-- The frames of an answer. -/
theorem onEntries_progressed (now : Nat) (via : Option String) {σ : Requester}
    {fs : List MsgEntries} (hissued : σ.queued = false ∧ σ.activeWant = some ⟨req, start⟩)
    (hframed : Framed req toSeq fs) (hM : toSeq ≤ M)
    (hmore : σ.wantReq < (fs.foldl (onEntries env k now via) σ).wantReq) :
    ∃ ρ, Received M toSeq σ ρ ∧
      Progressed toSeq ρ (fs.foldl (onEntries env k now via) σ) := by
  induction hframed generalizing σ with
  | nil => exact absurd hmore (Nat.lt_irrefl _)
  | last f hreq htoSeq hseqs =>
    obtain ⟨ρ, hreceived, hqueued, hsame, hmid, hend⟩ := onEntries_received env k now via
      hissued hreq (fun e he => (hseqs e he).trans hM)
    rw [List.foldl_cons, List.foldl_nil] at hmore ⊢
    cases hdone : f.done with
    | false =>
      rw [(hmid hdone).2, hsame] at hmore
      exact absurd hmore (Nat.lt_irrefl _)
    | true =>
      obtain ⟨hnone, heq⟩ := hend hdone
      rw [heq, htoSeq] at hmore ⊢
      rw [htoSeq] at hreceived
      exact ⟨ρ, hreceived, afterRound_progressed hqueued hnone (hsame ▸ hmore)⟩
  | cons f hreq htoSeq hseqs hnotdone _ ih =>
    obtain ⟨ρ, hreceived, hqueued, hsame, hmid, -⟩ := onEntries_received env k now via
      hissued hreq (fun e he => (hseqs e he).trans hM)
    obtain ⟨hwant, heq⟩ := hmid hnotdone
    rw [List.foldl_cons, heq] at hmore ⊢
    obtain ⟨ρ', hreceived', hprogressed⟩ := ih ⟨hqueued, hwant⟩ (hsame ▸ hmore)
    rw [htoSeq] at hreceived
    exact ⟨ρ', hreceived.trans hreceived', hprogressed⟩

/-- A TRUNCATED answer that leaves another WANT: its floor is within what is known of the peer, and
the stream, at the floor or beyond it, is still behind the peer. -/
structure Floored (env : Env) (k : StreamId) (now : Nat) (floor : Floor) (σ ρ σ' : Requester) :
    Prop where
  within : floor.seq ≤ σ.known
  acked : env.ackedRetention k.1 = true
  outcome : floor.seq ≤ σ.contigSeq ∧ ρ.held.stream = σ.held.stream ∨
    σ.contigSeq < floor.seq ∧
      (∀ target, σ.stream.recovery = some target →
        contradictsTarget target floor.seq floor.chain = false) ∧
      ρ.held.stream = (σ.held.atFloor env floor.seq floor.chain now).stream
  behind : ρ.contigSeq < σ.known
  known : ρ.known = σ.known
  lastCommon : ρ.lastCommon = σ.lastCommon
  recoveryProgress : ρ.recoveryProgress = σ.recoveryProgress
  syncProgress : ρ.syncProgress = σ.syncProgress
  requeued : Requeued ρ σ'

theorem afterFloor_refused {σ : Requester}
    (hlast : σ.held.settle.getLast? = some (.adoptedFloor .refused)) : σ.afterFloor = σ := by
  rw [afterFloor, hlast]

theorem afterFloor_requeues {σ : Requester} (hmore : n < σ.afterFloor.wantReq)
    (hsame : σ.wantReq = n) (hqueued : σ.queued = false) (hnone : σ.activeWant = none)
    (hlast : σ.held.settle.getLast? = some (.adoptedFloor r)) (hr : r ≠ .refused) :
    σ.contigSeq < σ.known ∧ Requeued σ σ.afterFloor := by
  have heq : σ.afterFloor = if σ.contigSeq < σ.known then σ.queueWant else σ := by
    rw [afterFloor, hlast]
    cases r with
    | refused => exact absurd rfl hr
    | adopted => rfl
    | noop => rfl
  subst hsame
  rw [heq] at hmore ⊢
  split at hmore
  · next hbehind =>
    rw [if_pos hbehind]
    exact ⟨hbehind, requeued_of_more hqueued hnone hmore⟩
  · exact absurd hmore (Nat.lt_irrefl _)

theorem onTruncated_eq (now : Nat) {σ : Requester} {floor : Floor}
    (hwant : σ.activeWant = some ⟨req, start⟩) (hstart : start ≤ floor.seq) :
    onTruncated env k now σ ⟨req, k.1, k.2, floor.seq, floor.chain⟩ =
      if floor.seq > σ.known then { σ with activeWant := none }
      else afterFloor { σ with
        held := adoptFloor env k now ⟨req, k.1, k.2, floor.seq, floor.chain⟩ σ.held
        activeWant := none } := by
  have hany : σ.activeWant.any (fun want => decide (want.req = req)) = true := by
    rw [hwant]
    exact decide_eq_true rfl
  rw [onTruncated, hwant, Option.filter_some, if_pos (decide_eq_true ⟨rfl, rfl⟩)]
  dsimp only
  split
  · next hout =>
    rw [if_pos (hout.resolve_left (not_lt.2 hstart))]
    exact if_pos hany
  · next hin =>
    rw [not_or] at hin
    rw [if_neg hin.2, finishWant]
    exact congrArg afterFloor (if_pos (decide_eq_true rfl))

theorem onTruncated_floored (now : Nat) {σ : Requester} {floor : Floor}
    (hqueued : σ.queued = false) (hwant : σ.activeWant = some ⟨req, start⟩)
    (hstart : start ≤ floor.seq)
    (hmore : σ.wantReq <
      (onTruncated env k now σ ⟨req, k.1, k.2, floor.seq, floor.chain⟩).wantReq) :
    ∃ ρ, Floored env k now floor σ ρ
      (onTruncated env k now σ ⟨req, k.1, k.2, floor.seq, floor.chain⟩) := by
  rw [onTruncated_eq now hwant hstart] at hmore ⊢
  split at hmore
  · exact absurd hmore (Nat.lt_irrefl _)
  next hwithin =>
  rw [if_neg hwithin]
  have hdone : ∀ (L : Local) (r : Settled), (L.done r).settle.getLast? = some r :=
    fun L r => List.getLast?_concat ..
  rw [adoptFloor] at hmore ⊢
  split at hmore
  · next hacked =>
    rw [if_pos hacked]
    rw [Local.adoptFloor_eq] at hmore ⊢
    split at hmore
    · next hbeyond =>
      rw [if_pos hbeyond]
      obtain ⟨hbehind, hrequeued⟩ := afterFloor_requeues hmore rfl hqueued rfl
        (hdone _ _) nofun
      refine ⟨_, not_lt.1 hwithin, hacked, .inl ⟨hbeyond, ?_⟩, hbehind, ?_, ?_, ?_, ?_, hrequeued⟩
      · rfl
      · rfl
      · rfl
      · rfl
      · rfl
    next hbelow =>
    rw [if_neg hbelow]
    split at hmore
    · rw [afterFloor_refused (hdone _ _)] at hmore
      exact absurd hmore (Nat.lt_irrefl _)
    next hopen =>
    rw [if_neg hopen]
    split at hmore
    · rw [afterFloor_refused (hdone _ _)] at hmore
      exact absurd hmore (Nat.lt_irrefl _)
    next hagrees =>
    rw [if_neg hagrees]
    obtain ⟨hbehind, hrequeued⟩ := afterFloor_requeues hmore rfl hqueued rfl
        (hdone _ _) nofun
    refine ⟨_, not_lt.1 hwithin, hacked, .inr ⟨not_le.1 hbelow, ?_, rfl⟩, hbehind, rfl, rfl, rfl,
      rfl, hrequeued⟩
    intro target htarget
    apply Bool.eq_false_of_not_eq_true
    intro hcontradicts
    apply hagrees
    change σ.held.stream.recovery = some target at htarget
    rw [htarget]
    exact hcontradicts
  · rw [afterFloor_refused (hdone _ _)] at hmore
    exact absurd hmore (Nat.lt_irrefl _)

variable {r : Responder} {proto : Nat}

theorem AfterEntries.progressed {σ σ' : Requester} (h : AfterEntries env k r proto σ σ')
    (hissued : Issued σ) (hM : (r.core.stream env k).head.contigSeq ≤ M) :
    truncation env k r proto σ.wantFrom = none ∧
      ∃ ρ, Received M (r.core.stream env k).head.contigSeq σ ρ ∧
        Progressed (r.core.stream env k).head.contigSeq ρ σ' := by
  obtain ⟨now, via, ⟨want, r', budget, hwant, hsame, hanswer⟩, hmore⟩ := h
  cases hissued.want.symm.trans hwant
  obtain ⟨hnone, hframed⟩ := wantAnswer_entries hanswer
  rw [hsame.1] at hframed
  rw [truncation_congr hsame] at hnone
  exact ⟨hnone, onEntries_progressed now via ⟨hissued.queued, hwant⟩ hframed hM hmore⟩

theorem AfterTruncated.floored {σ σ' : Requester} (h : AfterTruncated env k r proto σ m σ')
    (hissued : Issued σ) :
    ∃ now floor ρ, truncation env k r proto σ.wantFrom = some floor ∧ σ.wantFrom ≤ floor.seq ∧
      m.floorSeq = floor.seq ∧ Floored env k now floor σ ρ σ' := by
  obtain ⟨now, ⟨want, r', budget, hwant, hsame, hanswer⟩, hmore⟩ := h
  cases hissued.want.symm.trans hwant
  obtain ⟨floor, hfloor, hstart, rfl⟩ := wantAnswer_truncated hanswer
  rw [truncation_congr hsame] at hfloor
  obtain ⟨ρ, hfloored⟩ := onTruncated_floored now hissued.queued hwant hstart hmore
  exact ⟨now, floor, ρ, hfloor, hstart, rfl, hfloored⟩

/-! A stream that does not recover. -/

/-- The peer's head and what is known of it are within `B`. -/
structure Syncing (env : Env) (k : StreamId) (r : Responder) (B : Nat) (σ : Requester) : Prop where
  issued : Issued σ
  recovery : σ.stream.recovery = none
  known : σ.known ≤ B
  head : (r.core.stream env k).head.contigSeq ≤ B

/-- What is missing up to `B`, and whether a round may still pass without progress. -/
def syncWork (B : Nat) (σ : Requester) : Nat :=
  2 * (B - σ.contigSeq) +
    if σ.syncProgress.any fun before => decide (σ.contigSeq ≤ before) then 0 else 1

theorem syncWork_le (B : Nat) (σ : Requester) : syncWork B σ ≤ 2 * (B - σ.contigSeq) + 1 := by
  rw [syncWork]
  split
  · exact Nat.le_succ _
  · exact Nat.le_refl _

theorem Syncing.entries {σ σ' : Requester} (h : Syncing env k r B σ)
    (hstep : AfterEntries env k r proto σ σ') :
    Syncing env k r B σ' ∧ syncWork B σ' < syncWork B σ := by
  obtain ⟨-, ρ, hreceived, hprogressed⟩ := hstep.progressed h.issued h.head
  have hnone : ρ.stream.recovery = none := by
    rcases hreceived.held.recovery with hsame | hended
    · exact hsame.trans h.recovery
    · exact hended.1
  have hle : σ.contigSeq ≤ ρ.contigSeq := hreceived.held.le h.recovery
  cases hprogressed with
  | recovering hrecovery => exact absurd hnone hrecovery
  | syncing _ hopen hbehind hmoved hrequeued =>
    have hcontig : σ'.contigSeq = ρ.contigSeq := congrArg (·.stream.head.contigSeq) hrequeued.held
    refine ⟨⟨hrequeued.issued, ?_, ?_, h.head⟩, ?_⟩
    · rw [stream, hrequeued.held]
      exact hnone
    · rw [hrequeued.known]
      exact hreceived.known.trans (max_le h.known h.head)
    · have hwork : syncWork B σ' = 2 * (B - ρ.contigSeq) := by
        rw [syncWork, hrequeued.syncProgress, hcontig]
        exact congrArg (2 * (B - ρ.contigSeq) + ·) (if_pos (decide_eq_true (Nat.le_refl _)))
      have hB := h.head
      rw [hwork]
      rcases Nat.lt_or_eq_of_le hle with hlt | heq
      · have hle' : 2 * (B - σ.contigSeq) ≤ syncWork B σ := Nat.le_add_right _ _
        omega
      · -- without progress it was the first round
        have hfirst : syncWork B σ = 2 * (B - σ.contigSeq) + 1 := by
          rw [syncWork, if_neg]
          intro hany
          obtain ⟨before, hbefore, hle⟩ := (Option.any_eq_true _ _).1 hany
          have hmoved := hmoved before (hreceived.syncProgress.trans hbefore)
          have hle := of_decide_eq_true hle
          omega
        omega

theorem Syncing.truncated {σ σ' : Requester} (h : Syncing env k r B σ)
    (hstep : AfterTruncated env k r proto σ m σ') :
    Syncing env k r B σ' ∧ syncWork B σ' < syncWork B σ ∧ m.floorSeq < σ'.wantFrom := by
  obtain ⟨now, floor, ρ, -, hstart, hm, hfloored⟩ := hstep.floored h.issued
  have hfrom : ∀ τ : Requester, τ.stream.recovery = none → τ.wantFrom = τ.contigSeq + 1 := by
    intro τ hnone
    rw [wantFrom, hnone]
    rfl
  rw [hfrom σ h.recovery] at hstart
  rcases hfloored.outcome with ⟨hbeyond, -⟩ | ⟨hbelow, -, hat⟩
  · exact absurd (hstart.trans hbeyond) (Nat.not_succ_le_self _)
  · obtain ⟨hrecovery, -, hreached, -⟩ := Local.atFloor_unreached env (L := σ.held)
      (fun target htarget => absurd (h.recovery.symm.trans htarget) (Option.some_ne_none _).symm)
      floor.chain now (Nat.le_refl floor.seq)
    have hheld : σ'.held.stream = (σ.held.atFloor env floor.seq floor.chain now).stream :=
      (congrArg Local.stream hfloored.requeued.held).trans hat
    have hnone : σ'.stream.recovery = none := by
      rw [stream, hheld, hrecovery]
      exact h.recovery
    have hcontig : σ'.contigSeq = ρ.contigSeq :=
      congrArg (·.stream.head.contigSeq) hfloored.requeued.held
    have hreached' : floor.seq ≤ σ'.contigSeq := by
      rw [contigSeq, stream, hheld]
      exact hreached
    have hbehind := hfloored.behind
    have hknown := h.known
    refine ⟨⟨hfloored.requeued.issued, hnone, ?_, h.head⟩, ?_, ?_⟩
    · rw [hfloored.requeued.known, hfloored.known]
      exact h.known
    · have hwork := syncWork_le B σ'
      have hle : 2 * (B - σ.contigSeq) ≤ syncWork B σ := Nat.le_add_right _ _
      omega
    · rw [hfrom σ' hnone, hm]
      exact Nat.lt_succ_of_le hreached'

/-! A stream that recovers, with a WANT that is not answered TRUNCATED. -/

/-- The stream and the peer's head are within `M`. -/
structure Recovering (env : Env) (k : StreamId) (r : Responder) (proto M : Nat) (σ : Requester) :
    Prop where
  issued : Issued σ
  recovery : σ.stream.recovery ≠ none
  below : σ.stream.Below M
  head : (r.core.stream env k).head.contigSeq ≤ M
  whole : truncation env k r proto σ.recoveryFrom = none

/-- What is missing up to `M` since the last round. -/
def recoveryWork (M : Nat) (σ : Requester) : Nat :=
  match σ.recoveryProgress with
  | some before => M - before
  | none => M + 1

theorem recoveryFrom_congr {σ σ' : Requester} (h : σ'.lastCommon = σ.lastCommon) :
    σ'.recoveryFrom = σ.recoveryFrom := by
  rw [recoveryFrom, recoveryFrom, h]

theorem wantFrom_recovering {σ : Requester} (h : σ.stream.recovery ≠ none) :
    σ.wantFrom = σ.recoveryFrom := if_pos (Option.isSome_iff_ne_none.2 h)

theorem Recovering.entries {σ σ' : Requester} (h : Recovering env k r proto M σ)
    (hstep : AfterEntries env k r proto σ σ') :
    Recovering env k r proto M σ' ∧ recoveryWork M σ' < recoveryWork M σ := by
  obtain ⟨-, ρ, hreceived, hprogressed⟩ := hstep.progressed h.issued h.head
  cases hprogressed with
  | syncing hrecovery hopen =>
    rcases hreceived.held.recovery with hsame | hended
    · exact absurd (hsame.symm.trans hrecovery) h.recovery
    · exact absurd hopen hended.2
  | recovering hrecovery hmoved hrequeued =>
    have hbelow := hreceived.held.below h.below
    refine ⟨⟨hrequeued.issued, ?_, ?_, h.head, ?_⟩, ?_⟩
    · rw [stream, hrequeued.held]
      exact hrecovery
    · rw [stream, hrequeued.held]
      exact hbelow
    · rw [recoveryFrom_congr (hrequeued.lastCommon.trans hreceived.lastCommon)]
      exact h.whole
    · have hwork : recoveryWork M σ' = M - ρ.contigSeq := by
        rw [recoveryWork, hrequeued.recoveryProgress]
      have hhead : ρ.contigSeq ≤ M := hbelow.head
      rw [hwork, recoveryWork]
      cases hbefore : σ.recoveryProgress with
      | none => exact Nat.lt_succ_of_le (Nat.sub_le _ _)
      | some before =>
        have hmoved := hmoved before (hreceived.recoveryProgress.trans hbefore)
        dsimp only
        omega

theorem Recovering.not_truncated {σ σ' : Requester} (h : Recovering env k r proto M σ)
    (hstep : AfterTruncated env k r proto σ m σ') : False := by
  obtain ⟨now, floor, ρ, hfloor, -⟩ := hstep.floored h.issued
  rw [wantFrom_recovering h.recovery, h.whole] at hfloor
  cases hfloor

/-- Some position bounds a stream. -/
theorem exists_below (S : Stream) (n : Nat) : ∃ M, S.Below M ∧ n ≤ M := by
  have hpending : ∀ es : List LogEntry, ∃ M, ∀ e ∈ es, e.seq ≤ M := by
    intro es
    induction es with
    | nil => exact ⟨0, fun e he => absurd he List.not_mem_nil⟩
    | cons e es ih =>
      obtain ⟨M, hM⟩ := ih
      refine ⟨max e.seq M, fun e' he' => ?_⟩
      rcases List.mem_cons.1 he' with rfl | hin
      · exact Nat.le_max_left _ _
      · exact (hM e' hin).trans (Nat.le_max_right _ _)
  obtain ⟨M, hM⟩ := hpending S.pending.rows
  refine ⟨max (max S.head.contigSeq n) M, ⟨?_, fun e he => ?_⟩, ?_⟩
  · exact (Nat.le_max_left _ _).trans (Nat.le_max_left _ _)
  · exact (hM e he).trans (Nat.le_max_right _ _)
  · exact (Nat.le_max_right _ _).trans (Nat.le_max_left _ _)

/-! A recovering stream whose WANT is answered TRUNCATED. -/

/-- The recovery starts at or below a floor of the peer, which the stream reaches, or is beyond,
without reaching the canonical end or the head that is known of the peer. -/
def Spins (env : Env) (k : StreamId) (r : Responder) (proto : Nat) (σ : Requester) : Prop :=
  ∃ target floor, σ.stream.recovery = some target ∧
    truncation env k r proto σ.recoveryFrom = some floor ∧ floor.seq ≤ σ.known ∧
    env.ackedRetention k.1 = true ∧
    if floor.seq ≤ σ.contigSeq then σ.contigSeq < σ.known
    else floor.seq < target.finalSeq ∧
      (σ.held.atFloor env floor.seq floor.chain 0).stream.head.contigSeq < σ.known

theorem Requeued.spins_iff {σ σ' : Requester} (h : Requeued σ σ') :
    Spins env k r proto σ' ↔ Spins env k r proto σ := by
  rw [Spins, Spins, recoveryFrom_congr h.lastCommon, h.known, contigSeq, contigSeq, stream, stream,
    h.held]

/-- A floor below the canonical end leaves the recovery under way. -/
theorem short_of_end {σ : Requester} (hrecovery : σ.stream.recovery = some target)
    (hend : seq < target.finalSeq) :
    ∀ target, σ.held.stream.recovery = some target → seq ≠ target.finalSeq := by
  intro target' htarget
  cases hrecovery.symm.trans htarget
  exact hend.ne

/-- A TRUNCATED answer leaves another WANT of a recovering stream only if it spins. -/
theorem AfterTruncated.spins {σ σ' : Requester} (h : AfterTruncated env k r proto σ m σ')
    (hissued : Issued σ) (hrecovery : σ.stream.recovery = some target) :
    Spins env k r proto σ := by
  obtain ⟨now, floor, ρ, hfloor, -, -, hfloored⟩ := h.floored hissued
  rw [wantFrom_recovering (by rw [hrecovery]; exact Option.some_ne_none _)] at hfloor
  refine ⟨target, floor, hrecovery, hfloor, hfloored.within, hfloored.acked, ?_⟩
  rcases hfloored.outcome with ⟨hbeyond, hsame⟩ | ⟨hbelow, hagrees, hat⟩
  · rw [if_pos hbeyond]
    have hbehind := hfloored.behind
    rw [contigSeq, stream, hsame] at hbehind
    exact hbehind
  · rw [if_neg (not_le.2 hbelow)]
    have hagrees := hagrees target hrecovery
    rw [contradictsTarget, Bool.or_eq_false_iff, decide_eq_false_iff_not, not_lt] at hagrees
    rcases Nat.lt_or_eq_of_le hagrees.1 with hend | hend
    · refine ⟨hend, ?_⟩
      have hbehind := hfloored.behind
      rw [contigSeq, stream, hat, Local.atFloor_congr (short_of_end hrecovery hend) _ now 0]
        at hbehind
      exact hbehind
    · -- at the canonical end the stream is retired and gets no WANT
      obtain ⟨hnone, hsealed⟩ :=
        Local.atFloor_reached env hrecovery hend floor.chain now
      have hheld : σ'.held.stream = (σ.held.atFloor env floor.seq floor.chain now).stream :=
        (congrArg Local.stream hfloored.requeued.held).trans hat
      have hpulls := hfloored.requeued.issued.pulls
      rw [stream, hheld] at hpulls
      exact absurd hnone (hpulls hsealed)

/-- A spinning stream adopts the floor, or is beyond it, and stays behind the peer. -/
theorem Spins.adopts {σ : Requester} (hrecovery : σ.stream.recovery = some target)
    {floor : Floor} (hacked : env.ackedRetention k.1 = true)
    (hspins : if floor.seq ≤ σ.contigSeq then σ.contigSeq < σ.known
      else floor.seq < target.finalSeq ∧
        (σ.held.atFloor env floor.seq floor.chain 0).stream.head.contigSeq < σ.known) (req : Nat) :
    ∃ (L : Local) (res : AdoptFloorResult), adoptFloor env k 0 ⟨req, k.1, k.2, floor.seq, floor.chain⟩ σ.held =
        L.done (.adoptedFloor res) ∧ res ≠ .refused ∧ L.stream.recovery = some target ∧
      floor.seq ≤ L.stream.head.contigSeq ∧ L.stream.head.contigSeq < σ.known := by
  rw [adoptFloor, if_pos hacked, Local.adoptFloor_eq]
  split at hspins
  · next hbeyond => exact ⟨σ.held, .noop, if_pos hbeyond, nofun, hrecovery, hbeyond, hspins⟩
  · next hbelow =>
    obtain ⟨hend, hbehind⟩ := hspins
    have hopen : ¬ (σ.held.stream.head.sealReason ≠ none ∧ σ.held.stream.recovery = none) := by
      rintro ⟨-, hnone⟩
      cases hrecovery.symm.trans hnone
    have hagrees : ¬ (σ.held.stream.recovery.any fun tgt =>
        contradictsTarget tgt floor.seq floor.chain) = true := by
      change ¬ (σ.stream.recovery.any _) = true
      rw [hrecovery, Option.any_some, contradictsTarget, decide_eq_false (not_lt.2 hend.le),
        decide_eq_false hend.ne]
      exact Bool.noConfusion
    obtain ⟨hkept, -, hreached, -⟩ := Local.atFloor_unreached env
      (short_of_end hrecovery hend) floor.chain 0 (Nat.le_refl floor.seq)
    refine ⟨σ.held.atFloor env floor.seq floor.chain 0, .adopted, ?_, nofun,
      hkept.trans hrecovery, hreached, hbehind⟩
    exact (if_neg hbelow).trans ((if_neg hopen).trans (if_neg hagrees))

/-- A spinning stream asks again, and spins on. -/
theorem Spins.step {σ : Requester} (h : Spins env k r proto σ) (hissued : Issued σ) :
    ∃ σ', Reissues env k r proto σ σ' ∧ Issued σ' ∧ Spins env k r proto σ' := by
  obtain ⟨target, floor, hrecovery, hfloor, hwithin, hacked, hspins⟩ := h
  have hwant : σ.activeWant = some ⟨σ.wantReq, σ.recoveryFrom⟩ := by
    rw [hissued.want, wantFrom_recovering (by rw [hrecovery]; exact Option.some_ne_none _)]
  have hstart : σ.recoveryFrom ≤ floor.seq := by
    obtain ⟨floor', hfloor', hstart, hm⟩ :=
      wantAnswer_truncated (wantAnswer_of_truncation hfloor 0 0)
    cases hfloor.symm.trans hfloor'
    exact hstart
  obtain ⟨L, res, hadopt, hres, hrecovery', hreached, hbehind⟩ :=
    Spins.adopts hrecovery hacked hspins σ.wantReq
  have hresult : onTruncated env k 0 σ ⟨σ.wantReq, k.1, k.2, floor.seq, floor.chain⟩ =
      queueWant { σ with held := L.done (.adoptedFloor res), activeWant := none } := by
    rw [onTruncated_eq 0 hwant hstart, if_neg (not_lt.2 hwithin), hadopt, afterFloor]
    have hlast : (L.done (.adoptedFloor res)).settle.getLast? = some (.adoptedFloor res) :=
      List.getLast?_concat ..
    rw [hlast]
    cases res with
    | refused => exact absurd rfl hres
    | adopted => exact if_pos hbehind
    | noop => exact if_pos hbehind
  have hpulls : L.stream.head.sealReason ≠ none → L.stream.recovery ≠ none :=
    fun _ hnone => by cases hrecovery'.symm.trans hnone
  have hrequeued :
      Requeued { σ with held := L.done (.adoptedFloor res), activeWant := none } _ :=
    queueWant_requeues hissued.queued rfl hpulls
  rw [← hresult] at hrequeued
  refine ⟨_, .truncated _ ⟨0, ⟨_, r, 0, hwant, ⟨rfl, rfl, rfl, rfl⟩,
    wantAnswer_of_truncation hfloor 0 σ.wantReq⟩, ?_⟩, hrequeued.issued,
      hrequeued.spins_iff.2 ⟨target, floor, hrecovery', hfloor, hwithin, hacked, ?_⟩⟩
  · rw [hrequeued.wantReq]
    exact Nat.lt_succ_self _
  · exact (if_pos hreached).mpr hbehind

theorem Spins.not_ends {σ : Requester} (h : Spins env k r proto σ) (hissued : Issued σ) :
    ¬ Ends env k r proto σ :=
  Descent.not_ends_of_step (I := fun σ => Issued σ ∧ Spins env k r proto σ)
    (fun _ hσ => hσ.2.step hσ.1) ⟨hissued, h⟩

theorem Syncing.ends {σ : Requester} (h : Syncing env k r B σ) :
    Ends env k r proto σ ∧ PassesFloors env k r proto σ := by
  have hstep : ∀ σ σ', Syncing env k r B σ → Reissues env k r proto σ σ' →
      Syncing env k r B σ' ∧ syncWork B σ' < syncWork B σ := by
    intro σ σ' h hreissues
    cases hreissues with
    | entries hafter => exact h.entries hafter
    | truncated m hafter => exact ⟨(h.truncated hafter).1, (h.truncated hafter).2.1⟩
  refine ⟨Descent.Ends.of_measure hstep h, ?_⟩
  intro τ τ' m hchain hafter want hwant
  have hτ := Descent.invariant (fun σ σ' hσ hs => (hstep σ σ' hσ hs).1) h hchain
  obtain ⟨hτ', -, hpasses⟩ := hτ.truncated hafter
  cases hτ'.issued.want.symm.trans hwant
  exact hpasses

theorem Recovering.ends {σ : Requester} (h : Recovering env k r proto M σ) :
    Ends env k r proto σ ∧ PassesFloors env k r proto σ := by
  have hstep : ∀ σ σ', Recovering env k r proto M σ → Reissues env k r proto σ σ' →
      Recovering env k r proto M σ' ∧ recoveryWork M σ' < recoveryWork M σ := by
    intro σ σ' h hreissues
    cases hreissues with
    | entries hafter => exact h.entries hafter
    | truncated m hafter => exact (h.not_truncated hafter).elim
  refine ⟨Descent.Ends.of_measure hstep h, ?_⟩
  intro τ τ' m hchain hafter
  have hτ := Descent.invariant (fun σ σ' hσ hs => (hstep σ σ' hσ hs).1) h hchain
  exact (hτ.not_truncated hafter).elim

/-- Where nothing is asked again, there is nothing to show. -/
theorem ends_of_no_step {σ : Requester} (h : ∀ σ', ¬ Reissues env k r proto σ σ') :
    Ends env k r proto σ ∧ PassesFloors env k r proto σ := by
  refine ⟨.of_no_step h, ?_⟩
  intro τ τ' m hchain hafter
  rcases hchain.cases_head with rfl | ⟨σ', hstep, -⟩
  · exact absurd (.truncated m hafter) (h τ')
  · exact absurd hstep (h σ')

end Requester

open Requester

/-- The WANTs for a stream, once it is queued, end, and pass every floor that answers one of them,
exactly when the stream does not spin below a floor of the peer. -/
theorem want_chain (env : Env) (k : StreamId) (r : Responder) (proto : Nat) (σ : Requester)
    (hqueued : σ.queued = false) (hnone : σ.activeWant = none) :
    (Ends env k r proto σ.queueWant ∧ PassesFloors env k r proto σ.queueWant) ↔
      ¬ Spins env k r proto σ := by
  by_cases hdropped : σ.stream.head.sealReason ≠ none ∧ σ.stream.recovery = none
  · have hnostep : ∀ σ', ¬ Reissues env k r proto σ.queueWant σ' := by
      intro σ' hreissues
      have hnowant := (queueWant_drops hqueued hnone hdropped.1 hdropped.2).1
      cases hreissues with
      | entries hafter =>
        obtain ⟨-, -, ⟨want, -, -, hwant, -⟩, -⟩ := hafter
        cases hnowant.symm.trans hwant
      | truncated m hafter =>
        obtain ⟨-, ⟨want, -, -, hwant, -⟩, -⟩ := hafter
        cases hnowant.symm.trans hwant
    refine iff_of_true (ends_of_no_step hnostep) ?_
    rintro ⟨target, floor, hrecovery, -⟩
    cases hdropped.2.symm.trans hrecovery
  have hrequeued := queueWant_requeues hqueued hnone fun hsealed hrecovery =>
    hdropped ⟨hsealed, hrecovery⟩
  have hstream : σ.queueWant.stream = σ.stream := congrArg Local.stream hrequeued.held
  have hissued := hrequeued.issued
  rw [← hrequeued.spins_iff]
  generalize σ.queueWant = τ at hstream hissued
  cases hrecovery : τ.stream.recovery with
  | none =>
    have hsyncing : Syncing env k r (max τ.known (r.core.stream env k).head.contigSeq) τ :=
      ⟨hissued, hrecovery, Nat.le_max_left _ _, Nat.le_max_right _ _⟩
    refine iff_of_true hsyncing.ends ?_
    rintro ⟨target, floor, hrecovery', -⟩
    cases hrecovery.symm.trans hrecovery'
  | some target =>
    have hsome : τ.stream.recovery ≠ none := by
      rw [hrecovery]
      exact Option.some_ne_none _
    cases hfloor : truncation env k r proto τ.recoveryFrom with
    | none =>
      obtain ⟨M, hbelow, hhead⟩ := exists_below τ.stream (r.core.stream env k).head.contigSeq
      have hrecovering : Recovering env k r proto M τ := ⟨hissued, hsome, hbelow, hhead, hfloor⟩
      refine iff_of_true hrecovering.ends ?_
      rintro ⟨-, floor, -, hfloor', -⟩
      cases hfloor.symm.trans hfloor'
    | some floor =>
      constructor
      · intro hends hspins
        exact hspins.not_ends hissued hends.1
      · intro hspins
        apply ends_of_no_step
        intro σ' hreissues
        cases hreissues with
        | entries hafter =>
          have hwhole := (hafter.progressed hissued (Nat.le_refl _)).1
          rw [wantFrom_recovering hsome, hfloor] at hwhole
          cases hwhole
        | truncated m hafter => exact hspins (hafter.spins hissued hrecovery)

/-- The author of five entries, who has pruned the first two. -/
def prunedResponder : Responder :=
  { longResponder 5 with
    core := { (longResponder 5).core with
      db.sqLog := (longLog 5).filter fun row => decide (2 < row.entry.seq)
      db.sqFloors := ⟨[⟨"t", "w", ⟨2, longChain 2⟩, 0⟩], List.nodup_singleton _⟩ } }

/-- A node that has nothing of the stream. -/
def newRequester : Requester where
  held := ⟨Core.init.stream (hostEnv "b") ("t", "w"), [], [], [], ⟨0, 0⟩⟩
  cert := none
  lastCommon := none
  known := 5
  wantReq := 0
  activeWant := none
  queued := false
  recoveryProgress := none
  syncProgress := none
  stalled := false

/-- Its WANTs pass the floor and end. -/
theorem new_stream_ends :
    Ends (hostEnv "b") ("t", "w") prunedResponder 3 newRequester.queueWant ∧
      PassesFloors (hostEnv "b") ("t", "w") prunedResponder 3 newRequester.queueWant := by
  apply (want_chain (hostEnv "b") ("t", "w") prunedResponder 3 newRequester rfl rfl).2
  rintro ⟨target, floor, hrecovery, -⟩
  cases hrecovery

/-- The node has the directive that the stream ends at its fifth entry. -/
def recoveringRequester : Requester :=
  { newRequester with
    held := newRequester.held.direct (hostEnv "b") none
      (hostDirective .retired 1 (some 5) (some (longChain 5))) 0 }

/-- The recovery asks for the pruned entries over and over. -/
theorem pruned_recovery_spins :
    ¬ (Ends (hostEnv "b") ("t", "w") prunedResponder 3 recoveringRequester.queueWant ∧
      PassesFloors (hostEnv "b") ("t", "w") prunedResponder 3 recoveringRequester.queueWant) := by
  intro h
  have hrequeued : Requeued recoveringRequester recoveringRequester.queueWant :=
    queueWant_requeues rfl rfl nofun
  refine (hrequeued.spins_iff.2 ?_).not_ends hrequeued.issued h.1
  have hat : (recoveringRequester.held.atFloor (hostEnv "b") 2 (longChain 2) 0
      ).stream.head.contigSeq = 2 := by
    apply Local.atFloor_of_sealed
    · intro target htarget
      cases htarget
      decide
    · rintro ⟨⟩
  refine ⟨⟨5, longChain 5, 1, false⟩, ⟨2, longChain 2⟩, rfl, rfl, ?_, rfl, ?_⟩
  · exact Nat.le_add_right 2 3
  · refine (if_neg (Nat.not_succ_le_zero 1)).mpr ⟨Nat.le_add_right 3 2, ?_⟩
    exact hat.trans_lt (Nat.le_add_right 3 2)

end Seqscribe
