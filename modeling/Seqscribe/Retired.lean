import Seqscribe.Absorption
import Seqscribe.QuarantineLedger

namespace Seqscribe
set_option autoImplicit true

/-! Retired streams stay at their declared ends. -/

variable {env : Env} {S S' : Stream} {L : Local} {v v' : View} {k : StreamId} {e : LogEntry}

namespace Stream

/-- Retired, with no recovery in progress. -/
def Final (S : Stream) : Prop := S.head.sealReason = some .retired ∧ S.recovery = none

/-- The head is where the directive said that the stream ends. -/
def AtEnd (S : Stream) : Prop :=
  S.head.finalSeq = some S.head.contigSeq ∧ S.head.finalChain = some S.head.contigChain

def Frozen (S : Stream) : Prop := S.Final → S.AtEnd

instance (S : Stream) : Decidable S.Final := inferInstanceAs (Decidable (_ ∧ _))

instance (S : Stream) : Decidable S.AtEnd := inferInstanceAs (Decidable (_ ∧ _))

theorem Frozen.of_recovery (h : S.recovery = some target) : S.Frozen := by
  rintro ⟨-, hnone⟩
  rw [h] at hnone
  cases hnone

theorem Move.unretired (hmove : S.Move env a S') (h : S.head.sealReason ≠ some .retired)
    (ha : (∀ target, a ≠ .retire target) ∧ ∀ s, a ≠ .rewind s) :
    S'.head.sealReason ≠ some .retired := by
  cases hmove with
  | rewind => exact absurd rfl (ha.2 _)
  | retire => exact absurd rfl (ha.1 _)
  | thin _ S' hthin =>
    rw [hthin.head]
    exact h
  | fork => exact fun hretired => by cases hretired
  | revive => exact fun hretired => by cases hretired
  | vacate => exact fun hretired => by cases hretired
  | _ => exact h

theorem Moves.unretired (h : S.Moves env P S') (hS : S.head.sealReason ≠ some .retired)
    (hP : ∀ a, P a → (∀ target, a ≠ .retire target) ∧ ∀ s, a ≠ .rewind s) :
    S'.head.sealReason ≠ some .retired :=
  h.preserves (I := fun S => S.head.sealReason ≠ some .retired)
    (fun a _ _ ha hS hmove => hmove.unretired hS (hP a ha)) hS

end Stream

namespace Local

theorem recoveryExtend_frozen (hrecovery : L.stream.recovery = some target) :
    (L.recoveryExtend env e target via now).stream.Frozen := by
  have hadvance : (L.advance env e via).stream.recovery = some target := by
    rw [← hrecovery]
    change (L.stream.put env e).recovery = _
    rw [Stream.put]
    split <;> rfl
  rw [recoveryExtend]
  split
  next => exact .of_recovery hrecovery
  next =>
    split
    next => exact .of_recovery hrecovery
    next =>
      dsimp only
      split
      next hend =>
        intro _
        exact ⟨congrArg some hend.1.symm, congrArg some hend.2.symm⟩
      next => exact .of_recovery hadvance

theorem recoveryIngest_frozen (hrecovery : L.stream.recovery = some target) :
    (L.recoveryIngest env e target via now).stream.Frozen := by
  rw [recoveryIngest]
  split
  next =>
    split
    next => exact .of_recovery hrecovery
    next =>
      have hback : (L.recoveryRewind env e now).stream.recovery = some target := hrecovery
      exact recoveryExtend_frozen hback
  next => exact recoveryExtend_frozen hrecovery

theorem ingest_frozen (hid : e.stream = L.stream.head.stream) (hpos : 0 < e.seq)
    (h : L.stream.Frozen) : (L.ingest env cert e via now).stream.Frozen := by
  by_cases hopen : L.stream.head.sealReason = none
  · have hmoves : L.stream.Moves env (L.stream.Ingests env cert e)
        (L.ingest env cert e via now).stream := .ingest_of hid hpos fun _ ha _ => ha
    have hstays := hmoves.unretired (by rw [hopen]; exact nofun) ?_
    · exact fun hfinal => absurd hfinal.1 hstays
    · intro a ha
      constructor
      · rintro target rfl
        exact ha.1 hopen
      · rintro s rfl
        exact ha.1 hopen
  · rw [ingest, if_pos hopen]
    cases hrecovery : L.stream.recovery with
    | none => exact h
    | some target =>
      dsimp only
      split
      next => exact recoveryIngest_frozen hrecovery
      next => exact h

theorem direct_frozen {stored : Option WriterDirective} (h : L.stream.Frozen) :
    (L.direct env stored d now).stream.Frozen := by
  rw [direct]
  split
  next => exact h
  next =>
  split
  next => exact h
  next =>
  cases d.state with
  | live =>
    dsimp only
    split
    next => exact h
    next =>
      rintro ⟨hretired, -⟩
      cases hretired
  | retired =>
    dsimp only
    by_cases hends : L.stream.Ends env (directiveTarget env d)
    · have heq : L.processRetired env d now = _ := if_pos hends
      rw [heq]
      exact fun _ => ⟨rfl, rfl⟩
    · rw [processRetired_diverges hends]
      exact .of_recovery rfl

/-- The head that a jump to the canonical end leaves. -/
theorem jumpToFloor_head (hrecovery : L.stream.recovery = some target)
    (hend : seq = target.finalSeq) (chain : Chain) (now : Nat) :
    (L.jumpToFloor seq chain now).stream.head =
      WriterRow.retire { L.stream.head with contigSeq := seq, contigChain := chain } target now := by
  have hreached : (L.stream.recovery.filter fun tgt => decide (seq = tgt.finalSeq)) =
      some target := by
    rw [hrecovery, Option.filter_some, if_pos (decide_eq_true hend)]
  rw [jumpToFloor, hreached]
  exact (raiseFloor_eq _ seq chain).1

theorem adoptFloor_frozen (h : L.stream.Frozen) :
    (L.adoptFloor env seq chain now).stream.Frozen := by
  cases hrecovery : L.stream.recovery with
  | none =>
    by_cases hopen : L.stream.head.sealReason = none
    · have hmoves : L.stream.Moves env (L.stream.Floored env seq chain)
          (L.adoptFloor env seq chain now).stream := .adoptFloor
      have hstays := hmoves.unretired (by rw [hopen]; exact nofun) ?_
      · exact fun hfinal => absurd hfinal.1 hstays
      · intro a ha
        constructor
        · rintro target rfl
          cases hrecovery.symm.trans ha
        · rintro s rfl
          exact ha
    · rw [adoptFloor_eq]
      split
      next => exact h
      next => rw [if_pos ⟨hopen, hrecovery⟩]; exact h
  | some target =>
    rw [adoptFloor_eq, hrecovery]
    split
    next => exact h
    next =>
    rw [if_neg fun hnone => by cases hnone.2]
    split
    next => exact h
    next hagrees =>
    change (L.atFloor env seq chain now).stream.Frozen
    by_cases hend : seq = target.finalSeq
    · have hchain : chain = target.finalChain := by
        by_contra hne
        apply hagrees
        rw [Option.any_some, contradictsTarget, decide_eq_true hend, decide_eq_true hne]
        exact Bool.or_true _
      have hhead := jumpToFloor_head hrecovery hend chain now
      have hseal : ¬ (L.jumpToFloor seq chain now).stream.head.sealReason = none := by
        rw [hhead]
        exact nofun
      rw [atFloor, if_neg hseal, Stream.Frozen, Stream.AtEnd, hhead]
      exact fun _ => ⟨congrArg some hend.symm, congrArg some hchain.symm⟩
    · have hbefore : ∀ tgt, L.stream.recovery = some tgt → seq ≠ tgt.finalSeq := by
        intro tgt htgt
        obtain rfl := Option.some.inj (hrecovery.symm.trans htgt)
        exact hend
      have hstays := (atFloor_unreached env hbefore chain now (Nat.le_refl seq)).1
      exact .of_recovery (hstays.trans hrecovery)

end Local

namespace Stream

theorem Frozen.of_final (h : S.Frozen) (hfinal : S'.Final → S' = S) : S'.Frozen := by
  intro hS'
  have heq := hfinal hS'
  rw [heq] at hS' ⊢
  exact h hS'

theorem Thinned.frozen (hthin : S.Thinned S') (h : S.Frozen) : S'.Frozen := by
  rw [Frozen, Final, AtEnd, hthin.head, hthin.recovery]
  exact h

theorem final_forkOpen (h : S.forkOpen.Final) : S.forkOpen = S := by
  rw [forkOpen]
  apply if_neg
  intro hopen
  rw [forkOpen, if_pos hopen] at h
  cases h.1

/-- A certificate that finds no late row on a retired stream leaves it at its end. -/
theorem certified_frozen (h : S.Frozen) (hspares : S.Final → ¬ S.HoldsLate cert) (now : Nat) :
    (S.certified env cert now).Frozen := by
  rw [certified]
  dsimp only
  split
  next hlate =>
    intro hfinal
    have heq := final_forkOpen hfinal
    rw [heq] at hfinal
    exact absurd hlate (hspares hfinal)
  next =>
    split
    next => exact h.of_final final_forkOpen
    next => exact h

end Stream

/-- A cut that is not beyond a retired stream leaves the stream as it is. -/
theorem View.adopt_frozen {cut : List CutEntry} (h : (v.streams k).Frozen)
    (hspares : ∀ c ∈ cut, (T, c.writer) = k → (v.streams k).Final →
      c.seq ≤ (v.streams k).head.contigSeq) : ((v.adopt T cut).streams k).Frozen := by
  rw [View.adopt]
  induction cut generalizing v with
  | nil => exact h
  | cons c rest ih =>
    rw [List.foldl_cons]
    have hnext : ((v.onStream (T, c.writer) (Local.adopt c.seq c.chain)).streams k).Final →
        (v.onStream (T, c.writer) (Local.adopt c.seq c.chain)).streams k = v.streams k := by
      intro hfinal
      by_cases hk : k = (T, c.writer)
      · subst hk
        rw [View.onStream, View.withLocal_streams_self] at hfinal ⊢
        have hle (hS : (v.streams (T, c.writer)).Final) :=
          hspares c List.mem_cons_self rfl hS
        rw [Local.adopt] at hfinal ⊢
        split at hfinal
        next hlt => exact absurd (hle hfinal) (Nat.not_le_of_lt hlt)
        next hge => rw [if_neg hge]; rfl
      · rw [View.onStream, View.withLocal_streams_of_ne _ hk]
    apply ih (h.of_final hnext)
    intro c' hc' hk hfinal
    have heq := hnext hfinal
    rw [heq] at hfinal ⊢
    exact hspares c' (List.mem_cons_of_mem _ hc') hk hfinal

/-- The item moves no retired stream off its end: a certificate finds no late row on one, and no
adopted cut is beyond one. -/
def QueueItem.SparesEnds (item : QueueItem env) (v : View) : Prop :=
  match item with
  | .cert c => ∀ w, (v.streams (c.topic, w)).Final → ¬ (v.streams (c.topic, w)).HoldsLate c
  | .adopt T cut => ∀ c ∈ cut.rows, (v.streams (T, c.writer)).Final →
      c.seq ≤ (v.streams (T, c.writer)).head.contigSeq
  | _ => True

/-- Every stream is under its own id and, once retired, at its end. -/
structure View.Frozen (v : View) : Prop where
  id : ∀ k, (v.streams k).head.stream = k
  frozen : ∀ k, (v.streams k).Frozen

theorem ItemStep.frozen {item : QueueItem env} (h : ItemStep env exact item v v') (hv : v.Frozen)
    (hspares : item.SparesEnds v) : v'.Frozen := by
  refine ⟨fun k => (h.conserves hv.id k).id.trans (hv.id k), fun k => ?_⟩
  have hk := hv.frozen k
  have hlocal {k₀ : StreamId} {L : Local} (hL : (v.streams k₀).Frozen → L.stream.Frozen) :
      ((v.withLocal k₀ L).streams k).Frozen := by
    by_cases heq : k = k₀
    · subst heq
      rw [View.withLocal_streams_self]
      exact hL hk
    · rw [View.withLocal_streams_of_ne _ heq]
      exact hk
  have hpruned {v' : View} (h : v.Pruned v') : (v'.streams k).Frozen := by
    obtain ⟨v₁, r, hthin, -, rfl⟩ := h
    have hframe : (v₁.streams k).Frozen := (hthin.streams k).frozen hk
    exact hframe
  cases item with
  | append item =>
    obtain ⟨L, happ, rfl⟩ := h
    apply hlocal
    intro hL
    cases happ with
    | appended hopen hstamp hvalid =>
      rintro ⟨hretired, -⟩
      replace hretired : (v.streams (item.topic, env.writerId)).head.sealReason = _ := hretired
      cases hopen.symm.trans hretired
    | _ => exact hL
  | external item =>
    obtain rfl := h
    apply hlocal
    exact Local.ingest_frozen (L := v.localAt item.entry.stream) (hv.id _).symm
      (one_le_seq_of_validateEntry item.valid)
  | sealStream T w =>
    obtain rfl := h
    apply hlocal
    intro hL
    rw [Local.processSeal]
    split
    next => exact fun hfinal => by cases hfinal.1
    next => exact hL
  | cert cert =>
    obtain ⟨writers, n, hlists, rfl⟩ := h
    change (View.streams (v.certify env cert writers) k).Frozen
    rw [View.certify_streams hlists.nodup]
    split
    next hmem =>
      obtain ⟨T, w⟩ := k
      obtain ⟨rfl, -⟩ := hmem
      exact Stream.certified_frozen hk (hspares w) v.now
    next => exact hk
  | directive d =>
    obtain rfl := h
    rw [View.onStream, View.storeDirective_localAt]
    by_cases heq : k = (d.topic, d.writer)
    · subst heq
      rw [View.withLocal_streams_self]
      exact Local.direct_frozen (L := v.localAt (d.topic, d.writer)) hk
    · rw [View.withLocal_streams_of_ne _ heq, View.storeDirective_streams]
      exact hk
  | adopt T cut =>
    obtain rfl := h
    apply View.adopt_frozen hk
    rintro c hc rfl
    exact hspares c hc
  | retireTopic T known =>
    rcases h with ⟨e, rfl⟩ | ⟨-, n, rfl⟩
    · exact hk
    · change (View.streams (v.retireTopic env T) k).Frozen
      rw [View.retireTopic]
      dsimp only
      split
      next => exact fun hfinal => by cases hfinal.1
      next => exact hk
  | adoptFloor T w s chain known =>
    obtain rfl := h
    apply hlocal
    intro hL
    split
    next => exact Local.adoptFloor_frozen (L := v.localAt (T, w)) hL
    next => exact hL
  | pruneTopic => exact hpruned h
  | pruneSuperseded => exact hpruned h
  | pruneAcked => exact hpruned h

/-- A restart, which forgets recoveries, comes when every retired stream is at its end. -/
def Input.SparesEnds (i : Input env) (v : View) : Prop :=
  i = .restart → ∀ k, (v.streams k).head.sealReason = some .retired → (v.streams k).AtEnd

theorem CoreStep.frozen (h : CoreStep env False (fun q v => q.2.SparesEnds v) i v v') (hv : v.Frozen)
    (hrestart : i.SparesEnds v) : v'.Frozen := by
  cases h with
  | commit h =>
    have hend := (h.preserves (I := View.Frozen) False.elim hv
      fun q _ v v' _ hv hspares hstep => hstep.frozen ⟨hv.id, hv.frozen⟩ hspares).2
    exact ⟨hend.id, hend.frozen⟩
  | abort => exact hv
  | archive h =>
    exact ⟨fun k => (congrArg WriterRow.stream (h.streams k).head).trans (hv.id k),
      fun k => (h.streams k).frozen (hv.frozen k)⟩
  | quiet => exact hv
  | unavailable T w =>
    have hk (k : StreamId) : (v.noteUnavailable (T, w)).streams k = (v.streams k).noteUnavailable ∨
        (v.noteUnavailable (T, w)).streams k = v.streams k := by
      by_cases hk : k = (T, w)
      · subst hk
        exact .inl (Function.update_self ..)
      · exact .inr (Function.update_of_ne hk ..)
    constructor
    · intro k
      rcases hk k with hk | hk <;> rw [hk] <;> exact hv.id k
    · intro k
      rcases hk k with hk | hk <;> rw [hk]
      · rintro ⟨hretired, hnone⟩
        exact hv.frozen k ⟨hretired, Option.map_eq_none_iff.1 hnone⟩
      · exact hv.frozen k
  | restart => exact ⟨hv.id, fun k hfinal => hrestart rfl k hfinal.1⟩

/-- In every run in which certificates find no late row on a retired stream, adopted cuts are not
beyond one, and restarts come when none is in recovery off its end, a retired stream that does not
recover is at its declared end. -/
theorem retired_streams_frozen (is : List (Input env))
    (hitems : RunEvery env (fun q t => q.2.SparesEnds (t.view env)) Core.init is)
    (hrestarts : ∀ done i, done ++ [i] <+: is →
      i.SparesEnds ((runCore env Core.init done).view env)) (k : StreamId)
    (hfinal : ((runCore env Core.init is).stream env k).Final) :
    ((runCore env Core.init is).stream env k).AtEnd := by
  have hrun := runCore_induct (I := View.Frozen) Core.coherent_init hitems hrestarts
    ⟨Core.init.head_stream env, fun k hfinal => by cases hfinal.1⟩
    fun i v v' hv hrestart hstep => hstep.frozen hv hrestart
  exact hrun.frozen k hfinal

/-- A retirement at the first entry. -/
def retireFirst : WriterDirective := hostDirective .retired 1 (some 1)
  (some "2b9b9a7838c39f166c0015237d70501dc4ea31d32bf5c34ee8c0d5d8bdf67e27")

def retiredRun : List (Input (hostEnv "b")) :=
  firstFlush ++ [hostFlush "b" 21 [.directive retireFirst]]

/-- A retired stream takes no second entry. -/
theorem retired_streams_frozen_of_second :
    let core := runCore (hostEnv "b") Core.init
      (retiredRun ++ [hostFlush "b" 22 [.external secondItem]])
    (core.stream (hostEnv "b") ("t", "w")).Final ∧ (core.stream (hostEnv "b") ("t", "w")).AtEnd := by
  intro core
  have hretired : (core.stream (hostEnv "b") ("t", "w")).Final := by decide +kernel
  refine ⟨hretired, retired_streams_frozen (retiredRun ++ _) ?_ ?_ _ hretired⟩
  · exact ((RunEvery.flush_one trivial).append (RunEvery.flush_one trivial)).append
      (RunEvery.flush_one trivial)
  · rintro done i hdone rfl
    have hmem : Input.restart ∈ _ := hdone.subset (List.mem_append_right done List.mem_cons_self)
    rcases hmem with _ | ⟨_, _ | ⟨_, _ | ⟨_, hmem⟩⟩⟩
    cases hmem

/-- A certificate whose cut does not name `w` takes the only entry of its retired stream away. The
stream stays retired, and refuses that entry ever after. -/
theorem cert_rewinds_retired :
    let rewound := runCore (hostEnv "b") Core.init
      (retiredRun ++ [hostFlush "b" 22 [.cert { firstCut with cut := .empty }]])
    let core := runCore (hostEnv "b") rewound [hostFlush "b" 23 [.external firstItem]]
    (core.stream (hostEnv "b") ("t", "w")).Final ∧
      ¬ (core.stream (hostEnv "b") ("t", "w")).AtEnd ∧
      (core.head (hostEnv "b") ("t", "w")).finalSeq = some 1 ∧
      (core.head (hostEnv "b") ("t", "w")).contigSeq = 0 := by
  decide +kernel

end Seqscribe
