import Seqscribe.Moves

namespace Seqscribe
set_option autoImplicit true

/-! What external entries and adopted floors leave of a stream, as far as it goes on from there. -/

variable {env : Env}

/-- Neither the head nor what is pending is beyond a position. -/
structure Stream.Below (M : Nat) (S : Stream) : Prop where
  head : S.head.contigSeq ≤ M
  pending : ∀ e ∈ S.pending.rows, e.seq ≤ M

namespace Local

/-- The head has not gone back, and a recovery is as it was. -/
structure Advanced (M : Nat) (L L' : Local) : Prop where
  recovery : L'.stream.recovery = L.stream.recovery
  stays : L.stream.head.sealReason ≠ none → L'.stream.head.sealReason ≠ none
  le : L.stream.head.contigSeq ≤ L'.stream.head.contigSeq
  below : L.stream.Below M → L'.stream.Below M

namespace Advanced

theorem of_stream {L L' : Local} (h : L'.stream = L.stream) : Advanced M L L' := by
  constructor
  · rw [h]
  · rw [h]
    exact id
  · rw [h]
  · rw [h]
    exact id

theorem refl (L : Local) : Advanced M L L := of_stream rfl

theorem trans {L L' L'' : Local} (h : Advanced M L L') (h' : Advanced M L' L'') :
    Advanced M L L'' :=
  ⟨h'.recovery.trans h.recovery, fun hs => h'.stays (h.stays hs), h.le.trans h'.le,
    fun hb => h'.below (h.below hb)⟩

theorem done (h : Advanced M L L') (r : Settled) : Advanced M L (L'.done r) := h.trans (of_stream rfl)

theorem sealHead (L : Local) (e : LogEntry) : Advanced M L (L.sealHead e) := by
  refine ⟨rfl, ?_, Nat.le_refl _, fun hb => ⟨hb.head, hb.pending⟩⟩
  intro _ hnone
  cases hnone

theorem advance {L : Local} (hseq : e.seq = L.stream.head.contigSeq + 1)
    (hM : L.stream.Below M → e.seq ≤ M) (via : Option String) :
    Advanced M L (L.advance env e via) := by
  constructor
  · change (L.stream.put env e).recovery = _
    rw [Stream.put]
    split
    · rfl
    · rfl
  · exact id
  · change L.stream.head.contigSeq ≤ e.seq
    rw [hseq]
    exact Nat.le_succ _
  · intro hb
    refine ⟨hM hb, ?_⟩
    change ∀ e' ∈ (L.stream.put env e).pending.rows, e'.seq ≤ M
    rw [Stream.pending_put]
    exact hb.pending

theorem verifyAndApply {L : Local} (hseq : e.seq = L.stream.head.contigSeq + 1)
    (hM : L.stream.Below M → e.seq ≤ M) (via : Option String) :
    Advanced M L (L.verifyAndApply env e via).1 := by
  rw [Local.verifyAndApply]
  split
  · exact advance hseq hM via
  · exact sealHead L e

theorem unpend (L : Local) (s : Nat) : Advanced M L (L.map (Stream.unpend s)) := by
  refine ⟨rfl, id, Nat.le_refl _, fun hb => ⟨hb.head, fun e he => ?_⟩⟩
  change e ∈ (L.stream.pending.filter _).rows at he
  rw [Table.rows_filter] at he
  exact hb.pending e (List.mem_of_mem_filter he)

theorem drain (L : Local) (via : Option String) (fuel : Nat) :
    Advanced M L (L.drain env via fuel) := by
  induction fuel generalizing L with
  | zero => exact refl L
  | succ fuel ih =>
    rw [Local.drain]
    split
    · exact refl L
    · next next hnext =>
      obtain ⟨hmem, hkey⟩ := Table.get_eq_some_iff.1 hnext
      have hseq : next.seq = L.stream.head.contigSeq + 1 :=
        congrArg (fun id : EntryId => id.2.2) hkey
      have hstep : Advanced M L ((L.map (Stream.unpend next.seq)).verifyAndApply env next via).1 := by
        by_cases hb : L.stream.Below M
        · exact (unpend L next.seq).trans
            (verifyAndApply (L := L.map _) hseq (fun _ => hb.pending next hmem) via)
        · have hstep : Advanced next.seq L
              ((L.map (Stream.unpend next.seq)).verifyAndApply env next via).1 :=
            (unpend L next.seq).trans
              (verifyAndApply (L := L.map _) hseq (fun _ => Nat.le_refl _) via)
          exact ⟨hstep.recovery, hstep.stays, hstep.le, fun hb' => absurd hb' hb⟩
      dsimp only
      split
      · exact hstep
      · exact hstep.trans (ih _)

theorem mergeClock (L : Local) (e : LogEntry) (now : Nat) :
    Advanced M L (L.mergeClock env e now) := by
  rw [Local.mergeClock]
  split
  · exact of_stream rfl
  · exact of_stream rfl

theorem recheck (L : Local) (e : LogEntry) : Advanced M L (L.recheck e) := by
  rw [Local.recheck]
  split
  · split
    · exact of_stream rfl
    · exact (sealHead L e).done _
  · exact of_stream rfl

theorem extend {L : Local} (hseq : e.seq = L.stream.head.contigSeq + 1) (hM : e.seq ≤ M)
    (via : Option String) (now : Nat) : Advanced M L (L.extend env e via now) := by
  have hstep : Advanced M L (L.verifyAndApply env e via).1 := verifyAndApply hseq (fun _ => hM) via
  rw [Local.extend]
  split
  · exact ((hstep.trans (mergeClock _ e now)).trans (drain _ via _)).done _
  · exact hstep.done _

theorem postpone (L : Local) (hM : e.seq ≤ M) (now : Nat) :
    Advanced M L (L.postpone env e now) := by
  rw [Local.postpone]
  split
  · split
    · exact of_stream rfl
    · exact (sealHead L e).done _
  · split
    · exact of_stream rfl
    · have hpend : Advanced M L (L.map (Stream.pend e)) := by
        refine ⟨rfl, id, Nat.le_refl _, fun hb => ⟨hb.head, fun e' he' => ?_⟩⟩
        rcases Table.eq_or_mem_of_mem_upsert he' with rfl | hold
        · exact hM
        · exact hb.pending e' hold
      exact (hpend.trans (mergeClock _ e now)).done _

end Advanced

/-- A recovery is as it was or has ended with the stream retired, and without one the head has not
gone back. -/
structure Absorbed (M : Nat) (L L' : Local) : Prop where
  recovery : L'.stream.recovery = L.stream.recovery ∨
    L'.stream.recovery = none ∧ L'.stream.head.sealReason ≠ none
  stays : L.stream.head.sealReason ≠ none → L'.stream.head.sealReason ≠ none
  le : L.stream.recovery = none → L.stream.head.contigSeq ≤ L'.stream.head.contigSeq
  below : L.stream.Below M → L'.stream.Below M

theorem Advanced.absorbed (h : Advanced M L L') : Absorbed M L L' :=
  ⟨.inl h.recovery, h.stays, fun _ => h.le, h.below⟩

namespace Absorbed

theorem of_stream {L L' : Local} (h : L'.stream = L.stream) : Absorbed M L L' :=
  (Advanced.of_stream h).absorbed

theorem trans {L L' L'' : Local} (h : Absorbed M L L') (h' : Absorbed M L' L'') :
    Absorbed M L L'' := by
  refine ⟨?_, fun hs => h'.stays (h.stays hs), ?_, fun hb => h'.below (h.below hb)⟩
  · rcases h'.recovery with hsame' | hended'
    · rcases h.recovery with hsame | ⟨hnone, hsealed⟩
      · exact .inl (hsame'.trans hsame)
      · exact .inr ⟨hsame'.trans hnone, h'.stays hsealed⟩
    · exact .inr hended'
  · intro hnone
    apply (h.le hnone).trans
    apply h'.le
    rcases h.recovery with hsame | hended
    · exact hsame.trans hnone
    · exact hended.1

theorem recoveryExtend (L : Local) (hM : e.seq ≤ M) (target : RecoveryTarget)
    (via : Option String) (now : Nat) : Absorbed M L (L.recoveryExtend env e target via now) := by
  rw [Local.recoveryExtend]
  split
  · exact of_stream rfl
  next hnext =>
  split
  · exact of_stream rfl
  have hadvance : Advanced M L (L.advance env e via) :=
    .advance (not_ne_iff.1 hnext) (fun _ => hM) via
  dsimp only
  split
  · refine ⟨.inr ⟨rfl, ?_⟩, ?_, fun _ => hadvance.le, fun hb => ?_⟩
    · intro hnone
      cases hnone
    · intro _ hnone
      cases hnone
    · have hb' := hadvance.below hb
      exact ⟨hb'.head, hb'.pending⟩
  · exact (hadvance.done _).absorbed

theorem recoveryIngest {L : Local} (hrecovery : L.stream.recovery ≠ none) (hM : e.seq ≤ M)
    (target : RecoveryTarget) (via : Option String) (now : Nat) :
    Absorbed M L (L.recoveryIngest env e target via now) := by
  rw [Local.recoveryIngest]
  split
  · split
    · exact of_stream rfl
    · have hrewind : Absorbed M L (L.recoveryRewind env e now) := by
        refine ⟨.inl rfl, id, fun hnone => absurd hnone hrecovery, fun hb => ⟨?_, hb.pending⟩⟩
        exact (Nat.sub_le e.seq 1).trans hM
      exact hrewind.trans (recoveryExtend _ hM target via now)
  · exact recoveryExtend L hM target via now

theorem ingest (L : Local) (hM : e.seq ≤ M) (cert : Option FinalityCert) (via : Option String)
    (now : Nat) : Absorbed M L (L.ingest env cert e via now) := by
  rw [Local.ingest]
  split
  · split
    · next target htarget =>
      split
      · apply recoveryIngest _ hM
        rw [htarget]
        exact Option.some_ne_none target
      · exact of_stream rfl
    · exact of_stream rfl
  split
  · exact of_stream rfl
  split
  · exact (Advanced.recheck L e).absorbed
  split
  · next hseq => exact (Advanced.extend hseq hM via now).absorbed
  · exact (Advanced.postpone L hM now).absorbed

end Absorbed

/-! An adopted floor. -/

/-- The stream at the floor with what is pending after it. -/
def atFloor (env : Env) (seq : Nat) (chain : Chain) (now : Nat) (L : Local) : Local :=
  let L' := L.jumpToFloor seq chain now
  if L'.stream.head.sealReason = none then L'.drainAll env none else L'

theorem adoptFloor_eq (L : Local) (seq : Nat) (chain : Chain) (now : Nat) :
    L.adoptFloor env seq chain now =
      if L.stream.head.contigSeq ≥ seq then L.done (.adoptedFloor .noop)
      else if L.stream.head.sealReason ≠ none ∧ L.stream.recovery = none then
        L.done (.adoptedFloor .refused)
      else if L.stream.recovery.any fun tgt => contradictsTarget tgt seq chain then
        L.done (.adoptedFloor .refused)
      else (L.atFloor env seq chain now).done (.adoptedFloor .adopted) := rfl

theorem raiseFloor_eq (S : Stream) (seq : Nat) (chain : Chain) :
    (S.raiseFloor seq chain).head = S.head ∧ (S.raiseFloor seq chain).recovery = S.recovery ∧
      (S.raiseFloor seq chain).pending = S.pending := by
  rw [Stream.raiseFloor]
  split
  · exact ⟨rfl, rfl, rfl⟩
  · exact ⟨rfl, rfl, rfl⟩

/-- The jump to the canonical end ends the recovery. -/
theorem jumpToFloor_reached {L : Local} (hrecovery : L.stream.recovery = some target)
    (hend : seq = target.finalSeq) (chain : Chain) (now : Nat) :
    (L.jumpToFloor seq chain now).stream.recovery = none ∧
      (L.jumpToFloor seq chain now).stream.head.sealReason = some .retired := by
  have hreached : (L.stream.recovery.filter fun tgt => decide (seq = tgt.finalSeq)) =
      some target := by
    rw [hrecovery, Option.filter_some, if_pos (decide_eq_true hend)]
  rw [jumpToFloor, hreached]
  exact ⟨(raiseFloor_eq _ seq chain).2.1, congrArg _ (raiseFloor_eq _ seq chain).1⟩

theorem jumpToFloor_unreached {L : Local}
    (hbefore : ∀ target, L.stream.recovery = some target → seq ≠ target.finalSeq) (chain : Chain)
    (now : Nat) :
    (L.jumpToFloor seq chain now).stream.recovery = L.stream.recovery ∧
      (L.jumpToFloor seq chain now).stream.head =
        { L.stream.head with contigSeq := seq, contigChain := chain } ∧
      (L.jumpToFloor seq chain now).stream.pending =
        L.stream.pending.filter fun e => !decide (e.seq ≤ seq) := by
  have hreached : (L.stream.recovery.filter fun tgt => decide (seq = tgt.finalSeq)) = none := by
    rw [Option.filter_eq_none_iff]
    intro target htarget
    rw [decide_eq_true_eq]
    exact hbefore target htarget
  rw [jumpToFloor, hreached]
  exact ⟨(raiseFloor_eq _ seq chain).2.1, (raiseFloor_eq _ seq chain).1,
    congrArg (fun T : Table EntryId LogEntry LogEntry.id => T.filter fun e => !decide (e.seq ≤ seq))
      (raiseFloor_eq _ seq chain).2.2⟩

/-- Short of a canonical end the stream goes on at the floor. -/
theorem atFloor_unreached (env : Env) {L : Local}
    (hbefore : ∀ target, L.stream.recovery = some target → seq ≠ target.finalSeq) (chain : Chain)
    (now : Nat) (hM : seq ≤ M) :
    (L.atFloor env seq chain now).stream.recovery = L.stream.recovery ∧
      (L.stream.head.sealReason ≠ none →
        (L.atFloor env seq chain now).stream.head.sealReason ≠ none) ∧
      seq ≤ (L.atFloor env seq chain now).stream.head.contigSeq ∧
      (L.stream.Below M → (L.atFloor env seq chain now).stream.Below M) := by
  obtain ⟨hrecovery, hhead, hpending⟩ := jumpToFloor_unreached hbefore chain now
  have hdrained : Advanced M (L.jumpToFloor seq chain now) (L.atFloor env seq chain now) := by
    rw [atFloor]
    split
    · exact .drain _ none _
    · exact .refl _
  refine ⟨hdrained.recovery.trans hrecovery, fun hsealed => hdrained.stays ?_, ?_, fun hb =>
    hdrained.below ⟨?_, fun e he => ?_⟩⟩
  · rw [hhead]
    exact hsealed
  · apply Nat.le_trans _ hdrained.le
    rw [hhead]
  · rw [hhead]
    exact hM
  · rw [hpending, Table.rows_filter] at he
    exact hb.pending e (List.mem_of_mem_filter he)

theorem atFloor_reached (env : Env) {L : Local} (hrecovery : L.stream.recovery = some target)
    (hend : seq = target.finalSeq) (chain : Chain) (now : Nat) :
    (L.atFloor env seq chain now).stream.recovery = none ∧
      (L.atFloor env seq chain now).stream.head.sealReason ≠ none := by
  obtain ⟨hnone, hretired⟩ := jumpToFloor_reached hrecovery hend chain now
  have hsealed : (L.jumpToFloor seq chain now).stream.head.sealReason ≠ none := by
    rw [hretired]
    exact Option.some_ne_none _
  rw [atFloor, if_neg hsealed]
  exact ⟨hnone, hsealed⟩

/-- Without a canonical end to reach, the time plays no part. -/
theorem atFloor_congr {L : Local}
    (hbefore : ∀ target, L.stream.recovery = some target → seq ≠ target.finalSeq) (chain : Chain)
    (now now' : Nat) : L.atFloor env seq chain now = L.atFloor env seq chain now' := by
  have hreached : (L.stream.recovery.filter fun tgt => decide (seq = tgt.finalSeq)) = none := by
    rw [Option.filter_eq_none_iff]
    intro target htarget
    rw [decide_eq_true_eq]
    exact hbefore target htarget
  have hjump : L.jumpToFloor seq chain now = L.jumpToFloor seq chain now' := by
    rw [jumpToFloor, jumpToFloor, hreached]
    rfl
  rw [atFloor, atFloor, hjump]

/-- A sealed stream stops at the floor. -/
theorem atFloor_of_sealed {L : Local}
    (hbefore : ∀ target, L.stream.recovery = some target → seq ≠ target.finalSeq)
    (hsealed : L.stream.head.sealReason ≠ none) (chain : Chain) (now : Nat) :
    (L.atFloor env seq chain now).stream.head.contigSeq = seq := by
  obtain ⟨-, hhead, -⟩ := jumpToFloor_unreached hbefore chain now
  rw [atFloor, if_neg (by rw [hhead]; exact hsealed), hhead]

end Local

end Seqscribe
