import Seqscribe.FinalityGate
import Seqscribe.PendingBuffer

namespace Seqscribe
set_option autoImplicit true

/-! Everything that a node stores came in through the validator. -/

variable {env : Env} {P : LogEntry → Prop} {S S' : Stream} {L L' : Local} {v v' : View}

/-- Every entry that the stream stores, wherever it keeps it, has the property. -/
structure Stream.Stores (P : LogEntry → Prop) (S : Stream) : Prop where
  rows : ∀ s e, S.rows s = some e → P e
  pending : ∀ e ∈ S.pending.rows, P e
  quarantine : ∀ s q, S.quarantine s = some q → P q.entry
  archive : ∀ s e, S.archive s = some e → P e

namespace Stream.Stores

/-- Only where the entries are kept counts. -/
theorem congr (h : S.Stores P) (hrows : S'.rows = S.rows) (hpending : S'.pending = S.pending)
    (hquarantine : S'.quarantine = S.quarantine) (harchive : S'.archive = S.archive) :
    S'.Stores P := by
  constructor
  · rw [hrows]
    exact h.rows
  · rw [hpending]
    exact h.pending
  · rw [hquarantine]
    exact h.quarantine
  · rw [harchive]
    exact h.archive

theorem put (h : S.Stores P) (he : P e) : (S.put env e).Stores P := by
  have hrest : (S.put env e).pending = S.pending ∧ (S.put env e).quarantine = S.quarantine ∧
      (S.put env e).archive = S.archive := by
    rw [Stream.put]
    split
    · exact ⟨rfl, rfl, rfl⟩
    · exact ⟨rfl, rfl, rfl⟩
  obtain ⟨hpending, hquarantine, harchive⟩ := hrest
  constructor
  · intro s e' hrow
    rw [rows_put] at hrow
    split at hrow
    · cases hrow
      exact he
    · exact h.rows s e' hrow
  · rw [hpending]
    exact h.pending
  · rw [hquarantine]
    exact h.quarantine
  · rw [harchive]
    exact h.archive

theorem advance (h : S.Stores P) (he : P e) : (S.advance env e).Stores P :=
  (h.put he).congr rfl rfl rfl rfl

theorem saveHead (h : S.Stores P) (head : WriterRow) : (S.saveHead head).Stores P :=
  h.congr rfl rfl rfl rfl

theorem setRecovery (h : S.Stores P) (target : Option RecoveryTarget) :
    (S.setRecovery target).Stores P :=
  h.congr rfl rfl rfl rfl

theorem fork (h : S.Stores P) : S.fork.Stores P := h.congr rfl rfl rfl rfl

theorem forkOpen (h : S.Stores P) : S.forkOpen.Stores P := by
  rw [Stream.forkOpen]
  split
  · exact h.fork
  · exact h

theorem fewer_pending (h : S.Stores P) {pending : Table EntryId LogEntry LogEntry.id}
    (hfewer : ∀ e ∈ pending.rows, e ∈ S.pending.rows) : { S with pending := pending }.Stores P :=
  ⟨h.rows, fun e he => h.pending e (hfewer e he), h.quarantine, h.archive⟩

theorem unpend (h : S.Stores P) (seq : Nat) : (S.unpend seq).Stores P :=
  h.fewer_pending fun _ he => List.mem_of_mem_filter he

theorem dropPending (h : S.Stores P) (seq : Nat) : (S.dropPending seq).Stores P :=
  h.fewer_pending fun _ he => List.mem_of_mem_filter he

theorem pend (h : S.Stores P) (he : P e) : (S.pend e).Stores P := by
  refine ⟨h.rows, fun e' he' => ?_, h.quarantine, h.archive⟩
  rcases Table.eq_or_mem_of_mem_upsert he' with rfl | hold
  · exact he
  · exact h.pending e' hold

theorem quarantineFrom (h : S.Stores P) (fromSeq toSeq : Nat) (reason : QuarantineReason)
    (now : Nat) : (S.quarantineFrom fromSeq toSeq reason now).Stores P := by
  refine ⟨fun s e hrow => ?_, h.pending, fun s q hq => ?_, h.archive⟩
  · have hrow : (if fromSeq ≤ s then none else S.rows s) = some e := hrow
    split at hrow
    · cases hrow
    · exact h.rows s e hrow
  · rw [Stream.quarantineFrom] at hq
    dsimp only at hq
    split at hq
    · next e hrow =>
      cases hq
      split at hrow
      · exact h.rows s e hrow
      · cases hrow
    · exact h.quarantine s q hq

theorem raiseFloor (h : S.Stores P) (seq : Nat) (chain : Chain) :
    (S.raiseFloor seq chain).Stores P := by
  rw [Stream.raiseFloor]
  split
  · exact h.congr rfl rfl rfl rfl
  · exact h

theorem thinned (h : S.Stores P) (hthin : S.Thinned S') : S'.Stores P := by
  constructor
  · exact fun s e hrow => h.rows s e (hthin.row hrow)
  · rw [hthin.pending]
    exact h.pending
  · rw [hthin.quarantine]
    exact h.quarantine
  · intro s e harchive
    rcases hthin.archive s with hsame | ⟨-, hmoved⟩
    · exact h.archive s e (hsame.symm.trans harchive)
    · exact h.rows s e (hmoved.symm.trans harchive)

theorem pendingAt (h : S.Stores P) (hget : S.pendingAt s = some e) : P e :=
  h.pending e (Table.get_eq_some_iff.1 hget).1

end Stream.Stores

namespace Local

theorem stores_verifyAndApply (h : L.stream.Stores P) (he : P e) (via : Option String) :
    (L.verifyAndApply env e via).1.stream.Stores P := by
  rw [verifyAndApply]
  split
  · exact h.advance he
  · exact h.fork

theorem stores_drain (h : L.stream.Stores P) (via : Option String) (fuel : Nat) :
    (L.drain env via fuel).stream.Stores P := by
  induction fuel generalizing L with
  | zero => exact h
  | succ fuel ih =>
    rw [drain]
    split
    · exact h
    · next next hnext =>
      have hstep : ((L.map (Stream.unpend next.seq)).verifyAndApply env next via).1.stream.Stores P :=
        stores_verifyAndApply (L := L.map _) (h.unpend next.seq) (h.pendingAt hnext) via
      dsimp only
      split
      · exact hstep
      · exact ih hstep

theorem stores_mergeClock (h : L.stream.Stores P) (now : Nat) :
    (L.mergeClock env e now).stream.Stores P := by
  rw [stream_mergeClock]
  exact h

theorem stores_extend (h : L.stream.Stores P) (he : P e) (via : Option String) (now : Nat) :
    (L.extend env e via now).stream.Stores P := by
  have hstep : (L.verifyAndApply env e via).1.stream.Stores P := stores_verifyAndApply h he via
  rw [extend]
  split
  · exact stores_drain (stores_mergeClock hstep now) via _
  · exact hstep

theorem stores_postpone (h : L.stream.Stores P) (he : P e) (now : Nat) :
    (L.postpone env e now).stream.Stores P := by
  rw [postpone]
  split
  · split
    · exact h
    · exact h.fork
  · split
    · exact h
    · exact stores_mergeClock (L := L.map _) (h.pend he) now

theorem stores_recheck (h : L.stream.Stores P) : (L.recheck e).stream.Stores P := by
  rw [recheck]
  split
  · split
    · exact h
    · exact h.fork
  · exact h

theorem stores_recoveryExtend (h : L.stream.Stores P) (he : P e) (target : RecoveryTarget)
    (via : Option String) (now : Nat) :
    (L.recoveryExtend env e target via now).stream.Stores P := by
  rw [recoveryExtend]
  split
  · exact h
  split
  · exact h
  dsimp only
  split
  · exact ((h.advance he).saveHead _).setRecovery none
  · exact h.advance he

theorem stores_recoveryIngest (h : L.stream.Stores P) (he : P e) (target : RecoveryTarget)
    (via : Option String) (now : Nat) :
    (L.recoveryIngest env e target via now).stream.Stores P := by
  rw [recoveryIngest]
  split
  · split
    · exact h
    · exact stores_recoveryExtend (L := L.recoveryRewind env e now)
        ((h.quarantineFrom _ _ _ _).saveHead _) he target via now
  · exact stores_recoveryExtend h he target via now

theorem stores_ingest (h : L.stream.Stores P) (he : P e) (cert : Option FinalityCert)
    (via : Option String) (now : Nat) : (L.ingest env cert e via now).stream.Stores P := by
  rw [ingest]
  split
  · cases L.stream.recovery with
    | none => exact h
    | some target =>
      dsimp only
      split
      · exact stores_recoveryIngest h he target via now
      · exact h
  split
  · exact h
  split
  · exact stores_recheck h
  split
  · exact stores_extend h he via now
  · exact stores_postpone h he now

theorem stores_direct (h : L.stream.Stores P) (stored : Option WriterDirective)
    (d : WriterDirective) (now : Nat) : (L.direct env stored d now).stream.Stores P := by
  rw [direct]
  split
  · exact h
  split
  · exact h
  cases d.state with
  | live =>
    dsimp only
    split
    · exact h
    · exact (h.saveHead _).setRecovery none
  | retired =>
    dsimp only
    rw [processRetired]
    dsimp only
    split
    · exact ((h.quarantineFrom _ _ _ _).saveHead _).setRecovery none
    · split
      · exact h.fork.setRecovery _
      · exact h.setRecovery _

theorem stores_adopt (h : L.stream.Stores P) (seq : Nat) (chain : Chain) :
    (L.adopt seq chain).stream.Stores P := by
  rw [adopt]
  split
  · exact h.saveHead _
  · exact h

theorem stores_jumpToFloor (h : L.stream.Stores P) (seq : Nat) (chain : Chain) (now : Nat) :
    (L.jumpToFloor seq chain now).stream.Stores P := by
  have hjump : ∀ {L' : Local} (head : WriterRow), L'.stream.Stores P →
      (L'.map fun S => ((S.saveHead head).raiseFloor seq chain).dropPending seq).stream.Stores P :=
    fun head h' => ((h'.saveHead head).raiseFloor seq chain).dropPending seq
  rw [jumpToFloor]
  dsimp only
  apply hjump
  split
  · exact h.setRecovery none
  · exact h

theorem stores_adoptFloor (h : L.stream.Stores P) (seq : Nat) (chain : Chain) (now : Nat) :
    (L.adoptFloor env seq chain now).stream.Stores P := by
  have hjump := stores_jumpToFloor h seq chain now
  rw [adoptFloor]
  split
  · exact h
  split
  · exact h
  split
  · exact h
  dsimp only
  split
  · exact stores_drain hjump none _
  · exact hjump

end Local

theorem Stream.Stores.certified (h : S.Stores P) (cert : FinalityCert) (now : Nat) :
    (S.certified env cert now).Stores P := by
  rw [Stream.certified]
  dsimp only
  split
  · exact ((h.quarantineFrom _ _ _ _).saveHead _).forkOpen
  split
  · exact h.forkOpen
  · exact h

/-- What the item brings in of itself: the entry of an append or of an external item. -/
def QueueItem.Brings (P : LogEntry → Prop) (item : QueueItem env) : Prop :=
  match item with
  | .append item => ∀ hlc causal S,
      (validateEntry env (Local.appendEntry env item hlc causal S)).isOk →
        P (Local.appendEntry env item hlc causal S)
  | .external item => P item.entry
  | _ => True

def View.Stores (P : LogEntry → Prop) (v : View) : Prop := ∀ k, (v.streams k).Stores P

namespace View.Stores

theorem withLocal (h : v.Stores P) (k : StreamId) (hL : L.stream.Stores P) :
    (v.withLocal k L).Stores P := by
  intro k'
  by_cases heq : k' = k
  · subst heq
    rw [View.withLocal_streams_self]
    exact hL
  · rw [View.withLocal_streams_of_ne _ heq]
    exact h k'

theorem adopt (h : v.Stores P) (T : Topic) (cut : List CutEntry) : (v.adopt T cut).Stores P := by
  rw [View.adopt]
  induction cut generalizing v with
  | nil => exact h
  | cons c rest ih =>
    rw [List.foldl_cons]
    exact ih (h.withLocal _ (Local.stores_adopt (L := v.localAt _) (h _) c.seq c.chain))

theorem thinned (h : v.Stores P) (hthin : v.Thinned v') : v'.Stores P :=
  fun k => (h k).thinned (hthin.streams k)

end View.Stores

theorem ItemStep.stores {item : QueueItem env} (h : ItemStep env exact item v v')
    (hv : v.Stores P) (hbrings : item.Brings P) : v'.Stores P := by
  have hpruned : v.Pruned v' → v'.Stores P := by
    rintro ⟨v₁, r, hthin, -, rfl⟩
    exact (hv.thinned hthin :)
  cases item with
  | append item =>
    obtain ⟨L, happ, rfl⟩ := h
    apply hv.withLocal
    cases happ with
    | appended hopen hstamp hvalid => exact (hv _).advance (hbrings _ _ _ hvalid)
    | sealed => exact hv _
    | overflow => exact hv _
    | invalid => exact hv _
  | external item =>
    obtain rfl := h
    exact hv.withLocal _ (Local.stores_ingest (hv _) hbrings _ _ _)
  | sealStream T w =>
    obtain rfl := h
    apply hv.withLocal
    rw [Local.processSeal]
    split
    · exact (hv _).fork
    · exact hv _
  | cert cert =>
    obtain ⟨writers, n, hlists, rfl⟩ := h
    intro k
    change Stream.Stores P ((View.certify env cert writers v).streams k)
    rw [View.certify_streams hlists.nodup]
    split
    · exact (hv k).certified cert _
    · exact hv k
  | directive d =>
    obtain rfl := h
    have hstored : (View.storeDirective d v).Stores P := by
      intro k
      rw [View.storeDirective_streams]
      exact hv k
    exact hstored.withLocal _ (Local.stores_direct (hstored _) _ d _)
  | adopt T cut =>
    obtain rfl := h
    exact hv.adopt T cut.rows
  | retireTopic T known =>
    rcases h with ⟨e, rfl⟩ | ⟨-, n, rfl⟩
    · exact hv
    · intro k
      change Stream.Stores P ((View.retireTopic env T v).streams k)
      rw [View.retireTopic]
      dsimp only
      split
      · exact (hv k).congr rfl rfl rfl rfl
      · exact hv k
  | adoptFloor T w s chain known =>
    obtain rfl := h
    apply hv.withLocal
    split
    · exact Local.stores_adoptFloor (hv _) s chain _
    · exact hv _
  | pruneTopic => exact hpruned h
  | pruneSuperseded => exact hpruned h
  | pruneAcked => exact hpruned h

theorem CoreStep.stores (h : CoreStep env False (fun q _ => q.2.Brings P) i v v')
    (hv : v.Stores P) : v'.Stores P := by
  refine (h.preserves False.elim hv ?_ ?_ ?_ ?_).2
  · intro v v' hsame hv k
    rw [hsame.1]
    exact hv k
  · intro batch fault _ q _ v v' _ hv hbrings hstep
    exact hstep.stores (v := { v with now := q.1.now }) hv hbrings
  · exact fun v v' hthin hv => hv.thinned hthin
  · intro v v' _ _ hk hv k
    have hv := hv k
    rcases hk k with hk | hk | hk
    · rw [hk, Stream.noteUnavailable]
      exact hv.setRecovery _
    · rw [hk]
      exact hv
    · rw [hk]
      exact hv.setRecovery none

/-- What every item brings has the property, so everything that is stored has it. -/
theorem stores_of_run {is : List (Input env)}
    (hbrings : RunEvery env (fun q _ => q.2.Brings P) Core.init is) :
    ((runCore env Core.init is).view env).Stores P := by
  apply runCore_induct (Q := fun q _ => q.2.Brings P) Core.coherent_init hbrings
    (R := fun _ _ => True) (fun _ _ _ => trivial)
  · intro k
    refine ⟨?_, ?_, ?_, ?_⟩
    · rintro s e ⟨⟩
    · rintro e ⟨⟩
    · rintro s q ⟨⟩
    · rintro s e ⟨⟩
  · exact fun i v v' hv _ hstep => hstep.stores hv

/-- At every point of every run, each entry in the hot log, in the pending buffer, in the quarantine
and in the archive is one that the validator admits. -/
theorem stored_entries_valid (is : List (Input env)) :
    let db := (runCore env Core.init is).db
    (∀ r ∈ db.sqLog.rows, validateEntry env r.entry = .ok r.entry) ∧
    (∀ e ∈ db.sqPending.rows, validateEntry env e = .ok e) ∧
    (∀ q ∈ db.sqQuarantine.rows, validateEntry env q.entry = .ok q.entry) ∧
    ∀ r ∈ db.sqArchive.rows, validateEntry env r.entry = .ok r.entry := by
  have hbrings : RunEvery env (fun q _ => q.2.Brings fun e => validateEntry env e = .ok e) Core.init
      is := by
    apply RunEvery.of_forall
    intro batch fault _ q _ _
    obtain ⟨ambient, item⟩ := q
    cases item with
    | append item => exact fun hlc causal S hvalid => validateEntry_self hvalid
    | external item => exact item.valid
    | _ => trivial
  have h := stores_of_run hbrings
  refine ⟨?_, ?_, ?_, ?_⟩
  · intro r hr
    exact (h r.entry.stream).rows _ _ (Core.row_of_mem env hr)
  · intro e he
    apply (h e.stream).pending
    exact List.mem_filter.2 ⟨he, ofStream_iff.2 ⟨rfl, rfl⟩⟩
  · intro q hq
    exact (h q.entry.stream).quarantine q.entry.seq q (Table.get_of_mem hq)
  · intro r hr
    exact (h r.entry.stream).archive r.entry.seq _
      (congrArg (Option.map ArchiveRow.entry) (Table.get_of_mem hr))

end Seqscribe
