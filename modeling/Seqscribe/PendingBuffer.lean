import Seqscribe.Absorption
import Seqscribe.QuarantineLedger

namespace Seqscribe
set_option autoImplicit true

/-! What waits in the pending buffer waits for an entry that is not there yet. -/

variable {env : Env} {S S' : Stream} {L L' : Local} {v v' : View} {k : StreamId} {e : LogEntry}

namespace Stream

/-- Every pending entry comes after a position. -/
def PendsAfter (m : Nat) (S : Stream) : Prop := ∀ s e, S.pendingAt s = some e → m < s

/-- What is pending is never a first entry, and waits for a missing one while the stream is open. -/
structure Buffered (S : Stream) : Prop where
  started : S.PendsAfter 1
  waits : S.head.sealReason = none → S.PendsAfter (S.head.contigSeq + 1)

theorem PendsAfter.mono (h : S.PendsAfter m)
    (hfewer : ∀ s e, S'.pendingAt s = some e → S.pendingAt s = some e) : S'.PendsAfter m :=
  fun s e hs => h s e (hfewer s e hs)

theorem PendsAfter.le (h : S.PendsAfter m) (hle : m' ≤ m) : S.PendsAfter m' :=
  fun s e hs => Nat.lt_of_le_of_lt hle (h s e hs)

/-- Nothing waits right after the position. -/
theorem PendsAfter.succ (h : S.PendsAfter m) (hnone : S.pendingAt (m + 1) = none) :
    S.PendsAfter (m + 1) := by
  intro s e hs
  have hlt := h s e hs
  have hne : s ≠ m + 1 := by
    rintro rfl
    cases hnone.symm.trans hs
  omega

theorem PendsAfter.unpend (h : S.PendsAfter m) : (S.unpend q).PendsAfter m := by
  apply h.mono
  intro s e hs
  rw [pendingAt_unpend] at hs
  split at hs
  next => cases hs
  next => exact hs

theorem PendsAfter.dropPending (h : S.PendsAfter m) : (S.dropPending q).PendsAfter m := by
  apply h.mono
  intro s e hs
  rw [pendingAt, Stream.dropPending, Table.get_filter] at hs
  exact (Option.filter_eq_some_iff.1 hs).1

theorem pendsAfter_dropPending (S : Stream) (m : Nat) : (S.dropPending m).PendsAfter m := by
  intro s e hs
  rw [pendingAt, Stream.dropPending, Table.get_filter] at hs
  obtain ⟨hget, hlt⟩ := Option.filter_eq_some_iff.1 hs
  have hseq : e.seq = s := congrArg (fun id : EntryId => id.2.2) (Table.key_of_get hget)
  rw [hseq, Bool.not_eq_true', decide_eq_false_iff_not] at hlt
  exact Nat.lt_of_not_le hlt

theorem Buffered.congr (h : S.Buffered) (hhead : S'.head = S.head) (hpending : S'.pending = S.pending) :
    S'.Buffered := by
  have hsame (s : Nat) : S'.pendingAt s = S.pendingAt s := by
    rw [pendingAt, hhead, hpending]
    rfl
  refine ⟨h.started.mono fun s e hs => (hsame s).symm.trans hs, fun hopen => ?_⟩
  rw [hhead] at hopen ⊢
  exact (h.waits hopen).mono fun s e hs => (hsame s).symm.trans hs

theorem Thinned.buffered (hthin : S.Thinned S') (h : S.Buffered) : S'.Buffered :=
  h.congr hthin.head hthin.pending

theorem Buffered.of_sealed (h : S.Buffered) (hseal : S'.head.sealReason ≠ none)
    (hfewer : ∀ s e, S'.pendingAt s = some e → S.pendingAt s = some e) : S'.Buffered :=
  ⟨h.started.mono hfewer, fun hopen => absurd hopen hseal⟩

/-- The next entry, where the one after it is not pending. -/
theorem Buffered.advance (h : S.Buffered) (hopen : S.head.sealReason = none)
    (hseq : e.seq = S.head.contigSeq + 1) (hnone : S.pendingAt (S.head.contigSeq + 2) = none) :
    (S.advance env e).Buffered := by
  have hpending := S.pendingAt_advance env e
  refine ⟨h.started.mono fun s e hs => (hpending s).symm.trans hs, fun _ => ?_⟩
  change Stream.PendsAfter (e.seq + 1) _
  rw [hseq]
  exact ((h.waits hopen).succ hnone).mono fun s e hs => (hpending s).symm.trans hs

theorem Buffered.fork (h : S.Buffered) : S.fork.Buffered :=
  h.of_sealed (Option.some_ne_none _) fun _ _ hs => hs

end Stream

namespace Local

theorem buffered_drain (h : L.stream.PendsAfter L.stream.head.contigSeq)
    (hstart : L.stream.PendsAfter 1) (hfuel : L.stream.pending.rows.length < fuel) :
    (L.drain env via fuel).stream.Buffered := by
  induction fuel generalizing L with
  | zero => cases hfuel
  | succ fuel ih =>
    rw [Local.drain]
    cases hnext : L.stream.pendingAt (L.stream.head.contigSeq + 1) with
    | none => exact ⟨hstart, fun _ => h.succ hnext⟩
    | some next =>
      have hseq : next.seq = L.stream.head.contigSeq + 1 :=
        congrArg (fun id : EntryId => id.2.2) (Table.key_of_get hnext)
      dsimp only
      rw [hseq, verifyAndApply]
      split
      next hacc =>
        rw [if_neg (by simp)]
        have hpending (s : Nat) : ((L.map (Stream.unpend (L.stream.head.contigSeq + 1))).advance env
            next via).stream.pendingAt s =
              (L.stream.unpend (L.stream.head.contigSeq + 1)).pendingAt s :=
          Stream.pendingAt_advance env _ next s
        have hlt : (L.stream.unpend (L.stream.head.contigSeq + 1)).pending.rows.length <
            L.stream.pending.rows.length := Table.length_delete_lt hnext
        apply ih
        · change Stream.PendsAfter next.seq _
          rw [hseq]
          apply Stream.PendsAfter.succ
          · exact h.unpend.mono fun s e hs => (hpending s).symm.trans hs
          · rw [hpending, Stream.pendingAt_unpend, if_pos rfl]
        · exact hstart.unpend.mono fun s e hs => (hpending s).symm.trans hs
        · change (Stream.put env _ _).pending.rows.length < fuel
          rw [Stream.pending_put]
          exact Nat.lt_of_lt_of_le hlt (Nat.le_of_lt_succ hfuel)
      next =>
        rw [if_pos rfl]
        exact ⟨hstart.unpend, fun hopen => by cases hopen⟩

theorem buffered_drainAll (h : L.stream.PendsAfter L.stream.head.contigSeq)
    (hstart : L.stream.PendsAfter 1) : (L.drainAll env via).stream.Buffered :=
  buffered_drain h hstart (Nat.lt_succ_self _)

theorem buffered_extend (h : L.stream.Buffered) (hopen : L.stream.head.sealReason = none)
    (hseq : e.seq = L.stream.head.contigSeq + 1) :
    (L.extend env e via now).stream.Buffered := by
  rw [extend, verifyAndApply]
  split
  next =>
    dsimp only
    rw [if_pos rfl]
    have hstream : ((L.advance env e via).mergeClock env e now).stream =
        (L.advance env e via).stream := stream_mergeClock ..
    have hpending (s : Nat) : ((L.advance env e via).mergeClock env e now).stream.pendingAt s =
        L.stream.pendingAt s := by
      rw [hstream]
      exact Stream.pendingAt_advance env _ e s
    apply buffered_drainAll
    · rw [hstream]
      change Stream.PendsAfter e.seq _
      rw [hseq]
      exact (h.waits hopen).mono fun s e hs => (Stream.pendingAt_advance env _ _ s).symm.trans hs
    · exact h.started.mono fun s e hs => (hpending s).symm.trans hs
  next => exact h.fork

theorem buffered_postpone (h : L.stream.Buffered) (hlt : L.stream.head.contigSeq + 1 < e.seq) :
    (L.postpone env e now).stream.Buffered := by
  rw [postpone]
  split
  next =>
    split
    next => exact h
    next => exact h.fork
  next =>
    split
    next => exact h
    next =>
      change ((L.map (Stream.pend e)).mergeClock env e now).stream.Buffered
      rw [stream_mergeClock]
      have hpends {m : Nat} (hm : L.stream.PendsAfter m) (hme : m < e.seq) :
          (L.stream.pend e).PendsAfter m := by
        intro s e' hs
        rw [Stream.pendingAt_pend] at hs
        split at hs
        next hid =>
          have hseq : e.seq = s := congrArg (fun id : EntryId => id.2.2) hid
          rwa [← hseq]
        next => exact hm s e' hs
      exact ⟨hpends h.started (by omega), fun hopen => hpends (h.waits hopen) hlt⟩

/-- A recovery keeps the seal, and what is pending. -/
structure Recovered (L L' : Local) : Prop where
  stays : L.stream.head.sealReason ≠ none → L'.stream.head.sealReason ≠ none
  pending : ∀ s, L'.stream.pendingAt s = L.stream.pendingAt s

theorem recovered_recoveryExtend :
    Recovered L (L.recoveryExtend env e target via now) := by
  rw [recoveryExtend]
  split
  next => exact ⟨id, fun _ => rfl⟩
  next =>
    split
    next => exact ⟨id, fun _ => rfl⟩
    next =>
      dsimp only
      split
      next => exact ⟨fun _ => Option.some_ne_none _, Stream.pendingAt_advance env _ e⟩
      next => exact ⟨id, Stream.pendingAt_advance env _ e⟩

theorem recovered_recoveryIngest :
    Recovered L (L.recoveryIngest env e target via now) := by
  rw [recoveryIngest]
  split
  next =>
    split
    next => exact ⟨id, fun _ => rfl⟩
    next =>
      have hextend : Recovered (L.recoveryRewind env e now)
          ((L.recoveryRewind env e now).recoveryExtend env e target via now) :=
        recovered_recoveryExtend
      exact ⟨hextend.stays, hextend.pending⟩
  next => exact recovered_recoveryExtend

theorem buffered_ingest (h : L.stream.Buffered) : (L.ingest env cert e via now).stream.Buffered := by
  rw [ingest]
  split
  next hseal =>
    cases L.stream.recovery with
    | none => exact h
    | some target =>
      dsimp only
      split
      next =>
        have hrecovered : Recovered L (L.recoveryIngest env e target via now) :=
          recovered_recoveryIngest
        apply h.of_sealed (hrecovered.stays hseal)
        exact fun s e hs => (hrecovered.pending s).symm.trans hs
      next => exact h
  next hopen =>
    replace hopen := not_not.1 hopen
    split
    next => exact h
    next =>
      split
      next =>
        rw [recheck]
        split
        next =>
          split
          next => exact h
          next => exact h.fork
        next => exact h
      next hgt =>
        split
        next hseq => exact buffered_extend h hopen hseq
        next hne => exact buffered_postpone h (by omega)

/-- A live directive for a retired stream finds nothing that the head has come up to. -/
theorem buffered_direct {stored : Option WriterDirective} (h : L.stream.Buffered)
    (hwaits : d.state = .live → L.stream.head.sealReason = some .retired →
      L.stream.head.rgen < d.rgen → (∀ s, stored = some s → s = d.stringify) →
      L.stream.PendsAfter (L.stream.head.contigSeq + 1)) :
    (L.direct env stored d now).stream.Buffered := by
  rw [direct]
  split
  next => exact h
  next hfree =>
  split
  next => exact h
  next hfresh =>
  cases hstate : d.state with
  | live =>
    dsimp only
    split
    next => exact h
    next hfork =>
      refine ⟨h.started, fun _ => ?_⟩
      change L.stream.PendsAfter (L.stream.head.contigSeq + 1)
      cases hseal : L.stream.head.sealReason with
      | none => exact h.waits hseal
      | some reason =>
        cases reason with
        | fork => exact absurd hseal hfork
        | retired =>
          apply hwaits hstate hseal
          · by_contra hle
            exact hfresh ⟨Nat.le_of_not_lt hle, hfork⟩
          · rintro s rfl
            by_contra hne
            exact hfree (decide_eq_true hne)
  | retired =>
    dsimp only
    by_cases hends : L.stream.Ends env (directiveTarget env d)
    · have heq : L.processRetired env d now = _ := if_pos hends
      rw [heq]
      exact h.of_sealed (Option.some_ne_none _) fun _ _ hs => hs
    · rw [processRetired_diverges hends]
      split
      next => exact h.of_sealed (Option.some_ne_none _) fun _ _ hs => hs
      next hseal => exact h.of_sealed hseal fun _ _ hs => hs

theorem buffered_adoptFloor (h : L.stream.Buffered) :
    (L.adoptFloor env seq chain now).stream.Buffered := by
  rw [adoptFloor_eq]
  split
  next => exact h
  next =>
  split
  next => exact h
  next =>
  split
  next => exact h
  next =>
  change (L.atFloor env seq chain now).stream.Buffered
  obtain ⟨head, recovery, floor, ⟨hseq, -, hid, -⟩, hjump⟩ := L.stream_jumpToFloor seq chain now
  have hpending (s : Nat) : (L.jumpToFloor seq chain now).stream.pendingAt s =
      (L.stream.dropPending seq).pendingAt s := by
    have htopic : head.topic = L.stream.head.topic := congrArg Prod.fst hid
    have hwriter : head.writer = L.stream.head.writer := congrArg Prod.snd hid
    rw [hjump, Stream.pendingAt, htopic, hwriter]
    rfl
  have hstart : (L.jumpToFloor seq chain now).stream.PendsAfter 1 :=
    h.started.dropPending.mono fun s e hs => (hpending s).symm.trans hs
  rw [atFloor]
  split
  next =>
    apply buffered_drainAll _ hstart
    have hhead : (L.jumpToFloor seq chain now).stream.head.contigSeq = seq := by
      rw [hjump]
      exact hseq
    rw [hhead]
    exact (L.stream.pendsAfter_dropPending seq).mono fun s e hs => (hpending s).symm.trans hs
  next hseal => exact ⟨hstart, fun hopen => absurd hopen hseal⟩

end Local

/-- A certificate seals the streams that it rewinds. -/
theorem Stream.certified_buffered (h : S.Buffered) (now : Nat) :
    (S.certified env cert now).Buffered := by
  have hforked {S : Stream} (hstart : S.PendsAfter 1)
      (hopen : S.head.sealReason ≠ none → S.Buffered) : S.forkOpen.Buffered := by
    rw [forkOpen]
    split
    next => exact ⟨hstart, fun hopen => by cases hopen⟩
    next hseal => exact hopen hseal
  rw [certified]
  dsimp only
  split
  next => exact hforked h.started fun hseal => h.of_sealed hseal fun _ _ hs => hs
  next =>
    split
    next => exact hforked h.started fun _ => h
    next => exact h

/-- The cut is not beyond an open stream for which something at the cut, below it or right after it
waits. -/
theorem View.adopt_buffered {cut : List CutEntry} (h : (v.streams k).Buffered)
    (hnodup : (cut.map CutEntry.writer).Nodup)
    (hwaits : ∀ c ∈ cut, (T, c.writer) = k → (v.streams k).head.sealReason = none →
      (v.streams k).head.contigSeq < c.seq → (v.streams k).PendsAfter (c.seq + 1)) :
    ((v.adopt T cut).streams k).Buffered := by
  rw [View.adopt]
  induction cut generalizing v with
  | nil => exact h
  | cons c rest ih =>
    rw [List.foldl_cons]
    rw [List.map_cons, List.nodup_cons] at hnodup
    by_cases hk : k = (T, c.writer)
    · subst hk
      apply ih _ hnodup.2
      · intro c' hc' hk
        exact absurd (List.mem_map.2 ⟨c', hc', congrArg Prod.snd hk⟩) hnodup.1
      · rw [View.onStream, View.withLocal_streams_self, Local.adopt]
        split
        next hlt =>
          exact ⟨h.started, fun hopen => hwaits c List.mem_cons_self rfl hopen hlt⟩
        next => exact h
    · have hsame : (v.onStream (T, c.writer) (Local.adopt c.seq c.chain)).streams k = v.streams k :=
        View.withLocal_streams_of_ne _ hk
      apply ih
      · rw [hsame]
        exact h
      · exact hnodup.2
      · rw [hsame]
        exact fun c' hc' => hwaits c' (List.mem_cons_of_mem _ hc')

/-- The item brings no open stream up to an entry that waits: an append that is accepted does not
find the entry after it pending, an adopted cut is not beyond what is pending or right before it,
and neither is the head of a retired stream that a directive revives. -/
def Queued.SparesPending (q : Queued env) (v : View) : Prop :=
  match q.2 with
  | .append item => ∀ state hlc causal,
      let S := v.streams (item.topic, env.writerId)
      S.head.sealReason = none → stamp v.hlcState q.1.now = .ok (state, hlc) →
        (validateEntry env (Local.appendEntry env item hlc causal S)).isOk →
          S.pendingAt (S.head.contigSeq + 2) = none
  | .adopt T cut => ∀ c ∈ cut.rows,
      let S := v.streams (T, c.writer)
      S.head.sealReason = none → S.head.contigSeq < c.seq → S.PendsAfter (c.seq + 1)
  | .directive d =>
      let S := v.streams (d.topic, d.writer)
      d.state = .live → S.head.sealReason = some .retired → S.head.rgen < d.rgen →
        (∀ s, v.directives d.id = some s → s = d.stringify) → S.PendsAfter (S.head.contigSeq + 1)
  | _ => True

structure View.Buffered (v : View) : Prop where
  id : ∀ k, (v.streams k).head.stream = k
  buffered : ∀ k, (v.streams k).Buffered

theorem ItemStep.buffered {q : Queued env} (h : ItemStep env exact q.2 { v with now := q.1.now } v')
    (hv : v.Buffered) (hspares : q.SparesPending v) : v'.Buffered := by
  refine ⟨fun k => (h.conserves hv.id k).id.trans (hv.id k), fun k => ?_⟩
  have hk := hv.buffered k
  have hlocal {w : View} (hw : w.streams = v.streams) {k₀ : StreamId} {L : Local}
      (hL : (v.streams k₀).Buffered → L.stream.Buffered) :
      ((w.withLocal k₀ L).streams k).Buffered := by
    by_cases heq : k = k₀
    · subst heq
      rw [View.withLocal_streams_self]
      exact hL hk
    · rw [View.withLocal_streams_of_ne _ heq, hw]
      exact hk
  have hpruned {w : View} (h : View.Pruned { v with now := q.1.now } w) : (w.streams k).Buffered := by
    obtain ⟨v₁, r, hthin, -, rfl⟩ := h
    have hframe : (v₁.streams k).Buffered := (hthin.streams k).buffered hk
    exact hframe
  obtain ⟨ambient, item⟩ := q
  cases item with
  | append item =>
    obtain ⟨L, happ, rfl⟩ := h
    apply hlocal rfl
    intro hL
    cases happ with
    | appended hopen hstamp hvalid =>
      exact hL.advance hopen rfl (hspares _ _ _ hopen hstamp hvalid)
    | _ => exact hL
  | external item =>
    obtain rfl := h
    apply hlocal rfl
    exact Local.buffered_ingest (L := View.localAt _ item.entry.stream)
  | sealStream T w =>
    obtain rfl := h
    apply hlocal rfl
    intro hL
    rw [Local.processSeal]
    split
    next => exact hL.fork
    next => exact hL
  | cert cert =>
    obtain ⟨writers, n, hlists, rfl⟩ := h
    change (View.streams (View.certify env cert writers _) k).Buffered
    rw [View.certify_streams hlists.nodup]
    split
    next => exact Stream.certified_buffered hk _
    next => exact hk
  | directive d =>
    obtain rfl := h
    rw [View.onStream, View.storeDirective_localAt]
    have hstored : (View.storeDirective d { v with now := ambient.now }).streams = v.streams :=
      View.storeDirective_streams _
    apply hlocal hstored
    exact fun hL => Local.buffered_direct (L := v.localAt (d.topic, d.writer)) hL hspares
  | adopt T cut =>
    obtain rfl := h
    apply View.adopt_buffered (v := { v with now := ambient.now }) hk cut.nodup
    rintro c hc rfl
    exact hspares c hc
  | retireTopic T known =>
    rcases h with ⟨e, rfl⟩ | ⟨-, n, rfl⟩
    · exact hk
    · change (View.streams (View.retireTopic env T _) k).Buffered
      rw [View.retireTopic]
      dsimp only
      split
      next =>
        have hpending : ∀ s, Stream.pendingAt { v.streams k with
            head := freshHead env k.1 k.2, listed := false } s = (v.streams k).pendingAt s := by
          intro s
          have htopic : (v.streams k).head.topic = k.1 := congrArg Prod.fst (hv.id k)
          have hwriter : (v.streams k).head.writer = k.2 := congrArg Prod.snd (hv.id k)
          rw [Stream.pendingAt, Stream.pendingAt, htopic, hwriter]
          rfl
        have hstart := hk.started.mono fun s e hs => (hpending s).symm.trans hs
        exact ⟨hstart, fun _ => hstart⟩
      next => exact hk
  | adoptFloor T w s chain known =>
    obtain rfl := h
    apply hlocal rfl
    intro hL
    split
    next => exact Local.buffered_adoptFloor (L := v.localAt (T, w)) hL
    next => exact hL
  | pruneTopic => exact hpruned h
  | pruneSuperseded => exact hpruned h
  | pruneAcked => exact hpruned h

theorem CoreStep.buffered (h : CoreStep env False Queued.SparesPending i v v') (hv : v.Buffered) :
    v'.Buffered := by
  have hframe {v v' : View} (hv : v.Buffered)
      (hhead : ∀ k, (v'.streams k).head = (v.streams k).head)
      (hpending : ∀ k, (v'.streams k).pending = (v.streams k).pending) : v'.Buffered :=
    ⟨fun k => (congrArg WriterRow.stream (hhead k)).trans (hv.id k),
      fun k => (hv.buffered k).congr (hhead k) (hpending k)⟩
  refine (h.preserves False.elim hv ?_ ?_ ?_ ?_).2
  · intro v v' hsame hv
    exact hframe hv (fun _ => by rw [hsame.1]) fun _ => by rw [hsame.1]
  · exact fun _ _ _ q _ v v' _ hv hspares hstep => hstep.buffered hv hspares
  · intro v v' hthin hv
    exact hframe hv (fun k => (hthin.streams k).head) fun k => (hthin.streams k).pending
  · intro v v' _ _ hk hv
    exact hframe hv (fun k => by rcases hk k with hk | hk | hk <;> rw [hk] <;> rfl)
      fun k => by rcases hk k with hk | hk | hk <;> rw [hk] <;> rfl

/-- In every run whose items spare what is pending, each pending row of an open stream waits for an
entry that the stream does not have. -/
theorem pending_rows_wait (is : List (Input env))
    (hspares : RunEvery env (fun q t => q.SparesPending (t.view env)) Core.init is) (k : StreamId)
    (hopen : ((runCore env Core.init is).head env k).sealReason = none)
    (hrow : (runCore env Core.init is).db.sqPending.get (k.1, k.2, s) = some e) :
    ((runCore env Core.init is).head env k).contigSeq + 1 < s := by
  have hrun := runCore_induct (I := View.Buffered) Core.coherent_init hspares
    (fun _ _ _ => trivial) ⟨Core.init.head_stream env, fun k => ⟨nofun, fun _ => nofun⟩⟩
    fun i v v' hv (_ : True) hstep => hstep.buffered hv
  apply (hrun.buffered k).waits hopen s e
  have hready : Ready env (Txn.start (runCore env Core.init is) none) := ⟨runCore_coherent is⟩
  exact ((hready.at k).pendingAt s).symm.trans hrow

def thirdItem : ExternalItem (hostEnv "b") where
  entry := hostEntry "w" 3 3 "k" "6b0a17638ba14784d5c827283d4c210bf9c218585390c079898b7e17ab1dae88"
  via := none
  valid := validateEntry_self valid_third
  known := rfl

def gapRun : List (Input (hostEnv "b")) := firstFlush ++ [hostFlush "b" 21 [.external thirdItem]]

/-- The third entry waits for the second. -/
theorem pending_rows_wait_of_third :
    ((runCore (hostEnv "b") Core.init gapRun).db.sqPending.get ("t", "w", 3)).isSome ∧
      ((runCore (hostEnv "b") Core.init gapRun).head (hostEnv "b") ("t", "w")).contigSeq + 1 < 3 := by
  have hsome : ((runCore (hostEnv "b") Core.init gapRun).db.sqPending.get ("t", "w", 3)).isSome := by
    decide +kernel
  have hopen : ((runCore (hostEnv "b") Core.init gapRun).head (hostEnv "b")
      ("t", "w")).sealReason = none := by decide +kernel
  have hspares : RunEvery (hostEnv "b") (fun q t => q.SparesPending (t.view (hostEnv "b"))) Core.init
      gapRun := (RunEvery.flush_one trivial).append (RunEvery.flush_one trivial)
  obtain ⟨e, he⟩ := Option.isSome_iff_exists.1 hsome
  exact ⟨hsome, pending_rows_wait gapRun hspares ("t", "w") hopen he⟩

/-- The cut brings the head up to the second entry, which stays pending; delivered again it is
applied, and its row stays for good. -/
theorem adopted_cut_strands_pending :
    let adopted := runCore (hostEnv "b") Core.init
      [hostFlush "b" 20 [.external secondItem], hostFlush "b" 21 [.adopt "t" firstCut.cut]]
    let core := runCore (hostEnv "b") adopted [hostFlush "b" 22 [.external secondItem]]
    (adopted.head (hostEnv "b") ("t", "w")).sealReason = none ∧
      (adopted.head (hostEnv "b") ("t", "w")).contigSeq = 1 ∧
      (adopted.db.sqPending.rows.map LogEntry.seq) = [2] ∧
      (core.head (hostEnv "b") ("t", "w")).contigSeq = 2 ∧
      (core.db.sqPending.rows.map LogEntry.seq) = [2] := by
  decide +kernel

end Seqscribe
