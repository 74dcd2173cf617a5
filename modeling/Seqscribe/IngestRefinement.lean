import Seqscribe.Primitives

namespace Seqscribe
set_option autoImplicit true

variable {env : Env} {E : SeqscribeError → Prop} {t : Txn} {v : View} {L : Local} {k : StreamId}

/-- A change that touches neither the store, the caches nor the outputs. -/
theorem At.congr (h : At env k v L t) (hcore : t'.core.db = t.core.db)
    (hheads : t'.core.heads = t.core.heads) (hcerts : t'.core.certs = t.core.certs)
    (hfloors : t'.core.floors = t.core.floors)
    (hvectors : t'.core.vectorsCache = t.core.vectorsCache)
    (hrecoveries : t'.core.recoveries = t.core.recoveries)
    (hhlc : t'.core.hlcState = t.core.hlcState) (hsettle : t'.settle = t.settle)
    (happlied : t'.applied = t.applied) (hanomalies : t'.anomalies = t.anomalies)
    (hambient : t'.ambient = t.ambient) : At env k v L t' := by
  have hstream : t'.core.stream env = t.core.stream env := by
    funext k
    simp only [Core.stream, Core.head, hcore, hrecoveries]
  have hhead : t'.core.head env = t.core.head env := by
    funext k
    simp only [Core.head, hcore]
  obtain ⟨h₁, h₂, h₃, h₄, h₅⟩ := h.ready.coherent
  refine ⟨⟨⟨?_, ?_, ?_, ?_, ?_⟩⟩, ?_, ?_, hsettle.trans h.settle, ?_,
    hanomalies.trans h.anomalies, hhlc.trans h.hlcState, ?_, ?_, ?_⟩
  · simpa only [hheads, hhead] using h₁
  · simpa only [hcerts, hcore] using h₂
  · simpa only [hfloors, hcore] using h₃
  · simpa only [hvectors, hcore] using h₄
  · simpa only [hvectors, hcore] using h₅
  · simpa only [hstream] using h.stream
  · simpa only [hstream] using h.others
  · simpa only [happlied] using h.applied
  · simpa only [hcore] using h.certs
  · simpa only [hcore] using h.directives
  · simpa only [hambient] using h.now

theorem journalRing_spec (h : At env k v L t) (hQ : ∀ t', At env k v L t' → Q () t') :
    Returns E (journalRing T) t Q := by
  refine .modify ?_ (hQ _ ?_)
  · split <;> rfl
  · split
    · exact h
    · exact h.congr rfl rfl rfl rfl rfl rfl rfl rfl rfl rfl rfl

theorem setRing_spec (h : At env k v L t) (hQ : ∀ t', At env k v L t' → Q () t') :
    Returns E (setRing T ring) t Q :=
  .modify rfl (hQ _ (h.congr rfl rfl rfl rfl rfl rfl rfl rfl rfl rfl rfl))

theorem persist_spec (h : At env e.stream v L t) (hknown : (env.topics e.topic).isSome)
    (hfree : ¬ E Store.uniqueViolation → L.stream.rows e.seq = none)
    (hQ : ∀ rowid t', At env e.stream v (L.map (Stream.put env e)) t' → Q rowid t') :
    Returns E (persist env e) t Q := by
  obtain ⟨p, hp⟩ := Option.isSome_iff_exists.1 hknown
  refine .bind (topicPolicy_spec hp ?_)
  cases hr : p.retention with
  | full =>
    have hput : Stream.put env e =
        fun S => { S with rows := Function.update S.rows e.seq (some e) } := by
      funext S
      simp [Stream.put, Env.isFull, hp, hr]
    rw [hput] at hQ
    exact .bind (insertEntry_spec h hfree fun rowid t' h' => .pure (hQ _ _ h'))
  | ring size =>
    have hput : L.map (Stream.put env e) = L := by
      simp [Local.map, Stream.put, Env.isFull, hp, hr]
    rw [hput] at hQ
    exact .bind (.get (.bind (journalRing_spec h fun t' h' =>
      .bind (setRing_spec h' fun t' h' => .pure (hQ _ _ h')))))
  | none =>
    have hput : L.map (Stream.put env e) = L := by
      simp [Local.map, Stream.put, Env.isFull, hp, hr]
    rw [hput] at hQ
    exact .pure (hQ _ _ h)

theorem clock_at (h : At env k v L t) (hQ : Q v.now t) : Returns E clock t Q :=
  clock_spec env (by rw [show (t.view env).now = v.now from h.now]; exact hQ)

theorem sealHead_spec (h : At env e.stream v L t)
    (hQ : ∀ t', At env e.stream v (L.sealHead e) t' → Q (L.sealHead e).stream.head t') :
    Returns E (sealHead env L.stream.head e) t Q :=
  .bind (saveHead_spec h h.head_stream fun _ h' =>
    .bind (report_spec h' fun _ h' => .pure (hQ _ h')))

theorem mergeClock_spec (h : At env k v L t)
    (hQ : ∀ t', At env k v (L.mergeClock env e v.now) t' → Q () t') :
    Returns E (mergeClock env e) t Q := by
  refine .bind (clock_at h ?_)
  unfold Local.mergeClock at hQ
  by_cases he : isOverEpsilon e.hlc v.now env.constants.HLC_EPSILON_MS = true
  · rw [if_pos he] at hQ ⊢
    exact .bind (annotate_spec h fun t' h' => report_spec h' hQ)
  · rw [if_neg he] at hQ ⊢
    refine .bind (.get (setHlcState_spec h ?_))
    rw [h.hlcState]
    exact hQ

theorem Stream.head_put (S : Stream) (e : LogEntry) : (S.put env e).head = S.head := by
  unfold put
  split <;> rfl

theorem verifyAndApply_spec (h : At env e.stream v L t) (hknown : (env.topics e.topic).isSome)
    (hfree : ¬ E Store.uniqueViolation → L.stream.rows e.seq = none)
    (hQ : ∀ t', At env e.stream v (L.verifyAndApply env e via).1 t' →
      Q ((L.verifyAndApply env e via).1.stream.head, (L.verifyAndApply env e via).2) t') :
    Returns E (verifyAndApply env L.stream.head e via) t Q := by
  unfold Local.verifyAndApply at hQ
  unfold verifyAndApply
  have hreject : ¬ L.stream.Accepts env e → ∀ t, At env e.stream v L t →
      Returns E (do return (← sealHead env L.stream.head e, ApplyResult.forked)) t Q := by
    intro hacc t h
    rw [if_neg hacc] at hQ
    exact .bind (sealHead_spec h fun t' h' => .pure (hQ t' h'))
  have haccept : L.stream.Accepts env e → ∀ t, At env e.stream v L t → Returns E (do
      let rowid ← persist env e
      let head := { L.stream.head with contigSeq := e.seq, contigChain := e.chain }
      saveHead env head
      noteApplied e rowid via
      return (head, ApplyResult.applied)) t Q := by
    intro hacc t h
    rw [if_pos hacc] at hQ
    refine .bind (persist_spec h hknown hfree fun rowid t' h' => ?_)
    refine .bind (saveHead_spec h' h.head_stream fun t' h' => ?_)
    exact .bind (noteApplied_spec h' fun t' h' => .pure (hQ t' h'))
  by_cases hchain : chainOf env (L.stream.head.prevChain env) e = e.chain
  · rw [if_neg (not_not.2 hchain)]
    by_cases hpos : L.stream.head.contigSeq > 0
    · rw [if_pos hpos]
      refine .bind (getEntry_spec h fun t h => ?_)
      by_cases hmono : ((L.stream.rows L.stream.head.contigSeq).any
          fun p => decide (hlcCompare p.hlc e.hlc > 0)) = true
      · rw [if_pos hmono]
        refine hreject ?_ t h
        rintro ⟨_, hall⟩
        have hall := hall hpos
        cases hrow : L.stream.rows L.stream.head.contigSeq with
        | none => simp [hrow] at hmono
        | some p =>
          simp only [hrow, Option.any_some, decide_eq_true_eq, Option.all_some] at hmono hall
          omega
      · rw [if_neg hmono]
        refine haccept ⟨hchain, fun _ => ?_⟩ t h
        cases hrow : L.stream.rows L.stream.head.contigSeq with
        | none => rfl
        | some p =>
          simp only [hrow, Option.any_some, decide_eq_true_eq, Option.all_some] at hmono ⊢
          omega
    · rw [if_neg hpos]
      exact haccept ⟨hchain, fun hp => absurd hp hpos⟩ t h
  · rw [if_pos hchain]
    exact hreject (fun hacc => hchain hacc.1) t h

/-- No row is held beyond the head. -/
def Stream.Bounded (S : Stream) : Prop := ∀ s, S.head.contigSeq < s → S.rows s = none

theorem Stream.Bounded.put {S : Stream} (h : S.Bounded) (hs : e.seq < s) (hn : S.head.contigSeq < s) :
    (S.put env e).rows s = none := by
  rw [rows_put, if_neg fun hc => Nat.ne_of_gt hs hc.2]
  exact h s hn

theorem Stream.Bounded.advance {S : Stream} (h : S.Bounded) (he : S.head.contigSeq < e.seq) :
    (S.advance env e).Bounded := by
  intro s hs
  exact h.put hs (Nat.lt_trans he hs)

theorem Local.verifyAndApply_applied (happ : (L.verifyAndApply env e via).2 ≠ .forked) :
    L.stream.Accepts env e ∧ (L.verifyAndApply env e via).1 = L.advance env e via := by
  unfold verifyAndApply at *
  split at happ
  · next hacc =>
    rw [if_pos hacc]
    exact ⟨hacc, rfl⟩
  · exact absurd rfl happ

theorem drainPending_spec (h : At env (T, w) v L t) (hknown : (env.topics T).isSome)
    (hB : ¬ E Store.uniqueViolation → L.stream.Bounded) (hQ : ∀ t', At env (T, w) v (L.drain env via fuel) t' → Q () t') :
    Returns E (drainPending env via fuel L.stream.head) t Q := by
  induction fuel generalizing L t with
  | zero => exact .pure (hQ t h)
  | succ fuel ih =>
    have hk := h.head_stream
    have hT : L.stream.head.topic = T := congrArg Prod.fst hk
    have hw : L.stream.head.writer = w := congrArg Prod.snd hk
    unfold drainPending
    unfold Local.drain at hQ
    rw [hT, hw]
    refine .bind (pendingGet_spec h fun t h => ?_)
    cases hnext : L.stream.pendingAt (L.stream.head.contigSeq + 1) with
    | none =>
      rw [hnext] at hQ
      exact .pure (hQ t h)
    | some next =>
      rw [hnext] at hQ
      have hid : next.id = (T, w, L.stream.head.contigSeq + 1) := by
        have := Table.key_of_get hnext
        rwa [hT, hw] at this
      have hstream : next.stream = (T, w) := Prod.ext (congrArg (fun id : EntryId => id.1) hid)
        (congrArg (fun id : EntryId => id.2.1) hid)
      have hseq : next.seq = L.stream.head.contigSeq + 1 :=
        congrArg (fun id : EntryId => id.2.2) hid
      have htopic : next.topic = T := congrArg Prod.fst hstream
      refine .bind (pendingDelete_spec h fun t' h' => ?_)
      rw [← hstream] at h'
      refine .bind (verifyAndApply_spec (L := L.map (Stream.unpend next.seq)) h' (by rwa [htopic])
        (fun hE => hB hE _ (by omega)) fun t' h' => ?_)
      rw [hstream] at h'
      by_cases hforked :
          ((L.map (Stream.unpend next.seq)).verifyAndApply env next via).2 = .forked
      · simp only [hforked, if_true] at hQ ⊢
        exact .pure (hQ t' h')
      · simp only [hforked, if_false] at hQ ⊢
        obtain ⟨_, hstep⟩ := Local.verifyAndApply_applied hforked
        refine ih h' ?_ hQ
        rw [hstep]
        exact fun hE => Stream.Bounded.advance (S := L.stream.unpend next.seq) (hB hE)
          (show L.stream.head.contigSeq < next.seq by omega)

theorem Local.pending_verifyAndApply :
    (L.verifyAndApply env e via).1.stream.pending = L.stream.pending := by
  unfold verifyAndApply
  split
  · simp only [advance, deliver, Local.map, Stream.advance, Stream.saveHead, Stream.put]
    split <;> rfl
  · rfl

/-- Enough rounds drain everything that fits: more rounds change nothing. -/
theorem Local.drain_eq (hm : L.stream.pending.rows.length < m)
    (hn : L.stream.pending.rows.length < n) : L.drain env via m = L.drain env via n := by
  induction m generalizing L n with
  | zero => cases hm
  | succ m ih =>
    cases n with
    | zero => cases hn
    | succ n =>
      unfold drain
      cases hnext : L.stream.pendingAt (L.stream.head.contigSeq + 1) with
      | none => rfl
      | some next =>
        have hid : next.seq = L.stream.head.contigSeq + 1 :=
          congrArg (fun id : EntryId => id.2.2) (Table.key_of_get hnext)
        have hlt : (L.stream.unpend next.seq).pending.rows.length <
            L.stream.pending.rows.length := by
          rw [hid]
          exact Table.length_delete_lt hnext
        dsimp only
        split
        · rfl
        · apply ih
          · rw [pending_verifyAndApply]
            exact Nat.lt_of_lt_of_le hlt (Nat.le_of_lt_succ hm)
          · rw [pending_verifyAndApply]
            exact Nat.lt_of_lt_of_le hlt (Nat.le_of_lt_succ hn)

theorem drainStream_spec (h : At env (T, w) v L t) (hknown : (env.topics T).isSome)
    (hB : ¬ E Store.uniqueViolation → L.stream.Bounded) (hQ : ∀ t', At env (T, w) v (L.drainAll env via) t' → Q () t') :
    Returns E (drainStream env via L.stream.head) t Q := by
  refine .bind (.get (drainPending_spec h hknown hB fun t' h' => hQ t' ?_))
  have hlen : L.stream.pending.rows.length ≤ t.core.db.sqPending.rows.length := by
    rw [← h.stream]
    exact List.length_filter_le ..
  rwa [Local.drainAll, ← Local.drain_eq (Nat.lt_succ_of_le hlen) (Nat.lt_succ_self _)]

theorem chainHeldAt_spec (h : At env (T, w) v L t)
    (hQ : ∀ t', At env (T, w) v L t' → Q (L.stream.chainHeldAt env s) t') :
    Returns E (chainHeldAt env T w s) t Q := by
  have hk := h.head_stream
  have hT : L.stream.head.topic = T := congrArg Prod.fst hk
  have hw : L.stream.head.writer = w := congrArg Prod.snd hk
  unfold chainHeldAt
  unfold Stream.chainHeldAt at hQ
  rw [hT, hw] at hQ
  by_cases hs : s = 0
  · rw [if_pos hs] at hQ ⊢
    exact .pure (hQ t h)
  · rw [if_neg hs] at hQ ⊢
    exact .bind (getEntry_spec h fun t' h' => .pure (hQ t' h'))

theorem recoveryRewind_spec (h : At env e.stream v L t)
    (hQ : ∀ t', At env e.stream v (L.recoveryRewind env e v.now) t' →
      Q (L.recoveryRewind env e v.now).stream.head t') :
    Returns E (recoveryRewind env L.stream.head e) t Q := by
  refine .bind (clock_at h (.bind (quarantineRange_spec h fun n t' h' => ?_)))
  refine .bind (chainHeldAt_spec h' fun t' h' =>
    .bind (saveHead_spec h' h.head_stream fun t' h' => .pure ?_))
  exact hQ t' h'

theorem Stream.Bounded.rewind {S : Stream} (chain : Chain) :
    ((S.quarantineFrom s m reason now).saveHead
      { S.head with contigSeq := s - 1, contigChain := chain }).Bounded := by
  intro s' hs'
  exact if_pos (show s ≤ s' by simp only [Stream.saveHead] at hs'; omega)

theorem recoveryExtend_spec (h : At env e.stream v L t) (hknown : (env.topics e.topic).isSome)
    (hB : ¬ E Store.uniqueViolation → L.stream.Bounded)
    (hQ : ∀ t', At env e.stream v (L.recoveryExtend env e target via v.now) t' → Q () t') :
    Returns E (recoveryExtend env L.stream.head e target via) t Q := by
  unfold recoveryExtend
  unfold Local.recoveryExtend at hQ
  refine .bind (clock_at h ?_)
  by_cases hseq : e.seq ≠ L.stream.head.contigSeq + 1
  · rw [if_pos hseq] at hQ ⊢
    exact done_spec h hQ
  rw [if_neg hseq] at hQ ⊢
  by_cases hchain : chainOf env (L.stream.head.prevChain env) e ≠ e.chain
  · rw [if_pos hchain] at hQ ⊢
    exact done_spec h hQ
  rw [if_neg hchain] at hQ ⊢
  refine .bind (persist_spec h hknown (fun hE => hB hE _ (by omega)) fun rowid t' h' => ?_)
  refine .bind (saveHead_spec h' h.head_stream fun t' h' => ?_)
  refine .bind (noteApplied_spec h' fun t' h' => ?_)
  by_cases hfinal : e.seq = target.finalSeq ∧ e.chain = target.finalChain
  · dsimp only at hQ ⊢
    rw [if_pos hfinal] at hQ ⊢
    exact .bind (saveHead_spec h' h.head_stream fun t' h' =>
      .bind (setRecovery_spec h' fun t' h' => done_spec h' hQ))
  · dsimp only at hQ ⊢
    rw [if_neg hfinal] at hQ ⊢
    exact done_spec h' hQ

theorem recoveryIngest_spec (h : At env e.stream v L t) (hknown : (env.topics e.topic).isSome)
    (hB : ¬ E Store.uniqueViolation → L.stream.Bounded)
    (hQ : ∀ t', At env e.stream v (L.recoveryIngest env e target via v.now) t' → Q () t') :
    Returns E (recoveryIngest env L.stream.head e target via) t Q := by
  unfold recoveryIngest
  unfold Local.recoveryIngest at hQ
  by_cases hle : e.seq ≤ L.stream.head.contigSeq
  · rw [if_pos hle] at hQ ⊢
    refine .bind (getEntry_spec h fun t h => ?_)
    by_cases hdup : ((L.stream.rows e.seq).any fun s => decide (s.chain = e.chain)) = true
    · rw [if_pos hdup] at hQ ⊢
      exact done_spec h hQ
    · rw [if_neg hdup] at hQ ⊢
      exact .bind (recoveryRewind_spec h fun t' h' =>
        recoveryExtend_spec h' hknown (fun _ => Stream.Bounded.rewind (S := L.stream) _) hQ)
  · rw [if_neg hle] at hQ ⊢
    exact recoveryExtend_spec h hknown hB hQ

theorem recheck_spec (h : At env e.stream v L t)
    (hQ : ∀ t', At env e.stream v (L.recheck e) t' → Q () t') :
    Returns E (recheck env L.stream.head e) t Q := by
  unfold Local.recheck at hQ
  refine .bind (getEntry_spec h fun t h => ?_)
  cases hrow : L.stream.rows e.seq with
  | none =>
    rw [hrow] at hQ
    exact done_spec h hQ
  | some stored =>
    rw [hrow] at hQ
    dsimp only at hQ ⊢
    by_cases hc : stored.chain = e.chain
    · rw [if_pos hc] at hQ ⊢
      exact done_spec h hQ
    · rw [if_neg hc] at hQ ⊢
      exact .bind (sealHead_spec h fun t' h' => done_spec h' hQ)

theorem Local.stream_mergeClock (L : Local) : (L.mergeClock env e now).stream = L.stream := by
  unfold mergeClock
  split <;> rfl

theorem extend_spec (h : At env e.stream v L t) (hknown : (env.topics e.topic).isSome)
    (hB : ¬ E Store.uniqueViolation → L.stream.Bounded) (hseq : e.seq = L.stream.head.contigSeq + 1)
    (hQ : ∀ t', At env e.stream v (L.extend env e via v.now) t' → Q () t') :
    Returns E (extend env L.stream.head e via) t Q := by
  unfold Local.extend at hQ
  refine .bind (verifyAndApply_spec h hknown (fun hE => hB hE _ (by omega)) fun t' h' => ?_)
  by_cases happ : (L.verifyAndApply env e via).2 = .applied
  · simp only [happ, if_true] at hQ ⊢
    refine .bind (mergeClock_spec h' fun t' h' => ?_)
    rw [← Local.stream_mergeClock (L.verifyAndApply env e via).1]
    have hB' : ¬ E Store.uniqueViolation →
        ((L.verifyAndApply env e via).1.mergeClock env e v.now).stream.Bounded := by
      rw [Local.stream_mergeClock, (Local.verifyAndApply_applied (by rw [happ]; simp)).2]
      exact fun hE => Stream.Bounded.advance (hB hE) (by omega)
    exact .bind (drainStream_spec h' hknown hB' fun t' h' => done_spec h' hQ)
  · simp only [happ, if_false] at hQ ⊢
    exact done_spec h' hQ

theorem postpone_spec (h : At env e.stream v L t)
    (hQ : ∀ t', At env e.stream v (L.postpone env e v.now) t' → Q () t') :
    Returns E (postpone env L.stream.head e) t Q := by
  unfold Local.postpone at hQ
  refine .bind (pendingGet_spec h fun t h => ?_)
  cases hpend : L.stream.pendingAt e.seq with
  | none =>
    rw [hpend] at hQ
    refine .bind (pendingCount_spec h fun t h => ?_)
    by_cases hcap : L.stream.pending.rows.length ≥ env.constants.PENDING_CAP
    · simp only [hcap, if_true] at hQ ⊢
      exact done_spec h hQ
    · simp only [hcap, if_false] at hQ ⊢
      exact .bind (pendingPut_spec h fun t' h' =>
        .bind (mergeClock_spec h' fun t' h' => done_spec h' hQ))
  | some existing =>
    rw [hpend] at hQ
    dsimp only at hQ ⊢
    by_cases hc : existing.chain = e.chain
    · rw [if_pos hc] at hQ ⊢
      exact done_spec h hQ
    · rw [if_neg hc] at hQ ⊢
      exact .bind (sealHead_spec h fun t' h' => done_spec h' hQ)

/-- External ingest computes the stream step. -/
theorem processExternal_spec (item : ExternalItem env) (h : At env item.entry.stream v L t)
    (hB : ¬ E Store.uniqueViolation → L.stream.Bounded)
    (hQ : ∀ t', At env item.entry.stream v
      (L.ingest env (v.certs item.entry.topic) item.entry item.via v.now) t' → Q () t') :
    Returns E (processExternal env item) t Q := by
  unfold processExternal
  unfold Local.ingest at hQ
  refine .bind (getStream_spec h fun t h => ?_)
  by_cases hseal : L.stream.head.sealReason ≠ none
  · rw [if_pos hseal] at hQ ⊢
    refine .bind (getRecovery_spec h ?_)
    cases hrec : L.stream.recovery with
    | none =>
      rw [hrec] at hQ
      exact done_spec h hQ
    | some target =>
      rw [hrec] at hQ
      dsimp only at hQ ⊢
      by_cases hle : item.entry.seq ≤ target.finalSeq
      · rw [if_pos hle] at hQ ⊢
        exact recoveryIngest_spec h item.known hB hQ
      · rw [if_neg hle] at hQ ⊢
        exact done_spec h hQ
  · rw [if_neg hseal] at hQ ⊢
    refine .bind (getCert_spec h fun t h => ?_)
    split
    · next hcert =>
      rw [if_pos hcert] at hQ
      exact .bind (clock_at h (.bind (annotate_spec h fun t' h' =>
        .bind (report_spec h' fun t' h' => done_spec h' hQ))))
    · next hcert =>
      rw [if_neg hcert] at hQ
      split
      · next hle =>
        rw [if_pos hle] at hQ
        exact recheck_spec h hQ
      · next hle =>
        rw [if_neg hle] at hQ
        split
        · next hseq =>
          rw [if_pos hseq] at hQ
          exact extend_spec h item.known hB hseq hQ
        · next hseq =>
          rw [if_neg hseq] at hQ
          exact postpone_spec h hQ

/-- What an append does to its stream: it is rejected, or it extends an open stream by an entry
that is stamped from the clock and passes validation. -/
inductive Local.Appended (env : Env) (item : AppendItem env) (now : Nat) (L : Local) : Local → Prop
  | sealed (hseal : L.stream.head.sealReason ≠ none) :
      Appended env item now L
        (L.done (.rejected ⟨.ERR_WRITER_SEALED, s!"{item.topic}/{env.writerId}"⟩))
  | overflow (hopen : L.stream.head.sealReason = none) (hstamp : stamp L.hlcState now = .error err) :
      Appended env item now L (L.done (.rejected err))
  | invalid (hopen : L.stream.head.sealReason = none)
      (hstamp : stamp L.hlcState now = .ok (state, hlc))
      (hinvalid : validateEntry env (appendEntry env item hlc causal L.stream) = .error err) :
      Appended env item now L ({ L with hlcState := state }.done (.rejected err))
  | appended (hopen : L.stream.head.sealReason = none)
      (hstamp : stamp L.hlcState now = .ok (state, hlc))
      (hvalid : (validateEntry env (appendEntry env item hlc causal L.stream)).isOk) :
      Appended env item now L
        ({ L with hlcState := state }.append env (appendEntry env item hlc causal L.stream))

theorem stampCausal_spec (item : AppendItem env) (h : At env k v L t)
    (hQ : ∀ causal t', At env k v L t' → Q causal t') :
    Returns E (stampCausal env item seq) t Q := by
  unfold stampCausal
  cases item.causalProvider with
  | none => exact .pure (hQ _ _ h)
  | some scope =>
    exact .bind (.get (.bind (.modify rfl (.pure (hQ _ _
      (h.congr rfl rfl rfl rfl rfl rfl rfl rfl rfl rfl rfl))))))

/-- A chain preimage outside the domain of `dec` aborts the batch; otherwise an append does what
`Appended` says. -/
theorem processAppend_spec (item : AppendItem env)
    (h : At env (item.topic, env.writerId) v L t)
    (hB : ¬ E Store.uniqueViolation → L.stream.Bounded)
    (hE : ∀ err, err.code = .ERR_ENTRY_ENCODING → E err)
    (hQ : ∀ L' t', Local.Appended env item v.now L L' → At env (item.topic, env.writerId) v L' t' →
      Q () t') :
    Returns E (processAppend env item) t Q := by
  refine .bind (getStream_spec h fun t h => ?_)
  by_cases hseal : L.stream.head.sealReason ≠ none
  · rw [if_pos hseal]
    exact done_spec h fun t' h' => hQ _ t' (.sealed hseal) h'
  rw [if_neg hseal]
  have hopen := not_not.1 hseal
  refine .bind (.get ?_)
  refine .bind (clock_at h ?_)
  rw [h.hlcState]
  cases hstamp : stamp L.hlcState v.now with
  | error err => exact done_spec h fun t' h' => hQ _ t' (.overflow hopen hstamp) h'
  | ok stamped =>
    obtain ⟨state, hlc⟩ := stamped
    refine .bind (setHlcState_spec h fun t h => ?_)
    refine .bind (stampCausal_spec item h fun causal t h => ?_)
    split
    · exact .bind (.throw (hE _ rfl))
    dsimp only
    split
    · next err hinvalid =>
      exact done_spec h fun t' h' => hQ _ t' (.invalid hopen hstamp hinvalid) h'
    · next hvalid =>
      have hvalid : validateEntry env (Local.appendEntry env item hlc causal L.stream) = .ok _ :=
        hvalid
      have hk := h.head_stream
      refine .bind (persist_spec (e := Local.appendEntry env item hlc causal L.stream) h
        item.known (fun hE => hB hE _ (Nat.lt_succ_self _)) fun rowid t h => ?_)
      refine .bind (saveHead_spec h hk fun t h => ?_)
      refine .bind (noteApplied_spec h fun t h => done_spec h fun t' h' => ?_)
      exact hQ _ t' (.appended hopen hstamp (by rw [hvalid]; rfl)) h'

end Seqscribe
