import Seqscribe.LogUpkeep
import Seqscribe.Run

set_option autoImplicit true

open Seqscribe in
/-- A first part that keeps a property, and a rest that starts from it. -/
theorem Runs.after {I J : Txn → Prop} {m : LogM α} {f : α → LogM β} {P : α → Prop}
    {Q : β → Txn → Prop} (hm : Keeps I J m P) (ht : I t)
    (hf : ∀ a t', P a → I t' → Runs (f a) t' Q fun _ t => J t) :
    Runs (m >>= f) t Q fun _ t => J t :=
  .bind ((hm.runs t ht).mono (fun a t' h => hf a t' h.1 h.2) fun _ _ h => h)

namespace Seqscribe

/-! Within a stream, rowids follow positions. -/

variable {env : Env} {k : StreamId} {n : Nat} {e : LogEntry} {t : Txn}

namespace LogState

variable {s : LogState} {log : Table EntryId LogRow fun r => r.entry.id}

def InOrder (s : LogState) : Prop :=
  ∀ r ∈ s.log.rows, ∀ r' ∈ s.log.rows, r'.entry.stream = r.entry.stream →
    r.entry.seq < r'.entry.seq → r.rowid < r'.rowid

/-- The rows are in order, and those of one stream reach no further than a position. -/
structure Within (k : StreamId) (n : Nat) (s : LogState) : Prop where
  keyed : s.Keyed
  numbered : s.Numbered
  inOrder : s.InOrder
  below : ∀ r ∈ s.log.rows, r.entry.stream = k → r.entry.seq ≤ n

theorem InOrder.sublist {s' : LogState} (h : s.InOrder) (hsub : ∀ r ∈ s'.log.rows, r ∈ s.log.rows) :
    s'.InOrder :=
  fun r hr r' hr' => h r (hsub r hr) r' (hsub r' hr')

theorem Within.mono (h : Within k n s) (hle : n ≤ m) : Within k m s :=
  ⟨h.keyed, h.numbered, h.inOrder, fun r hr hk => (h.below r hr hk).trans hle⟩

theorem Within.delete (h : Within k n s) (p : LogRow → Bool) : Within k n (s.delete p) :=
  ⟨h.keyed, h.numbered.delete p, h.inOrder.sublist fun _ => List.mem_of_mem_filter,
    fun r hr => h.below r (List.mem_of_mem_filter hr)⟩

/-- The next entry of the stream takes the next rowid. -/
theorem Within.insert (h : Within k n s) (he : e.stream = k) (hseq : e.seq = n + 1)
    (hlog : s.log.insert ⟨s.sequence + 1, e⟩ = some log) :
    Within k e.seq (s.insert e log) := by
  have hrows : (s.insert e log).log.rows = s.log.rows ++ [⟨s.sequence + 1, e⟩] :=
    Table.rows_of_insert hlog
  refine ⟨h.keyed, h.numbered.insert hlog, ?_, ?_⟩
  · intro r hr r' hr' hstream hlt
    rw [hrows] at hr hr'
    rcases List.mem_append.1 hr with hr | hr
    · rcases List.mem_append.1 hr' with hr' | hr'
      · exact h.inOrder r hr r' hr' hstream hlt
      · obtain rfl := List.mem_singleton.1 hr'
        exact Nat.lt_succ_of_le (h.numbered.2 r hr)
    · obtain rfl := List.mem_singleton.1 hr
      rcases List.mem_append.1 hr' with hr' | hr'
      · have hle := h.below r' hr' (hstream.trans he)
        exact absurd hlt (Nat.not_lt_of_le (hle.trans (hseq ▸ Nat.le_succ n)))
      · obtain rfl := List.mem_singleton.1 hr'
        exact absurd hlt (Nat.lt_irrefl _)
  · intro r hr hk
    rw [hrows] at hr
    rcases List.mem_append.1 hr with hr | hr
    · exact (h.below r hr hk).trans (hseq ▸ Nat.le_succ n)
    · obtain rfl := List.mem_singleton.1 hr
      exact Nat.le_refl _

/-- No operation but an insertion disturbs the order. -/
theorem within_upkeep (k : StreamId) (n : Nat) :
    LogUpkeep (fun _ => True) False True (Within k n) fun _ => True where
  fails := fun _ _ => trivial
  keyed := fun _ h => h.keyed
  numbered := fun _ _ h => h.numbered
  cacheHead := fun _ _ _ hhead h => ⟨h.keyed.cacheHead hhead, h.numbered, h.inOrder, h.below⟩
  insert := False.elim
  delete := by
    intro _ s topic p _ _ h
    have hdel := h.delete p
    exact ⟨hdel.keyed, hdel.numbered, hdel.inOrder, hdel.below⟩
  lost := fun _ _ _ _ _ _ _ => trivial

end LogState

/-- The log is within `n` on the stream. -/
abbrev Txn.Within (k : StreamId) (n : Nat) (t : Txn) : Prop := LogState.Within k n t.logState

abbrev Txn.Lost (_ : Txn) : Prop := True

theorem within_handlers (env : Env) (k : StreamId) (n : Nat) :
    Handlers env (fun _ => True) False True (Txn.Within k n) Txn.Lost :=
  (LogState.within_upkeep k n).handlers env

theorem Keeps.ends {I J Q : Txn → Prop} {m : LogM α} {P : α → Prop} (hm : Keeps I J m P)
    (ht : I t) (h : ∀ t, I t → Q t) : Runs m t (fun _ t' => Q t') fun _ t => J t :=
  (hm.runs t ht).mono (fun _ t' h' => h t' h'.2) fun _ _ h => h

theorem persist_within (ht : t.Within k n) (he : e.stream = k) (hseq : e.seq = n + 1) :
    Runs (persist env e) t (fun _ t' => t'.Within k e.seq) fun _ t => t.Lost := by
  have hH := within_handlers env k n
  have hle : n ≤ e.seq := hseq ▸ Nat.le_succ n
  apply Runs.after (hH.topicPolicy e.topic) ht
  intro policy t₁ _ h₁
  split
  next =>
    apply Runs.bind
    refine .after hH.storageCall h₁ fun _ t₂ _ h₂ => .bind (.get ?_)
    dsimp only
    split
    next => exact trivial
    next log hlog => exact h₂.insert he hseq hlog
  next =>
    exact .bind (.get ((hH.replaceRing _ _ fun _ => .pure none).ends h₁ fun _ h₂ => h₂.mono hle))
  next => exact h₁.mono hle

theorem verifyAndApply_within {head : WriterRow} (ht : t.Within k head.contigSeq)
    (hhead : head.stream = k) (he : e.stream = k) (hseq : e.seq = head.contigSeq + 1) :
    Runs (verifyAndApply env head e via) t
      (fun r t' => r.1.stream = k ∧ t'.Within k r.1.contigSeq) fun _ t => t.Lost := by
  have hH := within_handlers env k head.contigSeq
  have hsealed : Keeps (Txn.Within k head.contigSeq) Txn.Lost (sealHead env head e)
      fun head' => head' = { head with sealReason := some .fork } :=
    .bind (hH.saveHead _) fun _ => .bind (hH.report _) fun _ => .pure_of rfl
  have hforked (t₁ : Txn) (h₁ : t₁.Within k head.contigSeq) :
      Runs (do return (← sealHead env head e, ApplyResult.forked)) t₁
        (fun r t' => r.1.stream = k ∧ t'.Within k r.1.contigSeq) fun _ t => t.Lost := by
    apply Runs.after hsealed h₁
    rintro _ t₂ rfl h₂
    exact ⟨hhead, h₂⟩
  have happlied (t₁ : Txn) (h₁ : t₁.Within k head.contigSeq) : Runs (do
      let rowid ← persist env e
      let head := { head with contigSeq := e.seq, contigChain := e.chain }
      saveHead env head
      noteApplied e rowid via
      return (head, ApplyResult.applied)) t₁
        (fun r t' => r.1.stream = k ∧ t'.Within k r.1.contigSeq) fun _ t => t.Lost := by
    apply Runs.bind
    apply (persist_within h₁ he hseq).mono
    · intro rowid t₂ h₂
      have hH := within_handlers env k e.seq
      refine .after (hH.saveHead _) h₂ fun _ t₃ _ h₃ => ?_
      exact .after hH.noteApplied h₃ fun _ t₄ _ h₄ => ⟨hhead, h₄⟩
    · exact fun _ _ h => h
  rw [verifyAndApply]
  split
  next => exact hforked t ht
  next =>
    split
    next =>
      refine .after (hH.query _) ht fun prev t₁ _ h₁ => ?_
      split
      next => exact hforked t₁ h₁
      next => exact happlied t₁ h₁
    next => exact happlied t ht

theorem drainPending_within (fuel : Nat) {head : WriterRow} (ht : t.Within k head.contigSeq)
    (hhead : head.stream = k) :
    Runs (drainPending env via fuel head) t (fun _ t' => t'.logState.InOrder)
      fun _ t => t.Lost := by
  induction fuel generalizing head t with
  | zero => exact ht.inOrder
  | succ fuel ih =>
    have hH := within_handlers env k head.contigSeq
    let next (found : Option LogEntry) : Prop :=
      ∀ e ∈ found, e.stream = k ∧ e.seq = head.contigSeq + 1
    have hget (db : Db) :
        next (db.sqPending.get (head.topic, head.writer, head.contigSeq + 1)) := by
      intro e he
      have hid := Table.key_of_get he
      refine ⟨Eq.trans ?_ hhead, congrArg (fun id : EntryId => id.2.2) hid⟩
      exact congrArg (fun id : EntryId => ((id.1, id.2.1) : StreamId)) hid
    refine .after (hH.query_of (P := next) hget) ht fun pending t₁ hpending h₁ => ?_
    split
    next => exact h₁.inOrder
    next next =>
      obtain ⟨hstream, hseq⟩ := hpending next rfl
      refine .after (hH.execute _ fun _ => rfl) h₁ fun _ t₂ _ h₂ => ?_
      apply Runs.bind
      apply (verifyAndApply_within h₂ hhead hstream hseq).mono
      · rintro ⟨head', r⟩ t₃ ⟨hhead', h₃⟩
        dsimp only
        split
        next => exact h₃.inOrder
        next => exact ih h₃ hhead'
      · exact fun _ _ h => h

theorem drainStream_within {head : WriterRow} (ht : t.Within k head.contigSeq)
    (hhead : head.stream = k) :
    Runs (drainStream env via head) t (fun _ t' => t'.logState.InOrder) fun _ t => t.Lost :=
  .bind (.get (drainPending_within _ ht hhead))

theorem deleteLogRange_within (ht : t.Within (topic, writer) n) (hpos : 0 < fromSeq) :
    Runs (Store.deleteLogRange topic writer fromSeq) t
      (fun _ t' => t'.Within (topic, writer) (fromSeq - 1)) fun _ t => t.Lost := by
  refine .bind (execute_runs (fun fault => ?_) fun _ => trivial)
  have hdel := LogState.Within.delete ht fun r =>
    !(Store.inStream topic writer r && decide (fromSeq ≤ r.entry.seq))
  refine ⟨hdel.keyed, hdel.numbered, hdel.inOrder, fun r hr hk => ?_⟩
  obtain ⟨-, hkeep⟩ := List.mem_filter.1 hr
  have hin : Store.inStream topic writer r = true :=
    decide_eq_true ⟨congrArg Prod.fst hk, congrArg Prod.snd hk⟩
  rw [hin, Bool.true_and, Bool.not_eq_true', decide_eq_false_iff_not] at hkeep
  omega

theorem recoveryRewind_within {head : WriterRow} (ht : t.Within k head.contigSeq)
    (hhead : head.stream = k) (he : e.stream = k) (hpos : 0 < e.seq) :
    Runs (recoveryRewind env head e) t
      (fun head' t' => head'.stream = k ∧ t'.Within k head'.contigSeq) fun _ t => t.Lost := by
  have hH := within_handlers env k head.contigSeq
  have hH' := within_handlers env k (e.seq - 1)
  refine .after Handlers.clock ht fun now t₁ _ h₁ => .bind ?_
  refine .after (hH.query _) h₁ fun doomed t₂ _ h₂ => ?_
  have hput : Keeps (Txn.Within k head.contigSeq) Txn.Lost (forM doomed fun entry => do
      Store.quarantinePut entry .canonicalized now
      report (.entryQuarantined entry)) :=
    .forM fun _ _ => .bind (hH.execute _ fun _ => rfl) fun _ => hH.report _
  refine .after hput h₂ fun _ t₃ _ h₃ => .bind ?_
  obtain rfl : (e.topic, e.writer) = k := he
  apply (deleteLogRange_within h₃ hpos).mono
  · intro _ t₄ h₄
    apply Runs.pure
    refine .after (hH'.chainHeldAt ..) h₄ fun prev t₅ _ h₅ => ?_
    exact .after (hH'.saveHead _) h₅ fun _ t₆ _ h₆ => ⟨hhead, h₆⟩
  · exact fun _ _ h => h

theorem recoveryExtend_within {head : WriterRow} (ht : t.Within k head.contigSeq)
    (he : e.stream = k) :
    Runs (recoveryExtend env head e target via) t (fun _ t' => t'.logState.InOrder)
      fun _ t => t.Lost := by
  have hH := within_handlers env k head.contigSeq
  have hH' := within_handlers env k e.seq
  refine .after Handlers.clock ht fun now t₁ _ h₁ => ?_
  split
  next => exact (hH.done _).ends h₁ fun _ h => h.inOrder
  next hseq =>
    split
    next => exact (hH.done _).ends h₁ fun _ h => h.inOrder
    next =>
      apply Runs.bind
      apply (persist_within h₁ he (not_not.1 hseq)).mono _ fun _ _ h => h
      intro rowid t₂ h₂
      refine .after (hH'.saveHead _) h₂ fun _ t₃ _ h₃ => ?_
      refine .after hH'.noteApplied h₃ fun _ t₄ _ h₄ => ?_
      refine Keeps.ends (P := fun _ => True) ?_ h₄ fun _ h => h.inOrder
      apply Keeps.ite _ fun _ => hH'.done _
      exact fun _ => .bind (hH'.saveHead _) fun _ => .bind hH'.setRecovery fun _ => hH'.done _

theorem recoveryIngest_within {head : WriterRow} (ht : t.Within k head.contigSeq)
    (hhead : head.stream = k) (he : e.stream = k) (hpos : 0 < e.seq) :
    Runs (recoveryIngest env head e target via) t (fun _ t' => t'.logState.InOrder)
      fun _ t => t.Lost := by
  have hH := within_handlers env k head.contigSeq
  rw [recoveryIngest]
  split
  next =>
    refine .after (hH.query _) ht fun stored t₁ _ h₁ => ?_
    split
    next => exact (hH.done _).ends h₁ fun _ h => h.inOrder
    next =>
      apply Runs.bind
      apply (recoveryRewind_within h₁ hhead he hpos).mono _ fun _ _ h => h
      exact fun head' t₂ h₂ => recoveryExtend_within h₂.2 he
  next => exact recoveryExtend_within ht he

theorem extend_within {head : WriterRow} (ht : t.Within k head.contigSeq) (hhead : head.stream = k)
    (he : e.stream = k) (hseq : e.seq = head.contigSeq + 1) :
    Runs (extend env head e via) t (fun _ t' => t'.logState.InOrder) fun _ t => t.Lost := by
  apply Runs.bind
  apply (verifyAndApply_within ht hhead he hseq).mono _ fun _ _ h => h
  rintro ⟨head', r⟩ t₁ ⟨hhead', h₁⟩
  have hH := within_handlers env k head'.contigSeq
  dsimp only
  split
  next =>
    refine .after (hH.mergeClock e) h₁ fun _ t₂ _ h₂ => .bind ?_
    apply (drainStream_within h₂ hhead').mono _ fun _ _ h => h
    exact fun _ t₃ h₃ => h₃
  next => exact (hH.done _).ends h₁ fun _ h => h.inOrder

/-- The head of a stream, as it is stored. -/
theorem getStream_within (hcoh : t.core.Coherent env)
    (ht : t.Within (topic, writer) (t.core.head env (topic, writer)).contigSeq) :
    Runs (getStream env topic writer) t
      (fun head t' => head.stream = (topic, writer) ∧ t'.Within (topic, writer) head.contigSeq)
      fun _ t => t.Lost := by
  have hhead : (t.core.head env (topic, writer)).stream = (topic, writer) :=
    t.core.head_stream env _
  refine .bind (.get ?_)
  cases hcached : t.core.heads (topic, writer) with
  | some head =>
    obtain rfl := hcoh.heads _ _ hcached
    exact ⟨hhead, ht⟩
  | none =>
    refine .bind (query_runs (fun fault => .bind (.modify ⟨hhead, ?_⟩)) fun _ => trivial)
    refine ⟨ht.keyed.cacheHead fun h hh => ?_, ht.numbered, ht.inOrder, ht.below⟩
    exact Option.some.inj hh ▸ hhead

/-- A transaction over a sound view whose rows are in order. -/
structure Txn.Orderly (env : Env) (t : Txn) : Prop where
  coherent : t.core.Coherent env
  bounded : ∀ k, (t.core.stream env k).Bounded
  keyed : t.logState.Keyed
  numbered : t.logState.Numbered
  inOrder : t.logState.InOrder

theorem Txn.Orderly.within (h : t.Orderly env) (k : StreamId) :
    t.Within k (t.core.head env k).contigSeq where
  keyed := h.keyed
  numbered := h.numbered
  inOrder := h.inOrder
  below := by
    intro r hr hk
    by_contra hlt
    have hnone := h.bounded k r.entry.seq (Nat.lt_of_not_le hlt)
    have hrow := Core.row_of_mem env hr
    rw [hk] at hrow
    cases hnone.symm.trans hrow

theorem processAppend_inOrder (item : AppendItem env) (ht : t.Orderly env) :
    Runs (processAppend env item) t (fun _ t' => t'.logState.InOrder) fun _ t => t.Lost := by
  apply Runs.bind
  apply (getStream_within ht.coherent (ht.within (item.topic, env.writerId))).mono _ fun _ _ h => h
  intro head t₁ ⟨hhead, h₁⟩
  have hH := within_handlers env (item.topic, env.writerId) head.contigSeq
  have hH' := within_handlers env (item.topic, env.writerId) (head.contigSeq + 1)
  split
  next => exact (hH.done _).ends h₁ fun _ h => h.inOrder
  next =>
    refine .bind (.get (.after Handlers.clock h₁ fun now t₂ _ h₂ => ?_))
    split
    next => exact (hH.done _).ends h₂ fun _ h => h.inOrder
    next state hlc _ =>
      refine .after (hH.modify fun _ => rfl) h₂ fun _ t₃ _ h₃ => ?_
      refine .after (.stampCausal (fun _ _ h => h) item _) h₃ fun causal t₄ _ h₄ => ?_
      split
      next => exact .bind (.throw trivial)
      next =>
        dsimp only
        split
        next => exact (hH.done _).ends h₄ fun _ h => h.inOrder
        next =>
          apply Runs.bind
          apply (persist_within h₄ rfl rfl).mono _ fun _ _ h => h
          intro rowid t₅ h₅
          refine .after (hH'.saveHead _) h₅ fun _ t₆ _ h₆ => ?_
          exact .after hH'.noteApplied h₆ fun _ t₇ _ h₇ => (hH'.done _).ends h₇ fun _ h => h.inOrder

theorem processExternal_inOrder (item : ExternalItem env) (ht : t.Orderly env) :
    Runs (processExternal env item) t (fun _ t' => t'.logState.InOrder) fun _ t => t.Lost := by
  apply Runs.bind
  apply (getStream_within ht.coherent (ht.within item.entry.stream)).mono _ fun _ _ h => h
  intro head t₁ ⟨hhead, h₁⟩
  have hH := within_handlers env item.entry.stream head.contigSeq
  split
  next =>
    refine .after Handlers.getRecovery h₁ fun target t₂ _ h₂ => ?_
    split
    next =>
      split
      next =>
        exact recoveryIngest_within h₂ hhead rfl (one_le_seq_of_validateEntry item.valid)
      next => exact (hH.done _).ends h₂ fun _ h => h.inOrder
    next => exact (hH.done _).ends h₂ fun _ h => h.inOrder
  next =>
    refine .after (hH.getCert _) h₁ fun cert t₂ _ h₂ => ?_
    split
    next =>
      refine .after Handlers.clock h₂ fun now t₃ _ h₃ => .after hH.annotate h₃ fun _ t₄ _ h₄ => ?_
      exact .after (hH.report _) h₄ fun _ t₅ _ h₅ => (hH.done _).ends h₅ fun _ h => h.inOrder
    next =>
      split
      next => exact (hH.recheck head item.entry).ends h₂ fun _ h => h.inOrder
      next =>
        split
        next hseq => exact extend_within h₂ hhead rfl hseq
        next => exact (hH.postpone head item.entry).ends h₂ fun _ h => h.inOrder

theorem processAdoptFloor_inOrder (topic : Topic) (writer : WriterId) (seq : Nat) (chain : Chain)
    (ht : t.Orderly env) :
    Runs (processAdoptFloor env topic writer seq chain) t (fun _ t' => t'.logState.InOrder)
      fun _ t => t.Lost := by
  have hH (n : Nat) := within_handlers env (topic, writer) n
  have hpolicy : Keeps (fun t' => t' = t) Txn.Lost (topicPolicy env topic) := by
    rw [topicPolicy]
    split
    next => exact .pure _
    next => exact .throw (fun _ _ => trivial) _
  have hrefusal : Keeps (fun t' => t' = t) Txn.Lost (ackedRetentionRefusal env topic) :=
    .bind hpolicy fun _ => .ite (fun _ => .pure _) fun _ => .ite (fun _ => .pure _) fun _ =>
      .ite (fun _ => .pure _) fun _ => .ite (fun _ => .pure _) fun _ => .pure _
  have hrest (now : Nat) (head : WriterRow) (hhead : head.stream = (topic, writer)) (t' : Txn)
      (h' : t'.Within (topic, writer) head.contigSeq) : Runs (do
        saveHead env head
        raiseFloor topic writer seq chain now
        Store.deletePendingUpTo topic writer seq
        report (.floorAdopted topic writer)
        if head.sealReason = none then drainStream env none head
        done (.adoptedFloor .adopted)) t' (fun _ t' => t'.logState.InOrder) fun _ t => t.Lost := by
    refine .after ((hH _).saveHead head) h' fun _ t₁ _ h₁ => ?_
    refine .bind (.after ((hH _).execute _ fun _ => rfl) h₁ fun _ t₂ _ h₂ => ?_)
    refine .modify (.after ((hH _).execute _ fun _ => rfl) h₂ fun _ t₃ _ h₃ => ?_)
    refine .after ((hH _).report _) h₃ fun _ t₄ _ h₄ => ?_
    split
    next =>
      apply Runs.bind
      apply (drainStream_within h₄ hhead).mono _ fun _ _ h => h
      exact fun _ t₅ h₅ => h₅
    next => exact ((hH _).done _).ends h₄ fun _ h => h.inOrder
  apply Runs.after hrefusal rfl
  rintro refusal _ - rfl
  split
  next => exact ((hH _).done _).ends (ht.within (topic, writer)) fun _ h => h.inOrder
  next =>
    apply Runs.bind
    apply (getStream_within ht.coherent (ht.within (topic, writer))).mono _ fun _ _ h => h
    rintro head t₁ ⟨hhead, h₁⟩
    split
    next => exact ((hH _).done _).ends h₁ fun _ h => h.inOrder
    next hlt =>
      refine .after Handlers.getRecovery h₁ fun target t₂ _ h₂ => ?_
      split
      next => exact ((hH _).done _).ends h₂ fun _ h => h.inOrder
      next =>
        split
        next => exact ((hH _).done _).ends h₂ fun _ h => h.inOrder
        next =>
          refine .after Handlers.clock h₂ fun now t₃ _ h₃ => ?_
          have h₄ := h₃.mono (Nat.le_of_lt (Nat.lt_of_not_le hlt))
          have hreached (head' : WriterRow) (found : Option RecoveryTarget) (t' : Txn)
              (hhead' : head'.stream = (topic, writer))
              (h' : t'.Within (topic, writer) head'.contigSeq) :
              let head'' := (found.map fun tgt => head'.retire tgt now).getD head'
              head''.stream = (topic, writer) ∧ t'.Within (topic, writer) head''.contigSeq := by
            cases found with
            | none => exact ⟨hhead', h'⟩
            | some tgt => exact ⟨hhead', h'⟩
          dsimp only
          split
          next =>
            refine .after (hH _).setRecovery h₄ fun _ t₄ _ h₅ => ?_
            obtain ⟨hhead', h'⟩ := hreached { head with contigSeq := seq, contigChain := chain }
              (target.filter fun tgt => decide (seq = tgt.finalSeq)) t₄ hhead h₅
            exact hrest now _ hhead' t₄ h'
          next =>
            obtain ⟨hhead', h'⟩ := hreached { head with contigSeq := seq, contigChain := chain }
              (target.filter fun tgt => decide (seq = tgt.finalSeq)) t₃ hhead h₄
            exact hrest now _ hhead' t₃ h'

/-- Every item leaves the rows of a stream in order. -/
theorem processQueued_inOrder (q : Queued env) (ht : t.Orderly env) :
    Runs (processQueued env q) t (fun _ t' => t'.logState.InOrder) fun _ t => t.Lost := by
  by_cases hi : q.2.inserts = true
  · refine .bind (.modify ?_)
    replace ht : Txn.Orderly env { t with ambient := q.1 } :=
      ⟨ht.coherent, ht.bounded, ht.keyed, ht.numbered, ht.inOrder⟩
    cases hq : q.2 with
    | append item => exact processAppend_inOrder item ht
    | external item => exact processExternal_inOrder item ht
    | adoptFloor topic writer seq chain known =>
      exact processAdoptFloor_inOrder topic writer seq chain ht
    | _ =>
      rw [hq] at hi
      cases hi
  · have hkeeps := (LogState.within_upkeep ("", "") (t.core.head env ("", "")).contigSeq).processQueued
      q trivial (fun h => hi h) (fun _ => trivial) fun _ _ _ s hs =>
        ⟨hs.keyed, hs.numbered, hs.inOrder, hs.below⟩
    exact hkeeps.ends (ht.within _) fun _ h => h.inOrder

/-- No item writes to the archive. -/
theorem archive_upkeep (archive : Table EntryId ArchiveRow fun r => r.entry.id) :
    LogUpkeep (fun _ => True) True True
      (fun s => s.Keyed ∧ s.Numbered ∧ s.archive = archive) fun _ => True where
  fails := fun _ _ => trivial
  keyed := fun _ h => h.1
  numbered := fun _ _ h => h.2.1
  cacheHead := fun _ _ _ hhead h => ⟨h.1.cacheHead hhead, h.2⟩
  insert := fun _ _ _ _ _ h hlog => ⟨h.1, h.2.1.insert hlog, h.2.2⟩
  delete := fun _ _ _ p _ _ h => ⟨h.1, h.2.1.delete p, h.2.2⟩
  lost := fun _ _ _ _ _ _ _ => trivial

/-- What an item leaves of the log and the archive. -/
theorem processQueued_orderly (q : Queued env) (ht : t.Orderly env)
    (hrun : processQueued env q t = .ok u t') :
    t'.logState.Keyed ∧ t'.logState.Numbered ∧ t'.logState.InOrder ∧
      t'.core.db.sqArchive = t.core.db.sqArchive := by
  have hkeeps := (archive_upkeep t.core.db.sqArchive).processQueued q trivial (fun _ => trivial)
    (fun _ => trivial) fun _ _ _ s hs => hs
  obtain ⟨-, hkeyed, hnumbered, harchive⟩ :=
    (hkeeps.runs t ⟨ht.keyed, ht.numbered, rfl⟩).of_ok hrun
  exact ⟨hkeyed, hnumbered, (processQueued_inOrder q ht).of_ok hrun, harchive⟩

end Seqscribe
