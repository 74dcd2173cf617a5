import Seqscribe.Items

namespace Seqscribe
set_option autoImplicit true

variable {env : Env} {S S' : Stream} {L L' : Local} {v v' : View}

namespace Local

theorem settle_mergeClock : (L.mergeClock env e now).settle = L.settle := by
  unfold mergeClock
  split <;> rfl

theorem settle_verifyAndApply : (L.verifyAndApply env e via).1.settle = L.settle := by
  unfold verifyAndApply
  split <;> rfl

theorem settle_drain : (L.drain env via fuel).settle = L.settle := by
  induction fuel generalizing L with
  | zero => rfl
  | succ fuel ih =>
    unfold drain
    split
    · rfl
    · dsimp only
      split
      · exact settle_verifyAndApply
      · exact ih.trans settle_verifyAndApply

theorem settle_recoveryExtend :
    ∃ r, (L.recoveryExtend env e target via now).settle = L.settle ++ [.external r] := by
  unfold recoveryExtend
  split
  · exact ⟨_, rfl⟩
  split
  · exact ⟨_, rfl⟩
  · dsimp only
    split <;> exact ⟨_, rfl⟩

/-- An external entry settles with one result. -/
theorem settle_ingest (env : Env) (cert : Option FinalityCert) (e : LogEntry)
    (via : Option String) (now : Nat) (L : Local) : ∃ r, (L.ingest env cert e via now).settle = L.settle ++ [.external r] := by
  unfold ingest
  split
  · split
    · split
      · unfold recoveryIngest
        split
        · split
          · exact ⟨_, rfl⟩
          · exact settle_recoveryExtend
        · exact settle_recoveryExtend
      · exact ⟨_, rfl⟩
    · exact ⟨_, rfl⟩
  split
  · exact ⟨_, rfl⟩
  split
  · unfold recheck
    split
    · split <;> exact ⟨_, rfl⟩
    · exact ⟨_, rfl⟩
  split
  · unfold extend
    dsimp only
    split
    · refine ⟨.applied, ?_⟩
      change (drainAll env via _).settle ++ _ = _
      rw [drainAll, settle_drain, settle_mergeClock, settle_verifyAndApply]
    · refine ⟨(L.verifyAndApply env e via).2, ?_⟩
      change (L.verifyAndApply env e via).1.settle ++ _ = _
      rw [settle_verifyAndApply]
  · unfold postpone
    split
    · split <;> exact ⟨_, rfl⟩
    · split
      · exact ⟨_, rfl⟩
      · refine ⟨.pending, ?_⟩
        change (mergeClock env e now _).settle ++ _ = _
        rw [settle_mergeClock]
        rfl

theorem settle_sealForked : (L.sealForked T).settle = L.settle := by
  unfold sealForked
  split <;> rfl

theorem settle_certStream : (L.certStream env cert now).settle = L.settle := by
  unfold certStream
  dsimp only
  split
  · exact settle_sealForked
  · split
    · exact settle_sealForked
    · rfl

theorem settle_direct (env : Env) (stored : Option WriterDirective) (d : WriterDirective)
    (now : Nat) (L : Local) : ∃ r, (L.direct env stored d now).settle = L.settle ++ [.directive r] := by
  unfold direct
  split
  · exact ⟨_, rfl⟩
  split
  · exact ⟨_, rfl⟩
  split
  · split <;> exact ⟨_, rfl⟩
  · unfold processRetired
    dsimp only
    split
    · exact ⟨_, rfl⟩
    · split <;> exact ⟨_, rfl⟩

theorem settle_jumpToFloor : (L.jumpToFloor s chain now).settle = L.settle := by
  unfold jumpToFloor
  dsimp only
  split <;> rfl

theorem settle_adoptFloor (env : Env) (s : Nat) (chain : Chain) (now : Nat) (L : Local) :
    ∃ r, (L.adoptFloor env s chain now).settle = L.settle ++ [.adoptedFloor r] := by
  unfold adoptFloor
  split
  · exact ⟨_, rfl⟩
  split
  · exact ⟨_, rfl⟩
  split
  · exact ⟨_, rfl⟩
  · refine ⟨.adopted, ?_⟩
    dsimp only
    split
    · change (drainAll env none _).settle ++ _ = _
      rw [drainAll, settle_drain, settle_jumpToFloor]
    · change (jumpToFloor s chain now L).settle ++ _ = _
      rw [settle_jumpToFloor]

end Local

theorem View.settle_foldl {f : View → α → View} (xs : List α)
    (hf : ∀ x v, (f v x).settle = v.settle) (v : View) : (xs.foldl f v).settle = v.settle := by
  induction xs generalizing v with
  | nil => rfl
  | cons x xs ih => exact (ih _).trans (hf x v)

/-- Every item settles once, and only an append settles with an id. -/
theorem ItemStep.settles {item : QueueItem env} (h : ItemStep env exact item v v') :
    ∃ r, v'.settle = v.settle ++ [r] ∧ (¬ item.isAppend → r.appendedId = none) := by
  cases item with
  | append item =>
    obtain ⟨L, happ, rfl⟩ := h
    cases happ with
    | sealed => exact ⟨_, rfl, fun h => absurd rfl h⟩
    | overflow => exact ⟨_, rfl, fun h => absurd rfl h⟩
    | invalid => exact ⟨_, rfl, fun h => absurd rfl h⟩
    | appended => exact ⟨_, rfl, fun h => absurd rfl h⟩
  | external item =>
    obtain rfl := h
    obtain ⟨r, hr⟩ := Local.settle_ingest env (v.certs item.entry.topic) item.entry item.via v.now
      (v.localAt item.entry.stream)
    exact ⟨_, hr, fun _ => rfl⟩
  | sealStream T w =>
    obtain rfl := h
    refine ⟨.sealed, ?_, fun _ => rfl⟩
    change (Local.processSeal T w _).settle = _
    unfold Local.processSeal
    split <;> rfl
  | cert c =>
    obtain ⟨writers, n, -, rfl⟩ := h
    refine ⟨.cert n, congrArg (· ++ [_]) ?_, fun _ => rfl⟩
    exact View.settle_foldl writers (fun w v => Local.settle_certStream) _
  | directive d =>
    obtain rfl := h
    obtain ⟨r, hr⟩ := Local.settle_direct env (v.directives d.id) d v.now
      (v.localAt (d.topic, d.writer))
    rw [View.onStream, View.storeDirective_localAt]
    exact ⟨_, hr, fun _ => rfl⟩
  | adopt T cut =>
    obtain rfl := h
    refine ⟨.adopted, congrArg (· ++ [_]) ?_, fun _ => rfl⟩
    refine View.settle_foldl cut.rows (fun c v => ?_) v
    change (Local.adopt c.seq c.chain _).settle = _
    unfold Local.adopt
    split <;> rfl
  | retireTopic T known =>
    rcases h with ⟨e, rfl⟩ | ⟨-, n, rfl⟩
    · exact ⟨_, rfl, fun _ => rfl⟩
    · exact ⟨_, rfl, fun _ => rfl⟩
  | pruneTopic T olderThanMs keepNewest known =>
    obtain ⟨v₁, r, hthin, hr, rfl⟩ := h
    exact ⟨r, congrArg (· ++ [r]) hthin.settle, fun _ => hr⟩
  | pruneSuperseded T uptoRowid maxRows others known =>
    obtain ⟨v₁, r, hthin, hr, rfl⟩ := h
    exact ⟨r, congrArg (· ++ [r]) hthin.settle, fun _ => hr⟩
  | pruneAcked T o maxRows known =>
    obtain ⟨v₁, r, hthin, hr, rfl⟩ := h
    exact ⟨r, congrArg (· ++ [r]) hthin.settle, fun _ => hr⟩
  | adoptFloor T w s chain known =>
    obtain rfl := h
    by_cases helig : env.ackedRetention T = true
    · obtain ⟨r, hr⟩ := Local.settle_adoptFloor env s chain v.now (v.localAt (T, w))
      refine ⟨.adoptedFloor r, ?_, fun _ => rfl⟩
      unfold View.onStream
      dsimp only
      rw [if_pos helig]
      exact hr
    · refine ⟨.adoptedFloor .refused, ?_, fun _ => rfl⟩
      unfold View.onStream
      dsimp only
      rw [if_neg helig]
      rfl

end Seqscribe
