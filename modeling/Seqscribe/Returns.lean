import Seqscribe.Runs
import Seqscribe.Store

namespace Seqscribe
set_option autoImplicit true

/-- The computation returns, and the value and the final state meet `Q`; or it throws an error that
`E` allows, or the storage failure of a pending fault. -/
def Returns (E : SeqscribeError → Prop) (m : LogM α) (t : Txn) (Q : α → Txn → Prop) : Prop :=
  Runs m t (fun a t' => t'.fault.isSome = t.fault.isSome ∧ Q a t')
    fun e _ => t.fault.isSome ∧ e = storageFailure ∨ E e

variable {E : SeqscribeError → Prop} {t : Txn}

namespace Returns

theorem pure {Q : α → Txn → Prop} (h : Q a t) : Returns E (Pure.pure a) t Q := ⟨rfl, h⟩

theorem throw {Q : α → Txn → Prop} (h : E e) : Returns E (MonadExcept.throw e : LogM α) t Q :=
  .inr h

theorem bind {x : LogM α} {f : α → LogM β}
    (h : Returns E x t fun a t' => Returns E (f a) t' Q) : Returns E (x >>= f) t Q := by
  refine Runs.bind (h.mono (fun a t' hx => ?_) fun _ _ he => he)
  obtain ⟨hfault, hf⟩ := hx
  refine hf.mono (fun b t'' hb => ⟨hb.1.trans hfault, hb.2⟩) fun e t'' he => ?_
  rwa [hfault] at he

theorem ite [Decidable c] {x y : LogM α} (hx : c → Returns E x t Q) (hy : ¬ c → Returns E y t Q) :
    Returns E (if c then x else y) t Q := by
  split
  · next hc => exact hx hc
  · next hc => exact hy hc

theorem get {Q : Txn → Txn → Prop} (h : Q t t) : Returns E MonadState.get t Q := ⟨rfl, h⟩

theorem modify {Q : PUnit → Txn → Prop} (hfault : (f t).fault.isSome = t.fault.isSome)
    (h : Q ⟨⟩ (f t)) : Returns E (modify f) t Q :=
  ⟨hfault, h⟩

theorem mono {x : LogM α} (h : Returns E x t P) (hPQ : ∀ a t', P a t' → Q a t') :
    Returns E x t Q :=
  Runs.mono h (fun a t' hP => ⟨hP.1, hPQ a t' hP.2⟩) fun _ _ he => he

theorem forM {xs : List α} {f : α → LogM PUnit} (I : List α → Txn → Prop) (h0 : I xs t)
    (hstep : ∀ x rest t', I (x :: rest) t' → Returns E (f x) t' fun _ => I rest) :
    Returns E (ForM.forM xs f) t fun _ => I [] := by
  refine Runs.mono (Runs.forM (fun rest t' => t'.fault.isSome = t.fault.isSome ∧ I rest t')
    ⟨rfl, h0⟩ ?_) (fun _ _ h => h) fun _ _ h => h
  rintro x rest t' ⟨hfault, ht'⟩
  refine Runs.mono (hstep x rest t' ht') (fun _ t'' h => ⟨h.1.trans hfault, h.2⟩) fun e _ he => ?_
  rwa [hfault] at he

theorem foldlM {xs : List α} {f : β → α → LogM β} (I : List α → β → Txn → Prop)
    (h0 : I xs b t)
    (hstep : ∀ x rest b t', I (x :: rest) b t' → Returns E (f b x) t' fun b' => I rest b') :
    Returns E (xs.foldlM f b) t fun b' => I [] b' := by
  refine Runs.mono (Runs.foldlM (fun rest b t' => t'.fault.isSome = t.fault.isSome ∧ I rest b t')
    ⟨rfl, h0⟩ ?_) (fun _ _ h => h) fun _ _ h => h
  rintro x rest b t' ⟨hfault, ht'⟩
  refine Runs.mono (hstep x rest b t' ht') (fun _ t'' h => ⟨h.1.trans hfault, h.2⟩) fun e _ he => ?_
  rwa [hfault] at he

theorem with_eq {m : LogM α} (h : Returns E m t Q) :
    Returns E m t fun a t' => m t = .ok a t' ∧ Q a t' := by
  unfold Returns Runs at *
  cases hm : m t <;> rw [hm] at h
  · exact ⟨h.1, rfl, h.2⟩
  · exact h

/-- Without a fault, a computation that may not throw ends. -/
theorem ends {m : LogM α} (h : Returns (fun _ => False) m t Q) (hfault : t.fault = none) :
    ∃ a t', m t = .ok a t' ∧ t'.fault = none ∧ Q a t' := by
  have hrun := h.with_eq
  rw [Returns, Runs] at hrun
  split at hrun
  next a t' hm =>
    rw [hfault] at hrun
    exact ⟨a, t', hm, Option.not_isSome_iff_eq_none.1 (Bool.eq_false_iff.1 hrun.1), hrun.2.2⟩
  next =>
    rw [hfault] at hrun
    exact hrun.elim (fun h => by cases h.1) False.elim

/-- A transaction that returns keeps what its body wrote. -/
theorem transaction {body : LogM α} (h : Returns E body t Q) : Returns E (transaction body) t Q := by
  unfold Returns Runs Seqscribe.transaction at *
  cases hb : body t <;> rw [hb] at h <;> exact h

end Returns

theorem storageCall_spec {Q : Unit → Txn → Prop}
    (hQ : ∀ fault, fault.isSome = t.fault.isSome → Q () { t with fault := fault }) :
    Returns E storageCall t Q := by
  refine Runs.bind (Runs.get ?_)
  cases hf : t.fault with
  | none => exact ⟨congrArg Option.isSome hf, hQ t.fault rfl⟩
  | some n =>
    cases n with
    | zero => exact .inl ⟨rfl, rfl⟩
    | succ n => exact ⟨rfl, hQ (some n) (by rw [hf]; rfl)⟩

/-! Where each call ends, with what it leaves. -/

theorem storageCall_runs {P : Unit → Txn → Prop} {F : SeqscribeError → Txn → Prop}
    (hP : ∀ fault, P () { t with fault := fault }) (hF : ∀ e, F e t) : Runs storageCall t P F := by
  refine .bind (.get ?_)
  cases t.fault with
  | none => exact hP t.fault
  | some n =>
    cases n with
    | zero => exact hF _
    | succ n => exact hP (some n)

theorem query_runs {f : Db → α} {F : SeqscribeError → Txn → Prop}
    (hP : ∀ fault, P (f t.core.db) { t with fault := fault }) (hF : ∀ e, F e t) :
    Runs (query f) t P F :=
  .bind (storageCall_runs (fun fault => .bind (.get (.pure (hP fault)))) hF)

theorem execute_runs {f : Db → Db} {F : SeqscribeError → Txn → Prop}
    (hP : ∀ fault, P () { t with core.db := f t.core.db, fault := fault }) (hF : ∀ e, F e t) :
    Runs (execute f) t P F :=
  .bind (storageCall_runs (fun fault => .modify (hP fault)) hF)

end Seqscribe
