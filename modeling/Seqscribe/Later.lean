import Seqscribe.Run

namespace Seqscribe
set_option autoImplicit true

/-! The transactions of a run, in the middle of their batches. -/

variable {env : Env} {t : Txn}

/-- A transaction in the middle of a batch, on a core that a run reaches. -/
def MidBatch (env : Env) (t : Txn) : Prop :=
  ∃ (is : List (Input env)) (batch : List (Queued env)) (fault : Option Nat),
    forM batch (processQueued env) (Txn.start (runCore env Core.init is) fault) = .ok () t

theorem MidBatch.ready (h : MidBatch env t) : Ready env t := by
  obtain ⟨is, batch, fault, hrun⟩ := h
  have hbatch : Returns (Aborts False True) (forM batch (processQueued env))
      (Txn.start (runCore env Core.init is) fault) fun _ t => Ready env t ∧
        BatchSteps env False (fun _ _ => True) batch _ (t.view env) :=
    batch_spec True batch ⟨runCore_coherent is⟩ False.elim (.of_forall fun _ _ _ => trivial)
      fun _ _ _ => trivial
  exact (hbatch.of_ok hrun).2.1

/-- The end of a flush: the clock is written, and the transaction commits. -/
def finishFlush : LogM Unit := do
  Store.metaSetHlc (← get).core.hlcState
  commit

theorem flushBody_eq (batch : List (Queued env)) :
    flushBody env batch = forM batch (processQueued env) >>= fun _ => finishFlush := rfl

/-- The transactions that come after one: later in its flush, and in any flush after it. Every item
on the way finds a state where `Q` holds. -/
inductive Later (env : Env) (Q : Queued env → View → Prop) (t : Txn) : Txn → Prop
  | now : Later env Q t t
  | item (h : Later env Q t u) (hQ : Q q (u.view env)) (hrun : processQueued env q u = .ok () u') :
      Later env Q t u'
  | flushed (h : Later env Q t u) (hrun : finishFlush u = .ok () u') (is : List (Input env))
      (hQ : RunEvery env (fun q t => Q q (t.view env)) u'.core is) (fault : Option Nat) :
      Later env Q t (Txn.start (runCore env u'.core is) fault)

/-- What every item preserves where `Q` holds, and thinning and lost recoveries preserve, holds ever
after. -/
theorem Later.preserves {Q : Queued env → View → Prop} {I : View → Prop} (h : Later env Q t u) (ht : Ready env t)
    (hI : I (t.view env)) (hsame : ∀ v v', v.Same v' → I v → I v')
    (hitem : ∀ q v v', I v → Q q v → ItemStep env False q.2 { v with now := q.1.now } v' → I v')
    (hthin : ∀ v v', v.Thinned v' → I v → I v')
    (hseek : ∀ v v', v'.certs = v.certs → v'.directives = v.directives →
      (∀ k, v'.streams k = (v.streams k).noteUnavailable ∨ v'.streams k = v.streams k ∨
        v'.streams k = (v.streams k).setRecovery none) → I v → I v') :
    Ready env u ∧ I (u.view env) := by
  induction h with
  | now => exact ⟨ht, hI⟩
  | @item u q u' _ hQ hrun ih =>
    obtain ⟨hu, hI⟩ := ih
    have hstep := processQueued_spec False True q hu False.elim fun _ => trivial
    obtain ⟨-, hu', hstep⟩ := hstep.of_ok hrun
    exact ⟨hu', hitem q _ _ hI hQ hstep⟩
  | @flushed u u' _ hrun is hQ fault ih =>
    obtain ⟨hu, hI⟩ := ih
    have hempty : Returns (fun _ => False) (forM [] (processQueued env)) u fun _ t' =>
        Ready env t' ∧ I (t'.view env) := .pure ⟨hu, hI⟩
    have hbody := flushBody_ends hempty
    obtain ⟨hu', hI'⟩ := hbody.of_ok (show flushBody env [] u = .ok () u' from hrun)
    have hcore : I (u'.core.view env) := hsame (u'.view env) _ ⟨rfl, rfl, rfl⟩ hI'
    have hend := runCore_preserves False Q (I := I) hu'.coherent False.elim hQ hcore
      fun i _ v v' hv hI hcore => (hcore.preserves hv hI hsame
        (fun _ _ _ q _ v v' _ => hitem q v v') hthin hseek).2
    exact ⟨⟨hend.1⟩, hsame _ _ ⟨rfl, rfl, rfl⟩ hend.2.2⟩

/-- What every input preserves where its items meet `Q` and it meets `R` itself, a run preserves. -/
theorem runCore_induct {core : Core} {Q : Queued env → View → Prop} {R : Input env → View → Prop}
    {I : View → Prop} {is : List (Input env)} (hcoh : core.Coherent env)
    (hQ : RunEvery env (fun q t => Q q (t.view env)) core is)
    (hR : ∀ done i, done ++ [i] <+: is → R i ((runCore env core done).view env))
    (hI : I (core.view env))
    (hstep : ∀ i v v', I v → R i v → CoreStep env False Q i v v' → I v') :
    I ((runCore env core is).view env) := by
  induction is generalizing core with
  | nil => exact hI
  | cons i is ih =>
    obtain ⟨hcoh', hcore⟩ := step_spec False Q i hcoh False.elim hQ.1
    have hi : R i (core.view env) := hR [] i (List.prefix_append [i] is)
    apply ih hcoh' hQ.2 _ (hstep i _ _ hI hi hcore)
    intro done i' hdone
    exact hR (i :: done) i' ((List.prefix_cons_inj i).2 hdone)

end Seqscribe
