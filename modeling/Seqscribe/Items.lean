import Seqscribe.RetentionRefinement
import Seqscribe.RetireRefinement

namespace Seqscribe
set_option autoImplicit true

variable {env : Env} {E : SeqscribeError → Prop} {t : Txn}

/-- What a queue item does to the view of its transaction. Under `exact`, the counts that decide
whether a topic is empty are right. -/
def ItemStep (env : Env) (exact : Prop) (item : QueueItem env) (v v' : View) : Prop :=
  match item with
  | .append item => ∃ L,
      Local.Appended env item v.now (v.localAt (item.topic, env.writerId)) L ∧
        v' = v.withLocal (item.topic, env.writerId) L
  | .external item =>
      v' = v.onStream item.entry.stream
        (Local.ingest env (v.certs item.entry.topic) item.entry item.via v.now)
  | .sealStream T w => v' = v.onStream (T, w) (Local.processSeal T w)
  | .cert cert => ∃ writers n, v.Lists cert.topic writers ∧
      v' = (v.certify env cert writers).done (.cert n)
  | .directive d =>
      v' = (v.storeDirective d).onStream (d.topic, d.writer)
        (Local.direct env (v.directives d.id) d v.now)
  | .adopt T cut => v' = (v.adopt T cut.rows).done .adopted
  | .retireTopic T _ =>
      (∃ e, v' = v.done (.rejected e)) ∨
        (exact → v.Vacant T) ∧ ∃ n, v' = (v.retireTopic env T).done (.retired n)
  | .pruneTopic .. | .pruneSuperseded .. | .pruneAcked .. => v.Pruned v'
  | .adoptFloor T w s chain _ =>
      v' = v.onStream (T, w) fun L =>
        if env.ackedRetention T then L.adoptFloor env s chain v.now
        else L.done (.adoptedFloor .refused)

def QueueItem.isAppend : QueueItem env → Bool
  | .append _ => true
  | _ => false

/-- A retirement of a topic consults an exact count. -/
def QueueItem.CountExact (item : QueueItem env) (core : Core) : Prop :=
  match item with
  | .retireTopic T _ => core.CountExact T
  | _ => True

instance (item : QueueItem env) (core : Core) : Decidable (item.CountExact core) :=
  match item with
  | .retireTopic T _ => inferInstanceAs (Decidable (core.CountExact T))
  | .append .. | .external .. | .sealStream .. | .cert .. | .directive .. | .adopt ..
  | .pruneTopic .. | .pruneSuperseded .. | .pruneAcked .. | .adoptFloor .. => .isTrue trivial

theorem View.storeDirective_localAt (v : View) : (v.storeDirective d).localAt k = v.localAt k := by
  unfold storeDirective
  split <;> rfl

/-- Each item computes its step, or throws what `E` allows. -/
theorem processItem_spec (item : QueueItem env) (ht : Ready env t)
    (hB : ¬ E Store.uniqueViolation → ∀ k, ((t.view env).streams k).Bounded)
    (hE : item.isAppend → ∀ err, err.code = .ERR_ENTRY_ENCODING → E err)
    (hexact : exact → item.CountExact t.core) :
    Returns E (processItem env item) t fun _ t' =>
      Ready env t' ∧ ItemStep env exact item (t.view env) (t'.view env) := by
  cases item with
  | append item =>
    exact processAppend_spec item (ht.at _) (fun hne => hB hne _) (hE rfl) fun L t' hL h' =>
      ⟨h'.ready, L, hL, h'.view_eq⟩
  | external item =>
    exact processExternal_spec item (ht.at _) (fun hne => hB hne _) fun t' h' =>
      ⟨h'.ready, h'.view_eq⟩
  | sealStream T w => exact processSeal_spec (ht.at _) fun t' h' => ⟨h'.ready, h'.view_eq⟩
  | cert cert =>
    exact processCert_spec ht fun writers n t' hlists ht' hv => ⟨ht', writers, n, hlists, hv⟩
  | directive d =>
    refine processDirective_spec (ht.at _) fun t' h' => ⟨h'.ready, h'.view_eq.trans ?_⟩
    rw [View.onStream, View.storeDirective_localAt]
  | adopt T cut => exact processAdopt_spec ht fun t' ht' hv => ⟨ht', hv⟩
  | retireTopic T known =>
    exact processRetireTopic_spec ht known (fun e t' ht' hv => ⟨ht', .inl ⟨e, hv⟩⟩)
      fun n t' ht' hv hvacant => ⟨ht', .inr ⟨fun he => hvacant (hexact he), n, hv⟩⟩
  | pruneTopic T olderThanMs keepNewest known =>
    exact processPruneTopic_spec (.refl ht) known fun t' ht' hv => ⟨ht', hv⟩
  | pruneSuperseded T uptoRowid maxRows others known =>
    exact processPruneSuperseded_spec (.refl ht) known fun t' ht' hv => ⟨ht', hv⟩
  | pruneAcked T o maxRows known =>
    exact processPruneAcked_spec (.refl ht) known fun t' ht' hv => ⟨ht', hv⟩
  | adoptFloor T w s chain known =>
    refine processAdoptFloor_spec (ht.at _) known (fun hne => hB hne _) fun t' h' => ⟨h'.ready, ?_⟩
    rw [h'.view_eq]
    rfl

end Seqscribe
