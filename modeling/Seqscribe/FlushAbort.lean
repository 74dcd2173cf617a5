import Seqscribe.Upkeep
import Seqscribe.AuthorClock

namespace Seqscribe
set_option autoImplicit true

/-! What an aborted flush leaves in memory. -/

/-- The ring tails that an abort would put back, and the defined topics. -/
def Txn.undone (t : Txn) : (Topic → Option (List LogEntry)) × List Topic :=
  (fun T => (t.ringUndo T).getD (t.core.rings T), t.core.defined)

/-- The journal has what the ring tails were. -/
def Txn.Undoes (rings : (Topic → Option (List LogEntry)) × List Topic) (t : Txn) : Prop :=
  t.undone = rings

namespace Undoes

variable {env : Env} {rings : (Topic → Option (List LogEntry)) × List Topic}

theorem modify (h : ∀ t : Txn, (f t).undone = t.undone) :
    Keeps (Txn.Undoes rings) (Txn.Undoes rings) (modify f : LogM PUnit) :=
  .modify fun t ht => (h t).trans ht

theorem throw (e : SeqscribeError) :
    Keeps (Txn.Undoes rings) (Txn.Undoes rings) (MonadExcept.throw e : LogM α) :=
  .throw (fun _ ht => ht) e

theorem storageCall : Keeps (Txn.Undoes rings) (Txn.Undoes rings) storageCall := by
  apply Keeps.bind .get
  intro t
  split
  next => exact .pure ()
  next => exact throw _
  next => exact modify fun _ => rfl

theorem query (f : Db → α) : Keeps (Txn.Undoes rings) (Txn.Undoes rings) (query f) :=
  .bind storageCall fun _ => .bind .get fun _ => .pure _

theorem execute (f : Db → Db) : Keeps (Txn.Undoes rings) (Txn.Undoes rings) (execute f) :=
  .bind storageCall fun _ => modify fun _ => rfl

theorem cacheHead (k : StreamId) (head : Option WriterRow) :
    Keeps (Txn.Undoes rings) (Txn.Undoes rings) (cacheHead k head) := modify fun _ => rfl

theorem getStream (topic : Topic) (writer : WriterId) :
    Keeps (Txn.Undoes rings) (Txn.Undoes rings) (getStream env topic writer) := by
  apply Keeps.bind .get
  intro t
  split
  next => exact .pure _
  next => exact .bind (query _) fun _ => .bind (cacheHead _ _) fun _ => .pure _

theorem saveHead (head : WriterRow) :
    Keeps (Txn.Undoes rings) (Txn.Undoes rings) (saveHead env head) := by
  refine .bind (cacheHead _ _) fun _ => .bind (execute _) fun _ => .bind .get fun t => ?_
  split
  next => exact .pure ()
  next =>
    exact .bind (.bind (.bind .get fun _ => .pure _) fun _ => .pure _) fun _ => modify fun _ => rfl

theorem insertEntry (e : LogEntry) :
    Keeps (Txn.Undoes rings) (Txn.Undoes rings) (Store.insertEntry e) := by
  refine .bind storageCall fun _ => .bind .get fun t => ?_
  dsimp only
  split
  next => exact throw _
  next => exact .bind (modify fun _ => rfl) fun _ => .pure _

theorem dropLogCount (topic : Topic) :
    Keeps (Txn.Undoes rings) (Txn.Undoes rings) (Store.dropLogCount topic) := modify fun _ => rfl

/-- A nested transaction takes the database back, and nothing else. -/
theorem transaction {body : LogM α} (h : Keeps (Txn.Undoes rings) (Txn.Undoes rings) body) :
    Keeps (Txn.Undoes rings) (Txn.Undoes rings) (transaction body) := by
  constructor
  intro t ht
  have hbody := h.runs t ht
  rw [Runs] at hbody ⊢
  rw [Seqscribe.transaction]
  cases hrun : body t with
  | ok a t' =>
    rw [hrun] at hbody
    exact hbody
  | error e t' =>
    rw [hrun] at hbody
    exact hbody

theorem deleteBatches (fuel total : Nat) : Keeps (Txn.Undoes rings) (Txn.Undoes rings)
    (Store.deleteBatches topic belowRowid hlcBefore fuel total) := by
  induction fuel generalizing total with
  | zero => exact .pure _
  | succ fuel ih =>
    refine .bind (query _) fun rows => .ite (fun _ => .pure _) fun _ => ?_
    refine .bind (transaction (.forM fun _ _ => execute _)) fun _ => ?_
    exact .ite (fun _ => .pure _) fun _ => ih _

theorem handlers (env : Env) (rings : (Topic → Option (List LogEntry)) × List Topic) :
    Handlers env (fun _ => True) True True (Txn.Undoes rings) (Txn.Undoes rings) where
  fails := fun _ ht => ht
  kept := fun t t' hkept ht => (congrArg (fun K : Txn.Kept => (K.rings, K.defined)) hkept).trans ht
  getStream := fun topic writer _ => (getStream topic writer).imp fun _ _ => trivial
  saveHead := saveHead
  insertEntry := fun _ e _ => insertEntry e
  deleteLogRange := fun _ topic _ _ _ => .bind (execute _) fun _ => dropLogCount topic
  deleteLogRowsUpToRowid := by
    intro _ topic below before _
    refine .bind .get fun _ => .bind (deleteBatches _ _) fun _ => .ite (fun _ => ?_) fun _ => .pure _
    exact .bind (dropLogCount topic) fun _ => .pure _
  deleteLogRowids := fun _ topic rowids _ => .bind (.forM fun _ _ => execute _) fun _ =>
    .ite (fun _ => dropLogCount topic) fun _ => .pure _
  deleteStreamPrefix := fun _ topic _ _ _ =>
    .bind (execute _) fun _ => .bind (execute _) fun _ => dropLogCount topic
  ackForget := fun _ _ => .bind (execute _) fun _ => execute _

theorem logCount (topic : Topic) :
    Keeps (Txn.Undoes rings) (Txn.Undoes rings) (Store.logCount topic) := by
  apply Keeps.bind .get
  intro t
  split
  next => exact .pure _
  next => exact .bind (query _) fun _ => .bind (modify fun _ => rfl) fun _ => .pure _

theorem processRetireTopic (topic : Topic) :
    Keeps (Txn.Undoes rings) (Txn.Undoes rings) (processRetireTopic env topic) := by
  have hH := handlers env rings
  refine .bind (hH.topicPolicy topic) fun policy => .ite (fun _ => hH.done _) fun _ =>
    .ite (fun _ => hH.done _) fun _ => .bind (logCount topic) fun n =>
      .ite (fun _ => hH.done _) fun _ => .bind .get fun t => .ite (fun _ => hH.done _) fun _ =>
      .bind .get fun t => .ite (fun _ => hH.done _) fun _ => ?_
  refine .bind (query _) fun writers => .bind (.forM fun w _ => ?_) fun _ => ?_
  · exact .bind (execute _) fun _ => cacheHead _ _
  · exact hH.replaceRing _ _ fun _ => .bind (modify fun _ => rfl) fun _ => hH.done _

/-- Every item puts in the journal what it changes. -/
theorem processQueued (q : Queued env) :
    Keeps (Txn.Undoes rings) (Txn.Undoes rings) (processQueued env q) := by
  refine .bind (modify fun _ => rfl) fun _ => ?_
  apply (handlers env rings).processItem q.2 trivial (fun _ => trivial) fun _ => trivial
  · exact fun item _ seq => .stampCausal (fun _ _ ht => ht) item seq
  · exact fun cert _ => .bind (execute _) fun _ => modify fun _ => rfl
  · exact fun topic _ _ => processRetireTopic topic

theorem flushBody (batch : List (Queued env)) :
    Keeps (Txn.Undoes rings) (Txn.Undoes rings) (flushBody env batch) := by
  refine .bind (.forM fun q _ => processQueued q) fun _ => .bind .get fun _ =>
    .bind (execute _) fun _ => .bind .get fun _ => .ite (fun _ => throw _) fun _ => .pure _

end Undoes

/-- A defined topic in the HAVE vectors. -/
def showTopic (env : Env) (certs : Topic → Option FinalityCert) (out : HaveVectors)
    (topic : Topic) : Except SeqscribeError HaveVectors :=
  match env.topics topic with
  | none => .error ⟨.ERR_UNKNOWN_TOPIC, topic⟩
  | some policy =>
    if policy.replication ≠ .fullSync then .ok out
    else
      let topicVec := topicVecOf out topic
      match certs topic with
      | some cert => .ok (out.upsert { topicVec with fgen := some cert.generation })
      | none => .ok (out.upsert topicVec)

/-- The HAVE vectors of a store, from scratch. -/
def haveVectorsOf (env : Env) (db : Db) (defined : List Topic) (now : Nat) :
    Except SeqscribeError HaveVectors :=
  let floor : Int := now - env.constants.TOMBSTONE_RETAIN_MS
  let heads := db.sqWriters.rows.foldl
    (fun out w => out.upsert (applyHeadToVec (topicVecOf out w.topic) w floor)) .empty
  defined.foldlM (showTopic env db.sqFinality.get) heads

/-- What a computation returns outside any transaction. -/
def Core.answer (core : Core) (m : LogM α) (now : Nat) : Except SeqscribeError α :=
  match m { Txn.start core none with ambient := { now := now } } with
  | .ok a _ => .ok a
  | .error e _ => .error e

/-- What is observable of the memory of a core. -/
structure Core.Observed where
  heads : StreamId → Except SeqscribeError WriterRow
  certs : Topic → Except SeqscribeError (Option FinalityCert)
  floors : StreamId → Except SeqscribeError (Option Floor)
  hlcState : HlcState
  recoveries : StreamId → Option RecoveryTarget
  rings : Topic → Option (List LogEntry)
  scopeTails : String → Option (WriterId × Nat)

def Core.observed (env : Env) (core : Core) : Core.Observed where
  heads := fun k => core.answer (getStream env k.1 k.2) 0
  certs := fun topic => core.answer (getCert topic) 0
  floors := fun k => core.answer (floorOf k.1 k.2) 0
  hlcState := core.hlcState
  recoveries := core.recoveries
  rings := core.rings
  scopeTails := core.scopeTails

section
variable {env : Env} {core core' : Core} {t : Txn}

/-- What returns without a fault is the answer. -/
theorem Core.answer_of_returns {m : LogM α} {a : α}
    (h : Returns (fun _ => False) m { Txn.start core none with ambient := { now := now } }
      fun b _ => b = a) : core.answer m now = .ok a := by
  obtain ⟨b, t', hrun, -, rfl⟩ := h.ends rfl
  rw [answer, hrun]

/-- Coherent caches answer what the store says. -/
theorem Core.observed_eq (h : core.Coherent env) : core.observed env =
    { heads := fun k => .ok (core.head env k)
      certs := fun topic => .ok (core.db.sqFinality.get topic)
      floors := fun k => .ok ((core.db.sqFloors.get k).map FloorRow.floor)
      hlcState := core.hlcState
      recoveries := core.recoveries
      rings := core.rings
      scopeTails := core.scopeTails } := by
  have hready : Ready env { Txn.start core none with ambient := { now := 0 } } := ⟨h⟩
  rw [observed, Observed.mk.injEq]
  refine ⟨funext fun k => ?_, funext fun topic => ?_, funext fun k => ?_, rfl, rfl, rfl, rfl⟩
  · exact answer_of_returns (getStream_spec (hready.at k) fun _ _ => rfl)
  · exact answer_of_returns (getCert_spec (hready.at ("", "")) fun _ _ => rfl)
  · exact answer_of_returns (floorOf_spec (hready.at k) fun _ _ => rfl)

/-- The certificates of the defined topics are read through their cache. -/
theorem vectors_loop (defined : List Topic) (out : HaveVectors) (ht : Ready env t)
    (hfault : t.fault = none) (hcerts : t.core.db.sqFinality.get = certs) :
    Runs (defined.foldlM (fun (out : HaveVectors) topic => do
        let policy ← topicPolicy env topic
        if policy.replication ≠ .fullSync then return out
        let topicVec := topicVecOf out topic
        match ← getCert topic with
        | some cert => return out.upsert { topicVec with fgen := some cert.generation }
        | none => return out.upsert topicVec) out) t
      (fun out' _ => defined.foldlM (showTopic env certs) out = .ok out')
      fun e _ => defined.foldlM (showTopic env certs) out = .error e := by
  induction defined generalizing out t with
  | nil => exact Runs.pure rfl
  | cons topic defined ih =>
    rw [List.foldlM_cons, List.foldlM_cons]
    cases hp : env.topics topic with
    | none =>
      have hshow : showTopic env certs out topic = .error ⟨.ERR_UNKNOWN_TOPIC, topic⟩ := by
        rw [showTopic, hp]
      rw [hshow]
      refine .bind (.bind (?_ : Runs (topicPolicy env topic) _ _ _))
      rw [topicPolicy, hp]
      exact .throw rfl
    | some policy =>
      refine .bind (.bind (?_ : Runs (topicPolicy env topic) _ _ _))
      rw [topicPolicy, hp]
      refine .pure ?_
      dsimp only
      split
      next hreplication =>
        have hshow : showTopic env certs out topic = .ok out := by
          rw [showTopic, hp]
          exact if_pos hreplication
        rw [hshow]
        exact .pure (ih out ht hfault hcerts)
      next hreplication =>
        obtain ⟨cert, t', hrun, hfault', hcert, ht', hcerts'⟩ := Returns.ends
          (getCert_spec (T := topic) (ht.at ("", ""))
            (Q := fun cert t' => cert = certs topic ∧ Ready env t' ∧
              t'.core.db.sqFinality.get = certs)
            fun t' h => ⟨congrFun hcerts topic, h.ready, h.certs.trans hcerts⟩) hfault
        have hshow : showTopic env certs out topic = .ok (match certs topic with
            | some cert => out.upsert { topicVecOf out topic with fgen := some cert.generation }
            | none => out.upsert (topicVecOf out topic)) := by
          rw [showTopic, hp]
          dsimp only
          rw [if_neg hreplication]
          cases certs topic with
          | some cert => rfl
          | none => rfl
        rw [hshow]
        refine .bind ?_
        rw [Runs, hrun, hcert]
        dsimp only
        cases certs topic with
        | some cert => exact .pure (ih _ ht' hfault' hcerts')
        | none => exact .pure (ih _ ht' hfault' hcerts')

/-- Without a cache the HAVE vectors are computed from the store. -/
theorem vectors_answer (h : core.Coherent env) (hcache : core.vectorsCache = none) (now : Nat) :
    core.answer (vectors env) now = haveVectorsOf env core.db core.defined now := by
  have ht : Ready env { Txn.start core none with ambient := { now := now } } := ⟨h⟩
  have hloop : Runs (vectors env) { Txn.start core none with ambient := { now := now } }
      (fun out _ => haveVectorsOf env core.db core.defined now = .ok out)
      fun e _ => haveVectorsOf env core.db core.defined now = .error e := by
    refine .bind (.get ?_)
    dsimp only [Txn.start]
    rw [hcache]
    refine .bind (.bind (.bind (.get (.pure (.pure ?_)))))
    refine .bind (.bind (.bind (.get (.pure (.bind (.get (.pure ?_)))))))
    refine .bind (.get (.bind (Runs.mono (vectors_loop core.defined _ ht rfl rfl) ?_ ?_)))
    · exact fun out _ hout => .bind (.modify (.pure hout))
    · exact fun e _ he => he
  rw [Core.answer]
  cases hrun : vectors env { Txn.start core none with ambient := { now := now } } with
  | ok out t' => exact (hloop.of_ok hrun).symm
  | error e t' => exact (hloop.of_error hrun).symm

/-- The core after a flush that failed. -/
theorem flush_error (hbatch : batch ≠ [])
    (h : flushBody env batch (Txn.start core fault) = .error e t) :
    flush env batch fault core =
      { core := restoreAborted core { t with core.db := core.db }
        settle := batch.map fun _ => .rejected e } := by
  have hne : ¬ batch.isEmpty = true := fun hempty => hbatch (List.isEmpty_iff.1 hempty)
  rw [flush, if_neg hne, transaction, h]
  rfl

theorem flushBody_undone (h : flushBody env batch (Txn.start core fault) = .error e t) :
    t.undone = (core.rings, core.defined) :=
  ((Undoes.flushBody batch).runs (Txn.start core fault) rfl).of_error h

/-- What was observable before a flush is observable after its abort. -/
theorem restoreAborted_observed (hcoh : core.Coherent env)
    (h : flushBody env batch (Txn.start core fault) = .error e t) :
    (restoreAborted core { t with core.db := core.db }).observed env = core.observed env := by
  rw [Core.observed_eq (restoreAborted_coherent core _), Core.observed_eq hcoh]
  rw [Core.Observed.mk.injEq]
  exact ⟨rfl, rfl, rfl, rfl, rfl, congrArg Prod.fst (flushBody_undone h), rfl⟩

end

/-- A flush that fails at any storage call, or at its commit, leaves the database, what is
observable of the memory and the HAVE vectors as they were. It rejects each item of its batch once,
delivers nothing and reports nothing. -/
theorem flush_abort_atomic (is : List (Input env)) (batch : List (Queued env)) (fault : Option Nat)
    (hbatch : batch ≠ [])
    (h : flushBody env batch (Txn.start (runCore env Core.init is) fault) = .error e t) :
    let core := runCore env Core.init is
    let o := flush env batch fault core
    o.core.db = core.db ∧ o.core.observed env = core.observed env ∧
      (∀ now, o.core.answer (vectors env) now = haveVectorsOf env core.db core.defined now) ∧
      o.settle = (batch.map fun _ => .rejected e) ∧ o.applied = [] ∧ o.anomalies = [] := by
  intro core o
  have ho : o = _ := flush_error hbatch h
  have hdefined : t.core.defined = core.defined := congrArg Prod.snd (flushBody_undone h)
  rw [ho]
  refine ⟨rfl, restoreAborted_observed (runCore_coherent is) h, fun now => ?_, rfl, rfl, rfl⟩
  rw [vectors_answer (restoreAborted_coherent core _) rfl, ← hdefined]
  rfl

/-- The first storage call of a flush that appends fails. -/
theorem flush_abort_atomic_of_append :
    let core := runCore (hostEnv "w") Core.init []
    let batch : List (Queued (hostEnv "w")) := [({ now := 1 }, hostAppend "w")]
    let o := flush (hostEnv "w") batch (some 0) core
    o.core.db = core.db ∧ o.core.observed (hostEnv "w") = core.observed (hostEnv "w") ∧
      (∀ now, o.core.answer (vectors (hostEnv "w")) now =
        haveVectorsOf (hostEnv "w") core.db core.defined now) ∧
      o.settle = [.rejected storageFailure] ∧ o.applied = [] ∧ o.anomalies = [] := by
  cases h : flushBody (hostEnv "w") [({ now := 1 }, hostAppend "w")]
      (Txn.start (runCore (hostEnv "w") Core.init []) (some 0)) with
  | ok _ t =>
    have hok : (flushBody (hostEnv "w") [({ now := 1 }, hostAppend "w")]
      (Txn.start (runCore (hostEnv "w") Core.init []) (some 0))) = .error storageFailure _ := rfl
    rw [hok] at h
    nomatch h
  | error e t =>
    have he : e = storageFailure := by
      injection h with he
      exact he.symm
    have habort := flush_abort_atomic [] [({ now := 1 }, hostAppend "w")] (some 0) (by simp) h
    rw [he] at habort
    exact habort

end Seqscribe
