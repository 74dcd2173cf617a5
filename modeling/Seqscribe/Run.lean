import Seqscribe.DirectRefinement
import Seqscribe.ItemMoves

namespace Seqscribe
set_option autoImplicit true

variable {env : Env} {core : Core} {exact appends : Prop} {Q : Queued env → View → Prop}
  {v v' : View}

/-- The view of a core between operations, without outputs. -/
def Core.view (env : Env) (core : Core) : View := (Txn.start core none).view env

/-- A view whose transaction has handed out its outputs. -/
def View.settled (v : View) : View :=
  { v with settle := [], applied := [], anomalies := [], now := 0 }

/-- The items of a batch take their steps in order, each at its own time and where `Q` holds. -/
def BatchSteps (env : Env) (exact : Prop) (Q : Queued env → View → Prop) :
    List (Queued env) → View → View → Prop
  | [], v, v' => v' = v
  | q :: rest, v, v' => Q q v ∧ ∃ v₁,
    ItemStep env exact q.2 { v with now := q.1.now } v₁ ∧ BatchSteps env exact Q rest v₁ v'

/-- Every item of a batch finds a transaction that meets `P`. -/
def BatchEvery (env : Env) (P : Queued env → Txn → Prop) : List (Queued env) → Txn → Prop
  | [], _ => True
  | q :: rest, t => P q t ∧
    match processQueued env q t with
    | .ok _ t' => BatchEvery env P rest t'
    | .error _ _ => True

theorem BatchEvery.of_forall {P : Queued env → Txn → Prop} (h : ∀ q ∈ batch, ∀ t, P q t) :
    BatchEvery env P batch t := by
  induction batch generalizing t with
  | nil => trivial
  | cons q rest ih =>
    refine ⟨h q List.mem_cons_self t, ?_⟩
    split
    · exact ih fun q' hq' => h q' (List.mem_cons_of_mem _ hq')
    · trivial

instance BatchEvery.decidable {P : Queued env → Txn → Prop} [∀ q t, Decidable (P q t)] :
    ∀ batch t, Decidable (BatchEvery env P batch t)
  | [], _ => .isTrue trivial
  | q :: rest, t =>
    @instDecidableAnd _ _ inferInstance <|
      match processQueued env q t with
      | .ok _ t' => BatchEvery.decidable rest t'
      | .error _ _ => .isTrue trivial

/-- Every retirement of a topic in a batch consults an exact count. -/
def CountsExact (env : Env) : List (Queued env) → Txn → Prop :=
  BatchEvery env fun q t => q.2.CountExact t.core

theorem Txn.view_sound (t : Txn) (hB : ∀ k, (t.core.stream env k).Bounded)
    (hL : ∀ k, (t.core.stream env k).Listed) : (t.view env).Sound := by
  intro k
  refine ⟨t.core.head_stream env k, fun s e hrow => ?_, hB k, hL k⟩
  obtain ⟨r, hr, rfl⟩ := Option.map_eq_some_iff.1 hrow
  rw [show ((t.view env).streams k).head.topic = k.1 from t.core.head_topic env k,
    show ((t.view env).streams k).head.writer = k.2 from t.core.head_writer env k]
  exact log_id_of_get hr

/-- What a flush can throw by itself: an encoding error of an append, or, without exact counts, a
violation of the uniqueness of log ids. -/
def Aborts (exact appends : Prop) (e : SeqscribeError) : Prop :=
  appends ∧ e.code = .ERR_ENTRY_ENCODING ∨ ¬ exact ∧ e = Store.uniqueViolation

theorem not_aborts (h : ¬ Aborts exact appends Store.uniqueViolation) : exact :=
  by_contra fun hexact => h (.inr ⟨hexact, rfl⟩)

theorem processQueued_spec (exact appends : Prop) {t : Txn} (q : Queued env) (ht : Ready env t)
    (hs : exact → (t.view env).Sound ∧ q.2.CountExact t.core) (happ : q.2.isAppend → appends) :
    Returns (Aborts exact appends) (processQueued env q) t fun _ t' =>
      Ready env t' ∧ ItemStep env exact q.2 { t.view env with now := q.1.now } (t'.view env) :=
  .bind (.modify rfl (processItem_spec (t := { t with ambient := q.1 }) q.2 ⟨ht.coherent⟩
    (fun hne k => ((hs (not_aborts hne)).1 k).bounded) (fun hi _ he => .inl ⟨happ hi, he⟩)
    fun he => (hs he).2))

/-- A batch takes the steps of its items. -/
theorem batch_spec {t : Txn} (appends : Prop) (batch : List (Queued env)) (ht : Ready env t)
    (hs : exact → (t.view env).Sound ∧ CountsExact env batch t)
    (hQ : BatchEvery env (fun q t => Q q (t.view env)) batch t)
    (happ : ∀ q ∈ batch, q.2.isAppend → appends) :
    Returns (Aborts exact appends) (forM batch (processQueued env)) t fun _ t' =>
      Ready env t' ∧ BatchSteps env exact Q batch (t.view env) (t'.view env) := by
  induction batch generalizing t with
  | nil => exact .pure ⟨ht, rfl⟩
  | cons q rest ih =>
    rw [List.forM_cons]
    refine .bind (.mono (processQueued_spec exact appends q ht (fun he => ⟨(hs he).1, (hs he).2.1⟩)
      (happ q List.mem_cons_self)).with_eq ?_)
    rintro _ t₁ ⟨hrun, ht₁, hstep⟩
    obtain ⟨hq, hQ⟩ := hQ
    rw [hrun] at hQ
    refine .mono (ih ht₁ (fun he => ?_) hQ fun q' hq' => happ q' (List.mem_cons_of_mem _ hq'))
      fun _ t' h => ⟨h.1, hq, _, hstep, h.2⟩
    obtain ⟨hsound, -, hcounts⟩ := hs he
    rw [hrun] at hcounts
    exact ⟨(ItemStep.moves hstep he hsound).sound hsound, hcounts⟩

/-- What every item preserves where `Q` holds, a batch preserves. -/
theorem BatchSteps.preserves {I : View → Prop} (h : BatchSteps env exact Q batch v v')
    (hv : exact → v.Sound) (hI : I v)
    (hitem : ∀ q ∈ batch, ∀ v v', (exact → v.Sound) → I v → Q q v →
      ItemStep env exact q.2 { v with now := q.1.now } v' → I v') :
    (exact → v'.Sound) ∧ I v' := by
  induction batch generalizing v with
  | nil =>
    rw [show v' = v from h]
    exact ⟨hv, hI⟩
  | cons q rest ih =>
    obtain ⟨hq, v₁, hstep, hrest⟩ := h
    have hv₁ : exact → v₁.Sound := fun he => (hstep.moves he (hv he)).sound (hv he)
    exact ih hrest hv₁ (hitem q List.mem_cons_self v v₁ hv hI hq hstep)
      fun q' hq' => hitem q' (List.mem_cons_of_mem _ hq')

/-- A committed flush takes the steps of its batch and hands out their outputs. -/
def Committed (env : Env) (exact : Prop) (Q : Queued env → View → Prop)
    (batch : List (Queued env)) (core : Core) (o : Outcome) : Prop :=
  ∃ v, BatchSteps env exact Q batch (core.view env) v ∧ o.core.view env = v.settled ∧
    o.settle = v.settle ∧ (o.applied.map fun a => (a.entry, a.via)) = v.applied ∧
    o.anomalies = v.anomalies

/-- An aborted flush changes no stream; every item is rejected with the error. -/
def Aborted (env : Env) (exact : Prop) (batch : List (Queued env)) (fault : Option Nat)
    (core : Core) (o : Outcome) : Prop :=
  o.core.view env = core.view env ∧ o.applied = [] ∧ o.anomalies = [] ∧ ∃ e,
    o.settle = (batch.map fun _ => .rejected e) ∧
      (fault.isSome ∧ (e = storageFailure ∨ e = commitFailure) ∨
        Aborts exact (∃ q ∈ batch, q.2.isAppend) e)

/-- A batch that returns is followed by the clock's write and the commit. -/
theorem flushBody_ends {E : SeqscribeError → Prop} {R : View → Prop} {t : Txn}
    (hbatch : Returns E (forM batch (processQueued env)) t fun _ t' =>
      Ready env t' ∧ R (t'.view env)) :
    Runs (flushBody env batch) t (fun _ t' => Ready env t' ∧ R (t'.view env))
      fun e _ => t.fault.isSome ∧ (e = storageFailure ∨ e = commitFailure) ∨ E e := by
  refine .bind (Runs.mono hbatch ?_ ?_)
  · rintro _ t₁ ⟨hfault, ht₁, hsteps⟩
    have hmeta : Returns (fun _ => False) (Store.metaSetHlc t₁.core.hlcState) t₁ fun _ t' =>
        Ready env t' ∧ t'.view env = t₁.view env :=
      execute_spec fun _ => ⟨⟨(ht₁.of_db (fun db => { db with metaHlc := some t₁.core.hlcState })
        rfl rfl rfl).coherent⟩, rfl⟩
    refine .bind (.get (.bind (Runs.mono hmeta ?_ ?_)))
    · rintro _ t₂ ⟨hfault', ht₂, hv₂⟩
      refine .bind (.get ?_)
      split
      · next hf =>
        exact .throw (.inl ⟨by rw [← hfault, ← hfault', hf], .inr rfl⟩)
      · exact .pure ⟨ht₂, hv₂ ▸ hsteps⟩
    · intro e _ he
      rw [hfault] at he
      exact .inl (he.elim (fun h => ⟨h.1, .inl h.2⟩) False.elim)
  · intro e _ he
    exact he.imp (fun h => ⟨h.1, .inl h.2⟩) id

theorem flushBody_runs (exact : Prop) (Q : Queued env → View → Prop) {t : Txn}
    (batch : List (Queued env)) (ht : Ready env t)
    (hs : exact → (t.view env).Sound ∧ CountsExact env batch t)
    (hQ : BatchEvery env (fun q t => Q q (t.view env)) batch t) :
    Runs (flushBody env batch) t
      (fun _ t' => Ready env t' ∧ BatchSteps env exact Q batch (t.view env) (t'.view env))
      fun e _ => t.fault.isSome ∧ (e = storageFailure ∨ e = commitFailure) ∨
        Aborts exact (∃ q ∈ batch, q.2.isAppend) e :=
  flushBody_ends (batch_spec (∃ q ∈ batch, q.2.isAppend) batch ht hs hQ
    fun q hq hi => ⟨q, hq, hi⟩)

/-- With the caches dropped there is nothing to disagree with the store. -/
theorem restoreAborted_coherent (core : Core) (t : Txn) :
    (restoreAborted core t).Coherent env := by
  refine ⟨?_, ?_, ?_, ?_, ?_⟩
  · rintro k h ⟨⟩
  · rintro T c ⟨⟩
  · rintro k f ⟨⟩
  · rintro vec ⟨⟩
  · rintro vec ⟨⟩

theorem flush_spec (exact : Prop) (Q : Queued env → View → Prop) (batch : List (Queued env)) (fault : Option Nat) (hcoh : core.Coherent env)
    (hs : exact → (core.view env).Sound ∧ CountsExact env batch (Txn.start core fault))
    (hQ : BatchEvery env (fun q t => Q q (t.view env)) batch (Txn.start core fault)) :
    (flush env batch fault core).core.Coherent env ∧
      (Committed env exact Q batch core (flush env batch fault core) ∨
        Aborted env exact batch fault core (flush env batch fault core)) := by
  unfold flush
  by_cases hempty : batch.isEmpty = true
  · rw [if_pos hempty]
    obtain rfl := List.isEmpty_iff.1 hempty
    exact ⟨hcoh, .inl ⟨core.view env, rfl, rfl, rfl, rfl, rfl⟩⟩
  rw [if_neg hempty]
  have hbody := flushBody_runs exact Q (t := Txn.start core fault) batch ⟨hcoh⟩ hs hQ
  unfold transaction
  cases hrun : flushBody env batch (Txn.start core fault) with
  | ok _ t =>
    obtain ⟨ht, hsteps⟩ := hbody.of_ok hrun
    exact ⟨ht.coherent, .inl ⟨t.view env, hsteps, rfl, rfl, rfl, rfl⟩⟩
  | error e t =>
    have herr := hbody.of_error hrun
    exact ⟨restoreAborted_coherent core _, .inr ⟨rfl, rfl, rfl, e, rfl, herr⟩⟩

/-- Inputs that no view shows: reads, and writes of the other hubs. -/
def Input.quiet : Input env → Bool
  | .flush .. | .archiveNow .. | .reportCanonicalUnavailable .. | .restart => false
  | _ => true

/-- Every item of an input finds a transaction that meets `P`. -/
def Input.Every (P : Queued env → Txn → Prop) (i : Input env) (core : Core) : Prop :=
  match i with
  | .flush batch fault => BatchEvery env P batch (Txn.start core fault)
  | _ => True

theorem Input.Every.of_forall {P : Queued env → Txn → Prop} (i : Input env) (h : ∀ q t, P q t) :
    i.Every P core := by
  cases i with
  | flush batch fault => exact BatchEvery.of_forall fun q _ t => h q t
  | _ => trivial

def Stream.noteUnavailable (S : Stream) : Stream :=
  S.setRecovery (S.recovery.map fun r => { r with unavailableReported := true })

def View.noteUnavailable (k : StreamId) (v : View) : View :=
  { v with streams := Function.update v.streams k (v.streams k).noteUnavailable }

def View.forgetRecoveries (v : View) : View :=
  { v with streams := fun k => (v.streams k).setRecovery none }

theorem Core.view_noteUnavailable (core : Core) (k : StreamId) :
    Core.view env { core with
      recoveries := Function.update core.recoveries k
        ((core.recoveries k).map fun r => { r with unavailableReported := true }) } =
      (core.view env).noteUnavailable k := by
  unfold Core.view Txn.view View.noteUnavailable
  congr 1
  funext k'
  by_cases hk : k' = k
  · subst hk
    rw [Function.update_self]
    unfold Stream.noteUnavailable Stream.setRecovery Core.stream Core.head Txn.start
    dsimp only
    rw [Function.update_self]
  · rw [Function.update_of_ne hk]
    unfold Core.stream Core.head Txn.start
    dsimp only
    rw [Function.update_of_ne hk]

/-- What an input does to the view of a core. -/
inductive CoreStep (env : Env) (exact : Prop) (Q : Queued env → View → Prop) :
    Input env → View → View → Prop
  | commit {v v' : View} (h : BatchSteps env exact Q batch v v') :
      CoreStep env exact Q (.flush batch fault) v v'.settled
  | abort (batch : List (Queued env)) (fault : Option Nat) (v : View) :
      CoreStep env exact Q (.flush batch fault) v v
  | archive {v v' : View} (h : v.Thinned v') : CoreStep env exact Q (.archiveNow T now fault) v v'
  | quiet (v : View) (h : Input.quiet i = true) : CoreStep env exact Q i v v
  | unavailable (T : Topic) (w : WriterId) (v : View) :
      CoreStep env exact Q (.reportCanonicalUnavailable T w) v (v.noteUnavailable (T, w))
  | restart (v : View) (hlcState : HlcState) :
      CoreStep env exact Q .restart v { v.forgetRecoveries with hlcState := hlcState }

theorem runDirect_ensures {m : LogM α} {R : View → View → Prop}
    (h : Ensures m { Txn.start core fault with ambient := { now := now } } fun t' =>
      Ready env t' ∧ R (core.view env) (t'.view env).settled) :
    (runDirect m now fault core).core.Coherent env ∧
      R (core.view env) ((runDirect m now fault core).core.view env) := by
  unfold runDirect
  dsimp only
  cases hrun : m { Txn.start core fault with ambient := { now := now } } with
  | ok a t' =>
    obtain ⟨ht', hv⟩ := h.of_ok hrun
    exact ⟨ht'.coherent, hv⟩
  | error e t' =>
    obtain ⟨ht', hv⟩ := h.of_error hrun
    exact ⟨ht'.coherent, hv⟩

/-- Without a fault a computation that returns ends in one way only. -/
theorem Returns.ensures {m : LogM α} (h : Returns (fun _ => False) m t fun _ => P)
    (hfault : t.fault = none) : Ensures m t P := by
  refine Runs.mono h (fun _ _ hP => hP.2) fun _ _ he => ?_
  rw [hfault] at he
  exact (he.elim (fun h => by cases h.1) id).elim

/-- A read that only fills caches leaves the view of the core. -/
theorem read_ensures {m : LogM α} (hcoh : core.Coherent env)
    (hm : ∀ t, Ready env t → Returns (fun _ => False) m t fun _ t' =>
      At env k (t.view env) ((t.view env).localAt k) t') :
    (runDirect m 0 none core).core.Coherent env ∧
      core.view env = (runDirect m 0 none core).core.view env :=
  runDirect_ensures (R := Eq) (Returns.ensures (.mono (hm _ ⟨hcoh⟩) fun _ t' h' =>
    ⟨h'.ready, by rw [h'.view_eq, View.withLocal_localAt]; rfl⟩) rfl)

/-- Inputs take their steps. -/
theorem step_spec (exact : Prop) (Q : Queued env → View → Prop) (i : Input env) (hcoh : core.Coherent env)
    (hs : exact → (core.view env).Sound ∧ i.Every (fun q t => q.2.CountExact t.core) core)
    (hQ : i.Every (fun q t => Q q (t.view env)) core) :
    (step env core i).core.Coherent env ∧
      CoreStep env exact Q i (core.view env) ((step env core i).core.view env) := by
  have hquiet : ∀ {o : Outcome}, i.quiet = true → step env core i = o →
      o.core.Coherent env ∧ core.view env = o.core.view env →
      (step env core i).core.Coherent env ∧
        CoreStep env exact Q i (core.view env) ((step env core i).core.view env) := by
    rintro _ hi rfl ⟨hcoh', hv⟩
    exact ⟨hcoh', hv ▸ .quiet _ hi⟩
  have hsame : core.Coherent env := hcoh
  obtain ⟨h₁, h₂, h₃, h₄, h₅⟩ := hcoh
  cases i with
  | flush batch fault =>
    obtain ⟨hcoh', ⟨v, hsteps, hv, -⟩ | ⟨hv, -⟩⟩ := flush_spec exact Q batch fault hsame hs hQ
    · exact ⟨hcoh', hv ▸ .commit hsteps⟩
    · exact ⟨hcoh', hv ▸ .abort batch fault _⟩
  | archiveNow T now fault =>
    have hthins : Ensures (archiveNow env T) { Txn.start core fault with ambient := { now := now } }
        (Thins env _) := Thins.archiveNow (.refl ⟨hsame⟩)
    have h := runDirect_ensures (R := View.Thinned) (Runs.mono hthins
      (fun _ _ h => ⟨h.ready, h.thinned.streams, h.thinned.certs, h.thinned.directives, rfl, rfl,
        h.thinned.hlcState, rfl⟩)
      fun _ _ h => ⟨h.ready, h.thinned.streams, h.thinned.certs, h.thinned.directives, rfl, rfl,
        h.thinned.hlcState, rfl⟩)
    exact ⟨h.1, .archive h.2⟩
  | getStream T w =>
    exact hquiet rfl rfl (read_ensures hsame fun t ht => getStream_spec (ht.at (T, w)) fun _ h => h)
  | getCert T =>
    exact hquiet rfl rfl (read_ensures hsame fun t ht => getCert_spec (ht.at ("", "")) fun _ h => h)
  | floorOf T w =>
    exact hquiet rfl rfl (read_ensures hsame fun t ht => floorOf_spec (ht.at (T, w)) fun _ h => h)
  | vectors now =>
    refine hquiet rfl rfl (runDirect_ensures (R := Eq) (Runs.mono (vectors_runs ⟨hsame⟩) ?_ ?_))
    · rintro vec t' ⟨ht', hv, -⟩
      exact ⟨ht', by rw [hv]; rfl⟩
    · rintro e t' ⟨ht', hv⟩
      exact ⟨ht', by rw [hv]; rfl⟩
  | cursorSet row => exact ⟨⟨h₁, h₂, h₃, h₄, h₅⟩, .quiet _ rfl⟩
  | cursorDelete consumer T => exact ⟨⟨h₁, h₂, h₃, h₄, h₅⟩, .quiet _ rfl⟩
  | ackUpsert row => exact ⟨⟨h₁, h₂, h₃, h₄, h₅⟩, .quiet _ rfl⟩
  | ackNodeSeen row => exact ⟨⟨h₁, h₂, h₃, h₄, h₅⟩, .quiet _ rfl⟩
  | reportCanonicalUnavailable T w =>
    refine ⟨⟨h₁, h₂, h₃, h₄, h₅⟩, ?_⟩
    have hview : (step env core (.reportCanonicalUnavailable T w)).core.view env =
      (core.view env).noteUnavailable (T, w) := core.view_noteUnavailable (T, w)
    exact hview ▸ .unavailable T w _
  | clearScopeTail scope => exact ⟨⟨h₁, h₂, h₃, h₄, h₅⟩, .quiet _ rfl⟩
  | defineTopic T => exact ⟨⟨h₁, h₂, h₃, h₄, h₅⟩, .quiet _ rfl⟩
  | restart =>
    refine ⟨⟨?_, ?_, ?_, ?_, ?_⟩, .restart _ _⟩
    · rintro k h ⟨⟩
    · rintro T c ⟨⟩
    · rintro k f ⟨⟩
    · rintro vec ⟨⟩
    · rintro vec ⟨⟩

/-- What a view says about the streams, certificates and directives, apart from the outputs and
the clocks. -/
def View.Same (v v' : View) : Prop :=
  v'.streams = v.streams ∧ v'.certs = v.certs ∧ v'.directives = v.directives

/-- What every item preserves where `Q` holds, and thinning and lost recoveries preserve, an input
preserves. -/
theorem CoreStep.preserves {I : View → Prop} (h : CoreStep env exact Q i v v')
    (hv : exact → v.Sound) (hI : I v) (hsame : ∀ v v', v.Same v' → I v → I v')
    (hitem : ∀ batch fault, i = .flush batch fault → ∀ q ∈ batch, ∀ v v', (exact → v.Sound) → I v →
      Q q v → ItemStep env exact q.2 { v with now := q.1.now } v' → I v')
    (hthin : ∀ v v', v.Thinned v' → I v → I v')
    (hseek : ∀ v v', v'.certs = v.certs → v'.directives = v.directives →
      (∀ k, v'.streams k = (v.streams k).noteUnavailable ∨ v'.streams k = v.streams k ∨
        v'.streams k = (v.streams k).setRecovery none) → I v → I v') :
    (exact → v'.Sound) ∧ I v' := by
  cases h with
  | @commit _ _ _ v' h =>
    obtain ⟨hv', hI'⟩ := h.preserves hv hI (hitem _ _ rfl)
    exact ⟨hv', hsame v' v'.settled ⟨rfl, rfl, rfl⟩ hI'⟩
  | abort batch fault v => exact ⟨hv, hI⟩
  | archive h =>
    have hmoves : v.Moves env (fun _ _ => True) v' := .thinned h fun _ => trivial
    exact ⟨fun he => hmoves.sound (hv he), hthin _ _ h hI⟩
  | quiet v h => exact ⟨hv, hI⟩
  | unavailable T w v =>
    have hk : ∀ k, (v.noteUnavailable (T, w)).streams k = (v.streams k).noteUnavailable ∨
        (v.noteUnavailable (T, w)).streams k = v.streams k := by
      intro k
      by_cases hk : k = (T, w)
      · subst hk
        exact .inl (Function.update_self ..)
      · exact .inr (Function.update_of_ne hk ..)
    refine ⟨fun he k => ?_, hseek v _ rfl rfl (fun k => (hk k).imp_right .inl) hI⟩
    rcases hk k with hk | hk <;> rw [hk]
    · exact (hv he k).move (Stream.move_seek env _ _)
    · exact hv he k
  | restart v hlcState =>
    exact ⟨fun he k => (hv he k).move (Stream.move_seek env _ _),
      hseek v _ rfl rfl (fun k => .inr (.inr rfl)) hI⟩

/-- The caches of a new process are empty. -/
theorem Core.coherent_restart (core : Core) : core.restart.Coherent env := by
  refine ⟨?_, ?_, ?_, ?_, ?_⟩
  · rintro k h ⟨⟩
  · rintro T c ⟨⟩
  · rintro k f ⟨⟩
  · rintro vec ⟨⟩
  · rintro vec ⟨⟩

theorem Core.coherent_init : Core.init.Coherent env := Core.coherent_restart _

theorem Core.sound_init : (Core.init.view env).Sound :=
  Txn.view_sound _ (fun _ _ _ => rfl) fun _ _ _ h => by cases h

/-- Every item of a run finds a transaction that meets `P`. -/
def RunEvery (env : Env) (P : Queued env → Txn → Prop) : Core → List (Input env) → Prop
  | _, [] => True
  | core, i :: is => i.Every P core ∧ RunEvery env P (step env core i).core is

instance {P : Queued env → Txn → Prop} [∀ q t, Decidable (P q t)] (i : Input env) (core : Core) :
    Decidable (i.Every P core) :=
  match i with
  | .flush batch fault => BatchEvery.decidable batch (Txn.start core fault)
  | .archiveNow .. | .getStream .. | .getCert .. | .floorOf .. | .vectors .. | .cursorSet ..
  | .cursorDelete .. | .ackUpsert .. | .ackNodeSeen .. | .reportCanonicalUnavailable ..
  | .clearScopeTail .. | .defineTopic .. | .restart => .isTrue trivial

instance RunEvery.decidable {P : Queued env → Txn → Prop} [∀ q t, Decidable (P q t)] :
    ∀ (core : Core) (is : List (Input env)), Decidable (RunEvery env P core is)
  | _, [] => .isTrue trivial
  | core, i :: is =>
    @instDecidableAnd _ _ inferInstance (RunEvery.decidable (step env core i).core is)

/-- Every retirement of a topic in a run consults an exact count. -/
def RunExact (env : Env) : Core → List (Input env) → Prop :=
  RunEvery env fun q t => q.2.CountExact t.core

instance (core : Core) (is : List (Input env)) : Decidable (RunExact env core is) :=
  RunEvery.decidable core is

theorem RunEvery.of_forall {P : Queued env → Txn → Prop} {is : List (Input env)}
    (h : ∀ batch fault, .flush batch fault ∈ is → ∀ q ∈ batch, ∀ t, P q t) :
    RunEvery env P core is := by
  induction is generalizing core with
  | nil => trivial
  | cons i is ih =>
    refine ⟨?_, ih fun batch fault hi => h batch fault (List.mem_cons_of_mem _ hi)⟩
    cases i with
    | flush batch fault => exact BatchEvery.of_forall (h batch fault List.mem_cons_self)
    | _ => trivial

/-- What every transaction with coherent caches meets, the transactions of a run meet. -/
theorem BatchEvery.of_ready {P : Queued env → Txn → Prop} {t : Txn}
    (h : ∀ q t, Ready env t → P q t) (ht : Ready env t) : BatchEvery env P batch t := by
  induction batch generalizing t with
  | nil => trivial
  | cons q rest ih =>
    refine ⟨h q t ht, ?_⟩
    have hq := processQueued_spec False True q ht False.elim fun _ => trivial
    cases hrun : processQueued env q t with
    | error => trivial
    | ok u t' => exact ih (hq.of_ok hrun).2.1

theorem RunEvery.of_ready {P : Queued env → Txn → Prop} {is : List (Input env)}
    (h : ∀ q t, Ready env t → P q t) (hcoh : core.Coherent env) : RunEvery env P core is := by
  induction is generalizing core with
  | nil => trivial
  | cons i is ih =>
    have hstep := step_spec False (fun _ _ => True) i hcoh False.elim
      (Input.Every.of_forall i fun _ _ => trivial)
    refine ⟨?_, ih hstep.1⟩
    cases i with
    | flush batch fault => exact BatchEvery.of_ready h ⟨hcoh⟩
    | _ => trivial

theorem RunEvery.initial {P : Queued env → Txn → Prop} {is is' : List (Input env)}
    (h : RunEvery env P core is) (hinit : is' <+: is) : RunEvery env P core is' := by
  induction is' generalizing core is with
  | nil => trivial
  | cons i is' ih =>
    obtain ⟨rest, rfl⟩ := hinit
    exact ⟨h.1, ih h.2 (List.prefix_append ..)⟩

theorem RunEvery.suffix {P : Queued env → Txn → Prop} {is is' : List (Input env)}
    (h : RunEvery env P core (is ++ is')) : RunEvery env P (runCore env core is) is' := by
  induction is generalizing core with
  | nil => exact h
  | cons i is ih => exact ih h.2

theorem runCore_append (core : Core) (is is' : List (Input env)) :
    runCore env core (is ++ is') = runCore env (runCore env core is) is' :=
  List.foldl_append

/-- What every input of a run preserves holds at its end. -/
theorem runCore_preserves (exact : Prop) (Q : Queued env → View → Prop) {I : View → Prop}
    {is : List (Input env)} (hcoh : core.Coherent env)
    (hs : exact → (core.view env).Sound ∧ RunExact env core is)
    (hQ : RunEvery env (fun q t => Q q (t.view env)) core is) (hI : I (core.view env))
    (hstep : ∀ i ∈ is, ∀ v v', (exact → v.Sound) → I v → CoreStep env exact Q i v v' → I v') :
    (runCore env core is).Coherent env ∧ (exact → ((runCore env core is).view env).Sound) ∧
      I ((runCore env core is).view env) := by
  induction is generalizing core with
  | nil => exact ⟨hcoh, fun he => (hs he).1, hI⟩
  | cons i is ih =>
    obtain ⟨hcoh', hcore⟩ := step_spec exact Q i hcoh (fun he => ⟨(hs he).1, (hs he).2.1⟩) hQ.1
    refine ih hcoh' (fun he => ⟨?_, (hs he).2.2⟩) hQ.2 ?_
      fun i' hi' => hstep i' (List.mem_cons_of_mem _ hi')
    · exact (hcore.preserves (fun he => (hs he).1) (I := fun _ => True) trivial
        (fun _ _ _ _ => trivial) (fun _ _ _ _ _ _ _ _ _ _ _ => trivial) (fun _ _ _ _ => trivial)
        fun _ _ _ _ _ _ => trivial).1 he
    · exact hstep i List.mem_cons_self _ _ (fun he => (hs he).1) hI hcore

theorem RunEvery.true {is : List (Input env)} : RunEvery env (fun _ _ => True) core is :=
  .of_forall fun _ _ _ _ _ _ => trivial

theorem step_coherent (i : Input env) (hcoh : core.Coherent env) :
    (step env core i).core.Coherent env :=
  (step_spec False (fun _ _ => True) i hcoh False.elim (.of_forall i fun _ _ => trivial)).1

/-- Every core that a run reaches is coherent. -/
theorem runCore_coherent (is : List (Input env)) : (runCore env Core.init is).Coherent env :=
  (runCore_preserves False (fun _ _ => True) (I := fun _ => True)
    Core.coherent_init False.elim .true trivial fun _ _ _ _ _ _ _ => trivial).1

/-- With exact counts, every core that a run reaches is sound. -/
theorem runCore_sound {is : List (Input env)} (hexact : RunExact env Core.init is) :
    ((runCore env Core.init is).view env).Sound :=
  (runCore_preserves True (fun _ _ => True) (I := fun _ => True)
    Core.coherent_init (fun _ => ⟨Core.sound_init, hexact⟩) .true trivial
    fun _ _ _ _ _ _ _ => trivial).2.1 trivial

/-- What every item preserves where `Q` holds, and thinning and lost recoveries preserve, holds at
the end of a run. -/
theorem runCore_items (exact : Prop) (Q : Queued env → View → Prop) {I : View → Prop}
    {is : List (Input env)} (hcounts : exact → RunExact env Core.init is)
    (hQ : RunEvery env (fun q t => Q q (t.view env)) Core.init is) (hI : I (Core.init.view env))
    (hsame : ∀ v v', v.Same v' → I v → I v')
    (hitem : ∀ q v v', (exact → v.Sound) → I v → Q q v →
      ItemStep env exact q.2 { v with now := q.1.now } v' → I v')
    (hthin : ∀ v v', v.Thinned v' → I v → I v')
    (hseek : ∀ v v', v'.certs = v.certs → v'.directives = v.directives →
      (∀ k, v'.streams k = (v.streams k).noteUnavailable ∨ v'.streams k = v.streams k ∨
        v'.streams k = (v.streams k).setRecovery none) → I v → I v') :
    I ((runCore env Core.init is).view env) :=
  (runCore_preserves exact Q Core.coherent_init (fun he => ⟨Core.sound_init, hcounts he⟩) hQ hI
    fun _ _ _ _ hv hI hcore => (hcore.preserves hv hI hsame
      (fun _ _ _ q _ => hitem q) hthin hseek).2).2.2

/-- What every move preserves holds of each stream at the end of a run with exact counts. -/
theorem runCore_moves {I : StreamId → Stream → Prop} {is : List (Input env)}
    (hexact : RunExact env Core.init is) (hinit : ∀ k, I k ((Core.init.view env).streams k))
    (hmove : ∀ k a S S', S.Sound k → I k S → S.Move env a S' → I k S') (k : StreamId) :
    I k ((runCore env Core.init is).stream env k) := by
  have hview : ∀ k, ((Core.init.view env).streams k).Sound k := Core.sound_init
  refine (runCore_items True (fun _ _ => True)
    (I := fun v => ∀ k, (v.streams k).Sound k ∧ I k (v.streams k)) (fun _ => hexact) .true
    (fun k => ⟨hview k, hinit k⟩) ?_ ?_ ?_ ?_ k).2
  · intro v v' hsame hI k
    rw [hsame.1]
    exact hI k
  · intro q v v' hv hI _ hstep k
    have hmoves := hstep.moves trivial (hv trivial) k
    exact ⟨(hI k).1.moves hmoves, hmoves.preserves_sound (hI k).1
      (fun a S S' _ hS hIS => hmove k a S S' hS hIS) (hI k).2⟩
  · intro v v' hthin hI k
    have hm : (v.streams k).Move env .thin (v'.streams k) := .thin _ _ (hthin.streams k)
    exact ⟨(hI k).1.move hm, hmove k _ _ _ (hI k).1 (hI k).2 hm⟩
  · intro v v' _ _ hk hI k
    have hseek := Stream.move_seek env (v.streams k)
    rcases hk k with hk | hk | hk <;> rw [hk]
    · exact ⟨(hI k).1.move (hseek _), hmove k _ _ _ (hI k).1 (hI k).2 (hseek _)⟩
    · exact hI k
    · exact ⟨(hI k).1.move (hseek _), hmove k _ _ _ (hI k).1 (hI k).2 (hseek _)⟩

end Seqscribe
