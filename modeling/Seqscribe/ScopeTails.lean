import Seqscribe.Items
import Seqscribe.Upkeep

namespace Seqscribe
set_option autoImplicit true

/-! The causal tails of the register hub, as the items of a batch leave them. -/

/-- The last own write of each causal scope that no fold has materialized. -/
abbrev ScopeTails := String → Option (WriterId × Nat)

variable {env : Env} {E : SeqscribeError → Prop} {t t' : Txn} {tails tails' : ScopeTails}
  {ambient : Ambient} {L L' : Local} {v : View}

/-- The tails and the surroundings are as given. -/
def Txn.Tailed (tails : ScopeTails) (ambient : Ambient) (t : Txn) : Prop :=
  t.core.scopeTails = tails ∧ t.ambient = ambient

theorem narrow_tailed (tails : ScopeTails) (ambient : Ambient) :
    Narrow (Txn.Tailed tails ambient) := by
  constructor
  intro t t' _ htails hambient h
  exact ⟨htails.trans h.1, hambient.trans h.2⟩

theorem upkeep_tailed (env : Env) (tails : ScopeTails) (ambient : Ambient) :
    Upkeep env (Txn.Tailed tails ambient) := by
  have hI := narrow_tailed tails ambient
  apply hI.upkeep
  intro topic node
  exact .bind (.bind hI.storageCall fun _ => .modify fun _ h => h) fun _ =>
    .bind hI.storageCall fun _ => .modify fun _ h => h

/-- Only an append in a scope moves a tail. -/
theorem processQueued_tails {q : Queued env}
    (hplain : ∀ item, q.2 = .append item → item.causalProvider = none)
    (hrun : processQueued env q t = .ok () t') : t'.core.scopeTails = t.core.scopeTails := by
  have hstamp (item : AppendItem env) (hitem : q.2 = .append item) (seq : Nat) :
      Maintains (Txn.Tailed t.core.scopeTails q.1) (stampCausal env item seq) := by
    rw [stampCausal, hplain item hitem]
    exact .pure _
  have hitem := (narrow_tailed t.core.scopeTails q.1).processItem (upkeep_tailed env _ _) q.2 hstamp
  have hbody := hitem.runs { t with ambient := q.1 } ⟨rfl, rfl⟩
  exact (hbody.of_ok hrun).1

/-- Inputs that neither flush nor clear a tail. -/
def Input.beside : Input env → Bool
  | .flush .. | .clearScopeTail _ | .restart => false
  | _ => true

theorem step_tails {core : Core} (i : Input env) (hi : i.beside = true) :
    (step env core i).core.scopeTails = core.scopeTails := by
  have hdirect {α : Type} {m : LogM α} (now : Nat) (fault : Option Nat) (hm : StaysAside m) :
      (runDirect m now fault core).core.scopeTails = core.scopeTails :=
    Ensures.runDirect (P := fun core' => core'.scopeTails = core.scopeTails)
      (hm.ensures_of fun _ h => h.tails)
  cases i with
  | flush => cases hi
  | archiveNow topic now fault => exact hdirect now fault (.archiveNow env topic)
  | getStream topic writer => exact hdirect 0 none (.getStream env topic writer)
  | getCert topic => exact hdirect 0 none (.getCert topic)
  | floorOf topic writer => exact hdirect 0 none (.floorOf topic writer)
  | vectors now =>
    apply Ensures.runDirect (P := fun core' => core'.scopeTails = core.scopeTails)
    have hvectors := vectors_aside env { Txn.start core none with ambient := { now := now } }
    apply hvectors.mono
    · exact fun _ _ h => h.elim fun _ haside => haside.tails
    · exact fun _ _ h => h.elim fun _ haside => haside.tails
  | clearScopeTail => cases hi
  | restart => cases hi
  | _ => rfl

/-- What an append in a scope does to its stream, and the tails that it leaves. -/
inductive Stamped (env : Env) (item : AppendItem env) (scope : String)
    (causal : Option (WriterId × Nat)) (now : Nat) (L : Local) (tails : ScopeTails) :
    Local → ScopeTails → Prop
  | sealed (hseal : L.stream.head.sealReason ≠ none) :
      Stamped env item scope causal now L tails
        (L.done (.rejected ⟨.ERR_WRITER_SEALED, s!"{item.topic}/{env.writerId}"⟩)) tails
  | overflow (hopen : L.stream.head.sealReason = none)
      (hstamp : stamp L.hlcState now = .error err) :
      Stamped env item scope causal now L tails (L.done (.rejected err)) tails
  -- the tail is not put back
  | invalid (hopen : L.stream.head.sealReason = none)
      (hstamp : stamp L.hlcState now = .ok (state, hlc))
      (hinvalid : validateEntry env (Local.appendEntry env item hlc causal L.stream) = .error err) :
      Stamped env item scope causal now L tails ({ L with hlcState := state }.done (.rejected err))
        (Function.update tails scope (some (env.writerId, L.stream.head.contigSeq + 1)))
  | appended (hopen : L.stream.head.sealReason = none)
      (hstamp : stamp L.hlcState now = .ok (state, hlc))
      (hvalid : (validateEntry env (Local.appendEntry env item hlc causal L.stream)).isOk) :
      Stamped env item scope causal now L tails
        ({ L with hlcState := state }.append env (Local.appendEntry env item hlc causal L.stream))
        (Function.update tails scope (some (env.writerId, L.stream.head.contigSeq + 1)))

theorem Stamped.appends {item : AppendItem env}
    (h : Stamped env item scope causal now L tails L' tails') :
    Local.Appended env item now L L' := by
  cases h with
  | «sealed» hseal => exact .sealed hseal
  | overflow hopen hstamp => exact .overflow hopen hstamp
  | invalid hopen hstamp hinvalid => exact .invalid hopen hstamp hinvalid
  | appended hopen hstamp hvalid => exact .appended hopen hstamp hvalid

theorem stampCausal_stamps {item : AppendItem env} (hscope : item.causalProvider = some scope)
    (h : At env k v L t)
    (hQ : ∀ t', At env k v L t' →
      t'.Tailed (Function.update t.core.scopeTails scope (some (env.writerId, seq))) t.ambient →
      Q ((t.core.scopeTails scope).orElse fun _ => t.ambient.lastObserved) t') :
    Returns E (stampCausal env item seq) t Q := by
  rw [stampCausal, hscope]
  exact .bind (.get (.bind (.modify rfl (.pure (hQ _
    (h.congr rfl rfl rfl rfl rfl rfl rfl rfl rfl rfl rfl) ⟨rfl, rfl⟩)))))

/-- The commit of an append leaves the tails alone. -/
theorem commitAppend_tailed {e : LogEntry} {head : WriterRow} (hk : head.stream = e.stream)
    (h : At env e.stream v L t) (htailed : t.Tailed tails ambient)
    (hknown : (env.topics e.topic).isSome)
    (hfree : ¬ E Store.uniqueViolation → L.stream.rows e.seq = none)
    (hQ : ∀ t', At env e.stream v
      ((((L.map (Stream.put env e)).map (Stream.saveHead head)).deliver e none).done
        (.appended e.id)) t' → t'.Tailed tails ambient → Q () t') :
    Returns E (do
      let rowid ← persist env e
      saveHead env head
      noteApplied e rowid none
      done (.appended e.id)) t Q := by
  have hkeep := upkeep_tailed env tails ambient
  have hpersist := Maintains.of_keeps (hkeep.handlers.persist trivial e trivial)
  have hsettle : Maintains (Txn.Tailed tails ambient) (done (.appended e.id)) :=
    .modify fun _ h => h
  have hdeliver (rowid : Option Nat) : Maintains (Txn.Tailed tails ambient)
      (noteApplied e rowid none) := .modify fun _ h => h
  apply Returns.bind
  apply (hpersist.returns htailed (persist_spec (Q := fun _ => At env e.stream v _) h hknown hfree
    fun _ _ h => h)).mono
  intro rowid t ⟨h, htailed⟩
  apply Returns.bind
  apply ((hkeep.saveHead head).returns htailed (saveHead_spec (Q := fun _ => At env e.stream v _) h
    hk fun _ h => h)).mono
  intro _ t ⟨h, htailed⟩
  apply Returns.bind
  apply ((hdeliver rowid).returns htailed (noteApplied_spec (Q := fun _ => At env e.stream v _) h
    fun _ h => h)).mono
  intro _ t ⟨h, htailed⟩
  apply (hsettle.returns htailed (done_spec (Q := fun _ => At env e.stream v _) h
    fun _ h => h)).mono
  exact fun _ t ⟨h, htailed⟩ => hQ t h htailed

/-- An append in a scope is stamped with the tail, or else with what the hub observed last. -/
theorem processAppend_stamps {item : AppendItem env} (hscope : item.causalProvider = some scope)
    (h : At env (item.topic, env.writerId) v L t) (htailed : t.Tailed tails ambient)
    (hB : ¬ E Store.uniqueViolation → L.stream.Bounded)
    (hE : ∀ err, err.code = .ERR_ENTRY_ENCODING → E err)
    (hQ : ∀ L' t', Stamped env item scope
      ((tails scope).orElse fun _ => ambient.lastObserved) v.now L tails L' t'.core.scopeTails →
      At env (item.topic, env.writerId) v L' t' → Q () t') :
    Returns E (processAppend env item) t Q := by
  have hkeep (tails : ScopeTails) := upkeep_tailed env tails ambient
  have hdone (r : Settled) (L₁ : Local) (t₁ : Txn) (tails₁ : ScopeTails)
      (h₁ : At env (item.topic, env.writerId) v L₁ t₁) (htailed₁ : t₁.Tailed tails₁ ambient)
      (hstamped : Stamped env item scope ((tails scope).orElse fun _ => ambient.lastObserved)
        v.now L tails (L₁.done r) tails₁) : Returns E (done r) t₁ Q := by
    have hmaintains : Maintains (Txn.Tailed tails₁ ambient) (done r) := .modify fun _ h => h
    apply (hmaintains.returns htailed₁ (done_spec (Q := fun _ => At env _ v (L₁.done r)) h₁
      fun _ h' => h')).mono
    intro _ t₂ ⟨h₂, htailed₂⟩
    apply hQ _ t₂ _ h₂
    rwa [htailed₂.1]
  apply Returns.bind
  apply ((hkeep tails).getStream item.topic env.writerId |>.returns htailed
    (getStream_spec h (Q := fun head t' => head = L.stream.head ∧ At env _ v L t')
      fun _ h' => ⟨rfl, h'⟩)).mono
  intro _ t ⟨⟨heq, h⟩, htailed⟩
  subst heq
  by_cases hseal : L.stream.head.sealReason ≠ none
  · rw [if_pos hseal]
    exact hdone _ L t tails h htailed (.sealed hseal)
  rw [if_neg hseal]
  have hopen := not_not.1 hseal
  apply Returns.bind (.get _)
  apply Returns.bind (clock_at h _)
  rw [h.hlcState]
  cases hstamp : stamp L.hlcState v.now with
  | error err => exact hdone _ L t tails h htailed (.overflow hopen hstamp)
  | ok stamped =>
    obtain ⟨state, hlc⟩ := stamped
    apply Returns.bind
    have hmaintains : Maintains (Txn.Tailed tails ambient) (setHlcState state) :=
      .modify fun _ h => h
    apply (hmaintains.returns htailed (setHlcState_spec
      (Q := fun _ => At env _ v { L with hlcState := state }) h fun _ h' => h')).mono
    intro _ t ⟨h, htailed⟩
    apply Returns.bind
    apply stampCausal_stamps hscope h
    intro t h htailed'
    rw [htailed.1, htailed.2] at *
    split
    · exact .bind (.throw (hE _ rfl))
    dsimp only
    split
    next err hinvalid =>
      exact hdone _ _ t _ h htailed' (.invalid hopen hstamp hinvalid)
    next hvalid =>
      have hk : L.stream.head.stream = (item.topic, env.writerId) := h.head_stream
      exact commitAppend_tailed hk h htailed' item.known (fun hE => hB hE _ (Nat.lt_succ_self _))
        fun t h htailed => hQ _ t (htailed.1 ▸ .appended hopen hstamp (congrArg Except.isOk hvalid)) h

/-- The same of an item of a batch. -/
theorem processQueued_stamps {item : AppendItem env} (hscope : item.causalProvider = some scope)
    (ht : Ready env t) (ambient : Ambient) :
    Returns (fun _ => True) (processQueued env (ambient, .append item)) t fun _ t' => ∃ L,
      Stamped env item scope ((t.core.scopeTails scope).orElse fun _ => ambient.lastObserved)
        ambient.now ((t.view env).localAt (item.topic, env.writerId)) t.core.scopeTails L
        t'.core.scopeTails ∧
      t'.view env =
        { t.view env with now := ambient.now }.withLocal (item.topic, env.writerId) L := by
  have hready : Ready env { t with ambient := ambient } := ⟨ht.coherent⟩
  apply Returns.bind
  refine .modify rfl (processAppend_stamps hscope (hready.at _) ⟨rfl, rfl⟩ ?_ (fun _ _ => trivial) ?_)
  · exact fun h => absurd trivial h
  · exact fun L t' hL h' => ⟨L, hL, h'.view_eq⟩

end Seqscribe
