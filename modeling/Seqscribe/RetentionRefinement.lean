import Mathlib.Data.List.TakeWhile
import Seqscribe.LifecycleRefinement
import Seqscribe.Upkeep

namespace Seqscribe
set_option autoImplicit true

variable {env : Env} {E : SeqscribeError → Prop} {t : Txn} {v : View} {L : Local} {k : StreamId}

/-- What pruning and archiving do to a stream: rows leave, for good or into the archive, and the
floor may come to record one of them. -/
structure Stream.Thinned (S S' : Stream) : Prop where
  head : S'.head = S.head
  listed : S'.listed = S.listed
  pending : S'.pending = S.pending
  quarantine : S'.quarantine = S.quarantine
  recovery : S'.recovery = S.recovery
  rows : ∀ s, S'.rows s = none ∨ S'.rows s = S.rows s
  archive : ∀ s, S'.archive s = S.archive s ∨ S.archive s = none ∧ S'.archive s = S.rows s
  floor : S'.floor = S.floor ∨ ∃ s e, S.rows s = some e ∧ S'.floor = some ⟨s, e.chain⟩

theorem Stream.Thinned.refl (S : Stream) : S.Thinned S :=
  ⟨rfl, rfl, rfl, rfl, rfl, fun _ => .inr rfl, fun _ => .inl rfl, .inl rfl⟩

theorem Stream.Thinned.row {S S' : Stream} (h : S.Thinned S') (hrow : S'.rows s = some e) :
    S.rows s = some e := by
  rcases h.rows s with hn | hs
  · rw [hn] at hrow
    cases hrow
  · rw [← hs, hrow]

theorem Stream.Thinned.trans {S₁ S₂ S₃ : Stream} (h : S₁.Thinned S₂) (h' : S₂.Thinned S₃) :
    S₁.Thinned S₃ where
  head := h'.head.trans h.head
  listed := h'.listed.trans h.listed
  pending := h'.pending.trans h.pending
  quarantine := h'.quarantine.trans h.quarantine
  recovery := h'.recovery.trans h.recovery
  rows s := by
    rcases h'.rows s with hn | hs
    · exact .inl hn
    · rw [hs]
      exact h.rows s
  archive s := by
    rcases h'.archive s with hs | ⟨hn, hs⟩
    · rw [hs]
      exact h.archive s
    · rcases h.archive s with ha | ⟨ha, hr⟩
      · rcases h.rows s with hr | hr
        · rw [hs, hr, ← ha, hn]
          exact .inl rfl
        · exact .inr ⟨ha ▸ hn, hs.trans hr⟩
      · rw [hn] at hr
        rcases h.rows s with hr' | hr'
        · exact .inl (by rw [hs, hr', ha])
        · exact .inr ⟨ha, hs.trans hr'⟩
  floor := by
    rcases h'.floor with hf | ⟨s, e, hrow, hf⟩
    · rw [hf]
      exact h.floor
    · exact .inr ⟨s, e, h.row hrow, hf⟩

namespace View

/-- Streams are thinned; nothing else but the reports changes. -/
structure Thinned (v v' : View) : Prop where
  streams : ∀ k, (v.streams k).Thinned (v'.streams k)
  certs : v'.certs = v.certs
  directives : v'.directives = v.directives
  settle : v'.settle = v.settle
  applied : v'.applied = v.applied
  hlcState : v'.hlcState = v.hlcState
  now : v'.now = v.now

theorem Thinned.refl (v : View) : v.Thinned v :=
  ⟨fun _ => .refl _, rfl, rfl, rfl, rfl, rfl, rfl⟩

theorem Thinned.trans {v₁ v₂ v₃ : View} (h : v₁.Thinned v₂) (h' : v₂.Thinned v₃) :
    v₁.Thinned v₃ :=
  ⟨fun k => (h.streams k).trans (h'.streams k), h'.certs.trans h.certs,
    h'.directives.trans h.directives, h'.settle.trans h.settle, h'.applied.trans h.applied,
    h'.hlcState.trans h.hlcState, h'.now.trans h.now⟩

end View

/-- The id of an append that was committed. -/
def Settled.appendedId : Settled → Option EntryId
  | .appended id => some id
  | _ => none

/-- What a pruning item does: it thins streams and settles with a report or a refusal. -/
def View.Pruned (v v' : View) : Prop :=
  ∃ v₁ r, v.Thinned v₁ ∧ r.appendedId = none ∧ v' = v₁.done r

/-- A transaction over coherent caches whose view is a thinned `v`. -/
structure Thins (env : Env) (v : View) (t : Txn) : Prop where
  ready : Ready env t
  thinned : v.Thinned (t.view env)

namespace Thins

theorem refl (ht : Ready env t) : Thins env (t.view env) t := ⟨ht, .refl _⟩

theorem congr (h : Thins env v t) (ht' : Ready env t') (hv : t'.view env = t.view env) :
    Thins env v t' := ⟨ht', hv ▸ h.thinned⟩

theorem refault (h : Thins env v t) (fault : Option Nat) :
    Thins env v { t with fault := fault } := h.congr ⟨h.ready.coherent⟩ rfl

theorem query {f : Db → α} (h : Thins env v t)
    (hQ : ∀ t', Thins env v t' → t'.core = t.core → Q (f t.core.db) t') :
    Returns E (Seqscribe.query f) t Q :=
  query_spec fun fault _ => hQ _ (h.refault fault) rfl

/-- A write to a table that no view shows. -/
theorem with_db (h : Thins env v t) (f : Db → Db)
    (hview : ∀ fault, { t with core.db := f t.core.db, fault := fault }.view env = t.view env)
    (hw : (f t.core.db).sqWriters = t.core.db.sqWriters)
    (hc : (f t.core.db).sqFinality = t.core.db.sqFinality)
    (hf : (f t.core.db).sqFloors = t.core.db.sqFloors)
    (hQ : ∀ t', Thins env v t' → t'.core.db = f t.core.db → Q () t') :
    Returns E (execute f) t Q :=
  execute_spec fun fault => hQ _
    (h.congr ⟨(h.ready.of_db f hw hc hf).coherent⟩ (hview fault)) rfl

theorem dropLogCount (h : Thins env v t)
    (hQ : ∀ t', Thins env v t' → t'.core.db = t.core.db → Q () t') :
    Returns E (Store.dropLogCount T) t Q := by
  refine .modify rfl (hQ _ (h.congr ⟨?_⟩ rfl) rfl)
  obtain ⟨h₁, h₂, h₃, h₄, h₅⟩ := h.ready.coherent
  exact ⟨h₁, h₂, h₃, h₄, h₅⟩

/-- Rows that leave the log thin its streams. -/
theorem with_log (h : Thins env v t) (p : LogRow → Bool) (fault : Option Nat) :
    Thins env v { t with core.db.sqLog := t.core.db.sqLog.filter p, fault := fault } := by
  refine ⟨⟨(h.ready.of_db (fun db => { db with sqLog := db.sqLog.filter p }) rfl rfl rfl).coherent⟩,
    h.thinned.trans ⟨fun k => ⟨rfl, rfl, rfl, rfl, rfl, fun s => ?_, fun _ => .inl rfl, .inl rfl⟩,
      rfl, rfl, rfl, rfl, rfl, rfl⟩⟩
  simp only [Txn.view, Core.stream, Table.get_filter]
  cases t.core.db.sqLog.get (k.1, k.2, s) with
  | none => exact .inl rfl
  | some r =>
    cases hp : p r with
    | true => exact .inr (by simp [Option.filter, hp])
    | false => exact .inl (by simp [Option.filter, hp])

theorem filterLog (h : Thins env v t) (p : Db → LogRow → Bool)
    (hQ : ∀ t', Thins env v t' → Q () t') :
    Returns E (execute fun db => { db with sqLog := db.sqLog.filter (p db) }) t Q :=
  execute_spec fun fault => hQ _ (h.with_log (p t.core.db) fault)

theorem deleteLogRowids (h : Thins env v t) (hQ : ∀ t', Thins env v t' → Q () t') :
    Returns E (Store.deleteLogRowids T rowids) t Q := by
  refine .bind (.mono (.forM (fun _ => Thins env v) h fun rowid _ t' h' => ?_) fun _ t' h' => ?_)
  · exact h'.filterLog (fun _ r => !decide (r.rowid = rowid ∧ r.entry.topic = T)) fun t' h' => h'
  · split
    · exact h'.dropLogCount fun t' h' _ => hQ t' h'
    · exact .pure (hQ t' h')

theorem deleteBatches (h : Thins env v t) (hQ : ∀ n t', Thins env v t' → Q n t') :
    Returns E (Store.deleteBatches T below before fuel total) t Q := by
  induction fuel generalizing t total with
  | zero => exact .pure (hQ _ t h)
  | succ fuel ih =>
    refine .bind (h.query fun t' h' _ => ?_)
    split
    · exact .pure (hQ _ t' h')
    · refine .bind (.transaction (.mono (.forM (fun _ => Thins env v) h' fun r _ t' h' => ?_)
        fun _ t' h' => ?_))
      · exact h'.filterLog (fun _ r' => !decide (r'.rowid = r.rowid)) fun t' h' => h'
      · split
        · exact .pure (hQ _ t' h')
        · exact ih h'

theorem deleteLogRowsUpToRowid (h : Thins env v t) (hQ : ∀ n t', Thins env v t' → Q n t') :
    Returns E (Store.deleteLogRowsUpToRowid T below before) t Q := by
  refine .bind (.get (.bind (h.deleteBatches fun n t' h' => ?_)))
  split
  · exact .bind (h'.dropLogCount fun t' h' _ => .pure (hQ n t' h'))
  · exact .pure (hQ n t' h')

theorem done (h : Thins env v t) (hr : r.appendedId = none)
    (hQ : ∀ t', Ready env t' → v.Pruned (t'.view env) → Q () t') : Returns E (done r) t Q :=
  h.ready.done_spec fun t' ht' hv => hQ t' ht' ⟨_, r, h.thinned, hr, hv⟩

theorem cursorFloorOf (h : Thins env v t) (hQ : ∀ n t', Thins env v t' → Q n t') :
    Returns E (cursorFloorOf T) t Q :=
  .bind (h.query fun t' h' _ => .pure (hQ _ t' h'))

theorem rowidAtTailOffset (h : Thins env v t) (hQ : ∀ r t', Thins env v t' → Q r t') :
    Returns E (Store.rowidAtTailOffset T n) t Q := by
  unfold Store.rowidAtTailOffset
  split
  · exact .pure (hQ _ t h)
  · exact h.query fun t' h' _ => hQ _ t' h'

theorem keepNewestFloorOf (h : Thins env v t) (hQ : ∀ n t', Thins env v t' → Q n t') :
    Returns E (keepNewestFloorOf T keepNewest) t Q := by
  unfold Seqscribe.keepNewestFloorOf
  cases keepNewest with
  | none => exact .pure (hQ _ t h)
  | some keep =>
    dsimp only
    split
    · exact .pure (hQ _ t h)
    · split
      · exact .pure (hQ _ t h)
      · exact .bind (h.rowidAtTailOffset fun r t' h' => .pure (hQ _ t' h'))

end Thins

theorem processPruneTopic_spec (h : Thins env v t) (hknown : (env.topics T).isSome)
    (hQ : ∀ t', Ready env t' → v.Pruned (t'.view env) → Q () t') :
    Returns E (processPruneTopic env T olderThanMs keepNewest) t Q := by
  obtain ⟨p, hp⟩ := Option.isSome_iff_exists.1 hknown
  refine .bind (topicPolicy_spec hp ?_)
  refine .ite (fun _ => h.done rfl hQ) fun _ => ?_
  refine .ite (fun _ => h.done rfl hQ) fun _ => ?_
  refine .ite (fun _ => h.done rfl hQ) fun _ => ?_
  refine .bind (h.cursorFloorOf fun cursorFloor t h => ?_)
  refine .bind (h.keepNewestFloorOf fun keepNewestFloor t h => ?_)
  refine .bind (clock_spec env (.bind (.get ?_)))
  refine .ite (fun _ => h.done rfl hQ) fun _ => ?_
  refine .bind (.ite (fun _ => .bind (h.rowidAtTailOffset fun window t h => .pure ?_))
    fun _ => .pure ?_)
  · refine .ite (fun _ => h.done rfl hQ) fun _ => .ite (fun _ => h.done rfl hQ) fun _ => ?_
    exact .bind (h.deleteLogRowsUpToRowid fun n t h => h.done rfl hQ)
  · refine .ite (fun _ => h.done rfl hQ) fun _ => .ite (fun _ => h.done rfl hQ) fun _ => ?_
    exact .bind (h.deleteLogRowsUpToRowid fun n t h => h.done rfl hQ)

theorem processPruneSuperseded_spec (h : Thins env v t) (hknown : (env.topics T).isSome)
    (hQ : ∀ t', Ready env t' → v.Pruned (t'.view env) → Q () t') :
    Returns E (processPruneSuperseded env T uptoRowid maxRows others) t Q := by
  obtain ⟨p, hp⟩ := Option.isSome_iff_exists.1 hknown
  refine .bind (topicPolicy_spec hp ?_)
  cases p.tombstoneKind with
  | none => exact h.done rfl hQ
  | some tombstoneKind =>
    -- each pass selects rowids and deletes them, within the budget that is left
    have hpass : ∀ {P : Nat → Txn → Prop} {c : Prop} [Decidable c] (select : Db → List Nat) t,
        Thins env v t → (∀ n t', Thins env v t' → P n t') → Returns E (
          if c then do
            let rowids ← query select
            Store.deleteLogRowids T rowids
            return rowids.length
          else return 0) t P := by
      intro P c _ select t h hP
      refine .ite (fun _ => ?_) fun _ => .pure (hP 0 t h)
      exact .bind (h.query fun t h _ => .bind (h.deleteLogRowids fun t h => .pure (hP _ t h)))
    refine .bind (h.query fun t h _ => ?_)
    refine .ite (fun _ => ?_) fun _ => h.done rfl hQ
    exact .bind (hpass _ _ h fun others t h => .bind (hpass _ _ h fun superseded t h =>
      .bind (hpass _ _ h fun tombstones t h => h.done rfl hQ)))

theorem View.thinned_withLocal (v : View) (f : Stream → Stream)
    (hf : (v.streams k).Thinned (f (v.streams k))) :
    v.Thinned (v.withLocal k ((v.localAt k).map f)) := by
  refine ⟨fun k' => ?_, rfl, rfl, rfl, rfl, rfl, rfl⟩
  by_cases hk : k' = k
  · subst hk
    rw [View.withLocal_streams_self]
    exact hf
  · rw [View.withLocal_streams_of_ne _ hk]
    exact .refl _

/-- The seq of the floor; 0 without one. -/
def Stream.floorSeq (S : Stream) : Nat := (S.floor.map Floor.seq).getD 0

/-- A stream is thinned, beyond its floor only up to a bound that `B` allows. -/
structure Stream.Cleared (B : Nat → Prop) (S S' : Stream) : Prop extends S.Thinned S' where
  above : ∀ s e, S.rows s = some e → S'.rows s = none → s ≤ S.floorSeq ∨ ∃ b, B b ∧ s ≤ b
  raised : S'.floor = S.floor ∨ ∃ b, B b ∧ S'.floorSeq ≤ b

theorem Stream.Cleared.refl (S : Stream) : S.Cleared B S := by
  refine ⟨.refl S, fun s e hrow hnone => ?_, .inl rfl⟩
  rw [hrow] at hnone
  cases hnone

theorem Stream.Cleared.trans {S₁ S₂ S₃ : Stream} (h : S₁.Cleared B S₂) (h' : S₂.Cleared B S₃) :
    S₁.Cleared B S₃ := by
  refine ⟨h.toThinned.trans h'.toThinned, fun s e hrow hnone => ?_, ?_⟩
  · cases hmid : S₂.rows s with
    | none => exact h.above s e hrow hmid
    | some e' =>
      refine (h'.above s e' hmid hnone).elim (fun hs => ?_) .inr
      rcases h.raised with hfloor | ⟨b, hb, hle⟩
      · rw [floorSeq, hfloor] at hs
        exact .inl hs
      · exact .inr ⟨b, hb, hs.trans hle⟩
  · rcases h'.raised with hfloor | hraised
    · rw [hfloor, floorSeq, hfloor]
      exact h.raised
    · exact .inr hraised

theorem Stream.Cleared.mono {S S' : Stream} {B B' : Nat → Prop} (h : S.Cleared B S') (hB : ∀ b, B b → B' b) :
    S.Cleared B' S' :=
  ⟨h.toThinned, fun s e hrow hnone => (h.above s e hrow hnone).imp_right
    fun ⟨b, hb, hs⟩ => ⟨b, hB b hb, hs⟩, h.raised.imp_right fun ⟨b, hb, hs⟩ => ⟨b, hB b hb, hs⟩⟩

/-- Streams are cleared up to their bounds; nothing else but the reports changes. -/
structure View.Cleared (B : StreamId → Nat → Prop) (v v' : View) : Prop where
  thinned : v.Thinned v'
  streams : ∀ k, (v.streams k).Cleared (B k) (v'.streams k)

theorem View.Cleared.refl (v : View) : v.Cleared B v := ⟨.refl v, fun _ => .refl _⟩

theorem View.Cleared.trans {v₁ v₂ v₃ : View} (h : v₁.Cleared B v₂) (h' : v₂.Cleared B v₃) :
    v₁.Cleared B v₃ :=
  ⟨h.thinned.trans h'.thinned, fun k => (h.streams k).trans (h'.streams k)⟩

theorem View.cleared_withLocal {B : StreamId → Nat → Prop} (v : View) (f : Stream → Stream)
    (hf : (v.streams k).Cleared (B k) (f (v.streams k))) :
    v.Cleared B (v.withLocal k ((v.localAt k).map f)) := by
  refine ⟨View.thinned_withLocal v f hf.toThinned, fun k' => ?_⟩
  by_cases hk : k' = k
  · subst hk
    rw [View.withLocal_streams_self]
    exact hf
  · rw [View.withLocal_streams_of_ne _ hk]
    exact .refl _

/-- A property of transactions that survives where the view and the acknowledgments stay. -/
structure Observes (env : Env) (I : Txn → Prop) : Prop where
  ready : ∀ t, I t → Ready env t
  congr : ∀ t t', I t → Ready env t' → t'.view env = t.view env →
    t'.core.db.sqAcks = t.core.db.sqAcks → I t'

namespace Observes

variable {I : Txn → Prop}

theorem refault (hI : Observes env I) (h : I t) (fault : Option Nat) :
    I { t with fault := fault } :=
  hI.congr t _ h ⟨(hI.ready t h).coherent⟩ rfl rfl

theorem query {f : Db → α} (hI : Observes env I) (h : I t)
    (hQ : ∀ t', I t' → t'.core = t.core → Q (f t.core.db) t') :
    Returns E (Seqscribe.query f) t Q :=
  query_spec fun fault _ => hQ _ (hI.refault h fault) rfl

/-- A write to a table that no view shows. -/
theorem execute (hI : Observes env I) (h : I t) (f : Db → Db)
    (hview : ∀ fault, { t with core.db := f t.core.db, fault := fault }.view env = t.view env)
    (hw : (f t.core.db).sqWriters = t.core.db.sqWriters)
    (hc : (f t.core.db).sqFinality = t.core.db.sqFinality)
    (hf : (f t.core.db).sqFloors = t.core.db.sqFloors)
    (hacks : (f t.core.db).sqAcks = t.core.db.sqAcks)
    (hQ : ∀ t', I t' → Q () t') : Returns E (Seqscribe.execute f) t Q :=
  execute_spec fun fault => hQ _ (hI.congr t _ h
    ⟨((hI.ready t h).of_db f hw hc hf).coherent⟩ (hview fault) hacks)

theorem getStream (hI : Observes env I) (h : I t) (hQ : ∀ head t', I t' → Q head t') :
    Returns E (getStream env T w) t Q := by
  have hread : Returns E (Seqscribe.getStream env T w) t fun _ t' =>
      Ready env t' ∧ t'.view env = t.view env :=
    getStream_spec ((hI.ready t h).at (T, w)) fun t' h' =>
      ⟨h'.ready, h'.view_eq.trans (View.withLocal_localAt _)⟩
  refine .mono ((StaysAside.getStream env T w).returns hread) ?_
  rintro head t' ⟨⟨hready, hview⟩, haside⟩
  exact hQ head t' (hI.congr t t' h hready hview haside.acks)

theorem writerNewestOf (hI : Observes env I) (h : I t) (hQ : ∀ newest t', I t' → Q newest t') :
    Returns E (writerNewestOf T streams) t Q := by
  refine .mono (.foldlM (fun _ _ => I) h ?_) hQ
  intro s _ out t h
  refine .ite (fun _ => .pure h) fun _ => .bind (hI.query h fun t h _ => ?_)
  split <;> exact .pure h

end Observes

/-- A member that a call counts: neither excluded nor lagging. -/
def Counted (members : List AckedPruneMember) (m : WriterId) : Prop :=
  ∃ x ∈ members, x.node = m ∧ x.excluded = none

/-- No member of a plan is the pruner, and the counted ones are included. -/
structure MemberPlan.Sound (plan : MemberPlan) (pruner : WriterId) : Prop where
  others : ∀ x ∈ plan.members, x.node ≠ pruner
  counted : ∀ m, Counted plan.members m → m ∈ plan.included

theorem planMember_spec {I : Txn → Prop} (hI : Observes env I) (h : I t)
    (hplan : plan.Sound pruner) (hnode : node ≠ pruner)
    (hQ : ∀ plan t', plan.Sound pruner → I t' → Q plan t') :
    Returns E (planMember T o recorded newest now plan node) t Q := by
  have hadd : ∀ (x : AckedPruneMember) forget, x.node = node → MemberPlan.Sound
      ⟨plan.members ++ [x], if x.excluded = none then plan.included ++ [node] else plan.included,
        forget⟩ pruner := by
    rintro x forget rfl
    constructor
    · intro y hy
      rcases List.mem_append.1 hy with hy | hy
      · exact hplan.others y hy
      · rw [List.mem_singleton.1 hy]
        exact hnode
    · rintro m ⟨y, hy, rfl, hnone⟩
      rcases List.mem_append.1 hy with hy | hy
      · have hin := hplan.counted y.node ⟨y, hy, rfl, hnone⟩
        dsimp only
        split
        · exact List.mem_append_left _ hin
        · exact hin
      · rw [List.mem_singleton.1 hy] at hnone ⊢
        dsimp only
        rw [if_pos hnone]
        exact List.mem_append_right _ (List.mem_singleton.2 rfl)
  unfold planMember
  refine .bind ?_
  split
  · exact .pure (.pure (hQ _ t (hadd _ _ rfl) h))
  · refine .ite (fun _ => .ite (fun _ => .bind ?_) fun _ => ?_)
      fun _ => .pure (.pure (hQ _ t (hadd _ _ rfl) h))
    · exact hI.execute h (fun db => { db with
        sqAckNodes := db.sqAckNodes.insertIgnore ⟨T, node, now, none, none⟩ })
        (fun _ => rfl) rfl rfl rfl rfl fun t h => .pure (.pure (hQ _ t (hadd _ _ rfl) h))
    · exact .pure (.pure (hQ _ t (hadd _ _ rfl) h))

theorem planMembers_spec {I : Txn → Prop} (hI : Observes env I) (h : I t)
    (hQ : ∀ plan t', plan.Sound pruner → I t' → Q plan t') :
    Returns E (planMembers T o streams pruner now) t Q := by
  have hempty : MemberPlan.Sound ⟨[], [], []⟩ pruner := by
    constructor
    · intro x hx
      cases hx
    · rintro m ⟨x, hx, -⟩
      cases hx
  refine .bind (hI.query h fun t h _ => .bind (hI.writerNewestOf h fun newest t h => ?_))
  refine .mono (.foldlM (fun rest plan t =>
    (∀ node ∈ rest, node ≠ pruner) ∧ plan.Sound pruner ∧ I t) ⟨?_, hempty, h⟩ ?_)
    fun plan t' h => hQ plan t' h.2.1 h.2.2
  · intro node hnode
    exact of_decide_eq_true (List.mem_filter.1 ((List.mem_insertionSort _).1 hnode)).2
  · rintro node rest plan t ⟨hrest, hplan, h⟩
    exact planMember_spec hI h hplan (hrest node List.mem_cons_self) fun plan t' hplan h =>
      ⟨fun node hnode => hrest node (List.mem_cons_of_mem _ hnode), hplan, h⟩

/-- The least of what the nodes acknowledged. -/
theorem foldl_ackFloor_le (acked : WriterId → Nat) (nodes : List WriterId) (out : AckFloor) :
    (nodes.foldl (fun out node => if acked node < out.ackFloor then ⟨acked node, some node⟩ else out)
      out).ackFloor ≤ out.ackFloor ∧
    ∀ node ∈ nodes, (nodes.foldl (fun out node =>
      if acked node < out.ackFloor then ⟨acked node, some node⟩ else out) out).ackFloor ≤
        acked node := by
  induction nodes generalizing out with
  | nil => exact ⟨Nat.le_refl _, fun _ h => by cases h⟩
  | cons node nodes ih =>
    rw [List.foldl_cons]
    obtain ⟨hout, hnodes⟩ := ih (if acked node < out.ackFloor then ⟨acked node, some node⟩ else out)
    have hle : (if acked node < out.ackFloor then (⟨acked node, some node⟩ : AckFloor)
        else out).ackFloor ≤ min (acked node) out.ackFloor := by
      split
      · next hlt => exact le_min (Nat.le_refl _) (Nat.le_of_lt hlt)
      · next hge => exact le_min (Nat.le_of_not_lt hge) (Nat.le_refl _)
    refine ⟨hout.trans (hle.trans (Nat.min_le_right ..)), fun node' hnode' => ?_⟩
    rcases List.mem_cons.1 hnode' with rfl | hnode'
    · exact hout.trans (hle.trans (Nat.min_le_left ..))
    · exact hnodes node' hnode'

/-- What the recorded acknowledgments let a call take of a stream: of every counted member one of
the stream is recorded, or the member is its author and none is, or nothing goes. -/
def AcksAllow (T : Topic) (acks : List AckRow) (members : List AckedPruneMember) (k : StreamId)
    (b : Nat) : Prop :=
  k.1 = T ∧ ∀ m, Counted members m →
    (∃ a ∈ acks, a.topic = T ∧ a.node = m ∧ a.writer = k.2 ∧ b ≤ a.seq) ∨
    (m = k.2 ∧ ∀ a ∈ acks, ¬ (a.topic = T ∧ a.node = m ∧ a.writer = k.2)) ∨ b = 0

theorem ackFloorOf_allowed {plan : MemberPlan} (hplan : plan.Sound pruner)
    (hacks : ∀ a, a ∈ acks ↔ a ∈ recorded ∧ a.topic = T) :
    AcksAllow T recorded plan.members (T, s.writer) (ackFloorOf acks plan.included s).ackFloor := by
  refine ⟨rfl, fun m hm => ?_⟩
  have hle := (foldl_ackFloor_le (fun node =>
    ((acks.find? fun a => decide (a.node = node ∧ a.writer = s.writer)).map AckRow.seq).getD
      (if node = s.writer then
        if s.sealReason = some .retired then s.finalSeq.getD s.contigSeq else s.contigSeq
      else 0)) plan.included
    ⟨if s.sealReason = some .retired then s.finalSeq.getD s.contigSeq else s.contigSeq, none⟩).2 m
    (hplan.counted m hm)
  cases hfind : acks.find? fun a => decide (a.node = m ∧ a.writer = s.writer) with
  | some a =>
    rw [hfind] at hle
    obtain ⟨hin, hT⟩ := (hacks a).1 (List.mem_of_find?_eq_some hfind)
    have hfound := List.find?_some hfind
    obtain ⟨hnode, hwriter⟩ := of_decide_eq_true hfound
    exact .inl ⟨a, hin, hT, hnode, hwriter, hle⟩
  | none =>
    rw [hfind] at hle
    by_cases hself : m = s.writer
    · refine .inr (.inl ⟨hself, ?_⟩)
      rintro a ha ⟨hT, hnode, hwriter⟩
      exact absurd (decide_eq_true ⟨hnode, hwriter⟩)
        (List.find?_eq_none.1 hfind a ((hacks a).2 ⟨ha, hT⟩))
    · rw [if_neg hself] at hle
      exact .inr (.inr (Nat.le_zero.1 hle))

theorem Stream.thinned_raiseFloor {S : Stream} (hrow : S.rows s = some e) :
    S.Thinned (S.raiseFloor s e.chain) := by
  unfold raiseFloor
  split
  · exact ⟨rfl, rfl, rfl, rfl, rfl, fun _ => .inr rfl, fun _ => .inl rfl, .inr ⟨s, e, hrow, rfl⟩⟩
  · exact .refl S

theorem Stream.raiseFloor_eq_of_lt {S : Stream} (hfloor : S.floorSeq < s) :
    S.raiseFloor s chain = { S with floor := some ⟨s, chain⟩ } := by
  refine if_pos ?_
  unfold floorSeq at hfloor
  cases hf : S.floor with
  | none => rfl
  | some f =>
    rw [hf] at hfloor
    exact decide_eq_true hfloor

theorem Stream.floorSeq_raiseFloor {S : Stream} (hfloor : S.floorSeq < s) :
    (S.raiseFloor s chain).floorSeq = s := by
  rw [raiseFloor_eq_of_lt hfloor]
  rfl

/-- A floor is raised to a row that is held, within a bound. -/
theorem Stream.cleared_raiseFloor {S : Stream} (hrow : S.rows s = some e) (hb : B b) (hle : s ≤ b)
    (hfloor : S.floorSeq < s) : S.Cleared B (S.raiseFloor s e.chain) := by
  refine ⟨thinned_raiseFloor hrow, fun s' e' hrow' hnone => ?_, .inr ⟨b, hb, ?_⟩⟩
  · have hrows : (S.raiseFloor s e.chain).rows = S.rows := by
      unfold raiseFloor
      split <;> rfl
    rw [hrows, hrow'] at hnone
    cases hnone
  · rw [floorSeq_raiseFloor hfloor]
    exact hle

theorem prunablePrefix_le (h : r ∈ prunablePrefix target cursorFloor cutoff rows) :
    r.entry.seq ≤ target := by
  have hp := List.mem_takeWhile_imp (show r ∈ List.takeWhile _ rows from h)
  exact (of_decide_eq_true hp).1

/-- A transaction over coherent caches whose view is `v` with streams cleared up to bounds. -/
structure Clears (env : Env) (B : StreamId → Nat → Prop) (v : View) (t : Txn) : Prop where
  ready : Ready env t
  cleared : v.Cleared B (t.view env)

theorem Clears.observes (env : Env) (B : StreamId → Nat → Prop) (v : View) :
    Observes env (Clears env B v) :=
  ⟨fun _ h => h.ready, fun _ _ h ht' hv _ => ⟨ht', hv ▸ h.cleared⟩⟩

namespace Clears

variable {B : StreamId → Nat → Prop}

theorem thins (h : Clears env B v t) : Thins env v t := ⟨h.ready, h.cleared.thinned⟩

/-- Rows leave the log, within the floors and the bounds. -/
theorem with_log (h : Clears env B v t) (p : LogRow → Bool)
    (hp : ∀ r ∈ t.core.db.sqLog.rows, p r = false →
      r.entry.seq ≤ ((t.view env).streams r.entry.stream).floorSeq ∨
        ∃ b, B r.entry.stream b ∧ r.entry.seq ≤ b) (fault : Option Nat) :
    Clears env B v { t with core.db.sqLog := t.core.db.sqLog.filter p, fault := fault } := by
  have hthins := (Thins.refl h.ready).with_log p fault
  refine ⟨hthins.ready, h.cleared.trans ⟨hthins.thinned, fun k => ⟨hthins.thinned.streams k, ?_,
    .inl rfl⟩⟩⟩
  intro s e hrow hnone
  obtain ⟨r, hr, rfl⟩ := Option.map_eq_some_iff.1 hrow
  have hid := log_id_of_get hr
  have hk : r.entry.stream = k := Prod.ext (congrArg (fun id : EntryId => id.1) hid)
    (congrArg (fun id : EntryId => id.2.1) hid)
  have hs : r.entry.seq = s := congrArg (fun id : EntryId => id.2.2) hid
  have hgone : p r = false := by
    by_contra hkept
    have hget : (t.core.db.sqLog.filter p).get (k.1, k.2, s) = some r := by
      rw [Table.get_filter, hr, Option.filter, if_pos (Bool.eq_true_of_not_eq_false hkept)]
    have hnone : ((t.core.db.sqLog.filter p).get (k.1, k.2, s)).map LogRow.entry = none := hnone
    rw [hget] at hnone
    cases hnone
  have hbound := hp r (Table.get_eq_some_iff.1 hr).1 hgone
  rw [hk, hs] at hbound
  exact hbound

theorem recordFloor (h : Clears env B v t) (hrow : ((t.view env).streams (T, w)).rows s = some e)
    (hfloor : ((t.view env).streams (T, w)).floorSeq < s) (hb : B (T, w) b) (hle : s ≤ b)
    (hQ : ∀ t', Clears env B v t' → ((t'.view env).streams (T, w)).floorSeq = s → Q () t') :
    Returns E (recordFloor T w s now) t Q := by
  have hat := h.ready.at (T, w)
  have hchain : (t.core.db.sqLog.get (T, w, s)).map (·.entry.chain) = some e.chain := by
    have := congrArg (Option.map LogEntry.chain) hrow
    rwa [show ((t.view env).streams (T, w)).rows s =
      (t.core.db.sqLog.get (T, w, s)).map LogRow.entry from rfl, Option.map_map] at this
  refine .bind (query_at hat fun t₁ h₁ => .bind (execute_spec fun fault => .modify rfl ?_))
  rw [hchain]
  have hraised : ∀ t', At env (T, w) (t.view env)
      (((t.view env).localAt (T, w)).map (Stream.raiseFloor s e.chain)) t' → Q () t' := by
    intro t' h'
    refine hQ t' ⟨h'.ready, h.cleared.trans ?_⟩ ?_
    · rw [h'.view_eq]
      exact View.cleared_withLocal _ (Stream.raiseFloor s e.chain)
        (Stream.cleared_raiseFloor hrow hb hle hfloor)
    · rw [h'.view_eq, View.withLocal_streams_self]
      exact Stream.floorSeq_raiseFloor hfloor
  refine hraised _ (h₁.floorSet s now e.chain (some (some ⟨s, e.chain⟩)) fault ?_)
  rintro _ ⟨⟩
  exact (congrArg Stream.floor (Stream.raiseFloor_eq_of_lt hfloor)).symm

theorem deleteStreamPrefix (h : Clears env B v t)
    (hs : s ≤ ((t.view env).streams (T, w)).floorSeq) (hQ : ∀ t', Clears env B v t' → Q () t') :
    Returns E (Store.deleteStreamPrefix T w s) t Q := by
  have hobs := observes env B v
  refine .bind (execute_spec fun fault => ?_)
  have hlog := h.with_log (fun r => !(Store.inStream T w r && decide (r.entry.seq ≤ s))) (by
    intro r _ hr
    simp only [Bool.not_eq_false', Bool.and_eq_true, decide_eq_true_eq] at hr
    obtain ⟨hT, hw⟩ := of_decide_eq_true hr.1
    rw [show r.entry.stream = (T, w) from Prod.ext hT hw]
    exact .inl (hr.2.trans hs)) fault
  refine .bind (hobs.execute hlog (fun db => { db with
    sqAnnotations := db.sqAnnotations.filter fun r =>
      !decide (r.topic = T ∧ r.writer = w ∧ r.seq ≤ s) }) (fun _ => rfl) rfl rfl rfl rfl
    fun t h => ?_)
  refine .modify rfl (hQ _ (hobs.congr t _ h ⟨?_⟩ rfl rfl))
  obtain ⟨h₁, h₂, h₃, h₄, h₅⟩ := h.ready.coherent
  exact ⟨h₁, h₂, h₃, h₄, h₅⟩

/-- A prefix goes with the floor raised to its end, unless the floor is beyond it. -/
theorem dropPrefix (h : Clears env B v t) (hrow : ((t.view env).streams (T, w)).rows s = some e)
    (hfloor : ((t.view env).streams (T, w)).floorSeq = prev) (hb : B (T, w) b)
    (hle : s ≤ max b prev) (hQ : ∀ t', Clears env B v t' → Q () t') :
    Returns E (dropPrefix T w prev s now) t Q := by
  refine .ite (fun hgt => .bind (h.recordFloor hrow (hfloor ▸ hgt) hb ?_ fun t h hs => ?_))
    fun hle => ?_
  · rcases le_max_iff.1 hle with hle | hle
    · exact hle
    · exact absurd hle (Nat.not_le.2 hgt)
  · exact h.deleteStreamPrefix (Nat.le_of_eq hs.symm) hQ
  · exact h.deleteStreamPrefix (hfloor ▸ Nat.le_of_not_lt hle) hQ

theorem pruneAckedStream (h : Clears env B v t)
    (hb : B (T, s.writer) (ackFloorOf acks included s).ackFloor)
    (hQ : ∀ acc t', Clears env B v t' → Q acc t') :
    Returns E (pruneAckedStream T o acks included cursorFloor now acc s) t Q := by
  have hobs := observes env B v
  refine .bind (floorOf_spec (h.ready.at (T, s.writer)) fun t₁ h₁ => ?_)
  have hv₁ := h₁.view_eq
  rw [View.withLocal_localAt] at hv₁
  have hprev : ((t₁.view env).streams (T, s.writer)).floorSeq =
      (((t.view env).localAt (T, s.writer)).stream.floor.map Floor.seq).getD 0 := by
    rw [hv₁]
    rfl
  have h : Clears env B v t₁ := ⟨h₁.ready, hv₁ ▸ h.cleared⟩
  refine .ite (fun _ => .pure (hQ _ t₁ h)) fun _ => ?_
  refine .ite (fun _ => .pure (hQ _ t₁ h)) fun _ => ?_
  refine .ite (fun _ => .pure (hQ _ t₁ h)) fun _ => ?_
  refine .bind (hobs.query h fun t₂ h hcore => ?_)
  dsimp only
  split
  · exact .pure (hQ _ t₂ h)
  · next last hlast =>
    have hmem := List.mem_of_mem_take (List.mem_of_getLast? hlast)
    have hle := prunablePrefix_le hmem
    replace hmem := List.takeWhile_subset _ hmem
    obtain ⟨hmem, hin⟩ := Table.mem_selectBy.1 (List.mem_of_mem_take hmem)
    have hrow : ((t₂.view env).streams (T, s.writer)).rows last.entry.seq = some last.entry := by
      obtain ⟨hT, hw⟩ := of_decide_eq_true hin
      have hget := log_get_of_mem hmem
      rw [LogEntry.id, hT, hw, ← hcore] at hget
      exact congrArg (Option.map LogRow.entry) hget
    refine .ite (fun _ => .bind (h.dropPrefix hrow ?_ hb ?_ fun t₃ h => .pure (hQ _ t₃ h)))
      fun _ => .pure (hQ _ t₂ h)
    · rw [← hprev]
      unfold Txn.view
      rw [hcore]
    · exact hle.trans (max_le_max_right _ (Nat.min_le_left ..))

theorem ackForget (h : Clears env B v t) (hQ : ∀ t', Clears env B v t' → Q () t') :
    Returns E (Store.ackForget T node) t Q := by
  refine .bind (execute_spec fun fault => execute_spec fun fault' => hQ _ ⟨?_, h.cleared⟩)
  obtain ⟨h₁, h₂, h₃, h₄, h₅⟩ := h.ready.coherent
  exact ⟨⟨h₁, h₂, h₃, h₄, h₅⟩⟩

end Clears

/-- What a `pruneAcked` call clears is within what every member that its report counts has
acknowledged. -/
theorem processPruneAcked_clears (ht : Ready env t) (hknown : (env.topics T).isSome)
    (hrefused : ∀ e t', Ready env t' → t'.view env = (t.view env).done (.rejected e) → Q () t')
    (hpruned : ∀ r v t', Ready env t' → env.ackedRetention T = true →
      (∀ x ∈ r.members, x.node ≠ env.writerId) →
      (t.view env).Cleared (AcksAllow T t.core.db.sqAcks.rows r.members) v →
      t'.view env = v.done (.ackedPruned r) → Q () t') :
    Returns E (processPruneAcked env T o maxRows) t Q := by
  refine .bind (ackedRetentionRefusal_spec hknown fun refusal hrefusal => ?_)
  cases refusal with
  | some refusal => exact ht.done_spec fun t' ht' hv => hrefused _ t' ht' hv
  | none =>
    have hacked : env.ackedRetention T = true := by
      rw [Option.isSome_none, eq_comm, Bool.not_eq_false'] at hrefusal
      exact hrefusal
    -- until the streams are pruned nothing shows
    have hread : Observes env fun t' => Ready env t' ∧ t'.view env = t.view env ∧
        t'.core.db.sqAcks = t.core.db.sqAcks :=
      ⟨fun _ h => h.1, fun _ _ h ht' hv hacks => ⟨ht', hv.trans h.2.1, hacks.trans h.2.2⟩⟩
    refine .bind (clock_spec env (.bind (hread.query ⟨ht, rfl, rfl⟩ fun t₁ h₁ _ => ?_)))
    refine .bind (.mono (.foldlM (fun _ _ t' => Ready env t' ∧ t'.view env = t.view env ∧
      t'.core.db.sqAcks = t.core.db.sqAcks) h₁ fun w _ heads t' h =>
        .bind (hread.getStream h fun head t' h => .pure h)) fun heads t₁ h₁ => ?_)
    refine .bind (.get (.bind (planMembers_spec hread h₁ fun plan t₁ hplan h₁ => ?_)))
    refine .bind (hread.query h₁ fun t₂ h₂ hcore => .bind (.bind (hread.query h₂
      fun t₂ h₂ _ => .pure ?_)))
    have hcleared : Clears env (AcksAllow T t.core.db.sqAcks.rows plan.members) (t.view env) t₂ :=
      ⟨h₂.1, h₂.2.1 ▸ .refl _⟩
    have hallowed : ∀ s : StreamView, AcksAllow T t.core.db.sqAcks.rows plan.members (T, s.writer)
        (ackFloorOf (t₁.core.db.sqAcks.rows.filter fun r => r.topic = T) plan.included
          s).ackFloor := by
      intro s
      refine ackFloorOf_allowed hplan fun a => ?_
      rw [List.mem_filter, h₁.2.2, decide_eq_true_iff]
    refine .bind (.mono (.foldlM (fun _ _ => Clears env _ (t.view env)) hcleared
      fun s _ acc t' h => h.pruneAckedStream (hallowed s) fun acc t' h => h) fun result t₂ h₂ => ?_)
    have hdone : ∀ t₃, Clears env (AcksAllow T t.core.db.sqAcks.rows plan.members) (t.view env) t₃ →
        Returns E (done (.ackedPruned ⟨result.pruned, result.more, result.writers, plan.members⟩))
          t₃ Q := fun t₃ h₃ =>
      h₃.ready.done_spec fun t' ht' hv => hpruned _ _ t' ht' hacked hplan.others h₃.cleared hv
    refine .ite (fun _ => .bind (.mono (.forM (fun _ => Clears env _ (t.view env)) h₂
      fun node _ t' h => h.ackForget fun t' h => h)
        fun _ t₃ h₃ => hdone t₃ h₃)) fun _ => hdone t₂ h₂

theorem processPruneAcked_spec (h : Thins env v t) (hknown : (env.topics T).isSome)
    (hQ : ∀ t', Ready env t' → v.Pruned (t'.view env) → Q () t') :
    Returns E (processPruneAcked env T o maxRows) t Q := by
  refine processPruneAcked_clears h.ready hknown (fun e t' ht' hv => ?_)
    fun r v' t' ht' _ _ hclear hv => ?_
  · exact hQ t' ht' ⟨t.view env, .rejected e, h.thinned, rfl, hv⟩
  · exact hQ t' ht' ⟨v', .ackedPruned r, h.thinned.trans hclear.thinned, rfl, hv⟩

end Seqscribe
