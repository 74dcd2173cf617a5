import Seqscribe.Absorption
import Seqscribe.Run

namespace Seqscribe
set_option autoImplicit true

/-! Full-sync topics are never retired, so their streams stay sound. What a stream holds stays
within a position as long as what arrives for it does. -/

variable {env : Env} {E : SeqscribeError → Prop} {t : Txn} {v v' : View} {k : StreamId}
  {S S' : Stream} {L : Local}

def Env.isFullSync (env : Env) (topic : Topic) : Bool :=
  (env.topics topic).any fun p => decide (p.replication = .fullSync)

/-- The retirement of a full-sync topic. -/
def QueueItem.RetiresFullSync (item : QueueItem env) : Prop :=
  ∃ topic known, item = .retireTopic topic known ∧ env.isFullSync topic = true

theorem processRetireTopic_fullSync (ht : Ready env t) (hfull : env.isFullSync T = true)
    (hQ : ∀ e t', Ready env t' → t'.view env = (t.view env).done (.rejected e) → Q () t') :
    Returns E (processRetireTopic env T) t Q := by
  obtain ⟨p, hp, hsync⟩ := (Option.any_eq_true ..).1 hfull
  refine .bind (topicPolicy_spec hp ?_)
  refine .ite (fun _ => ht.done_spec (hQ _)) fun _ => ?_
  exact .ite (fun _ => ht.done_spec (hQ _)) fun hother => absurd (of_decide_eq_true hsync) hother

/-- Each item takes its step, and the retirement of a full-sync topic is rejected. -/
theorem processItem_fullSync (item : QueueItem env) (ht : Ready env t) :
    Returns (fun _ => True) (processItem env item) t fun _ t' =>
      Ready env t' ∧ ItemStep env item.RetiresFullSync item (t.view env) (t'.view env) := by
  by_cases hretire : item.RetiresFullSync
  · obtain ⟨topic, known, rfl, hfull⟩ := hretire
    exact processRetireTopic_fullSync ht hfull fun e t' ht' hv => ⟨ht', .inl ⟨e, hv⟩⟩
  · exact processItem_spec item ht (fun h => absurd trivial h) (fun _ _ _ => trivial)
      fun h => absurd h hretire

theorem processQueued_fullSync (q : Queued env) (ht : Ready env t) :
    Returns (fun _ => True) (processQueued env q) t fun _ t' => Ready env t' ∧
      ItemStep env q.2.RetiresFullSync q.2 { t.view env with now := q.1.now } (t'.view env) :=
  .bind (.modify rfl (processItem_fullSync (t := { t with ambient := q.1 }) q.2 ⟨ht.coherent⟩))

/-- The moves of an item on a stream of a full-sync topic. -/
theorem ItemStep.moves_fullSync {item : QueueItem env}
    (h : ItemStep env item.RetiresFullSync item v v') (hid : ∀ k, (v.streams k).head.stream = k)
    (hfull : env.isFullSync k.1 = true) (hS : (v.streams k).Sound k) :
    (v.streams k).Moves env (item.Does v k) (v'.streams k) :=
  h.moves_at hid (fun known hitem => ⟨k.1, known, hitem, hfull⟩) hS

/-! The floor of a stream. -/

theorem Stream.Move.floor_eq (h : S.Move env a S') (hshelve : a ≠ .shelve) (hthin : a ≠ .thin) :
    S'.floor = S.floor := by
  cases h with
  | advance _ e hid hseq hchain =>
    change (S.put env e).floor = S.floor
    unfold Stream.put
    split <;> rfl
  | shelve => exact absurd rfl hshelve
  | thin => exact absurd rfl hthin
  | _ => rfl

theorem Stream.Moves.floor_eq (h : S.Moves env P S') (hshelve : ¬ P .shelve) (hthin : ¬ P .thin) :
    S'.floor = S.floor :=
  h.preserves (I := fun S' => S'.floor = S.floor) (fun _ _ _ ha hsame hmove =>
    (hmove.floor_eq (fun hs => hshelve (hs ▸ ha)) fun hs => hthin (hs ▸ ha)).trans hsame) rfl

namespace Local

theorem verifyAndApply_floor (L : Local) (e : LogEntry) (via : Option String) :
    (L.verifyAndApply env e via).1.stream.floor = L.stream.floor := by
  rw [Local.verifyAndApply]
  split
  · change (L.stream.put env e).floor = _
    unfold Stream.put
    split <;> rfl
  · rfl

theorem drain_floor (L : Local) (via : Option String) (fuel : Nat) :
    (L.drain env via fuel).stream.floor = L.stream.floor := by
  induction fuel generalizing L with
  | zero => rfl
  | succ fuel ih =>
    rw [Local.drain]
    split
    · rfl
    · next next hnext =>
      have hstep : ((L.map (Stream.unpend next.seq)).verifyAndApply env next via).1.stream.floor =
          L.stream.floor := verifyAndApply_floor (L.map (Stream.unpend next.seq)) next via
      dsimp only
      split
      · exact hstep
      · exact (ih _).trans hstep

theorem mergeClock_stream (env : Env) (L : Local) (e : LogEntry) (now : Nat) :
    (L.mergeClock env e now).stream = L.stream := by
  rw [Local.mergeClock]
  split <;> rfl

theorem recoveryExtend_floor (L : Local) (e : LogEntry) (target : RecoveryTarget)
    (via : Option String) (now : Nat) :
    (L.recoveryExtend env e target via now).stream.floor = L.stream.floor := by
  have hadvance : (L.advance env e via).stream.floor = L.stream.floor := by
    change (L.stream.put env e).floor = _
    unfold Stream.put
    split <;> rfl
  rw [Local.recoveryExtend]
  split
  · rfl
  split
  · rfl
  dsimp only
  split
  · exact hadvance
  · exact hadvance

/-- External entries leave the floor alone. -/
theorem ingest_floor (L : Local) (cert : Option FinalityCert) (e : LogEntry)
    (via : Option String) (now : Nat) :
    (L.ingest env cert e via now).stream.floor = L.stream.floor := by
  rw [Local.ingest]
  split
  · split
    · split
      · rw [Local.recoveryIngest]
        split
        · split
          · rfl
          · exact recoveryExtend_floor (L.recoveryRewind env e now) e _ via now
        · exact recoveryExtend_floor ..
      · rfl
    · rfl
  split
  · rfl
  split
  · rw [Local.recheck]
    split
    · split <;> rfl
    · rfl
  split
  · rw [Local.extend]
    split
    · exact (drain_floor ..).trans ((congrArg Stream.floor (mergeClock_stream ..)).trans
        (verifyAndApply_floor ..))
    · exact verifyAndApply_floor ..
  · rw [Local.postpone]
    split
    · split <;> rfl
    · split
      · rfl
      · have hmerge := mergeClock_stream env (L.map (Stream.pend e)) e now
        exact (congrArg Stream.floor hmerge :)

theorem jumpToFloor_contigSeq (L : Local) (seq : Nat) (chain : Chain) (now : Nat) :
    (L.jumpToFloor seq chain now).stream.head.contigSeq = seq := by
  rw [jumpToFloor]
  refine (congrArg WriterRow.contigSeq (raiseFloor_eq _ seq chain).1).trans ?_
  change WriterRow.contigSeq (Option.getD _ _) = seq
  cases L.stream.recovery.filter fun tgt => decide (seq = tgt.finalSeq) with
  | none => rfl
  | some target => rfl

theorem jumpToFloor_pending (L : Local) (seq : Nat) (chain : Chain) (now : Nat) :
    (L.jumpToFloor seq chain now).stream.pending =
      L.stream.pending.filter fun e => !decide (e.seq ≤ seq) := by
  rw [jumpToFloor]
  refine congrArg (fun T : Table EntryId LogEntry LogEntry.id =>
    T.filter fun e => !decide (e.seq ≤ seq)) ((raiseFloor_eq _ seq chain).2.2.trans ?_)
  dsimp only
  split <;> rfl

theorem jumpToFloor_floorSeq (L : Local) (seq : Nat) (chain : Chain) (now : Nat) :
    (L.jumpToFloor seq chain now).stream.floorSeq ≤ max L.stream.floorSeq seq := by
  have hraise : ∀ S : Stream, (S.raiseFloor seq chain).floorSeq ≤ max S.floorSeq seq := by
    intro S
    unfold Stream.raiseFloor
    split
    · exact Nat.le_max_right ..
    · exact Nat.le_max_left ..
  rw [jumpToFloor]
  refine (hraise _).trans (Nat.le_of_eq (congrArg (max · seq) ?_))
  dsimp only
  split <;> rfl

theorem atFloor_advanced (env : Env) (L : Local) (seq : Nat) (chain : Chain) (now M : Nat) :
    Advanced M (L.jumpToFloor seq chain now) (L.atFloor env seq chain now) := by
  rw [atFloor]
  split
  · exact .drain _ none _
  · exact .refl _

theorem atFloor_below (L : Local) (chain : Chain) (now : Nat) (hM : seq ≤ M)
    (hb : L.stream.Below M) : (L.atFloor env seq chain now).stream.Below M := by
  apply (atFloor_advanced env L seq chain now M).below
  constructor
  · rw [jumpToFloor_contigSeq]
    exact hM
  · intro e he
    rw [jumpToFloor_pending, Table.rows_filter] at he
    exact hb.pending e (List.mem_of_mem_filter he)

theorem atFloor_floorSeq (L : Local) (seq : Nat) (chain : Chain) (now : Nat) :
    (L.atFloor env seq chain now).stream.floorSeq ≤
      max L.stream.floorSeq (L.atFloor env seq chain now).stream.head.contigSeq := by
  have hsame : (L.atFloor env seq chain now).stream.floor =
      (L.jumpToFloor seq chain now).stream.floor := by
    rw [atFloor]
    split
    · exact drain_floor ..
    · rfl
  have hle := (atFloor_advanced env L seq chain now seq).le
  rw [jumpToFloor_contigSeq] at hle
  have hjump := jumpToFloor_floorSeq L seq chain now
  rw [Stream.floorSeq, hsame]
  exact hjump.trans (max_le_max_left _ hle)

end Local

/-- A floor is raised to a position that the stream has reached. -/
theorem ItemStep.floorSeq_le {item : QueueItem env}
    (h : ItemStep env item.RetiresFullSync item v v') (hid : ∀ k, (v.streams k).head.stream = k)
    (hfull : env.isFullSync k.1 = true) (hS : (v.streams k).Sound k) :
    (v'.streams k).floorSeq ≤ max (v.streams k).floorSeq (v'.streams k).head.contigSeq := by
  have hmoves := h.moves_fullSync hid hfull hS
  have hsame : (v'.streams k).floor = (v.streams k).floor →
      (v'.streams k).floorSeq ≤ max (v.streams k).floorSeq (v'.streams k).head.contigSeq := by
    intro hfloor
    rw [Stream.floorSeq, hfloor]
    exact Nat.le_max_left ..
  have hpruned : v.Pruned v' →
      (v'.streams k).floorSeq ≤ max (v.streams k).floorSeq (v'.streams k).head.contigSeq := by
    rintro ⟨v₁, r, hthin, -, rfl⟩
    rcases (hthin.streams k).floor with hfloor | ⟨s, e, hrow, hfloor⟩
    · exact hsame hfloor
    · have hle := hS.row_le hrow
      rw [← (hthin.streams k).head] at hle
      have hs : ((v₁.done r).streams k).floorSeq = s :=
        congrArg (fun f => (Option.map Floor.seq f).getD 0) hfloor
      rw [hs]
      exact hle.trans (Nat.le_max_right ..)
  cases item with
  | append item => exact hsame (hmoves.floor_eq (fun h => h.2) fun h => h.2)
  | external item =>
    obtain rfl := h
    by_cases hk : k = item.entry.stream
    · subst hk
      apply hsame
      rw [View.onStream, View.withLocal_streams_self]
      exact Local.ingest_floor ..
    · apply hsame
      rw [View.onStream, View.withLocal_streams_of_ne _ hk]
  | sealStream T w => exact hsame (hmoves.floor_eq (fun h => by cases h.2) fun h => by cases h.2)
  | cert cert =>
    refine hsame (hmoves.floor_eq (fun h => ?_) fun h => ?_)
    · rcases h.2 with h | h <;> cases h
    · rcases h.2 with h | h <;> cases h
  | directive d => exact hsame (hmoves.floor_eq (fun h => h.2.2) fun h => h.2.2)
  | adopt T cut =>
    refine hsame (hmoves.floor_eq (fun h => ?_) fun h => ?_)
    · obtain ⟨c, -, -, h⟩ := h
      cases h
    · obtain ⟨c, -, -, h⟩ := h
      cases h
  | retireTopic T known =>
    exact hsame (hmoves.floor_eq (fun h => by cases h.2) fun h => by cases h.2)
  | pruneTopic => exact hpruned h
  | pruneSuperseded => exact hpruned h
  | pruneAcked => exact hpruned h
  | adoptFloor T w s chain known =>
    obtain rfl := h
    by_cases hk : k = (T, w)
    · subst hk
      rw [View.onStream, View.withLocal_streams_self]
      split
      · rw [Local.adoptFloor_eq]
        split
        · exact Nat.le_max_left ..
        split
        · exact Nat.le_max_left ..
        split
        · exact Nat.le_max_left ..
        · exact Local.atFloor_floorSeq ..
      · exact Nat.le_max_left ..
    · apply hsame
      rw [View.onStream, View.withLocal_streams_of_ne _ hk]

/-! A bound on what arrives. -/

/-- What an item brings for a stream is within a position. -/
def QueueItem.Within (item : QueueItem env) (k : StreamId) (M : Nat) : Prop :=
  match item with
  | .external item => item.entry.stream = k → item.entry.seq ≤ M
  | .adoptFloor T w s _ _ => (T, w) = k → s ≤ M
  | .adopt T _ => T ≠ k.1
  | _ => True

theorem Stream.Move.below (h : S.Move env a S') (hb : S.Below M)
    (hadvance : ∀ e, a ≠ .advance e) (hjump : ∀ s, a ≠ .jump s) (hshelve : a ≠ .shelve) :
    S'.Below M := by
  cases h with
  | advance _ e => exact absurd rfl (hadvance e)
  | jump _ s => exact absurd rfl (hjump s)
  | shelve => exact absurd rfl hshelve
  | rewind _ s hi chain why reason now hs => exact ⟨hs.trans hb.head, hb.pending⟩
  | thin _ S' hthin => exact ⟨hthin.head ▸ hb.head, hthin.pending ▸ hb.pending⟩
  | vacate => exact ⟨Nat.zero_le _, hb.pending⟩
  | fork => exact ⟨hb.head, hb.pending⟩
  | retire => exact ⟨hb.head, hb.pending⟩
  | revive => exact ⟨hb.head, hb.pending⟩
  | seek => exact ⟨hb.head, hb.pending⟩

theorem Stream.Moves.below (h : S.Moves env P S') (hb : S.Below M)
    (hadvance : ∀ e, ¬ P (.advance e)) (hjump : ∀ s, ¬ P (.jump s)) (hshelve : ¬ P .shelve) :
    S'.Below M :=
  h.preserves (I := fun S => S.Below M) (fun _ _ _ ha hb hmove => hmove.below hb
    (fun e he => hadvance e (he ▸ ha)) (fun s hs => hjump s (hs ▸ ha)) fun hs => hshelve (hs ▸ ha))
    hb

/-- Away from its author, a stream goes no further than what arrives for it. -/
theorem ItemStep.below {item : QueueItem env} (h : ItemStep env item.RetiresFullSync item v v')
    (hid : ∀ k, (v.streams k).head.stream = k) (hfull : env.isFullSync k.1 = true)
    (hS : (v.streams k).Sound k) (hk : k.2 ≠ env.writerId) (hitem : item.Within k M)
    (hb : (v.streams k).Below M) : (v'.streams k).Below M := by
  have hmoves := h.moves_fullSync hid hfull hS
  cases item with
  | append item =>
    exact hmoves.below hb (fun _ h => hk (congrArg Prod.snd h.1)) (fun _ h => h.2) fun h => h.2
  | external item =>
    obtain rfl := h
    by_cases hk : k = item.entry.stream
    · subst hk
      rw [View.onStream, View.withLocal_streams_self]
      exact (Local.Absorbed.ingest (v.localAt item.entry.stream) (hitem rfl) _ _ _).below hb
    · rw [View.onStream, View.withLocal_streams_of_ne _ hk]
      exact hb
  | sealStream T w =>
    exact hmoves.below hb (fun _ h => by cases h.2) (fun _ h => by cases h.2) fun h => by cases h.2
  | cert cert =>
    refine hmoves.below hb (fun _ h => ?_) (fun _ h => ?_) fun h => ?_
    · rcases h.2 with h | h <;> cases h
    · rcases h.2 with h | h <;> cases h
    · rcases h.2 with h | h <;> cases h
  | directive d => exact hmoves.below hb (fun _ h => h.2.2) (fun _ h => h.2.2) fun h => h.2.2
  | adopt T cut =>
    have hother : ∀ a, ¬ (QueueItem.adopt T cut : QueueItem env).Does v k a := by
      rintro a ⟨c, -, rfl, -⟩
      exact hitem rfl
    exact hmoves.below hb (fun _ => hother _) (fun _ => hother _) (hother _)
  | retireTopic T known =>
    exact hmoves.below hb (fun _ h => by cases h.2) (fun _ h => by cases h.2) fun h => by cases h.2
  | adoptFloor T w s chain known =>
    obtain rfl := h
    by_cases hk : k = (T, w)
    · subst hk
      rw [View.onStream, View.withLocal_streams_self]
      split
      · rw [Local.adoptFloor_eq]
        split
        · exact hb
        split
        · exact hb
        split
        · exact hb
        · exact Local.atFloor_below (v.localAt (T, w)) chain v.now (hitem rfl) hb
      · exact hb
    · rw [View.onStream, View.withLocal_streams_of_ne _ hk]
      exact hb
  | _ => exact hmoves.below hb (fun _ h => by cases h) (fun _ h => by cases h) fun h => by cases h

/-! Runs, one stream at a time. -/

theorem batch_stream {I : Stream → Prop} {P : Queued env → Txn → Prop} {batch : List (Queued env)}
    (ht : Ready env t) (hP : BatchEvery env P batch t) (hI : I (t.core.stream env k))
    (hitem : ∀ q ∈ batch, ∀ t, Ready env t → P q t → I (t.core.stream env k) →
      Returns (fun _ => True) (processQueued env q) t fun _ t' =>
        Ready env t' ∧ I (t'.core.stream env k)) :
    Returns (fun _ => True) (forM batch (processQueued env)) t fun _ t' =>
      Ready env t' ∧ I (t'.core.stream env k) := by
  induction batch generalizing t with
  | nil => exact .pure ⟨ht, hI⟩
  | cons q rest ih =>
    rw [List.forM_cons]
    obtain ⟨hq, hrest⟩ := hP
    refine .bind (.mono (hitem q List.mem_cons_self t ht hq hI).with_eq ?_)
    rintro _ t₁ ⟨hrun, ht₁, hI₁⟩
    rw [hrun] at hrest
    exact ih ht₁ hrest hI₁ fun q' hq' => hitem q' (List.mem_cons_of_mem _ hq')

/-- What every item keeps of a stream, and thinning and lost recoveries keep, an input keeps. -/
theorem step_stream {I : Stream → Prop} {P : Queued env → Txn → Prop} {core : Core}
    (i : Input env) (hcoh : core.Coherent env) (hP : i.Every P core)
    (hI : I (core.stream env k))
    (hitem : ∀ batch fault, i = .flush batch fault → ∀ q ∈ batch, ∀ t, Ready env t → P q t →
      I (t.core.stream env k) → Returns (fun _ => True) (processQueued env q) t fun _ t' =>
        Ready env t' ∧ I (t'.core.stream env k))
    (hthin : ∀ S S' : Stream, S.Thinned S' → I S → I S')
    (hseek : ∀ (S : Stream) target, I S → I (S.setRecovery target)) :
    (step env core i).core.Coherent env ∧ I ((step env core i).core.stream env k) := by
  obtain ⟨hcoh', hstep⟩ := step_spec False (fun _ _ => True) i hcoh False.elim
    (Input.Every.of_forall i fun _ _ => trivial)
  refine ⟨hcoh', ?_⟩
  have hview : ∀ core' : Core, I ((core'.view env).streams k) → I (core'.stream env k) :=
    fun _ h => h
  by_cases hflush : ∃ batch fault, i = .flush batch fault
  · obtain ⟨batch, fault, rfl⟩ := hflush
    change I ((flush env batch fault core).core.stream env k)
    unfold flush
    split
    · exact hI
    have hbody := flushBody_ends (R := fun v => I (v.streams k))
      (batch_stream (t := Txn.start core fault) ⟨hcoh⟩ hP hI (hitem batch fault rfl))
    unfold transaction
    cases hrun : flushBody env batch (Txn.start core fault) with
    | ok _ t => exact (hbody.of_ok hrun).2
    | error e t => exact hI
  · apply hview
    generalize (step env core i).core.view env = v' at hstep
    cases hstep with
    | commit => exact absurd ⟨_, _, rfl⟩ hflush
    | abort batch fault => exact absurd ⟨_, _, rfl⟩ hflush
    | archive h => exact hthin _ _ (h.streams k) hI
    | quiet => exact hI
    | unavailable T w =>
      by_cases hk : k = (T, w)
      · subst hk
        rw [View.noteUnavailable]
        dsimp only
        rw [Function.update_self]
        exact hseek _ _ hI
      · rw [View.noteUnavailable]
        dsimp only
        rw [Function.update_of_ne hk]
        exact hI
    | restart => exact hseek _ _ hI

theorem Stream.Sound.thinned (env : Env) (hS : S.Sound k) (hthin : S.Thinned S') : S'.Sound k := by
  have hmove : S.Move env .thin S' := .thin S S' hthin
  exact hS.move hmove

/-- The streams of full-sync topics stay sound. -/
theorem step_sound {core : Core} (i : Input env) (hcoh : core.Coherent env)
    (hfull : env.isFullSync k.1 = true) (hS : (core.stream env k).Sound k) :
    (step env core i).core.Coherent env ∧ ((step env core i).core.stream env k).Sound k := by
  apply step_stream (P := fun _ _ => True) i hcoh (Input.Every.of_forall i fun _ _ => trivial) hS
  · intro batch fault _ q _ t ht _ hS
    refine .mono (processQueued_fullSync q ht) fun _ t' h => ⟨h.1, ?_⟩
    exact hS.moves (h.2.moves_fullSync (v := { t.view env with now := q.1.now })
      (t.core.head_stream env) hfull hS)
  · intro S S' hthin hS
    exact hS.thinned env hthin
  · intro S target hS
    exact hS.move (Stream.move_seek env S target)

/-- What a node holds of a stream of another author: a sound stream within a position. -/
structure Stream.Away (k : StreamId) (M : Nat) (S : Stream) : Prop where
  sound : S.Sound k
  below : S.Below M
  floor : S.floorSeq ≤ M

theorem Stream.Away.item (hfull : env.isFullSync k.1 = true) (hk : k.2 ≠ env.writerId)
    (q : Queued env) (ht : Ready env t) (hitem : q.2.Within k M)
    (hS : (t.core.stream env k).Away k M) :
    Returns (fun _ => True) (processQueued env q) t fun _ t' =>
      Ready env t' ∧ (t'.core.stream env k).Away k M := by
  refine .mono (processQueued_fullSync q ht) fun _ t' h => ⟨h.1, ?_⟩
  have hid := t.core.head_stream env
  have hbelow := h.2.below (v := { t.view env with now := q.1.now }) hid hfull hS.sound hk hitem
    hS.below
  have hfloor := h.2.floorSeq_le (v := { t.view env with now := q.1.now }) hid hfull hS.sound
  refine ⟨hS.sound.moves (h.2.moves_fullSync (v := { t.view env with now := q.1.now }) hid hfull
    hS.sound), hbelow, hfloor.trans (max_le hS.floor hbelow.head)⟩

theorem Stream.Away.thinned (env : Env) (hthin : S.Thinned S') (hS : S.Away k M) : S'.Away k M := by
  refine ⟨hS.sound.thinned env hthin, ⟨hthin.head ▸ hS.below.head,
    hthin.pending ▸ hS.below.pending⟩, ?_⟩
  rcases hthin.floor with hfloor | ⟨s, e, hrow, hfloor⟩
  · rw [Stream.floorSeq, hfloor]
    exact hS.floor
  · rw [Stream.floorSeq, hfloor]
    exact (hS.sound.row_le hrow).trans hS.below.head

theorem step_away {core : Core} (i : Input env) (hcoh : core.Coherent env)
    (hfull : env.isFullSync k.1 = true) (hk : k.2 ≠ env.writerId)
    (hitem : ∀ batch fault, i = .flush batch fault → ∀ q ∈ batch, q.2.Within k M)
    (hS : (core.stream env k).Away k M) : ((step env core i).core.stream env k).Away k M := by
  apply (step_stream (P := fun _ _ => True) i hcoh (Input.Every.of_forall i fun _ _ => trivial) hS
    ?_ ?_ ?_).2
  · intro batch fault hi q hq t ht _ hS
    exact hS.item hfull hk q ht (hitem batch fault hi q hq)
  · intro S S' hthin hS
    exact hS.thinned env hthin
  · intro S target hS
    exact ⟨hS.sound.move (Stream.move_seek env S target), ⟨hS.below.head, hS.below.pending⟩,
      hS.floor⟩

/-- An item does not move the head of a stream back. -/
def Raises (env : Env) (k : StreamId) (q : Queued env) (t : Txn) : Prop :=
  match processQueued env q t with
  | .ok _ t' => (t.core.head env k).contigSeq ≤ (t'.core.head env k).contigSeq
  | .error _ _ => True

theorem Raises.returns (hraises : Raises env k q t)
    (h : Returns E (processQueued env q) t Q) :
    Returns E (processQueued env q) t fun a t' => Q a t' ∧
      (t.core.stream env k).head.contigSeq ≤ (t'.core.stream env k).head.contigSeq := by
  refine .mono h.with_eq fun a t' h => ⟨h.2, ?_⟩
  unfold Raises at hraises
  rw [h.1] at hraises
  exact hraises

theorem step_raises {core : Core} (i : Input env) (hcoh : core.Coherent env)
    (hraises : i.Every (Raises env k) core) (hM : M ≤ (core.stream env k).head.contigSeq) :
    M ≤ ((step env core i).core.stream env k).head.contigSeq := by
  apply (step_stream (I := fun S => M ≤ S.head.contigSeq) i hcoh hraises hM ?_ ?_ ?_).2
  · intro batch fault _ q _ t ht hq hM
    exact .mono (hq.returns (processQueued_fullSync q ht)) fun _ t' h => ⟨h.1.1, hM.trans h.2⟩
  · intro S S' hthin hM
    rw [hthin.head]
    exact hM
  · exact fun S target hM => hM

/-- At its author a full-sync stream has its floor within its head. -/
theorem step_floor {core : Core} (i : Input env) (hcoh : core.Coherent env)
    (hfull : env.isFullSync k.1 = true) (hraises : i.Every (Raises env k) core)
    (hS : (core.stream env k).Sound k)
    (hfloor : (core.stream env k).floorSeq ≤ (core.stream env k).head.contigSeq) :
    ((step env core i).core.stream env k).floorSeq ≤
      ((step env core i).core.stream env k).head.contigSeq := by
  apply (step_stream (I := fun S => S.Sound k ∧ S.floorSeq ≤ S.head.contigSeq) i hcoh hraises
    ⟨hS, hfloor⟩ ?_ ?_ ?_).2.2
  · rintro batch fault _ q _ t ht hq ⟨hS, hfloor⟩
    refine .mono (hq.returns (processQueued_fullSync q ht)) ?_
    rintro _ t' ⟨⟨ht', hstep⟩, hle⟩
    have hid := t.core.head_stream env
    refine ⟨ht', hS.moves (hstep.moves_fullSync (v := { t.view env with now := q.1.now }) hid hfull
      hS), ?_⟩
    have hraised := hstep.floorSeq_le (v := { t.view env with now := q.1.now }) hid hfull hS
    exact hraised.trans (max_le (hfloor.trans hle) (Nat.le_refl _))
  · rintro S S' hthin ⟨hS, hfloor⟩
    refine ⟨hS.thinned env hthin, ?_⟩
    rw [hthin.head]
    rcases hthin.floor with hsame | ⟨s, e, hrow, hraised⟩
    · rw [Stream.floorSeq, hsame]
      exact hfloor
    · rw [Stream.floorSeq, hraised]
      exact hS.row_le hrow
  · rintro S target ⟨hS, hfloor⟩
    exact ⟨hS.move (Stream.move_seek env S target), hfloor⟩

end Seqscribe
