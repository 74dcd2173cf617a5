import Seqscribe.Host
import Seqscribe.Run
import Seqscribe.Settlement

namespace Seqscribe
set_option autoImplicit true

variable {env : Env} {S S' : Stream} {v v' : View} {core : Core} {ids : List EntryId}

/-- The ids that committed appends were settled with. -/
def appendedIds (settle : List Settled) : List EntryId := settle.filterMap Settled.appendedId

theorem appendedIds_append : appendedIds (rs ++ rs') = appendedIds rs ++ appendedIds rs' :=
  List.filterMap_append

/-- No item of a run retires a topic. -/
def NoRetirement (is : List (Input env)) : Prop :=
  ∀ batch fault, .flush batch fault ∈ is → ∀ q ∈ batch, ∀ T known, q.2 ≠ .retireTopic T known

theorem NoRetirement.exact {is : List (Input env)} (h : NoRetirement is) :
    RunExact env core is :=
  .of_forall fun batch fault hi q hq t => by
    cases hitem : q.2 with
    | retireTopic T known => exact absurd hitem (h batch fault hi q hq T known)
    | _ => trivial

/-- A live directive that reopens a stream of this node's own writer finds its head at or beyond
every sequence number that an append has used there. -/
def QueueItem.RevivesSafely (ids : List EntryId) (item : QueueItem env) (v : View) : Prop :=
  match item with
  | .directive d =>
    let head := (v.streams (d.topic, d.writer)).head
    d.state = .live → d.writer = env.writerId →
      (∀ s, v.directives d.id = some s → s = d.stringify) → head.rgen < d.rgen →
      head.sealReason ≠ some .fork → ∀ id ∈ ids, id.1 = d.topic → id.2.2 ≤ head.contigSeq
  | _ => True

/-- Every item of a run revives safely, given the ids of the appends before it. -/
def RunRevivesSafely (env : Env) : List EntryId → Core → List (Input env) → Prop
  | _, _, [] => True
  | ids, core, i :: is =>
    i.Every (fun q t => q.2.RevivesSafely (ids ++ appendedIds t.settle) (t.view env)) core ∧
      RunRevivesSafely env (ids ++ appendedIds (step env core i).settle) (step env core i).core is

/-- An open stream is at or beyond a position. -/
def Stream.Reaches (m : Nat) (S : Stream) : Prop :=
  S.head.sealReason = none → m ≤ S.head.contigSeq

/-- A sealed stream stays sealed or out of reach, unless it is revived. -/
theorem Stream.Move.reaches (hmove : S.Move env a S') (h : S.Reaches m)
    (hrevive : ∀ rgen, a = .revive rgen → m ≤ S.head.contigSeq) (hvacate : a ≠ .vacate) :
    S'.Reaches m := by
  intro hopen
  cases hmove with
  | advance _ e hid hseq hchain =>
    have hle := h hopen
    change m ≤ e.seq
    omega
  | rewind => cases hopen
  | jump _ s chain hlt =>
    have hle := h hopen
    change m ≤ s
    omega
  | fork => cases hopen
  | retire => cases hopen
  | revive _ rgen => exact hrevive rgen rfl
  | seek => exact h hopen
  | shelve => exact h hopen
  | thin _ S' hthin =>
    rw [hthin.head] at hopen ⊢
    exact h hopen
  | vacate => exact absurd rfl hvacate

/-- The appended ids are distinct ids of this node, and its open streams are at or beyond them. -/
structure View.Consumed (env : Env) (ids : List EntryId) (v : View) : Prop where
  nodup : ids.Nodup
  own : ∀ id ∈ ids, id.2.1 = env.writerId
  reached : ∀ id ∈ ids, (v.streams (id.1, env.writerId)).Reaches id.2.2

/-- An item keeps open streams at or beyond a used position, unless it reopens one below it. -/
theorem ItemStep.reaches {item : QueueItem env} (hv : v.Sound) (h : ItemStep env True item v v')
    (hk : (v.streams k).Reaches m) (hretire : ∀ T known, item ≠ .retireTopic T known)
    (hrevive : ∀ rgen, item.Does v k (.revive rgen) → m ≤ (v.streams k).head.contigSeq) :
    (v'.streams k).Reaches m := by
  have hmoves := h.moves trivial hv k
  by_cases hrev : ∃ rgen, item.Does v k (.revive rgen)
  · obtain ⟨rgen, hrev⟩ := hrev
    have hm := hrevive rgen hrev
    obtain ⟨d, rfl, -, -, hstate, -⟩ := hrev.revive
    refine (hmoves.preserves (I := fun S =>
      S.head.contigSeq = (v.streams k).head.contigSeq ∧ S.Reaches m) ?_ ⟨rfl, hk⟩).2
    intro a S S' ha hS hmove
    obtain ⟨-, -, ha⟩ := ha
    cases hmove with
    | revive => exact ⟨hS.1, fun _ => hm.trans hS.1.ge⟩
    | seek => exact hS
    | rewind => exact absurd (hstate.symm.trans ha.1) (by decide)
    | retire => exact absurd (hstate.symm.trans ha.1) (by decide)
    | fork => exact absurd (hstate.symm.trans ha) (by decide)
    | _ => exact ha.elim
  · refine hmoves.preserves (fun a S S' ha hS hmove => hmove.reaches hS ?_ ?_) hk
    · rintro rgen rfl
      exact absurd ⟨rgen, ha⟩ hrev
    · rintro rfl
      obtain ⟨T, known, hitem, -⟩ := ha.vacate
      exact hretire T known hitem

theorem View.Consumed.item {q : Queued env} (hv : v.Sound)
    (h : v.Consumed env (ids ++ Seqscribe.appendedIds v.settle))
    (hsafe : q.2.RevivesSafely (ids ++ Seqscribe.appendedIds v.settle) v)
    (hretire : ∀ T known, q.2 ≠ .retireTopic T known)
    (hstep : ItemStep env True q.2 { v with now := q.1.now } v') :
    v'.Consumed env (ids ++ Seqscribe.appendedIds v'.settle) := by
  have hv₀ : View.Sound { v with now := q.1.now } := hv
  have hreached : ∀ id ∈ ids ++ Seqscribe.appendedIds v.settle,
      (v'.streams (id.1, env.writerId)).Reaches id.2.2 := by
    intro id hid
    refine hstep.reaches hv₀ (h.reached id hid) hretire fun rgen hdoes => ?_
    obtain ⟨d, hq, hk, hconflict, hstate, -, hfork, hgen⟩ := hdoes.revive
    rw [hq] at hsafe
    rw [hk] at hfork hgen ⊢
    exact hsafe hstate (congrArg Prod.snd hk).symm hconflict hgen hfork id hid
      (congrArg Prod.fst hk)
  obtain ⟨r, hsettle, hr⟩ := hstep.settles
  have hsettle : v'.settle = v.settle ++ [r] := hsettle
  have hids : Seqscribe.appendedIds v'.settle =
      Seqscribe.appendedIds v.settle ++ Seqscribe.appendedIds [r] := by
    rw [hsettle, appendedIds_append]
  have hnone : r.appendedId = none → v'.Consumed env (ids ++ Seqscribe.appendedIds v'.settle) := by
    intro hr
    rw [hids, show Seqscribe.appendedIds [r] = [] by simp [Seqscribe.appendedIds, hr],
      List.append_nil]
    exact ⟨h.nodup, h.own, hreached⟩
  by_cases happ : q.2.isAppend = true
  swap
  · exact hnone (hr happ)
  cases hq : q.2 with
  | append item =>
    rw [hq] at hstep
    obtain ⟨L, happended, rfl⟩ := hstep
    have hlast : ∀ r', L.settle = v.settle ++ [r'] → r = r' := by
      intro r' hL
      have heq : v.settle ++ [r] = v.settle ++ [r'] := hsettle.symm.trans hL
      exact (List.cons.inj (List.append_cancel_left heq)).1
    cases happended with
    | sealed => exact hnone (by rw [hlast _ rfl]; rfl)
    | overflow => exact hnone (by rw [hlast _ rfl]; rfl)
    | invalid => exact hnone (by rw [hlast _ rfl]; rfl)
    | @appended state hlc causal hopen hstamp hvalid =>
      have hnew : Seqscribe.appendedIds [r] = [(item.topic, env.writerId,
          (v.streams (item.topic, env.writerId)).head.contigSeq + 1)] := by
        rw [hlast _ rfl]
        rfl
      rw [hids, hnew, ← List.append_assoc]
      refine ⟨?_, ?_, ?_⟩
      · rw [← List.concat_eq_append]
        refine h.nodup.concat fun hmem => ?_
        have hle := h.reached _ hmem hopen
        exact absurd hle (Nat.not_succ_le_self _)
      · intro id hid
        rcases List.mem_append.1 hid with hid | hid
        · exact h.own id hid
        · rw [List.mem_singleton.1 hid]
      · intro id hid
        rcases List.mem_append.1 hid with hid | hid
        · exact hreached id hid
        · obtain rfl := List.mem_singleton.1 hid
          intro _
          rw [View.withLocal_streams_self]
          exact Nat.le_refl _
  | _ => rw [hq] at happ; cases happ

theorem appendedIds_rejected (batch : List α) (e : SeqscribeError) :
    appendedIds (batch.map fun _ => .rejected e) = [] := by
  induction batch with
  | nil => rfl
  | cons q rest ih => exact ih

/-- Only a flush settles items. -/
theorem appendedIds_step (i : Input env) (h : ∀ batch fault, i ≠ .flush batch fault) :
    appendedIds (step env core i).settle = [] := by
  have hdirect : ∀ {α : Type} (m : LogM α) now fault, (runDirect m now fault core).settle = [] := by
    intro α m now fault
    unfold runDirect
    dsimp only
    split <;> rfl
  cases i with
  | flush batch fault => exact absurd rfl (h batch fault)
  | archiveNow T now fault => exact congrArg appendedIds (hdirect _ now fault)
  | getStream T w => exact congrArg appendedIds (hdirect _ 0 none)
  | getCert T => exact congrArg appendedIds (hdirect _ 0 none)
  | floorOf T w => exact congrArg appendedIds (hdirect _ 0 none)
  | vectors now => exact congrArg appendedIds (hdirect _ now none)
  | _ => rfl

theorem View.Consumed.of_streams (h : v.Consumed env ids)
    (hk : ∀ k m, (v.streams k).Reaches m → (v'.streams k).Reaches m) : v'.Consumed env ids :=
  ⟨h.nodup, h.own, fun id hid => hk _ _ (h.reached id hid)⟩

theorem step_consumed (i : Input env) (hcoh : core.Coherent env) (hs : (core.view env).Sound)
    (hretire : NoRetirement [i])
    (hsafe : i.Every (fun q t => q.2.RevivesSafely (ids ++ appendedIds t.settle) (t.view env)) core)
    (h : (core.view env).Consumed env ids) :
    (step env core i).core.Coherent env ∧ ((step env core i).core.view env).Sound ∧
      ((step env core i).core.view env).Consumed env
        (ids ++ appendedIds (step env core i).settle) := by
  have hexact : RunExact env core [i] := hretire.exact
  by_cases hflush : ∃ batch fault, i = .flush batch fault
  · obtain ⟨batch, fault, rfl⟩ := hflush
    obtain ⟨hcoh', ⟨v, hsteps, hv, hsettle, -⟩ | ⟨hv, -, -, e, hsettle, -⟩⟩ :=
      flush_spec True (fun q v => q.2.RevivesSafely (ids ++ appendedIds v.settle) v)
        batch fault hcoh (fun _ => ⟨hs, hexact.1⟩) hsafe
    · have hcons := hsteps.preserves
        (I := fun v => v.Consumed env (ids ++ appendedIds v.settle)) (fun _ => hs)
        (by rwa [show appendedIds (core.view env).settle = [] from rfl, List.append_nil])
        fun q hq v v' hv hI hQ hstep => hI.item (hv trivial) hQ
          (hretire batch fault List.mem_cons_self q hq) hstep
      refine ⟨hcoh', ?_, ?_⟩
      · change (Core.view env (flush env batch fault core).core).Sound
        rw [hv]
        exact hcons.1 trivial
      · change (Core.view env (flush env batch fault core).core).Consumed env
          (ids ++ appendedIds (flush env batch fault core).settle)
        rw [hv, hsettle]
        exact hcons.2.of_streams fun _ _ hk => hk
    · refine ⟨hcoh', ?_, ?_⟩
      · change (Core.view env (flush env batch fault core).core).Sound
        rwa [hv]
      · change (Core.view env (flush env batch fault core).core).Consumed env
          (ids ++ appendedIds (flush env batch fault core).settle)
        rw [hv, hsettle, appendedIds_rejected, List.append_nil]
        exact h
  · have hno : ∀ batch fault, i ≠ .flush batch fault := fun batch fault hi => hflush ⟨_, _, hi⟩
    obtain ⟨hcoh', hcore⟩ := step_spec True (fun _ _ => True) i hcoh
      (fun _ => ⟨hs, hexact.1⟩) (Input.Every.of_forall i fun _ _ => trivial)
    rw [appendedIds_step i hno, List.append_nil]
    refine ⟨hcoh', (hcore.preserves (I := fun v => v.Consumed env ids) (fun _ => hs) h
      ?_ ?_ ?_ ?_).imp_left fun hs => hs trivial⟩
    · intro v v' hsame hI
      exact hI.of_streams fun k m hk => by rwa [hsame.1]
    · intro batch fault hi
      exact absurd hi (hno batch fault)
    · intro v v' hthin hI
      refine hI.of_streams fun k m hk => ?_
      unfold Stream.Reaches
      rwa [(hthin.streams k).head]
    · intro v v' _ _ hk hI
      refine hI.of_streams fun k m hr => ?_
      rcases hk k with hk | hk | hk <;> rw [hk] <;> exact hr

/-- In a run whose live directives revive safely, every id is used by one append at most. -/
theorem entry_ids_unique (is : List (Input env)) (hretire : NoRetirement is)
    (hsafe : RunRevivesSafely env [] Core.init is) :
    ((run env Core.init is).flatMap fun o => appendedIds o.settle).Nodup := by
  have hrun : ∀ (is : List (Input env)) ids core, core.Coherent env → (core.view env).Sound →
      NoRetirement is → RunRevivesSafely env ids core is → (core.view env).Consumed env ids →
      (ids ++ (run env core is).flatMap fun o => appendedIds o.settle).Nodup := by
    intro is
    induction is with
    | nil =>
      intro ids core _ _ _ _ h
      simpa [run] using h.nodup
    | cons i is ih =>
      intro ids core hcoh hs hretire hsafe h
      obtain ⟨hcoh', hs', h'⟩ := step_consumed i hcoh hs
        (fun batch fault hi => hretire batch fault (by simp_all)) hsafe.1 h
      have hrest := ih _ _ hcoh' hs'
        (fun batch fault hi => hretire batch fault (List.mem_cons_of_mem _ hi)) hsafe.2 h'
      rwa [List.append_assoc] at hrest
  exact hrun is [] Core.init Core.coherent_init Core.sound_init hretire hsafe
    ⟨List.nodup_nil, fun _ h => (List.not_mem_nil h).elim, fun _ h => (List.not_mem_nil h).elim⟩

/-- A writer that is retired at its head and revived goes on with fresh ids. -/
theorem entry_ids_unique_of_retired_head :
    let is : List (Input (hostEnv "w")) :=
      [hostFlush "w" 1 [hostAppend "w"],
        hostFlush "w" 2 [.directive (hostDirective .retired 1 (some 1)
          (some "2b9b9a7838c39f166c0015237d70501dc4ea31d32bf5c34ee8c0d5d8bdf67e27"))],
        hostFlush "w" 3 [.directive (hostDirective .live 2 none none)],
        hostFlush "w" 4 [hostAppend "w"]]
    (run (hostEnv "w") Core.init is).map (fun o => appendedIds o.settle) =
        [[("t", "w", 1)], [], [], [("t", "w", 2)]] ∧
      ((run (hostEnv "w") Core.init is).flatMap fun o => appendedIds o.settle).Nodup := by
  intro is
  refine ⟨by decide +kernel, entry_ids_unique is ?_ ⟨⟨trivial, ?_⟩, ⟨?_, ?_⟩, ⟨?_, ?_⟩,
    ⟨trivial, ?_⟩, trivial⟩⟩
  · intro batch fault hi q hq T known hq'
    simp only [is, List.mem_cons, List.not_mem_nil, or_false, hostFlush, hostAppend, List.map_cons,
      List.map_nil, Input.flush.injEq] at hi
    obtain ⟨rfl, -⟩ | ⟨rfl, -⟩ | ⟨rfl, -⟩ | ⟨rfl, -⟩ := hi <;>
      obtain rfl := List.mem_singleton.1 hq <;> cases hq'
  · split <;> trivial
  · intro hlive
    cases hlive
  · split <;> trivial
  · intro _ _ _ _ _
    decide +kernel
  · split <;> trivial
  · split <;> trivial

/-- A retirement below the head takes the second entry away, and the writer, revived, uses its id
again. -/
theorem entry_ids_reused :
    let is : List (Input (hostEnv "w")) :=
      [hostFlush "w" 1 [hostAppend "w"], hostFlush "w" 2 [hostAppend "w"],
        hostFlush "w" 3 [.directive (hostDirective .retired 1 (some 1)
          (some "2b9b9a7838c39f166c0015237d70501dc4ea31d32bf5c34ee8c0d5d8bdf67e27"))],
        hostFlush "w" 4 [.directive (hostDirective .live 2 none none)],
        hostFlush "w" 5 [hostAppend "w"]]
    ¬ ((run (hostEnv "w") Core.init is).flatMap fun o => appendedIds o.settle).Nodup := by
  decide +kernel

end Seqscribe
