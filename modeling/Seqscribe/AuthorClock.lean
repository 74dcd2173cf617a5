import Seqscribe.Absorption
import Seqscribe.Clock
import Seqscribe.Host
import Seqscribe.Later
import Seqscribe.LogUpkeep

namespace Seqscribe
set_option autoImplicit true

/-! What an author appends, and the replicas that take it. -/

variable {env : Env} {t u : Txn} {S S' : Stream} {L L' L'' : Local} {v v' : View} {k : StreamId}
  {e : LogEntry} {h h' : Hlc}

/-- Nothing that waits on the stream is ahead of a clock. -/
def Stream.WaitsBehind (h : Hlc) (S : Stream) : Prop :=
  ∀ id e, S.pending.get id = some e → e.hlc ≤ h

theorem Stream.WaitsBehind.le (hS : S.WaitsBehind h) (hle : h ≤ h') : S.WaitsBehind h' :=
  fun id e he => (hS id e he).trans hle

theorem Stream.WaitsBehind.fewer (hS : S.WaitsBehind h)
    (hfewer : ∀ id e, S'.pending.get id = some e → S.pending.get id = some e) :
    S'.WaitsBehind h := fun id e he => hS id e (hfewer id e he)

theorem Stream.WaitsBehind.congr (hS : S.WaitsBehind h) (hpending : S'.pending = S.pending) :
    S'.WaitsBehind h := hS.fewer fun id e he => by rwa [← hpending]

/-- The clock does not go back; where what arrives is in its reach, it passes what is applied and
what waits. -/
structure Local.Passes (k : StreamId) (reach : Prop) (L L' : Local) : Prop where
  id : L'.stream.head.stream = L.stream.head.stream
  clock : L.hlcState ≤ L'.hlcState
  waits : reach → L.stream.WaitsBehind L.hlcState → L'.stream.WaitsBehind L'.hlcState
  applied : ∃ new, L'.applied = L.applied ++ new ∧ ∀ p ∈ new,
    (L.stream.head.stream = k → p.1.stream = k) ∧
      (reach → L.stream.WaitsBehind L.hlcState → p.1.hlc ≤ L'.hlcState)

namespace Local.Passes

variable {reach : Prop}

/-- The clock stands still, nothing is applied and nothing new waits. -/
theorem still (hid : L'.stream.head.stream = L.stream.head.stream)
    (hclock : L'.hlcState = L.hlcState) (happlied : L'.applied = L.applied)
    (hfewer : ∀ id e, L'.stream.pending.get id = some e → L.stream.pending.get id = some e) :
    Passes k reach L L' := by
  refine ⟨hid, hclock.ge, fun _ hwaits => ?_, [], ?_, fun _ hp => absurd hp List.not_mem_nil⟩
  · rw [hclock]
    exact hwaits.fewer hfewer
  · rw [happlied, List.append_nil]

theorem refl (L : Local) : Passes k reach L L := .still rfl rfl rfl fun _ _ he => he

theorem trans (h : Passes k reach L L') (h' : Passes k reach L' L'') : Passes k reach L L'' := by
  obtain ⟨new, hnew, hpassed⟩ := h.applied
  obtain ⟨new', hnew', hpassed'⟩ := h'.applied
  refine ⟨h'.id.trans h.id, h.clock.trans h'.clock,
    fun hreach hwaits => h'.waits hreach (h.waits hreach hwaits), new ++ new', ?_, ?_⟩
  · rw [hnew', hnew, List.append_assoc]
  · intro p hp
    rcases List.mem_append.1 hp with hp | hp
    · exact ⟨(hpassed p hp).1, fun hreach hwaits =>
        ((hpassed p hp).2 hreach hwaits).trans h'.clock⟩
    · exact ⟨fun hid => (hpassed' p hp).1 (h.id.trans hid), fun hreach hwaits =>
        (hpassed' p hp).2 hreach (h.waits hreach hwaits)⟩

theorem done (h : Passes k reach L L') (r : Settled) : Passes k reach L (L'.done r) :=
  h.trans (.still rfl rfl rfl fun _ _ he => he)

theorem fork (L : Local) : Passes k reach L (L.map Stream.fork) :=
  .still rfl rfl rfl fun _ _ he => he

theorem sealHead (L : Local) (e : LogEntry) : Passes k reach L (L.sealHead e) :=
  .still rfl rfl rfl fun _ _ he => he

/-- An entry that is chained onto the head. -/
theorem advance {L₀ : Local} (hstream : L₀.stream.head.stream = L.stream.head.stream)
    (hclock : L₀.hlcState = L.hlcState) (happlied : L₀.applied = L.applied)
    (hfewer : ∀ id e, L₀.stream.pending.get id = some e → L.stream.pending.get id = some e)
    (hid : L.stream.head.stream = k → e.stream = k)
    (hle : reach → L.stream.WaitsBehind L.hlcState → e.hlc ≤ L.hlcState) :
    Passes k reach L (L₀.advance env e via) := by
  have hstate : (L₀.advance env e via).hlcState = L.hlcState := hclock
  have hpending : (L₀.advance env e via).stream.pending = L₀.stream.pending :=
    Stream.pending_put env L₀.stream e
  refine ⟨hstream, hstate.ge, fun _ hwaits => ?_, [(e, via)], ?_, ?_⟩
  · rw [hstate]
    exact (hwaits.fewer hfewer).congr hpending
  · rw [← happlied]
    rfl
  · intro p hp
    obtain rfl := List.mem_singleton.1 hp
    rw [hstate]
    exact ⟨hid, hle⟩

theorem drain (via : Option String) (fuel : Nat) (L : Local) :
    Passes k reach L (L.drain env via fuel) := by
  induction fuel generalizing L with
  | zero => exact .refl L
  | succ fuel ih =>
    rw [Local.drain]
    cases hnext : L.stream.pendingAt (L.stream.head.contigSeq + 1) with
    | none => exact .refl L
    | some next =>
      have hfewer (id : EntryId) (e : LogEntry)
          (he : (L.map (Stream.unpend next.seq)).stream.pending.get id = some e) :
          L.stream.pending.get id = some e := by
        rw [Local.map, Stream.unpend, Table.get_delete] at he
        split at he
        next => cases he
        next => exact he
      dsimp only
      rw [Local.verifyAndApply]
      split
      next =>
        rw [if_neg (by simp)]
        have hid : next.stream = L.stream.head.stream :=
          congrArg (fun id : EntryId => (id.1, id.2.1)) (Table.key_of_get hnext)
        have hstep : Passes k reach L ((L.map (Stream.unpend next.seq)).advance env next via) :=
          .advance rfl rfl rfl hfewer hid.trans fun _ hwaits => hwaits _ next hnext
        exact hstep.trans (ih _)
      next =>
        rw [if_pos rfl]
        have hunpend : Passes k reach L (L.map (Stream.unpend next.seq)) := by
          apply still _ _ _ hfewer <;> rfl
        exact hunpend.trans (.sealHead _ next)

theorem extend (hid : e.stream = k)
    (hreach : reach → L.stream.Accepts env e → e.hlc ≤ L.hlcState ∨
      isOverEpsilon e.hlc now env.constants.HLC_EPSILON_MS = false) :
    Passes k reach L (L.extend env e via now) := by
  rw [Local.extend, Local.verifyAndApply]
  split
  next haccepts =>
    dsimp only
    rw [if_pos rfl]
    have hmerged : Passes k reach L ((L.advance env e via).mergeClock env e now) := by
      rw [Local.mergeClock]
      split
      next hover =>
        have hstep : Passes k reach L (L.advance env e via) := by
          apply advance rfl rfl rfl (fun _ _ he => he) fun _ => hid
          intro hr _
          apply (hreach hr haccepts).resolve_right
          rw [hover]
          simp
        exact hstep.trans (.still rfl rfl rfl fun _ _ he => he)
      next =>
        have hmerge := lt_merge L.hlcState e.hlc now
        refine ⟨rfl, hmerge.1.le, fun _ hwaits => ?_, [(e, via)], rfl, ?_⟩
        · exact (hwaits.le hmerge.1.le).congr (Stream.pending_put env L.stream e)
        · intro p hp
          obtain rfl := List.mem_singleton.1 hp
          exact ⟨fun _ => hid, fun _ _ => hmerge.2.le⟩
    exact (hmerged.trans (.drain via _ _)).done _
  next =>
    exact (Passes.sealHead L e).done _

theorem postpone (hreach : reach → e.hlc ≤ L.hlcState ∨
      isOverEpsilon e.hlc now env.constants.HLC_EPSILON_MS = false) :
    Passes k reach L (L.postpone env e now) := by
  rw [Local.postpone]
  split
  next =>
    split
    next => exact (Passes.refl L).done _
    next => exact (Passes.sealHead L e).done _
  next =>
    split
    next => exact (Passes.refl L).done _
    next =>
      have hwaits {h' : Hlc} (hwaits : L.stream.WaitsBehind L.hlcState) (hle : L.hlcState ≤ h')
          (he : e.hlc ≤ h') : (L.stream.pend e).WaitsBehind h' := by
        intro id e' he'
        rw [Stream.pend, Table.get_upsert] at he'
        split at he'
        next =>
          obtain rfl := Option.some.inj he'
          exact he
        next => exact (hwaits id e' he').trans hle
      apply Passes.done
      rw [Local.mergeClock]
      split
      next hover =>
        refine ⟨rfl, le_refl _, fun hr hbehind => ?_, [], (List.append_nil _).symm,
          fun _ hp => absurd hp List.not_mem_nil⟩
        apply hwaits hbehind (le_refl _)
        apply (hreach hr).resolve_right
        rw [hover]
        simp
      next =>
        have hmerge := lt_merge L.hlcState e.hlc now
        exact ⟨rfl, hmerge.1.le, fun _ hbehind => hwaits hbehind hmerge.1.le hmerge.2.le, [],
          (List.append_nil _).symm, fun _ hp => absurd hp List.not_mem_nil⟩

theorem recoveryExtend (hid : e.stream = k)
    (hreach : reach → e.hlc ≤ L.hlcState) :
    Passes k reach L (L.recoveryExtend env e target via now) := by
  have hstep : Passes k reach L (L.advance env e via) :=
    .advance rfl rfl rfl (fun _ _ he => he) (fun _ => hid) fun hr _ => hreach hr
  rw [Local.recoveryExtend]
  split
  next => exact (Passes.refl L).done _
  next =>
    split
    next => exact (Passes.refl L).done _
    next =>
      dsimp only
      apply Passes.done
      split
      next => exact hstep.trans (.still rfl rfl rfl fun _ _ he => he)
      next => exact hstep

theorem recoveryIngest (hid : e.stream = k)
    (hreach : reach → e.hlc ≤ L.hlcState) :
    Passes k reach L (L.recoveryIngest env e target via now) := by
  rw [Local.recoveryIngest]
  split
  next =>
    split
    next => exact (Passes.refl L).done _
    next =>
      have hrewind : Passes k reach L (L.recoveryRewind env e now) :=
        .still rfl rfl rfl fun _ _ he => he
      exact hrewind.trans (.recoveryExtend hid hreach)
  next => exact .recoveryExtend hid hreach

end Local.Passes

/-- The entry goes beyond the head of an open stream, or comes to a recovery. -/
def Stream.Takes (env : Env) (cert : Option FinalityCert) (e : LogEntry) (S : Stream) : Prop :=
  if S.head.sealReason = none then
    ¬ (cert.any fun c => decide (OutsideCover c e)) = true ∧ S.head.contigSeq < e.seq ∧
      (e.seq = S.head.contigSeq + 1 → S.Accepts env e)
  else ∃ target, S.recovery = some target ∧ e.seq ≤ target.finalSeq

/-- The clock has passed the entry, or is merged with it. -/
def Stream.InReach (env : Env) (cert : Option FinalityCert) (e : LogEntry) (h : Hlc) (now : Nat)
    (S : Stream) : Prop :=
  S.Takes env cert e → e.hlc ≤ h ∨ S.head.sealReason = none ∧
    isOverEpsilon e.hlc now env.constants.HLC_EPSILON_MS = false

theorem Local.Passes.ingest :
    Passes e.stream (L.stream.InReach env cert e L.hlcState now) L (L.ingest env cert e via now) := by
  rw [Local.ingest]
  split
  next hseal =>
    cases hrecovery : L.stream.recovery with
    | none => exact (Passes.refl L).done _
    | some target =>
      dsimp only
      split
      next hle =>
        apply Passes.recoveryIngest rfl
        intro hreach
        have htakes : L.stream.Takes env cert e := by
          rw [Stream.Takes, if_neg hseal]
          exact ⟨target, hrecovery, hle⟩
        exact (hreach htakes).resolve_right fun h => hseal h.1
      next => exact (Passes.refl L).done _
  next hopen =>
    replace hopen := not_not.1 hopen
    split
    next => exact .still rfl rfl rfl fun _ _ he => he
    next hcert =>
      split
      next =>
        rw [recheck]
        split
        next =>
          split
          next => exact (Passes.refl L).done _
          next => exact (Passes.sealHead L e).done _
        next => exact (Passes.refl L).done _
      next hgt =>
        have htakes (haccepts : e.seq = L.stream.head.contigSeq + 1 → L.stream.Accepts env e) :
            L.stream.Takes env cert e := by
          rw [Stream.Takes, if_pos hopen]
          exact ⟨hcert, Nat.lt_of_not_le hgt, haccepts⟩
        split
        next hseq =>
          apply Passes.extend rfl
          exact fun hreach haccepts => (hreach (htakes fun _ => haccepts)).imp_right And.right
        next hne =>
          apply Passes.postpone
          exact fun hreach => (hreach (htakes fun heq => absurd heq hne)).imp_right And.right

/-- The clock, what is applied and what waits are as before. -/
structure Local.Still (L L' : Local) : Prop where
  id : L'.stream.head.stream = L.stream.head.stream
  clock : L'.hlcState = L.hlcState
  applied : L'.applied = L.applied
  pending : L'.stream.pending = L.stream.pending

namespace Local.Still

theorem passes (h : Still L L') : Passes k reach L L' := by
  apply Passes.still h.id h.clock h.applied
  intro id e he
  rwa [← h.pending]

theorem processSeal (L : Local) (T : Topic) (w : WriterId) : Still L (L.processSeal T w) := by
  rw [Local.processSeal]
  split <;> exact ⟨rfl, rfl, rfl, rfl⟩

theorem certStream (L : Local) (env : Env) (cert : FinalityCert) (now : Nat) :
    Still L (L.certStream env cert now) := by
  rw [Local.certStream]
  dsimp only
  split
  next =>
    rw [Local.sealForked]
    split <;> exact ⟨rfl, rfl, rfl, rfl⟩
  next =>
    split
    next =>
      rw [Local.sealForked]
      split <;> exact ⟨rfl, rfl, rfl, rfl⟩
    next => exact ⟨rfl, rfl, rfl, rfl⟩

theorem direct (L : Local) (env : Env) (stored : Option WriterDirective) (d : WriterDirective)
    (now : Nat) : Still L (L.direct env stored d now) := by
  rw [Local.direct]
  split
  next => exact ⟨rfl, rfl, rfl, rfl⟩
  next =>
    split
    next => exact ⟨rfl, rfl, rfl, rfl⟩
    next =>
      cases d.state with
      | live =>
        dsimp only
        split <;> exact ⟨rfl, rfl, rfl, rfl⟩
      | retired =>
        dsimp only
        rw [Local.processRetired]
        dsimp only
        split
        next => exact ⟨rfl, rfl, rfl, rfl⟩
        next => split <;> exact ⟨rfl, rfl, rfl, rfl⟩

theorem adopt (L : Local) (seq : Nat) (chain : Chain) : Still L (L.adopt seq chain) := by
  rw [Local.adopt]
  split <;> exact ⟨rfl, rfl, rfl, rfl⟩

end Local.Still

theorem Local.Passes.adoptFloor (L : Local) (env : Env) (seq : Nat) (chain : Chain) (now : Nat) :
    Passes k reach L (L.adoptFloor env seq chain now) := by
  rw [adoptFloor_eq]
  split
  next => exact (Passes.refl L).done _
  next =>
  split
  next => exact (Passes.refl L).done _
  next =>
  split
  next => exact (Passes.refl L).done _
  next =>
  apply Passes.done
  obtain ⟨head, recovery, floor, ⟨-, -, hid, -⟩, hjump⟩ := L.stream_jumpToFloor seq chain now
  have hjumped : Passes k reach L (L.jumpToFloor seq chain now) := by
    apply Passes.still
    · rw [hjump]
      exact hid
    · rw [jumpToFloor]
      dsimp only
      split <;> rfl
    · rw [jumpToFloor]
      dsimp only
      split <;> rfl
    · intro id e he
      have hdropped : (L.stream.dropPending seq).pending.get id = some e := by
        rw [hjump] at he
        exact he
      rw [Stream.dropPending, Table.get_filter] at hdropped
      exact (Option.filter_eq_some_iff.1 hdropped).1
  rw [atFloor]
  split
  next => exact hjumped.trans (.drain none _ _)
  next => exact hjumped

/-- What an append makes is ahead of the clock before it. -/
theorem Local.Appended.passes {item : AppendItem env} (h : Local.Appended env item now L L') :
    Passes (item.topic, env.writerId) reach L L' := by
  cases h with
  | «sealed» => exact (Passes.refl L).done _
  | overflow => exact (Passes.refl L).done _
  | invalid hopen hstamp hinvalid =>
    exact ⟨rfl, (lt_stamp hstamp).1.le, fun _ hwaits => hwaits.le (lt_stamp hstamp).1.le, [],
      (List.append_nil _).symm, fun _ hp => absurd hp List.not_mem_nil⟩
  | @appended state hlc causal hopen hstamp hvalid =>
    obtain ⟨hlt, rfl, -⟩ := lt_stamp hstamp
    apply Passes.done
    refine ⟨rfl, hlt.le, fun _ hwaits => ?_, [(_, none)], rfl, fun p hp => ?_⟩
    · exact (hwaits.le hlt.le).congr (Stream.pending_put env L.stream _)
    · obtain rfl := List.mem_singleton.1 hp
      exact ⟨fun _ => rfl, fun _ _ => le_refl _⟩

/-- The same for a stream among all of them. -/
structure View.Passes (k : StreamId) (reach : Prop) (v v' : View) : Prop where
  clock : v.hlcState ≤ v'.hlcState
  waits : reach → (v.streams k).WaitsBehind v.hlcState → (v'.streams k).WaitsBehind v'.hlcState
  applied : (∀ k, (v.streams k).head.stream = k) → ∃ new, v'.applied = v.applied ++ new ∧
    ∀ p ∈ new, p.1.stream = k → reach → (v.streams k).WaitsBehind v.hlcState →
      p.1.hlc ≤ v'.hlcState

/-- The clock, what is applied and what waits for the stream are as before. -/
structure View.Still (k : StreamId) (v v' : View) : Prop where
  clock : v'.hlcState = v.hlcState
  applied : v'.applied = v.applied
  pending : (v'.streams k).pending = (v.streams k).pending

namespace View.Still

theorem trans {v₁ v₂ v₃ : View} (h : Still k v₁ v₂) (h' : Still k v₂ v₃) : Still k v₁ v₃ :=
  ⟨h'.clock.trans h.clock, h'.applied.trans h.applied, h'.pending.trans h.pending⟩

theorem withLocal {k₀ : StreamId} (h : Local.Still (v.localAt k₀) L) :
    Still k v (v.withLocal k₀ L) := by
  refine ⟨h.clock, h.applied, ?_⟩
  by_cases hk : k = k₀
  · subst hk
    rw [View.withLocal_streams_self]
    exact h.pending
  · rw [View.withLocal_streams_of_ne _ hk]

theorem foldl {f : View → α → View} (hf : ∀ v x, Still k v (f v x)) (xs : List α) (v : View) :
    Still k v (xs.foldl f v) := by
  induction xs generalizing v with
  | nil => exact ⟨rfl, rfl, rfl⟩
  | cons x xs ih =>
    rw [List.foldl_cons]
    exact (hf v x).trans (ih (f v x))

theorem storeDirective (v : View) (d : WriterDirective) : Still k v (v.storeDirective d) := by
  rw [View.storeDirective]
  split <;> exact ⟨rfl, rfl, rfl⟩

end View.Still

namespace View.Passes

variable {reach : Prop}

theorem still (h : Still k v v') : Passes k reach v v' := by
  refine ⟨h.clock.ge, fun _ hwaits => ?_, fun _ => ⟨[], ?_, fun _ hp => absurd hp List.not_mem_nil⟩⟩
  · rw [h.clock]
    exact hwaits.congr h.pending
  · rw [h.applied, List.append_nil]

theorem withLocal {k₀ : StreamId} (h : Local.Passes k₀ reach' (v.localAt k₀) L)
    (hreach : k₀ = k → reach → reach') : Passes k reach v (v.withLocal k₀ L) := by
  refine ⟨h.clock, fun hr hwaits => ?_, fun hv => ?_⟩
  · by_cases hk : k = k₀
    · subst hk
      rw [View.withLocal_streams_self]
      exact h.waits (hreach rfl hr) hwaits
    · rw [View.withLocal_streams_of_ne _ hk]
      exact hwaits.le h.clock
  · obtain ⟨new, hnew, hpassed⟩ := h.applied
    refine ⟨new, hnew, fun p hp hk hr hwaits => ?_⟩
    obtain ⟨hid, hle⟩ := hpassed p hp
    have hk₀ : k₀ = k := (hid (hv k₀)).symm.trans hk
    subst hk₀
    exact hle (hreach rfl hr) hwaits

end View.Passes

/-- An external entry of the stream is in the reach of the clock. -/
def QueueItem.InReach (k : StreamId) (item : QueueItem env) (v : View) : Prop :=
  match item with
  | .external item => item.entry.stream = k →
      (v.streams k).InReach env (v.certs item.entry.topic) item.entry v.hlcState v.now
  | _ => True

theorem ItemStep.passes {item : QueueItem env} (h : ItemStep env exact item v v') :
    View.Passes k (item.InReach k v) v v' := by
  have hpruned {w : View} (h : v.Pruned w) : View.Passes k True v w := by
    obtain ⟨v₁, r, hthin, -, rfl⟩ := h
    exact .still ⟨hthin.hlcState, hthin.applied, (hthin.streams k).pending⟩
  cases item with
  | append item =>
    obtain ⟨L, happ, rfl⟩ := h
    exact .withLocal happ.passes fun _ hr => hr
  | external item =>
    obtain rfl := h
    apply View.Passes.withLocal .ingest
    rintro rfl hr
    exact hr rfl
  | sealStream T w =>
    obtain rfl := h
    exact .withLocal (Local.Still.processSeal _ T w).passes fun _ hr => hr
  | cert cert =>
    obtain ⟨writers, n, -, rfl⟩ := h
    have hfold := View.Still.foldl (fun v w => View.Still.withLocal (k := k)
      (Local.Still.certStream (v.localAt (cert.topic, w)) env cert v.now)) writers
      { v with certs := Function.update v.certs cert.topic (some cert) }
    exact .still ⟨hfold.clock, hfold.applied, hfold.pending⟩
  | directive d =>
    obtain rfl := h
    have hstored : View.Still k v (v.storeDirective d) := .storeDirective v d
    exact .still (hstored.trans (.withLocal (.direct _ env _ d v.now)))
  | adopt T cut =>
    obtain rfl := h
    have hfold := View.Still.foldl (fun v c => View.Still.withLocal (k := k)
      (Local.Still.adopt (v.localAt (T, c.writer)) c.seq c.chain)) cut.rows v
    exact .still ⟨hfold.clock, hfold.applied, hfold.pending⟩
  | retireTopic T known =>
    rcases h with ⟨e, rfl⟩ | ⟨-, n, rfl⟩
    · exact .still ⟨rfl, rfl, rfl⟩
    · have hpending : ((v.retireTopic env T).streams k).pending = (v.streams k).pending := by
        rw [View.retireTopic]
        dsimp only
        split <;> rfl
      exact .still ⟨rfl, rfl, hpending⟩
  | adoptFloor T w s chain known =>
    obtain rfl := h
    apply View.Passes.withLocal _ fun _ hr => hr
    split
    next => exact .adoptFloor _ env s chain _
    next => exact (Local.Passes.refl _).done _
  | pruneTopic => exact hpruned h
  | pruneSuperseded => exact hpruned h
  | pruneAcked => exact hpruned h

/-- The clock in memory, and the stored one. -/
def ClockIs (h : HlcState) (stored : Option HlcState) (t : Txn) : Prop :=
  t.core.hlcState = h ∧ t.core.db.metaHlc = stored

/-- A computation that leaves the clock, in memory and stored. -/
structure LeavesClock (m : LogM α) : Prop where
  keeps : ∀ h stored, Keeps (ClockIs h stored) (ClockIs h stored) m

namespace LeavesClock

theorem pure (a : α) : LeavesClock (Pure.pure a : LogM α) := ⟨fun _ _ => .pure a⟩

theorem throw (e : SeqscribeError) : LeavesClock (MonadExcept.throw e : LogM α) :=
  ⟨fun _ _ => .throw (fun _ ht => ht) e⟩

theorem get : LeavesClock (MonadState.get : LogM Txn) := ⟨fun _ _ => .get⟩

theorem modify (h : ∀ t : Txn, (f t).core.hlcState = t.core.hlcState)
    (hstored : ∀ t : Txn, (f t).core.db.metaHlc = t.core.db.metaHlc) :
    LeavesClock (modify f : LogM PUnit) :=
  ⟨fun _ _ => .modify fun t ht => ⟨(h t).trans ht.1, (hstored t).trans ht.2⟩⟩

theorem bind {x : LogM α} {f : α → LogM β} (hx : LeavesClock x) (hf : ∀ a, LeavesClock (f a)) :
    LeavesClock (x >>= f) :=
  ⟨fun h stored => .bind (hx.keeps h stored) fun a => (hf a).keeps h stored⟩

theorem ite [Decidable c] {x y : LogM α} (hx : LeavesClock x) (hy : LeavesClock y) :
    LeavesClock (if c then x else y) := by
  split
  next => exact hx
  next => exact hy

theorem forM {xs : List α} {f : α → LogM PUnit} (h : ∀ x, LeavesClock (f x)) :
    LeavesClock (ForM.forM xs f) := ⟨fun h' stored => .forM fun x _ => (h x).keeps h' stored⟩

theorem foldlM {xs : List α} {f : β → α → LogM β} (h : ∀ b x, LeavesClock (f b x)) :
    LeavesClock (xs.foldlM f b) := ⟨fun h' stored => .foldlM fun b x => (h b x).keeps h' stored⟩

theorem transaction {body : LogM α} (hbody : LeavesClock body) :
    LeavesClock (transaction body) := by
  constructor
  intro h stored
  constructor
  intro t ht
  apply transaction_runs
  apply ((hbody.keeps h stored).runs t ht).mono
  · exact fun _ _ ht' => ht'
  · exact fun _ _ ht' => ⟨ht'.1, ht.2⟩

theorem storageCall : LeavesClock storageCall := by
  apply bind get
  intro t
  split
  next => exact pure ()
  next => exact throw _
  next => exact modify (fun _ => rfl) fun _ => rfl

theorem query (f : Db → α) : LeavesClock (query f) :=
  bind storageCall fun _ => bind get fun _ => pure _

theorem execute (f : Db → Db) (hf : ∀ db, (f db).metaHlc = db.metaHlc) : LeavesClock (execute f) :=
  bind storageCall fun _ => modify (fun _ => rfl) fun t => hf t.core.db

theorem clock : LeavesClock clock := bind get fun _ => pure _

theorem topicPolicy (env : Env) (topic : Topic) : LeavesClock (topicPolicy env topic) := by
  rw [Seqscribe.topicPolicy]
  split
  next => exact pure _
  next => exact throw _

theorem getStream (env : Env) (topic : Topic) (writer : WriterId) :
    LeavesClock (getStream env topic writer) := by
  apply bind get
  intro t
  split
  next => exact pure _
  next => exact bind (query _) fun _ => bind (modify (fun _ => rfl) fun _ => rfl) fun _ => pure _

theorem getCert (topic : Topic) : LeavesClock (getCert topic) := by
  apply bind get
  intro t
  split
  next => exact pure _
  next => exact bind (query _) fun _ => bind (modify (fun _ => rfl) fun _ => rfl) fun _ => pure _

theorem floorOf (topic : Topic) (writer : WriterId) : LeavesClock (floorOf topic writer) := by
  apply bind get
  intro t
  split
  next => exact pure _
  next => exact bind (query _) fun _ => bind (modify (fun _ => rfl) fun _ => rfl) fun _ => pure _

theorem vectors (env : Env) : LeavesClock (vectors env) := by
  apply bind get
  intro t
  split
  next => exact pure _
  next =>
    apply bind (bind clock fun _ => pure _)
    intro floor
    apply bind (query _)
    intro heads
    apply bind get
    intro t'
    apply bind
    · apply foldlM
      intro out topic
      apply bind (topicPolicy env topic)
      intro policy
      apply ite (pure _)
      apply bind (getCert topic)
      intro cert
      split
      next => exact pure _
      next => exact pure _
    · exact fun out => bind (modify (fun _ => rfl) fun _ => rfl) fun _ => pure _

theorem archiveBatches (fuel total : Nat) :
    LeavesClock (Store.archiveBatches topic writer maxSeq maxRowid now fuel total) := by
  induction fuel generalizing total with
  | zero => exact pure _
  | succ fuel ih =>
    apply bind
    · apply transaction
      apply bind (query _)
      intro rows
      apply bind
      · apply forM
        exact fun r => bind (execute _ fun _ => rfl) fun _ => execute _ fun _ => rfl
      · exact fun _ => pure _
    · exact fun moved => ite (pure _) (ih _)

theorem archiveNow (env : Env) (topic : Topic) : LeavesClock (archiveNow env topic) := by
  apply bind (getCert topic)
  intro cert
  split
  next => exact pure ()
  next =>
    apply bind clock
    intro now
    apply bind (query _)
    intro cursors
    apply bind
    · apply forM
      exact fun c => bind (execute _ fun _ => rfl) fun _ => modify (fun _ => rfl) fun _ => rfl
    · intro _
      apply forM
      intro c
      have hcovered : LeavesClock (Store.archiveCovered topic c.writer c.seq
          ((cursors.filter fun c => !decide ((c.updatedAt : Int) <
            (now : Int) - env.constants.FINALITY_WINDOW_MS)).foldl (fun m c => min m c.lastRowid)
              MAX_SAFE_INTEGER) now) :=
        bind get fun _ => bind (archiveBatches _ _) fun _ => ite
          (bind (modify (fun _ => rfl) fun _ => rfl) fun _ => pure _) (pure _)
      exact ite (bind hcovered fun _ => pure _) (pure _)

theorem runDirect {m : LogM α} (hm : LeavesClock m) (now : Nat) (fault : Option Nat)
    (core : Core) : (runDirect m now fault core).core.hlcState = core.hlcState ∧
      (runDirect m now fault core).core.db.metaHlc = core.db.metaHlc := by
  have hruns := (hm.keeps core.hlcState core.db.metaHlc).runs
    { Txn.start core fault with ambient := { now := now } } ⟨rfl, rfl⟩
  rw [Seqscribe.runDirect]
  split
  next hrun => exact (hruns.of_ok hrun).2
  next hrun => exact hruns.of_error hrun

end LeavesClock

/-- The stored clock is the one in memory. -/
def Core.Persisted (core : Core) : Prop := core.db.metaHlc.getD ⟨0, 0⟩ = core.hlcState

/-- A flush ends with the clock written. -/
theorem finishFlush_runs (u : Txn) : Runs finishFlush u
    (fun _ t => ∃ fault, t = { u with
      core.db := { u.core.db with metaHlc := some u.core.hlcState }, fault := fault })
    fun _ _ => True := by
  refine .bind (.get (.bind (execute_runs (fun fault => ?_) fun _ => trivial)))
  refine .bind (.get ?_)
  split
  next => trivial
  next => exact ⟨fault, rfl⟩

theorem finishFlush_persists (hrun : finishFlush u = .ok () u') : u'.core.Persisted := by
  obtain ⟨fault, rfl⟩ := (finishFlush_runs u).of_ok hrun
  rfl

theorem flush_persists {batch : List (Queued env)} (h : core.Persisted) :
    (flush env batch fault core).core.Persisted := by
  have hbody : Runs (flushBody env batch) (Txn.start core fault) (fun _ t => t.core.Persisted)
      fun _ _ => True := by
    rw [flushBody_eq]
    apply Runs.bind
    rw [Runs]
    split
    next =>
      rw [Runs]
      split
      next hrun => exact finishFlush_persists hrun
      next => trivial
    next => trivial
  rw [flush, transaction]
  split
  next => exact h
  next =>
    cases hrun : flushBody env batch (Txn.start core fault) with
    | ok _ t => exact hbody.of_ok hrun
    | error e t => exact h

theorem step_persists (i : Input env) (h : core.Persisted) : (step env core i).core.Persisted := by
  have hkept {β : Type} {m : LogM β} (hm : LeavesClock m) (now : Nat) (fault : Option Nat) :
      (runDirect m now fault core).core.Persisted := by
    obtain ⟨hclock, hstored⟩ := hm.runDirect now fault core
    rw [Core.Persisted, hclock, hstored]
    exact h
  cases i with
  | flush batch fault => exact flush_persists h
  | archiveNow T now fault => exact hkept (.archiveNow env T) now fault
  | getStream T w => exact hkept (.getStream env T w) 0 none
  | getCert T => exact hkept (.getCert T) 0 none
  | floorOf T w => exact hkept (.floorOf T w) 0 none
  | vectors now => exact hkept (.vectors env) now none
  | restart => exact rfl
  | _ => exact h

/-- A property of the clock and of what waits, which the items keep where `Q` holds. -/
structure ClockUpkeep (env : Env) (Q : Queued env → View → Prop) (I : View → Prop) : Prop where
  item : ∀ q v v', I v → Q q v → ItemStep env False q.2 { v with now := q.1.now } v' → I v'
  still : ∀ v v', v'.hlcState = v.hlcState →
    (∀ k, (v'.streams k).pending = (v.streams k).pending) → I v → I v'

namespace ClockUpkeep

variable {Q : Queued env → View → Prop} {I : View → Prop}

theorem step {i : Input env} (hI : ClockUpkeep env Q I) (hcoh : core.Coherent env)
    (hpersisted : core.Persisted) (hQ : i.Every (fun q t => Q q (t.view env)) core)
    (hcore : I (core.view env)) : I ((step env core i).core.view env) := by
  obtain ⟨-, hstep⟩ := step_spec False Q i hcoh False.elim hQ
  have hrestart : i = .restart →
      ((Seqscribe.step env core i).core.view env).hlcState = (core.view env).hlcState := by
    rintro rfl
    exact hpersisted
  generalize core.view env = v at hstep hrestart hcore
  generalize (Seqscribe.step env core i).core.view env = v' at hstep hrestart
  cases hstep with
  | @commit _ _ _ v' hsteps =>
    have hend := (hsteps.preserves False.elim hcore fun q _ v v' _ hv hq => hI.item q v v' hv hq).2
    exact hI.still v' v'.settled rfl (fun _ => rfl) hend
  | abort => exact hcore
  | archive hthin => exact hI.still _ _ hthin.hlcState (fun k => (hthin.streams k).pending) hcore
  | quiet => exact hcore
  | unavailable T w =>
    have hpending (k : StreamId) :
        ((v.noteUnavailable (T, w)).streams k).pending = (v.streams k).pending := by
      rw [View.noteUnavailable]
      dsimp only
      by_cases hk : k = (T, w)
      · subst hk
        rw [Function.update_self]
        rfl
      · rw [Function.update_of_ne hk]
    exact hI.still v _ rfl hpending hcore
  | restart _ hlcState => exact hI.still _ _ (hrestart rfl) (fun _ => rfl) hcore

theorem run {is : List (Input env)} (hI : ClockUpkeep env Q I) (hcoh : core.Coherent env)
    (hpersisted : core.Persisted) (hQ : RunEvery env (fun q t => Q q (t.view env)) core is)
    (hcore : I (core.view env)) :
    (runCore env core is).Coherent env ∧ I ((runCore env core is).view env) := by
  induction is generalizing core with
  | nil => exact ⟨hcoh, hcore⟩
  | cons i is ih =>
    obtain ⟨hcoh', -⟩ := step_spec False Q i hcoh False.elim hQ.1
    exact ih hcoh' (step_persists i hpersisted) hQ.2 (hI.step hcoh hpersisted hQ.1 hcore)

theorem later (hI : ClockUpkeep env Q I) (ht : Ready env t) (htI : I (t.view env))
    (h : Later env Q t u) : Ready env u ∧ I (u.view env) := by
  induction h with
  | now => exact ⟨ht, htI⟩
  | @item u q u' _ hQ hrun ih =>
    obtain ⟨hu, huI⟩ := ih
    have hstep := processQueued_spec False True q hu False.elim fun _ => trivial
    obtain ⟨-, hu', hstep⟩ := hstep.of_ok hrun
    exact ⟨hu', hI.item q _ _ huI hQ hstep⟩
  | @flushed u u' _ hrun is hQ fault ih =>
    obtain ⟨hu, huI⟩ := ih
    have hpersisted := finishFlush_persists hrun
    have hempty : Returns (fun _ => False) (forM [] (processQueued env)) u fun _ t' =>
        Ready env t' ∧ I (t'.view env) := .pure ⟨hu, huI⟩
    have hbody := flushBody_ends hempty
    obtain ⟨hu', hI'⟩ := hbody.of_ok (show flushBody env [] u = .ok () u' from hrun)
    have hcore : I (u'.core.view env) := hI.still (u'.view env) _ rfl (fun _ => rfl) hI'
    obtain ⟨hcoh, hend⟩ := hI.run hu'.coherent hpersisted hQ hcore
    exact ⟨⟨hcoh⟩, hI.still _ _ rfl (fun _ => rfl) hend⟩

end ClockUpkeep

def Queued.InReach (k : StreamId) (q : Queued env) (v : View) : Prop :=
  q.2.InReach k { v with now := q.1.now }

theorem clockUpkeep_le (Q : Queued env → View → Prop) (h : Hlc) :
    ClockUpkeep env Q fun v => h ≤ v.hlcState :=
  ⟨fun _ _ _ hle _ hstep => hle.trans (hstep.passes (k := ("", ""))).clock,
    fun _ _ hclock _ hle => hle.trans hclock.ge⟩

/-- Where every external entry of the stream is in reach, what waits is behind the clock. -/
theorem clockUpkeep_waits (k : StreamId) :
    ClockUpkeep env (Queued.InReach k) fun v => (v.streams k).WaitsBehind v.hlcState := by
  refine ⟨fun _ _ _ hwaits hreach hstep => hstep.passes.waits hreach hwaits, ?_⟩
  intro v v' hclock hpending hwaits
  rw [hclock]
  exact hwaits.congr (hpending k)

/-- An entry of the stream comes before what a transaction appends: the clock had passed it, or an
item applied it, in a run that brought every external entry of the stream in reach. -/
inductive Precedes (env : Env) (k : StreamId) (p : LogEntry) (u : Txn) : Prop
  | passed {s : Txn} (hs : MidBatch env s) (hle : p.hlc ≤ s.core.hlcState)
      (hlater : Later env (fun _ _ => True) s u)
  | applied {s s' : Txn} (hid : p.stream = k)
      (hbefore : Later env (Queued.InReach k) (Txn.start Core.init fault) s)
      (hreach : Queued.InReach k q (s.view env)) (hrun : processQueued env q s = .ok () s')
      (happlied : s'.applied = s.applied ++ new) (hmem : p ∈ new.map AppliedEntry.entry)
      (hlater : Later env (fun _ _ => True) s' u)

theorem Precedes.le {p : LogEntry} (hp : Precedes env k p u) : p.hlc ≤ u.core.hlcState := by
  cases hp with
  | passed ht hle hlater =>
    exact ((clockUpkeep_le _ p.hlc).later ht.ready hle hlater).2
  | @applied fault q new t t₁ hid hbefore hreach hrun happlied hmem hlater =>
    have hstart : Ready env (Txn.start Core.init fault) := ⟨Core.coherent_init⟩
    obtain ⟨ht, hwaits⟩ := (clockUpkeep_waits k).later hstart (fun _ _ he => by cases he) hbefore
    have hstep := processQueued_spec False True q ht False.elim fun _ => trivial
    obtain ⟨-, ht₁, hstep⟩ := hstep.of_ok hrun
    obtain ⟨new', hnew, hpassed⟩ := (hstep.passes (k := k)).applied (t.core.head_stream env)
    have hviews : (t.view env).applied ++ new.map (fun a => (a.entry, a.via)) =
        (t.view env).applied ++ new' := by
      rw [← hnew, Txn.view, Txn.view, happlied, List.map_append]
    obtain rfl := List.append_cancel_left hviews
    obtain ⟨a, ha, rfl⟩ := List.mem_map.1 hmem
    have hle := hpassed _ (List.mem_map_of_mem ha) hid hreach hwaits
    exact ((clockUpkeep_le _ a.entry.hlc).later ht₁ hle hlater).2

/-- The entry of an append that was taken. -/
theorem appended_entry {item : AppendItem env} (ht : Ready env t) (ambient : Ambient)
    (hrun : processQueued env (ambient, .append item) t = .ok () t')
    (happended : t'.applied = t.applied ++ [a]) : ∃ state hlc causal,
      stamp t.core.hlcState ambient.now = .ok (state, hlc) ∧ a.entry = Local.appendEntry env item hlc
        causal (t.core.stream env (item.topic, env.writerId)) := by
  have hstep := processQueued_spec False True (ambient, .append item) ht False.elim fun _ => trivial
  obtain ⟨-, -, L', happ, hview⟩ := hstep.of_ok hrun
  have happlied : L'.applied = (t.view env).applied ++ [(a.entry, a.via)] := by
    have hviews := congrArg View.applied hview
    rw [Txn.view, happended, List.map_append] at hviews
    exact hviews.symm
  have hidle : (t.view env).applied ≠ (t.view env).applied ++ [(a.entry, a.via)] := by
    intro heq
    have hlength := congrArg List.length heq
    rw [List.length_append] at hlength
    exact absurd hlength (Nat.ne_of_lt (Nat.lt_succ_self _))
  cases happ with
  | «sealed» => exact absurd happlied hidle
  | overflow => exact absurd happlied hidle
  | invalid => exact absurd happlied hidle
  | @appended state hlc causal hopen hstamp hvalid =>
    refine ⟨state, hlc, causal, hstamp, ?_⟩
    have hlast := List.append_cancel_left happlied
    exact (congrArg Prod.fst (List.cons.inj hlast).1).symm

/-- The same hashes. -/
structure Env.SameChains (env env' : Env) : Prop where
  sha256Hex : env'.sha256Hex = env.sha256Hex
  jcs : env'.jcs = env.jcs

theorem Env.SameChains.chainOf_eq {env env' : Env} (h : env.SameChains env') (prev : Chain)
    (e : LogEntry) : chainOf env' prev e = chainOf env prev e := by
  rw [chainOf, chainOf, h.sha256Hex, h.jcs]

/-- A replica has the author's head; what it holds there, if anything, comes before what the author
appends. -/
structure Replica (env env' : Env) (k : StreamId) (u t : Txn) : Prop where
  ready : Ready env' t
  chains : env.SameChains env'
  known : (env'.topics k.1).isSome
  contigSeq : (t.core.head env' k).contigSeq = (u.core.head env k).contigSeq
  contigChain : (t.core.head env' k).contigChain = (u.core.head env k).contigChain
  row : ∀ p, 0 < (t.core.head env' k).contigSeq →
    (t.core.stream env' k).rows (t.core.head env' k).contigSeq = some p → Precedes env k p u

theorem Replica.prevChain {env env' : Env} (h : Replica env env' k u t) :
    (t.core.head env' k).prevChain env' = (u.core.head env k).prevChain env := by
  rw [WriterRow.prevChain, WriterRow.prevChain, h.contigSeq, h.contigChain, Core.head_topic,
    Core.head_topic, Core.head_writer, Core.head_writer, seedOf, seedOf, h.chains.sha256Hex]

/-- An appended entry is stamped after every entry that comes before it, and every replica that has
the author's head applies it. -/
theorem author_entries_acceptable {item : AppendItem env} (hu : MidBatch env u) (ambient : Ambient)
    (hrun : processQueued env (ambient, .append item) u = .ok () u')
    (happended : u'.applied = u.applied ++ [a]) :
    (∀ p, Precedes env (item.topic, env.writerId) p u → p.hlc < a.entry.hlc) ∧
    ∀ env' t via, Replica env env' (item.topic, env.writerId) u t →
      ∀ E : SeqscribeError → Prop, (¬ E Store.uniqueViolation →
          (t.core.stream env' (item.topic, env.writerId)).Bounded) →
        Returns E (verifyAndApply env' (t.core.head env' (item.topic, env.writerId)) a.entry via) t
          fun r _ => r.2 = .applied := by
  obtain ⟨state, hlc, causal, hstamp, hentry⟩ := appended_entry hu.ready ambient hrun happended
  obtain ⟨hlt, rfl, -⟩ := lt_stamp hstamp
  have hlater (p : LogEntry) (hp : Precedes env (item.topic, env.writerId) p u) :
      p.hlc < a.entry.hlc := by
    rw [hentry]
    exact lt_of_le_of_lt hp.le hlt
  refine ⟨hlater, fun env' t via hreplica E hbounded => ?_⟩
  have hstream : a.entry.stream = (item.topic, env.writerId) := by
    rw [hentry]
    rfl
  have hseq : a.entry.seq = (t.core.head env' (item.topic, env.writerId)).contigSeq + 1 := by
    rw [hentry, hreplica.contigSeq]
    rfl
  have haccepts : (t.core.stream env' (item.topic, env.writerId)).Accepts env' a.entry := by
    constructor
    · change chainOf env' ((t.core.head env' (item.topic, env.writerId)).prevChain env') a.entry = _
      rw [hreplica.chains.chainOf_eq, hreplica.prevChain, hentry]
      rfl
    · intro hpos
      cases hrow : (t.core.stream env' (item.topic, env.writerId)).rows
          (t.core.stream env' (item.topic, env.writerId)).head.contigSeq with
      | none => rfl
      | some p =>
        have hp := hlater p (hreplica.row p hpos hrow)
        apply decide_eq_true
        rw [hlcCompare_le_zero]
        exact (Hlc.lt_iff.1 hp).imp_right fun h => ⟨h.1, h.2.le⟩
  have happlied : (((t.view env').localAt (item.topic, env.writerId)).verifyAndApply env' a.entry
      via).2 = .applied := by
    rw [Local.verifyAndApply]
    exact congrArg Prod.snd (if_pos haccepts)
  have hat := hreplica.ready.at (item.topic, env.writerId)
  have hknown := hreplica.known
  rw [← hstream] at hat hknown hbounded hseq happlied ⊢
  apply verifyAndApply_spec hat hknown
  · intro hE
    apply hbounded hE
    rw [hseq]
    exact Nat.lt_succ_self _
  · exact fun t' _ => happlied

/-- An author that has appended once, and a replica that has the entry. -/
def firstAppend : List (Input (hostEnv "w")) := [hostFlush "w" 1 [hostAppend "w"]]

def firstTaken : List (Input (hostEnv "b")) :=
  [hostFlush "b" 1 [hostExternal "b" "w" 1 1 "k"
    "2b9b9a7838c39f166c0015237d70501dc4ea31d32bf5c34ee8c0d5d8bdf67e27" valid_first]]

/-- The replica applies the second entry. -/
theorem author_entries_acceptable_of_second :
    ∃ u u' t p a, processQueued (hostEnv "w") ({ now := 2 }, hostAppend "w") u = .ok () u' ∧
      u'.applied = u.applied ++ [a] ∧ (t.core.stream (hostEnv "b") ("t", "w")).rows 1 = some p ∧
      p.hlc < a.entry.hlc ∧ Returns (fun _ => True)
        (verifyAndApply (hostEnv "b") (t.core.head (hostEnv "b") ("t", "w")) a.entry none) t
        fun r _ => r.2 = .applied := by
  have hu : MidBatch (hostEnv "w")
      (Txn.start (runCore (hostEnv "w") Core.init firstAppend) none) := ⟨firstAppend, [], none, rfl⟩
  have ht : (runCore (hostEnv "b") Core.init firstTaken).Coherent (hostEnv "b") :=
    runCore_coherent firstTaken
  have hlength : (endState (processQueued (hostEnv "w") ({ now := 2 }, hostAppend "w")
      (Txn.start (runCore (hostEnv "w") Core.init firstAppend) none))).map (·.applied.length) =
        some 1 := by decide +kernel
  have hseq : ((runCore (hostEnv "b") Core.init firstTaken).head (hostEnv "b") ("t", "w")).contigSeq =
      ((runCore (hostEnv "w") Core.init firstAppend).head (hostEnv "w") ("t", "w")).contigSeq := by
    decide +kernel
  have hchain :
      ((runCore (hostEnv "b") Core.init firstTaken).head (hostEnv "b") ("t", "w")).contigChain =
      ((runCore (hostEnv "w") Core.init firstAppend).head (hostEnv "w") ("t", "w")).contigChain := by
    decide +kernel
  have hone : ((runCore (hostEnv "b") Core.init firstTaken).head (hostEnv "b")
      ("t", "w")).contigSeq = 1 := by decide +kernel
  have hrow : (((runCore (hostEnv "b") Core.init firstTaken).stream (hostEnv "b")
      ("t", "w")).rows 1).any (fun p => decide (p.hlc ≤
        (runCore (hostEnv "w") Core.init firstAppend).hlcState)) = true := by decide +kernel
  generalize runCore (hostEnv "w") Core.init firstAppend = author at *
  generalize runCore (hostEnv "b") Core.init firstTaken = replica at *
  cases hrun : processQueued (hostEnv "w") ({ now := 2 }, hostAppend "w") (Txn.start author none) with
  | error e u' =>
    rw [hrun] at hlength
    cases hlength
  | ok _ u' =>
    rw [hrun] at hlength
    obtain ⟨a, ha⟩ := List.length_eq_one_iff.1 (Option.some.inj hlength)
    obtain ⟨p, hp, hle⟩ := Option.any_eq_true _ _ |>.1 hrow
    have hprecedes : Precedes (hostEnv "w") ("t", "w") p (Txn.start author none) :=
      .passed hu (of_decide_eq_true hle) .now
    have hreplica : Replica (hostEnv "w") (hostEnv "b") ("t", "w") (Txn.start author none)
        (Txn.start replica none) := by
      refine ⟨⟨ht⟩, ⟨rfl, rfl⟩, rfl, hseq, hchain, fun p' _ hp' => ?_⟩
      have hsame : (replica.stream (hostEnv "b") ("t", "w")).rows 1 = some p' := by
        rw [← hone]
        exact hp'
      obtain rfl := Option.some.inj (hp.symm.trans hsame)
      exact hprecedes
    have hboth := author_entries_acceptable hu { now := 2 } hrun (a := a) ha
    exact ⟨_, u', _, p, a, hrun, ha, hp, hboth.1 p hprecedes,
      hboth.2 (hostEnv "b") _ none hreplica (fun _ => True) fun h => absurd trivial h⟩

/-- An entry of its own that the author gets from a peer, far ahead of the wall clock. -/
theorem valid_farFirst : (validateEntry (hostEnv "w") (hostEntry "w" 1 1000000 "k"
    "bd8d5fbe1c3beb17e124cd5f36ce0b5327688ec03abe03f55c1842c3ea15e4ce")).isOk := by
  decide +kernel

def farFirst (self : WriterId) : Input (hostEnv self) :=
  hostFlush self 1 [hostExternal self "w" 1 1000000 "k"
    "bd8d5fbe1c3beb17e124cd5f36ce0b5327688ec03abe03f55c1842c3ea15e4ce" valid_farFirst]

/-- What a core that is at rest makes of an entry. -/
def Core.classify (env : Env) (core : Core) (e : LogEntry) : Option ApplyResult :=
  match verifyAndApply env (core.head env e.stream) e none (Txn.start core none) with
  | .ok r _ => some r.2
  | .error _ _ => none

/-- The next entry of the author is stamped before the one that it has, and a replica with the same
head seals the stream. -/
theorem far_entry_forks :
    let author := runCore (hostEnv "w") Core.init [farFirst "w"]
    let replica := runCore (hostEnv "b") Core.init [farFirst "b"]
    let o := flush (hostEnv "w") [({ now := 2 }, hostAppend "w")] none author
    (replica.head (hostEnv "b") ("t", "w")).contigSeq =
        (author.head (hostEnv "w") ("t", "w")).contigSeq ∧
      (replica.head (hostEnv "b") ("t", "w")).contigChain =
        (author.head (hostEnv "w") ("t", "w")).contigChain ∧
      (o.applied.map fun a => ((author.stream (hostEnv "w") ("t", "w")).rows 1).map fun p =>
        hlcCompare p.hlc a.entry.hlc) = [some 1] ∧
      (o.applied.map fun a => replica.classify (hostEnv "b") a.entry) = [some .forked] := by
  decide +kernel

end Seqscribe
