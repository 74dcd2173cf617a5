import Seqscribe.Host
import Seqscribe.Spread

namespace Seqscribe
set_option autoImplicit true

/-! Acknowledged pruning spares the members that it counts. -/

variable {node : WriterId} {vectors : HaveVectors}

/-! Where acknowledgments come from. -/

/-- The vectors of a node state an acknowledgment. -/
def AckRow.StatedBy (a : AckRow) (node : WriterId) (vectors : HaveVectors) : Prop :=
  a.node = node ∧ ∃ w, writerVec vectors (a.topic, a.writer) = some w ∧ w.acked = a.seq

theorem writerVec_filter {vectors : HaveVectors} {p : TopicVec → Bool}
    (h : writerVec (vectors.filter p) k = some w) : writerVec vectors k = some w := by
  rw [writerVec, Table.get_filter] at h
  rw [writerVec]
  obtain ⟨v, hv, hw⟩ := Option.bind_eq_some_iff.1 h
  rw [(Option.filter_eq_some_iff.1 hv).1]
  exact hw

theorem AckRow.StatedBy.of_filter {a : AckRow} {p : TopicVec → Bool}
    (h : a.StatedBy node (vectors.filter p)) : a.StatedBy node vectors := by
  obtain ⟨hnode, w, hw, hseq⟩ := h
  exact ⟨hnode, w, writerVec_filter hw, hseq⟩

namespace AckRecorder

/-- What a call of `record` collects is stated by the vectors. -/
def Recording.Stated (r : Recording) (node : WriterId) (vectors : HaveVectors) : Prop :=
  ∀ row, .ackUpsert row ∈ r.writes → row.StatedBy node vectors

theorem Recording.Stated.writer {r : Recording} (h : r.Stated node vectors)
    (hw : writerVec vectors (topic, w.1) = some w.2) :
    (recordWriter topic node r w).Stated node vectors := by
  rw [recordWriter]
  dsimp only
  split
  · exact h
  · intro row hrow
    rcases List.mem_append.1 hrow with hrow | hrow
    · exact h row hrow
    · cases List.mem_singleton.1 hrow
      exact ⟨rfl, w.2, hw, rfl⟩

theorem Recording.Stated.topic {r : Recording} (h : r.Stated node vectors)
    (hv : v ∈ vectors.rows) : (recordTopic env defined node atMs proto r v).Stated node vectors := by
  have hget : vectors.get v.topic = some v := Table.get_of_mem hv
  have hwriters : (v.writers.rows.foldl (recordWriter v.topic node)
      { r with changed := false }).Stated node vectors := by
    apply List.foldlRecOn v.writers.rows (recordWriter v.topic node)
      (motive := fun r => r.Stated node vectors)
    · exact h
    · intro r hr w hw
      apply hr.writer
      have hfound : v.writers.get w.1 = some w := Table.get_of_mem hw
      rw [writerVec, hget, Option.bind_some, hfound]
      rfl
  rw [recordTopic]
  split
  · dsimp only
    split
    · intro row hrow
      rcases List.mem_append.1 hrow with hrow | hrow
      · exact hwriters row hrow
      · cases List.mem_singleton.1 hrow
    · exact hwriters
  · exact h

theorem mem_acks_foldl_run {writes : List AckWrite}
    (ha : a ∈ (writes.foldl AckWrite.run db).sqAcks.rows) :
    a ∈ db.sqAcks.rows ∨ .ackUpsert a ∈ writes := by
  induction writes generalizing db with
  | nil => exact .inl ha
  | cons write writes ih =>
    rw [List.foldl_cons] at ha
    rcases ih ha with ha | ha
    · cases write with
      | ackNodeSeen => exact .inl ha
      | ackUpsert row =>
        rcases Table.eq_or_mem_of_mem_upsert ha with rfl | ha
        · exact .inr List.mem_cons_self
        · exact .inl ha
    · exact .inr (List.mem_cons_of_mem _ ha)

/-- `record` adds only what the vectors state. -/
theorem record_acks
    (ha : a ∈ (record env vectors node atMs proto fails recorder core).2.db.sqAcks.rows) :
    a ∈ core.db.sqAcks.rows ∨ a.StatedBy node vectors := by
  rw [record] at ha
  split at ha
  · exact .inl ha
  dsimp only at ha
  split at ha
  · exact .inl ha
  split at ha
  · exact .inl ha
  · refine (mem_acks_foldl_run ha).imp_right fun hwrite => ?_
    have hstated : (vectors.rows.foldl (recordTopic env core.defined node atMs proto)
        ⟨recorder, [], false⟩).Stated node vectors := by
      apply List.foldlRecOn vectors.rows (recordTopic env core.defined node atMs proto)
        (motive := fun r => r.Stated node vectors)
      · intro row hrow
        cases hrow
      · intro r hr v hv
        exact hr.topic hv
    exact hstated a hwrite

end AckRecorder

/-! No other input adds acknowledgments. -/

theorem flush_acks {env : Env} {core : Core} {batch : List (Queued env)}
    (ha : a ∈ (flush env batch fault core).core.db.sqAcks.rows) : a ∈ core.db.sqAcks.rows := by
  have hbody : Maintains (AcksMeet (· ∈ core.db.sqAcks.rows)) (flushBody env batch) := by
    refine .bind (.forM fun q => AcksMeet.processQueued q) fun _ => .bind .get fun t => ?_
    refine .bind (AcksMeet.execute _ fun _ _ h => h) fun _ => .bind .get fun t => ?_
    exact .ite (fun _ => .throw _) fun _ => .pure _
  rw [flush] at ha
  split at ha
  · exact ha
  · unfold transaction at ha
    cases hrun : flushBody env batch (Txn.start core fault) with
    | ok u t =>
      rw [hrun] at ha
      exact (hbody.runs (Txn.start core fault) fun _ h => h).of_ok hrun a ha
    | error e t =>
      rw [hrun] at ha
      exact ha

theorem step_acks {env : Env} {core : Core} (i : Input env) (hi : ∀ row, i ≠ .ackUpsert row)
    (ha : a ∈ (step env core i).core.db.sqAcks.rows) : a ∈ core.db.sqAcks.rows := by
  have hdirect {α : Type} {m : LogM α} {now : Nat} {fault : Option Nat}
      (hm : Ensures m { Txn.start core fault with ambient := { now := now } } fun t' =>
        t'.core.db.sqAcks = core.db.sqAcks)
      (ha : a ∈ (runDirect m now fault core).core.db.sqAcks.rows) : a ∈ core.db.sqAcks.rows := by
    rwa [← Ensures.runDirect (P := fun core' => core'.db.sqAcks = core.db.sqAcks) hm]
  cases i with
  | flush batch fault => exact flush_acks ha
  | archiveNow topic now fault =>
    exact hdirect ((StaysAside.archiveNow env topic).ensures_of fun _ h => h.acks) ha
  | getStream topic writer =>
    exact hdirect ((StaysAside.getStream env topic writer).ensures_of fun _ h => h.acks) ha
  | getCert topic => exact hdirect ((StaysAside.getCert topic).ensures_of fun _ h => h.acks) ha
  | floorOf topic writer =>
    exact hdirect ((StaysAside.floorOf topic writer).ensures_of fun _ h => h.acks) ha
  | vectors now =>
    have hvectors := vectors_aside env { Txn.start core none with ambient := { now := now } }
    apply hdirect (hvectors.mono (fun _ _ h => _) fun _ _ h => _) ha
    · exact fun _ _ h => h.elim fun _ haside => haside.acks
    · exact fun _ _ h => h.elim fun _ haside => haside.acks
  | ackUpsert row => exact absurd rfl (hi row)
  | _ => exact ha

namespace Cluster

variable {env : WriterId → Env}

/-- What was sent as the vectors of a node, the node has advertised. -/
theorem advertised_of_sent {as : List (Action env)}
    (hsent : .haveVectors node vectors ∈ (run as).sent) :
    ∃ before act, before ++ [act] <+: as ∧ Advertises (run before) act node vectors := by
  induction as using List.reverseRecOn with
  | nil => cases hsent
  | append_singleton as a ih =>
    have hearlier : .haveVectors node vectors ∈ (run as).sent → ∃ before act,
        before ++ [act] <+: as ++ [a] ∧ Advertises (run before) act node vectors := by
      intro hsent
      obtain ⟨before, act, hin, hadvertises⟩ := ih hsent
      exact ⟨before, act, hin.trans (List.prefix_append as [a]), hadvertises⟩
    rw [run_snoc] at hsent
    cases a with
    | work => exact hearlier hsent
    | recordAcks => exact hearlier hsent
    | forgetAcks => exact hearlier hsent
    | sendHave n now =>
      rcases List.mem_append.1 hsent with hsent | hsent
      · exact hearlier hsent
      · rw [Option.mem_toList, Option.map_eq_some_iff] at hsent
        obtain ⟨v, hv, hmsg⟩ := hsent
        cases hmsg
        exact ⟨as, _, List.prefix_refl _, .inl ⟨now, rfl, hv⟩⟩
    | tellVectors n v =>
      rcases List.mem_append.1 hsent with hsent | hsent
      · exact hearlier hsent
      · cases List.mem_singleton.1 hsent
        exact ⟨as, _, List.prefix_refl _, .inr rfl⟩
    | serveWant n snapshotHub cost proto budget m =>
      rcases List.mem_append.1 hsent with hsent | hsent
      · exact hearlier hsent
      · unfold WantAnswer.messages at hsent
        split at hsent
        · obtain ⟨f, -, hmsg⟩ := List.mem_map.1 hsent
          cases hmsg
        · cases List.mem_singleton.1 hsent
    | pushEntries n cost topic writer budget known =>
      rcases List.mem_append.1 hsent with hsent | hsent
      · exact hearlier hsent
      · rw [Option.mem_toList, Option.map_eq_some_iff] at hsent
        obtain ⟨m, -, hmsg⟩ := hsent
        cases hmsg

/-- An acknowledgment that a node has recorded in a run: `act` advertised it, after `before`. -/
def Records (as : List (Action env)) (n : WriterId) (a : AckRow) (before : List (Action env))
    (act : Action env) : Prop :=
  ∃ vectors mid shared atMs proto fails, Advertises (run before) act a.node vectors ∧
    a.StatedBy a.node vectors ∧ before ++ [act] <+: mid ∧
    mid ++ [.recordAcks n a.node vectors shared atMs proto fails] <+: as

theorem Records.snoc {as : List (Action env)} (h : Records as n a before act) (b : Action env) :
    Records (as ++ [b]) n a before act := by
  obtain ⟨vectors, mid, shared, atMs, proto, fails, hadvertises, hstated, hbefore, hmid⟩ := h
  exact ⟨vectors, mid, shared, atMs, proto, fails, hadvertises, hstated, hbefore,
    hmid.trans (List.prefix_append as [b])⟩

/-- Every acknowledgment that a node holds was advertised, and recorded after that. -/
theorem acks_recorded {as : List (Action env)} (hlegal : Legal as)
    (ha : a ∈ ((run as).core n).db.sqAcks.rows) : ∃ before act, Records as n a before act := by
  induction as using List.reverseRecOn with
  | nil => cases ha
  | append_singleton as b ih =>
    obtain ⟨hlegal, henabled⟩ := hlegal.snoc
    have hearlier : a ∈ ((run as).core n).db.sqAcks.rows →
        ∃ before act, Records (as ++ [b]) n a before act := by
      intro ha
      obtain ⟨before, act, hrecords⟩ := ih hlegal ha
      exact ⟨before, act, hrecords.snoc b⟩
    rw [run_snoc] at ha
    rcases perform_core (run as) b n with hsame | ⟨i, hi, hstep⟩ | hrecord
    · rw [hsame] at ha
      exact hearlier ha
    · rw [hstep] at ha
      apply hearlier
      apply step_acks i _ ha
      rintro row rfl
      rcases hi with rfl | ⟨now, -, hi⟩
      · exact henabled
      · cases hi
    · obtain ⟨node, vectors, shared, atMs, proto, fails, rfl, hrecord⟩ := hrecord
      rw [hrecord] at ha
      rcases AckRecorder.record_acks ha with ha | hstated
      · exact hearlier ha
      · obtain ⟨before, act, hin, hadvertises⟩ := advertised_of_sent henabled
        obtain rfl := hstated.1
        exact ⟨before, act, vectors, as, shared, atMs, proto, fails, hadvertises,
          hstated.of_filter, hin, List.prefix_refl _⟩

end Cluster

/-! What a prune strikes. -/

/-- A prune deletes the row above the floor at a position, or raises the floor to the position. -/
def Strikes (env : Env) (k : StreamId) (t t' : Txn) (s : Nat) : Prop :=
  (t.core.stream env k).floorSeq < s ∧ ((t.core.stream env k).rows s).isSome = true ∧
      (t'.core.stream env k).rows s = none ∨
    (t'.core.stream env k).floor ≠ (t.core.stream env k).floor ∧
      (t'.core.stream env k).floorSeq = s

/-- What is struck is held, and what the recorded acknowledgments allow. -/
theorem Stream.Cleared.struck {S S' : Stream} (h : S.Cleared B S')
    (hs : S.floorSeq < s ∧ (S.rows s).isSome = true ∧ S'.rows s = none ∨
      S'.floor ≠ S.floor ∧ S'.floorSeq = s) :
    (S.rows s).isSome = true ∧ ∃ b, B b ∧ s ≤ b := by
  rcases hs with ⟨habove, hheld, hgone⟩ | ⟨hraised, rfl⟩
  · obtain ⟨e, he⟩ := Option.isSome_iff_exists.1 hheld
    exact ⟨hheld, (h.above s e he hgone).resolve_left (Nat.not_le.2 habove)⟩
  · constructor
    · obtain ⟨s, e, hrow, hfloor⟩ := h.floor.resolve_left hraised
      have hs : S'.floorSeq = s := by
        rw [Stream.floorSeq, hfloor]
        rfl
      rw [hs, hrow]
      rfl
    · exact h.raised.resolve_left hraised

/-- What a call of `pruneAcked` does that settles with a report. -/
theorem pruneAcked_cleared {env : Env} {known : (env.topics T).isSome = true} {q : Queued env}
    {t t' : Txn} (ht : Ready env t)
    (hq : q.2 = .pruneAcked T o maxRows known) (hrun : processQueued env q t = .ok () t')
    (hsettled : t'.settle = t.settle ++ [.ackedPruned r]) :
    env.ackedRetention T = true ∧ (∀ x ∈ r.members, x.node ≠ env.writerId) ∧
      ∀ k, (t.core.stream env k).Cleared (AcksAllow T t.core.db.sqAcks.rows r.members k)
        (t'.core.stream env k) := by
  obtain ⟨ambient, item⟩ := q
  obtain rfl : item = .pruneAcked T o maxRows known := hq
  have hcall : Returns (fun _ => True) (processQueued env (ambient, .pruneAcked T o maxRows known)) t
      fun _ t' => t'.settle = t.settle ++ [.ackedPruned r] → env.ackedRetention T = true ∧
        (∀ x ∈ r.members, x.node ≠ env.writerId) ∧
        ∀ k, (t.core.stream env k).Cleared (AcksAllow T t.core.db.sqAcks.rows r.members k)
          (t'.core.stream env k) := by
    have ht : Ready env { t with ambient := ambient } := ⟨ht.coherent⟩
    refine .bind (.modify rfl (processPruneAcked_clears ht known ?_ ?_))
    · intro e t' _ hv hsettled
      have hrefused : t'.settle = t.settle ++ [.rejected e] := congrArg View.settle hv
      cases List.append_cancel_left (hrefused.symm.trans hsettled)
    · intro r' v t' _ hacked hothers hcleared hv hsettled
      have hdone : t'.settle = v.settle ++ [.ackedPruned r'] := congrArg View.settle hv
      rw [hcleared.thinned.settle] at hdone
      cases List.append_cancel_left (hdone.symm.trans hsettled)
      have hstreams : t'.core.stream env = v.streams := congrArg View.streams hv
      rw [hstreams]
      exact ⟨hacked, hothers, hcleared.streams⟩
  have hdone := hcall.of_ok hrun
  exact hdone.2 hsettled

namespace Cluster

variable {env : WriterId → Env}

/-- What a member has acknowledged of a stream it held when it advertised it, and it never lost
any of it since. An author that is not known to have acknowledged its stream keeps its own. -/
structure Provided (as : List (Action env)) (n : WriterId) (acks : List AckRow) (m : WriterId)
    (k : StreamId) : Prop where
  honest : ∀ a ∈ acks, a.topic = k.1 → a.node = m → a.writer = k.2 →
    ∀ before act, Records as n a before act → a.seq ≤ (run before).contigSeq env m k
  kept : ∀ a ∈ acks, a.topic = k.1 → a.node = m → a.writer = k.2 →
    ∀ before act, Records as n a before act →
      ∀ mid mid', before <+: mid → mid <+: mid' → mid' <+: as →
        (run mid).contigSeq env m k ≤ (run mid').contigSeq env m k
  author : m = k.2 → (∀ a ∈ acks, ¬ (a.topic = k.1 ∧ a.node = m ∧ a.writer = k.2)) → KeepsOwn as k

theorem Records.earlier {as : List (Action env)} (h : Records as n a before act) :
    before <+: as := by
  obtain ⟨vectors, mid, shared, atMs, proto, fails, -, -, hbefore, hmid⟩ := h
  exact (List.prefix_append before [act]).trans (hbefore.trans ((List.prefix_append mid _).trans hmid))

/-- The transaction of a flush, after some of its items. -/
theorem ready_at (as : List (Action env)) {before : List (Queued (env n))}
    (hbefore : forM before (processQueued (env n)) (Txn.start ((run as).core n) fault) = .ok () t) :
    Ready (env n) t ∧ t.core.db.sqAcks.rows ⊆ ((run as).core n).db.sqAcks.rows := by
  have hstart : Ready (env n) (Txn.start ((run as).core n) fault) := ⟨coherent_of_run as n⟩
  have hbatch : Returns (fun _ => True) (forM before (processQueued (env n)))
      (Txn.start ((run as).core n) fault) fun _ t' => Ready (env n) t' := by
    refine .mono (.forM (fun _ t' => Ready (env n) t') hstart fun q _ t ht => ?_) fun _ _ h => h
    exact .mono (processQueued_fullSync q ht) fun _ t' h => h.1
  have hdone := hbatch.of_ok hbefore
  have hacks : Maintains (AcksMeet (· ∈ ((run as).core n).db.sqAcks.rows))
      (forM before (processQueued (env n))) := .forM fun q => AcksMeet.processQueued q
  exact ⟨hdone.2, (hacks.runs (Txn.start ((run as).core n) fault) fun _ h => h).of_ok hbefore⟩

/-- The transaction of a flush, after some of its items: the stream of another author. -/
theorem away_at {as : List (Action env)} (hown : ∀ n, (env n).writerId = n) (hlegal : Legal as)
    (hkeeps : KeepsOwn as k) (hn : n ≠ k.2) (hfull : (env n).isFullSync k.1 = true)
    {before : List (Queued (env n))} (harrived : ∀ q ∈ before, q.2.Arrived (run as).sent)
    (hbefore : forM before (processQueued (env n)) (Txn.start ((run as).core n) fault) = .ok () t) :
    (t.core.stream (env n) k).Away k ((run as).contigSeq env k.2 k) := by
  have hspread := spread_of_run hown hlegal hkeeps
  have hready : Ready (env n) (Txn.start ((run as).core n) fault) := ⟨coherent_of_run as n⟩
  have hk : k.2 ≠ (env n).writerId := by
    rw [hown]
    exact Ne.symm hn
  have hbatch := batch_stream (I := (Stream.Away k ((run as).contigSeq env k.2 k)))
    (P := fun _ _ => True) hready (BatchEvery.of_forall fun _ _ _ => trivial)
    (hspread.away n hn hfull) fun q hq t ht _ hS =>
      hS.item hfull hk q ht ((harrived q hq).within hspread.sent hfull)
  exact (hbatch.of_ok hbefore).2.2

theorem isFullSync_of_ackedRetention {env : Env} (h : env.ackedRetention T = true) :
    env.isFullSync T = true := by
  obtain ⟨p, hp, hacked⟩ := (Option.any_eq_true ..).1 h
  exact (Option.any_eq_true ..).2 ⟨p, hp, decide_eq_true (of_decide_eq_true hacked).2.1⟩

/-- Wherever a call of `pruneAcked` strikes a stream, every member that it counts has the stream
that far; without a directive recovery the member never needs a WANT there. -/
theorem acked_prune_spares_members {env : WriterId → Env} (hown : ∀ n, (env n).writerId = n)
    {as : List (Action env)} {n : WriterId} {before after : List (Queued (env n))}
    {q : Queued (env n)} {known : ((env n).topics T).isSome = true} {t t' : Txn}
    (hlegal : Legal (as ++ [.work n (.flush (before ++ q :: after) fault)]))
    (hq : q.2 = .pruneAcked T o maxRows known)
    (hbefore : forM before (processQueued (env n)) (Txn.start ((run as).core n) fault) = .ok () t)
    (hrun : processQueued (env n) q t = .ok () t')
    (hsettled : t'.settle = t.settle ++ [.ackedPruned r]) (hm : Counted r.members m)
    (hprovided : Provided as n t.core.db.sqAcks.rows m k) (hstrikes : Strikes (env n) k t t' s) :
    s ≤ (run as).contigSeq env m k ∧
      ∀ rest, (run as).contigSeq env m k ≤ (run (as ++ rest)).contigSeq env m k →
        ∀ σ : Requester, σ.stream = ((run (as ++ rest)).core m).stream (env m) k →
          σ.stream.recovery = none → s < σ.wantFrom := by
  suffices hle : s ≤ (run as).contigSeq env m k by
    refine ⟨hle, fun rest hrest σ hσ hnone => ?_⟩
    have hcontig : σ.contigSeq = (run (as ++ rest)).contigSeq env m k :=
      congrArg (fun S : Stream => S.head.contigSeq) hσ
    rw [Requester.wantFrom, hnone]
    exact Nat.lt_succ_of_le ((hle.trans hrest).trans (Nat.le_of_eq hcontig.symm))
  obtain ⟨hlegal, henabled⟩ := hlegal.snoc
  obtain ⟨hready, hacks⟩ := ready_at as hbefore
  obtain ⟨hacked, hothers, hcleared⟩ := pruneAcked_cleared hready hq hrun hsettled
  obtain ⟨hheld, b, ⟨hT, hallow⟩, hb⟩ := (hcleared k).struck hstrikes
  subst hT
  rcases hallow m hm with ⟨a, ha, hT, hnode, hwriter, hle⟩ | ⟨rfl, hnone⟩ | rfl
  · -- the acknowledgment was advertised
    obtain ⟨earlier, act, hrecords⟩ := acks_recorded hlegal (hacks ha)
    calc s ≤ a.seq := hb.trans hle
      _ ≤ (run earlier).contigSeq env m k := hprovided.honest a ha hT hnode hwriter _ _ hrecords
      _ ≤ (run as).contigSeq env m k := hprovided.kept a ha hT hnode hwriter _ _ hrecords earlier as
        (List.prefix_refl _) hrecords.earlier (List.prefix_refl _)
  · -- nothing of the stream is beyond its author
    have hn : n ≠ k.2 := by
      obtain ⟨x, hx, hnode, -⟩ := hm
      have hother := hothers x hx
      rw [hown, hnode] at hother
      exact hother.symm
    have haway := away_at hown hlegal (hprovided.author rfl hnone) hn
      (isFullSync_of_ackedRetention hacked)
      (fun q hq => henabled q (List.mem_append_left _ hq)) hbefore
    obtain ⟨e, hrow⟩ := Option.isSome_iff_exists.1 hheld
    exact (haway.sound.row_le hrow).trans haway.below.head
  · exact (Nat.le_zero.1 hb) ▸ Nat.zero_le _

theorem Legal.append {as : List (Action env)} (h : Legal as) (ha : (run as).Enabled a) :
    Legal (as ++ [a]) := by
  intro before b hb
  rcases List.prefix_concat_iff.1 hb with hsame | hb
  · obtain ⟨hbefore, hlast⟩ := List.append_inj' hsame rfl
    cases hlast
    subst hbefore
    exact ha
  · exact h before b hb

/-- The author appends two entries and serves them, and the pruner takes them. -/
def served : List (Action hostEnv) :=
  [] ++ [.work "w" (.flush [({ now := 1 }, hostAppend "w"), ({ now := 2 }, hostAppend "w")] none)] ++
    [.serveWant "w" false (fun _ => 1) 3 1000 ⟨1, "t", "w", 1⟩] ++
    [.work "b" (hostFlush "b" 3 [
      hostExternal "b" "w" 1 1 "k"
        "2b9b9a7838c39f166c0015237d70501dc4ea31d32bf5c34ee8c0d5d8bdf67e27" valid_first,
      hostExternal "b" "w" 2 2 "k"
        "33219e2f97e466593b7541683f5ca1825c48d9083647f3ef644bf447606e5ec1" valid_second])] ++
    [.work "b" (.defineTopic "t")]

def servedVectors : HaveVectors :=
  (((run served).core "w").haveVectors (hostEnv "w") 4).getD .empty

/-- The author's vectors are recorded. -/
def acknowledged : List (Action hostEnv) :=
  served ++ [.sendHave "w" 4] ++
    [.recordAcks "b" "w" servedVectors (fun _ => true) 5 none false]

def ackedPrune : Queued (hostEnv "b") :=
  ({ now := 100 }, .pruneAcked "t" { olderThanMs := 10, maxLagMs := 1000 } 10 (hostEnv_known "b"))

/-- A message carries an entry of the host's topic with an empty payload. -/
def carries (writer : WriterId) (seq l : Nat) (kind : String) (chain : Chain) : Message → Bool
  | .entries m => m.entries.any fun e =>
    decide (e.topic = "t" ∧ e.writer = writer ∧ e.seq = seq ∧ e.hlc = ⟨l, 0⟩ ∧ e.kind = js kind ∧
      e.key = none ∧ e.causal = none ∧ e.ref = none ∧ e.chain = chain) &&
    match e.payload with
    | .null => true
    | _ => false
  | _ => false

theorem mem_of_carries {sent : List Message}
    (h : sent.any (carries writer seq l kind chain) = true) :
    ∃ m, .entries m ∈ sent ∧ hostEntry writer seq l kind chain ∈ m.entries := by
  obtain ⟨msg, hmsg, hcarries⟩ := List.any_eq_true.1 h
  cases msg with
  | haveVectors => cases hcarries
  | truncated => cases hcarries
  | entries m =>
    obtain ⟨e, he, hsame⟩ := List.any_eq_true.1 hcarries
    obtain ⟨hfields, hpayload⟩ := Bool.and_eq_true_iff.1 hsame
    have hnull : e.payload = .null := by
      split at hpayload
      · next hnull => exact hnull
      · cases hpayload
    obtain ⟨_, _, _, _, _, _, _, _, _, _⟩ := e
    obtain ⟨rfl, rfl, rfl, rfl, rfl, rfl, rfl, rfl, rfl⟩ := of_decide_eq_true hfields
    cases hnull
    exact ⟨m, hmsg, he⟩

theorem enabled_flush {c : Cluster} {batch : List (Queued (env n))}
    (h : ∀ q ∈ batch, q.2.Arrived c.sent) : c.Enabled (.work n (.flush batch fault)) := h

theorem enabled_serveWant {c : Cluster} {m : MsgWant} (h : (env n).isFullSync m.topic = true) :
    c.Enabled (.serveWant n snapshotHub cost proto budget m : Action env) := h

theorem enabled_defineTopic (c : Cluster) :
    c.Enabled (.work n (.defineTopic topic) : Action env) := trivial

theorem enabled_sendHave (c : Cluster) : c.Enabled (.sendHave n now : Action env) := trivial

theorem enabled_recordAcks {c : Cluster} (h : .haveVectors node vectors ∈ c.sent) :
    c.Enabled (.recordAcks n node vectors shared atMs proto fails : Action env) := h

theorem served_legal : Legal served := by
  have hnil : Legal ([] : List (Action hostEnv)) := by
    intro before a h
    cases (List.append_eq_nil_iff.1 (List.prefix_nil.1 h)).2
  apply Legal.append
  · apply Legal.append
    · apply Legal.append
      · apply hnil.append
        apply enabled_flush
        intro q hq
        rcases List.mem_pair.1 hq with rfl | rfl
        · exact trivial
        · exact trivial
      · apply enabled_serveWant
        rfl
    · apply enabled_flush
      intro q hq
      rcases List.mem_pair.1 hq with rfl | rfl
      · intro _
        apply mem_of_carries
        decide +kernel
      · intro _
        apply mem_of_carries
        decide +kernel
  · apply enabled_defineTopic

/-- An action that advertises. -/
def isAdvertisement : Action env → Bool
  | .sendHave .. | .tellVectors .. => true
  | _ => false

theorem served_vectors :
    ((run served).core "w").haveVectors (hostEnv "w") 4 = some servedVectors := by
  have hsome : (((run served).core "w").haveVectors (hostEnv "w") 4).isSome = true := by
    decide +kernel
  obtain ⟨v, hv⟩ := Option.isSome_iff_exists.1 hsome
  rw [servedVectors, hv]
  rfl

theorem acknowledged_legal : Legal acknowledged := by
  apply Legal.append
  · apply served_legal.append
    apply enabled_sendHave
  · apply enabled_recordAcks
    rw [run_snoc]
    apply List.mem_append_right
    rw [served_vectors]
    exact List.mem_singleton.2 rfl

/-- The pruner has recorded what the author held when it advertised it. -/
theorem acknowledged_provided : Provided acknowledged "b"
    (Txn.start ((run acknowledged).core "b") none).core.db.sqAcks.rows "w" ("t", "w") := by
  have hseq : ∀ a ∈ (Txn.start ((run acknowledged).core "b") none).core.db.sqAcks.rows,
      a.seq ≤ 2 := by
    decide +kernel
  have hcontig : ∀ mid ∈ acknowledged.inits, 4 ≤ mid.length →
      (run mid).contigSeq hostEnv "w" ("t", "w") = 2 := by
    decide +kernel
  have hadvertises : ∀ mid ∈ acknowledged.inits, mid.getLast?.any isAdvertisement = true →
      4 < mid.length := by
    decide +kernel
  have hafter : ∀ a, a.node = "w" → ∀ before act, Records acknowledged "b" a before act →
      ∀ mid, before <+: mid → mid <+: acknowledged →
        (run mid).contigSeq hostEnv "w" ("t", "w") = 2 := by
    rintro a - before act ⟨vectors, mid', _, _, _, _, hact, -, hbefore, hmid'⟩ mid hmid hin
    apply hcontig mid ((List.mem_inits ..).2 hin)
    have hinit := hbefore.trans ((List.prefix_append ..).trans hmid')
    have hlong := hadvertises _ ((List.mem_inits ..).2 hinit) (by
      rw [List.getLast?_concat]
      rcases hact with ⟨now, rfl, -⟩ | rfl
      · rfl
      · rfl)
    rw [List.length_append, List.length_singleton] at hlong
    exact (Nat.le_of_lt_succ hlong).trans hmid.length_le
  constructor
  · intro a ha _ hnode _ before act hrecords
    rw [hafter a hnode before act hrecords before (List.prefix_refl _) hrecords.earlier]
    exact hseq a ha
  · intro a _ _ hnode _ before act hrecords mid mid' hmid hmid' hin
    rw [hafter a hnode before act hrecords mid hmid (hmid'.trans hin),
      hafter a hnode before act hrecords mid' (hmid.trans hmid') hin]
  · intro _ hnone
    have hsome : ∃ a ∈ (Txn.start ((run acknowledged).core "b") none).core.db.sqAcks.rows,
        a.topic = "t" ∧ a.node = "w" ∧ a.writer = "w" := by
      decide +kernel
    obtain ⟨a, ha, hrecorded⟩ := hsome
    exact absurd hrecorded (hnone a ha)

/-- What the prune reports, where it strikes. -/
def reportOf : EStateM.Result SeqscribeError Txn Unit → Option (Txn × AckedPruneResult)
  | .ok _ t =>
    match t.settle with
    | [.ackedPruned r] => some (t, r)
    | _ => none
  | .error _ _ => none

theorem reportOf_eq (h : reportOf x = some (t, r)) :
    x = .ok () t ∧ t.settle = [.ackedPruned r] := by
  cases x with
  | error e t => cases h
  | ok u t' =>
    rw [reportOf] at h
    split at h
    · next hsettle =>
      cases h
      exact ⟨rfl, hsettle⟩
    · cases h

/-- The author has the row that the pruner takes. -/
theorem acked_prune_of_advertised : ∃ t' r,
    processQueued (hostEnv "b") ackedPrune (Txn.start ((run acknowledged).core "b") none) =
      .ok () t' ∧ t'.settle = [.ackedPruned r] ∧
    Strikes (hostEnv "b") ("t", "w") (Txn.start ((run acknowledged).core "b") none) t' 1 ∧
    1 ≤ (run acknowledged).contigSeq hostEnv "w" ("t", "w") := by
  let out := processQueued (hostEnv "b") ackedPrune (Txn.start ((run acknowledged).core "b") none)
  have hreport : ∃ p, reportOf out = some p ∧ Counted p.2.members "w" ∧
      (p.1.core.stream (hostEnv "b") ("t", "w")).floorSeq = 1 := by
    have hsome : (reportOf out).any (fun p =>
        p.2.members.any (fun x => decide (x.node = "w" ∧ x.excluded = none)) &&
          decide ((p.1.core.stream (hostEnv "b") ("t", "w")).floorSeq = 1)) = true := by
      decide +kernel
    obtain ⟨p, hp, hsome⟩ := (Option.any_eq_true ..).1 hsome
    obtain ⟨hmember, hfloor⟩ := Bool.and_eq_true_iff.1 hsome
    obtain ⟨x, hx, hcounted⟩ := List.any_eq_true.1 hmember
    exact ⟨p, hp, ⟨x, hx, of_decide_eq_true hcounted⟩, of_decide_eq_true hfloor⟩
  obtain ⟨⟨t', r⟩, hreport, hm, hfloor⟩ := hreport
  obtain ⟨hrun, hsettled⟩ := reportOf_eq hreport
  have hstrikes : Strikes (hostEnv "b") ("t", "w")
      (Txn.start ((run acknowledged).core "b") none) t' 1 := by
    refine .inr ⟨fun hsame => ?_, hfloor⟩
    have hbefore : ((Txn.start ((run acknowledged).core "b") none).core.stream (hostEnv "b")
        ("t", "w")).floorSeq = 0 := by
      decide +kernel
    have hzero : (t'.core.stream (hostEnv "b") ("t", "w")).floorSeq = 0 :=
      (congrArg (fun f => (Option.map Floor.seq f).getD 0) hsame).trans hbefore
    exact Nat.one_ne_zero (hfloor.symm.trans hzero)
  have hlegal : Legal (acknowledged ++ [.work "b" (.flush ([] ++ ackedPrune :: []) none)]) := by
    apply acknowledged_legal.append
    apply enabled_flush
    exact List.forall_mem_singleton.2 trivial
  have hnone : forM [] (processQueued (hostEnv "b"))
      (Txn.start ((run acknowledged).core "b") none) = .ok ()
        (Txn.start ((run acknowledged).core "b") none) := rfl
  have hsettle : t'.settle = (Txn.start ((run acknowledged).core "b") none).settle ++
      [.ackedPruned r] := hsettled
  have hprune : ackedPrune.2 = .pruneAcked "t" { olderThanMs := 10, maxLagMs := 1000 } 10 rfl := rfl
  exact ⟨t', r, hrun, hsettled, hstrikes, (acked_prune_spares_members (fun _ => rfl) hlegal hprune
    hnone hrun hsettle hm acknowledged_provided hstrikes).1⟩

end Cluster

end Seqscribe
