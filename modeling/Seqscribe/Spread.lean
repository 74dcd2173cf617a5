import Seqscribe.Cluster

namespace Seqscribe
set_option autoImplicit true

/-! What a cluster spreads of a stream stays within what the stream's author holds of it. -/

theorem Core.mem_range {env : Env} {core : Core} {k : StreamId}
    (he : e ∈ (core.stream env k).range fromSeq toSeq) : e.stream = k ∧ e.seq ≤ toSeq := by
  obtain ⟨s, hs, hrow⟩ := List.mem_filterMap.1 he
  obtain ⟨row, hget, rfl⟩ := Option.map_eq_some_iff.1 hrow
  have hid := log_id_of_get hget
  have hseq : row.entry.seq = s := congrArg (fun id : EntryId => id.2.2) hid
  rw [List.mem_range'_1] at hs
  constructor
  · exact Prod.ext (congrArg (fun id : EntryId => id.1) hid)
      (congrArg (fun id : EntryId => id.2.1) hid)
  · omega

namespace Responder

theorem mem_takeBatch {cost : LogEntry → Nat} (he : e ∈ takeBatch cost budget bytes batch rows) :
    e ∈ batch ∨ e ∈ rows := by
  induction rows generalizing bytes batch with
  | nil => exact .inl he
  | cons row rows ih =>
    rw [takeBatch] at he
    split at he
    · exact .inl he
    · rcases ih he with hbatch | hrows
      · rcases List.mem_append.1 hbatch with hbatch | hrow
        · exact .inl hbatch
        · exact .inr (List.mem_singleton.1 hrow ▸ List.mem_cons_self)
      · exact .inr (List.mem_cons_of_mem _ hrows)

/-- The frames of an answer carry rows of the stream, up to its end. -/
theorem mem_frames {env : Env} {r : Responder} {m : MsgWant}
    (hf : f ∈ r.frames env m budget toSeq n start) (he : e ∈ f.entries) :
    e.stream = (m.topic, m.writer) ∧ e.seq ≤ toSeq := by
  induction n generalizing start with
  | zero => cases hf
  | succ n ih =>
    rw [frames] at hf
    split at hf
    · dsimp only at hf
      split at hf
      · cases hf
      · rcases List.mem_cons.1 hf with rfl | hf
        · rcases mem_takeBatch he with hnil | hrow
          · cases hnil
          · obtain ⟨hstream, hseq⟩ := Core.mem_range hrow
            exact ⟨hstream, hseq.trans (Nat.min_le_left ..)⟩
        · exact ih hf
    · cases hf

end Responder

/-- What a message brings for a stream is within a position. -/
def Message.Within (k : StreamId) (M : Nat) : Message → Prop
  | .haveVectors .. => True
  | .entries m => ∀ e ∈ m.entries, e.stream = k → e.seq ≤ M
  | .truncated m => (m.topic, m.writer) = k → m.floorSeq ≤ M

theorem Message.Within.mono {msg : Message} (h : msg.Within k M) (hle : M ≤ M') :
    msg.Within k M' := by
  cases msg with
  | haveVectors => trivial
  | entries m => exact fun e he hk => (h e he hk).trans hle
  | truncated m => exact fun hk => (h hk).trans hle

theorem Stream.Away.mono {S : Stream} (h : S.Away k M) (hle : M ≤ M') : S.Away k M' :=
  ⟨h.sound, ⟨h.below.head.trans hle, fun e he => (h.below.pending e he).trans hle⟩,
    h.floor.trans hle⟩

/-- What a node may serve of a stream is within a position. -/
structure Core.Serves (env : Env) (core : Core) (k : StreamId) (M : Nat) : Prop where
  head : (core.stream env k).head.contigSeq ≤ M
  floor : (core.stream env k).floorSeq ≤ M

/-- A WANT is answered from the stream that it is for. -/
theorem Core.Serves.wantAnswer {env : Env} {r : Responder} {m : MsgWant}
    (h : (m.topic, m.writer) = k → r.core.Serves env k M) :
    ∀ msg ∈ (r.wantAnswer env proto budget m).messages, msg.Within k M := by
  have hcompletion : ∀ toSeq, ∀ msg ∈ (WantAnswer.entries [Responder.completion m toSeq]).messages,
      msg.Within k M := by
    intro toSeq msg hmsg
    cases List.mem_singleton.1 hmsg
    intro e he
    cases he
  intro msg hmsg
  rw [Responder.wantAnswer] at hmsg
  split at hmsg
  · exact hcompletion _ msg hmsg
  · split at hmsg
    · next floor hfloor =>
      split at hmsg
      · cases List.mem_singleton.1 hmsg
        rintro rfl
        have hheld := (h rfl).floor
        rw [Stream.floorSeq, (Option.filter_eq_some_iff.1 hfloor).1] at hheld
        exact hheld
      · exact hcompletion _ msg hmsg
    · split at hmsg
      · exact hcompletion _ msg hmsg
      · obtain ⟨f, hf, rfl⟩ := List.mem_map.1 hmsg
        intro e he hk
        obtain ⟨hstream, hseq⟩ := Responder.mem_frames hf he
        have hk : (m.topic, m.writer) = k := hstream.symm.trans hk
        subst hk
        exact hseq.trans (h rfl).head

theorem Core.Serves.pushEntries {env : Env} {r : Responder}
    (h : (topic, writer) = k → r.core.Serves env k M)
    (hm : r.pushEntries env topic writer budget known = some m) : (Message.entries m).Within k M := by
  rw [Responder.pushEntries] at hm
  dsimp only at hm
  split at hm
  · cases hm
  split at hm
  · cases hm
  split at hm
  · next first last hfirst hlast =>
    cases hm
    intro e he hk
    rcases Responder.mem_takeBatch he with hnil | hrow
    · cases hnil
    · obtain ⟨hstream, hseq⟩ := Core.mem_range hrow
      have hk : (topic, writer) = k := hstream.symm.trans hk
      subst hk
      exact (hseq.trans (Nat.min_le_left ..)).trans (h rfl).head
  · cases hm

/-- What has arrived is within what was sent. -/
theorem QueueItem.Arrived.within {env : Env} {item : QueueItem env} (h : item.Arrived sent)
    (hsent : ∀ msg ∈ sent, msg.Within k M) (hfull : env.isFullSync k.1 = true) :
    item.Within k M := by
  cases item with
  | external item =>
    rintro rfl
    obtain ⟨m, hm, he⟩ := h hfull
    exact hsent _ hm item.entry he rfl
  | adoptFloor T w s chain known =>
    rintro rfl
    obtain ⟨req, hm⟩ := h hfull
    exact hsent _ hm rfl
  | adopt T cut =>
    rintro rfl
    cases (show env.isFullSync k.1 = false from h).symm.trans hfull
  | _ => trivial

/-! Recording acknowledgments touches no stream. -/

theorem AckWrite.foldl_run (writes : List AckWrite) (db : Db) :
    ∃ acks nodes, writes.foldl AckWrite.run db = { db with sqAcks := acks, sqAckNodes := nodes } := by
  induction writes generalizing db with
  | nil => exact ⟨db.sqAcks, db.sqAckNodes, rfl⟩
  | cons write writes ih =>
    obtain ⟨acks, nodes, hrest⟩ := ih (write.run db)
    rw [List.foldl_cons, hrest]
    cases write with
    | ackUpsert row => exact ⟨acks, nodes, rfl⟩
    | ackNodeSeen topic node atMs proto => exact ⟨acks, nodes, rfl⟩

theorem AckRecorder.record_core (env : Env) (vectors : HaveVectors) (node : WriterId) (atMs : Nat)
    (proto : Option Nat) (fails : Bool) (recorder : AckRecorder) (core : Core) :
    ∃ acks nodes, (record env vectors node atMs proto fails recorder core).2 =
      { core with db.sqAcks := acks, db.sqAckNodes := nodes } := by
  have hsame : ∃ acks nodes, core = { core with db.sqAcks := acks, db.sqAckNodes := nodes } :=
    ⟨core.db.sqAcks, core.db.sqAckNodes, rfl⟩
  rw [record]
  split
  · exact hsame
  dsimp only
  split
  · exact hsame
  split
  · exact hsame
  · obtain ⟨acks, nodes, hdb⟩ := AckWrite.foldl_run
      (vectors.rows.foldl (recordTopic env core.defined node atMs proto) ⟨recorder, [], false⟩).writes
      core.db
    rw [hdb]
    exact ⟨acks, nodes, rfl⟩

theorem Core.Coherent.with_acks {env : Env} {core : Core} (h : core.Coherent env)
    (acks : Table (Topic × WriterId × WriterId) AckRow AckRow.id)
    (nodes : Table (Topic × WriterId) AckNodeRow AckNodeRow.id) :
    ({ core with db.sqAcks := acks, db.sqAckNodes := nodes } : Core).Coherent env :=
  ⟨h.heads, h.certs, h.floors, h.exposed, h.covered⟩

/-! Runs. -/

namespace Cluster

variable {env : WriterId → Env}

theorem run_snoc (as : List (Action env)) (a : Action env) :
    run (as ++ [a]) = (run as).perform a := by
  rw [run, List.foldl_append]
  rfl

theorem Legal.snoc {as : List (Action env)} (h : Legal (as ++ [a])) :
    Legal as ∧ (run as).Enabled a := by
  constructor
  · intro before b hb
    exact h before b (hb.trans (List.prefix_append as [a]))
  · exact h as a (List.prefix_refl _)

/-- What an action does to the core of a node: nothing, or the step of an input, or acknowledgments
are recorded. -/
theorem perform_core (c : Cluster) (a : Action env) (n : WriterId) :
    (c.perform a).core n = c.core n ∨
    (∃ i, (a = .work n i ∨ ∃ now, a = .sendHave n now ∧ i = .vectors now) ∧
      (c.perform a).core n = (Seqscribe.step (env n) (c.core n) i).core) ∨
    ∃ node vectors shared atMs proto fails,
      a = .recordAcks n node vectors shared atMs proto fails ∧
      (c.perform a).core n = (AckRecorder.record (env n) (vectors.filter fun v => shared v.topic)
        node atMs proto fails (c.acks n) (c.core n)).2 := by
  cases a with
  | work n' i =>
    by_cases hn : n = n'
    · subst hn
      exact .inr (.inl ⟨i, .inl rfl, Function.update_self ..⟩)
    · exact .inl (Function.update_of_ne hn ..)
  | sendHave n' now =>
    by_cases hn : n = n'
    · subst hn
      exact .inr (.inl ⟨.vectors now, .inr ⟨now, rfl, rfl⟩, Function.update_self ..⟩)
    · exact .inl (Function.update_of_ne hn ..)
  | recordAcks n' node vectors shared atMs proto fails =>
    by_cases hn : n = n'
    · subst hn
      exact .inr (.inr ⟨node, vectors, shared, atMs, proto, fails, rfl, Function.update_self ..⟩)
    · exact .inl (Function.update_of_ne hn ..)
  | _ => exact .inl rfl

theorem coherent_of_run (as : List (Action env)) (n : WriterId) :
    ((run as).core n).Coherent (env n) := by
  induction as using List.reverseRecOn with
  | nil => exact Core.coherent_init
  | append_singleton as a ih =>
    rw [run_snoc]
    rcases perform_core (run as) a n with hsame | ⟨i, -, hstep⟩ | hrecord
    · rw [hsame]
      exact ih
    · rw [hstep]
      exact step_coherent i ih
    · obtain ⟨node, vectors, shared, atMs, proto, fails, -, hrecord⟩ := hrecord
      obtain ⟨acks, nodes, hcore⟩ := AckRecorder.record_core (env n)
        (vectors.filter fun v => shared v.topic) node atMs proto fails ((run as).acks n)
        ((run as).core n)
      rw [hrecord, hcore]
      exact ih.with_acks acks nodes

/-- The author of a stream never moves its head back. -/
def KeepsOwn (as : List (Action env)) (k : StreamId) : Prop :=
  ∀ before i, before ++ [.work k.2 i] <+: as →
    i.Every (Raises (env k.2) k) ((run before).core k.2)

theorem KeepsOwn.snoc {as : List (Action env)} (h : KeepsOwn (as ++ [a]) k) :
    KeepsOwn as k ∧ ∀ i, a = .work k.2 i → i.Every (Raises (env k.2) k) ((run as).core k.2) := by
  constructor
  · intro before i hi
    exact h before i (hi.trans (List.prefix_append as [a]))
  · rintro i rfl
    exact h as i (List.prefix_refl _)

/-- Whatever there is of a stream, at other nodes and in messages, is within its author's head. -/
structure Spread (env : WriterId → Env) (c : Cluster) (k : StreamId) : Prop where
  away : ∀ n, n ≠ k.2 → (env n).isFullSync k.1 = true →
    ((c.core n).stream (env n) k).Away k (c.contigSeq env k.2 k)
  sound : (env k.2).isFullSync k.1 = true → ((c.core k.2).stream (env k.2) k).Sound k
  floor : (env k.2).isFullSync k.1 = true →
    ((c.core k.2).stream (env k.2) k).floorSeq ≤ c.contigSeq env k.2 k
  sent : ∀ msg ∈ c.sent, msg.Within k (c.contigSeq env k.2 k)

namespace Spread

theorem init : Cluster.init.Spread env k := by
  have hsound : ∀ n, (Core.init.stream (env n) k).Sound k := fun n => Core.sound_init k
  constructor
  · intro n hn hfull
    refine ⟨hsound n, ⟨Nat.zero_le _, fun e he => ?_⟩, Nat.zero_le _⟩
    cases he
  · exact fun hfull => hsound k.2
  · exact fun hfull => Nat.zero_le _
  · intro msg hmsg
    cases hmsg

/-- What a node may serve of the stream. -/
theorem serves {c : Cluster} (h : c.Spread env k) (hfull : (env n).isFullSync k.1 = true) :
    (c.core n).Serves (env n) k (c.contigSeq env k.2 k) := by
  by_cases hn : n = k.2
  · subst hn
    exact ⟨Nat.le_refl _, h.floor hfull⟩
  · exact ⟨(h.away n hn hfull).below.head, (h.away n hn hfull).floor⟩

/-- More is sent, within the author's head. -/
theorem send {c : Cluster} (h : c.Spread env k)
    (hmsgs : ∀ msg ∈ msgs, msg.Within k (c.contigSeq env k.2 k)) :
    Spread env { c with sent := c.sent ++ msgs } k := by
  refine ⟨h.away, h.sound, h.floor, fun msg hmsg => ?_⟩
  rcases List.mem_append.1 hmsg with hsent | hnew
  · exact h.sent msg hsent
  · exact hmsgs msg hnew

/-- One node goes on to another core. -/
theorem update {c c' : Cluster} (h : c.Spread env k)
    (hothers : ∀ n', n' ≠ n → c'.core n' = c.core n') (hsent : c'.sent = c.sent)
    (haway : n ≠ k.2 → (env n).isFullSync k.1 = true →
      ((c'.core n).stream (env n) k).Away k (c.contigSeq env k.2 k))
    (hhome : n = k.2 → c.contigSeq env k.2 k ≤ c'.contigSeq env k.2 k ∧
      ((env k.2).isFullSync k.1 = true → ((c'.core k.2).stream (env k.2) k).Sound k ∧
        ((c'.core k.2).stream (env k.2) k).floorSeq ≤ c'.contigSeq env k.2 k)) :
    c'.Spread env k := by
  have hle : c.contigSeq env k.2 k ≤ c'.contigSeq env k.2 k := by
    by_cases hn : n = k.2
    · exact (hhome hn).1
    · rw [contigSeq, contigSeq, hothers k.2 (Ne.symm hn)]
  constructor
  · intro n' hk hfull
    by_cases hn' : n' = n
    · subst hn'
      exact (haway hk hfull).mono hle
    · rw [hothers n' hn']
      exact (h.away n' hk hfull).mono hle
  · intro hfull
    by_cases hn : n = k.2
    · exact ((hhome hn).2 hfull).1
    · rw [hothers k.2 (Ne.symm hn)]
      exact h.sound hfull
  · intro hfull
    by_cases hn : n = k.2
    · exact ((hhome hn).2 hfull).2
    · rw [contigSeq, hothers k.2 (Ne.symm hn)]
      exact h.floor hfull
  · intro msg hmsg
    rw [hsent] at hmsg
    exact (h.sent msg hmsg).mono hle

/-- One node takes an input. -/
theorem step {c c' : Cluster} (hown : (env n).writerId = n) (hcoh : (c.core n).Coherent (env n))
    (h : c.Spread env k) (i : Input (env n))
    (hself : c'.core n = (step (env n) (c.core n) i).core)
    (hothers : ∀ n', n' ≠ n → c'.core n' = c.core n') (hsent : c'.sent = c.sent)
    (harrived : ∀ batch fault, i = .flush batch fault → ∀ q ∈ batch, q.2.Arrived c.sent)
    (hraises : n = k.2 → i.Every (Raises (env n) k) (c.core n)) : c'.Spread env k := by
  apply h.update hothers hsent
  · intro hn hfull
    rw [hself]
    apply step_away i hcoh hfull (M := c.contigSeq env k.2 k)
    · rw [hown]
      exact Ne.symm hn
    · intro batch fault hi q hq
      exact (harrived batch fault hi q hq).within h.sent hfull
    · exact h.away n hn hfull
  · rintro rfl
    have hraises := hraises rfl
    constructor
    · rw [contigSeq, contigSeq, hself]
      exact step_raises i hcoh hraises (Nat.le_refl _)
    · intro hfull
      rw [contigSeq, hself]
      exact ⟨(step_sound i hcoh hfull (h.sound hfull)).2,
        step_floor i hcoh hfull hraises (h.sound hfull) (h.floor hfull)⟩

/-- Every enabled action keeps a stream within its author's head, if the author keeps its own. -/
theorem perform {c : Cluster} (hown : ∀ n, (env n).writerId = n)
    (hcoh : ∀ n, (c.core n).Coherent (env n)) (h : c.Spread env k) (a : Action env) (henabled : c.Enabled a)
    (hraises : ∀ i, a = .work k.2 i → i.Every (Raises (env k.2) k) (c.core k.2)) :
    (c.perform a).Spread env k := by
  cases a with
  | work n i =>
    have hself : (c.perform (.work n i)).core n = (Seqscribe.step (env n) (c.core n) i).core :=
      Function.update_self ..
    apply h.step (hown n) (hcoh n) i hself (fun n' hn' => Function.update_of_ne hn' ..)
    · rfl
    · rintro batch fault rfl
      exact henabled
    · rintro rfl
      exact hraises i rfl
  | sendHave n now =>
    have hstep : Spread env { c with
        core := Function.update c.core n (Seqscribe.step (env n) (c.core n) (.vectors now)).core } k :=
      h.step (hown n) (hcoh n) (.vectors now) (Function.update_self ..)
        (fun n' hn' => Function.update_of_ne hn' ..) rfl (fun _ _ hi => by cases hi) fun _ => trivial
    apply hstep.send
    intro msg hmsg
    rw [Option.mem_toList, Option.map_eq_some_iff] at hmsg
    obtain ⟨vectors, -, rfl⟩ := hmsg
    trivial
  | tellVectors n vectors =>
    apply h.send
    intro msg hmsg
    cases List.mem_singleton.1 hmsg
    trivial
  | recordAcks n node vectors shared atMs proto fails =>
    obtain ⟨acks, nodes, hcore⟩ := AckRecorder.record_core (env n)
      (vectors.filter fun v => shared v.topic) node atMs proto fails (c.acks n) (c.core n)
    have hself : (c.perform (.recordAcks n node vectors shared atMs proto fails : Action env)).core n =
        { c.core n with db.sqAcks := acks, db.sqAckNodes := nodes } :=
      (Function.update_self ..).trans hcore
    apply h.update fun n' hn' => Function.update_of_ne hn' ..
    · rfl
    · intro hn hfull
      rw [hself]
      exact h.away n hn hfull
    · rintro rfl
      rw [contigSeq, contigSeq, hself]
      exact ⟨Nat.le_refl _, fun hfull => ⟨h.sound hfull, h.floor hfull⟩⟩
  | forgetAcks n topic node =>
    exact ⟨h.away, h.sound, h.floor, h.sent⟩
  | serveWant n snapshotHub cost proto budget m =>
    apply h.send
    apply Core.Serves.wantAnswer
    rintro rfl
    exact h.serves henabled
  | pushEntries n cost topic writer budget known =>
    apply h.send
    intro msg hmsg
    rw [Option.mem_toList, Option.map_eq_some_iff] at hmsg
    obtain ⟨m, hm, rfl⟩ := hmsg
    apply Core.Serves.pushEntries _ hm
    rintro rfl
    exact h.serves henabled

end Spread

/-- In every run in which the author of a stream keeps its own, the stream spreads within its head. -/
theorem spread_of_run (hown : ∀ n, (env n).writerId = n) {as : List (Action env)} (hlegal : Legal as)
    (hkeeps : KeepsOwn as k) : (run as).Spread env k := by
  induction as using List.reverseRecOn with
  | nil => exact .init
  | append_singleton as a ih =>
    obtain ⟨hlegal, henabled⟩ := hlegal.snoc
    obtain ⟨hkeeps, hraises⟩ := hkeeps.snoc
    rw [run_snoc]
    exact (ih hlegal hkeeps).perform hown (coherent_of_run as) a henabled hraises

end Cluster

end Seqscribe
