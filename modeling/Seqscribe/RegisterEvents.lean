import Seqscribe.RegisterRuns

namespace Seqscribe
set_option autoImplicit true

open Replay

/-! Runs of a register topic: commits, passes and their awaits, certificates, archive passes and
quarantines, in any order. -/

namespace Db

/-- Rows that were quarantined, in a log that otherwise stays as it was. -/
theorem Numbered.deleteLogRows {db : Db} (hn : db.Numbered) (p : LogRow → Bool) :
    (db.deleteLogRows p).Numbered :=
  ⟨hn.sorted.sublist List.filter_sublist, fun r hr => hn.bounded r (List.mem_of_mem_filter hr)⟩

theorem Disjoint.deleteLogRows {db : Db} (hd : db.Disjoint) (p : LogRow → Bool) :
    (db.deleteLogRows p).Disjoint := fun r hr => hd r (List.mem_of_mem_filter hr)

theorem mem_deleteLogRows {db : Db} {p : LogRow → Bool} :
    r ∈ (db.deleteLogRows p).sqLog.rows ↔ r ∈ db.sqLog.rows ∧ p r = false := by
  unfold deleteLogRows Table.filter
  simp [List.mem_filter]

theorem known_deleteLogRows {db : Db} {p : LogRow → Bool}
    (h : (db.deleteLogRows p).Known topic e) : db.Known topic e := by
  rcases h with ha | ⟨ht, r, hr, rfl⟩
  · exact .inl ha
  · exact .inr ⟨ht, r, (mem_deleteLogRows.1 hr).1, rfl⟩

theorem knownTo_deleteLogRows {db : Db} {p : LogRow → Bool}
    (h : (db.deleteLogRows p).KnownTo topic n e) : db.KnownTo topic n e := by
  rcases h with ha | ⟨ht, r, hr, rfl, hle⟩
  · exact .inl ha
  · exact .inr ⟨ht, r, (mem_deleteLogRows.1 hr).1, rfl, hle⟩

/-- What is not removed stays. -/
theorem known_deleteLogRows_of {db : Db} {p : LogRow → Bool} (h : db.Known topic e)
    (hkeep : ∀ r ∈ db.sqLog.rows, r.entry = e → p r = false) :
    (db.deleteLogRows p).Known topic e := by
  rcases h with ha | ⟨ht, r, hr, rfl⟩
  · exact .inl ha
  · exact .inr ⟨ht, r, mem_deleteLogRows.2 ⟨hr, hkeep r hr rfl⟩, rfl⟩

end Db

def Pass.isIdle : Pass → Bool
  | .idle => true
  | .forward _ _ | .refold _ => false

/-- The rest of the batch that a pass is folding. -/
def Pass.todo : Pass → List LogEntry
  | .idle => []
  | .forward todo _ | .refold todo => todo

namespace RegisterHub

variable (d : RegisterDeps) (topic : Topic)

inductive Event where
  | commit (es : List LogEntry)
  | start
  /-- The promise that the pass awaits settles. -/
  | resume
  | rebaseAtCut (ord : Order)
  /-- `archiveNow`: covered rows that the consumers have passed leave the log. -/
  | archive (p : LogRow → Bool) (atMs : Nat)
  /-- Rows leave the log for the quarantine. -/
  | quarantine (p : LogRow → Bool)

def step (h : RegisterHub) : Event → RegisterHub
  | .commit es => { h with db := h.db.commitNew es }
  | .start => start topic h
  | .resume =>
    match resume d topic h with
    | .ok h | .error h => h
  | .rebaseAtCut ord => rebaseAtCut d topic h ord
  | .archive p atMs => { h with db := h.db.archiveRows topic p atMs }
  | .quarantine p => { h with db := h.db.deleteLogRows p }

/-- A snapshot gives the state back. -/
def Carried (key : Key) (ks : KeyState) : Prop := restoredKey key ks = ks

/-- The base that a read at an order starts from. -/
def baseAt (h : RegisterHub) (ord : Order) : Option RegisterBase :=
  h.base.filter fun base => decide (base.ord ≤ ord)

/-- When a step is safe. -/
def Ready (h : RegisterHub) : Event → Prop
  -- payloads of the right types, causal pointers that go backward, and nothing new at or below
  -- the base or the batch of a running refold
  | .commit es => (∀ e ∈ es, e.topic = topic → PayloadOk d e) ∧
      (h.db.commitNew es).Backward topic ∧
      ∀ e ∈ es, e.topic = topic → h.db.Known topic e ∨
        (∀ base ∈ h.base, base.ord < orderOf e) ∧
          ∀ todo, h.pass = .refold todo → ∀ x ∈ todo, orderOf x < orderOf e
  | .start => True
  -- the causal chain that the fold walks has not left the log
  | .resume => WalksHot topic h
  -- so have the chains below the cut, whose keys have a winner and no request
  | .rebaseAtCut ord =>
      (∀ e, h.db.Holds topic e → orderOf e ≤ ord →
        ∀ a, isAncestor (h.db.lookup topic) a e = isAncestor (h.db.lookupAll topic) a e) ∧
      (∀ e, h.db.Archived topic e → Upto ((h.baseAt ord).map RegisterBase.ord) e) ∧
      ∀ key, Carried key ((stateAt d topic h ord).state key)
  -- only what the base and the pass have covered leaves
  | .archive p _ => ∀ r ∈ h.db.sqLog.rows, r.entry.topic = topic → p r = true →
      r.rowid ≤ h.lastRowid ∧ Upto (h.base.map RegisterBase.ord) r.entry ∧ Upto h.ord r.entry
  -- only what nothing has folded or read yet
  | .quarantine p => ∀ r ∈ h.db.sqLog.rows, r.entry.topic = topic → p r = true →
      ¬ Upto h.ord r.entry ∧ ¬ Upto (h.base.map RegisterBase.ord) r.entry ∧
        ∀ todo, (h.pass = .refold todo ∨ ∃ last, h.pass = .forward todo last) → r.entry ∉ todo

/-- Every step of the run meets a condition when it happens. -/
def RunMeets (P : RegisterHub → Event → Prop) : RegisterHub → List Event → Prop
  | _, [] => True
  | h, ev :: evs => P h ev ∧ RunMeets P (step d topic h ev) evs

def run (h : RegisterHub) (evs : List Event) : RegisterHub := evs.foldl (step d topic) h

/-- No pass is running and none is due. -/
def Quiescent (h : RegisterHub) : Prop := h.pass.isIdle = true ∧ h.newRows topic = []

instance (h : RegisterHub) : Decidable (h.Quiescent topic) :=
  inferInstanceAs (Decidable (_ ∧ _))

structure Safe (h : RegisterHub) : Prop where
  ground : Ground d topic h
  core : Core d topic h

section
variable {d : RegisterDeps} {topic : Topic}

theorem Safe.empty : Safe d topic .empty := by
  have hno : ∀ e, ¬ Db.empty.Known topic e := by
    rintro e (⟨-, a, ha, -⟩ | ⟨-, r, hr, -⟩)
    · cases ha
    · cases hr
  constructor
  · refine ⟨.empty, ?_, fun e _ he => absurd he (hno e), fun e he => absurd he (hno e), ?_,
      fun e he => absurd (.inl he) (hno e)⟩
    · intro r hr
      cases hr
    · intro base hb
      cases hb
  · exact .idle rfl (le_refl _) (fun e he => absurd he.known (hno e)) (.inr .init)

/-- The batches of a read add up to everything after its base, up to the order. -/
theorem stateAt_eq (h : RegisterHub) (ord : Order) :
    stateAt d topic h ord =
      ((after orderOf ((h.baseAt ord).map RegisterBase.ord) (h.db.topicEntries topic)).filter
        fun e => decide (orderOf e ≤ ord)).foldl (foldKeys d (h.db.lookup topic))
        (((h.baseAt ord).map RegisterBase.keys).getD .empty) := by
  have hfuel : (after orderOf ((h.baseAt ord).map RegisterBase.ord)
      (h.db.topicEntries topic)).length < h.db.sqLog.rows.length + 1 :=
    Nat.lt_succ_of_le ((List.length_filter_le _ _).trans (Db.length_topicEntries_le h.db topic))
  unfold stateAt
  exact ViewHub.stateAtLoop_eq hfuel

/-- The read at the cut is the fold of everything known up to it. -/
theorem stateAt_exact {h : RegisterHub} (hg : Ground d topic h) {ord : Order}
    (hhot : ∀ e, h.db.Holds topic e → orderOf e ≤ ord →
      ∀ a, isAncestor (h.db.lookup topic) a e = isAncestor (h.db.lookupAll topic) a e)
    (harch : ∀ e, h.db.Archived topic e → Upto ((h.baseAt ord).map RegisterBase.ord) e) :
    Exact d h.db topic (some ord) (stateAt d topic h ord) := by
  have hread : ∀ (cursor : Option Order) (keys : Keys), Exact d h.db topic cursor keys →
      (∀ o ∈ cursor, o ≤ ord) → (∀ e, h.db.Archived topic e → Upto cursor e) →
      Exact d h.db topic (some ord) (((after orderOf cursor (h.db.topicEntries topic)).filter
        fun e => decide (orderOf e ≤ ord)).foldl (foldKeys d (h.db.lookup topic)) keys) := by
    intro cursor keys hex hle ha
    have hmem : ∀ e, e ∈ (after orderOf cursor (h.db.topicEntries topic)).filter
        (fun e => decide (orderOf e ≤ ord)) ↔
        h.db.Holds topic e ∧ ¬ Upto cursor e ∧ orderOf e ≤ ord := by
      intro e
      rw [List.mem_filter, mem_after, Db.mem_topicEntries, not_upto, and_assoc, decide_eq_true_eq]
    have hsorted : ((after orderOf cursor (h.db.topicEntries topic)).filter
        fun e => decide (orderOf e ≤ ord)).Pairwise fun a b => orderOf a < orderOf b :=
      ((Db.sorted_topicEntries h.db topic).filter _).filter _
    have hfold := hex.foldTo hsorted hle
      (fun y hy => ⟨.inr ((hmem y).1 hy).1, ((hmem y).1 hy).2⟩) ?_
    · rw [← foldl_foldKeys_congr fun e he => hhot e ((hmem e).1 he).1 ((hmem e).1 he).2.2] at hfold
      exact hfold
    · intro x hx hxo
      by_cases hu : Upto cursor x
      · exact .inl hu
      · rcases hx with hxa | hh
        · exact .inl (ha x hxa)
        · exact .inr ((hmem x).2 ⟨hh, hu, hxo⟩)
  rw [stateAt_eq]
  unfold baseAt at harch ⊢
  cases hb : h.base.filter fun base => decide (base.ord ≤ ord) with
  | none =>
    rw [hb] at harch
    exact hread none .empty Exact.init (fun o ho => by cases ho) harch
  | some base =>
    rw [hb] at harch
    obtain ⟨hmem, hle⟩ := Option.filter_eq_some_iff.1 hb
    exact hread (some base.ord) base.keys (hg.based base hmem)
      (by rintro o ⟨⟩; simpa using hle) harch

theorem Safe.start {h : RegisterHub} (hs : Safe d topic h) :
    Safe d topic (RegisterHub.start topic h) := by
  have hcore := start_core hs.ground hs.core
  exact ⟨hs.ground.of_eq (start_db h) (start_base h), hcore⟩

theorem Safe.resume {h : RegisterHub} (hs : Safe d topic h) (hready : WalksHot topic h) :
    Safe d topic (step d topic h .resume) := by
  obtain ⟨h', hr, hdb, hbase, hcore⟩ := resume_core hs.ground hs.core hready
  have hstep : step d topic h .resume = h' := by
    rw [step, hr]
  rw [hstep]
  exact ⟨hs.ground.of_eq hdb hbase, hcore⟩

theorem Safe.rebaseAtCut {h : RegisterHub} (hs : Safe d topic h) {ord : Order}
    (hready : Ready d topic h (.rebaseAtCut ord)) :
    Safe d topic (RegisterHub.rebaseAtCut d topic h ord) := by
  obtain ⟨hhot, harch, hcarried⟩ := hready
  have hexact := stateAt_exact hs.ground hhot harch
  refine ⟨⟨hs.ground.numbered, hs.ground.disjoint, hs.ground.backward, hs.ground.payloads, ?_, ?_⟩,
    ?_⟩
  · rintro base ⟨⟩
    obtain ⟨X, hX, hk⟩ := hexact
    refine ⟨X, hX, fun key => ?_⟩
    rw [state_restored, hcarried key]
    exact hk key
  · intro e he
    obtain ⟨o, ho, hle⟩ := harch e he
    refine ⟨ord, rfl, hle.trans ?_⟩
    obtain ⟨base, hb, rfl⟩ := Option.map_eq_some_iff.1 ho
    simpa using (Option.filter_eq_some_iff.1 hb).2
  · cases hs.core with
    | idle hpass hwater hseen hkeys => exact .idle hpass hwater hseen hkeys
    | forward hpass hlow hwater htodo hseen hkeys =>
      exact .forward hpass hlow hwater ⟨htodo.ne, htodo.sorted, htodo.holds, htodo.fresh⟩ hseen
        hkeys
    | refold hpass htodo harch hrest hkeys =>
      exact .refold hpass ⟨htodo.ne, htodo.sorted, htodo.holds, htodo.fresh⟩ harch hrest hkeys

/-- A commit keeps the key states exact, unless it puts an entry below the topic's position. -/
theorem commit_keys {h : RegisterHub} (hg : Ground d topic h) {db : Db}
    (hc : Db.Commits h.db db new) (hd : db.Disjoint) (hb : db.Backward topic)
    (hwater : n ≤ h.db.logSequence)
    (hkeys : Pending topic h n ∨ Exact d h.db topic h.ord h.keys) :
    Pending topic { h with db := db } n ∨ Exact d db topic h.ord h.keys := by
  rcases hkeys with ⟨r, hr, ht, hlt, hu⟩ | hex
  · exact .inl ⟨r, hc.kept r hr, ht, hlt, hu⟩
  by_cases hold : ∀ e, db.Known topic e → Upto h.ord e → h.db.Known topic e
  · right
    exact hex.congr hg.disjoint hd hg.backward hb fun o ho e hle =>
      ⟨hc.known, fun he => hold e he ⟨o, ho, hle⟩⟩
  push Not at hold
  obtain ⟨e, he, hu, hnot⟩ := hold
  rcases he with ha | ⟨ht, r, hr, rfl⟩
  · exact absurd (.inl (hc.archived.1 ha)) hnot
  rcases hc.added r hr with hin | ⟨hlt, -⟩
  · exact absurd (.inr ⟨ht, r, hin, rfl⟩) hnot
  · exact .inl ⟨r, hr, ht, lt_of_le_of_lt hwater hlt, hu⟩

theorem Safe.commit {h : RegisterHub} (hs : Safe d topic h) {es : List LogEntry}
    (hready : Ready d topic h (.commit es)) :
    Safe d topic { h with db := h.db.commitNew es } := by
  obtain ⟨hpayloads, hback, hfresh⟩ := hready
  have hc := h.db.commit_commits (es.filter fun e => (h.db.sqArchive.get e.id).isNone)
  have hd := hs.ground.disjoint.commitNew es
  have hnew : ∀ e, (h.db.commitNew es).Known topic e → h.db.Known topic e ∨
      e ∈ es ∧ e.topic = topic ∧ (∀ base ∈ h.base, base.ord < orderOf e) ∧
        ∀ todo, h.pass = .refold todo → ∀ x ∈ todo, orderOf x < orderOf e := by
    intro e he
    rcases hc.known_inv he with hold | ⟨ht, hes⟩
    · exact .inl hold
    · have hin := List.mem_of_mem_filter hes
      rcases hfresh e hin ht with hold | ⟨hbase, htodo⟩
      · exact .inl hold
      · exact .inr ⟨hin, ht, hbase, htodo⟩
  constructor
  · refine ⟨hc.numbered hs.ground.numbered, hd, hback, ?_, ?_, fun e he =>
      hs.ground.archived e (hc.archived.1 he)⟩
    · intro e he
      rcases hnew e he with hold | ⟨hin, ht, -⟩
      · exact hs.ground.payloads e hold
      · exact hpayloads e hin ht
    · intro base hb
      apply (hs.ground.based base hb).congr hs.ground.disjoint hd hs.ground.backward hback
      rintro o ⟨⟩ e hle
      refine ⟨hc.known, fun he => (hnew e he).resolve_right ?_⟩
      rintro ⟨-, -, habove, -⟩
      exact absurd (habove base hb) (not_lt.2 hle)
  · cases hs.core with
    | idle hpass hwater hseen hkeys =>
      exact .idle hpass (hwater.trans hc.sequence) (fun e he => hseen e (hc.knownTo_inv hwater he))
        (commit_keys hs.ground hc hd hback hwater hkeys)
    | forward hpass hlow hwater htodo hseen hkeys =>
      exact .forward hpass hlow (hwater.trans hc.sequence)
        ⟨htodo.ne, htodo.sorted, fun e he => hc.known (htodo.holds e he), htodo.fresh⟩
        (fun e he => hseen e (hc.knownTo_inv hwater he))
        (commit_keys hs.ground hc hd hback hwater hkeys)
    | @refold todo _ hpass htodo harch hrest hkeys =>
      obtain ⟨x, todo', rfl⟩ := List.exists_cons_of_ne_nil htodo.ne
      refine .refold hpass
        ⟨htodo.ne, htodo.sorted, fun e he => hc.known (htodo.holds e he), htodo.fresh⟩
        (fun e he => harch e (hc.archived.1 he)) ?_ ?_
      · intro e he
        rcases hnew e he with hold | ⟨-, -, -, habove⟩
        · exact hrest e hold
        · exact .inr (.inr (habove _ hpass))
      · apply hkeys.congr hs.ground.disjoint hd hs.ground.backward hback
        intro o ho e hle
        refine ⟨hc.known, fun he => (hnew e he).resolve_right ?_⟩
        rintro ⟨-, -, -, habove⟩
        have hlt := habove _ hpass x (by simp)
        exact absurd (htodo.upto ⟨o, ho, hle⟩) (not_le.2 hlt)

theorem Safe.archive {h : RegisterHub} (hs : Safe d topic h)
    (hready : Ready d topic h (.archive p atMs)) :
    Safe d topic { h with db := h.db.archiveRows topic p atMs } := by
  have ha := Db.archiveRows_archives hs.ground.disjoint hs.ground.numbered topic p atMs
  have hmoved : ∀ e, (h.db.archiveRows topic p atMs).Archived topic e → h.db.Archived topic e ∨
      ∃ r ∈ h.db.sqLog.rows, r.entry = e ∧ r.entry.topic = topic ∧ p r = true := by
    rintro e ⟨ht, a, hmem, rfl⟩
    rcases ha.archived a hmem with hold | ⟨r, hr, ⟨hrt, hp⟩, he⟩
    · exact .inl ⟨ht, a, hold, rfl⟩
    · exact .inr ⟨r, hr, he.symm, hrt, hp⟩
  have hstays : ∀ r ∈ h.db.sqLog.rows, h.lastRowid < r.rowid → r.entry.topic = topic →
      r ∈ (h.db.archiveRows topic p atMs).sqLog.rows := by
    intro r hr hlt ht
    rcases ha.held r hr with hin | ⟨a, hmem, he⟩
    · exact hin
    exfalso
    rcases ha.archived a hmem with hold | ⟨r', hr', ⟨ht', hp⟩, he'⟩
    · have hnone := hs.ground.disjoint r hr
      rw [← he, Table.get_of_mem hold] at hnone
      cases hnone
    · have heq := List.inj_on_of_nodup_map h.db.sqLog.nodup hr' hr (by rw [← he', he])
      have hle := (hready r' hr' ht' hp).1
      rw [heq] at hle
      omega
  have hback : (h.db.archiveRows topic p atMs).Backward topic := fun e e' he he' hcausal =>
    hs.ground.backward e e' (ha.known.1 he) (ha.known.1 he') hcausal
  have hexact : ∀ cursor keys, Exact d h.db topic cursor keys →
      Exact d (h.db.archiveRows topic p atMs) topic cursor keys := fun cursor keys hex =>
    hex.congr hs.ground.disjoint ha.disjoint hs.ground.backward hback
      fun o _ e _ => ha.known.symm
  have hto : ∀ n e, (h.db.archiveRows topic p atMs).KnownTo topic n e →
      h.db.KnownTo topic n e ∨ Upto h.ord e := by
    rintro n e (hat | ⟨ht, r, hr, rfl, hle⟩)
    · rcases hmoved e hat with hold | ⟨r, hr, rfl, hrt, hp⟩
      · exact .inl (.inl hold)
      · exact .inr (hready r hr hrt hp).2.2
    · exact .inl (.inr ⟨ht, r, ha.sublist.subset hr, rfl, hle⟩)
  have hkeys' : ∀ n, h.lastRowid ≤ n → Pending topic h n ∨ Exact d h.db topic h.ord h.keys →
      Pending topic { h with db := h.db.archiveRows topic p atMs } n ∨
        Exact d (h.db.archiveRows topic p atMs) topic h.ord h.keys := by
    rintro n hn (⟨r, hr, ht, hlt, hu⟩ | hex)
    · exact .inl ⟨r, hstays r hr (lt_of_le_of_lt hn hlt) ht, ht, hlt, hu⟩
    · exact .inr (hexact _ _ hex)
  have hwater' : h.db.logSequence ≤ (h.db.archiveRows topic p atMs).logSequence :=
    ha.sequence.ge
  constructor
  · refine ⟨ha.numbered hs.ground.numbered, ha.disjoint, hback, fun e he =>
      hs.ground.payloads e (ha.known.1 he), fun base hb => hexact _ _ (hs.ground.based base hb), ?_⟩
    intro e he
    rcases hmoved e he with hold | ⟨r, hr, rfl, hrt, hp⟩
    · exact hs.ground.archived e hold
    · exact (hready r hr hrt hp).2.1
  · cases hs.core with
    | idle hpass hwater hseen hkeys =>
      exact .idle hpass (hwater.trans hwater') (fun e he => (hto _ e he).elim (hseen e) id)
        (hkeys' _ (le_refl _) hkeys)
    | forward hpass hlow hwater htodo hseen hkeys =>
      exact .forward hpass hlow (hwater.trans hwater')
        ⟨htodo.ne, htodo.sorted, fun e he => ha.known.2 (htodo.holds e he), htodo.fresh⟩
        (fun e he => (hto _ e he).elim (hseen e) .inl) (hkeys' _ hlow hkeys)
    | refold hpass htodo harch hrest hkeys =>
      refine .refold hpass
        ⟨htodo.ne, htodo.sorted, fun e he => ha.known.2 (htodo.holds e he), htodo.fresh⟩ ?_
        (fun e he => hrest e (ha.known.1 he)) (hexact _ _ hkeys)
      intro e he
      rcases hmoved e he with hold | ⟨r, hr, rfl, hrt, hp⟩
      · exact harch e hold
      · exact (hready r hr hrt hp).2.2

theorem Safe.quarantine {h : RegisterHub} (hs : Safe d topic h)
    (hready : Ready d topic h (.quarantine p)) :
    Safe d topic { h with db := h.db.deleteLogRows p } := by
  have hback : (h.db.deleteLogRows p).Backward topic := fun e e' he he' hcausal =>
    hs.ground.backward e e' (Db.known_deleteLogRows he) (Db.known_deleteLogRows he') hcausal
  have hd := hs.ground.disjoint.deleteLogRows p
  have hkept : ∀ e, h.db.Known topic e →
      (∀ r ∈ h.db.sqLog.rows, r.entry = e → r.entry.topic = topic → p r = false) →
      (h.db.deleteLogRows p).Known topic e := by
    intro e he hkeep
    have ht : e.topic = topic := by
      rcases he with ⟨ht, -⟩ | ⟨ht, -⟩ <;> exact ht
    exact Db.known_deleteLogRows_of he fun r hr hre => hkeep r hr hre (by rw [hre]; exact ht)
  have hexact : ∀ cursor keys, (∀ r ∈ h.db.sqLog.rows, r.entry.topic = topic → p r = true →
      ¬ Upto cursor r.entry) → Exact d h.db topic cursor keys →
      Exact d (h.db.deleteLogRows p) topic cursor keys := by
    intro cursor keys hnot hex
    apply hex.congr hs.ground.disjoint hd hs.ground.backward hback
    intro o ho e hle
    refine ⟨fun he => hkept e he fun r hr hre ht => ?_, Db.known_deleteLogRows⟩
    by_contra hp
    exact hnot r hr ht (by simpa using hp) (by rw [hre]; exact ⟨o, ho, hle⟩)
  have hkeys' : ∀ n, Pending topic h n ∨ Exact d h.db topic h.ord h.keys →
      Pending topic { h with db := h.db.deleteLogRows p } n ∨
        Exact d (h.db.deleteLogRows p) topic h.ord h.keys := by
    rintro n (⟨r, hr, ht, hlt, hu⟩ | hex)
    · refine .inl ⟨r, Db.mem_deleteLogRows.2 ⟨hr, ?_⟩, ht, hlt, hu⟩
      by_contra hp
      exact (hready r hr ht (by simpa using hp)).1 hu
    · exact .inr (hexact _ _ (fun r hr ht hp => (hready r hr ht hp).1) hex)
  have htodo' : ∀ todo, (h.pass = .refold todo ∨ ∃ last, h.pass = .forward todo last) →
      Todo topic h todo → Todo topic { h with db := h.db.deleteLogRows p } todo := by
    intro todo hpass htodo
    refine ⟨htodo.ne, htodo.sorted, fun e he => hkept e (htodo.holds e he) ?_, htodo.fresh⟩
    intro r hr hre ht
    by_contra hp
    exact (hready r hr ht (by simpa using hp)).2.2 todo hpass (by rw [hre]; exact he)
  constructor
  · refine ⟨hs.ground.numbered.deleteLogRows p, hd, hback, fun e he =>
      hs.ground.payloads e (Db.known_deleteLogRows he), ?_, hs.ground.archived⟩
    intro base hb
    apply hexact _ _ _ (hs.ground.based base hb)
    intro r hr ht hp
    have hnot := (hready r hr ht hp).2.1
    rw [Option.mem_def.1 hb] at hnot
    exact hnot
  · cases hs.core with
    | idle hpass hwater hseen hkeys =>
      exact .idle hpass hwater (fun e he => hseen e (Db.knownTo_deleteLogRows he)) (hkeys' _ hkeys)
    | forward hpass hlow hwater htodo hseen hkeys =>
      exact .forward hpass hlow hwater (htodo' _ (.inr ⟨_, hpass⟩) htodo)
        (fun e he => hseen e (Db.knownTo_deleteLogRows he)) (hkeys' _ hkeys)
    | refold hpass htodo harch hrest hkeys =>
      exact .refold hpass (htodo' _ (.inl hpass) htodo) harch
        (fun e he => hrest e (Db.known_deleteLogRows he))
        (hexact _ _ (fun r hr ht hp => (hready r hr ht hp).1) hkeys)

theorem Safe.step {h : RegisterHub} (hs : Safe d topic h) {ev : Event}
    (hready : Ready d topic h ev) : Safe d topic (step d topic h ev) := by
  cases ev with
  | commit es => exact hs.commit hready
  | start => exact hs.start
  | resume => exact hs.resume hready
  | rebaseAtCut ord => exact hs.rebaseAtCut hready
  | archive p atMs => exact hs.archive hready
  | quarantine p => exact hs.quarantine hready

theorem RunMeets.imp {P Q : RegisterHub → Event → Prop} (hPQ : ∀ h ev, P h ev → Q h ev)
    {evs : List Event} (hrun : RunMeets d topic P h evs) : RunMeets d topic Q h evs := by
  induction evs generalizing h with
  | nil => trivial
  | cons ev evs ih => exact ⟨hPQ _ _ hrun.1, ih hrun.2⟩

theorem Safe.run {h : RegisterHub} (hs : Safe d topic h) {evs : List Event}
    (hready : RunMeets d topic (Ready d topic) h evs) : Safe d topic (run d topic h evs) := by
  induction evs generalizing h with
  | nil => exact hs
  | cons ev evs ih => exact ih (hs.step hready.1) hready.2

/-- At quiescence the key states fold everything known. -/
theorem Safe.quiescent {h : RegisterHub} (hs : Safe d topic h) (hq : h.Quiescent topic)
    (key : Key) :
    h.keys.state key = (foldAll d (h.db.lookupAll topic) (h.db.unionEntries topic)).state key := by
  obtain ⟨hidle, hnew⟩ := hq
  have hnone : ∀ r ∈ h.db.sqLog.rows, r.entry.topic = topic → ¬ h.lastRowid < r.rowid := by
    intro r hr ht hlt
    have hmem : r ∈ h.db.sqLog.selectBy
        (fun r => decide (r.entry.topic = topic ∧ h.lastRowid < r.rowid)) (·.rowid) :=
      Table.mem_selectBy.2 ⟨hr, by simpa using ⟨ht, hlt⟩⟩
    have hnil : h.db.sqLog.selectBy
        (fun r => decide (r.entry.topic = topic ∧ h.lastRowid < r.rowid)) (·.rowid) = [] := by
      simpa [newRows, Db.entriesForTopicFromRowid, FOLD_BATCH] using hnew
    rw [hnil] at hmem
    cases hmem
  cases hs.core with
  | forward hpass => rw [hpass] at hidle; cases hidle
  | refold hpass => rw [hpass] at hidle; cases hidle
  | idle hpass hwater hseen hkeys =>
    rcases hkeys with ⟨r, hr, ht, hlt, -⟩ | ⟨X, hX, hk⟩
    · exact absurd hlt (hnone r hr ht)
    rw [hk key]
    congr 2
    refine Covers.eq ?_ (hs.ground.disjoint.covers topic)
    apply hX.mono _ fun e he => he.1
    intro e he
    refine ⟨he, hseen e ?_⟩
    rcases he with ha | ⟨ht, r, hr, rfl⟩
    · exact .inl ha
    · exact .inr ⟨ht, r, hr, rfl, not_lt.1 (hnone r hr ht)⟩

end

end RegisterHub

end Seqscribe
