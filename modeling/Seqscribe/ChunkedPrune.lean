import Seqscribe.AckedChunks

namespace Seqscribe
set_option autoImplicit true

/-! What two prunes of a store leave. -/

namespace Struck

variable {db : Db}

/-- Rows and floors are those of the rows that have gone. -/
theorem same (h : Struck T now db gone db₁) (h' : Struck T now db gone db₂) :
    db₁.sqLog.rows = db₂.sqLog.rows ∧ ∀ k, db₁.sqFloors.get k = db₂.sqFloors.get k := by
  refine ⟨h.log.trans h'.log.symm, fun k => ?_⟩
  obtain ⟨topic, w⟩ := k
  by_cases htopic : topic = T
  · rw [htopic, h.floors, h'.floors]
  · rw [h.others _ htopic, h'.others _ htopic]

theorem length (h : Struck T now db gone db') (hgone : ∀ g ∈ gone, g ∈ db.sqLog.rows)
    (hnodup : (gone.map fun r => r.entry.id).Nodup) :
    db'.sqLog.rows.length + gone.length = db.sqLog.rows.length := by
  have hperm : (db.sqLog.rows.filter fun r => !outside gone r).Perm gone := by
    rw [List.perm_ext_iff_of_nodup ((db.sqLog.nodup.of_map _).filter _) (hnodup.of_map _)]
    intro r
    rw [List.mem_filter, Bool.not_eq_true']
    constructor
    · exact fun hr => (Db.outside_eq_false_iff hgone hr.1).1 hr.2
    · exact fun hr => ⟨hgone r hr, (Db.outside_eq_false_iff hgone (hgone r hr)).2 hr⟩
  rw [h.log, ← hperm.length_eq]
  exact (List.length_eq_length_filter_add (outside gone)).symm

theorem floors_le (h : Struck T now db gone db') (k : StreamId) :
    ((db.sqFloors.get k).map (·.floor.seq)).getD 0 ≤
      ((db'.sqFloors.get k).map (·.floor.seq)).getD 0 := by
  obtain ⟨topic, w⟩ := k
  by_cases htopic : topic = T
  · rw [htopic]
    exact h.floorSeq_le w
  · rw [h.others _ htopic]

end Struck

/-! A call whose members the next call counts as well. -/

theorem exclusionAt_eq_none {db : Db} : db.exclusionAt T o now m = none ↔
    m ∉ o.excludeMembers ∧
      ¬ Silent o o.maxLagMs (db.sqAckNodes.get (T, m)) (db.newest T m) now := by
  rw [Db.exclusionAt, memberExclusion, silent_iff]
  split
  · next hin => exact iff_of_false (fun h => by cases h) fun h => h.1 hin
  · next hout =>
    split
    · next hlag => exact iff_of_false (fun h => by cases h) fun h => h.2 hlag
    · next hseen => exact iff_of_true rfl ⟨hout, hseen⟩

namespace Db

variable {db : Db} {o : AckedPruneOptions} {R : StreamId → Option RecoveryTarget}

theorem mem_memberNames_of_derived (ho : o.members = none) :
    m ∈ db.memberNames T o streams self ↔ ((db.sqAckNodes.get (T, m)).isSome ∨
      ∃ s ∈ streams, s.sealReason ≠ some .retired ∧ s.writer = m) ∧ m ≠ self := by
  have hrecorded : (∃ r ∈ db.sqAckNodes.rows.filter fun r => r.topic = T, r.node = m) ↔
      (db.sqAckNodes.get (T, m)).isSome := by
    constructor
    · rintro ⟨r, hr, rfl⟩
      obtain ⟨hin, htopic⟩ := List.mem_filter.1 hr
      have hget : db.sqAckNodes.get (T, r.node) = some r := by
        rw [← of_decide_eq_true htopic]
        exact Table.get_of_mem hin
      rw [hget]
      rfl
    · intro hsome
      obtain ⟨r, hr⟩ := Option.isSome_iff_exists.1 hsome
      obtain ⟨hin, hkey⟩ := Table.get_eq_some_iff.1 hr
      have htopic : r.topic = T := congrArg Prod.fst hkey
      exact ⟨r, List.mem_filter.2 ⟨hin, decide_eq_true htopic⟩, congrArg Prod.snd hkey⟩
  rw [memberNames, ho, List.mem_insertionSort, List.mem_filter, List.mem_dedup, decide_eq_true_iff,
    List.mem_append, List.mem_map, List.mem_map, hrecorded]
  apply and_congr_left'
  apply or_congr_right
  constructor
  · rintro ⟨s, hs, hw⟩
    obtain ⟨hin, hactive⟩ := List.mem_filter.1 hs
    exact ⟨s, hin, of_decide_eq_true hactive, hw⟩
  · rintro ⟨s, hin, hactive, hw⟩
    exact ⟨s, List.mem_filter.2 ⟨hin, decide_eq_true hactive⟩, hw⟩

/-- A member that is forgotten was not counted. -/
theorem not_included_of_forget (h : m ∈ (db.memberPlan T o now streams self).forget) :
    m ∉ (db.memberPlan T o now streams self).included := by
  intro hcounted
  obtain ⟨hkept, hnot⟩ := exclusionAt_eq_none.1 (mem_included.1 hcounted).2
  obtain ⟨-, -, hwhy⟩ := mem_forget.1 h
  rcases hwhy with hexcluded | hlong
  · have hnone := (mem_included.1 hcounted).2
    rw [exclusionAt, hexcluded] at hnone
    cases hnone
  · apply hnot
    apply Silent.shorter (silent_iff.2 (.inr hlong))
    exact Nat.le_mul_of_pos_right _ (by decide)

/-- A call leaves the cursors, and of the acknowledgements those of members it keeps. -/
theorem tables_pruneAcked (db : Db) (T : Topic) {o : AckedPruneOptions} (hreal : o.dryRun = false)
    (now : Nat) (R : StreamId → Option RecoveryTarget) (self : WriterId) (maxRows : Nat) :
    (db.pruneAcked T o now R self maxRows).1.sqCursors = db.sqCursors ∧
      (db.pruneAcked T o now R self maxRows).1.sqAcks = db.sqAcks.filter fun r =>
        !decide (r.topic = T ∧ r.node ∈ (db.memberPlan T o now (db.ackStreams T R) self).forget) := by
  obtain ⟨nodes, hnamed⟩ := db.nameMembers_eq T o now
    (db.memberNames T o (db.ackStreams T R) self)
  have hthin (included : List WriterId) : Thinner (db.nameMembers T o now
      (db.memberNames T o (db.ackStreams T R) self)) ((db.ackStreams T R).foldl
      (pruneStream T o now (db.sqAcks.rows.filter fun r => r.topic = T) included (db.cursorFloor T))
      (_, ⟨maxRows, 0, false, []⟩)).1 := thinner_pruneStreams _ _
  rw [hnamed] at hthin
  rw [pruneAcked, hnamed]
  dsimp only
  rw [hreal, if_neg Bool.false_ne_true, forgetMembers]
  exact ⟨(hthin _).cursors, by rw [(hthin _).acks]⟩

/-- What a member that is kept acknowledged is the same after the call. -/
theorem ackedAt_kept (forget : List WriterId) (hkept : m ∉ forget) (s : StreamView) :
    ackedAt ((db.sqAcks.filter fun r => !decide (r.topic = T ∧ r.node ∈ forget)).rows.filter fun r =>
      r.topic = T) s m = ackedAt (db.sqAcks.rows.filter fun r => r.topic = T) s m := by
  rw [ackedAt, ackedAt, Table.rows_filter, List.filter_filter, List.find?_filter, List.find?_filter]
  congr 3
  funext r
  by_cases hm : r.node = m
  · simp [hm, hkept]
  · simp [hm]

/-- The newest entry of a writer stays the newest, or is one of the rows that go. -/
theorem newest_pruned (hgone : ∀ g ∈ gone, g ∈ db.sqLog.rows) (h : Struck T now db gone db')
    (hwriters : db'.sqWriters = db.sqWriters) : db'.newest T m = db.newest T m ∨
      ∃ r ∈ gone, ∃ head, db.sqWriters.get (T, m) = some head ∧ r.entry.id = (T, m, head.contigSeq) := by
  rw [newest, newest, hwriters]
  cases hhead : db.sqWriters.get (T, m) with
  | none => exact .inl rfl
  | some head =>
    rw [Option.bind_some, Option.bind_some]
    split
    · exact .inl rfl
    cases hr : db.sqLog.get (T, m, head.contigSeq) with
    | none =>
      left
      cases hr' : db'.sqLog.get (T, m, head.contigSeq) with
      | none => rfl
      | some r =>
        obtain ⟨hin, hkey⟩ := Table.get_eq_some_iff.1 hr'
        rw [← hkey, Table.get_of_mem (h.mem_log.1 hin).1] at hr
        cases hr
    | some r =>
      obtain ⟨hin, hkey⟩ := Table.get_eq_some_iff.1 hr
      cases hout : outside gone r with
      | true =>
        left
        rw [← hkey, Table.get_of_mem (h.mem_log.2 ⟨hin, hout⟩)]
      | false => exact .inr ⟨r, (outside_eq_false_iff hgone hin).1 hout, head, rfl, hkey⟩

end Db

section
variable (env : Env) (T : Topic) (o : AckedPruneOptions)

/-- The rows that a call takes. -/
def PruneCall.batch (c : PruneCall) : List LogRow :=
  (c.core.db.prunableRows T o c.now c.core.recoveries env.writerId).take c.maxRows

/-- The members that a call counts. -/
def PruneCall.counted (c : PruneCall) : List WriterId :=
  (c.core.db.memberPlan T o c.now (c.core.db.ackStreams T c.core.recoveries) env.writerId).included

/-- A call forgets no member that the host names, and takes the newest entry of no writer that is
counted for this entry only. -/
structure PruneCall.Steady (c : PruneCall) : Prop where
  named : ∀ m, ¬ c.ForgetsNamed env T o m
  lasting : ∀ m ∈ c.counted env T o, ∀ r ∈ c.batch env T o, ∀ head,
    c.core.db.sqWriters.get (T, m) = some head → r.entry.id = (T, m, head.contigSeq) →
      ¬ Silent o o.maxLagMs (c.core.db.sqAckNodes.get (T, m)) none c.now

end

section
variable {env : Env} {T : Topic} {known : (env.topics T).isSome = true} {o : AckedPruneOptions}
  {core : Core} {now maxRows : Nat} {m : WriterId}

/-- What a call does to the log and the floors. -/
theorem called_struck (hcoherent : core.Coherent env) (hacked : env.ackedRetention T = true)
    (hreal : o.dryRun = false) : Struck T now core.db (PruneCall.batch env T o ⟨now, maxRows, core⟩)
      (step env core (pruneAckedCall T known o maxRows now)).core.db := by
  obtain ⟨-, hdb, -⟩ := step_pruneAcked known hcoherent hacked o maxRows now
  obtain ⟨hstruck, -⟩ := core.db.prunedTo_pruneAcked T o now core.recoveries env.writerId maxRows
  rw [hreal, if_neg Bool.false_ne_true] at hstruck
  rw [hdb]
  exact ⟨hstruck.log, hstruck.floors, hstruck.others⟩

theorem called_writers (hcoherent : core.Coherent env) (hacked : env.ackedRetention T = true) :
    (step env core (pruneAckedCall T known o maxRows now)).core.db.sqWriters = core.db.sqWriters := by
  obtain ⟨-, hdb, -⟩ := step_pruneAcked known hcoherent hacked o maxRows now
  rw [hdb]
  exact (core.db.thinner_pruneAcked T o now core.recoveries env.writerId maxRows).1

theorem called_streams (hcoherent : core.Coherent env) (hacked : env.ackedRetention T = true) :
    let called := (step env core (pruneAckedCall T known o maxRows now)).core
    called.db.ackStreams T called.recoveries = core.db.ackStreams T core.recoveries := by
  intro called
  obtain ⟨-, -, hrecoveries, -⟩ := step_pruneAcked known hcoherent hacked o maxRows now
  have hwriters : called.db.sqWriters = core.db.sqWriters := called_writers hcoherent hacked
  have hrec : called.recoveries = core.recoveries := hrecoveries
  rw [Db.ackStreams, Db.ackStreams, Db.writersOf, Db.writersOf, hwriters, hrec]

theorem mem_batch {c : PruneCall} (h : r ∈ c.batch env T o) : r ∈ c.core.db.sqLog.rows :=
  Db.mem_prunableRows (List.mem_of_mem_take h)

/-- A node that was silent is silent for the next call. -/
theorem PruneCall.Steady.silent (h : PruneCall.Steady env T o ⟨now, maxRows, core⟩)
    (hcoherent : core.Coherent env) (hacked : env.ackedRetention T = true)
    (hkept : m ∉ o.excludeMembers)
    (hsilent : Silent o o.maxLagMs (core.db.sqAckNodes.get (T, m)) (core.db.newest T m) now) :
    let called := (step env core (pruneAckedCall T known o maxRows now)).core
    Silent o o.maxLagMs (called.db.sqAckNodes.get (T, m)) (called.db.newest T m) now :=
  (Stale.call ⟨hkept, hsilent⟩ hcoherent hacked (h.named m)).2

/-- A member that was counted is not silent for the next call. -/
theorem PruneCall.Steady.not_silent (h : PruneCall.Steady env T o ⟨now, maxRows, core⟩)
    (hcoherent : core.Coherent env) (hacked : env.ackedRetention T = true) (hreal : o.dryRun = false)
    (hcounted : m ∈ PruneCall.counted env T o ⟨now, maxRows, core⟩) :
    let called := (step env core (pruneAckedCall T known o maxRows now)).core
    ¬ Silent o o.maxLagMs (called.db.sqAckNodes.get (T, m)) (called.db.newest T m) now := by
  intro called hsilent
  obtain ⟨hname, hwhy⟩ := Db.mem_included.1 hcounted
  obtain ⟨-, hnot⟩ := exclusionAt_eq_none.1 hwhy
  have hforget : m ∉ (core.db.memberPlan T o now (core.db.ackStreams T core.recoveries)
      env.writerId).forget := fun hforget => Db.not_included_of_forget hforget hcounted
  have hrecord : called.db.sqAckNodes.get (T, m) = _ := record_called hcoherent hacked
  rw [Db.get_ackNodes_pruneAcked, hreal, if_neg Bool.false_ne_true, if_neg hforget] at hrecord
  split at hrecord
  · -- the call that names it has just seen it
    rw [hrecord] at hsilent
    have := hsilent.first now rfl
    omega
  · rw [hrecord] at hsilent
    have hstruck : Struck T now core.db (PruneCall.batch env T o ⟨now, maxRows, core⟩) called.db :=
      called_struck hcoherent hacked hreal
    have hwriters : called.db.sqWriters = core.db.sqWriters := called_writers hcoherent hacked
    have hgone : ∀ g ∈ PruneCall.batch env T o ⟨now, maxRows, core⟩, g ∈ core.db.sqLog.rows :=
      fun g hg => mem_batch hg
    rcases Db.newest_pruned hgone hstruck hwriters with
      hsame | ⟨r, hr, head, hhead, hid⟩
    · rw [hsame] at hsilent
      exact hnot hsilent
    · apply h.lasting m hcounted r hr head hhead hid
      exact ⟨hsilent.seen, hsilent.first, fun t ht => by cases ht⟩

/-- The next call counts the same members. -/
theorem PruneCall.Steady.counted (h : PruneCall.Steady env T o ⟨now, maxRows, core⟩)
    (hcoherent : core.Coherent env) (hacked : env.ackedRetention T = true)
    (hreal : o.dryRun = false) :
    m ∈ PruneCall.counted env T o ⟨now, maxRows,
      (step env core (pruneAckedCall T known o maxRows now)).core⟩ ↔
        m ∈ PruneCall.counted env T o ⟨now, maxRows, core⟩ := by
  let called := (step env core (pruneAckedCall T known o maxRows now)).core
  let streams := core.db.ackStreams T core.recoveries
  have hstreams : called.db.ackStreams T called.recoveries = streams :=
    called_streams hcoherent hacked
  change m ∈ (called.db.memberPlan T o now (called.db.ackStreams T called.recoveries)
    env.writerId).included ↔ m ∈ (core.db.memberPlan T o now streams env.writerId).included
  rw [hstreams]
  have hrecord : called.db.sqAckNodes.get (T, m) = _ := record_called hcoherent hacked
  rw [Db.get_ackNodes_pruneAcked, hreal, if_neg Bool.false_ne_true] at hrecord
  constructor
  · intro hcounted
    obtain ⟨hname, hwhy⟩ := Db.mem_included.1 hcounted
    obtain ⟨hkept, hnot⟩ := exclusionAt_eq_none.1 hwhy
    apply Db.mem_included.2
    refine ⟨?_, exclusionAt_eq_none.2 ⟨hkept, fun hsilent => hnot (h.silent hcoherent hacked hkept
      hsilent)⟩⟩
    cases hnames : o.members with
    | some members =>
      rw [Db.mem_memberNames_of_explicit hnames] at hname ⊢
      exact hname
    | none =>
      rw [Db.mem_memberNames_of_derived hnames] at hname ⊢
      refine ⟨hname.1.imp_left fun hsome => ?_, hname.2⟩
      rw [hrecord, hnames] at hsome
      split at hsome
      · cases hsome
      · rw [if_neg fun h => by cases h.1] at hsome
        exact hsome
  · intro hcounted
    obtain ⟨hname, hwhy⟩ := Db.mem_included.1 hcounted
    have hkept := (exclusionAt_eq_none.1 hwhy).1
    apply Db.mem_included.2
    refine ⟨?_, exclusionAt_eq_none.2 ⟨hkept, h.not_silent hcoherent hacked hreal hcounted⟩⟩
    cases hnames : o.members with
    | some members =>
      rw [Db.mem_memberNames_of_explicit hnames] at hname ⊢
      exact hname
    | none =>
      rw [Db.mem_memberNames_of_derived hnames] at hname ⊢
      refine ⟨hname.1.imp_left fun hsome => ?_, hname.2⟩
      rw [hrecord, if_neg fun hforget => Db.not_included_of_forget hforget hcounted, hnames,
        if_neg fun h => by cases h.1]
      exact hsome

/-- The acknowledged floors are the same for the next call. -/
theorem PruneCall.Steady.ackFloor (h : PruneCall.Steady env T o ⟨now, maxRows, core⟩)
    (hcoherent : core.Coherent env) (hacked : env.ackedRetention T = true)
    (hreal : o.dryRun = false) (s : StreamView) :
    let called := (step env core (pruneAckedCall T known o maxRows now)).core
    (ackFloorOf (called.db.sqAcks.rows.filter fun r => r.topic = T)
      (PruneCall.counted env T o ⟨now, maxRows, called⟩) s).ackFloor =
    (ackFloorOf (core.db.sqAcks.rows.filter fun r => r.topic = T)
      (PruneCall.counted env T o ⟨now, maxRows, core⟩) s).ackFloor := by
  intro called
  obtain ⟨-, hdb, -⟩ := step_pruneAcked known hcoherent hacked o maxRows now
  obtain ⟨-, hacks⟩ := core.db.tables_pruneAcked T hreal now core.recoveries env.writerId maxRows
  have hcalled : called.db.sqAcks = _ := (congrArg Db.sqAcks hdb).trans hacks
  rw [hcalled]
  have hsame : ∀ b, b ≤ (ackFloorOf (Table.rows (core.db.sqAcks.filter fun r => !decide (r.topic = T ∧
      r.node ∈ (core.db.memberPlan T o now (core.db.ackStreams T core.recoveries)
        env.writerId).forget)) |>.filter fun r => r.topic = T)
      (PruneCall.counted env T o ⟨now, maxRows, called⟩) s).ackFloor ↔
      b ≤ (ackFloorOf (core.db.sqAcks.rows.filter fun r => r.topic = T)
        (PruneCall.counted env T o ⟨now, maxRows, core⟩) s).ackFloor := by
    intro b
    rw [le_ackFloorOf, le_ackFloorOf]
    apply and_congr_right'
    apply forall_congr'
    intro m
    rw [h.counted hcoherent hacked hreal]
    apply forall_congr'
    intro hcounted
    rw [Db.ackedAt_kept _ fun hforget => Db.not_included_of_forget hforget hcounted]
  exact Nat.le_antisymm ((hsame _).1 (Nat.le_refl _)) ((hsame _).2 (Nat.le_refl _))

/-- What the next call may take is what the call has left of it. -/
theorem PruneCall.Steady.rest (h : PruneCall.Steady env T o ⟨now, maxRows, core⟩)
    (hcoherent : core.Coherent env) (hacked : env.ackedRetention T = true)
    (hreal : o.dryRun = false) :
    let called := (step env core (pruneAckedCall T known o maxRows now)).core
    called.db.prunableRows T o now called.recoveries env.writerId =
      (core.db.prunableRows T o now core.recoveries env.writerId).drop maxRows := by
  intro called
  have hstreams : called.db.ackStreams T called.recoveries = core.db.ackStreams T core.recoveries :=
    called_streams hcoherent hacked
  have hstruck : Struck T now core.db (PruneCall.batch env T o ⟨now, maxRows, core⟩) called.db :=
    called_struck hcoherent hacked hreal
  obtain ⟨-, hdb, -⟩ := step_pruneAcked known hcoherent hacked o maxRows now
  obtain ⟨hcursors, -⟩ := core.db.tables_pruneAcked T hreal now core.recoveries env.writerId maxRows
  have hcf : called.db.cursorFloor T = core.db.cursorFloor T := by
    have hsame : called.db.sqCursors = core.db.sqCursors :=
      (congrArg Db.sqCursors hdb).trans hcursors
    rw [Db.cursorFloor, Db.cursorFloor, hsame]
  let acks := core.db.sqAcks.rows.filter fun r => r.topic = T
  let counted := PruneCall.counted env T o ⟨now, maxRows, core⟩
  let gone := PruneCall.batch env T o ⟨now, maxRows, core⟩
  have hgone : ∀ g ∈ gone, g ∈ core.db.sqLog.rows := fun g hg => mem_batch hg
  have hnodup : ((core.db.ackStreams T core.recoveries).map StreamView.writer).Nodup := by
    rw [Db.map_writer_ackStreams]
    exact core.db.nodup_writersOf T
  have hdeletable : ∀ s ∈ (core.db.ackStreams T core.recoveries).filter StreamView.prunable,
      called.db.deletable T o now (called.db.sqAcks.rows.filter fun r => r.topic = T)
        (called.db.memberPlan T o now (core.db.ackStreams T core.recoveries) env.writerId).included
        (core.db.cursorFloor T) s =
      (core.db.deletable T o now acks counted (core.db.cursorFloor T) s).filter (outside gone) := by
    intro s hs
    have hfloor : (ackFloorOf (called.db.sqAcks.rows.filter fun r => r.topic = T)
        (called.db.memberPlan T o now (called.db.ackStreams T called.recoveries)
          env.writerId).included s).ackFloor = (ackFloorOf acks counted s).ackFloor :=
      h.ackFloor hcoherent hacked hreal s
    rw [hstreams] at hfloor
    apply hstruck.deletable hfloor hgone
    intro g hg hw
    obtain ⟨s', hs', hg'⟩ := Db.mem_deletables (List.mem_of_mem_take hg)
    have hwriter := (Db.mem_held.1 (Db.mem_deletable_held hg')).2.2
    have heq : s' = s :=
      List.inj_on_of_nodup_map hnodup hs' (List.mem_of_mem_filter hs) (hwriter.symm.trans hw)
    exact heq ▸ hg'
  calc called.db.prunableRows T o now called.recoveries env.writerId
      = ((core.db.ackStreams T core.recoveries).filter StreamView.prunable).flatMap
          (called.db.deletable T o now (called.db.sqAcks.rows.filter fun r => r.topic = T)
            (called.db.memberPlan T o now (core.db.ackStreams T core.recoveries)
              env.writerId).included (core.db.cursorFloor T)) := by
        rw [Db.prunableRows, hstreams, hcf]
        rfl
    _ = ((core.db.ackStreams T core.recoveries).filter StreamView.prunable).flatMap fun s =>
          (core.db.deletable T o now acks counted (core.db.cursorFloor T) s).filter (outside gone) :=
        List.flatMap_congr hdeletable
    _ = (core.db.prunableRows T o now core.recoveries env.writerId).filter (outside gone) :=
        (List.filter_flatMap ..).symm
    _ = (core.db.prunableRows T o now core.recoveries env.writerId).drop maxRows :=
        (List.filter_congr fun r _ => decide_eq_decide.2 Iff.rfl).trans (List.filter_outside_take
          (core.db.nodup_prunableRows T o now core.recoveries env.writerId) maxRows)

end

/-! Calls until there is no more. -/

theorem Db.pruneAcked_dry (db : Db) (T : Topic) {o : AckedPruneOptions} (hdry : o.dryRun = true)
    (now : Nat) (R : StreamId → Option RecoveryTarget) (self : WriterId) (maxRows : Nat) :
    (db.pruneAcked T o now R self maxRows).1 = db := by
  have hstream : ∀ (acks : List AckRow) (included : List WriterId) (cf : Nat)
      (out : Db × AckedPrune) (s : StreamView),
      (Db.pruneStream T o now acks included cf out s).1 = out.1 := by
    intro acks included cf out s
    rw [Db.pruneStream]
    split
    · rfl
    split
    · rfl
    split
    · rfl
    dsimp only
    split
    · rfl
    · rfl
  have hfold : ∀ (acks : List AckRow) (included : List WriterId) (cf : Nat)
      (streams : List StreamView) (out : Db × AckedPrune),
      (streams.foldl (Db.pruneStream T o now acks included cf) out).1 = out.1 := by
    intro acks included cf streams
    induction streams with
    | nil => exact fun out => rfl
    | cons s streams ih => exact fun out => (ih _).trans (hstream ..)
  rw [Db.pruneAcked]
  dsimp only
  rw [if_pos hdry, hfold, Db.nameMembers, if_neg]
  rw [hdry]
  exact fun h => by cases h.2

section
variable (env : Env) (T : Topic) (known : (env.topics T).isSome = true) (o : AckedPruneOptions)
  (maxRows now : Nat)

/-- The state before each of calls one after the other. -/
def chunked (core : Core) : Nat → Core
  | 0 => core
  | n + 1 => (step env (chunked core n) (pruneAckedCall T known o maxRows now)).core

/-- A call takes at most so many rows, and lowers no floor. -/
structure Chunk (core : Core) (r : AckedPruneResult) : Prop where
  settles : (step env core (pruneAckedCall T known o maxRows now)).settle = [.ackedPruned r]
  bounded : r.prunedRows ≤ maxRows
  deletes : (step env core (pruneAckedCall T known o maxRows now)).core.db.sqLog.rows.Sublist
    core.db.sqLog.rows
  counts : (step env core (pruneAckedCall T known o maxRows now)).core.db.sqLog.rows.length +
    r.prunedRows = core.db.sqLog.rows.length
  floors : ∀ k, ((core.db.sqFloors.get k).map (·.floor.seq)).getD 0 ≤
    (((step env core (pruneAckedCall T known o maxRows now)).core.db.sqFloors.get k).map
      (·.floor.seq)).getD 0

/-- A dry run reports what the call deletes. -/
structure DryChunk (core : Core) (r : AckedPruneResult) : Prop where
  leaves : (step env core (pruneAckedCall T known { o with dryRun := true } maxRows now)).core.db =
    { core.db with metaHlc := some core.hlcState }
  settles : ∃ dry : AckedPruneResult, dry.prunedRows = r.prunedRows ∧
    (step env core (pruneAckedCall T known { o with dryRun := true } maxRows now)).settle =
      [.ackedPruned dry]

end

section
variable {env : Env} {T : Topic} {known : (env.topics T).isSome = true} {o : AckedPruneOptions}
  {core : Core} {now maxRows : Nat}

theorem chunked_coherent (hcoherent : core.Coherent env) (n : Nat) :
    (chunked env T known o maxRows now core n).Coherent env := by
  induction n with
  | zero => exact hcoherent
  | succ n ih => exact step_coherent _ ih

/-- The report of a call. -/
def PruneCall.report (env : Env) (T : Topic) (o : AckedPruneOptions) (c : PruneCall) :
    AckedPruneResult :=
  (c.core.db.pruneAcked T o c.now c.core.recoveries env.writerId c.maxRows).2

theorem chunk (hcoherent : core.Coherent env) (hacked : env.ackedRetention T = true)
    (hreal : o.dryRun = false) :
    Chunk env T known o maxRows now core (PruneCall.report env T o ⟨now, maxRows, core⟩) := by
  obtain ⟨-, -, -, -, hsettle⟩ := step_pruneAcked known hcoherent hacked o maxRows now
  obtain ⟨-, hpruned, -, -⟩ := core.db.prunedTo_pruneAcked T o now core.recoveries env.writerId
    maxRows
  have hstruck : Struck T now core.db (PruneCall.batch env T o ⟨now, maxRows, core⟩)
      (step env core (pruneAckedCall T known o maxRows now)).core.db :=
    called_struck hcoherent hacked hreal
  have hlength := hstruck.length (fun g hg => mem_batch hg)
    ((core.db.nodup_prunableRows T o now core.recoveries env.writerId).sublist
      ((List.take_sublist ..).map _))
  have hreport : (PruneCall.report env T o ⟨now, maxRows, core⟩).prunedRows =
      (PruneCall.batch env T o ⟨now, maxRows, core⟩).length := hpruned
  refine ⟨hsettle, ?_, ?_, ?_, hstruck.floors_le⟩
  · rw [hreport, PruneCall.batch, List.length_take]
    exact Nat.min_le_left ..
  · rw [hstruck.log]
    exact List.filter_sublist
  · rw [hreport]
    exact hlength

theorem dryChunk (hcoherent : core.Coherent env) (hacked : env.ackedRetention T = true) :
    DryChunk env T known o maxRows now core (PruneCall.report env T o ⟨now, maxRows, core⟩) := by
  obtain ⟨-, hdb, -, -, hsettle⟩ := step_pruneAcked known hcoherent hacked { o with dryRun := true }
    maxRows now
  obtain ⟨-, hpruned, -, -⟩ := core.db.prunedTo_pruneAcked T o now core.recoveries env.writerId
    maxRows
  obtain ⟨-, hdry, -, -⟩ := core.db.prunedTo_pruneAcked T { o with dryRun := true } now
    core.recoveries env.writerId maxRows
  refine ⟨?_, _, ?_, hsettle⟩
  · rw [hdb, Db.pruneAcked_dry _ _ rfl]
  · rw [hdry]
    exact hpruned.symm

/-- A call takes the next part of the rows that may go. -/
theorem chunked_next {rows : List LogRow} (hcoherent : core.Coherent env)
    (hacked : env.ackedRetention T = true) (hreal : o.dryRun = false) (hsorted : rows.Pairwise
      fun r r' => r.entry.writer = r'.entry.writer → r.entry.seq < r'.entry.seq) (n : Nat)
    (h : let state := chunked env T known o maxRows now core n
      Struck T now core.db (rows.take (n * maxRows)) state.db ∧
        state.db.prunableRows T o now state.recoveries env.writerId = rows.drop (n * maxRows)) :
    Struck T now core.db (rows.take ((n + 1) * maxRows))
      (chunked env T known o maxRows now core (n + 1)).db := by
  obtain ⟨hstruck, hrest⟩ := h
  have hcoherent' : (chunked env T known o maxRows now core n).Coherent env :=
    chunked_coherent hcoherent n
  have hcalled : Struck T now (chunked env T known o maxRows now core n).db
      ((rows.drop (n * maxRows)).take maxRows)
      (chunked env T known o maxRows now core (n + 1)).db := by
    rw [← hrest]
    exact called_struck hcoherent' hacked hreal
  rw [Nat.succ_mul, List.take_add]
  apply hstruck.trans hcalled
  rw [← List.take_append_drop (n * maxRows) rows, List.pairwise_append] at hsorted
  exact fun r hr r' hr' => hsorted.2.2 r hr r' (List.mem_of_mem_take hr')

/-- As long as the calls are steady, they take the rows that may go one part after the other. -/
theorem chunked_struck (hcoherent : core.Coherent env) (hacked : env.ackedRetention T = true)
    (hreal : o.dryRun = false) (n : Nat) (hsteady : ∀ k < n,
      PruneCall.Steady env T o ⟨now, maxRows, chunked env T known o maxRows now core k⟩) :
    let state := chunked env T known o maxRows now core n
    let rows := core.db.prunableRows T o now core.recoveries env.writerId
    Struck T now core.db (rows.take (n * maxRows)) state.db ∧
      state.db.prunableRows T o now state.recoveries env.writerId = rows.drop (n * maxRows) := by
  intro state rows
  induction n with
  | zero =>
    rw [Nat.zero_mul, List.take_zero]
    exact ⟨.refl T now core.db, rfl⟩
  | succ n ih =>
    have hlast := ih fun k hk => hsteady k (hk.trans (Nat.lt_succ_self n))
    have hcoherent' : (chunked env T known o maxRows now core n).Coherent env :=
      chunked_coherent hcoherent n
    constructor
    · apply chunked_next hcoherent hacked hreal _ n hlast
      exact core.db.pairwise_prunableRows T o now core.recoveries env.writerId
    · have hnext : state.db.prunableRows T o now state.recoveries env.writerId = _ :=
        (hsteady n (Nat.lt_succ_self n)).rest hcoherent' hacked hreal
      rw [hnext, hlast.2, List.drop_drop, Nat.succ_mul]

/-- Some call has no more to do. -/
theorem chunked_ends (hcoherent : core.Coherent env) (hacked : env.ackedRetention T = true)
    (hreal : o.dryRun = false) (hroom : 1 ≤ maxRows) : ∃ n, (PruneCall.report env T o
      ⟨now, maxRows, chunked env T known o maxRows now core n⟩).more = false := by
  by_contra hnever
  rw [not_exists] at hnever
  have hshrinks : ∀ n, (chunked env T known o maxRows now core n).db.sqLog.rows.length + n ≤
      core.db.sqLog.rows.length := by
    intro n
    induction n with
    | zero => exact Nat.le_refl _
    | succ n ih =>
      have hcoherent' : (chunked env T known o maxRows now core n).Coherent env :=
        chunked_coherent hcoherent n
      generalize hstate : chunked env T known o maxRows now core n = state at hcoherent' ih
      obtain ⟨-, hpruned, -, hmore⟩ := state.db.prunedTo_pruneAcked T o now state.recoveries
        env.writerId maxRows
      have hleft := hmore (by
        have hthis := hnever n
        rw [hstate] at hthis
        exact Bool.eq_true_of_not_eq_false hthis)
      rw [List.length_take, Nat.min_eq_left hleft] at hpruned
      have hcounts : (step env state (pruneAckedCall T known o maxRows now)).core.db.sqLog.rows.length +
          (state.db.pruneAcked T o now state.recoveries env.writerId maxRows).2.prunedRows =
            state.db.sqLog.rows.length := (chunk hcoherent' hacked hreal).counts
      rw [chunked, hstate]
      omega
  have := hshrinks (core.db.sqLog.rows.length + 1)
  omega

end

/-- Calls one after the other, with room for some rows each: each takes no more than it has room
for and lowers no floor, a dry run reports what the call deletes, and the calls end. If all but the
last are steady, then they leave the rows and the floors that one call with room for all leaves. -/
theorem pruneAcked_chunks (env : Env) (T : Topic) (known : (env.topics T).isSome = true)
    (hacked : env.ackedRetention T = true) (o : AckedPruneOptions) (hreal : o.dryRun = false)
    (maxRows : Nat) (hroom : 1 ≤ maxRows) (now : Nat) (is : List (Input env)) :
    let core := runCore env Core.init is
    let state := chunked env T known o maxRows now core
    ∃ report : Nat → AckedPruneResult,
      (∀ n, Chunk env T known o maxRows now (state n) (report n)) ∧
      (∀ n, DryChunk env T known o maxRows now (state n) (report n)) ∧
      ∃ n, (report n).more = false ∧ (∀ k < n, (report k).more = true) ∧
        ((∀ k < n, PruneCall.Steady env T o ⟨now, maxRows, state k⟩) →
          ∀ room, core.db.sqLog.rows.length ≤ room →
            let once := (step env core (pruneAckedCall T known o room now)).core
            (state (n + 1)).db.sqLog.rows = once.db.sqLog.rows ∧
              ∀ k, (state (n + 1)).db.sqFloors.get k = once.db.sqFloors.get k) := by
  intro core state
  have hcoherent : core.Coherent env := runCore_coherent is
  have hcoherent' : ∀ n, (state n).Coherent env := chunked_coherent hcoherent
  refine ⟨fun n => PruneCall.report env T o ⟨now, maxRows, state n⟩,
    fun n => chunk (hcoherent' n) hacked hreal, fun n => dryChunk (hcoherent' n) hacked, ?_⟩
  have hends : ∃ n, (PruneCall.report env T o ⟨now, maxRows, state n⟩).more = false :=
    chunked_ends hcoherent hacked hreal hroom
  refine ⟨Nat.find hends, Nat.find_spec hends, fun k hk =>
    Bool.eq_true_of_not_eq_false (Nat.find_min hends hk), fun hsteady room hrows => ?_⟩
  have hlast := Nat.find_spec hends
  generalize Nat.find hends = n at hsteady hlast ⊢
  have hstruck : Struck T now core.db _ (state n).db ∧
      (state n).db.prunableRows T o now (state n).recoveries env.writerId = _ :=
    chunked_struck hcoherent hacked hreal n hsteady
  obtain ⟨-, -, hall, -⟩ := (state n).db.prunedTo_pruneAcked T o now (state n).recoveries
    env.writerId maxRows
  have hleft := hall hlast
  have hfinal : Struck T now core.db _ (state (n + 1)).db := chunked_next hcoherent hacked hreal
    (core.db.pairwise_prunableRows T o now core.recoveries env.writerId) n hstruck
  have honce : Struck T now core.db (PruneCall.batch env T o ⟨now, room, core⟩)
      (step env core (pruneAckedCall T known o room now)).core.db :=
    called_struck hcoherent hacked hreal
  have hfew : (core.db.prunableRows T o now core.recoveries env.writerId).length ≤
      core.db.sqLog.rows.length := by
    have hnodup := (core.db.nodup_prunableRows T o now core.recoveries env.writerId).of_map _
    exact (List.subperm_of_subset hnodup fun r hr => Db.mem_prunableRows hr).length_le
  rw [hstruck.2, List.length_drop] at hleft
  rw [List.take_of_length_le (by rw [Nat.succ_mul]; omega)] at hfinal
  rw [PruneCall.batch, List.take_of_length_le (hfew.trans hrows)] at honce
  exact hfinal.same honce

/-- Three entries, and a member that is named once. -/
def heldInputs : List (Input (hostEnv "b")) :=
  [.flush [({ now := 1 }, hostAppend "b"), ({ now := 1 }, hostAppend "b"),
    ({ now := 1 }, hostAppend "b"),
    ({ now := 1 }, .pruneAcked "t" namedOptions 10 (hostEnv_known "b"))] none]

def noMembers : AckedPruneOptions := { olderThanMs := 10, maxLagMs := 1000, members := some [] }

/-- Where the host names no members, calls for one row each take what one call takes. -/
theorem pruneAcked_chunks_of_held : ∃ n,
    (chunked (hostEnv "b") "t" rfl noMembers 1 5000 (runCore (hostEnv "b") Core.init heldInputs)
      (n + 1)).db.sqLog.rows = (step (hostEnv "b") (runCore (hostEnv "b") Core.init heldInputs)
        (pruneAckedCall "t" rfl noMembers 3 5000)).core.db.sqLog.rows := by
  obtain ⟨report, -, -, n, -, -, hsame⟩ := pruneAcked_chunks (hostEnv "b") "t" rfl rfl noMembers rfl
    1 (Nat.le_refl 1) 5000 heldInputs
  refine ⟨n, (hsame (fun k _ => ⟨?_, ?_⟩) 3 (by decide +kernel)).1⟩
  · rintro m ⟨-, ⟨members, hnames, hin, -⟩, -⟩
    rw [← Option.some.inj hnames] at hin
    cases hin
  · intro m hm
    have hname := ((Db.mem_memberNames_of_explicit rfl).1 (Db.mem_included.1 hm).1).1
    cases hname

/-- The first of two calls forgets the member, and the second counts it again and takes nothing. -/
theorem chunks_fall_short : ¬ ∀ report : Nat → AckedPruneResult,
    let core := runCore (hostEnv "b") Core.init heldInputs
    let state := chunked (hostEnv "b") "t" rfl namedOptions 1 5000 core
    (∀ n, Chunk (hostEnv "b") "t" rfl namedOptions 1 5000 (state n) (report n)) →
      ∀ n, (report n).more = false → (∀ k < n, (report k).more = true) →
        (state (n + 1)).db.sqLog.rows = (step (hostEnv "b") core
          (pruneAckedCall "t" rfl namedOptions core.db.sqLog.rows.length 5000)).core.db.sqLog.rows := by
  intro hsame
  have hcoherent : (runCore (hostEnv "b") Core.init heldInputs).Coherent (hostEnv "b") :=
    runCore_coherent heldInputs
  have hrows := hsame (fun n => PruneCall.report (hostEnv "b") "t" namedOptions
    ⟨5000, 1, chunked (hostEnv "b") "t" rfl namedOptions 1 5000 (runCore (hostEnv "b") Core.init
      heldInputs) n⟩) (fun n => chunk (chunked_coherent hcoherent n) rfl rfl) 1 (by decide +kernel)
    (fun k hk => by
      rw [Nat.lt_one_iff.1 hk]
      decide +kernel)
  have hlengths := congrArg List.length hrows
  revert hlengths
  decide +kernel

end Seqscribe
