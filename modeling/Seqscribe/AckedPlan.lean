import Seqscribe.RetentionRefinement
import Seqscribe.Run

namespace Seqscribe
set_option autoImplicit true

/-! A call of `pruneAcked` as a function of the store. -/

/-- The first sighting of a member; the clock of one that the host names starts now. -/
def firstAtOf (o : AckedPruneOptions) (record : Option AckNodeRow) (now : Nat) : Option Nat :=
  match record with
  | some r => some r.firstAt
  | none => if o.members.isSome then some now else none

def memberEvidence (o : AckedPruneOptions) (record : Option AckNodeRow) (newest : Option Nat)
    (now : Nat) : Option Nat :=
  evidenceOf [record.bind AckNodeRow.seenAt, firstAtOf o record now, newest]

def silentFor (evidence : Option Nat) (now ms : Nat) : Bool :=
  evidence.any fun t => decide (now > t + ms)

def memberExclusion (o : AckedPruneOptions) (evidence : Option Nat) (now : Nat) (node : WriterId) :
    Option MemberExclusion :=
  if node ∈ o.excludeMembers then some .excluded
  else if evidence = none ∨ silentFor evidence now o.maxLagMs then some .lagging
  else none

/-- The record of a member is to go. -/
def MemberForgotten (o : AckedPruneOptions) (record : Option AckNodeRow) (newest : Option Nat)
    (now : Nat) (node : WriterId) : Prop :=
  record.isSome ∧
    (memberExclusion o (memberEvidence o record newest now) now node = some .excluded ∨
      silentFor (memberEvidence o record newest now) now (o.maxLagMs * ACK_FORGET_LAG_MULTIPLE))

instance : Decidable (MemberForgotten o record newest now node) := inferInstanceAs (Decidable (_ ∧ _))

def MemberPlan.add (o : AckedPruneOptions) (now : Nat) (plan : MemberPlan) (node : WriterId)
    (record : Option AckNodeRow) (newest : Option Nat) : MemberPlan :=
  let why := memberExclusion o (memberEvidence o record newest now) now node
  { members := plan.members ++ [⟨node, record.bind AckNodeRow.seenAt, why⟩]
    included := if why = none then plan.included ++ [node] else plan.included
    forget := if MemberForgotten o record newest now node then plan.forget ++ [node]
      else plan.forget }

/-- The held rows of a stream. -/
def Db.held (T : Topic) (db : Db) (w : WriterId) : List LogRow :=
  db.sqLog.selectBy (Store.inStream T w) (·.entry.seq)

def Db.floorSeq (T : Topic) (db : Db) (w : WriterId) : Nat := ((db.sqFloors.get (T, w)).map (·.floor.seq)).getD 0

/-- A floor is raised to a row and the stream is deleted up to it. -/
def Db.strikeTo (db : Db) (now : Nat) (r : LogRow) : Db :=
  let raised := if r.entry.seq > db.floorSeq r.entry.topic r.entry.writer then
      db.sqFloors.upsertWhere
        ⟨r.entry.topic, r.entry.writer, ⟨r.entry.seq, r.entry.chain⟩, now⟩
        fun f => decide (r.entry.seq > f.floor.seq)
    else db.sqFloors
  { db with
    sqFloors := raised
    sqLog := db.sqLog.filter fun r' =>
      !(Store.inStream r.entry.topic r.entry.writer r' && decide (r'.entry.seq ≤ r.entry.seq))
    sqAnnotations := db.sqAnnotations.filter fun a =>
      !decide (a.topic = r.entry.topic ∧ a.writer = r.entry.writer ∧ a.seq ≤ r.entry.seq) }

section
variable (T : Topic) (o : AckedPruneOptions) (now : Nat)

def Db.writersOf (db : Db) : List WriterRow :=
  (db.sqWriters.rows.filter fun w => w.topic = T).insertionSort fun a b => a.writer ≤ b.writer

def Db.ackStreams (db : Db) (recoveries : StreamId → Option RecoveryTarget) : List StreamView :=
  (db.writersOf T).map (streamViewOf recoveries T)

/-- `hlc_l` of the newest entry of a writer, where its row is held. -/
def Db.newest (db : Db) (w : WriterId) : Option Nat :=
  (db.sqWriters.get (T, w)).bind fun head =>
    if head.contigSeq = 0 then none
    else (db.sqLog.get (T, w, head.contigSeq)).map (·.entry.hlc.l)

def Db.memberNames (db : Db) (streams : List StreamView) (self : WriterId) : List WriterId :=
  let names :=
    match o.members with
    | some members => members
    | none =>
      let recorded : List AckNodeRow := db.sqAckNodes.rows.filter fun r => r.topic = T
      let active := streams.filter fun (s : StreamView) => s.sealReason ≠ some SealReason.retired
      recorded.map AckNodeRow.node ++ active.map StreamView.writer
  (names.dedup.filter fun n => n ≠ self).insertionSort (· ≤ ·)

def Db.memberPlan (db : Db) (streams : List StreamView) (self : WriterId) : MemberPlan :=
  (db.memberNames T o streams self).foldl (fun plan node =>
    plan.add o now node (db.sqAckNodes.get (T, node)) (db.newest T node)) ⟨[], [], []⟩

/-- The host's names without a record get one. -/
def Db.nameMembers (db : Db) (names : List WriterId) : Db :=
  if o.members.isSome ∧ !o.dryRun then
    { db with sqAckNodes :=
      (names.map fun node => ⟨T, node, now, none, none⟩).foldl .insertIgnore db.sqAckNodes }
  else db

def Db.forgetMembers (db : Db) (nodes : List WriterId) : Db :=
  { db with
    sqAcks := db.sqAcks.filter fun r => !decide (r.topic = T ∧ r.node ∈ nodes)
    sqAckNodes := db.sqAckNodes.filter fun r => !decide (r.topic = T ∧ r.node ∈ nodes) }

def Db.cursorFloor (db : Db) : Nat :=
  (db.sqCursors.rows.filter fun r => r.topic = T).foldl (fun m c => min m c.lastRowid)
    MAX_SAFE_INTEGER

/-- The rows that a stream may lose. -/
def Db.deletable (db : Db) (acks : List AckRow) (included : List WriterId) (cursorFloor : Nat)
    (s : StreamView) : List LogRow :=
  let headCap :=
    if s.sealReason = some .retired then s.finalSeq.getD s.contigSeq else s.contigSeq - 1
  let target := max (min (ackFloorOf acks included s).ackFloor headCap) (db.floorSeq T s.writer)
  prunablePrefix target cursorFloor ((now : Int) - o.olderThanMs) (db.held T s.writer)

def Db.pruneStream (acks : List AckRow) (included : List WriterId) (cursorFloor : Nat)
    (out : Db × AckedPrune) (s : StreamView) : Db × AckedPrune :=
  let db := out.1
  let acc := out.2
  let af := ackFloorOf acks included s
  let line (floor : Nat) (skipped : Option PruneSkip) : List AckedPruneWriter :=
    acc.writers ++ [⟨s.writer, floor, af.ackFloor, af.pinnedBy, skipped⟩]
  let prevSeq := db.floorSeq T s.writer
  if s.sealReason = some .fork then (db, { acc with writers := line prevSeq (some .forked) })
  else if s.recovering then (db, { acc with writers := line prevSeq (some .recovering) })
  else if acc.budget = 0 then (db, { acc with more := true, writers := line prevSeq none })
  else
    let deletable := db.deletable T o now acks included cursorFloor s
    let more := acc.more || decide (acc.budget < deletable.length)
    match (deletable.take acc.budget).getLast? with
    | none => (db, { acc with more := more, writers := line prevSeq none })
    | some last =>
      (if o.dryRun then db else db.strikeTo now last,
        { budget := acc.budget - (deletable.take acc.budget).length
          pruned := acc.pruned + (deletable.take acc.budget).length
          more := more
          writers := line (max prevSeq last.entry.seq) none })

def Db.pruneAcked (db : Db) (recoveries : StreamId → Option RecoveryTarget) (self : WriterId)
    (maxRows : Nat) : Db × AckedPruneResult :=
  let streams := db.ackStreams T recoveries
  let plan := db.memberPlan T o now streams self
  let named := db.nameMembers T o now (db.memberNames T o streams self)
  let acks := db.sqAcks.rows.filter fun r => r.topic = T
  let out := streams.foldl (Db.pruneStream T o now acks plan.included (db.cursorFloor T))
    (named, ⟨maxRows, 0, false, []⟩)
  (if o.dryRun then out.1 else out.1.forgetMembers T plan.forget,
    ⟨out.2.pruned, out.2.more, out.2.writers, plan.members⟩)

end

namespace Db

variable {db : Db}

theorem mem_writersOf : w ∈ db.writersOf T ↔ w ∈ db.sqWriters.rows ∧ w.topic = T := by
  rw [writersOf, List.mem_insertionSort, List.mem_filter, decide_eq_true_iff]

theorem get_of_mem_writersOf (h : w ∈ db.writersOf T) : db.sqWriters.get (T, w.writer) = some w := by
  obtain ⟨hin, htopic⟩ := mem_writersOf.1 h
  rw [← htopic]
  exact Table.get_of_mem hin

/-- The streams of a topic have different writers. -/
theorem nodup_writersOf (db : Db) (T : Topic) : ((db.writersOf T).map WriterRow.writer).Nodup := by
  have hkeys : ((db.writersOf T).map WriterRow.stream).Nodup := by
    have hperm := (List.perm_insertionSort (fun a b : WriterRow => a.writer ≤ b.writer)
      (db.sqWriters.rows.filter fun w => w.topic = T)).map WriterRow.stream
    exact hperm.nodup_iff.2 (List.filter_sublist.map WriterRow.stream |>.nodup db.sqWriters.nodup)
  have hmap : (db.writersOf T).map WriterRow.stream =
      ((db.writersOf T).map WriterRow.writer).map fun w => (T, w) := by
    rw [List.map_map]
    apply List.map_congr_left
    intro w hw
    exact Prod.ext (mem_writersOf.1 hw).2 rfl
  rw [hmap] at hkeys
  exact hkeys.of_map _

theorem find_writersOf (db : Db) (T : Topic) (node : WriterId) :
    (db.writersOf T).find? (fun w => decide (w.writer = node)) = db.sqWriters.get (T, node) := by
  cases hget : db.sqWriters.get (T, node) with
  | none =>
    apply List.find?_eq_none.2
    intro w hw hnode
    rw [← of_decide_eq_true hnode, get_of_mem_writersOf hw] at hget
    cases hget
  | some w =>
    obtain ⟨hin, hkey⟩ := Table.get_eq_some_iff.1 hget
    have hmem : w ∈ db.writersOf T := mem_writersOf.2 ⟨hin, congrArg Prod.fst hkey⟩
    cases hfind : (db.writersOf T).find? fun w => decide (w.writer = node) with
    | none =>
      exact absurd (decide_eq_true (congrArg Prod.snd hkey)) (List.find?_eq_none.1 hfind w hmem)
    | some w' =>
      have hfound := List.find?_some hfind
      have hnode : w'.writer = node := of_decide_eq_true hfound
      have hget' := get_of_mem_writersOf (List.mem_of_find?_eq_some hfind)
      rw [hnode, hget] at hget'
      exact hget'.symm

theorem nameMembers_nil (db : Db) (T : Topic) (o : AckedPruneOptions) (now : Nat) :
    db.nameMembers T o now [] = db := by
  rw [nameMembers]
  split
  · rfl
  · rfl

/-- Naming members writes their records only. -/
theorem nameMembers_eq (db : Db) (T : Topic) (o : AckedPruneOptions) (now : Nat)
    (names : List WriterId) : ∃ nodes, db.nameMembers T o now names = { db with sqAckNodes := nodes } := by
  rw [nameMembers]
  split
  · exact ⟨_, rfl⟩
  · exact ⟨db.sqAckNodes, rfl⟩

/-- The members are named one by one. -/
theorem nameMembers_append (db : Db) (T : Topic) (o : AckedPruneOptions) (now : Nat)
    (done : List WriterId) (node : WriterId) :
    db.nameMembers T o now (done ++ [node]) =
      if db.sqAckNodes.get (T, node) = none ∧ o.members.isSome ∧ !o.dryRun then
        { db.nameMembers T o now done with
          sqAckNodes := (db.nameMembers T o now done).sqAckNodes.insertIgnore
            ⟨T, node, now, none, none⟩ }
      else db.nameMembers T o now done := by
  rw [nameMembers, nameMembers]
  by_cases hnames : o.members.isSome ∧ !o.dryRun
  · rw [if_pos hnames, if_pos hnames, List.map_append, List.foldl_append]
    by_cases hnone : db.sqAckNodes.get (T, node) = none
    · rw [if_pos ⟨hnone, hnames⟩]
      rfl
    · rw [if_neg fun h => hnone h.1, List.map_singleton, List.foldl_cons, List.foldl_nil,
        Table.insertIgnore, if_neg]
      rw [Table.get_foldl_insertIgnore]
      exact fun h => hnone (Option.or_eq_none_iff.1 h).1
  · rw [if_neg hnames, if_neg hnames, if_neg fun h => hnames h.2]

theorem forgetMembers_nil (db : Db) (T : Topic) : db.forgetMembers T [] = db := by
  have hacks : db.sqAcks.filter (fun r => !decide (r.topic = T ∧ r.node ∈ ([] : List WriterId))) =
      db.sqAcks := by
    apply Table.ext
    rw [Table.rows_filter, List.filter_eq_self]
    intro r _
    rw [Bool.not_eq_true', decide_eq_false_iff_not]
    exact fun h => nomatch h.2
  have hnodes : db.sqAckNodes.filter
      (fun r => !decide (r.topic = T ∧ r.node ∈ ([] : List WriterId))) = db.sqAckNodes := by
    apply Table.ext
    rw [Table.rows_filter, List.filter_eq_self]
    intro r _
    rw [Bool.not_eq_true', decide_eq_false_iff_not]
    exact fun h => nomatch h.2
  rw [forgetMembers, hacks, hnodes]

/-- The members are forgotten one by one. -/
theorem forgetMembers_append (db : Db) (T : Topic) (gone : List WriterId) (node : WriterId) :
    db.forgetMembers T (gone ++ [node]) = { db.forgetMembers T gone with
      sqAcks := (db.forgetMembers T gone).sqAcks.filter fun r =>
        !decide (r.topic = T ∧ r.node = node)
      sqAckNodes := (db.forgetMembers T gone).sqAckNodes.filter fun r =>
        !decide (r.topic = T ∧ r.node = node) } := by
  have hkeeps : ∀ (topic node' : String), (!decide (topic = T ∧ node' ∈ gone ++ [node])) =
      (!decide (topic = T ∧ node' = node) && !decide (topic = T ∧ node' ∈ gone)) := by
    intro topic node'
    rw [← Bool.not_or, ← Bool.decide_or]
    apply congrArg not
    apply decide_eq_decide.2
    rw [List.mem_append, List.mem_singleton, ← and_or_left, or_comm]
  have hacks : (db.sqAcks.filter fun r => !decide (r.topic = T ∧ r.node ∈ gone ++ [node])) =
      (db.sqAcks.filter fun r => !decide (r.topic = T ∧ r.node ∈ gone)).filter fun r =>
        !decide (r.topic = T ∧ r.node = node) := by
    apply Table.ext
    rw [Table.rows_filter, Table.rows_filter, Table.rows_filter, List.filter_filter]
    exact List.filter_congr fun r _ => hkeeps r.topic r.node
  have hnodes : (db.sqAckNodes.filter fun r => !decide (r.topic = T ∧ r.node ∈ gone ++ [node])) =
      (db.sqAckNodes.filter fun r => !decide (r.topic = T ∧ r.node ∈ gone)).filter fun r =>
        !decide (r.topic = T ∧ r.node = node) := by
    apply Table.ext
    rw [Table.rows_filter, Table.rows_filter, Table.rows_filter, List.filter_filter]
    exact List.filter_congr fun r _ => hkeeps r.topic r.node
  rw [forgetMembers, hacks, hnodes]
  rfl

theorem find_recorded (db : Db) (T : Topic) (node : WriterId) :
    ((db.sqAckNodes.rows.filter fun r => r.topic = T).find? fun r => decide (r.node = node)) =
      db.sqAckNodes.get (T, node) := by
  rw [List.find?_filter, Table.get]
  congr 1
  funext r
  simp only [decide_eq_true_iff]
  apply decide_eq_decide.2
  exact ⟨fun h => Prod.ext h.1 h.2, fun h => ⟨congrArg Prod.fst h, congrArg Prod.snd h⟩⟩

end Db

/-- Of pairs with different keys the one of a key is found. -/
theorem find_pairs {xs : List α} {f : α → Option β} {key : α → WriterId} (hnodup : (xs.map key).Nodup) :
    ((xs.filterMap fun x => (f x).map (key x, ·)).find? fun p => decide (p.1 = node)).map Prod.snd =
      (xs.find? fun x => decide (key x = node)).bind f := by
  induction xs with
  | nil => rfl
  | cons x xs ih =>
    rw [List.map_cons, List.nodup_cons] at hnodup
    have hrest := ih hnodup.2
    rw [List.filterMap_cons, List.find?_cons]
    by_cases hkey : key x = node
    · rw [decide_eq_true hkey]
      cases hf : f x with
      | some b =>
        rw [Option.map_some]
        dsimp only
        rw [List.find?_cons, decide_eq_true hkey]
        exact hf.symm
      | none =>
        have hnone : xs.find? (fun x => decide (key x = node)) = none := by
          apply List.find?_eq_none.2
          intro x' hx' heq
          apply hnodup.1
          rw [hkey, ← of_decide_eq_true heq]
          exact List.mem_map_of_mem hx'
        rw [hnone] at hrest
        exact hrest.trans hf.symm
    · rw [decide_eq_false hkey]
      cases f x with
      | some b =>
        rw [Option.map_some]
        dsimp only
        rw [List.find?_cons, decide_eq_false hkey]
        exact hrest
      | none => exact hrest

/-! The handler computes it. -/

/-- A transaction over coherent caches and a store, in which nothing else that matters changes. -/
structure AtStore (env : Env) (t₀ : Txn) (db : Db) (t : Txn) : Prop where
  ready : Ready env t
  db : t.core.db = db
  recoveries : t.core.recoveries = t₀.core.recoveries
  hlcState : t.core.hlcState = t₀.core.hlcState
  settle : t.settle = t₀.settle

namespace AtStore

variable {t₀ : Txn} {db : Db}

theorem query (h : AtStore env t₀ db t) (f : Db → α) (hQ : ∀ t', AtStore env t₀ db t' → Q (f db) t') :
    Returns E (Seqscribe.query f) t Q := by
  refine query_spec fun fault _ => ?_
  rw [h.db]
  exact hQ _ ⟨⟨h.ready.coherent⟩, h.db, h.recoveries, h.hlcState, h.settle⟩

/-- A write to a table that no cache shows. -/
theorem execute (h : AtStore env t₀ db t) (f : Db → Db) (hw : (f db).sqWriters = db.sqWriters)
    (hc : (f db).sqFinality = db.sqFinality) (hf : (f db).sqFloors = db.sqFloors)
    (hQ : ∀ t', AtStore env t₀ (f db) t' → Q () t') : Returns E (Seqscribe.execute f) t Q := by
  refine execute_spec fun fault => hQ _ ⟨⟨?_⟩, ?_, h.recoveries, h.hlcState, h.settle⟩
  · rw [← h.db] at hw hc hf
    exact (h.ready.of_db f hw hc hf).coherent
  · rw [← h.db]

theorem getStream (h : AtStore env t₀ db t) (hw : db.sqWriters.get (T, w) = some head)
    (hQ : ∀ t', AtStore env t₀ db t' → Q head t') : Returns E (getStream env T w) t Q := by
  have hhead : t.core.head env (T, w) = head := by
    rw [Core.head, h.db, hw]
    rfl
  refine .bind (.get ?_)
  cases hc : t.core.heads (T, w) with
  | some cached =>
    rw [← hhead, ← h.ready.coherent.heads _ _ hc] at hQ
    exact .pure (hQ t h)
  | none =>
    refine .bind (h.query _ fun t' h' => ?_)
    rw [hw]
    refine .bind (.modify rfl (.pure (hQ _ ⟨⟨?_⟩, h'.db, h'.recoveries, h'.hlcState, h'.settle⟩)))
    obtain ⟨h₁, h₂, h₃, h₄, h₅⟩ := h'.ready.coherent
    refine ⟨fun k cached hk => ?_, h₂, h₃, h₄, h₅⟩
    change Function.update t'.core.heads (T, w) (some head) k = some cached at hk
    by_cases heq : k = (T, w)
    · subst heq
      rw [Function.update_self] at hk
      rw [← Option.some.inj hk, Core.head, h'.db, hw]
      rfl
    · rw [Function.update_of_ne heq] at hk
      exact h₁ k cached hk

theorem floorOf (h : AtStore env t₀ db t)
    (hQ : ∀ t', AtStore env t₀ db t' → Q ((db.sqFloors.get (T, w)).map FloorRow.floor) t') :
    Returns E (floorOf T w) t Q := by
  refine .bind (.get ?_)
  cases hc : t.core.floors (T, w) with
  | some f =>
    rw [← h.db, ← h.ready.coherent.floors _ _ hc] at hQ
    exact .pure (hQ t (h.db ▸ h))
  | none =>
    refine .bind (h.query _ fun t' h' => ?_)
    refine .bind (.modify rfl (.pure (hQ _ ⟨⟨?_⟩, h'.db, h'.recoveries, h'.hlcState, h'.settle⟩)))
    obtain ⟨h₁, h₂, h₃, h₄, h₅⟩ := h'.ready.coherent
    refine ⟨h₁, h₂, fun k f hk => ?_, h₄, h₅⟩
    change Function.update t'.core.floors (T, w) _ k = some f at hk
    by_cases heq : k = (T, w)
    · subst heq
      rw [Function.update_self] at hk
      rw [← Option.some.inj hk, ← h'.db]
    · rw [Function.update_of_ne heq] at hk
      exact h₃ k f hk

/-! The plan. -/

/-- The newest entries that are held, stream by stream. -/
theorem writerNewestOf (h : AtStore env t₀ db t)
    (hQ : ∀ t', AtStore env t₀ db t' → Q (streams.filterMap fun s =>
      (if s.contigSeq = 0 then none
        else (db.sqLog.get (T, s.writer, s.contigSeq)).map (·.entry.hlc.l)).map (s.writer, ·)) t') :
    Returns E (writerNewestOf T streams) t Q := by
  let newest (s : StreamView) : Option (WriterId × Nat) :=
    (if s.contigSeq = 0 then none
      else (db.sqLog.get (T, s.writer, s.contigSeq)).map (·.entry.hlc.l)).map (s.writer, ·)
  have hread : ∀ out t', AtStore env t₀ db t' ∧
      out ++ [].filterMap newest = streams.filterMap newest → Q out t' := by
    rintro out t' ⟨h', hout⟩
    rw [← List.append_nil out]
    exact (show out ++ [] = _ from hout) ▸ hQ t' h'
  refine (Returns.foldlM (fun rest out t' => AtStore env t₀ db t' ∧
    out ++ rest.filterMap newest = streams.filterMap newest) ⟨h, rfl⟩ ?_).mono hread
  rintro s rest out t' ⟨h', hout⟩
  rw [List.filterMap_cons] at hout
  refine .ite (fun hzero => ?_) fun hzero => ?_
  · have hnone : newest s = none := congrArg (Option.map _) (if_pos hzero)
    rw [hnone] at hout
    exact .pure ⟨h', hout⟩
  · have hnewest : newest s =
        ((db.sqLog.get (T, s.writer, s.contigSeq)).map (·.entry.hlc.l)).map (s.writer, ·) :=
      congrArg (Option.map _) (if_neg hzero)
    rw [hnewest] at hout
    refine .bind (h'.query _ fun t'' h'' => ?_)
    cases hl : (db.sqLog.get (T, s.writer, s.contigSeq)).map (·.entry.hlc.l) with
    | none =>
      rw [hl] at hout
      exact .pure ⟨h'', hout⟩
    | some l =>
      rw [hl] at hout
      exact .pure ⟨h'', (List.append_assoc ..).trans hout⟩

theorem planMember {recorded : List AckNodeRow} {record : Option AckNodeRow}
    {newest : List (WriterId × Nat)} {l : Option Nat} (h : AtStore env t₀ db t)
    (hrecord : (recorded.find? fun r => decide (r.node = node)) = record)
    (hnewest : (newest.find? fun p => decide (p.1 = node)).map Prod.snd = l)
    (hQ : ∀ t', AtStore env t₀ (if record = none ∧ o.members.isSome ∧ !o.dryRun then
        { db with sqAckNodes := db.sqAckNodes.insertIgnore ⟨T, node, now, none, none⟩ } else db) t' →
      Q (plan.add o now node record l) t') :
    Returns E (planMember T o recorded newest now plan node) t Q := by
  rw [Seqscribe.planMember.eq_def]
  dsimp only
  rw [hrecord, hnewest]
  apply Returns.bind
  cases record with
  | some r =>
    rw [if_neg fun hnone => nomatch hnone.1] at hQ
    exact .pure (.pure (hQ t h))
  | none =>
    dsimp only
    refine .ite (fun hsome => .ite (fun hreal => ?_) fun hdry => .pure (.pure ?_)) fun hnone =>
      .pure (.pure ?_)
    · have hfirst : firstAtOf o none now = some now := if_pos hsome
      rw [if_pos ⟨rfl, hsome, hreal⟩] at hQ
      simp only [MemberPlan.add, MemberForgotten, memberEvidence, hfirst] at hQ
      exact .bind (h.execute _ rfl rfl rfl fun t' h' => .pure (.pure (hQ t' h')))
    · have hfirst : firstAtOf o none now = some now := if_pos hsome
      rw [if_neg fun hboth => hdry hboth.2.2] at hQ
      simp only [MemberPlan.add, MemberForgotten, memberEvidence, hfirst] at hQ
      exact hQ t h
    · have hfirst : firstAtOf o none now = none := if_neg hnone
      rw [if_neg fun hboth => hnone hboth.2.1] at hQ
      simp only [MemberPlan.add, MemberForgotten, memberEvidence, hfirst] at hQ
      exact hQ t h

theorem planMembers {R : StreamId → Option RecoveryTarget} (h : AtStore env t₀ db t)
    (hQ : ∀ t', AtStore env t₀ (db.nameMembers T o now
        (db.memberNames T o (db.ackStreams T R) self)) t' →
      Q (db.memberPlan T o now (db.ackStreams T R) self) t') :
    Returns E (planMembers T o (db.ackStreams T R) self now) t Q := by
  refine .bind (h.query _ fun t₁ h₁ => .bind (h₁.writerNewestOf fun t₂ h₂ => ?_))
  have hnewest : ∀ node, ((((db.ackStreams T R).filterMap fun s =>
      (if s.contigSeq = 0 then none else (db.sqLog.get (T, s.writer, s.contigSeq)).map
        (·.entry.hlc.l)).map (s.writer, ·)).find? fun p => decide (p.1 = node)).map Prod.snd) =
      db.newest T node := by
    intro node
    have hnodup : ((db.ackStreams T R).map StreamView.writer).Nodup := by
      rw [Db.ackStreams, List.map_map]
      exact db.nodup_writersOf T
    rw [find_pairs hnodup, Db.ackStreams, List.find?_map, Db.newest, ← db.find_writersOf T node,
      Option.bind_map]
    cases hfind : (db.writersOf T).find? ((fun s => decide (s.writer = node)) ∘ streamViewOf R T) with
    | none =>
      have hnone : (db.writersOf T).find? (fun w => decide (w.writer = node)) = none := hfind
      rw [hnone]
      rfl
    | some w =>
      have hsome : (db.writersOf T).find? (fun w => decide (w.writer = node)) = some w := hfind
      have hfound := List.find?_some hsome
      have hnode : w.writer = node := of_decide_eq_true hfound
      rw [hsome, Option.bind_some, Option.bind_some, ← hnode]
      rfl
  -- the nodes of the names already gone through are named
  have hfold : ∀ (names : List WriterId) (plan : MemberPlan) (done : List WriterId) (t : Txn),
      AtStore env t₀ (db.nameMembers T o now done) t →
      Returns E (names.foldlM (Seqscribe.planMember T o
        (db.sqAckNodes.rows.filter fun r => r.topic = T)
        ((db.ackStreams T R).filterMap fun s =>
          (if s.contigSeq = 0 then none else (db.sqLog.get (T, s.writer, s.contigSeq)).map
            (·.entry.hlc.l)).map (s.writer, ·)) now) plan) t fun plan' t' =>
        AtStore env t₀ (db.nameMembers T o now (done ++ names)) t' ∧
          plan' = names.foldl (fun plan node => plan.add o now node (db.sqAckNodes.get (T, node))
            (db.newest T node)) plan := by
    intro names
    induction names with
    | nil =>
      intro plan done t h
      rw [List.append_nil]
      exact .pure ⟨h, rfl⟩
    | cons node names ih =>
      intro plan done t h
      rw [List.foldlM_cons]
      apply Returns.bind
      refine h.planMember (db.find_recorded T node) (hnewest node) fun t' h' => ?_
      rw [List.append_cons]
      refine ih _ _ t' ?_
      rw [db.nameMembers_append]
      exact h'
  have hplan := hfold (db.memberNames T o (db.ackStreams T R) self) ⟨[], [], []⟩ [] t₂ (by
    rw [Db.nameMembers_nil]
    exact h₂)
  exact hplan.mono fun plan t' hdone => hdone.2 ▸ hQ t' hdone.1

/-! The streams. -/

theorem deleteStreamPrefix (h : AtStore env t₀ db t)
    (hQ : ∀ t', AtStore env t₀ { db with
      sqLog := db.sqLog.filter fun r => !(Store.inStream T w r && decide (r.entry.seq ≤ seq))
      sqAnnotations := db.sqAnnotations.filter fun a =>
        !decide (a.topic = T ∧ a.writer = w ∧ a.seq ≤ seq) } t' → Q () t') :
    Returns E (Store.deleteStreamPrefix T w seq) t Q := by
  refine .bind (h.execute _ rfl rfl rfl fun t₁ h₁ => ?_)
  refine .bind (h₁.execute _ rfl rfl rfl fun t₂ h₂ => ?_)
  refine .modify rfl (hQ _ ⟨⟨?_⟩, h₂.db, h₂.recoveries, h₂.hlcState, h₂.settle⟩)
  obtain ⟨hheads, hcerts, hfloors, hexposed, hcovered⟩ := h₂.ready.coherent
  exact ⟨hheads, hcerts, hfloors, hexposed, hcovered⟩

/-- The floor rises to a held row, in the store and in the cache. -/
theorem recordFloor (h : AtStore env t₀ db t) (hin : r ∈ db.sqLog.rows)
    (habove : db.floorSeq r.entry.topic r.entry.writer < r.entry.seq)
    (hQ : ∀ t', AtStore env t₀ { db with
      sqFloors := db.sqFloors.upsertWhere
        ⟨r.entry.topic, r.entry.writer, ⟨r.entry.seq, r.entry.chain⟩, now⟩
        fun f => decide (r.entry.seq > f.floor.seq) } t' → Q () t') :
    Returns E (recordFloor r.entry.topic r.entry.writer r.entry.seq now) t Q := by
  have hget : db.sqLog.get (r.entry.topic, r.entry.writer, r.entry.seq) = some r :=
    Table.get_of_mem hin
  refine .bind (h.query _ fun t₁ h₁ => .bind (execute_spec fun fault => .modify rfl (hQ _ ?_)))
  rw [hget]
  refine ⟨⟨?_⟩, by rw [h₁.db]; rfl, h₁.recoveries, h₁.hlcState, h₁.settle⟩
  obtain ⟨hheads, hcerts, hfloors, hexposed, hcovered⟩ := h₁.ready.coherent
  refine ⟨hheads, hcerts, fun k f hk => ?_, hexposed, hcovered⟩
  change f = ((t₁.core.db.sqFloors.upsertWhere _ _).get k).map FloorRow.floor
  change Function.update t₁.core.floors (r.entry.topic, r.entry.writer) _ k = some f at hk
  rw [Table.get_upsertWhere]
  by_cases heq : k = (r.entry.topic, r.entry.writer)
  · subst heq
    rw [Function.update_self] at hk
    rw [if_pos, ← Option.some.inj hk]
    · rfl
    · refine ⟨rfl, ?_⟩
      rw [h₁.db]
      rw [Db.floorSeq] at habove
      cases hf : db.sqFloors.get (r.entry.topic, r.entry.writer) with
      | none => rfl
      | some f =>
        rw [hf] at habove
        exact decide_eq_true habove
  · rw [Function.update_of_ne heq] at hk
    rw [if_neg fun h => heq h.1.symm]
    exact hfloors k f hk

/-- A row of the stream is the last of the prefix that goes. -/
theorem dropPrefix (h : AtStore env t₀ db t) (hrow : r ∈ db.held T w)
    (hQ : ∀ t', AtStore env t₀ (db.strikeTo now r) t' → Q () t') :
    Returns E (dropPrefix T w (db.floorSeq T w) r.entry.seq now) t Q := by
  obtain ⟨hin, hstream⟩ := Table.mem_selectBy.1 hrow
  obtain ⟨rfl, rfl⟩ := of_decide_eq_true hstream
  rw [Db.strikeTo] at hQ
  refine .ite (fun habove => ?_) fun hbelow => ?_
  · rw [if_pos habove] at hQ
    exact .bind (h.recordFloor hin habove fun t₁ h₁ => h₁.deleteStreamPrefix hQ)
  · rw [if_neg hbelow] at hQ
    exact h.deleteStreamPrefix hQ

theorem pruneAckedStream (h : AtStore env t₀ db t) (acc : AckedPrune) (s : StreamView)
    (hQ : ∀ t', AtStore env t₀ (Db.pruneStream T o now acks included cursorFloor (db, acc) s).1 t' →
      Q (Db.pruneStream T o now acks included cursorFloor (db, acc) s).2 t') :
    Returns E (pruneAckedStream T o acks included cursorFloor now acc s) t Q := by
  refine .bind (h.floorOf fun t₁ h₁ => ?_)
  have hprev : (((db.sqFloors.get (T, s.writer)).map FloorRow.floor).map Floor.seq).getD 0 =
      db.floorSeq T s.writer := by
    rw [Option.map_map]
    rfl
  rw [hprev]
  rw [Db.pruneStream] at hQ
  dsimp only at hQ ⊢
  refine .ite (fun hfork => ?_) fun hfork => ?_
  · rw [if_pos hfork] at hQ
    exact .pure (hQ t₁ h₁)
  rw [if_neg hfork] at hQ
  refine .ite (fun hrec => ?_) fun hrec => ?_
  · rw [if_pos hrec] at hQ
    exact .pure (hQ t₁ h₁)
  rw [if_neg hrec] at hQ
  refine .ite (fun hspent => ?_) fun hspent => ?_
  · rw [if_pos hspent] at hQ
    exact .pure (hQ t₁ h₁)
  rw [if_neg hspent] at hQ
  refine .bind (h₁.query _ fun t₂ h₂ => ?_)
  have hrows : prunablePrefix (max (min (ackFloorOf acks included s).ackFloor
      (if s.sealReason = some .retired then s.finalSeq.getD s.contigSeq else s.contigSeq - 1))
        (db.floorSeq T s.writer)) cursorFloor ((now : Int) - o.olderThanMs)
      ((db.sqLog.selectBy (Store.inStream T s.writer) (·.entry.seq)).take (acc.budget + 1)) =
      (db.deletable T o now acks included cursorFloor s).take (acc.budget + 1) :=
    List.take_takeWhile.symm
  rw [hrows]
  have hmem : ∀ r ∈ db.deletable T o now acks included cursorFloor s, r ∈ db.held T s.writer :=
    fun r hr => List.takeWhile_subset _ hr
  generalize db.deletable T o now acks included cursorFloor s = deletable at hQ hmem ⊢
  have htake : (deletable.take (acc.budget + 1)).take
      (min (deletable.take (acc.budget + 1)).length acc.budget) = deletable.take acc.budget := by
    rw [List.take_take, List.length_take, List.take_eq_take_iff]
    omega
  have hlength : min (deletable.take (acc.budget + 1)).length acc.budget =
      (deletable.take acc.budget).length := by
    rw [List.length_take, List.length_take]
    omega
  have hmore : decide ((deletable.take acc.budget).length <
      (deletable.take (acc.budget + 1)).length) = decide (acc.budget < deletable.length) := by
    apply decide_eq_decide.2
    rw [List.length_take, List.length_take]
    omega
  rw [htake, hlength, hmore]
  cases hlast : (deletable.take acc.budget).getLast? with
  | none =>
    rw [hlast] at hQ
    exact .pure (hQ t₂ h₂)
  | some last =>
    rw [hlast] at hQ
    dsimp only at hQ ⊢
    have hheld := hmem last (List.mem_of_mem_take (List.mem_of_getLast? hlast))
    refine .ite (fun hreal => .bind (h₂.dropPrefix hheld fun t₃ h₃ => .pure ?_)) fun hdry => .pure ?_
    · rw [if_neg (by simpa using hreal)] at hQ
      exact hQ t₃ h₃
    · rw [if_pos (by simpa using hdry)] at hQ
      exact hQ t₂ h₂

theorem forgetMembers {base : Db} {gone : List WriterId}
    (h : AtStore env t₀ (base.forgetMembers T gone) t) (nodes : List WriterId) :
    Returns E (forM nodes fun node => Store.ackForget T node) t fun _ t' =>
      AtStore env t₀ (base.forgetMembers T (gone ++ nodes)) t' := by
  induction nodes generalizing gone t with
  | nil =>
    rw [List.append_nil]
    exact .pure h
  | cons node nodes ih =>
    rw [List.forM_cons, List.append_cons]
    apply Returns.bind
    refine .bind (h.execute _ rfl rfl rfl fun t₁ h₁ => h₁.execute _ rfl rfl rfl fun t₂ h₂ => ih ?_)
    rw [base.forgetMembers_append]
    exact h₂

/-- The heads of the listed streams. -/
theorem heads (h : AtStore env t₀ db t) (T : Topic) :
    Returns E ((db.sqWriters.rows.filter fun w => w.topic = T).foldlM
      (fun (heads : List WriterRow) w => return heads ++ [← Seqscribe.getStream env T w.writer]) [])
      t fun heads t' => heads = (db.sqWriters.rows.filter fun w => w.topic = T) ∧
        AtStore env t₀ db t' := by
  have hfold : ∀ (ws : List WriterRow), (∀ w ∈ ws, w ∈ db.sqWriters.rows ∧ w.topic = T) →
      ∀ (heads : List WriterRow) (t : Txn), AtStore env t₀ db t → Returns E (ws.foldlM
        (fun (heads : List WriterRow) w => return heads ++ [← Seqscribe.getStream env T w.writer])
        heads) t fun heads' t' => heads' = heads ++ ws ∧ AtStore env t₀ db t' := by
    intro ws hws
    induction ws with
    | nil => exact fun heads t h => .pure ⟨(List.append_nil heads).symm, h⟩
    | cons w ws ih =>
      intro heads t h
      obtain ⟨hin, rfl⟩ := hws w List.mem_cons_self
      rw [List.foldlM_cons, List.append_cons]
      apply Returns.bind
      exact .bind (h.getStream (Table.get_of_mem hin) fun t' h' =>
        .pure (ih (fun w' hw' => hws w' (List.mem_cons_of_mem _ hw')) _ t' h'))
  apply hfold _ _ [] t h
  intro w hw
  rw [List.mem_filter, decide_eq_true_iff] at hw
  exact hw

/-- The streams of a call, one after the other. -/
theorem pruneStreams (h : AtStore env t₀ db t) (acc : AckedPrune) (streams : List StreamView) :
    Returns E (streams.foldlM (Seqscribe.pruneAckedStream T o acks included cursorFloor now) acc) t
      fun acc' t' =>
        let out := streams.foldl (Db.pruneStream T o now acks included cursorFloor) (db, acc)
        acc' = out.2 ∧ AtStore env t₀ out.1 t' := by
  induction streams generalizing db acc t with
  | nil => exact .pure ⟨rfl, h⟩
  | cons s streams ih =>
    rw [List.foldlM_cons, List.foldl_cons]
    exact .bind (h.pruneAckedStream acc s fun t' h' => ih h' _)

end AtStore

/-- Without a storage fault the item does what the store says. -/
theorem processPruneAcked_db (ht : Ready env t) (hacked : env.ackedRetention T = true) :
    Returns E (processPruneAcked env T o maxRows) t fun _ t' =>
      let out := t.core.db.pruneAcked T o t.ambient.now t.core.recoveries env.writerId maxRows
      Ready env t' ∧ t'.core.db = out.1 ∧ t'.core.recoveries = t.core.recoveries ∧
        t'.core.hlcState = t.core.hlcState ∧ t'.settle = t.settle ++ [.ackedPruned out.2] := by
  have h : AtStore env t t.core.db t := ⟨ht, rfl, rfl, rfl, rfl⟩
  have hknown : (env.topics T).isSome := by
    rw [Env.ackedRetention] at hacked
    cases hp : env.topics T with
    | none =>
      rw [hp] at hacked
      cases hacked
    | some p => rfl
  refine .bind (ackedRetentionRefusal_spec hknown fun refusal hrefusal => ?_)
  have hnone : refusal = none := by
    rw [hacked] at hrefusal
    exact Option.not_isSome_iff_eq_none.1 (by rw [hrefusal]; exact Bool.false_ne_true)
  subst hnone
  refine .bind (.bind (.get (.pure (.bind (h.query _ fun t₁ h₁ => .bind ?_)))))
  refine (h₁.heads T).mono fun heads t₂ hheads => ?_
  obtain ⟨rfl, h₂⟩ := hheads
  refine .bind (.get ?_)
  rw [h₂.recoveries]
  refine .bind (h₂.planMembers fun t₃ h₃ => .bind (h₃.query _ fun t₄ h₄ => .bind (.bind
    (h₄.query _ fun t₅ h₅ => .pure ?_))))
  refine .bind ((h₅.pruneStreams ⟨maxRows, 0, false, []⟩ _).mono fun acc t₆ hout => ?_)
  obtain ⟨rfl, h₆⟩ := hout
  obtain ⟨nodes, hnamed⟩ := t.core.db.nameMembers_eq T o t.ambient.now
    (t.core.db.memberNames T o (t.core.db.ackStreams T t.core.recoveries) env.writerId)
  have hacks : (t.core.db.nameMembers T o t.ambient.now (t.core.db.memberNames T o
      (t.core.db.ackStreams T t.core.recoveries) env.writerId)).sqAcks = t.core.db.sqAcks := by
    rw [hnamed]
  have hcursors : (t.core.db.nameMembers T o t.ambient.now (t.core.db.memberNames T o
      (t.core.db.ackStreams T t.core.recoveries) env.writerId)).sqCursors = t.core.db.sqCursors := by
    rw [hnamed]
  rw [hacks, hcursors] at h₆ ⊢
  rw [Db.pruneAcked]
  dsimp only
  refine .ite (fun hreal => .bind ?_) fun hdry => .modify rfl ?_
  · rw [if_neg (by simpa using hreal)]
    have hforget := h₆
    rw [← Db.forgetMembers_nil (Prod.fst _) T] at hforget
    refine (hforget.forgetMembers _).mono fun _ t₇ h₇ => .modify rfl ?_
    refine ⟨⟨?_⟩, h₇.db, h₇.recoveries, h₇.hlcState, congrArg (· ++ [_]) h₇.settle⟩
    obtain ⟨hheads, hcerts, hfloors, hexposed, hcovered⟩ := h₇.ready.coherent
    exact ⟨hheads, hcerts, hfloors, hexposed, hcovered⟩
  · rw [if_pos (by simpa using hdry)]
    refine ⟨⟨?_⟩, h₆.db, h₆.recoveries, h₆.hlcState, congrArg (· ++ [_]) h₆.settle⟩
    obtain ⟨hheads, hcerts, hfloors, hexposed, hcovered⟩ := h₆.ready.coherent
    exact ⟨hheads, hcerts, hfloors, hexposed, hcovered⟩

/-- One call of `pruneAcked`, flushed by itself. -/
def pruneAckedCall (T : Topic) (known : (env.topics T).isSome = true) (o : AckedPruneOptions)
    (maxRows now : Nat) : Input env :=
  .flush [({ now := now }, .pruneAcked T o maxRows known)] none

/-- A call ends, and does what the store says. -/
theorem step_pruneAcked (known : (env.topics T).isSome = true) (hcoherent : core.Coherent env)
    (hacked : env.ackedRetention T = true) (o : AckedPruneOptions) (maxRows now : Nat) :
    let out := core.db.pruneAcked T o now core.recoveries env.writerId maxRows
    let called := step env core (pruneAckedCall T known o maxRows now)
    called.core.Coherent env ∧
      called.core.db = { out.1 with metaHlc := some core.hlcState } ∧
      called.core.recoveries = core.recoveries ∧ called.core.hlcState = core.hlcState ∧
      called.settle = [.ackedPruned out.2] := by
  intro out called
  have hbatch : Returns (fun _ => False)
      (forM [(({ now := now }, .pruneAcked T o maxRows known) : Queued env)] (processQueued env))
      (Txn.start core none) fun _ t' => Ready env t' ∧ t'.core.db = out.1 ∧
        t'.core.recoveries = core.recoveries ∧ t'.core.hlcState = core.hlcState ∧
        t'.settle = [.ackedPruned out.2] :=
    .bind (.bind (.modify rfl ((processPruneAcked_db ⟨hcoherent⟩ hacked).mono fun _ t' h => .pure h)))
  have hbody : Runs (flushBody env [({ now := now }, .pruneAcked T o maxRows known)])
      (Txn.start core none) (fun _ t' => t'.core.Coherent env ∧
        t'.core.db = { out.1 with metaHlc := some core.hlcState } ∧
        t'.core.recoveries = core.recoveries ∧ t'.core.hlcState = core.hlcState ∧
        t'.settle = [.ackedPruned out.2]) fun _ _ => False := by
    apply Runs.bind
    apply Runs.mono hbatch
    · rintro _ t₁ ⟨hfault, hready, hdb, hrecoveries, hclock, hsettle⟩
      have hnone : t₁.fault = none := Option.not_isSome_iff_eq_none.1 (by rw [hfault]; simp [Txn.start])
      have hmeta : Returns (fun _ => False) (Store.metaSetHlc t₁.core.hlcState) t₁ fun _ t' =>
          t'.core = { t₁.core with db.metaHlc := some t₁.core.hlcState } ∧ t'.settle = t₁.settle :=
        execute_spec fun _ => ⟨rfl, rfl⟩
      obtain ⟨_, t₂, hrun, hnone', hcore, hsettle'⟩ := hmeta.ends hnone
      refine .bind (.get (.bind ?_))
      rw [Runs, hrun]
      refine .bind (.get ?_)
      rw [if_neg (by rw [hnone']; simp)]
      apply Runs.pure
      rw [hcore, hsettle']
      refine ⟨?_, ?_, hrecoveries, hclock, hsettle⟩
      · exact (hready.of_db (fun db => { db with metaHlc := some t₁.core.hlcState }) rfl rfl
          rfl).coherent
      · rw [← hdb, ← hclock]
    · rintro e t' (⟨hsome, -⟩ | hfalse)
      · cases hsome
      · exact hfalse
  cases hrun : flushBody env [({ now := now }, .pruneAcked T o maxRows known)] (Txn.start core none) with
  | ok _ t' =>
    have hcalled : called = { core := t'.core, settle := t'.settle, applied := t'.applied,
                              anomalies := t'.anomalies } := by
      change flush env _ none core = _
      rw [flush, if_neg (by simp), transaction, hrun]
    have hend := hbody.of_ok hrun
    rw [hcalled]
    exact hend
  | error e t' => exact (hbody.of_error hrun).elim

end Seqscribe
