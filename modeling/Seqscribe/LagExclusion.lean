import Mathlib.Data.List.Dedup
import Mathlib.Data.List.ReduceOption
import Seqscribe.AckedPlan
import Seqscribe.Host

namespace Seqscribe
set_option autoImplicit true

/-! What a call makes of its members. -/

section
variable (o : AckedPruneOptions) (now : Nat) (record : WriterId → Option AckNodeRow)
  (newest : WriterId → Option Nat)

/-- Every name gets its line; those without an exclusion are counted. -/
theorem foldl_add (names : List WriterId) (plan : MemberPlan) :
    let out := names.foldl (fun plan node => plan.add o now node (record node) (newest node)) plan
    let why := fun node =>
      memberExclusion o (memberEvidence o (record node) (newest node) now) now node
    out.members = plan.members ++
      names.map (fun node => ⟨node, (record node).bind AckNodeRow.seenAt, why node⟩) ∧
    (∀ m, m ∈ out.included ↔ m ∈ plan.included ∨ m ∈ names ∧ why m = none) ∧
    ∀ m, m ∈ out.forget ↔
      m ∈ plan.forget ∨ m ∈ names ∧ MemberForgotten o (record m) (newest m) now m := by
  induction names generalizing plan with
  | nil => exact ⟨(List.append_nil _).symm, by simp, by simp⟩
  | cons node names ih =>
    intro out why
    obtain ⟨hmembers, hincluded, hforget⟩ := ih (plan.add o now node (record node) (newest node))
    refine ⟨?_, fun m => (hincluded m).trans ?_, fun m => (hforget m).trans ?_⟩
    · rw [List.map_cons, List.append_cons]
      exact hmembers
    · have hadd : m ∈ (plan.add o now node (record node) (newest node)).included ↔
          m ∈ plan.included ∨ m = node ∧ why m = none := by
        rw [MemberPlan.add]
        dsimp only
        split
        · next hnone =>
          rw [List.mem_append, List.mem_singleton]
          exact or_congr_right ⟨fun h => ⟨h, h ▸ hnone⟩, fun h => h.1⟩
        · next hsome =>
          refine (or_iff_left ?_).symm
          rintro ⟨rfl, hnone⟩
          exact hsome hnone
      rw [hadd, List.mem_cons, or_assoc, or_and_right]
    · have hadd : m ∈ (plan.add o now node (record node) (newest node)).forget ↔
          m ∈ plan.forget ∨ m = node ∧ MemberForgotten o (record m) (newest m) now m := by
        rw [MemberPlan.add]
        dsimp only
        split
        · next hgone =>
          rw [List.mem_append, List.mem_singleton]
          exact or_congr_right ⟨fun h => ⟨h, h ▸ hgone⟩, fun h => h.1⟩
        · next hkept =>
          refine (or_iff_left ?_).symm
          rintro ⟨rfl, hgone⟩
          exact hkept hgone
      rw [hadd, List.mem_cons, or_assoc, or_and_right]

end

/-! The acknowledged floor. -/

/-- The most that may go of a stream. -/
def StreamView.cap (s : StreamView) : Nat :=
  if s.sealReason = some .retired then s.finalSeq.getD s.contigSeq else s.contigSeq

/-- What a node acknowledged of a stream. -/
def ackedAt (acks : List AckRow) (s : StreamView) (node : WriterId) : Nat :=
  ((acks.find? fun a => decide (a.node = node ∧ a.writer = s.writer)).map AckRow.seq).getD
    (if node = s.writer then s.cap else 0)

def AckFloor.lower (acked : WriterId → Nat) (out : AckFloor) (node : WriterId) : AckFloor :=
  if acked node < out.ackFloor then ⟨acked node, some node⟩ else out

theorem ackFloorOf_eq (acks : List AckRow) (included : List WriterId) (s : StreamView) :
    ackFloorOf acks included s = included.foldl (.lower (ackedAt acks s)) ⟨s.cap, none⟩ := rfl

theorem le_foldl_lower (acked : WriterId → Nat) (nodes : List WriterId) (out : AckFloor) :
    b ≤ (nodes.foldl (.lower acked) out).ackFloor ↔ b ≤ out.ackFloor ∧ ∀ m ∈ nodes, b ≤ acked m := by
  induction nodes generalizing out with
  | nil => exact (and_iff_left fun _ hm => nomatch hm).symm
  | cons node nodes ih =>
    have hlower : b ≤ (out.lower acked node).ackFloor ↔ b ≤ out.ackFloor ∧ b ≤ acked node := by
      rw [AckFloor.lower]
      split
      · next hlt => exact ⟨fun h => ⟨h.trans (Nat.le_of_lt hlt), h⟩, fun h => h.2⟩
      · next hge => exact ⟨fun h => ⟨h, h.trans (Nat.le_of_not_lt hge)⟩, fun h => h.1⟩
    rw [List.foldl_cons, ih, hlower, List.forall_mem_cons, and_assoc]

/-- The acknowledged floor of a stream is the least that a counted member has. -/
theorem le_ackFloorOf : b ≤ (ackFloorOf acks included s).ackFloor ↔
    b ≤ s.cap ∧ ∀ m ∈ included, b ≤ ackedAt acks s m :=
  le_foldl_lower ..

/-- A stream is pinned by a counted member only. -/
theorem pinnedBy_mem (h : (ackFloorOf acks included s).pinnedBy = some m) : m ∈ included := by
  have hfold : ∀ (acked : WriterId → Nat) (nodes : List WriterId) (out : AckFloor),
      (nodes.foldl (.lower acked) out).pinnedBy = some m → out.pinnedBy = some m ∨ m ∈ nodes := by
    intro acked nodes
    induction nodes with
    | nil => exact fun out h => .inl h
    | cons node nodes ih =>
      intro out h
      rcases ih _ h with h | h
      · rw [AckFloor.lower] at h
        split at h
        · rw [Option.some.inj h]
          exact .inr List.mem_cons_self
        · exact .inl h
      · exact .inr (List.mem_cons_of_mem _ h)
  rw [ackFloorOf_eq] at h
  exact (hfold _ _ _ h).resolve_left (fun h => nomatch h)

namespace Db

variable {db : Db} {o : AckedPruneOptions} {R : StreamId → Option RecoveryTarget} {cf : Nat}

/-- Why a call does not count a node, if it is a member. -/
def exclusionAt (T : Topic) (o : AckedPruneOptions) (now : Nat) (db : Db) (m : WriterId) :
    Option MemberExclusion :=
  memberExclusion o (memberEvidence o (db.sqAckNodes.get (T, m)) (db.newest T m) now) now m

def ForgottenAt (T : Topic) (o : AckedPruneOptions) (now : Nat) (db : Db) (m : WriterId) : Prop :=
  MemberForgotten o (db.sqAckNodes.get (T, m)) (db.newest T m) now m

theorem members_memberPlan (db : Db) (T : Topic) (o : AckedPruneOptions) (now : Nat)
    (streams : List StreamView) (self : WriterId) :
    (db.memberPlan T o now streams self).members = (db.memberNames T o streams self).map fun node =>
      ⟨node, (db.sqAckNodes.get (T, node)).bind AckNodeRow.seenAt, db.exclusionAt T o now node⟩ := by
  obtain ⟨hmembers, -, -⟩ := foldl_add o now (fun node => db.sqAckNodes.get (T, node))
    (db.newest T) (db.memberNames T o streams self) ⟨[], [], []⟩
  exact hmembers

theorem mem_included : m ∈ (db.memberPlan T o now streams self).included ↔
    m ∈ db.memberNames T o streams self ∧ db.exclusionAt T o now m = none := by
  obtain ⟨-, hincluded, -⟩ := foldl_add o now (fun node => db.sqAckNodes.get (T, node))
    (db.newest T) (db.memberNames T o streams self) ⟨[], [], []⟩
  exact (hincluded m).trans (or_iff_right (fun h => nomatch h))

theorem mem_forget : m ∈ (db.memberPlan T o now streams self).forget ↔
    m ∈ db.memberNames T o streams self ∧ db.ForgottenAt T o now m := by
  obtain ⟨-, -, hforget⟩ := foldl_add o now (fun node => db.sqAckNodes.get (T, node))
    (db.newest T) (db.memberNames T o streams self) ⟨[], [], []⟩
  exact (hforget m).trans (or_iff_right (fun h => nomatch h))

theorem mem_memberNames_of_explicit (ho : o.members = some members) :
    m ∈ db.memberNames T o streams self ↔ m ∈ members ∧ m ≠ self := by
  rw [memberNames, ho, List.mem_insertionSort, List.mem_filter, List.mem_dedup, decide_eq_true_iff]

/-! What a call leaves in the store. -/

/-- What pruning the streams leaves alone, and that it only deletes rows. -/
structure Thinner (db db' : Db) : Prop where
  writers : db'.sqWriters = db.sqWriters
  acks : db'.sqAcks = db.sqAcks
  ackNodes : db'.sqAckNodes = db.sqAckNodes
  cursors : db'.sqCursors = db.sqCursors
  log : ∀ id r, db'.sqLog.get id = some r → db.sqLog.get id = some r

theorem Thinner.refl (db : Db) : Thinner db db := ⟨rfl, rfl, rfl, rfl, fun _ _ h => h⟩

theorem Thinner.trans (h : Thinner db db') (h' : Thinner db' db'') : Thinner db db'' :=
  ⟨h'.writers.trans h.writers, h'.acks.trans h.acks, h'.ackNodes.trans h.ackNodes,
    h'.cursors.trans h.cursors, fun id r hr => h.log id r (h'.log id r hr)⟩

theorem thinner_strikeTo (db : Db) (now : Nat) (r : LogRow) : Thinner db (db.strikeTo now r) := by
  refine ⟨rfl, rfl, rfl, rfl, fun id r' hr' => ?_⟩
  rw [strikeTo] at hr'
  dsimp only at hr'
  rw [Table.get_filter] at hr'
  exact (Option.filter_eq_some_iff.1 hr').1

theorem thinner_pruneStream (acc : AckedPrune) :
    Thinner db (pruneStream T o now acks included cf (db, acc) s).1 := by
  rw [pruneStream]
  split
  · exact .refl db
  split
  · exact .refl db
  split
  · exact .refl db
  dsimp only
  split
  · exact .refl db
  dsimp only
  split
  · exact .refl db
  · exact thinner_strikeTo ..

theorem thinner_pruneStreams (streams : List StreamView) (acc : AckedPrune) :
    Thinner db (streams.foldl (pruneStream T o now acks included cf) (db, acc)).1 := by
  induction streams generalizing db acc with
  | nil => exact .refl db
  | cons s streams ih => exact (thinner_pruneStream acc).trans (ih _)

/-- Every stream gets a line, with the member that pins it. -/
theorem writers_pruneStream (T : Topic) (o : AckedPruneOptions) (now : Nat) (acks : List AckRow)
    (included : List WriterId) (cf : Nat) (out : Db × AckedPrune) (s : StreamView) :
    ∃ x, (pruneStream T o now acks included cf out s).2.writers = out.2.writers ++ [x] ∧
      x.pinnedBy = (ackFloorOf acks included s).pinnedBy := by
  rw [pruneStream]
  split
  · exact ⟨_, rfl, rfl⟩
  split
  · exact ⟨_, rfl, rfl⟩
  split
  · exact ⟨_, rfl, rfl⟩
  dsimp only
  split
  · exact ⟨_, rfl, rfl⟩
  · exact ⟨_, rfl, rfl⟩

/-- What a call leaves recorded of a node. -/
theorem get_ackNodes_pruneAcked (db : Db) (T : Topic) (o : AckedPruneOptions) (now : Nat)
    (R : StreamId → Option RecoveryTarget) (self : WriterId) (maxRows : Nat) (m : WriterId) :
    (db.pruneAcked T o now R self maxRows).1.sqAckNodes.get (T, m) =
      if o.dryRun then db.sqAckNodes.get (T, m)
      else if m ∈ (db.memberPlan T o now (db.ackStreams T R) self).forget then none
      else if o.members.isSome ∧ m ∈ db.memberNames T o (db.ackStreams T R) self ∧
        db.sqAckNodes.get (T, m) = none then some ⟨T, m, now, none, none⟩
      else db.sqAckNodes.get (T, m) := by
  have hthin (named : Db) (included : List WriterId) : ((db.ackStreams T R).foldl
      (pruneStream T o now (db.sqAcks.rows.filter fun r => r.topic = T) included (db.cursorFloor T))
      (named, ⟨maxRows, 0, false, []⟩)).1.sqAckNodes = named.sqAckNodes :=
    (thinner_pruneStreams _ _).ackNodes
  have hrow : ∀ names : List WriterId,
      ((names.map fun node => (⟨T, node, now, none, none⟩ : AckNodeRow)).find? fun r =>
        decide (r.id = (T, m))) = if m ∈ names then some ⟨T, m, now, none, none⟩ else none := by
    intro names
    induction names with
    | nil => rfl
    | cons node names ih =>
      rw [List.map_cons, List.find?_cons]
      by_cases hnode : node = m
      · have hid : AckNodeRow.id ⟨T, node, now, none, none⟩ = (T, m) := by rw [← hnode]; rfl
        rw [decide_eq_true hid, if_pos (hnode ▸ List.mem_cons_self), hnode]
      · have hid : AckNodeRow.id ⟨T, node, now, none, none⟩ ≠ (T, m) :=
          fun h => hnode (congrArg Prod.snd h)
        rw [decide_eq_false hid, ih]
        simp only [List.mem_cons, Ne.symm hnode, false_or]
  have hnamed : (db.nameMembers T o now (db.memberNames T o (db.ackStreams T R) self)).sqAckNodes.get
      (T, m) = if (o.members.isSome ∧ !o.dryRun) ∧
        m ∈ db.memberNames T o (db.ackStreams T R) self ∧ db.sqAckNodes.get (T, m) = none then
          some ⟨T, m, now, none, none⟩ else db.sqAckNodes.get (T, m) := by
    rw [nameMembers]
    split
    · next hact =>
      rw [Table.get_foldl_insertIgnore, hrow]
      cases db.sqAckNodes.get (T, m) with
      | none => simp only [Option.none_or, hact, true_and, and_true]
      | some r => rw [Option.some_or, if_neg fun h => by cases h.2.2]
    · next hact => rw [if_neg fun h => hact h.1]
  rw [pruneAcked]
  dsimp only
  by_cases hdry : o.dryRun = true
  · rw [if_pos hdry, if_pos hdry, hthin, hnamed, if_neg]
    exact fun h => by simp [hdry] at h
  · rw [if_neg hdry, if_neg hdry, forgetMembers, Table.get_filter, hthin, hnamed]
    have hreal : (o.members.isSome ∧ !o.dryRun) = (o.members.isSome = true) := by simp [hdry]
    have hkey : ∀ r, (if o.members.isSome ∧ m ∈ db.memberNames T o (db.ackStreams T R) self ∧
        db.sqAckNodes.get (T, m) = none then some (⟨T, m, now, none, none⟩ : AckNodeRow)
        else db.sqAckNodes.get (T, m)) = some r → r.topic = T ∧ r.node = m := by
      intro r hr
      split at hr
      · rw [← Option.some.inj hr]
        exact ⟨rfl, rfl⟩
      · have hid := Table.key_of_get hr
        exact ⟨congrArg Prod.fst hid, congrArg Prod.snd hid⟩
    simp only [hreal]
    generalize (if o.members.isSome ∧ m ∈ db.memberNames T o (db.ackStreams T R) self ∧
      db.sqAckNodes.get (T, m) = none then some (⟨T, m, now, none, none⟩ : AckNodeRow)
      else db.sqAckNodes.get (T, m)) = record at hkey ⊢
    cases record with
    | none => rw [ite_self]; rfl
    | some r =>
      obtain ⟨htopic, hnode⟩ := hkey r rfl
      rw [Option.filter_some, htopic, hnode]
      by_cases hgone : m ∈ (db.memberPlan T o now (db.ackStreams T R) self).forget
      · rw [if_pos hgone, if_neg (by simp [hgone])]
      · rw [if_neg hgone, if_pos (by simp [hgone])]

/-- Rows that are held after a call were held before. -/
theorem thinner_pruneAcked (db : Db) (T : Topic) (o : AckedPruneOptions) (now : Nat)
    (R : StreamId → Option RecoveryTarget) (self : WriterId) (maxRows : Nat) :
    (db.pruneAcked T o now R self maxRows).1.sqWriters = db.sqWriters ∧
      ∀ id r, (db.pruneAcked T o now R self maxRows).1.sqLog.get id = some r →
        db.sqLog.get id = some r := by
  obtain ⟨nodes, hnamed⟩ := db.nameMembers_eq T o now
    (db.memberNames T o (db.ackStreams T R) self)
  have hthin (included : List WriterId) : Thinner (db.nameMembers T o now
      (db.memberNames T o (db.ackStreams T R) self)) ((db.ackStreams T R).foldl
      (pruneStream T o now (db.sqAcks.rows.filter fun r => r.topic = T) included (db.cursorFloor T))
      (_, ⟨maxRows, 0, false, []⟩)).1 := thinner_pruneStreams _ _
  rw [hnamed] at hthin
  rw [pruneAcked, hnamed]
  dsimp only
  split
  · exact ⟨(hthin _).writers, (hthin _).log⟩
  · exact ⟨(hthin _).writers, (hthin _).log⟩

theorem newest_pruneAcked (h : (db.pruneAcked T o now R self maxRows).1.newest T m = some l) :
    db.newest T m = some l := by
  obtain ⟨hwriters, hlog⟩ := db.thinner_pruneAcked T o now R self maxRows
  rw [newest, hwriters] at h
  rw [newest]
  cases hhead : db.sqWriters.get (T, m) with
  | none =>
    rw [hhead] at h
    cases h
  | some head =>
    rw [hhead, Option.bind_some] at h
    rw [Option.bind_some]
    split at h
    · cases h
    · next hpos =>
      rw [if_neg hpos]
      obtain ⟨r, hr, hl⟩ := Option.map_eq_some_iff.1 h
      rw [hlog _ _ hr]
      exact congrArg some hl

end Db

/-! A member that has been silent. -/

/-- Every time at which the node showed itself is more than `ms` ago. -/
structure Silent (o : AckedPruneOptions) (ms : Nat) (record : Option AckNodeRow)
    (newest : Option Nat) (now : Nat) : Prop where
  seen : ∀ t, record.bind AckNodeRow.seenAt = some t → t + ms < now
  first : ∀ t, firstAtOf o record now = some t → t + ms < now
  wrote : ∀ t, newest = some t → t + ms < now

/-- The newest of the times decides. -/
theorem silent_iff : Silent o ms record newest now ↔
    memberEvidence o record newest now = none ∨
      silentFor (memberEvidence o record newest now) now ms = true := by
  have hmem : ∀ t, t ∈ [record.bind AckNodeRow.seenAt, firstAtOf o record now, newest].reduceOption ↔
      record.bind AckNodeRow.seenAt = some t ∨ firstAtOf o record now = some t ∨ newest = some t := by
    intro t
    rw [List.reduceOption_mem_iff, List.mem_cons, List.mem_cons, List.mem_singleton, eq_comm,
      eq_comm (a := some t), eq_comm (a := some t)]
  have hall : Silent o ms record newest now ↔
      ∀ t ∈ [record.bind AckNodeRow.seenAt, firstAtOf o record now, newest].reduceOption,
        t + ms < now := by
    constructor
    · rintro ⟨hseen, hfirst, hwrote⟩ t ht
      rcases (hmem t).1 ht with h | h | h
      · exact hseen t h
      · exact hfirst t h
      · exact hwrote t h
    · intro h
      exact ⟨fun t ht => h t ((hmem t).2 (.inl ht)), fun t ht => h t ((hmem t).2 (.inr (.inl ht))),
        fun t ht => h t ((hmem t).2 (.inr (.inr ht)))⟩
  rw [hall, memberEvidence, evidenceOf]
  generalize [record.bind AckNodeRow.seenAt, firstAtOf o record now, newest].reduceOption = times
  cases hmax : times.max? with
  | none =>
    rw [List.max?_eq_none_iff.1 hmax]
    exact iff_of_true (fun t ht => by cases ht) (.inl rfl)
  | some e =>
    obtain ⟨hin, hle⟩ := List.max?_eq_some_iff.1 hmax
    rw [silentFor, Option.any_some, decide_eq_true_iff]
    constructor
    · exact fun h => .inr (h e hin)
    · intro h t ht
      have hlast := h.resolve_left (fun h => by cases h)
      have := hle t ht
      omega

theorem memberEvidence_ne_none (h : record.isSome) : memberEvidence o record newest now ≠ none := by
  intro hnone
  obtain ⟨r, rfl⟩ := Option.isSome_iff_exists.1 h
  have hin : r.firstAt ∈ [r.seenAt, some r.firstAt, newest].reduceOption :=
    List.reduceOption_mem_iff.2 (List.mem_cons_of_mem _ List.mem_cons_self)
  have hnil : [r.seenAt, some r.firstAt, newest].reduceOption = [] := List.max?_eq_none_iff.1 hnone
  rw [hnil] at hin
  cases hin

theorem exclusion_eq_lagging : memberExclusion o (memberEvidence o record newest now) now m =
    some .lagging ↔ m ∉ o.excludeMembers ∧ Silent o o.maxLagMs record newest now := by
  rw [memberExclusion, silent_iff]
  split
  · next hin => exact iff_of_false (fun h => nomatch h) fun h => h.1 hin
  · next hout =>
    split
    · next hlag => exact iff_of_true rfl ⟨hout, hlag⟩
    · next hseen => exact iff_of_false (fun h => nomatch h) fun h => hseen h.2

/-- A node that the host names and that was never recorded is not silent. -/
theorem Silent.recorded (h : Silent o ms record newest now) :
    record.isSome ∨ o.members = none := by
  cases record with
  | some r => exact .inl rfl
  | none =>
    cases hnames : o.members with
    | none => exact .inr rfl
    | some members =>
      have hfirst : firstAtOf o none now = some now := by rw [firstAtOf, hnames]; rfl
      have := h.first now hfirst
      omega

/-- Without new evidence a silent node stays silent. -/
theorem Silent.mono (h : Silent o ms record newest now) (hnow : now ≤ now')
    (hrecord : record' = record ∨ record' = none ∧ o.members = none)
    (hnewest : ∀ l, newest' = some l → ∃ l₀, newest = some l₀ ∧ l ≤ l₀) :
    Silent o ms record' newest' now' := by
  have hwrote : ∀ t, newest' = some t → t + ms < now' := by
    intro t ht
    obtain ⟨l₀, hl₀, hle⟩ := hnewest t ht
    have := h.wrote l₀ hl₀
    omega
  rcases hrecord with rfl | ⟨rfl, hnames⟩
  · refine ⟨fun t ht => (h.seen t ht).trans_le hnow, fun t ht => ?_, hwrote⟩
    apply Nat.lt_of_lt_of_le _ hnow
    cases record' with
    | some r => exact h.first t ht
    | none =>
      have hnone := h.recorded.resolve_left (by simp)
      rw [firstAtOf, hnone] at ht
      cases ht
  · refine ⟨fun t ht => (nomatch ht), fun t ht => ?_, hwrote⟩
    rw [firstAtOf, hnames] at ht
    cases ht

/-! Calls one after the other. -/

/-- A call with the state it finds. -/
structure PruneCall where
  now : Nat
  maxRows : Nat
  core : Core

/-- Nothing newer of the node: its record is the same, and no entry of its own is newer. -/
structure NoEvidence (T : Topic) (m : WriterId) (db db' : Db) : Prop where
  record : db'.sqAckNodes.get (T, m) = db.sqAckNodes.get (T, m)
  newest : ∀ l, db'.newest T m = some l → ∃ l₀, db.newest T m = some l₀ ∧ l ≤ l₀

section
variable (env : Env) (T : Topic) (known : (env.topics T).isSome = true) (o : AckedPruneOptions)
  (m : WriterId)

def PruneCall.outcome (c : PruneCall) : Outcome :=
  step env c.core (pruneAckedCall T known o c.maxRows c.now)

/-- Calls with the same options, and between them whatever gives no evidence of the node. -/
inductive Calls : Core → List PruneCall → Prop where
  | nil (core : Core) : Calls core []
  | call (now maxRows : Nat) (core : Core)
      (h : Calls (step env core (pruneAckedCall T known o maxRows now)).core cs) :
      Calls core (⟨now, maxRows, core⟩ :: cs)
  | other (i : Input env) (hquiet : NoEvidence T m core.db (step env core i).core.db)
      (h : Calls (step env core i).core cs) : Calls core cs

/-- The call excludes the node as lagging. -/
def PruneCall.Lagging (c : PruneCall) : Prop :=
  ∃ r, (c.outcome env T known o).settle = [.ackedPruned r] ∧
    ∃ x ∈ r.members, x.node = m ∧ x.excluded = some .lagging

/-- The call does not count the node, and so no stream is pinned by it. -/
def PruneCall.LeavesOut (c : PruneCall) : Prop :=
  ∀ r, (c.outcome env T known o).settle = [.ackedPruned r] →
    (∀ x ∈ r.members, x.node = m → x.excluded = some .lagging) ∧
      ∀ x ∈ r.writers, x.pinnedBy ≠ some m

/-- The host names the node, and the call finds it silent for so long that it forgets it. -/
structure PruneCall.ForgetsNamed (c : PruneCall) : Prop where
  real : o.dryRun = false
  named : ∃ members, o.members = some members ∧ m ∈ members ∧ m ≠ env.writerId
  kept : m ∉ o.excludeMembers
  recorded : (c.core.db.sqAckNodes.get (T, m)).isSome
  silent : Silent o (o.maxLagMs * ACK_FORGET_LAG_MULTIPLE) (c.core.db.sqAckNodes.get (T, m))
    (c.core.db.newest T m) c.now

end

section
variable {env : Env} {T : Topic} {known : (env.topics T).isSome = true} {o : AckedPruneOptions}
  {m : WriterId} {core : Core}

/-- The node is silent, and the host does not exclude it. -/
def Stale (T : Topic) (o : AckedPruneOptions) (m : WriterId) (now : Nat) (core : Core) : Prop :=
  m ∉ o.excludeMembers ∧
    Silent o o.maxLagMs (core.db.sqAckNodes.get (T, m)) (core.db.newest T m) now

theorem exclusionAt_of_stale (h : Stale T o m now core) :
    core.db.exclusionAt T o now m = some .lagging :=
  exclusion_eq_lagging.2 h

theorem Stale.other (h : Stale T o m now core) (hquiet : NoEvidence T m core.db core'.db)
    (hnow : now ≤ now') : Stale T o m now' core' :=
  ⟨h.1, h.2.mono hnow (.inl hquiet.record) hquiet.newest⟩

theorem Stale.later (h : Stale T o m now core) (hnow : now ≤ now') : Stale T o m now' core :=
  h.other ⟨rfl, fun l hl => ⟨l, hl, Nat.le_refl l⟩⟩ hnow

theorem newest_called (hcoherent : core.Coherent env) (hacked : env.ackedRetention T = true)
    (h : (step env core (pruneAckedCall T known o maxRows now)).core.db.newest T m = some l) :
    core.db.newest T m = some l := by
  obtain ⟨-, hdb, -⟩ := step_pruneAcked known hcoherent hacked o maxRows now
  rw [hdb] at h
  exact Db.newest_pruneAcked h

theorem record_called (hcoherent : core.Coherent env) (hacked : env.ackedRetention T = true) :
    (step env core (pruneAckedCall T known o maxRows now)).core.db.sqAckNodes.get (T, m) =
      (core.db.pruneAcked T o now core.recoveries env.writerId maxRows).1.sqAckNodes.get (T, m) := by
  obtain ⟨-, hdb, -⟩ := step_pruneAcked known hcoherent hacked o maxRows now
  rw [hdb]

/-- A call keeps a silent node silent, unless it forgets one that the host names. -/
theorem Stale.call (h : Stale T o m now core) (hcoherent : core.Coherent env)
    (hacked : env.ackedRetention T = true)
    (hkeeps : ¬ PruneCall.ForgetsNamed env T o m ⟨now, maxRows, core⟩) :
    Stale T o m now (step env core (pruneAckedCall T known o maxRows now)).core := by
  refine ⟨h.1, h.2.mono (Nat.le_refl now) ?_ fun l hl =>
    ⟨l, newest_called hcoherent hacked hl, Nat.le_refl l⟩⟩
  rw [record_called hcoherent hacked, Db.get_ackNodes_pruneAcked]
  split
  · exact .inl rfl
  next hreal =>
  split
  · next hgone =>
    obtain ⟨hname, hrecorded, hlong⟩ := Db.mem_forget.1 hgone
    refine .inr ⟨rfl, ?_⟩
    cases hnames : o.members with
    | none => rfl
    | some members =>
      exfalso
      obtain ⟨hin, hself⟩ := (Db.mem_memberNames_of_explicit hnames).1 hname
      refine hkeeps ⟨by simpa using hreal, ⟨members, hnames, hin, hself⟩, h.1, hrecorded, ?_⟩
      apply silent_iff.2
      refine .inr (hlong.resolve_left fun hexcluded => ?_)
      have hlagging := exclusionAt_of_stale h
      rw [Db.exclusionAt, hexcluded] at hlagging
      cases hlagging
  split
  · next hnew =>
    rcases h.2.recorded with hsome | hnone
    · rw [hnew.2.2] at hsome
      cases hsome
    · rw [hnone] at hnew
      cases hnew.1
  · exact .inl rfl

/-- What a call reports of a node. -/
theorem mem_report {c : PruneCall} (hcoherent : c.core.Coherent env)
    (hacked : env.ackedRetention T = true)
    (hr : (c.outcome env T known o).settle = [.ackedPruned r]) (hnode : x.node = m) :
    x ∈ r.members ↔
      m ∈ c.core.db.memberNames T o (c.core.db.ackStreams T c.core.recoveries) env.writerId ∧
        x = ⟨m, (c.core.db.sqAckNodes.get (T, m)).bind AckNodeRow.seenAt,
          c.core.db.exclusionAt T o c.now m⟩ := by
  obtain ⟨-, -, -, -, hsettle⟩ := step_pruneAcked known hcoherent hacked o c.maxRows c.now
  rw [PruneCall.outcome, hsettle] at hr
  have heq : _ = r := Settled.ackedPruned.inj (List.cons.inj hr).1
  rw [← heq, Db.pruneAcked]
  dsimp only
  rw [Db.members_memberPlan, List.mem_map]
  constructor
  · rintro ⟨node, hin, rfl⟩
    obtain rfl : node = m := hnode
    exact ⟨hin, rfl⟩
  · rintro ⟨hin, rfl⟩
    exact ⟨m, hin, rfl⟩

theorem stale_of_lagging {c : PruneCall} (hcoherent : c.core.Coherent env)
    (hacked : env.ackedRetention T = true) (h : c.Lagging env T known o m) :
    Stale T o m c.now c.core := by
  obtain ⟨r, hr, x, hx, hnode, hlag⟩ := h
  obtain ⟨-, rfl⟩ := (mem_report hcoherent hacked hr hnode).1 hx
  exact exclusion_eq_lagging.1 hlag

/-- The streams of a report are pinned by counted members. -/
theorem pinnedBy_report {db : Db} {R : StreamId → Option RecoveryTarget}
    (hx : x ∈ (db.pruneAcked T o now R self maxRows).2.writers) (hpin : x.pinnedBy = some m) :
    m ∈ (db.memberPlan T o now (db.ackStreams T R) self).included := by
  have hfold : ∀ (streams : List StreamView) (out : Db × AckedPrune) {acks included cf},
      x ∈ (streams.foldl (Db.pruneStream T o now acks included cf) out).2.writers →
        x ∈ out.2.writers ∨ m ∈ included := by
    intro streams
    induction streams with
    | nil => exact fun out _ _ _ h => .inl h
    | cons s streams ih =>
      intro out acks included cf h
      obtain ⟨line, hlines, hline⟩ := Db.writers_pruneStream T o now acks included cf out s
      rcases ih _ h with h | h
      · rw [hlines, List.mem_append, List.mem_singleton] at h
        rcases h with h | rfl
        · exact .inl h
        · exact .inr (pinnedBy_mem (hline.symm.trans hpin))
      · exact .inr h
  exact (hfold _ _ hx).resolve_left (fun h => nomatch h)

theorem Stale.leavesOut {c : PruneCall} (h : Stale T o m c.now c.core)
    (hcoherent : c.core.Coherent env) (hacked : env.ackedRetention T = true) :
    c.LeavesOut env T known o m := by
  intro r hr
  have hlag := exclusionAt_of_stale h
  constructor
  · intro x hx hnode
    obtain ⟨-, rfl⟩ := (mem_report hcoherent hacked hr hnode).1 hx
    exact hlag
  · intro x hx hpin
    obtain ⟨-, -, -, -, hsettle⟩ := step_pruneAcked known hcoherent hacked o c.maxRows c.now
    rw [PruneCall.outcome, hsettle] at hr
    have heq : _ = r := Settled.ackedPruned.inj (List.cons.inj hr).1
    rw [← heq] at hx
    have hcounted := (Db.mem_included.1 (pinnedBy_report hx hpin)).2
    rw [hlag] at hcounted
    cases hcounted

/-- What is silent for longer is silent. -/
theorem Silent.shorter (h : Silent o ms record newest now) (hms : ms' ≤ ms) :
    Silent o ms' record newest now :=
  ⟨fun t ht => (Nat.add_le_add_left hms t).trans_lt (h.seen t ht),
    fun t ht => (Nat.add_le_add_left hms t).trans_lt (h.first t ht),
    fun t ht => (Nat.add_le_add_left hms t).trans_lt (h.wrote t ht)⟩

namespace PruneCall.ForgetsNamed

variable {c : PruneCall}

theorem stale (h : c.ForgetsNamed env T o m) : Stale T o m c.now c.core := by
  refine ⟨h.kept, h.silent.shorter ?_⟩
  exact Nat.le_mul_of_pos_right _ (by decide)

theorem mem_names (h : c.ForgetsNamed env T o m) (streams : List StreamView) :
    m ∈ c.core.db.memberNames T o streams env.writerId := by
  obtain ⟨members, hnames, hin, hself⟩ := h.named
  exact (Db.mem_memberNames_of_explicit hnames).2 ⟨hin, hself⟩

theorem lagging (h : c.ForgetsNamed env T o m) (hcoherent : c.core.Coherent env)
    (hacked : env.ackedRetention T = true) : c.Lagging env T known o m := by
  obtain ⟨-, -, -, -, hsettle⟩ := step_pruneAcked known hcoherent hacked o c.maxRows c.now
  have hline : ∀ x : AckedPruneMember, x.node = m → _ := fun x hx =>
    mem_report hcoherent hacked hsettle hx
  refine ⟨_, hsettle, ⟨m, _, _⟩, (hline _ rfl).2 ⟨h.mem_names _, rfl⟩, rfl, ?_⟩
  exact exclusionAt_of_stale h.stale

/-- The record of the node goes. -/
theorem record_called (h : c.ForgetsNamed env T o m) (hcoherent : c.core.Coherent env)
    (hacked : env.ackedRetention T = true) :
    (step env c.core (pruneAckedCall T known o c.maxRows c.now)).core.db.sqAckNodes.get (T, m) =
      none := by
  rw [Seqscribe.record_called hcoherent hacked, Db.get_ackNodes_pruneAcked, if_neg, if_pos]
  · apply Db.mem_forget.2
    refine ⟨h.mem_names _, h.recorded, .inr ?_⟩
    exact (silent_iff.1 h.silent).resolve_left (memberEvidence_ne_none h.recorded)
  · rw [h.real]
    exact Bool.false_ne_true

end PruneCall.ForgetsNamed

/-- From a silent node on, calls that do not forget a named one leave it out. -/
theorem Calls.leavesOut (h : Calls env T known o m core cs) (hcoherent : core.Coherent env)
    (hacked : env.ackedRetention T = true) (hstale : Stale T o m now core)
    (hlater : ∀ c ∈ cs, now ≤ c.now) (hclock : cs.Pairwise fun c c' => c.now ≤ c'.now)
    (hkeeps : ∀ c ∈ cs.dropLast, ¬ c.ForgetsNamed env T o m) :
    ∀ c ∈ cs, c.LeavesOut env T known o m := by
  induction h generalizing now with
  | nil core => exact fun c hc => nomatch hc
  | @call cs now' maxRows core h ih =>
    intro c hc
    have hnow := hstale.later (hlater _ List.mem_cons_self)
    rcases List.mem_cons.1 hc with rfl | hc
    · exact Stale.leavesOut hnow hcoherent hacked
    · have hne : cs ≠ [] := List.ne_nil_of_mem hc
      rw [List.dropLast_cons_of_ne_nil hne] at hkeeps
      obtain ⟨hfirst, hclock⟩ := List.pairwise_cons.1 hclock
      obtain ⟨hcoherent', -⟩ := step_pruneAcked known hcoherent hacked o maxRows now'
      exact ih hcoherent' (hnow.call hcoherent hacked (hkeeps _ List.mem_cons_self)) hfirst hclock
        (fun c hc => hkeeps c (List.mem_cons_of_mem _ hc)) c hc
  | other i hquiet h ih =>
    have hcoherent' := step_coherent i hcoherent
    exact ih hcoherent' (hstale.other hquiet (Nat.le_refl now)) hlater hclock hkeeps

/-- A node that the host names and that has no record is counted by the next call. -/
theorem Calls.counts (h : Calls env T known o m core cs) (hcoherent : core.Coherent env)
    (hacked : env.ackedRetention T = true) (hne : cs ≠ [])
    (hnone : core.db.sqAckNodes.get (T, m) = none)
    (hnamed : ∃ members, o.members = some members ∧ m ∈ members ∧ m ≠ env.writerId) :
    ∃ c ∈ cs, ¬ c.LeavesOut env T known o m := by
  induction h with
  | nil core => exact absurd rfl hne
  | @call cs now maxRows core h ih =>
    refine ⟨_, List.mem_cons_self, fun hleaves => ?_⟩
    obtain ⟨members, hnames, hin, hself⟩ := hnamed
    obtain ⟨-, -, -, -, hsettle⟩ := step_pruneAcked known hcoherent hacked o maxRows now
    obtain ⟨hmembers, -⟩ := hleaves _ hsettle
    have hreport : ∀ x : AckedPruneMember, x.node = m → _ := fun x hx =>
      mem_report (c := ⟨now, maxRows, core⟩) hcoherent hacked hsettle hx
    have hline := hmembers _ ((hreport ⟨m, _, _⟩ rfl).2
      ⟨(Db.mem_memberNames_of_explicit hnames).2 ⟨hin, hself⟩, rfl⟩) rfl
    have hsilent := (exclusion_eq_lagging.1 hline).2
    dsimp only at hsilent
    rw [hnone] at hsilent
    rcases hsilent.recorded with hsome | hderived
    · cases hsome
    · rw [hnames] at hderived
      cases hderived
  | other i hquiet h ih =>
    have hcoherent' := step_coherent i hcoherent
    exact ih hcoherent' hne (hquiet.record.trans hnone)

end

/-- Over any calls with the same options, in between whatever gives no evidence of the node: a node
that is excluded as lagging stays so if and only if no call but the last forgets it while the host
names it. -/
theorem lag_exclusion_stable_iff (env : Env) (T : Topic) (known : (env.topics T).isSome = true)
    (hacked : env.ackedRetention T = true) (o : AckedPruneOptions) (m : WriterId)
    (is : List (Input env)) (cs : List PruneCall)
    (h : Calls env T known o m (runCore env Core.init is) cs)
    (hclock : cs.Pairwise fun c c' => c.now ≤ c'.now) :
    (cs.Pairwise fun c c' => c.Lagging env T known o m → c'.LeavesOut env T known o m) ↔
      ∀ c ∈ cs.dropLast, ¬ c.ForgetsNamed env T o m := by
  have hcoherent : (runCore env Core.init is).Coherent env := runCore_coherent is
  generalize runCore env Core.init is = core at h hcoherent
  induction h with
  | nil core => exact iff_of_true .nil fun c hc => nomatch hc
  | @call cs now maxRows core h ih =>
    obtain ⟨hlater, hclock⟩ := List.pairwise_cons.1 hclock
    obtain ⟨hcoherent', hdb, -⟩ := step_pruneAcked known hcoherent hacked o maxRows now
    have hrest := ih hclock hcoherent'
    rw [List.pairwise_cons]
    cases cs with
    | nil => exact iff_of_true ⟨fun c hc => (nomatch hc), .nil⟩ fun c hc => nomatch hc
    | cons c cs =>
      have hsplit : (∀ c' ∈ (⟨now, maxRows, core⟩ :: c :: cs).dropLast, ¬ c'.ForgetsNamed env T o m) ↔
          ¬ PruneCall.ForgetsNamed env T o m ⟨now, maxRows, core⟩ ∧
            ∀ c' ∈ (c :: cs).dropLast, ¬ c'.ForgetsNamed env T o m := by
        rw [List.dropLast_cons_of_ne_nil (List.cons_ne_nil c cs), List.forall_mem_cons]
      rw [hsplit]
      constructor
      · rintro ⟨hfirst, hlast⟩
        refine ⟨fun hforgets => ?_, hrest.1 hlast⟩
        have hnone : (step env core (pruneAckedCall T known o maxRows now)).core.db.sqAckNodes.get
            (T, m) = none := hforgets.record_called hcoherent hacked
        obtain ⟨c', hc', hcounts⟩ := h.counts hcoherent' hacked (List.cons_ne_nil c cs) hnone
          hforgets.named
        exact hcounts (hfirst c' hc' (hforgets.lagging hcoherent hacked))
      · rintro ⟨hkept, hkeeps⟩
        refine ⟨fun c' hc' hlagging => ?_, hrest.2 hkeeps⟩
        have hstale := stale_of_lagging hcoherent hacked hlagging
        exact h.leavesOut hcoherent' hacked (hstale.call hcoherent hacked hkept) hlater hclock hkeeps
          c' hc'
  | other i hquiet h ih => exact ih hclock (step_coherent i hcoherent)

/-- The host names one member, which may be silent for a second. -/
def namedOptions : AckedPruneOptions := { olderThanMs := 10, maxLagMs := 1000, members := some ["m"] }

def namedCall (core : Core) (now : Nat) : Core :=
  (step (hostEnv "b") core (pruneAckedCall "t" rfl namedOptions 10 now)).core

/-- A call names the member, and two follow after its silence. -/
def namedCalls : List PruneCall :=
  [⟨1, 10, Core.init⟩, ⟨3000, 10, namedCall Core.init 1⟩,
    ⟨3000, 10, namedCall (namedCall Core.init 1) 3000⟩]

theorem calls_namedCalls : Calls (hostEnv "b") "t" rfl namedOptions "m" Core.init namedCalls :=
  .call 1 10 _ (.call 3000 10 _ (.call 3000 10 _ (.nil _)))

theorem clock_namedCalls : namedCalls.Pairwise fun c c' => c.now ≤ c'.now := by
  simp [namedCalls]

theorem lag_exclusion_stable_iff_of_named :
    (namedCalls.Pairwise fun c c' => c.Lagging (hostEnv "b") "t" rfl namedOptions "m" →
        c'.LeavesOut (hostEnv "b") "t" rfl namedOptions "m") ↔
      ∀ c ∈ namedCalls.dropLast, ¬ c.ForgetsNamed (hostEnv "b") "t" namedOptions "m" :=
  lag_exclusion_stable_iff (hostEnv "b") "t" rfl rfl namedOptions "m" [] namedCalls calls_namedCalls
    clock_namedCalls

/-- The second call excludes the member and forgets it, and the third counts it again. -/
theorem named_member_recounted : ∃ cs,
    Calls (hostEnv "b") "t" rfl namedOptions "m" (runCore (hostEnv "b") Core.init []) cs ∧
      (cs.Pairwise fun c c' => c.now ≤ c'.now) ∧
      ¬ cs.Pairwise fun c c' => c.Lagging (hostEnv "b") "t" rfl namedOptions "m" →
        c'.LeavesOut (hostEnv "b") "t" rfl namedOptions "m" := by
  refine ⟨namedCalls, calls_namedCalls, clock_namedCalls, fun hstable => ?_⟩
  have hcoherent : (namedCall Core.init 1).Coherent (hostEnv "b") :=
    runCore_coherent [pruneAckedCall "t" rfl namedOptions 10 1]
  have hcoherent' : (namedCall (namedCall Core.init 1) 3000).Coherent (hostEnv "b") :=
    step_coherent _ hcoherent
  have hrecord : ((namedCall Core.init 1).db.sqAckNodes.get ("t", "m")).map
      (fun r => (r.firstAt, r.seenAt)) = some (1, none) := by decide +kernel
  have hnewest : (namedCall Core.init 1).db.newest "t" "m" = none := by decide +kernel
  obtain ⟨r, hr, htimes⟩ := Option.map_eq_some_iff.1 hrecord
  have hforgets : PruneCall.ForgetsNamed (hostEnv "b") "t" namedOptions "m"
      ⟨3000, 10, namedCall Core.init 1⟩ := by
    refine ⟨rfl, ⟨["m"], rfl, by decide, by decide⟩, by decide, by rw [hr]; rfl, ?_⟩
    rw [hr, hnewest]
    refine ⟨fun t ht => ?_, fun t ht => ?_, fun t ht => nomatch ht⟩
    · rw [Option.bind_some, (Prod.mk.inj htimes).2] at ht
      cases ht
    · have hfirst : some r.firstAt = some t := ht
      rw [← Option.some.inj hfirst, (Prod.mk.inj htimes).1]
      decide
  have hnone : (namedCall (namedCall Core.init 1) 3000).db.sqAckNodes.get ("t", "m") = none :=
    hforgets.record_called hcoherent rfl
  have hlast : Calls (hostEnv "b") "t" rfl namedOptions "m" (namedCall (namedCall Core.init 1) 3000)
      [⟨3000, 10, namedCall (namedCall Core.init 1) 3000⟩] := .call 3000 10 _ (.nil _)
  obtain ⟨c, hc, hcounts⟩ := hlast.counts hcoherent' rfl (List.cons_ne_nil _ _) hnone hforgets.named
  apply hcounts
  exact (List.pairwise_cons.1 (List.pairwise_cons.1 hstable).2).1 c hc
    (hforgets.lagging hcoherent rfl)

end Seqscribe
