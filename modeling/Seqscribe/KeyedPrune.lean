import Mathlib.Algebra.Order.BigOperators.Group.List
import Seqscribe.Host
import Seqscribe.KeyedReads
import Seqscribe.Primitives
import Seqscribe.Retention

namespace Seqscribe
set_option autoImplicit true

/-! What `pruneSuperseded` leaves for readers of the newest row per key. -/

open Compaction

namespace Db

variable {db : Db} {topic : Topic} {rows : List LogRow}

/-- The rows of a topic are deleted by their rowids. -/
def without (db : Db) (topic : Topic) (rowids : List Nat) : Db :=
  { db with sqLog := db.sqLog.filter fun r => !decide (r.rowid ∈ rowids ∧ r.entry.topic = topic) }

theorem without_nil (db : Db) (topic : Topic) : db.without topic [] = db := by
  have hall : (db.sqLog.filter fun r => !decide (r.rowid ∈ [] ∧ r.entry.topic = topic)) =
      db.sqLog := by
    apply Table.ext
    rw [Table.rows_filter, List.filter_eq_self]
    exact fun r _ => by simp
  rw [without, hall]

theorem without_cons (db : Db) (topic : Topic) (rowid : Nat) (rowids : List Nat) :
    (db.without topic [rowid]).without topic rowids = db.without topic (rowid :: rowids) := by
  have hboth : ((db.sqLog.filter fun r =>
      !decide (r.rowid ∈ [rowid] ∧ r.entry.topic = topic)).filter fun r =>
        !decide (r.rowid ∈ rowids ∧ r.entry.topic = topic)) =
      db.sqLog.filter fun r => !decide (r.rowid ∈ rowid :: rowids ∧ r.entry.topic = topic) := by
    apply Table.ext
    rw [Table.rows_filter, Table.rows_filter, Table.rows_filter, List.filter_filter]
    apply List.filter_congr
    intro r _
    by_cases htopic : r.entry.topic = topic
    · simp [htopic, Bool.and_comm]
    · simp [htopic]
  rw [without, without, without]
  exact congrArg (fun log => { db with sqLog := log }) hboth

theorem mem_without (h : db.RowidsDistinct) (hrows : ∀ r ∈ rows, r ∈ db.topicRows topic) :
    r ∈ (db.without topic (rows.map LogRow.rowid)).sqLog.rows ↔
      r ∈ db.sqLog.rows ∧ r ∉ rows := by
  rw [without, Table.rows_filter, List.mem_filter]
  apply and_congr_right
  intro hr
  rw [Bool.not_eq_true', decide_eq_false_iff_not, not_iff_not, List.mem_map]
  constructor
  · rintro ⟨⟨r', hr', heq⟩, -⟩
    exact h.inj (hrows r' hr').1 hr heq ▸ hr'
  · exact fun hr => ⟨⟨r, hr, rfl⟩, (hrows r hr).2⟩

theorem mem_topicRows_without (h : db.RowidsDistinct)
    (hrows : ∀ r ∈ rows, r ∈ db.topicRows topic) :
    r ∈ (db.without topic (rows.map LogRow.rowid)).topicRows topic ↔
      r ∈ db.topicRows topic ∧ r ∉ rows := by
  have hmem := mem_without (r := r) h hrows
  exact ⟨fun hr => ⟨⟨(hmem.1 hr.1).1, hr.2⟩, (hmem.1 hr.1).2⟩,
    fun hr => ⟨hmem.2 ⟨hr.1.1, hr.2⟩, hr.1.2⟩⟩

theorem RowidsDistinct.without (h : db.RowidsDistinct) (topic : Topic) (rowids : List Nat) :
    (db.without topic rowids).RowidsDistinct :=
  h.sublist (List.filter_sublist.map LogRow.rowid)

/-- As many rows go as are named. -/
theorem length_without (h : db.RowidsDistinct) (hrows : ∀ r ∈ rows, r ∈ db.topicRows topic)
    (hnodup : rows.Nodup) :
    (db.without topic (rows.map LogRow.rowid)).sqLog.rows.length + rows.length =
      db.sqLog.rows.length := by
  have hlog : db.sqLog.rows.Nodup := h.of_map LogRow.rowid
  have hperm : ((db.without topic (rows.map LogRow.rowid)).sqLog.rows ++ rows).Perm
      db.sqLog.rows := by
    apply (List.perm_ext_iff_of_nodup _ hlog).2
    · intro r
      rw [List.mem_append, mem_without h hrows]
      constructor
      · rintro (hr | hr)
        · exact hr.1
        · exact (hrows r hr).1
      · intro hr
        by_cases hin : r ∈ rows
        · exact .inr hin
        · exact .inl ⟨hr, hin⟩
    · refine List.Nodup.append (hlog.filter _) hnodup ?_
      intro r hr hin
      exact ((mem_without h hrows).1 hr).2 hin
  rw [← List.length_append]
  exact hperm.length_eq

/-! The rows that the three passes select. -/

def otherWriterRows (topic : Topic) (writer : WriterId) (floor : Nat) (db : Db) : List LogRow :=
  db.sqLog.selectBy
    (fun r => r.entry.topic = topic ∧ r.rowid ≤ floor ∧ r.entry.writer ≠ writer) (·.rowid)

def supersededRows (topic : Topic) (floor upto : Nat) (db : Db) : List LogRow :=
  Store.inKeyOrder <| db.sqLog.rows.filter fun a =>
    decide (a.entry.topic = topic ∧ a.entry.key.isSome ∧ a.rowid ≤ floor) &&
      Store.hasNewerOfKey db topic upto a

def loneTombstones (topic : Topic) (tombstoneKind : JsString) (floor upto : Nat) (db : Db) :
    List LogRow :=
  Store.inKeyOrder <| db.sqLog.rows.filter fun a =>
    decide (a.entry.topic = topic ∧ a.entry.key.isSome ∧ a.rowid ≤ floor ∧
        a.entry.kind = tombstoneKind) &&
      !(db.sqLog.rows.any fun b =>
        b.entry.topic = topic ∧ b.entry.key.isSome ∧ b.entry.key = a.entry.key ∧
          b.rowid ≠ a.rowid ∧ b.rowid ≤ upto)

theorem mem_inKeyOrder {rows : List LogRow} : r ∈ Store.inKeyOrder rows ↔ r ∈ rows := by
  rw [Store.inKeyOrder, List.mem_insertionSort, List.mem_insertionSort]

theorem nodup_inKeyOrder {rows : List LogRow} (h : rows.Nodup) : (Store.inKeyOrder rows).Nodup := by
  rw [Store.inKeyOrder]
  exact ((List.perm_insertionSort _ _).trans (List.perm_insertionSort _ _)).nodup_iff.2 h

theorem mem_otherWriterRows : r ∈ otherWriterRows topic writer floor db ↔
    r ∈ db.topicRows topic ∧ r.rowid ≤ floor ∧ r.entry.writer ≠ writer := by
  rw [otherWriterRows, Table.mem_selectBy, decide_eq_true_iff, topicRows, Set.mem_ofPred_eq]
  tauto

theorem mem_supersededRows : r ∈ supersededRows topic floor upto db ↔
    r ∈ db.topicRows topic ∧ r.rowid ≤ floor ∧ (keyOf r).isSome ∧
      Superseded LogRow.rowid keyOf (db.topicRows topic) upto r := by
  rw [supersededRows, mem_inKeyOrder, List.mem_filter, Bool.and_eq_true, decide_eq_true_iff,
    hasNewerOfKey_iff, topicRows, Set.mem_ofPred_eq]
  simp only [keyOf]
  tauto

theorem mem_loneTombstones : r ∈ loneTombstones topic tombstoneKind floor upto db ↔
    r ∈ db.topicRows topic ∧ r.rowid ≤ floor ∧ (keyOf r).isSome ∧
      r.entry.kind = tombstoneKind ∧ Lone LogRow.rowid keyOf (db.topicRows topic) upto r := by
  have hlone : (db.sqLog.rows.any fun b =>
      b.entry.topic = topic ∧ b.entry.key.isSome ∧ b.entry.key = r.entry.key ∧
        b.rowid ≠ r.rowid ∧ b.rowid ≤ upto) = false ↔
      Lone LogRow.rowid keyOf (db.topicRows topic) upto r := by
    rw [List.any_eq_false]
    constructor
    · intro hnone b hb hsome hkey hle
      by_contra hne
      exact hnone b hb.1 (decide_eq_true ⟨hb.2, hsome, hkey, hne, hle⟩)
    · intro h b hb hother
      obtain ⟨htopic, hsome, hkey, hne, hle⟩ := of_decide_eq_true hother
      exact hne (h b ⟨hb, htopic⟩ hsome hkey hle)
  rw [loneTombstones, mem_inKeyOrder, List.mem_filter, Bool.and_eq_true, decide_eq_true_iff,
    Bool.not_eq_true', hlone, topicRows, Set.mem_ofPred_eq]
  simp only [keyOf]
  tauto

/-! One pass, and the three of them. -/

/-- What one pass deletes of what it selects, within its budget. -/
def prunePass (db : Db) (topic : Topic) (budget : Nat) (select : Db → List LogRow) : Db × Nat :=
  let rows := (select db).take budget
  (db.without topic (rows.map LogRow.rowid), rows.length)

theorem prunePass_zero (db : Db) (topic : Topic) (select : Db → List LogRow) :
    db.prunePass topic 0 select = (db, 0) := by
  rw [prunePass, List.take_zero]
  exact congrArg (·, 0) (db.without_nil topic)

theorem prunePass_sublist (db : Db) (topic : Topic) (budget : Nat) (select : Db → List LogRow) :
    (db.prunePass topic budget select).1.sqLog.rows.Sublist db.sqLog.rows :=
  List.filter_sublist

section

variable {select : Db → List LogRow} {budget : Nat}

theorem RowidsDistinct.prunePass (h : db.RowidsDistinct) (topic : Topic) (budget : Nat)
    (select : Db → List LogRow) : (db.prunePass topic budget select).1.RowidsDistinct :=
  h.without topic _

/-- A pass deletes what it has selected, and nothing else. -/
theorem mem_prunePass (h : db.RowidsDistinct) (hselect : ∀ r ∈ select db, r ∈ db.topicRows topic) :
    r ∈ (db.prunePass topic budget select).1.sqLog.rows ↔
      r ∈ db.sqLog.rows ∧ r ∉ (select db).take budget :=
  mem_without h fun r hr => hselect r (List.mem_of_mem_take hr)

theorem mem_topicRows_prunePass (h : db.RowidsDistinct)
    (hselect : ∀ r ∈ select db, r ∈ db.topicRows topic) :
    r ∈ (db.prunePass topic budget select).1.topicRows topic ↔
      r ∈ db.topicRows topic ∧ r ∉ (select db).take budget :=
  mem_topicRows_without h fun r hr => hselect r (List.mem_of_mem_take hr)

/-- With budget left over a pass deletes all that it selects. -/
theorem take_prunePass (topic : Topic)
    (hleft : (db.prunePass topic budget select).2 < budget) :
    (select db).take budget = select db := by
  rw [prunePass, List.length_take] at hleft
  exact List.take_of_length_le (by omega)

theorem length_prunePass (budget : Nat) (h : db.RowidsDistinct)
    (hselect : ∀ r ∈ select db, r ∈ db.topicRows topic) (hnodup : (select db).Nodup) :
    (db.prunePass topic budget select).1.sqLog.rows.length +
      (db.prunePass topic budget select).2 = db.sqLog.rows.length :=
  length_without h (fun r hr => hselect r (List.mem_of_mem_take hr))
    (hnodup.sublist (List.take_sublist _ _))

theorem prunePass_nil (hnone : select db = []) : db.prunePass topic budget select = (db, 0) := by
  rw [Db.prunePass, hnone, List.take_nil]
  exact congrArg (·, 0) (db.without_nil topic)

end

/-- The least of the bound and the cursors of the topic. -/
def pruneFloor (db : Db) (topic : Topic) (uptoRowid : Nat) : Nat :=
  (db.sqCursors.rows.filter fun r => r.topic = topic).foldl (fun m c => min m c.lastRowid) uptoRowid

/-- What `pruneSuperseded` leaves, and how many rows it deletes. -/
def pruneSuperseded (self : WriterId) (topic : Topic) (tombstoneKind : JsString)
    (uptoRowid maxRows : Nat) (supersedeOtherWriters : Bool) (db : Db) : Db × Nat :=
  let floor := db.pruneFloor topic uptoRowid
  if floor ≥ 1 then
    let others := db.prunePass topic (if supersedeOtherWriters then maxRows else 0)
      (otherWriterRows topic self floor)
    let superseded := others.1.prunePass topic (maxRows - others.2)
      (supersededRows topic floor uptoRowid)
    let tombstones := superseded.1.prunePass topic (maxRows - others.2 - superseded.2)
      (loneTombstones topic tombstoneKind floor uptoRowid)
    (tombstones.1, others.2 + superseded.2 + tombstones.2)
  else (db, 0)

theorem pruneSuperseded_sublist (self : WriterId) (topic : Topic) (tombstoneKind : JsString)
    (uptoRowid maxRows : Nat) (others : Bool) (db : Db) :
    (db.pruneSuperseded self topic tombstoneKind uptoRowid maxRows others).1.sqLog.rows.Sublist
      db.sqLog.rows := by
  rw [pruneSuperseded]
  split
  · exact (prunePass_sublist ..).trans
      ((prunePass_sublist ..).trans (prunePass_sublist ..))
  · exact .refl _

theorem foldl_min_le (cursors : List CursorRow) (n : Nat) :
    cursors.foldl (fun m c => min m c.lastRowid) n ≤ n := by
  induction cursors generalizing n with
  | nil => exact Nat.le_refl _
  | cons c cursors ih => exact (ih _).trans (Nat.min_le_left _ _)

theorem pruneFloor_le (db : Db) (topic : Topic) (uptoRowid : Nat) :
    db.pruneFloor topic uptoRowid ≤ uptoRowid := foldl_min_le _ _

section

variable {tombstoneKind : JsString} {floor upto budget left : Nat} {U : Set Nat}

/-- The two passes that every call makes. -/
def compact (db : Db) (topic : Topic) (tombstoneKind : JsString) (floor upto budget : Nat) :
    Db × Nat :=
  let superseded := db.prunePass topic budget (supersededRows topic floor upto)
  let tombstones := superseded.1.prunePass topic (budget - superseded.2)
    (loneTombstones topic tombstoneKind floor upto)
  (tombstones.1, superseded.2 + tombstones.2)

theorem supersededRows_topic : ∀ r ∈ supersededRows topic floor upto db, r ∈ db.topicRows topic :=
  fun _ hr => (mem_supersededRows.1 hr).1

theorem loneTombstones_topic :
    ∀ r ∈ loneTombstones topic tombstoneKind floor upto db, r ∈ db.topicRows topic :=
  fun _ hr => (mem_loneTombstones.1 hr).1

theorem RowidsDistinct.rows_nodup (h : db.RowidsDistinct) : db.sqLog.rows.Nodup :=
  h.of_map LogRow.rowid

theorem mem_superseded_pass (h : db.RowidsDistinct) (topic : Topic) (floor upto budget : Nat)
    (r : LogRow) :
    r ∈ (db.prunePass topic budget (supersededRows topic floor upto)).1.topicRows topic ↔
      r ∈ db.topicRows topic ∧ r ∉ (supersededRows topic floor upto db).take budget :=
  mem_topicRows_prunePass h supersededRows_topic

theorem mem_tombstone_pass (h : db.RowidsDistinct) (topic : Topic) (tombstoneKind : JsString)
    (floor upto budget : Nat) (r : LogRow) :
    r ∈ (db.prunePass topic budget (loneTombstones topic tombstoneKind floor upto)).1.topicRows
        topic ↔
      r ∈ db.topicRows topic ∧ r ∉ (loneTombstones topic tombstoneKind floor upto db).take budget :=
  mem_topicRows_prunePass h loneTombstones_topic

theorem RowidsDistinct.compact (h : db.RowidsDistinct) (topic : Topic) (tombstoneKind : JsString)
    (floor upto budget : Nat) :
    (db.compact topic tombstoneKind floor upto budget).1.RowidsDistinct :=
  (h.prunePass _ _ _).prunePass _ _ _

/-- The two passes leave the newest row of every key that is not a tombstone. -/
theorem newest_compact (h : db.RowidsDistinct) (hfloor : floor ≤ upto) (hU : Set.Iic upto ⊆ U)
    (hlive : r.entry.kind ≠ tombstoneKind) :
    Newest LogRow.rowid keyOf ((db.compact topic tombstoneKind floor upto budget).1.topicRows topic)
      U k r ↔ Newest LogRow.rowid keyOf (db.topicRows topic) U k r := by
  have hfirst := mem_superseded_pass h topic floor upto budget
  have hsecond := mem_tombstone_pass
    (h.prunePass topic budget (supersededRows topic floor upto)) topic tombstoneKind floor upto
    (budget - (db.prunePass topic budget (supersededRows topic floor upto)).2)
  have hsuper : ∀ r ∈ db.topicRows topic,
      r ∉ (db.prunePass topic budget (supersededRows topic floor upto)).1.topicRows topic →
        Superseded LogRow.rowid keyOf (db.topicRows topic) upto r := by
    intro r hr hgone
    have hin := Classical.not_not.1 fun hnot => hgone ((hfirst r).2 ⟨hr, hnot⟩)
    exact (mem_supersededRows.1 (List.mem_of_mem_take hin)).2.2.2
  have hlone : ∀ r ∈ (db.prunePass topic budget (supersededRows topic floor upto)).1.topicRows topic,
      r ∉ (db.compact topic tombstoneKind floor upto budget).1.topicRows topic →
        r.entry.kind = tombstoneKind ∧ r.rowid ≤ upto ∧ Lone LogRow.rowid keyOf
          ((db.prunePass topic budget (supersededRows topic floor upto)).1.topicRows topic) upto r := by
    intro r hr hgone
    have hin := Classical.not_not.1 fun hnot => hgone ((hsecond r).2 ⟨hr, hnot⟩)
    obtain ⟨-, hle, -, hdead, hlone⟩ := mem_loneTombstones.1 (List.mem_of_mem_take hin)
    exact ⟨hdead, hle.trans hfloor, hlone⟩
  exact Iff.trans (newest_drop_lone (fun r hr => ((hsecond r).1 hr).1) hlone hlive)
    (newest_drop_superseded (fun r hr => ((hfirst r).1 hr).1) hsuper hU)

/-- Rows above the floor, rows of other topics and rows without a key stay. -/
theorem mem_compact (h : db.RowidsDistinct)
    (hspared : floor < r.rowid ∨ r.entry.topic ≠ topic ∨ keyOf r = none) :
    r ∈ (db.compact topic tombstoneKind floor upto budget).1.sqLog.rows ↔ r ∈ db.sqLog.rows := by
  have hsparing : ∀ {P : Prop}, r ∈ db.topicRows topic ∧ r.rowid ≤ floor ∧ (keyOf r).isSome ∧ P →
      False := by
    rintro P ⟨hr, hle, hsome, -⟩
    rcases hspared with habove | hother | hnone
    · omega
    · exact hother hr.2
    · rw [hnone] at hsome
      cases hsome
  have hfirst : r ∈ (db.prunePass topic budget (supersededRows topic floor upto)).1.sqLog.rows ↔
      r ∈ db.sqLog.rows :=
    (mem_prunePass h supersededRows_topic).trans
      (and_iff_left fun hin => hsparing (mem_supersededRows.1 (List.mem_of_mem_take hin)))
  refine ((mem_prunePass (h.prunePass _ _ _) loneTombstones_topic).trans
    (and_iff_left fun hin => ?_)).trans hfirst
  obtain ⟨hr, hle, hsome, -⟩ := mem_loneTombstones.1 (List.mem_of_mem_take hin)
  exact hsparing ⟨⟨hfirst.1 hr.1, hr.2⟩, hle, hsome, trivial⟩

theorem length_compact (h : db.RowidsDistinct) :
    (db.compact topic tombstoneKind floor upto budget).1.sqLog.rows.length +
      (db.compact topic tombstoneKind floor upto budget).2 = db.sqLog.rows.length := by
  have hd := h.prunePass topic budget (supersededRows topic floor upto)
  have hfirst : (db.prunePass topic budget (supersededRows topic floor upto)).1.sqLog.rows.length +
      (db.prunePass topic budget (supersededRows topic floor upto)).2 = db.sqLog.rows.length :=
    length_prunePass budget h supersededRows_topic (nodup_inKeyOrder (h.rows_nodup.filter _))
  have hsecond : ∀ left,
      ((db.prunePass topic budget (supersededRows topic floor upto)).1.prunePass topic left
        (loneTombstones topic tombstoneKind floor upto)).1.sqLog.rows.length +
      ((db.prunePass topic budget (supersededRows topic floor upto)).1.prunePass topic left
        (loneTombstones topic tombstoneKind floor upto)).2 =
      (db.prunePass topic budget (supersededRows topic floor upto)).1.sqLog.rows.length :=
    fun left => length_prunePass left hd loneTombstones_topic
      (nodup_inKeyOrder (hd.rows_nodup.filter _))
  have hboth := hsecond (budget - (db.prunePass topic budget (supersededRows topic floor upto)).2)
  rw [compact]
  dsimp only
  omega

/-- With budget left over a second call finds nothing. -/
theorem compact_compact (h : db.RowidsDistinct) (hfloor : floor ≤ upto)
    (hleft : (db.compact topic tombstoneKind floor upto budget).2 < budget) (budget' : Nat) :
    (db.compact topic tombstoneKind floor upto budget).1.compact topic tombstoneKind floor upto
      budget' = ((db.compact topic tombstoneKind floor upto budget).1, 0) := by
  have hfirst := mem_superseded_pass h topic floor upto budget
  have hsecond := mem_tombstone_pass
    (h.prunePass topic budget (supersededRows topic floor upto)) topic tombstoneKind floor upto
    (budget - (db.prunePass topic budget (supersededRows topic floor upto)).2)
  have hsum : (db.prunePass topic budget (supersededRows topic floor upto)).2 +
      ((db.prunePass topic budget (supersededRows topic floor upto)).1.prunePass topic
        (budget - (db.prunePass topic budget (supersededRows topic floor upto)).2)
        (loneTombstones topic tombstoneKind floor upto)).2 < budget := hleft
  have hall : (supersededRows topic floor upto db).take budget = supersededRows topic floor upto db :=
    take_prunePass topic (by omega)
  have hall' : (loneTombstones topic tombstoneKind floor upto
      (db.prunePass topic budget (supersededRows topic floor upto)).1).take
        (budget - (db.prunePass topic budget (supersededRows topic floor upto)).2) =
      loneTombstones topic tombstoneKind floor upto
        (db.prunePass topic budget (supersededRows topic floor upto)).1 :=
    take_prunePass topic (by omega)
  rw [hall] at hfirst
  rw [hall'] at hsecond
  have hmore : ∀ r ∈ (db.compact topic tombstoneKind floor upto budget).1.topicRows topic,
      r.rowid ≤ floor → (keyOf r).isSome →
      ¬ Superseded LogRow.rowid keyOf
        ((db.compact topic tombstoneKind floor upto budget).1.topicRows topic) upto r ∧
      (r.entry.kind = tombstoneKind → ¬ Lone LogRow.rowid keyOf
        ((db.compact topic tombstoneKind floor upto budget).1.topicRows topic) upto r) :=
    fun r hr hle hsome => nothing_more
      (fun r => (hfirst r).trans (and_congr_right fun hr => not_congr
        (mem_supersededRows.trans (and_iff_right hr))))
      (fun r => (hsecond r).trans (and_congr_right fun hr => not_congr
        (mem_loneTombstones.trans (and_iff_right hr)))) hfloor hr hle hsome
  have hnone : supersededRows topic floor upto
      (db.compact topic tombstoneKind floor upto budget).1 = [] := by
    apply List.eq_nil_iff_forall_not_mem.2
    intro r hr
    obtain ⟨hr, hle, hsome, hsuper⟩ := mem_supersededRows.1 hr
    exact (hmore r hr hle hsome).1 hsuper
  have hnone' : loneTombstones topic tombstoneKind floor upto
      (db.compact topic tombstoneKind floor upto budget).1 = [] := by
    apply List.eq_nil_iff_forall_not_mem.2
    intro r hr
    obtain ⟨hr, hle, hsome, hdead, hlone⟩ := mem_loneTombstones.1 hr
    exact (hmore r hr hle hsome).2 hdead hlone
  rw [compact, prunePass_nil hnone]
  dsimp only
  rw [prunePass_nil hnone']
  rfl

/-- A call without other writers is the two passes. -/
theorem pruneSuperseded_false (db : Db) (self : WriterId) (topic : Topic)
    (tombstoneKind : JsString) (uptoRowid maxRows : Nat) :
    db.pruneSuperseded self topic tombstoneKind uptoRowid maxRows false =
      if db.pruneFloor topic uptoRowid ≥ 1 then
        db.compact topic tombstoneKind (db.pruneFloor topic uptoRowid) uptoRowid maxRows
      else (db, 0) := by
  rw [pruneSuperseded]
  have hzero : (if false = true then maxRows else 0) = 0 := rfl
  simp only [hzero, prunePass_zero, Nat.sub_zero, Nat.zero_add]
  rfl

/-- What a reader of the newest row per key takes for the live rows. -/
def liveRows (db : Db) (topic : Topic) (tombstoneKind : JsString) (uptoRowid : Option Nat) :
    List LogRow :=
  (db.latestPerKey topic uptoRowid).filter fun r => decide (r.entry.kind ≠ tombstoneKind)

theorem pairwise_liveRows (h : db.RowidsDistinct) (uptoRowid : Option Nat) :
    (db.liveRows topic tombstoneKind uptoRowid).Pairwise fun r r' => r.rowid < r'.rowid := by
  rw [liveRows, latestPerKey_eq h]
  exact ((h.pairwise _).filter _).filter _

/-- Readers see the same live rows when every key has the same newest row, tombstones aside. -/
theorem liveRows_eq {db' : Db} (h : db.RowidsDistinct) (h' : db'.RowidsDistinct)
    (hkeyless : ∀ r, keyOf r = none → (r ∈ db'.topicRows topic ↔ r ∈ db.topicRows topic))
    (hnewest : ∀ k r, r.entry.kind ≠ tombstoneKind →
      (Newest LogRow.rowid keyOf (db'.topicRows topic)
          (Set.Iic (uptoRowid.getD MAX_SAFE_INTEGER)) k r ↔
        Newest LogRow.rowid keyOf (db.topicRows topic)
          (Set.Iic (uptoRowid.getD MAX_SAFE_INTEGER)) k r)) :
    db'.liveRows topic tombstoneKind uptoRowid = db.liveRows topic tombstoneKind uptoRowid := by
  apply Sorting.eq_of_sorted (pairwise_liveRows h' _) (pairwise_liveRows h _)
  intro r
  rw [liveRows, liveRows, List.mem_filter, List.mem_filter, mem_latestPerKey h',
    mem_latestPerKey h, decide_eq_true_iff]
  apply and_congr_left
  intro hlive
  constructor
  · rintro ⟨⟨hin, hpos, hle⟩, hnone | ⟨k, hk⟩⟩
    · exact ⟨⟨(hkeyless r hnone).1 hin, hpos, hle⟩, .inl hnone⟩
    · have hk := (hnewest k r hlive).1 hk
      exact ⟨⟨hk.1, hpos, hle⟩, .inr ⟨k, hk⟩⟩
  · rintro ⟨⟨hin, hpos, hle⟩, hnone | ⟨k, hk⟩⟩
    · exact ⟨⟨(hkeyless r hnone).2 hin, hpos, hle⟩, .inl hnone⟩
    · have hk := (hnewest k r hlive).2 hk
      exact ⟨⟨hk.1, hpos, hle⟩, .inr ⟨k, hk⟩⟩

end

end Db

variable {env : Env} {E : SeqscribeError → Prop} {t : Txn} {topic : Topic}

theorem deleteLogRowids_spec (rowids : List Nat)
    (hQ : ∀ t', t'.core.db = t.core.db.without topic rowids → t'.settle = t.settle → Q () t') :
    Returns E (Store.deleteLogRowids topic rowids) t Q := by
  have hone : ∀ (rowid : Nat) (db : Db), db.without topic [rowid] = { db with
      sqLog := db.sqLog.filter fun r => !decide (r.rowid = rowid ∧ r.entry.topic = topic) } := by
    intro rowid db
    simp only [Db.without, List.mem_singleton]
  have hloop := Returns.forM (E := E) (t := t) (f := fun rowid => execute fun db => { db with
      sqLog := db.sqLog.filter fun r => !decide (r.rowid = rowid ∧ r.entry.topic = topic) })
    (fun rest t' => t'.core.db.without topic rest = t.core.db.without topic rowids ∧
      t'.settle = t.settle) ⟨rfl, rfl⟩ ?_
  · refine .bind (hloop.mono ?_)
    rintro _ t' ⟨hdb, hsettle⟩
    rw [Db.without_nil] at hdb
    exact .ite (fun _ => .modify rfl (hQ _ hdb hsettle)) fun _ => .pure (hQ _ hdb hsettle)
  · rintro rowid rest t' ⟨hdb, hsettle⟩
    apply execute_spec
    intro fault
    refine ⟨?_, hsettle⟩
    rw [← hdb, ← Db.without_cons, hone]

/-- One pass of the item. -/
theorem prunePass_spec {c : Prop} [Decidable c] (select : Db → List LogRow) {limit budget : Nat}
    (hc : c → limit = budget) (hnot : ¬ c → budget = 0)
    (hQ : ∀ t', t'.core.db = (t.core.db.prunePass topic budget select).1 →
      t'.settle = t.settle → Q (t.core.db.prunePass topic budget select).2 t') :
    Returns E (if c then do
        let rowids ← query fun db => ((select db).take limit).map LogRow.rowid
        Store.deleteLogRowids topic rowids
        return rowids.length
      else return 0) t Q := by
  refine .ite (fun h => ?_) fun h => .pure ?_
  · rw [hc h]
    refine .bind (query_spec fun fault _ => .bind (deleteLogRowids_spec _ fun t' hdb hsettle => ?_))
    refine .pure ?_
    rw [List.length_map]
    exact hQ t' hdb hsettle
  · have hpass := hQ t
    rw [hnot h, Db.prunePass_zero] at hpass
    exact hpass rfl rfl

/-- The item does the three passes, and reports how many rows it has deleted. -/
theorem processPruneSuperseded_db (hp : env.topics topic = some p)
    (hkeyed : p.tombstoneKind = some tombstoneKind) (uptoRowid maxRows : Nat) (others : Bool) :
    Returns E (processPruneSuperseded env topic uptoRowid maxRows others) t fun _ t' =>
      let pruned := t.core.db.pruneSuperseded env.writerId topic tombstoneKind uptoRowid maxRows
        others
      t'.core.db = pruned.1 ∧ t'.settle = t.settle ++ [.pruned pruned.2] := by
  refine .bind (topicPolicy_spec hp ?_)
  rw [hkeyed]
  refine .bind (query_spec fun fault _ => ?_)
  have hfloor : (t.core.db.sqCursors.rows.filter fun r => r.topic = topic).foldl
      (fun m c => min m c.lastRowid) uptoRowid = t.core.db.pruneFloor topic uptoRowid := rfl
  rw [hfloor, Db.pruneSuperseded]
  clear hfloor
  generalize t.core.db.pruneFloor topic uptoRowid = floor
  have hrest : ∀ n, ¬ n > 0 → n = 0 := fun n h => Nat.eq_zero_of_not_pos h
  have hmine : others = true ∧ maxRows > 0 → maxRows = if others then maxRows else 0 :=
    fun h => (if_pos h.1).symm
  have hnone : ¬ (others = true ∧ maxRows > 0) → (if others then maxRows else 0) = 0 := by
    intro h
    split
    · next ho => exact hrest _ fun hpos => h ⟨ho, hpos⟩
    · rfl
  refine .ite (fun hfloor => ?_) fun hfloor => .modify rfl ?_
  · rw [if_pos hfloor]
    refine .bind (prunePass_spec (Db.otherWriterRows topic env.writerId floor) hmine hnone
      fun t₁ hdb₁ hsettle₁ => ?_)
    refine .bind (prunePass_spec (Db.supersededRows topic floor uptoRowid) (fun _ => rfl)
      (hrest _) fun t₂ hdb₂ hsettle₂ => ?_)
    refine .bind (prunePass_spec (Db.loneTombstones topic tombstoneKind floor uptoRowid)
      (fun _ => rfl) (hrest _) fun t₃ hdb₃ hsettle₃ => ?_)
    refine .modify rfl ?_
    dsimp only at hdb₁ hdb₂ hdb₃ hsettle₁ ⊢
    rw [hdb₂, hdb₁] at hdb₃
    rw [hsettle₃, hsettle₂, hsettle₁, hdb₂, hdb₁, hdb₃]
    exact ⟨rfl, rfl⟩
  · rw [if_neg hfloor]
    exact ⟨rfl, rfl⟩

/-- Without a storage fault the item runs. -/
theorem processPruneSuperseded_ok (hp : env.topics topic = some p)
    (hkeyed : p.tombstoneKind = some tombstoneKind) (hfault : t.fault = none)
    (uptoRowid maxRows : Nat) (others : Bool) :
    ∃ t', processPruneSuperseded env topic uptoRowid maxRows others t = .ok () t' ∧
      t'.core.db = (t.core.db.pruneSuperseded env.writerId topic tombstoneKind uptoRowid maxRows
        others).1 ∧
      t'.settle = t.settle ++ [.pruned (t.core.db.pruneSuperseded env.writerId topic tombstoneKind
        uptoRowid maxRows others).2] := by
  have hspec := processPruneSuperseded_db (E := fun _ => False) (t := t) hp hkeyed uptoRowid
    maxRows others
  cases hrun : processPruneSuperseded env topic uptoRowid maxRows others t with
  | ok _ t' => exact ⟨t', rfl, (Runs.of_ok hspec hrun).2⟩
  | error e t' =>
    rcases Runs.of_error hspec hrun with ⟨hsome, -⟩ | hno
    · rw [hfault] at hsome
      cases hsome
    · exact hno.elim

namespace Db

variable {db : Db} {tombstoneKind : JsString} {uptoRowid maxRows : Nat}

/-- The database after a call without other writers: the two passes, or nothing below the floor. -/
theorem liveRows_pruneSuperseded (h : db.RowidsDistinct) (self : WriterId)
    (hbound : bound = none ∧ uptoRowid ≤ MAX_SAFE_INTEGER ∨ bound = some uptoRowid) :
    (db.pruneSuperseded self topic tombstoneKind uptoRowid maxRows false).1.liveRows topic
      tombstoneKind bound = db.liveRows topic tombstoneKind bound := by
  rw [pruneSuperseded_false]
  have hU : Set.Iic uptoRowid ⊆ Set.Iic (bound.getD MAX_SAFE_INTEGER) := by
    rcases hbound with ⟨rfl, hsafe⟩ | rfl
    · exact Set.Iic_subset_Iic.2 hsafe
    · exact Set.Subset.refl _
  split
  · apply liveRows_eq h (h.compact _ _ _ _ _)
    · intro r hnone
      exact and_congr_left fun _ => mem_compact h (.inr (.inr hnone))
    · intro k r hlive
      exact newest_compact h (pruneFloor_le _ _ _) hU hlive
  · rfl

theorem mem_pruneSuperseded (h : db.RowidsDistinct) (self : WriterId)
    (hspared : db.pruneFloor topic uptoRowid < r.rowid ∨ r.entry.topic ≠ topic) :
    r ∈ (db.pruneSuperseded self topic tombstoneKind uptoRowid maxRows false).1.sqLog.rows ↔
      r ∈ db.sqLog.rows := by
  rw [pruneSuperseded_false]
  split
  · exact mem_compact h (hspared.imp_right .inl)
  · rfl

theorem length_pruneSuperseded (h : db.RowidsDistinct) (self : WriterId) :
    (db.pruneSuperseded self topic tombstoneKind uptoRowid maxRows false).1.sqLog.rows.length +
      (db.pruneSuperseded self topic tombstoneKind uptoRowid maxRows false).2 =
        db.sqLog.rows.length := by
  rw [pruneSuperseded_false]
  split
  · exact length_compact h
  · rfl

/-- A call that has not used up its budget leaves nothing to the next one. -/
theorem pruneSuperseded_pruneSuperseded (h : db.RowidsDistinct) (self : WriterId)
    (hleft : (db.pruneSuperseded self topic tombstoneKind uptoRowid maxRows false).2 < maxRows) :
    (db.pruneSuperseded self topic tombstoneKind uptoRowid maxRows false).1.pruneSuperseded self
      topic tombstoneKind uptoRowid maxRows false =
        ((db.pruneSuperseded self topic tombstoneKind uptoRowid maxRows false).1, 0) := by
  have hcall := db.pruneSuperseded_false self topic tombstoneKind uptoRowid maxRows
  by_cases hfloor : db.pruneFloor topic uptoRowid ≥ 1
  · rw [if_pos hfloor] at hcall
    rw [hcall] at hleft ⊢
    have hcursors : (db.compact topic tombstoneKind (db.pruneFloor topic uptoRowid) uptoRowid
        maxRows).1.pruneFloor topic uptoRowid = db.pruneFloor topic uptoRowid := rfl
    rw [pruneSuperseded_false, hcursors, if_pos hfloor]
    exact compact_compact h (pruneFloor_le _ _ _) hleft maxRows
  · rw [if_neg hfloor] at hcall
    rw [hcall]
    exact hcall

end Db

/-- Without other writers `pruneSuperseded` cannot be seen by a reader of the newest row per key,
and a call that has budget left finds all that it would ever find. -/
theorem pruneSuperseded_invisible (hp : env.topics topic = some p)
    (hkeyed : p.tombstoneKind = some tombstoneKind) (hdb : t.core.db.RowidsDistinct)
    (hfault : t.fault = none) (uptoRowid maxRows : Nat) (hsafe : uptoRowid ≤ MAX_SAFE_INTEGER) :
    ∃ t' n, processPruneSuperseded env topic uptoRowid maxRows false t = .ok () t' ∧
      t'.settle = t.settle ++ [.pruned n] ∧
      (∀ bound, bound = none ∨ bound = some uptoRowid →
        t'.core.db.liveRows topic tombstoneKind bound =
          t.core.db.liveRows topic tombstoneKind bound) ∧
      (∀ r : LogRow, t.core.db.pruneFloor topic uptoRowid < r.rowid ∨ r.entry.topic ≠ topic →
        (r ∈ t'.core.db.sqLog.rows ↔ r ∈ t.core.db.sqLog.rows)) ∧
      t'.core.db.sqLog.rows.length + n = t.core.db.sqLog.rows.length ∧
      (n < maxRows → ∀ t₂ : Txn, t₂.core.db = t'.core.db → t₂.fault = none →
        ∃ t₃, processPruneSuperseded env topic uptoRowid maxRows false t₂ = .ok () t₃ ∧
          t₃.settle = t₂.settle ++ [.pruned 0] ∧ t₃.core.db = t'.core.db) := by
  obtain ⟨t', hrun, hdb', hsettle⟩ := processPruneSuperseded_ok hp hkeyed hfault uptoRowid maxRows
    false
  refine ⟨t', _, hrun, hsettle, ?_, ?_, ?_, ?_⟩
  · intro bound hbound
    rw [hdb']
    exact Db.liveRows_pruneSuperseded hdb _ (hbound.imp_left fun hnone => ⟨hnone, hsafe⟩)
  · intro r hspared
    rw [hdb']
    exact Db.mem_pruneSuperseded hdb _ hspared
  · rw [hdb']
    exact Db.length_pruneSuperseded hdb _
  · intro hleft t₂ hdb₂ hfault₂
    obtain ⟨t₃, hrun₃, hdb₃, hsettle₃⟩ := processPruneSuperseded_ok hp hkeyed hfault₂ uptoRowid
      maxRows false
    rw [hdb₂, hdb', Db.pruneSuperseded_pruneSuperseded hdb _ hleft] at hdb₃ hsettle₃
    exact ⟨t₃, hrun₃, hsettle₃, hdb₃.trans hdb'.symm⟩

/-- A node with one keyed topic. -/
def keyedEnv (writerId : WriterId) : Env where
  sha256Hex := Sha256.hexDigest
  jcs := canonicalize
  constants := {}
  writerId := writerId
  topics := fun T => if T = "t" then some { fullPolicy with tombstoneKind := some (js "del") } else none

/-- A row of one key of that topic. -/
def keyedRow (rowid : Nat) (writer : WriterId) (seq : Nat) (kind : String) : LogRow :=
  ⟨rowid, { hostEntry writer seq rowid kind "" with key := some (js "k") }⟩

/-- A transaction over a log. -/
def keyedTxn (rows : List LogRow) (nodup : (rows.map fun r => r.entry.id).Nodup) : Txn :=
  Txn.start { Core.init with db := { Core.init.db with sqLog := ⟨rows, nodup⟩ } } none

/-- A value, and a newer one of the same key. -/
theorem pruneSuperseded_invisible_of_two :
    let t := keyedTxn [keyedRow 1 "a" 1 "put", keyedRow 2 "a" 2 "put"] (by decide)
    ∃ t' n, processPruneSuperseded (keyedEnv "a") "t" 2 9 false t = .ok () t' ∧
      t'.settle = t.settle ++ [.pruned n] ∧
      (∀ bound, bound = none ∨ bound = some 2 →
        t'.core.db.liveRows "t" (js "del") bound = t.core.db.liveRows "t" (js "del") bound) ∧
      (∀ r : LogRow, t.core.db.pruneFloor "t" 2 < r.rowid ∨ r.entry.topic ≠ "t" →
        (r ∈ t'.core.db.sqLog.rows ↔ r ∈ t.core.db.sqLog.rows)) ∧
      t'.core.db.sqLog.rows.length + n = t.core.db.sqLog.rows.length ∧
      (n < 9 → ∀ t₂ : Txn, t₂.core.db = t'.core.db → t₂.fault = none →
        ∃ t₃, processPruneSuperseded (keyedEnv "a") "t" 2 9 false t₂ = .ok () t₃ ∧
          t₃.settle = t₂.settle ++ [.pruned 0] ∧ t₃.core.db = t'.core.db) :=
  pruneSuperseded_invisible rfl rfl (by unfold Db.RowidsDistinct; decide) rfl 2 9 (by decide)

namespace Db

variable {db : Db} {tombstoneKind : JsString} {uptoRowid maxRows floor : Nat}

/-- The newest row of each key, tombstones aside, as the graph of a map. -/
def liveMap (db : Db) (topic : Topic) (tombstoneKind : JsString) (U : Set Nat) :
    Set (Key × LogRow) :=
  {p | Newest LogRow.rowid keyOf (db.topicRows topic) U p.1 p.2 ∧ p.2.entry.kind ≠ tombstoneKind}

theorem liveMap_eq_iff {db' : Db} : db'.liveMap topic tombstoneKind U =
      db.liveMap topic tombstoneKind U ↔
    ∀ k r, r.entry.kind ≠ tombstoneKind →
      (Newest LogRow.rowid keyOf (db'.topicRows topic) U k r ↔
        Newest LogRow.rowid keyOf (db.topicRows topic) U k r) := by
  rw [Set.ext_iff, Prod.forall]
  apply forall₂_congr
  intro k r
  rw [liveMap, liveMap, Set.mem_ofPred_eq, Set.mem_ofPred_eq]
  tauto

/-- The deletion of other writers' rows, within its budget, lets a dead key come back. -/
def RevivesKey (db : Db) (self : WriterId) (topic : Topic) (tombstoneKind : JsString)
    (uptoRowid maxRows : Nat) : Prop :=
  1 ≤ db.pruneFloor topic uptoRowid ∧ ∃ k m r,
    Revives LogRow.rowid keyOf (fun r => r.entry.writer = self)
      (fun r => r ∈ (otherWriterRows topic self (db.pruneFloor topic uptoRowid) db).take maxRows)
      (fun r => r.entry.kind = tombstoneKind) (db.topicRows topic) uptoRowid k m r

theorem pruneSuperseded_true (self : WriterId) (tombstoneKind : JsString) (maxRows : Nat)
    (hfloor : 1 ≤ db.pruneFloor topic uptoRowid) :
    (db.pruneSuperseded self topic tombstoneKind uptoRowid maxRows true).1 =
      let others := db.prunePass topic maxRows
        (otherWriterRows topic self (db.pruneFloor topic uptoRowid))
      (others.1.compact topic tombstoneKind (db.pruneFloor topic uptoRowid) uptoRowid
        (maxRows - others.2)).1 := by
  rw [pruneSuperseded, if_pos hfloor]
  rfl

/-- The pass over other writers' rows keeps the live map when no key comes back. -/
theorem newest_others (h : db.RowidsDistinct) (hfloor : floor ≤ uptoRowid)
    (hmine : ∀ k r, Newest LogRow.rowid keyOf (db.topicRows topic) (Set.Iic uptoRowid) k r →
      r.entry.kind ≠ tombstoneKind → r.entry.writer = self) :
    (∀ U, Set.Iic uptoRowid ⊆ U → ∀ k r, ¬ r.entry.kind = tombstoneKind →
      (Newest LogRow.rowid keyOf ((db.prunePass topic maxRows
          (otherWriterRows topic self floor)).1.topicRows topic) U k r ↔
        Newest LogRow.rowid keyOf (db.topicRows topic) U k r)) ↔
      ¬ ∃ k m r, Revives LogRow.rowid keyOf (fun r => r.entry.writer = self)
        (fun r => r ∈ (otherWriterRows topic self floor db).take maxRows)
        (fun r => r.entry.kind = tombstoneKind) (db.topicRows topic) uptoRowid k m r := by
  have hselect : ∀ r ∈ otherWriterRows topic self floor db, r ∈ db.topicRows topic :=
    fun r hr => (mem_otherWriterRows.1 hr).1
  apply newest_drop_others (n := (db.sqLog.rows.map LogRow.rowid).sum)
  · exact fun r hr r' hr' heq => h.inj hr.1 hr'.1 heq
  · exact fun r hr => List.single_le_sum (fun _ _ => Nat.zero_le _) _
      (List.mem_map_of_mem hr.1)
  · exact fun r => mem_topicRows_prunePass h hselect
  · intro r _ hr
    obtain ⟨-, hle, hother⟩ := mem_otherWriterRows.1 (List.mem_of_mem_take hr)
    exact ⟨hother, hle.trans hfloor⟩
  · intro m _ r hr hm hother hle
    apply Paging.mem_take_of_le (h.pairwise _) hm _ hle
    exact mem_otherWriterRows.2
      ⟨hr, hle.trans (mem_otherWriterRows.1 (List.mem_of_mem_take hm)).2.1, hother⟩
  · exact hmine

theorem liveMap_pruneSuperseded (h : db.RowidsDistinct) (self : WriterId)
    (hmine : ∀ k r, Newest LogRow.rowid keyOf (db.topicRows topic) (Set.Iic uptoRowid) k r →
      r.entry.kind ≠ tombstoneKind → r.entry.writer = self) :
    (∀ U, Set.Iic uptoRowid ⊆ U →
      (db.pruneSuperseded self topic tombstoneKind uptoRowid maxRows true).1.liveMap topic
        tombstoneKind U = db.liveMap topic tombstoneKind U) ↔
      ¬ db.RevivesKey self topic tombstoneKind uptoRowid maxRows := by
  by_cases hfloor : 1 ≤ db.pruneFloor topic uptoRowid
  · have hcall := pruneSuperseded_true self tombstoneKind maxRows hfloor
    rw [hcall, RevivesKey, and_iff_right hfloor,
      ← newest_others h (pruneFloor_le _ _ _) hmine]
    apply forall₂_congr
    intro U hU
    rw [liveMap_eq_iff]
    apply forall₃_congr
    intro k r hlive
    rw [newest_compact (h.prunePass _ _ _) (pruneFloor_le _ _ _) hU hlive]
  · have hnone : db.pruneSuperseded self topic tombstoneKind uptoRowid maxRows true = (db, 0) := by
      rw [pruneSuperseded]
      exact if_neg hfloor
    rw [hnone]
    exact iff_of_true (fun _ _ => rfl) fun hrevives => hfloor hrevives.1

end Db

/-- With other writers' rows deleted too, the live map stays as it is exactly when no key comes
back: none whose newest row is a tombstone of another writer that goes, over an own value. -/
theorem pruneSuperseded_others_revives (hp : env.topics topic = some p)
    (hkeyed : p.tombstoneKind = some tombstoneKind) (hdb : t.core.db.RowidsDistinct)
    (hfault : t.fault = none) (uptoRowid maxRows : Nat)
    (hmine : ∀ k r, (k, r) ∈ t.core.db.liveMap topic tombstoneKind (Set.Iic uptoRowid) →
      r.entry.writer = env.writerId) :
    ∃ t', processPruneSuperseded env topic uptoRowid maxRows true t = .ok () t' ∧
      ((∀ U, Set.Iic uptoRowid ⊆ U →
          t'.core.db.liveMap topic tombstoneKind U = t.core.db.liveMap topic tombstoneKind U) ↔
        ¬ t.core.db.RevivesKey env.writerId topic tombstoneKind uptoRowid maxRows) := by
  obtain ⟨t', hrun, hdb', -⟩ := processPruneSuperseded_ok hp hkeyed hfault uptoRowid maxRows true
  refine ⟨t', hrun, ?_⟩
  rw [hdb']
  exact Db.liveMap_pruneSuperseded hdb _ fun k r hr hlive => hmine k r ⟨hr, hlive⟩

theorem mem_liveMap_two (a b : LogRow) (nodup : ([a, b].map fun r => r.entry.id).Nodup)
    (hnewer : a.rowid < b.rowid) (hkey : Db.keyOf a = Db.keyOf b) (hb : b.rowid ≤ 2)
    (htopic : b.entry.topic = "t")
    (hr : (k, r) ∈ (keyedTxn [a, b] nodup).core.db.liveMap "t" (js "del") (Set.Iic 2)) : r = b := by
  obtain ⟨⟨⟨hin, -⟩, hk, -, hmax⟩, -⟩ := hr
  rcases List.mem_cons.1 hin with rfl | hin
  · have hle := hmax b ⟨List.mem_cons_of_mem _ (List.mem_singleton.2 rfl), htopic⟩
      (hkey.symm.trans hk) hb
    omega
  · exact List.mem_singleton.1 hin

/-- Another writer's value under an own one. -/
theorem pruneSuperseded_others_revives_of_two :
    let t := keyedTxn [keyedRow 1 "b" 1 "put", keyedRow 2 "a" 1 "put"] (by decide)
    ∃ t', processPruneSuperseded (keyedEnv "a") "t" 2 9 true t = .ok () t' ∧
      ((∀ U, Set.Iic 2 ⊆ U →
          t'.core.db.liveMap "t" (js "del") U = t.core.db.liveMap "t" (js "del") U) ↔
        ¬ t.core.db.RevivesKey "a" "t" (js "del") 2 9) :=
  pruneSuperseded_others_revives rfl rfl (by unfold Db.RowidsDistinct; decide) rfl 2 9
    fun k r hr => congrArg (fun r : LogRow => r.entry.writer)
      (mem_liveMap_two (keyedRow 1 "b" 1 "put") (keyedRow 2 "a" 1 "put") (by decide) (by decide) rfl
        (by decide) rfl hr)

/-- Deleted by another writer, an own value comes back when the tombstone goes first. -/
theorem pruneSuperseded_others_resurrects :
    let t := keyedTxn [keyedRow 1 "a" 1 "put", keyedRow 2 "b" 1 "del"] (by decide)
    (∀ k r, (k, r) ∈ t.core.db.liveMap "t" (js "del") (Set.Iic 2) → r.entry.writer = "a") ∧
      ∃ t', processPruneSuperseded (keyedEnv "a") "t" 2 9 true t = .ok () t' ∧
        (js "k", keyedRow 1 "a" 1 "put") ∉ t.core.db.liveMap "t" (js "del") (Set.Iic 2) ∧
        (js "k", keyedRow 1 "a" 1 "put") ∈ t'.core.db.liveMap "t" (js "del") (Set.Iic 2) := by
  intro t
  have hdead : ∀ k r, (k, r) ∉ t.core.db.liveMap "t" (js "del") (Set.Iic 2) := by
    intro k r hr
    have heq : r = keyedRow 2 "b" 1 "del" :=
      mem_liveMap_two (keyedRow 1 "a" 1 "put") (keyedRow 2 "b" 1 "del") (by decide) (by decide) rfl (by decide) rfl hr
    exact hr.2 (congrArg (fun r : LogRow => r.entry.kind) heq)
  have hok : ∃ t', processPruneSuperseded (keyedEnv "a") "t" 2 9 true t = .ok () t' ∧
      t'.core.db = (t.core.db.pruneSuperseded "a" "t" (js "del") 2 9 true).1 ∧
      t'.settle = t.settle ++ [.pruned (t.core.db.pruneSuperseded "a" "t" (js "del") 2 9 true).2] :=
    processPruneSuperseded_ok rfl rfl rfl 2 9 true
  obtain ⟨t', hrun, hdb', -⟩ := hok
  have hids : t'.core.db.sqLog.rows.map LogRow.rowid = [1] := by
    rw [hdb']
    decide +kernel
  have honly : ∀ r ∈ t'.core.db.sqLog.rows, r = keyedRow 1 "a" 1 "put" := by
    intro r hr
    have hid : r.rowid ∈ [1] := hids ▸ List.mem_map_of_mem hr
    rw [hdb'] at hr
    rcases List.mem_cons.1 ((Db.pruneSuperseded_sublist ..).subset hr) with heq | hin
    · exact heq
    · rw [List.mem_singleton.1 hin] at hid
      cases List.mem_singleton.1 hid
  have hleft : keyedRow 1 "a" 1 "put" ∈ t'.core.db.sqLog.rows := by
    obtain ⟨r, hr, -⟩ := List.mem_map.1 (hids ▸ List.mem_singleton.2 rfl)
    exact honly r hr ▸ hr
  refine ⟨fun k r hr => (hdead k r hr).elim, t', hrun, hdead _ _, ⟨⟨?_, rfl⟩, rfl, Nat.le_succ 1, ?_⟩, ?_⟩
  · exact hleft
  · intro r hr _ _
    rw [honly r hr.1]
  · decide

end Seqscribe
