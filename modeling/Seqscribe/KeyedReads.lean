import Seqscribe.Compaction
import Seqscribe.Paging
import Seqscribe.Store

namespace Seqscribe
set_option autoImplicit true

/-! The newest row per key of a keyed topic. -/

open Compaction

def KEYED_READ_PAGE : Nat := 500

namespace Db

/-- The rows of a topic. -/
def topicRows (db : Db) (topic : Topic) : Set LogRow :=
  {r | r ∈ db.sqLog.rows ∧ r.entry.topic = topic}

def keyOf (r : LogRow) : Option Key := r.entry.key

def latestPerKeyPage (db : Db) (topic : Topic) (uptoRowid : Option Nat) (afterRowid limit : Nat) :
    List LogRow :=
  let upto := uptoRowid.getD MAX_SAFE_INTEGER
  (db.sqLog.selectBy (fun a =>
    decide (a.entry.topic = topic ∧ afterRowid < a.rowid ∧ a.rowid ≤ upto) &&
      (a.entry.key.isNone || !Store.hasNewerOfKey db topic upto a)) (·.rowid)).take limit

/-- The loop ends with a page that is not full, at the latest after one for every row. -/
def latestPerKey (db : Db) (topic : Topic) (uptoRowid : Option Nat) : List LogRow :=
  Paging.readPages LogRow.rowid (fun after => db.latestPerKeyPage topic uptoRowid after KEYED_READ_PAGE)
    KEYED_READ_PAGE (db.sqLog.rows.length + 1) 0

/-- No two rows have one rowid, which is the primary key. -/
def RowidsDistinct (db : Db) : Prop := (db.sqLog.rows.map LogRow.rowid).Nodup

variable {db : Db}

theorem RowidsDistinct.inj (h : db.RowidsDistinct) (hr : r ∈ db.sqLog.rows)
    (hr' : r' ∈ db.sqLog.rows) (heq : r.rowid = r'.rowid) : r = r' :=
  List.inj_on_of_nodup_map h hr hr' heq

theorem hasNewerOfKey_iff {a : LogRow} :
    Store.hasNewerOfKey db topic upto a = true ↔
      Superseded LogRow.rowid keyOf (db.topicRows topic) upto a := by
  rw [Store.hasNewerOfKey, List.any_eq_true]
  constructor
  · rintro ⟨b, hb, hnewer⟩
    obtain ⟨htopic, hsome, heq, hlt, hle⟩ := of_decide_eq_true hnewer
    exact ⟨b, ⟨hb, htopic⟩, hsome, heq, hlt, hle⟩
  · rintro ⟨b, ⟨hb, htopic⟩, hsome, heq, hlt, hle⟩
    exact ⟨b, hb, decide_eq_true ⟨htopic, hsome, heq, hlt, hle⟩⟩

/-- Without a newer one a row is the newest of its key. -/
theorem newest_iff {a : LogRow} :
    Newest LogRow.rowid keyOf (db.topicRows topic) (Set.Iic upto) k a ↔
      (a ∈ db.topicRows topic ∧ keyOf a = some k ∧ a.rowid ≤ upto) ∧
        ¬ Superseded LogRow.rowid keyOf (db.topicRows topic) upto a := by
  constructor
  · exact fun h => ⟨⟨h.1, h.2.1, h.2.2.1⟩, h.not_superseded (Set.Subset.refl _)⟩
  · rintro ⟨⟨ha, hkey, hle⟩, hno⟩
    refine ⟨ha, hkey, hle, fun b hb hkey' hle' => ?_⟩
    by_contra hlt
    apply hno
    refine ⟨b, hb, ?_, hkey'.trans hkey.symm, Nat.not_le.1 hlt, hle'⟩
    rw [hkey']
    rfl

/-- All of the newest rows, in the order of their rowids. -/
def newestRows (db : Db) (topic : Topic) (upto : Nat) : List LogRow :=
  db.sqLog.selectBy (fun a => decide (a.entry.topic = topic ∧ a.rowid ≤ upto) &&
    (a.entry.key.isNone || !Store.hasNewerOfKey db topic upto a)) (·.rowid)

theorem mem_newestRows : a ∈ db.newestRows topic upto ↔
    (a ∈ db.topicRows topic ∧ a.rowid ≤ upto) ∧
      (a.entry.key.isNone ∨ Store.hasNewerOfKey db topic upto a = false) := by
  rw [newestRows, Table.mem_selectBy, Bool.and_eq_true, decide_eq_true_iff, Bool.or_eq_true,
    Bool.not_eq_true', topicRows, Set.mem_ofPred_eq]
  tauto

/-- A selection by rowid is sorted strictly. -/
theorem RowidsDistinct.pairwise (h : db.RowidsDistinct) (p : LogRow → Bool) :
    (db.sqLog.selectBy p (·.rowid)).Pairwise fun r r' => r.rowid < r'.rowid := by
  have hnodup : ((db.sqLog.selectBy p (·.rowid)).map LogRow.rowid).Nodup := by
    refine (((List.perm_insertionSort _ _).map LogRow.rowid).nodup_iff).2 ?_
    exact h.sublist (List.filter_sublist.map LogRow.rowid)
  rw [List.Nodup, List.pairwise_map] at hnodup
  exact hnodup.imp₂ (fun r r' hne hle => Nat.lt_of_le_of_ne hle hne)
    (db.sqLog.pairwise_selectBy p (·.rowid))

/-- A page is the part of them after a rowid. -/
theorem latestPerKeyPage_eq (h : db.RowidsDistinct) (topic : Topic) (uptoRowid : Option Nat)
    (after limit : Nat) : db.latestPerKeyPage topic uptoRowid after limit =
      (Paging.rest LogRow.rowid (db.newestRows topic (uptoRowid.getD MAX_SAFE_INTEGER))
        after).take limit := by
  have hsorted : (Paging.rest LogRow.rowid (db.newestRows topic (uptoRowid.getD MAX_SAFE_INTEGER))
      after).Pairwise fun r r' => r.rowid < r'.rowid := (h.pairwise _).filter _
  rw [latestPerKeyPage]
  congr 1
  apply Sorting.eq_of_sorted (h.pairwise _) hsorted
  intro r
  rw [Paging.rest, List.mem_filter, mem_newestRows, Table.mem_selectBy, Bool.and_eq_true, decide_eq_true_iff,
    Bool.or_eq_true, Bool.not_eq_true', topicRows, Set.mem_ofPred_eq, decide_eq_true_iff]
  tauto

/-- The loop reads all of them; a rowid is positive. -/
theorem latestPerKey_eq (h : db.RowidsDistinct) (topic : Topic) (uptoRowid : Option Nat) :
    db.latestPerKey topic uptoRowid =
      Paging.rest LogRow.rowid (db.newestRows topic (uptoRowid.getD MAX_SAFE_INTEGER)) 0 := by
  apply Paging.readPages_eq (h.pairwise _) (by decide)
    (fun after => latestPerKeyPage_eq h topic uptoRowid after _)
  have hlen : (db.newestRows topic (uptoRowid.getD MAX_SAFE_INTEGER)).length ≤
      db.sqLog.rows.length := by
    rw [newestRows, Table.selectBy, List.length_insertionSort]
    exact List.length_filter_le _ _
  exact Nat.lt_succ_of_le ((List.length_filter_le _ _).trans hlen)

theorem mem_latestPerKey (h : db.RowidsDistinct) : a ∈ db.latestPerKey topic uptoRowid ↔
    (a ∈ db.topicRows topic ∧ 0 < a.rowid ∧ a.rowid ≤ uptoRowid.getD MAX_SAFE_INTEGER) ∧
      (keyOf a = none ∨ ∃ k, Newest LogRow.rowid keyOf (db.topicRows topic)
        (Set.Iic (uptoRowid.getD MAX_SAFE_INTEGER)) k a) := by
  rw [latestPerKey_eq h, Paging.rest, List.mem_filter, mem_newestRows, decide_eq_true_iff]
  cases hkey : a.entry.key with
  | none => simp [keyOf, hkey, and_assoc, and_comm]
  | some k =>
    rw [← Bool.not_eq_true, hasNewerOfKey_iff]
    simp only [newest_iff, keyOf, hkey, Option.isNone_some, Bool.false_eq_true, false_or,
      reduceCtorEq, Option.some.injEq]
    constructor
    · rintro ⟨⟨⟨hin, hle⟩, hno⟩, hpos⟩
      exact ⟨⟨hin, hpos, hle⟩, k, ⟨hin, rfl, hle⟩, hno⟩
    · rintro ⟨⟨hin, hpos, hle⟩, k', -, hno⟩
      exact ⟨⟨⟨hin, hle⟩, hno⟩, hpos⟩

end Db

end Seqscribe
