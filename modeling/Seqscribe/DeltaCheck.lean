import Mathlib.Data.Bool.AllAny
import Seqscribe.BackingTable
import Seqscribe.Host
import Seqscribe.Sorting
import Seqscribe.Utf8

namespace Seqscribe
set_option autoImplicit true

/-! The check of a delta against the rows. -/

variable {env : Env} {MAX_ROW_BYTES : Nat} {engine : Engine} {d : TableDef} {h h' : Backed d}
  {rows : List Row}

namespace Backed

/-- The state in which a function returns or throws. -/
def after : BackedM d → Backed d
  | .ok h | .error h => h

/-- The row maps are equal. -/
def SameRows (h : Backed d) (rows : List Row) : Prop :=
  (∀ r ∈ rows, r ∈ h.table.rows) ∧ ∀ r ∈ h.table.rows, r ∈ rows

/-- The rows stand in one order by the texts of their keys and by the keys in the table. -/
def OrdersAgree (engine : Engine) (d : TableDef) (rows : List Row) : Prop :=
  ∀ r ∈ rows, ∀ r' ∈ rows,
    (d.sortText engine r).map UInt16.toNat < (d.sortText engine r').map UInt16.toNat →
      d.sqlKey r < d.sqlKey r'

theorem mismatches_insertRows (rs : List Row) (h : Backed d) :
    (after (rs.foldlM (insertRow engine) h)).mismatches = h.mismatches := by
  induction rs generalizing h with
  | nil => rfl
  | cons r rs ih =>
    rw [List.foldlM_cons, insertRow]
    split
    · rfl
    · exact ih _

theorem mismatches_rewriteTable (rows : List Row) (h : Backed d) :
    (after (rewriteTable env MAX_ROW_BYTES engine rows h)).mismatches = h.mismatches := by
  rw [rewriteTable]
  split
  next => rfl
  next sorted _ =>
    let emptied : Backed d := { h with table := .empty }
    have hrows : (after (sorted.foldlM (insertRow engine) emptied)).mismatches = h.mismatches :=
      mismatches_insertRows sorted emptied
    split
    next heq => rwa [heq] at hrows
    next heq => rwa [heq] at hrows

/-- A mismatch is reported just when the digests differ. -/
theorem mismatches_verifyDelta {expected : List Row}
    (hsorted : sortedRows env MAX_ROW_BYTES engine d rows = some expected) :
    (after (verifyDelta env MAX_ROW_BYTES engine rows h)).mismatches =
      if digest env expected = digest env h.tableRows then h.mismatches
      else h.mismatches + 1 := by
  rw [verifyDelta, hsorted]
  dsimp only
  split
  next => rfl
  next =>
    have hone : (after (rewriteTable env MAX_ROW_BYTES engine rows
        { h with mismatches := h.mismatches + 1 })).mismatches = h.mismatches + 1 :=
      mismatches_rewriteTable rows _
    cases hrewrite : rewriteTable env MAX_ROW_BYTES engine rows
      { h with mismatches := h.mismatches + 1 } with
    | ok h' =>
      rw [hrewrite] at hone
      exact hone
    | error h' =>
      rw [hrewrite] at hone
      exact hone

/-- The check emits a `delta_mismatch`. -/
def Reports (env : Env) (MAX_ROW_BYTES : Nat) (engine : Engine) (h : Backed d)
    (rows : List Row) : Prop :=
  (after (verifyDelta env MAX_ROW_BYTES engine rows h)).mismatches = h.mismatches + 1

theorem reports_iff {expected : List Row}
    (hsorted : sortedRows env MAX_ROW_BYTES engine d rows = some expected) :
    Reports env MAX_ROW_BYTES engine h rows ↔ digest env expected ≠ digest env h.tableRows := by
  rw [Reports, mismatches_verifyDelta hsorted]
  split
  next heq => exact ⟨fun hsucc => absurd hsucc.symm (Nat.succ_ne_self _), fun hne => absurd heq hne⟩
  next hne => exact ⟨fun _ => hne, fun _ => rfl⟩

/-- Keys that are texts without surrogates stand in one order. -/
theorem ordersAgree_of_basic
    (hkeys : ∀ r ∈ rows, ∃ s, r.get d.rowKey = some (.str s) ∧ ∀ u ∈ s, ¬ isHigh u ∧ ¬ isLow u) :
    OrdersAgree engine d rows := by
  intro r hr r' hr' hlt
  obtain ⟨s, hs, hbasic⟩ := hkeys r hr
  obtain ⟨s', hs', hbasic'⟩ := hkeys r' hr'
  rw [TableDef.sortText, TableDef.sortText, hs, hs'] at hlt
  rw [TableDef.sqlKey, TableDef.sqlKey, hs, hs']
  have hlt : s.map UInt16.toNat < s'.map UInt16.toNat := hlt
  rw [← codePoints_of_basic hbasic, ← codePoints_of_basic hbasic'] at hlt
  exact WithBot.coe_lt_coe.2 (Sum.Lex.inr_lt_inr_iff.2 (utf8_lt_iff.2 hlt))

end Backed

open Backed in
/-- On rows with distinct keys and digests that do not collide, the check reports every table that
differs from the rows; and it passes a table that does not just when the texts of the keys and the
keys in the table put the rows in one order. -/
theorem verifyDelta_reports_iff (hvalid : rows.all (validateRow env MAX_ROW_BYTES) = true)
    (hkeys : (rows.map (d.sortText engine)).Nodup)
    (hdigest : ∀ expected, sortedRows env MAX_ROW_BYTES engine d rows = some expected →
      digest env expected = digest env h.tableRows → expected = h.tableRows) :
    (¬ SameRows h rows → Reports env MAX_ROW_BYTES engine h rows) ∧
    (SameRows h rows → (¬ Reports env MAX_ROW_BYTES engine h rows ↔ OrdersAgree engine d rows)) := by
  let text (r : Row) : List Nat := (d.sortText engine r).map UInt16.toNat
  let expected := rows.insertionSort fun r r' => text r ≤ text r'
  have hsorted : sortedRows env MAX_ROW_BYTES engine d rows = some expected := if_pos hvalid
  have hreports : Reports env MAX_ROW_BYTES engine h rows ↔ expected ≠ h.tableRows :=
    (reports_iff hsorted).trans (not_congr ⟨hdigest _ hsorted, fun heq => congrArg _ heq⟩)
  have hexpected (r : Row) : r ∈ expected ↔ r ∈ rows := (Sorting.perm_insertionSort text rows).mem_iff
  have htable (r : Row) : r ∈ h.tableRows ↔ r ∈ h.table.rows :=
    (Sorting.perm_insertionSort d.sqlKey h.table.rows).mem_iff
  apply And.intro
  · intro hdiffer
    rw [hreports]
    intro heq
    apply hdiffer
    have hsame (r : Row) : r ∈ rows ↔ r ∈ h.table.rows := by rw [← hexpected, ← htable, heq]
    exact ⟨fun r => (hsame r).1, fun r => (hsame r).2⟩
  · intro hsame
    rw [hreports, not_not]
    have hnodup : (rows.map text).Nodup := by
      have hunits := hkeys.map (List.map_injective_iff.2 fun u v => UInt16.toNat_inj.1)
      rwa [List.map_map] at hunits
    exact Sorting.insertionSort_eq_iff hnodup h.table.nodup fun r => ⟨hsame.1 r, hsame.2 r⟩

/-- The value of a text of decimal digits. -/
def decimal (s : JsString) : Option Nat :=
  if s ≠ [] ∧ s.all (fun u => decide (48 ≤ u.toNat ∧ u.toNat < 58)) = true then
    some (s.foldl (fun n u => 10 * n + (u.toNat - 48)) 0)
  else none

/-- A column of numbers makes a number of a text of digits. -/
def Cell.withAffinity (type : ColType) (c : Cell) : Cell :=
  match type, c with
  | .INTEGER, .str s | .REAL, .str s => ((decimal s).map fun n : Nat => Cell.num n).getD (.str s)
  | _, c => c

/-- SQLite for texts that are well formed and numbers that are small integers. -/
def plainEngine : Engine where
  numeral x := js (toString x.num)
  keep type primary c :=
    match type, primary, c.withAffinity type with
    | .INTEGER, true, .str _ => none
    | _, _, c => some c
  finds type k key := decide (((Cell.str k).withAffinity type).collate = key)

/-- A table of counts by key. -/
def countTable (type : ColType) (delta : Bool) : TableDef where
  rowKey := "k"
  schema := ⟨[("k", type), ("n", .INTEGER)], by simp⟩
  known := rfl
  delta := delta

def countRow (k : Cell) (n : Rat) : Row := .ofList [("k", k), ("n", .num n)]

/-- A table that holds the rows. -/
def written (type : ColType) (delta : Bool) (rows : List Row) : Backed (countTable type delta) :=
  Backed.after (Backed.rewriteTable (hostEnv "a") 1000 plainEngine rows ⟨.empty, none, 0, 0⟩)

instance (h : Backed d) (rows : List Row) : Decidable (Backed.SameRows h rows) :=
  inferInstanceAs (Decidable ((∀ r ∈ rows, r ∈ h.table.rows) ∧ ∀ r ∈ h.table.rows, r ∈ rows))

instance (h : Backed d) (rows : List Row) :
    Decidable (Backed.Reports env MAX_ROW_BYTES engine h rows) :=
  inferInstanceAs (Decidable ((_ : Nat) = _))

open Backed in
theorem verifyDelta_reports_of_words :
    let rows := [countRow (.str (js "b")) 1, countRow (.str (js "a")) 2]
    SameRows (written .TEXT true rows) rows ∧
      ¬ Reports (hostEnv "a") 1000 plainEngine (written .TEXT true rows) rows := by
  intro rows
  have hsame : SameRows (written .TEXT true rows) rows := by decide +kernel
  refine ⟨hsame, ((verifyDelta_reports_iff ?_ ?_ ?_).2 hsame).2 ?_⟩
  · decide +kernel
  · decide +kernel
  · intro expected hexpected _
    have hsorted : sortedRows (hostEnv "a") 1000 plainEngine (countTable .TEXT true) rows =
      some (written .TEXT true rows).tableRows := by decide +kernel
    exact Option.some.inj (hexpected.symm.trans hsorted)
  · apply ordersAgree_of_basic
    intro r hr
    rcases List.mem_cons.1 hr with rfl | hr
    · exact ⟨js "b", by decide +kernel, by
        simp only [isHigh, isLow]
        exact List.all_iff_forall_prop.1 (by decide +kernel)⟩
    · obtain rfl := List.mem_singleton.1 hr
      exact ⟨js "a", by decide +kernel, by
        simp only [isHigh, isLow]
        exact List.all_iff_forall_prop.1 (by decide +kernel)⟩

open Backed in
/-- The table holds the very rows, and a mismatch is reported: JavaScript puts U+1F600 before
U+FF5E and 10 before 9, and SQLite after them. -/
theorem equal_table_reported :
    (let rows := [countRow (.str [0xFF5E]) 1, countRow (.str [0xD83D, 0xDE00]) 2]
     SameRows (written .TEXT true rows) rows ∧
       Reports (hostEnv "a") 1000 plainEngine (written .TEXT true rows) rows) ∧
    (let rows := [countRow (.num 9) 1, countRow (.num 10) 2]
     SameRows (written .INTEGER true rows) rows ∧
       Reports (hostEnv "a") 1000 plainEngine (written .INTEGER true rows) rows) := by
  decide +kernel

end Seqscribe
