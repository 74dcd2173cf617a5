import Seqscribe.RegisterHub

namespace Seqscribe
set_option autoImplicit true

/-! Register state in a snapshot. The order of an object's names is that of their assignment: no
fold reads it. -/

/-- A plain object that is filled by assignment. -/
abbrev Record (α : Type) := Table JsString (JsString × α) Prod.fst

/-- `record[name] = x`, which for this one name sets the prototype. -/
def Record.assign (record : Record α) (x : JsString × α) : Record α :=
  if x.1 = js "__proto__" then record else record.upsert x

def Record.ofAssigned (xs : List (JsString × α)) : Record α := xs.foldl Record.assign .empty

structure MemberSnapshot where
  present : Bool
  entry : EntryId
  order : Order
  frontier : Option (List EntryId)
  superseded : Option (List EntryId)

structure KeySnapshot where
  /-- Absent: deleted scalar state. -/
  value : Option JsonValue
  winner : EntryId
  winnerOrder : Order
  owner : Option JsString
  resetGen : Nat
  members : Option (Record MemberSnapshot)
  frontier : List EntryId
  superseded : Option (List EntryId)

structure RegisterSnapshotState where
  keys : Record KeySnapshot

/-- A list that is left out when it is empty. -/
def unlessEmpty (ids : List EntryId) : Option (List EntryId) :=
  if ids = [] then none else some ids

def MemberState.snapshot (ms : MemberState) : MemberSnapshot where
  present := ms.present
  entry := ms.entry
  order := ms.order
  frontier := unlessEmpty ms.frontier
  superseded := unlessEmpty ms.superseded

/-- A key without a winner is left out. -/
def KeyState.snapshot (ks : KeyState) : Option KeySnapshot :=
  match ks.winner, ks.winnerOrder with
  | some winner, some winnerOrder => some {
      value := if ks.scalar then ks.value else none
      winner := winner
      winnerOrder := winnerOrder
      owner := ks.owner
      resetGen := ks.resetGen
      members :=
        if ks.members.rows = [] then none
        else some (Record.ofAssigned (ks.members.rows.map fun m => (m.1, m.2.snapshot)))
      frontier := ks.frontier
      superseded := unlessEmpty ks.superseded }
  | _, _ => none

def snapshotOf (keys : Keys) : RegisterSnapshotState where
  keys := Record.ofAssigned (keys.rows.filterMap fun row => row.2.snapshot.map (row.1, ·))

def MemberSnapshot.restore (mm : MemberSnapshot) : MemberState where
  present := mm.present
  entry := mm.entry
  order := mm.order
  frontier := mm.frontier.getD [mm.entry]
  superseded := mm.superseded.getD []

def KeySnapshot.restore (k : KeySnapshot) : KeyState :=
  let members : Table JsString (JsString × MemberState) Prod.fst :=
    Table.ofRows Prod.fst ((k.members.getD .empty).rows.map fun m => (m.1, m.2.restore))
  { value := k.value
    scalar := members.rows.isEmpty
    winner := some k.winner
    winnerOrder := some k.winnerOrder
    owner := k.owner
    resetGen := k.resetGen
    members := members
    frontier := k.frontier
    superseded := k.superseded.getD []
    -- pre-cut requests are not carried
    requests := [] }

def keysFromSnapshot (snap : RegisterSnapshotState) : Keys :=
  Table.ofRows Prod.fst (snap.keys.rows.map fun row => (row.1, row.2.restore))

/-! What a snapshot makes of one key. -/

theorem Record.rows_ofAssigned {xs : List (JsString × α)} (hnodup : (xs.map Prod.fst).Nodup) :
    (Record.ofAssigned xs).rows = xs.filter fun x => decide (x.1 ≠ js "__proto__") := by
  have hfold : ∀ record : Record α, xs.foldl Record.assign record =
      (xs.filter fun x => decide (x.1 ≠ js "__proto__")).foldl Table.upsert record := by
    clear hnodup
    induction xs with
    | nil => exact fun _ => rfl
    | cons x xs ih =>
      intro record
      rw [List.foldl_cons, ih]
      by_cases hx : x.1 = js "__proto__" <;> simp [Record.assign, hx]
  rw [Record.ofAssigned, hfold]
  exact Table.rows_ofRows (hnodup.sublist (List.filter_sublist.map _))

@[simp] theorem getD_unlessEmpty (ids : List EntryId) : (unlessEmpty ids).getD [] = ids := by
  unfold unlessEmpty
  by_cases h : ids = [] <;> simp [h]

/-- Snapshots of members whose frontiers are not empty give them back. -/
theorem MemberState.restore_snapshot {ms : MemberState} (h : ms.frontier ≠ []) :
    ms.snapshot.restore = ms := by
  have hfrontier : (unlessEmpty ms.frontier).getD [ms.entry] = ms.frontier := by
    rw [unlessEmpty, if_neg h]
    rfl
  rw [MemberState.snapshot, MemberSnapshot.restore, getD_unlessEmpty, hfrontier]

theorem MemberState.frontier_restore_snapshot (ms : MemberState) :
    ms.snapshot.restore.frontier ≠ [] := by
  by_cases h : ms.frontier = [] <;>
    simp [MemberState.snapshot, MemberSnapshot.restore, unlessEmpty, h]

/-- What a key is once a snapshot of it is restored. -/
def restoredKey (key : Key) (ks : KeyState) : KeyState :=
  if key = js "__proto__" then .fresh else (ks.snapshot.map KeySnapshot.restore).getD .fresh

@[simp] theorem restoredKey_fresh (key : Key) : restoredKey key .fresh = .fresh := by
  rw [restoredKey]
  split
  · rfl
  · rfl

theorem rows_restored (keys : Keys) :
    (keysFromSnapshot (snapshotOf keys)).rows =
      (keys.rows.filter fun row => decide (row.1 ≠ js "__proto__")).filterMap fun row =>
        row.2.snapshot.map fun k => (row.1, k.restore) := by
  have hnames : ∀ rows : List (Key × KeyState),
      ((rows.filterMap fun row => row.2.snapshot.map (row.1, ·)).map Prod.fst).Sublist
        (rows.map Prod.fst) := by
    intro rows
    induction rows with
    | nil => exact .slnil
    | cons row rows ih =>
      cases hs : row.2.snapshot with
      | none =>
        simp only [List.filterMap_cons, hs, Option.map_none, List.map_cons]
        exact ih.cons _
      | some k =>
        simp only [List.filterMap_cons, hs, Option.map_some, List.map_cons]
        exact ih.cons_cons _
  have hnodup := keys.nodup.sublist (hnames keys.rows)
  rw [keysFromSnapshot, snapshotOf, Record.rows_ofAssigned hnodup, Table.rows_ofRows]
  · clear hnodup
    induction keys.rows with
    | nil => rfl
    | cons row rows ih =>
      simp only [ne_eq, decide_not] at ih
      by_cases hp : row.1 = js "__proto__" <;> cases hs : row.2.snapshot <;>
        simp [hp, hs, ih]
  · rw [List.map_map]
    exact hnodup.sublist (List.filter_sublist.map _)

theorem state_restored (keys : Keys) (key : Key) :
    (keysFromSnapshot (snapshotOf keys)).state key = restoredKey key (keys.state key) := by
  have hmem : ∀ row, row ∈ (keysFromSnapshot (snapshotOf keys)).rows ↔
      ∃ ks, (row.1, ks) ∈ keys.rows ∧ row.1 ≠ js "__proto__" ∧
        ks.snapshot.map KeySnapshot.restore = some row.2 := by
    intro row
    rw [rows_restored, List.mem_filterMap]
    constructor
    · rintro ⟨r, hr, hs⟩
      obtain ⟨hr, hp⟩ := List.mem_filter.1 hr
      obtain ⟨k, hk, rfl⟩ := Option.map_eq_some_iff.1 hs
      exact ⟨r.2, hr, by simpa using hp, by rw [hk]; rfl⟩
    · rintro ⟨ks, hr, hp, hs⟩
      obtain ⟨k, hk, he⟩ := Option.map_eq_some_iff.1 hs
      refine ⟨(row.1, ks), List.mem_filter.2 ⟨hr, by simpa using hp⟩, ?_⟩
      simp [hk, he]
  rw [Keys.state, Keys.state]
  cases hget : keys.get key with
  | none =>
    have hnone : (keysFromSnapshot (snapshotOf keys)).get key = none := by
      rw [Table.get_eq_none_iff]
      rintro row hrow rfl
      obtain ⟨ks, hr, -⟩ := (hmem row).1 hrow
      exact Table.get_eq_none_iff.1 hget _ hr rfl
    rw [hnone]
    exact (restoredKey_fresh key).symm
  | some row =>
    obtain ⟨hrow, rfl⟩ := Table.get_eq_some_iff.1 hget
    change _ = restoredKey row.1 row.2
    rw [restoredKey]
    cases hr : (keysFromSnapshot (snapshotOf keys)).get row.1 with
    | some row' =>
      obtain ⟨hrow', hk⟩ := Table.get_eq_some_iff.1 hr
      obtain ⟨ks, hks, hp, hs⟩ := (hmem row').1 hrow'
      have hsame : ks = row.2 := by
        have := Table.get_of_mem hks
        rw [hk, hget] at this
        exact (congrArg Prod.snd (Option.some.inj this)).symm
      rw [← hk, if_neg hp, ← hsame, hs]
      rfl
    | none =>
      split
      · rfl
      · next hp =>
        cases hs : row.2.snapshot with
        | none => rfl
        | some k =>
          refine absurd rfl (Table.get_eq_none_iff.1 hr (row.1, k.restore) ?_)
          exact (hmem _).2 ⟨row.2, hrow, hp, by rw [hs]; rfl⟩

end Seqscribe
