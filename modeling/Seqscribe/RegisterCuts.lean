import Seqscribe.RegisterConverge

namespace Seqscribe
set_option autoImplicit true

/-! Register topics over certificates, archive passes and quarantines. -/

namespace RegisterHub

/-- Arrivals, passes, certificates and archive passes, each when it is safe. -/
def CutReady (d : RegisterDeps) (topic : Topic) (h : RegisterHub) : Event → Prop
  | .quarantine _ => False
  | ev => Ready d topic h ev

theorem CutReady.ready {d : RegisterDeps} {h : RegisterHub} {ev : Event}
    (hready : CutReady d topic h ev) : Ready d topic h ev := by
  cases ev with
  | quarantine p => exact hready.elim
  | commit es => exact hready
  | start => exact hready
  | resume => exact hready
  | rebaseAtCut ord => exact hready
  | archive p atMs => exact hready

theorem isAncestor_of_no_causal {e : LogEntry} (hno : e.causal = none) (lookup : Lookup)
    (a : EntryId) : isAncestor lookup a e = false := by
  rw [isAncestor, ANCESTOR_WALK_CAP, ancestorWalk, hno]

/-- An entry without a causal pointer walks nowhere. -/
theorem walksHot_of_no_causal {h : RegisterHub} (hpass : h.pass = .forward [e] last)
    (hno : e.causal = none) : WalksHot topic h := by
  rintro e' (⟨last', todo, hp⟩ | ⟨todo, hp⟩) a
  · rw [hpass] at hp
    cases hp
    rw [isAncestor_of_no_causal hno, isAncestor_of_no_causal hno]
  · rw [hpass] at hp
    cases hp

theorem carried_of_rows {keys : Keys} (h : ∀ row ∈ keys.rows, Carried row.1 row.2) (key : Key) :
    Carried key (keys.state key) := by
  cases hget : keys.get key with
  | none =>
    rw [Keys.state, hget]
    exact restoredKey_fresh key
  | some row =>
    obtain ⟨hrow, rfl⟩ := Table.get_eq_some_iff.1 hget
    rw [Keys.state, hget]
    exact h row hrow

/-- Before the first base any commit between passes is safe. -/
theorem ready_commit {d : RegisterDeps} {h : RegisterHub} (hidle : h.pass.isIdle = true)
    (hbase : h.base.isNone = true) (hpayloads : ∀ e ∈ es, e.topic = topic → PayloadOk d e)
    (hback : (h.db.commitNew es).Backward topic) : Ready d topic h (.commit es) := by
  refine ⟨hpayloads, hback, fun e _ _ => .inr ⟨fun base hb => ?_, fun todo hpass => ?_⟩⟩
  · rw [Option.mem_def.1 hb] at hbase
    cases hbase
  · rw [hpass] at hidle
    cases hidle

/-- A rebase with nothing archived, of keys that a snapshot carries. -/
theorem ready_rebase {d : RegisterDeps} {h : RegisterHub} {ord : Order} (hno : h.db.sqArchive.rows = [])
    (hcarried : ∀ row ∈ (stateAt d topic h ord).rows, Carried row.1 row.2) :
    Ready d topic h (.rebaseAtCut ord) := by
  refine ⟨fun e _ _ a => ?_, ?_, carried_of_rows hcarried⟩
  · rw [Db.lookupAll_of_unarchived hno]
  · rintro e ⟨-, a, ha, -⟩
    rw [hno] at ha
    cases ha

end RegisterHub

/-- A covered entry is archived, and a later one follows. -/
def archivedCut : List RegisterHub.Event :=
  [.commit [setEntry "k" "a" 1 1 none], .start, .resume, .rebaseAtCut ⟨1, 0, "a", 1⟩,
    .archive (fun _ => true) 0, .commit [setEntry "k" "b" 1 2 none], .start, .resume]

/-- A certificate up to the stamp 5, and then an entry that it covers. -/
def coveredAfterCut : List RegisterHub.Event :=
  [.commit [setEntry "k" "a" 1 5 none], .start, .resume, .rebaseAtCut ⟨5, 0, "a", 1⟩,
    .commit [setEntry "j" "b" 1 3 none], .start]

end Seqscribe
