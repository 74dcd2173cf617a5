import Seqscribe.ViewOrder

namespace Seqscribe
set_option autoImplicit true

open Replay

/-! Reads that start from a checkpoint. -/

namespace ViewHub

variable {S R : Type} {v : ViewDef S R} [DecidableEq R] {topic : Topic} {N : Nat}

/-- What happens to a view over a log from which no row is deleted. The process may stop between
any two turns of a pass: then comes `register`. -/
inductive Event where
  | commit (es : List LogEntry)
  | turn
  | register
  | rebuild
  | rebaseAtCut (ord : Order)

def step (topic : Topic) (N : Nat) (h : ViewHub v) : Event → ViewHub v
  | .commit es => { h with db := h.db.commit es }
  | .turn => if h.inst.faulted then h else (materializeBatch topic N h).1
  | .register => register topic N h
  | .rebuild => rebuild topic N h
  | .rebaseAtCut ord => rebaseAtCut topic h ord

/-- No entry gets below a checkpoint behind its back: a commit brings nothing new at or below a
stored checkpoint, and a forward turn leaves no row for later turns that sorts below its batch. -/
def Ready (topic : Topic) (h : ViewHub v) : Event → Prop
  | .commit es => ∀ e ∈ es, e.topic = topic → h.db.Holds topic e ∨
      ∀ c ∈ h.checkpoints.rows, c.1 < orderOf e
  | .turn => ∀ first, (h.newBatch topic).head? = some first → ¬ Upto h.inst.ord first →
      ∀ r ∈ h.remaining topic, r ∉ h.newRows topic →
        ∀ e ∈ h.newBatch topic, orderOf e < orderOf r.entry
  | .register | .rebuild | .rebaseAtCut _ => True

omit [DecidableEq R] in
/-- A turn that takes all the new rows is ready. -/
theorem ready_turn {h : ViewHub v} (hfew : (h.remaining topic).length ≤ FOLD_BATCH) :
    Ready topic h .turn := by
  intro first _ _ r hr hnew
  have hsel : (h.db.sqLog.selectBy
      (fun r => decide (r.entry.topic = topic ∧ h.inst.lastRowid < r.rowid)) (·.rowid)).length ≤
      FOLD_BATCH := (List.length_insertionSort ..).trans_le hfew
  have hmem : r ∈ h.newRows topic := by
    rw [newRows, Db.entriesForTopicFromRowid, List.take_of_length_le hsel, Table.mem_selectBy]
    exact List.mem_filter.1 hr
  exact absurd hmem hnew

/-- Every step of the run is ready when it happens. -/
def RunReady (topic : Topic) (N : Nat) : ViewHub v → List Event → Prop
  | _, [] => True
  | h, ev :: evs => Ready topic h ev ∧ RunReady topic N (step topic N h ev) evs

/-- Everything at or below a checkpoint is in it. -/
def Complete (topic : Topic) (h : ViewHub v) : Prop :=
  ∀ c ∈ h.checkpoints.rows, Point v (h.db.Known topic) (h.db.Known topic) c

structure Fresh (topic : Topic) (h : ViewHub v) : Prop where
  unfaulted : h.inst.faulted = false
  numbered : h.db.Numbered
  unarchived : ∀ e, ¬ h.db.Archived topic e
  watermark : h.inst.lastRowid ≤ h.db.logSequence
  sound : h.Sound topic
  complete : Complete topic h
  inSync : InSync h

omit [DecidableEq R] in
theorem Complete.onFold {h : ViewHub v} (hc : Complete topic h) :
    ∀ c ∈ h.checkpoints.rows, ∃ es, c.2 = v.fold es := by
  intro c hmem
  obtain ⟨X, -, hX⟩ := hc c hmem
  exact ⟨X, hX⟩

omit [DecidableEq R] in
/-- A view that has folded everything known. -/
theorem Fresh.of_tracks {h h' : ViewHub v} (hn : h.db.Numbered)
    (hno : ∀ e, ¬ h.db.Archived topic e) (hdb : h'.db = h.db)
    (hrow : h'.inst.lastRowid ≤ h.db.logSequence) (hnf : h'.inst.faulted = false)
    (hsync : InSync h') (ht : Tracks (h.db.Known topic) (h.db.Known topic) h') :
    Fresh topic h' where
  unfaulted := hnf
  numbered := hdb ▸ hn
  unarchived := hdb ▸ hno
  watermark := hdb ▸ hrow
  sound := by
    rw [Sound, hdb]
    exact ⟨ht.state.mono (fun _ => Db.KnownTo.known) fun _ h => h,
      fun c hc => (ht.points c hc).mono (fun _ he _ => he.known) fun _ h => h⟩
  complete := by
    intro c hc
    rw [hdb]
    exact ht.points c hc
  inSync := hsync

omit [DecidableEq R] in
theorem Fresh.commit {h : ViewHub v} (hf : Fresh topic h) (hready : Ready topic h (.commit es)) :
    Fresh topic { h with db := h.db.commit es } := by
  have hc := h.db.commit_commits es
  refine ⟨hf.unfaulted, hc.numbered hf.numbered, fun e he => hf.unarchived e (hc.archived.1 he),
    hf.watermark.trans hc.sequence, ⟨?_, ?_⟩, ?_, hf.inSync.matched, hf.inSync.cached⟩
  · exact hf.sound.state.mono (fun e => hc.knownTo_inv hf.watermark) fun e => hc.known
  · intro c hmem
    exact (hf.sound.points c hmem).mono (fun e he _ => hc.knownTo_inv hf.watermark he)
      fun e => hc.known
  · intro c hmem
    apply (hf.complete c hmem).mono _ fun e => hc.known
    rintro e he ⟨o, ⟨⟩, hle⟩
    rcases hc.known_inv he with hold | ⟨ht, hes⟩
    · exact hold
    · rcases hready e hes ht with hold | habove
      · exact .inr hold
      · exact absurd (habove c hmem) (not_lt.2 hle)

omit [DecidableEq R] in
theorem Fresh.ready {h : ViewHub v} (hf : Fresh topic h) : TurnReady topic h where
  forward := fun _ _ _ c hc _ => hf.complete c hc
  late := fun _ _ _ e he => absurd he (hf.unarchived e)

/-- A turn keeps every checkpoint complete: a late one refolds everything, and nothing that a
forward one leaves behind sorts at or below its batch. -/
theorem Fresh.turn_complete {h : ViewHub v} (hf : Fresh topic h) (hready : Ready topic h .turn)
    (hnf : (materializeBatch topic N h).1.inst.faulted = false) :
    Complete topic (materializeBatch topic N h).1 := by
  unfold materializeBatch at hnf ⊢
  dsimp only at hnf ⊢
  split at hnf
  · next first last hfirst hlast =>
    split at hnf
    · next hlate =>
      rw [if_pos hlate]
      rcases recomputeFrom_tracks topic N (h.db.Known topic) (h.db.Known topic)
        (h := { h with inst.lastRowid := last.rowid }) (orderOf first)
        (fun c hc _ => hf.complete c hc) (fun e he => .inr he)
        (fun e he => .inr (he.resolve_left (hf.unarchived e))) with hfault | ⟨hdb, -, ht⟩
      · dsimp only at hnf
        rw [hfault] at hnf
        cases hnf
      · intro c hc
        dsimp only at hc ⊢
        rw [hdb]
        exact ht.points c hc
    · next hlate =>
      rw [if_neg hlate]
      have hnot : ¬ Upto h.inst.ord first := by
        rintro ⟨o, ho, hle⟩
        apply hlate
        rw [Option.any_eq_true]
        exact ⟨o, ho, by simpa using orderCompare_le_zero.2 hle⟩
      cases hb : forwardBatch N h (h.newBatch topic) last.rowid with
      | error h' =>
        rw [hb] at hnf
        cases hnf
      | ok h' =>
        obtain ⟨h₁, hfolds, rfl⟩ := forwardBatch_folds hb
        have hleft : ∀ e, h.db.Known topic e → h.db.KnownTo topic h.inst.lastRowid e ∨
            e ∈ h.newBatch topic ∨ ∀ e' ∈ h.newBatch topic, orderOf e' < orderOf e := by
          rintro e (ha | ⟨ht, r, hr, rfl⟩)
          · exact absurd ha (hf.unarchived e)
          by_cases hold : r.rowid ≤ h.inst.lastRowid
          · exact .inl (.inr ⟨ht, r, hr, rfl, hold⟩)
          by_cases hnew : r ∈ h.newRows topic
          · exact .inr (.inl (by simpa [newBatch, Db.batchFrom] using ⟨r, hnew, rfl⟩))
          · have hrem : r ∈ h.remaining topic :=
              List.mem_filter.2 ⟨hr, by simpa using ⟨ht, by omega⟩⟩
            exact .inr (.inr (hready first hfirst hnot r hrem hnew))
        have htr : Tracks (fun e => h.db.KnownTo topic h.inst.lastRowid e ∨ e ∈ h.newBatch topic)
            (h.db.Known topic) h₁ := hfolds.tracks hf.sound.state (fun c hc => ?_) (Db.sorted_batchFrom ..)
          (fun e he => ?_) (fun e he => .inr (Db.holds_of_mem_batchFrom he)) fun e he => he
        · intro c hc
          dsimp only at hc ⊢
          rw [hfolds.db]
          rcases hfolds.checkpoints c hc with hold | ⟨P, e, Q, hes, rfl⟩
          · exact hf.complete c hold
          · apply (htr.points _ hc).mono _ fun _ h => h
            rintro x hx ⟨o, ⟨⟩, hle⟩
            rcases hleft x hx with hs | hin | habove
            · exact .inl hs
            · exact .inr hin
            · exact absurd (habove e (by rw [hes]; simp)) (not_lt.2 hle)
        · apply (hf.complete c hc).mono _ fun _ h => h
          rintro e (hs | hin) -
          · exact hs.known
          · exact .inr (Db.holds_of_mem_batchFrom hin)
        · rw [not_upto] at hnot ⊢
          intro o ho
          exact lt_of_lt_of_le (hnot o ho) (Db.head_le_batchFrom hfirst he)
  · exact hf.complete

theorem Fresh.turn (hlaw : v.Lawful) {h : ViewHub v} (hf : Fresh topic h)
    (hready : Ready topic h .turn) : Fresh topic (materializeBatch topic N h).1 := by
  obtain ⟨hnf, hsync⟩ := materializeBatch_lawful (N := N) hlaw
    hf.unfaulted (.of_tracks hf.sound) hf.inSync
  have hcomplete := hf.turn_complete (N := N) hready hnf
  rcases materializeBatch_sound (N := N) hf.numbered hf.sound hf.ready with
    hfault | ⟨hdb, hwater, hsound⟩
  · rw [hnf] at hfault
    cases hfault
  refine ⟨hnf, hdb ▸ hf.numbered, hdb ▸ hf.unarchived, ?_, hsound, hcomplete, hsync⟩
  rw [hdb]
  exact hwater.trans (max_le hf.watermark (le_refl _))

omit [DecidableEq R] in
theorem Fresh.holds_of_known {h : ViewHub v} (hf : Fresh topic h) (he : h.db.Known topic e) :
    h.db.Holds topic e := he.resolve_left (hf.unarchived e)

theorem Fresh.register (hlaw : v.Lawful) {h : ViewHub v} (hf : Fresh topic h) :
    Fresh topic (register topic N h) ∧
      (register topic N h).inst.state = v.fold (h.db.topicEntries topic) := by
  obtain ⟨hnf, hsync⟩ := register_lawful (N := N) hlaw
    hf.complete.onFold
  rcases register_tracks topic N (h.db.Known topic) (h.db.Known topic) hf.complete (fun _ he => .inr he)
    (fun _ he => hf.holds_of_known he) with hfault | ⟨hdb, hrow, ht⟩
  · rw [hnf] at hfault
    cases hfault
  refine ⟨.of_tracks hf.numbered hf.unarchived hdb ?_ hnf hsync ht, ?_⟩
  · exact hrow.trans_le (Db.maxRowid_le hf.numbered topic)
  · exact reached_known hf.unarchived ht.state

theorem Fresh.rebuild (hlaw : v.Lawful) {h : ViewHub v} (hf : Fresh topic h) :
    Fresh topic (rebuild topic N h) ∧
      (rebuild topic N h).inst.state = v.fold (h.db.topicEntries topic) := by
  obtain ⟨hnf, hsync⟩ := rebuild_lawful (N := N) hlaw hf.complete.onFold
  rcases rebuild_tracks (N := N) hf.complete (fun _ he => .inr he)
    (fun _ he => hf.holds_of_known he) with hfault | ⟨hdb, hrow, ht⟩
  · rw [hnf] at hfault
    cases hfault
  refine ⟨.of_tracks hf.numbered hf.unarchived hdb ?_ hnf hsync ht, ?_⟩
  · exact hrow.trans_le (Db.maxRowid_le hf.numbered topic)
  · exact reached_known hf.unarchived ht.state

omit [DecidableEq R] in
theorem Fresh.stateAt_point {h : ViewHub v} (hf : Fresh topic h) (ord : Order) :
    Point v (h.db.Known topic) (h.db.Known topic) (ord, stateAt topic h ord) :=
  ViewHub.stateAt_point (fun c hc _ => hf.complete c hc) (fun e he => .inr he)
    fun e he _ => .inr (hf.holds_of_known he)

omit [DecidableEq R] in
theorem Fresh.stateAt {h : ViewHub v} (hf : Fresh topic h) (ord : Order) :
    stateAt topic h ord =
      v.fold ((h.db.topicEntries topic).filter fun e => decide (orderOf e ≤ ord)) :=
  point_known hf.unarchived (hf.stateAt_point ord)

omit [DecidableEq R] in
theorem mem_rebaseAtCut {h : ViewHub v} {ord : Order} (hnf : h.inst.faulted = false) :
    c ∈ (rebaseAtCut topic h ord).checkpoints.rows →
      c = (ord, ViewHub.stateAt topic h ord) ∨ c ∈ h.checkpoints.rows := by
  intro hc
  rw [rebaseAtCut, hnf] at hc
  exact Table.eq_or_mem_of_mem_upsert (List.mem_of_mem_filter hc)

omit [DecidableEq R] in
theorem Fresh.rebaseAtCut {h : ViewHub v} (hf : Fresh topic h) (ord : Order) :
    Fresh topic (rebaseAtCut topic h ord) := by
  have heq : (ViewHub.rebaseAtCut topic h ord).db = h.db ∧
      (ViewHub.rebaseAtCut topic h ord).inst = h.inst ∧
      (ViewHub.rebaseAtCut topic h ord).table = h.table := by
    rw [ViewHub.rebaseAtCut, hf.unfaulted]
    exact ⟨rfl, rfl, rfl⟩
  obtain ⟨hdb, hinst, htable⟩ := heq
  have hcomplete : Complete topic (ViewHub.rebaseAtCut topic h ord) := by
    intro c hc
    rw [hdb]
    rcases mem_rebaseAtCut hf.unfaulted hc with rfl | hc
    · exact hf.stateAt_point ord
    · exact hf.complete c hc
  refine ⟨hinst ▸ hf.unfaulted, hdb ▸ hf.numbered, hdb ▸ hf.unarchived, ?_, ⟨?_, ?_⟩, hcomplete,
    ?_, ?_⟩
  · rw [hdb, hinst]
    exact hf.watermark
  · rw [hdb, hinst]
    exact hf.sound.state
  · intro c hc
    exact (hcomplete c hc).mono (fun _ he _ => he.known) fun _ h => h
  · rw [htable, hinst]
    exact hf.inSync.matched
  · intro hn
    rw [htable, hinst]
    exact hf.inSync.cached hn

theorem Fresh.step (hlaw : v.Lawful) {h : ViewHub v} (hf : Fresh topic h) {ev : Event}
    (hready : Ready topic h ev) : Fresh topic (step topic N h ev) := by
  cases ev with
  | commit es => exact hf.commit hready
  | turn =>
    rw [ViewHub.step, hf.unfaulted]
    exact hf.turn hlaw hready
  | register => exact (hf.register hlaw).1
  | rebuild => exact (hf.rebuild hlaw).1
  | rebaseAtCut ord => exact hf.rebaseAtCut ord

theorem Fresh.run (hlaw : v.Lawful) {h : ViewHub v} (hf : Fresh topic h) {evs : List Event}
    (hready : RunReady topic N h evs) :
    Fresh topic (evs.foldl (ViewHub.step topic N) h) := by
  induction evs generalizing h with
  | nil => exact hf
  | cons ev evs ih => exact ih (hf.step hlaw hready.1) hready.2

theorem Fresh.opened (hlaw : v.Lawful) {db : Db} (hdb : db.Numbered)
    (hno : ∀ e, ¬ db.Archived topic e) : Fresh topic (opened topic N v db) := by
  have hempty : ∀ c ∈ (Table.empty : Checkpoints S).rows, Point v (db.Known topic)
      (db.Known topic) c := fun c hc => by cases hc
  obtain ⟨hnf, hsync⟩ := register_lawful (N := N) hlaw
    (h := ⟨db, Table.empty, Table.empty, .fresh v⟩) fun c hc => by cases hc
  rcases register_tracks topic N (db.Known topic) (db.Known topic)
    (h := ⟨db, Table.empty, Table.empty, .fresh v⟩) hempty (fun e he => .inr he)
    (fun e he => he.resolve_left (hno e)) with hfault | ⟨hdb', hrow, ht⟩
  · rw [hnf] at hfault
    cases hfault
  · exact .of_tracks (h := ⟨db, Table.empty, Table.empty, .fresh v⟩) hdb hno hdb'
      (hrow.trans_le (Db.maxRowid_le hdb topic)) hnf hsync ht

end ViewHub

/-- In every run whose steps are all ready, in every state reached: restoring the view, rebuilding
it and reading or rebasing it at an order each yield the fold over all held entries in total order,
up to that order. -/
theorem checkpoint_reads {S R : Type} [DecidableEq R] {v : ViewDef S R} (hlaw : v.Lawful)
    (topic : Topic) (N : Nat) (held : List LogEntry) (evs : List ViewHub.Event)
    (hready : ViewHub.RunReady topic N
      (ViewHub.opened topic N v (Db.empty.commit held)) evs) :
    let h := evs.foldl (ViewHub.step topic N)
      (ViewHub.opened topic N v (Db.empty.commit held))
    let upTo (ord : Order) :=
      v.fold ((h.db.topicEntries topic).filter fun e => decide (orderOf e ≤ ord))
    (h.register topic N).inst.state = v.fold (h.db.topicEntries topic) ∧
      (h.rebuild topic N).inst.state = v.fold (h.db.topicEntries topic) ∧
      ∀ ord, h.stateAt topic ord = upTo ord ∧
        (ord, upTo ord) ∈ (h.rebaseAtCut topic ord).checkpoints.rows := by
  intro h upTo
  have hc := Db.empty.commit_commits held
  have hopen : ViewHub.Fresh topic (ViewHub.opened topic N v (Db.empty.commit held)) := by
    apply ViewHub.Fresh.opened hlaw (hc.numbered .empty)
    intro e he
    obtain ⟨-, r, hr, -⟩ := hc.archived.1 he
    cases hr
  have hf : ViewHub.Fresh topic h := hopen.run hlaw hready
  refine ⟨(hf.register hlaw).2, (hf.rebuild hlaw).2, fun ord => ⟨hf.stateAt ord, ?_⟩⟩
  have hat : h.stateAt topic ord = upTo ord := hf.stateAt ord
  rw [ViewHub.rebaseAtCut, hf.unfaulted, ← hat]
  apply List.mem_filter.2
  exact ⟨Table.mem_upsert_self _ _, by simp⟩

/-- A restart, a rebuild and a cut over entries that arrived in order. -/
def restoreRun : List ViewHub.Event :=
  [.commit [noted "a" 1 1], .turn, .turn, .commit [noted "b" 1 2], .register,
    .rebaseAtCut ⟨2, 0, "b", 1⟩, .rebuild]

theorem checkpoint_reads_of_restart :
    ((restoreRun.foldl (ViewHub.step "t" 1) (ViewHub.opened "t" 1 stamps (Db.empty.commit []))
      ).register "t" 1).inst.state = [1, 2] := by
  have hready : ViewHub.RunReady "t" 1 (ViewHub.opened "t" 1 stamps (Db.empty.commit []))
      restoreRun := by
    refine ⟨?_, ViewHub.ready_turn (by decide +kernel), ViewHub.ready_turn (by decide +kernel), ?_, trivial,
      trivial, trivial, trivial⟩
    · intro e he _
      obtain rfl := List.mem_singleton.1 he
      exact .inr (by decide +kernel)
    · intro e he _
      obtain rfl := List.mem_singleton.1 he
      exact .inr (by decide +kernel)
  exact (checkpoint_reads stamps_lawful "t" 1 [] restoreRun hready).1.trans (by decide +kernel)

/-- The entry stamped 1 is committed below the checkpoint at 2, and the process stops before the
view has materialized it. -/
def stoppedRun : List ViewHub.Event :=
  [.commit [noted "a" 1 2], .turn, .turn, .commit [noted "b" 1 1]]

theorem restart_skips_entry :
    let h := stoppedRun.foldl (ViewHub.step "t" 1)
      (ViewHub.opened "t" 1 stamps (Db.empty.commit []))
    (h.register "t" 1).inst.state ≠ stamps.fold (h.db.topicEntries "t") ∧
      (h.rebuild "t" 1).inst.state ≠ stamps.fold (h.db.topicEntries "t") ∧
      h.stateAt "t" ⟨2, 0, "a", 1⟩ ≠ stamps.fold ((h.db.topicEntries "t").filter
        fun e => decide (orderOf e ≤ ⟨2, 0, "a", 1⟩)) := by
  decide +kernel

end Seqscribe
