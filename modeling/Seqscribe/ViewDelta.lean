import Seqscribe.Deltas
import Seqscribe.ViewOrder

namespace Seqscribe
set_option autoImplicit true

/-! What a view tells its subscribers about a batch. -/

inductive ViewChange (R : Type) where
  | reset
  | delta (changes : Delta String R)
  deriving DecidableEq

/-- The deltas of a batch, entry by entry. -/
def ViewDef.deltas (v : ViewDef S R) (delta : S → LogEntry → List R × List String) :
    S → List LogEntry → List (Delta String R)
  | _, [] => []
  | s, e :: es => ⟨(delta s e).1, (delta s e).2⟩ :: v.deltas delta (v.reduce s e) es

namespace ViewHub

variable {S R : Type} {v : ViewDef S R} [DecidableEq R] (topic : Topic) (N : Nat)

/-- What `diffSyncTable` adds to the changes. -/
def diffChanges (h : ViewHub v) : Delta String R :=
  match h.inst.rowCache with
  | none => ⟨[], []⟩
  | some cache =>
    let next := Table.ofRows v.rowKey (v.rows h.inst.state)
    ⟨next.rows.filter fun r => decide (cache.get (v.rowKey r) ≠ some r),
      (cache.rows.map v.rowKey).filter fun k => (next.get k).isNone⟩

/-- The changes that a forward batch collects. -/
def batchChanges (h : ViewHub v) (batch : List LogEntry) : Delta String R :=
  match v.delta with
  | some delta => .merge (v.deltas delta h.inst.state batch)
  | none => diffChanges { h with inst.state := batch.foldl v.reduce h.inst.state }

/-- The change that a turn of the loop emits at its end. -/
def materializeChange (h : ViewHub v) : Option (ViewChange R) :=
  let batch := h.newBatch topic
  match batch.head?, (h.newRows topic).getLast? with
  | some first, some last =>
    if h.inst.ord.any fun ord => decide (orderCompare (orderOf first) ord ≤ 0) then
      if (recomputeFrom topic N { h with inst.lastRowid := last.rowid } (orderOf first)).inst.faulted
      then none else some .reset
    else
      match forwardBatch N h batch last.rowid with
      | .ok _ =>
        let changes := h.batchChanges batch
        if changes.upserts = [] ∧ changes.deletes = [] then none else some (.delta changes)
      | .error _ => none
  | _, _ => none

/-- What happens to a registered view, over a log that changes in any way. -/
inductive Activity where
  | log (db : Db)
  | turn
  | register
  | rebuild
  | rebaseAtCut (ord : Order)

def act (h : ViewHub v) : Activity → ViewHub v
  | .log db => { h with db := db }
  | .turn => if h.inst.faulted then h else (materializeBatch topic N h).1
  | .register => register topic N h
  | .rebuild => rebuild topic N h
  | .rebaseAtCut ord => rebaseAtCut topic h ord

variable {topic : Topic} {N : Nat}

theorem Grounded.refoldFrom {h : ViewHub v} (hg : Grounded h) (cursor : Option Order)
    (hnf : (h.refoldFrom topic N cursor).inst.faulted = false) :
    Grounded (h.refoldFrom topic N cursor) := by
  have hfolds : (h.refoldFrom topic N cursor).inst.faulted = true ∨
      Folds h (Replay.after orderOf cursor (h.db.topicEntries topic)) (h.refoldFrom topic N cursor) :=
    refoldFrom_folds h cursor
  rcases hfolds with hf | hf
  · rw [hnf] at hf
    cases hf
  · exact hg.folds hf

/-- What every reachable view of a lawful definition satisfies. -/
structure Steady (h : ViewHub v) : Prop where
  faulted : h.inst.faulted = false
  sync : InSync h
  grounded : Grounded h

omit [DecidableEq R] in
theorem Steady.log {h : ViewHub v} (hs : Steady h) (db : Db) : Steady { h with db := db } :=
  ⟨hs.faulted, ⟨hs.sync.matched, hs.sync.cached⟩, hs.grounded.state, hs.grounded.points⟩

/-- A refold ends on a fold when it starts from one. -/
theorem grounded_refoldFrom {h : ViewHub v} (hstate : ∃ es, h.inst.state = v.fold es)
    (hpoints : ∀ c ∈ h.checkpoints.rows, ∃ es, c.2 = v.fold es) (cursor : Option Order)
    (hnf : (h.refoldFrom topic N cursor).inst.faulted = false) :
    Grounded (h.refoldFrom topic N cursor) := by
  have hfolds : (h.refoldFrom topic N cursor).inst.faulted = true ∨
      Folds h (Replay.after orderOf cursor (h.db.topicEntries topic)) (h.refoldFrom topic N cursor) :=
    refoldFrom_folds h cursor
  rcases hfolds with hf | hf
  · rw [hnf] at hf
    cases hf
  · exact Grounded.folds ⟨hstate, hpoints⟩ hf

theorem grounded_recomputeFrom {h : ViewHub v} (hg : Grounded h) (lateOrd : Order)
    (hnf : (h.recomputeFrom topic N lateOrd).inst.faulted = false) :
    Grounded (h.recomputeFrom topic N lateOrd) := by
  rw [recomputeFrom] at hnf ⊢
  cases hc : h.checkpoints.checkpointBefore lateOrd with
  | none =>
    rw [hc] at hnf
    exact grounded_refoldFrom ⟨[], rfl⟩ (fun c hmem => absurd hmem List.not_mem_nil) _ hnf
  | some ckpt =>
    rw [hc] at hnf
    have hckpt := hg.points ckpt (Checkpoints.mem_checkpointBefore hc).1
    refine grounded_refoldFrom hckpt ?_ _ hnf
    intro c hmem
    rcases Table.eq_or_mem_of_mem_upsert hmem with rfl | hmem
    · exact hckpt
    · cases hmem

theorem Steady.turn (hlaw : v.Lawful) {h : ViewHub v} (hs : Steady h) :
    Steady (h.materializeBatch topic N).1 := by
  suffices hgrounded : (h.materializeBatch topic N).1.inst.faulted = false →
      Grounded (h.materializeBatch topic N).1 by
    obtain ⟨hnf, hsync⟩ := materializeBatch_lawful hlaw hs.faulted hs.grounded hs.sync
    exact ⟨hnf, hsync, hgrounded hnf⟩
  intro hnf
  rw [materializeBatch] at hnf ⊢
  dsimp only at hnf ⊢
  split
  · next first last hfirst hlast =>
    simp only [hfirst, hlast] at hnf
    split
    · next hlate =>
      rw [if_pos hlate] at hnf
      exact grounded_recomputeFrom (h := { h with inst.lastRowid := last.rowid })
        ⟨hs.grounded.state, hs.grounded.points⟩ _ hnf
    · next hlate =>
      rw [if_neg hlate] at hnf
      split
      · next h' hr =>
        obtain ⟨h₁, hf, rfl⟩ := forwardBatch_folds hr
        have hg := hs.grounded.folds hf
        exact ⟨hg.state, hg.points⟩
      · next hr =>
        rw [hr] at hnf
        cases hnf
  · exact hs.grounded

theorem steady_register (hlaw : v.Lawful) {h : ViewHub v}
    (hpoints : ∀ c ∈ h.checkpoints.rows, ∃ es, c.2 = v.fold es) :
    Steady (h.register topic N) := by
  suffices hgrounded : (h.register topic N).inst.faulted = false →
      Grounded (h.register topic N) by
    obtain ⟨hnf, hsync⟩ := register_lawful hlaw hpoints
    exact ⟨hnf, hsync, hgrounded hnf⟩
  intro hnf
  rw [ViewHub.register] at hnf ⊢
  have hgen (inst : Instance v) (hstate : ∃ es, inst.state = v.fold es)
      (hnf : (refoldFrom topic N { h with inst := inst } inst.ord).inst.faulted = false) :=
    grounded_refoldFrom (h := { h with inst := inst }) hstate hpoints _ hnf
  cases hc : h.checkpoints.checkpointBefore ⟨MAX_SAFE_INTEGER, 0, "", 0⟩ with
  | none =>
    rw [hc] at hnf
    have hg := hgen (.fresh v) ⟨[], rfl⟩ hnf
    exact ⟨hg.state, hg.points⟩
  | some ckpt =>
    rw [hc] at hnf
    have hckpt := hpoints ckpt (Checkpoints.mem_checkpointBefore hc).1
    have hg := hgen { Instance.fresh v with state := ckpt.2, ord := some ckpt.1 } hckpt hnf
    exact ⟨hg.state, hg.points⟩

theorem Steady.rebuild (hlaw : v.Lawful) {h : ViewHub v} (hs : Steady h) :
    Steady (h.rebuild topic N) := by
  suffices hgrounded : (h.rebuild topic N).inst.faulted = false → Grounded (h.rebuild topic N) by
    obtain ⟨hnf, hsync⟩ := rebuild_lawful hlaw hs.grounded.points
    exact ⟨hnf, hsync, hgrounded hnf⟩
  intro hnf
  rw [ViewHub.rebuild] at hnf ⊢
  cases hc : h.checkpoints.earliestCheckpoint with
  | none =>
    rw [hc] at hnf
    have hg := grounded_refoldFrom ⟨[], rfl⟩ (fun c hmem => absurd hmem List.not_mem_nil) _ hnf
    exact ⟨hg.state, hg.points⟩
  | some base =>
    rw [hc] at hnf
    have hbase := hs.grounded.points base (Checkpoints.mem_earliestCheckpoint hc)
    have hg := grounded_refoldFrom hbase (fun c hmem => by
      rcases Table.eq_or_mem_of_mem_upsert hmem with rfl | hmem
      · exact hbase
      · cases hmem) _ hnf
    exact ⟨hg.state, hg.points⟩

omit [DecidableEq R] in
theorem stateAtLoop_fold (db : Db) (ord : Order) (fuel : Nat) (cursor : Option Order) {state : S}
    (hstate : ∃ es, state = v.fold es) :
    ∃ es, stateAtLoop topic v db ord fuel cursor state = v.fold es := by
  induction fuel generalizing cursor state with
  | zero => exact hstate
  | succ fuel ih =>
    have hstep (ys : List LogEntry) : ∃ es, ys.foldl v.reduce state = v.fold es := by
      obtain ⟨X, rfl⟩ := hstate
      exact ⟨X ++ ys, by rw [ViewDef.fold, ViewDef.fold, List.foldl_append]⟩
    rw [stateAtLoop]
    split
    · exact hstep _
    · exact ih _ (hstep _)

omit [DecidableEq R] in
theorem Steady.rebaseAtCut {h : ViewHub v} (hs : Steady h) (ord : Order) :
    Steady (h.rebaseAtCut topic ord) := by
  have hat : ∃ es, h.stateAt topic ord = v.fold es := by
    rw [stateAt]
    split
    · next ckpt hc =>
      exact stateAtLoop_fold _ _ _ _ (hs.grounded.points ckpt (Checkpoints.mem_checkpointBefore hc).1)
    · exact stateAtLoop_fold _ _ _ _ ⟨[], rfl⟩
  rw [ViewHub.rebaseAtCut, if_neg (by rw [hs.faulted]; exact Bool.false_ne_true)]
  refine ⟨hs.faulted, ⟨hs.sync.matched, hs.sync.cached⟩, hs.grounded.state, ?_⟩
  intro c hc
  rcases Table.eq_or_mem_of_mem_upsert (List.mem_of_mem_filter hc) with rfl | hc
  · exact hat
  · exact hs.grounded.points c hc

theorem steady_opened (hlaw : v.Lawful) (db : Db) : Steady (opened topic N v db) :=
  steady_register hlaw fun _ hmem => absurd hmem List.not_mem_nil

theorem Steady.act (hlaw : v.Lawful) {h : ViewHub v} (hs : Steady h) (a : Activity) :
    Steady (h.act topic N a) := by
  cases a with
  | log db => exact hs.log db
  | turn =>
    rw [ViewHub.act, if_neg (by rw [hs.faulted]; exact Bool.false_ne_true)]
    exact hs.turn hlaw
  | register => exact steady_register hlaw hs.grounded.points
  | rebuild => exact hs.rebuild hlaw
  | rebaseAtCut ord => exact hs.rebaseAtCut ord

theorem Steady.run (hlaw : v.Lawful) {h : ViewHub v} (hs : Steady h) (as : List Activity) :
    Steady (as.foldl (ViewHub.act topic N) h) := by
  induction as generalizing h with
  | nil => exact hs
  | cons a as ih => exact ih (hs.act hlaw a)

omit [DecidableEq R] in
/-- Under an exact delta the deltas of a batch, one after the other, bring the rows along. -/
theorem foldl_deltas (hlaw : v.Lawful) (hdelta : v.delta = some delta) (batch es : List LogEntry)
    {T : Table String R v.rowKey} (hT : Matches v T (v.fold es)) :
    Matches v ((v.deltas delta (v.fold es) batch).foldl Delta.apply T)
      (batch.foldl v.reduce (v.fold es)) := by
  induction batch generalizing es T with
  | nil => exact hT
  | cons e batch ih =>
    have hnext : v.reduce (v.fold es) e = v.fold (es ++ [e]) := by
      rw [ViewDef.fold, ViewDef.fold, List.foldl_append, List.foldl_cons, List.foldl_nil]
    rw [ViewDef.deltas, List.foldl_cons, List.foldl_cons, hnext]
    apply ih
    intro k
    rw [Delta.get_apply, hT k, ← hnext]
    exact (hlaw.delta_agrees delta hdelta es e k).symm

/-- A turn that emits a delta has folded its batch forward. -/
theorem turn_of_change {h : ViewHub v} (hdelta : v.delta = some delta)
    (hchange : h.materializeChange topic N = some (.delta changes)) :
    (h.materializeBatch topic N).1.inst.state =
        (h.newBatch topic).foldl v.reduce h.inst.state ∧
      changes = .merge (v.deltas delta h.inst.state (h.newBatch topic)) := by
  rw [materializeChange] at hchange
  rw [materializeBatch]
  dsimp only at hchange ⊢
  cases hfirst : (h.newBatch topic).head? with
  | none => simp only [hfirst, reduceCtorEq] at hchange
  | some first =>
    cases hlast : (h.newRows topic).getLast? with
    | none => simp only [hfirst, hlast, reduceCtorEq] at hchange
    | some last =>
      simp only [hfirst, hlast] at hchange ⊢
      split at hchange
      · split at hchange <;> cases hchange
      · next hlate =>
        rw [if_neg hlate]
        cases hr : forwardBatch N h (h.newBatch topic) last.rowid with
        | error h' => simp only [hr, reduceCtorEq] at hchange
        | ok h' =>
          simp only [hr] at hchange
          obtain ⟨h₁, hf, rfl⟩ := forwardBatch_folds hr
          split at hchange
          · cases hchange
          · obtain rfl := ViewChange.delta.inj (Option.some.inj hchange)
            rw [batchChanges, hdelta]
            exact ⟨hf.state, rfl⟩

end ViewHub

/-- In every state of a view with an exact delta, a turn leaves the rows of the new state in the
table; and the delta that it emits, if it emits one, takes the rows from before the batch to those
after it just when no entry of the batch deletes for good a key that an earlier one has set. -/
theorem published_delta_iff {S R : Type} [DecidableEq R] (v : ViewDef S R) (hlaw : v.Lawful)
    (delta : S → LogEntry → List R × List String) (hdelta : v.delta = some delta) (topic : Topic)
    (N : Nat) (db : Db) (as : List ViewHub.Activity) :
    let h := as.foldl (ViewHub.act topic N) (ViewHub.opened topic N v db)
    let h' := (h.materializeBatch topic N).1
    Matches v h'.table h'.inst.state ∧
      ∀ changes, h.materializeChange topic N = some (.delta changes) →
        (Matches v (Delta.apply (Table.ofRows v.rowKey (v.rows h.inst.state)) changes)
            h'.inst.state ↔
          ∀ k, ¬ Delta.Undone v.rowKey (v.deltas delta h.inst.state (h.newBatch topic)) k) := by
  intro h h'
  have hs : ViewHub.Steady h := (ViewHub.steady_opened hlaw db).run hlaw as
  refine ⟨(hs.turn hlaw).sync.matched, ?_⟩
  intro changes hchange
  obtain ⟨hstate, rfl⟩ := ViewHub.turn_of_change hdelta hchange
  obtain ⟨es, hes⟩ := hs.grounded.state
  have hpost := ViewHub.foldl_deltas hlaw hdelta (h.newBatch topic) es fun _ => rfl
  rw [← hes, ← hstate] at hpost
  apply forall_congr'
  intro k
  rw [← hpost k]
  exact Delta.get_merge_iff _ _ k

/-- One row, which an odd stamp sets and an even one deletes. -/
def toggle : ViewDef (Option Nat) (String × Nat) where
  init := none
  reduce _ e := if e.hlc.l % 2 = 1 then some e.hlc.l else none
  rows s := s.toList.map fun n => ("k", n)
  rowKey := Prod.fst
  delta := some fun s e =>
    if e.hlc.l % 2 = 1 then ([("k", e.hlc.l)], []) else ([], s.toList.map fun _ => "k")
  validRow _ := true

theorem toggle_lawful : toggle.Lawful where
  rows_valid := fun _ _ _ => rfl
  upserts_valid := fun _ _ _ _ _ _ => rfl
  delta_agrees := by
    rintro delta ⟨⟩ es e k
    generalize toggle.fold es = s
    simp only [Table.get_ofRows, toggle]
    by_cases hodd : e.hlc.l % 2 = 1
    · by_cases hk : "k" = k <;> cases s <;> simp [hodd, hk]
    · by_cases hk : "k" = k
      · cases s <;> simp [hodd, hk]
      · have hk' : k ≠ "k" := fun h => hk h.symm
        cases s <;> simp [hodd, hk, hk']

/-- The entries of a batch: the first sets the row, the second deletes it. -/
def toggledRun : List ViewHub.Activity := [.log (Db.empty.commit [noted "a" 1 1, noted "a" 2 2])]

theorem published_delta_of_set :
    let h := [ViewHub.Activity.log (Db.empty.commit [noted "a" 1 1])].foldl (ViewHub.act "t" 10)
      (ViewHub.opened "t" 10 toggle .empty)
    h.materializeChange "t" 10 = some (.delta ⟨[("k", 1)], []⟩) ∧
      Matches toggle (Delta.apply (Table.ofRows Prod.fst []) ⟨[("k", 1)], []⟩)
        (h.materializeBatch "t" 10).1.inst.state := by
  intro h
  have hchange : h.materializeChange "t" 10 = some (.delta ⟨[("k", 1)], []⟩) := by decide +kernel
  refine ⟨hchange, ((published_delta_iff toggle toggle_lawful _ rfl "t" 10 .empty _).2 _
    hchange).2 ?_⟩
  intro k
  apply Delta.not_undone_of_kept
  have hkept : ∀ d ∈ toggle.deltas (fun s e =>
      if e.hlc.l % 2 = 1 then ([("k", e.hlc.l)], []) else ([], s.toList.map fun _ => "k"))
      h.inst.state (h.newBatch "t"), d.deletes = [] := by decide +kernel
  intro d hd hk
  rw [hkept d hd] at hk
  cases hk

theorem toggled_delta_sets_deleted_row : ¬ ∀ {S R : Type} [DecidableEq R] (v : ViewDef S R),
    v.Lawful → v.delta.isSome = true → ∀ topic N db (as : List ViewHub.Activity),
      let h := as.foldl (ViewHub.act topic N) (ViewHub.opened topic N v db)
      ∀ changes, h.materializeChange topic N = some (.delta changes) →
        Matches v (Delta.apply (Table.ofRows v.rowKey (v.rows h.inst.state)) changes)
          (h.materializeBatch topic N).1.inst.state := by
  intro hall
  have hmatch := hall toggle toggle_lawful rfl "t" 10 .empty toggledRun
    ⟨[("k", 1)], ["k"]⟩ (by decide +kernel) "k"
  revert hmatch
  decide +kernel

end Seqscribe
