import Seqscribe.ViewSteps

namespace Seqscribe
set_option autoImplicit true

open Replay

/-! The arrival order of the entries does not show in a view. -/

namespace ViewHub

variable {S R : Type} {v : ViewDef S R} [DecidableEq R] {topic : Topic} {N : Nat}

/-- The store and the view that `register` sets up over it the first time. -/
def opened (topic : Topic) (N : Nat) (v : ViewDef S R) (db : Db) : ViewHub v :=
  register topic N ⟨db, Table.empty, Table.empty, .fresh v⟩

inductive Arrival where
  /-- A committed flush, in its order of insertion. -/
  | commit (es : List LogEntry)
  | materialize

def arrive (topic : Topic) (N : Nat) (h : ViewHub v) : Arrival → ViewHub v
  | .commit es => { h with db := h.db.commit es }
  | .materialize => materialize topic N h

/-- The state of a view that has only seen arrivals. -/
structure Orderly (topic : Topic) (h : ViewHub v) : Prop where
  numbered : h.db.Numbered
  unarchived : ∀ e, ¬ h.db.Archived topic e
  watermark : h.inst.lastRowid ≤ h.db.logSequence
  sound : h.Sound topic
  low : Low (fun _ => False) h

theorem Orderly.ready {h : ViewHub v} (ho : Orderly topic h) : TurnReady topic h where
  forward := by
    intro first _ hnot c hc hle
    obtain hno | ⟨o, ho, hco⟩ := ho.low c hc
    · exact absurd hno id
    · exact absurd ⟨o, ho, hle.trans hco⟩ hnot
  late := fun _ _ _ e he => absurd he (ho.unarchived e)

theorem Orderly.turn {h : ViewHub v} (ho : Orderly topic h) :
    (materializeBatch topic N h).1.inst.faulted = true ∨
      Orderly topic (materializeBatch topic N h).1 := by
  rcases materializeBatch_low (N := N) ho.low with hf | hlow
  · exact .inl hf
  rcases materializeBatch_sound (N := N) ho.numbered ho.sound ho.ready with
    hf | ⟨hdb, hwater, hsound⟩
  · exact .inl hf
  right
  refine ⟨by rw [hdb]; exact ho.numbered, by rw [hdb]; exact ho.unarchived, ?_, hsound, hlow⟩
  rw [hdb]
  exact hwater.trans (max_le ho.watermark (le_refl _))

theorem Orderly.commit {h : ViewHub v} (ho : Orderly topic h) (es : List LogEntry) :
    Orderly topic { h with db := h.db.commit es } := by
  have hc := h.db.commit_commits es
  refine ⟨hc.numbered ho.numbered, fun e he => ho.unarchived e (hc.archived.1 he),
    ho.watermark.trans hc.sequence, ?_, ho.low⟩
  constructor
  · exact ho.sound.state.mono (fun e => hc.knownTo_inv ho.watermark) fun e => hc.known
  · intro c hmem
    exact (ho.sound.points c hmem).mono (fun e he _ => hc.knownTo_inv ho.watermark he)
      fun e => hc.known

/-- What every reachable view satisfies: it is faulted or orderly, and a lawful one is never
faulted and its table is in step. -/
structure Reachable (topic : Topic) (h : ViewHub v) : Prop where
  orderly : h.inst.faulted = true ∨ Orderly topic h
  lawful : v.Lawful → h.inst.faulted = false ∧ InSync h

theorem Reachable.turn {h : ViewHub v} (hr : Reachable topic h) :
    Reachable topic (materializeBatch topic N h).1 := by
  constructor
  · rcases hr.orderly with hf | ho
    · exact .inl (materializeBatch_faulted hf)
    · exact ho.turn
  · intro hlaw
    obtain ⟨hnf, hsync⟩ := hr.lawful hlaw
    rcases hr.orderly with hf | ho
    · rw [hnf] at hf
      cases hf
    · exact materializeBatch_lawful hlaw hnf (.of_tracks ho.sound) hsync

theorem Reachable.arrive {h : ViewHub v} (hr : Reachable topic h) (a : Arrival) :
    Reachable topic (h.arrive topic N a) := by
  cases a with
  | commit es =>
    constructor
    · exact hr.orderly.imp id fun ho => ho.commit es
    · intro hlaw
      obtain ⟨hnf, hsync⟩ := hr.lawful hlaw
      exact ⟨hnf, hsync.matched, hsync.cached⟩
  | materialize => exact materialize_induct (fun _ hI => hI.turn) hr

theorem Reachable.opened {db : Db} (hdb : db.Numbered) (hno : ∀ e, ¬ db.Archived topic e) :
    Reachable topic (opened topic N v db) := by
  constructor
  · rcases register_tracks topic N (db.Known topic) (db.Known topic)
      (h := ⟨db, Table.empty, Table.empty, .fresh v⟩)
      (fun c hc => by cases hc) (fun e he => .inr he)
      (fun e he => he.resolve_left (hno e)) with hf | ⟨hdb', hrow, ht⟩
    · exact .inl hf
    rcases refoldFrom_low topic N (fun _ => False)
      (h := ⟨db, Table.empty, Table.empty, Instance.fresh v⟩) (fun c hc => by cases hc) with
      hf | hlow
    · exact .inl hf
    right
    refine ⟨?_, ?_, ?_, ?_, hlow⟩
    · exact hdb' ▸ hdb
    · intro e he
      rw [ViewHub.opened, hdb'] at he
      exact hno e he
    · rw [ViewHub.opened, hdb', hrow]
      exact Db.maxRowid_le hdb topic
    · have hknown : ∀ n e, db.KnownTo topic n e → db.Known topic e :=
        fun n e he => he.imp id Db.HoldsTo.holds
      rw [Sound, ViewHub.opened, hdb']
      exact ⟨ht.state.mono (hknown _) fun _ h => h,
        fun c hc => (ht.points c hc).mono (fun e he _ => hknown _ e he) fun _ h => h⟩
  · intro hlaw
    exact register_lawful hlaw fun c hc => by cases hc

theorem Reachable.run {h : ViewHub v} (hr : Reachable topic h) (as : List Arrival) :
    Reachable topic (as.foldl (ViewHub.arrive topic N) h) := by
  induction as generalizing h with
  | nil => exact hr
  | cons a as ih => exact ih (hr.arrive a)

omit [DecidableEq R] in
/-- With no new rows the state of a view that is not faulted is the fold over all held entries. -/
theorem Reachable.state {h : ViewHub v} (hr : Reachable topic h) (hnf : h.inst.faulted = false)
    (hnew : h.newRows topic = []) : h.inst.state = v.fold (h.db.topicEntries topic) := by
  rcases hr.orderly with hf | ho
  · rw [hnf] at hf
    cases hf
  have hreached : Reached v (h.db.Known topic) (h.db.Known topic) h.inst.ord h.inst.state := by
    apply ho.sound.state.mono _ fun _ h => h
    rintro e (ha | hh)
    · exact .inl ha
    · exact .inr (holdsTo_of_newRows hnew hh)
  exact reached_known ho.unarchived hreached

end ViewHub

/-- Whatever entries arrive, in whatever order and batches: once all are materialized, the state of
a view that is not faulted is the left fold over all held entries in total order. A lawful view is
never faulted, its table holds the rows of its state, and each pass materializes everything. -/
theorem view_order_independent {S R : Type} [DecidableEq R] (v : ViewDef S R) (topic : Topic)
    (N : Nat) (held : List LogEntry) (as : List ViewHub.Arrival) :
    let h := as.foldl (ViewHub.arrive topic N)
      (ViewHub.opened topic N v (Db.empty.commit held))
    (h.newRows topic = [] → h.inst.faulted = false →
        h.inst.state = v.fold (h.db.topicEntries topic)) ∧
      (v.Lawful → h.inst.faulted = false ∧
        (h.newRows topic = [] → Matches v h.table h.inst.state) ∧
        (h.materialize topic N).newRows topic = []) := by
  intro h
  have hc := Db.empty.commit_commits held
  have hopen : ViewHub.Reachable topic (ViewHub.opened topic N v (Db.empty.commit held)) := by
    apply ViewHub.Reachable.opened (hc.numbered .empty)
    intro e he
    obtain ⟨-, r, hr, -⟩ := hc.archived.1 he
    cases hr
  have hr : ViewHub.Reachable topic h := hopen.run as
  refine ⟨fun hnew hnf => hr.state hnf hnew, fun hlaw => ?_⟩
  obtain ⟨hnf, hsync⟩ := hr.lawful hlaw
  refine ⟨hnf, fun _ => hsync.matched, ?_⟩
  rcases ViewHub.materialize_done (N := N) h with hf | hdone
  · have hpass := (hr.arrive (N := N) .materialize).lawful hlaw
    rw [ViewHub.arrive] at hpass
    rw [hpass.1] at hf
    cases hf
  · exact hdone

/-- An entry of the topic `t`. -/
def noted (writer : WriterId) (seq l : Nat) : LogEntry where
  topic := "t"
  writer := writer
  seq := seq
  hlc := ⟨l, 0⟩
  kind := []
  key := none
  causal := none
  ref := none
  payload := .null
  chain := ""

/-- A view of the stamps in total order, without a table of its own. -/
def stamps : ViewDef (List Nat) (String × Nat) where
  init := []
  reduce s e := s ++ [e.hlc.l]
  rows _ := []
  rowKey := Prod.fst
  delta := none
  validRow _ := true

theorem stamps_lawful : stamps.Lawful where
  rows_valid := fun _ _ _ => rfl
  upserts_valid := fun _ h => by cases h
  delta_agrees := fun _ h => by cases h

/-- A count of the entries, kept in a row by `delta`. -/
def counting (delta : Nat → List (String × Nat)) : ViewDef Nat (String × Nat) where
  init := 0
  reduce n _ := n + 1
  rows n := [("n", n)]
  rowKey := Prod.fst
  delta := some fun n _ => (delta n, [])
  validRow _ := true

theorem counting_lawful : (counting fun n => [("n", n + 1)]).Lawful where
  rows_valid := fun _ _ _ => rfl
  upserts_valid := fun _ _ _ _ _ _ => rfl
  delta_agrees := by
    rintro delta ⟨⟩ es e k
    simp only [Table.get_ofRows, counting]
    by_cases hk : "n" = k <;> simp [hk]

/-- The arrivals of entries with the stamps 2 and 1, the later one first. -/
def lateArrivals : List ViewHub.Arrival :=
  [.commit [noted "a" 1 2], .materialize, .commit [noted "b" 1 1], .materialize]

theorem view_of_late_arrival :
    (lateArrivals.foldl (ViewHub.arrive "t" 1) (ViewHub.opened "t" 1 stamps .empty)).inst.state =
      [1, 2] ∧
    Matches (counting fun n => [("n", n + 1)])
      (lateArrivals.foldl (ViewHub.arrive "t" 1)
        (ViewHub.opened "t" 1 (counting fun n => [("n", n + 1)]) .empty)).table 2 := by
  have hstamps := (view_order_independent stamps "t" 1 [] lateArrivals).1
    (by decide +kernel) (by decide +kernel)
  have hcount := (view_order_independent (counting fun n => [("n", n + 1)]) "t" 1 []
    lateArrivals).2 counting_lawful
  refine ⟨hstamps.trans (by decide +kernel), ?_⟩
  have hmatch := hcount.2.1 (by decide +kernel)
  rwa [show (lateArrivals.foldl (ViewHub.arrive "t" 1) (ViewHub.opened "t" 1
    (counting fun n => [("n", n + 1)]) (Db.empty.commit []))).inst.state = 2 by decide +kernel]
    at hmatch

/-- A delta that does not describe its entry leaves the table behind until a checkpoint. -/
theorem lying_delta_not_matched :
    let h := [ViewHub.Arrival.commit [noted "a" 1 2], .materialize].foldl (ViewHub.arrive "t" 10)
      (ViewHub.opened "t" 10 (counting fun _ => []) (Db.empty.commit []))
    h.newRows "t" = [] ∧ h.inst.faulted = false ∧
      ¬ Matches (counting fun _ => []) h.table h.inst.state := by
  refine ⟨by decide +kernel, by decide +kernel, fun hm => ?_⟩
  have hn := hm "n"
  revert hn
  decide +kernel

end Seqscribe
