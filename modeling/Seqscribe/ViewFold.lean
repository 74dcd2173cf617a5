import Seqscribe.ViewHub

namespace Seqscribe
set_option autoImplicit true

open Replay

/-! What each function of the view hub folds, and what the checkpoints stand for. -/

namespace Db

/-- The entry is held in the log of the topic. -/
def Holds (db : Db) (topic : Topic) (e : LogEntry) : Prop :=
  e.topic = topic ∧ ∃ r ∈ db.sqLog.rows, r.entry = e

/-- Held at or below a rowid. -/
def HoldsTo (db : Db) (topic : Topic) (rowid : Nat) (e : LogEntry) : Prop :=
  e.topic = topic ∧ ∃ r ∈ db.sqLog.rows, r.entry = e ∧ r.rowid ≤ rowid

def Archived (db : Db) (topic : Topic) (e : LogEntry) : Prop :=
  e.topic = topic ∧ ∃ r ∈ db.sqArchive.rows, r.entry = e

/-- The entries of the topic: those held and those archived. -/
def Known (db : Db) (topic : Topic) (e : LogEntry) : Prop :=
  db.Archived topic e ∨ db.Holds topic e

/-- The entries that a watermark has passed. -/
def KnownTo (db : Db) (topic : Topic) (rowid : Nat) (e : LogEntry) : Prop :=
  db.Archived topic e ∨ db.HoldsTo topic rowid e

/-- Rowids grow with the insertions. -/
structure Numbered (db : Db) : Prop where
  sorted : db.sqLog.rows.Pairwise fun r r' => r.rowid < r'.rowid
  bounded : ∀ r ∈ db.sqLog.rows, r.rowid ≤ db.logSequence

theorem Numbered.empty : Numbered .empty := ⟨List.Pairwise.nil, by simp [Db.empty, Table.empty]⟩

theorem HoldsTo.holds (h : HoldsTo db topic n e) : Holds db topic e := by
  obtain ⟨ht, r, hr, he, -⟩ := h
  exact ⟨ht, r, hr, he⟩

theorem KnownTo.known (h : KnownTo db topic n e) : Known db topic e := h.imp id HoldsTo.holds

theorem mem_topicEntries {db : Db} : e ∈ db.topicEntries topic ↔ Holds db topic e := by
  simp [topicEntries, Holds, and_comm]

theorem orderOf_injOn {e e' : LogEntry} (ht : e.topic = e'.topic) (h : orderOf e = orderOf e') :
    e.id = e'.id := by
  simp only [orderOf, Order.mk.injEq] at h
  simp [LogEntry.id, ht, h.2.2.1, h.2.2.2]

theorem sorted_topicEntries (db : Db) (topic : Topic) :
    (db.topicEntries topic).Pairwise fun a b => orderOf a < orderOf b := by
  have hle : (db.topicEntries topic).Pairwise fun a b => orderOf a ≤ orderOf b := by
    have htotal : Std.Total fun e e' : LogEntry => orderOf e ≤ orderOf e' :=
      ⟨fun _ _ => le_total _ _⟩
    have htrans : IsTrans LogEntry fun e e' => orderOf e ≤ orderOf e' :=
      ⟨fun _ _ _ => le_trans⟩
    exact List.pairwise_insertionSort _ _
  have hids : ((db.topicEntries topic).map LogEntry.id).Nodup := by
    have hperm := (List.perm_insertionSort (fun e e' => orderOf e ≤ orderOf e')
      ((db.sqLog.rows.map LogRow.entry).filter fun e => e.topic = topic)).map LogEntry.id
    apply hperm.nodup_iff.2
    have hnodup := db.sqLog.nodup
    have hcomp : (db.sqLog.rows.map fun r => r.entry.id)
        = (db.sqLog.rows.map LogRow.entry).map LogEntry.id := by simp [List.map_map]
    rw [hcomp] at hnodup
    exact hnodup.sublist (List.filter_sublist.map _)
  have hne : (db.topicEntries topic).Pairwise fun a b => a.id ≠ b.id := List.pairwise_map.1 hids
  refine (hle.and hne).imp_of_mem ?_
  rintro a b ha hb ⟨hab, hn⟩
  apply lt_of_le_of_ne hab
  intro he
  exact hn (orderOf_injOn ((mem_topicEntries.1 ha).1.trans (mem_topicEntries.1 hb).1.symm) he)

theorem covers_topicEntries (db : Db) (topic : Topic) :
    Covers orderOf (db.Holds topic) (db.Holds topic) (db.topicEntries topic) :=
  ⟨sorted_topicEntries db topic, fun _ => mem_topicEntries.1, fun _ => mem_topicEntries.2⟩

theorem length_topicEntries_le (db : Db) (topic : Topic) :
    (db.topicEntries topic).length ≤ db.sqLog.rows.length := by
  rw [topicEntries, List.length_insertionSort]
  exact (List.length_filter_le _ _).trans (by simp)

theorem mem_entriesForTopicFromRowid
    (h : r ∈ entriesForTopicFromRowid db topic afterRowid limit) :
    r ∈ db.sqLog.rows ∧ r.entry.topic = topic ∧ afterRowid < r.rowid := by
  have hr := Table.mem_selectBy.1 (List.mem_of_mem_take h)
  exact ⟨hr.1, by simpa using hr.2⟩

/-- A batch leaves no row of the topic out up to its last rowid. -/
theorem Numbered.mem_batch {db : Db} (hdb : db.Numbered)
    (hlast : (db.entriesForTopicFromRowid topic afterRowid limit).getLast? = some last)
    (h : db.HoldsTo topic last.rowid e) :
    db.HoldsTo topic afterRowid e ∨
      ∃ r ∈ db.entriesForTopicFromRowid topic afterRowid limit, r.entry = e := by
  obtain ⟨ht, r, hr, rfl, hle⟩ := h
  by_cases hold : r.rowid ≤ afterRowid
  · exact .inl ⟨ht, r, hr, rfl, hold⟩
  have hsel : r ∈ db.sqLog.selectBy
      (fun r => decide (r.entry.topic = topic ∧ afterRowid < r.rowid)) (·.rowid) := by
    rw [Table.mem_selectBy]
    exact ⟨hr, by simpa using ⟨ht, by omega⟩⟩
  have hsorted := Table.pairwise_selectBy db.sqLog
    (fun r => decide (r.entry.topic = topic ∧ afterRowid < r.rowid)) (·.rowid)
  have hmem := List.mem_of_getLast? hlast
  unfold entriesForTopicFromRowid at hmem hlast ⊢
  rw [← List.take_append_drop limit (db.sqLog.selectBy _ _)] at hsel hsorted
  rcases List.mem_append.1 hsel with htake | hdrop
  · exact .inr ⟨r, htake, rfl⟩
  · have hge := (List.pairwise_append.1 hsorted).2.2 last hmem r hdrop
    have hlast' := (Table.mem_selectBy.1 (List.mem_of_mem_take hmem)).1
    have hnodup : (db.sqLog.rows.map LogRow.rowid).Nodup :=
      List.pairwise_map.2 (hdb.sorted.imp fun h => Nat.ne_of_lt h)
    have heq := List.inj_on_of_nodup_map hnodup hr hlast' (Nat.le_antisymm hle hge)
    exact .inr ⟨last, hmem, by rw [heq]⟩

theorem mem_batchFrom {db : Db} (he : e ∈ db.batchFrom topic n) :
    ∃ r ∈ db.entriesForTopicFromRowid topic n FOLD_BATCH, r.entry = e := by
  simpa [batchFrom] using he

theorem holds_of_mem_batchFrom {db : Db} (he : e ∈ db.batchFrom topic n) : db.Holds topic e := by
  obtain ⟨r, hr, rfl⟩ := mem_batchFrom he
  obtain ⟨hrow, ht, -⟩ := mem_entriesForTopicFromRowid hr
  exact ⟨ht, r, hrow, rfl⟩

theorem sorted_batchFrom (db : Db) (topic : Topic) (n : Nat) :
    (db.batchFrom topic n).Pairwise fun a b => orderOf a < orderOf b := by
  have hle : (db.batchFrom topic n).Pairwise fun a b => orderOf a ≤ orderOf b := by
    have htotal : Std.Total fun e e' : LogEntry => orderOf e ≤ orderOf e' :=
      ⟨fun _ _ => le_total _ _⟩
    have htrans : IsTrans LogEntry fun e e' => orderOf e ≤ orderOf e' :=
      ⟨fun _ _ _ => le_trans⟩
    exact List.pairwise_insertionSort _ _
  have hids : ((db.batchFrom topic n).map LogEntry.id).Nodup := by
    have hperm := (List.perm_insertionSort (fun e e' => orderOf e ≤ orderOf e')
      ((db.entriesForTopicFromRowid topic n FOLD_BATCH).map LogRow.entry)).map LogEntry.id
    apply hperm.nodup_iff.2
    have hnodup : ((db.entriesForTopicFromRowid topic n FOLD_BATCH).map
        fun r => r.entry.id).Nodup := by
      apply List.Nodup.sublist ((List.take_sublist _ _).map _)
      have hsel := List.perm_insertionSort (fun r r' : LogRow => r.rowid ≤ r'.rowid)
        (db.sqLog.rows.filter fun r => decide (r.entry.topic = topic ∧ n < r.rowid))
      apply (hsel.map _).nodup_iff.2
      exact db.sqLog.nodup.sublist (List.filter_sublist.map _)
    simpa [List.map_map, Function.comp_def] using hnodup
  have hne : (db.batchFrom topic n).Pairwise fun a b => a.id ≠ b.id := List.pairwise_map.1 hids
  refine (hle.and hne).imp_of_mem ?_
  rintro a b ha hb ⟨hab, hn⟩
  apply lt_of_le_of_ne hab
  intro he
  exact hn (orderOf_injOn ((holds_of_mem_batchFrom ha).1.trans
    (holds_of_mem_batchFrom hb).1.symm) he)

theorem head_le_batchFrom {db : Db} (hfirst : (db.batchFrom topic n).head? = some first)
    (he : e ∈ db.batchFrom topic n) : orderOf first ≤ orderOf e := by
  have hs := sorted_batchFrom db topic n
  obtain ⟨es, hes⟩ := List.head?_eq_some_iff.1 hfirst
  rw [hes] at hs he
  rcases List.mem_cons.1 he with rfl | he
  · exact le_refl _
  · exact le_of_lt ((List.pairwise_cons.1 hs).1 e he)

theorem le_maxRowid {db : Db} (hr : r ∈ db.sqLog.rows) (ht : r.entry.topic = topic) :
    r.rowid ≤ db.maxRowid topic := by
  have hmem : r.rowid ∈ (db.sqLog.rows.filter fun r => r.entry.topic = topic).map LogRow.rowid :=
    List.mem_map.2 ⟨r, List.mem_filter.2 ⟨hr, by simpa using ht⟩, rfl⟩
  unfold maxRowid
  cases hmax : ((db.sqLog.rows.filter fun r => r.entry.topic = topic).map LogRow.rowid).max? with
  | none => rw [List.max?_eq_none_iff.1 hmax] at hmem; cases hmem
  | some m => exact List.le_max?_getD_of_mem hmem |>.trans (by rw [hmax])

end Db

namespace Checkpoints

theorem mem_latest {cs : List (Order × S)} (h : latest cs = some c) : c ∈ cs :=
  List.mem_insertionSort _ |>.1 (List.mem_of_getLast? h)

theorem mem_checkpointBefore {cs : Checkpoints S} (h : cs.checkpointBefore before = some c) :
    c ∈ cs.rows ∧ c.1 < before := by
  simpa using mem_latest h

theorem mem_earliestCheckpoint {cs : Checkpoints S} (h : cs.earliestCheckpoint = some c) :
    c ∈ cs.rows :=
  List.mem_insertionSort _ |>.1 (List.mem_of_head? h)

end Checkpoints

section
variable {v : ViewDef S R}

/-- What folding entries does to a hub, whatever it does to the table. -/
structure Folds (h : ViewHub v) (es : List LogEntry) (h' : ViewHub v) : Prop where
  db : h'.db = h.db
  lastRowid : h'.inst.lastRowid = h.inst.lastRowid
  faulted : h'.inst.faulted = h.inst.faulted
  state : h'.inst.state = es.foldl v.reduce h.inst.state
  ord : h'.inst.ord = (lastKey orderOf es).or h.inst.ord
  checkpoints : ∀ c ∈ h'.checkpoints.rows, c ∈ h.checkpoints.rows ∨
    ∃ P e Q, es = P ++ e :: Q ∧ c = (orderOf e, (P ++ [e]).foldl v.reduce h.inst.state)

theorem Folds.trans (h₁ : Folds h es h') (h₂ : Folds h' es' h'') : Folds h (es ++ es') h'' where
  db := h₂.db.trans h₁.db
  lastRowid := h₂.lastRowid.trans h₁.lastRowid
  faulted := h₂.faulted.trans h₁.faulted
  state := by rw [h₂.state, h₁.state, List.foldl_append]
  ord := by
    rw [h₂.ord, h₁.ord]
    cases es' with
    | nil => simp
    | cons e es' =>
      rw [lastKey_append_cons]
      simp [lastKey, List.getLast?_cons]
  checkpoints := by
    intro c hc
    rcases h₂.checkpoints c hc with hc | ⟨P, e, Q, rfl, rfl⟩
    · rcases h₁.checkpoints c hc with hc | ⟨P, e, Q, rfl, rfl⟩
      · exact .inl hc
      · exact .inr ⟨P, e, Q ++ es', by simp, rfl⟩
    · refine .inr ⟨es ++ P, e, Q, by simp, ?_⟩
      rw [h₁.state, List.append_assoc, List.foldl_append (l := es)]

/-- A step that only writes the table. -/
theorem Folds.quiet (hdb : h'.db = h.db) (hcp : h'.checkpoints = h.checkpoints)
    (hstate : h'.inst.state = h.inst.state) (hord : h'.inst.ord = h.inst.ord)
    (hrow : h'.inst.lastRowid = h.inst.lastRowid) (hf : h'.inst.faulted = h.inst.faulted) :
    Folds (v := v) h [] h' where
  db := hdb
  lastRowid := hrow
  faulted := hf
  state := hstate
  ord := by simpa using hord
  checkpoints := by
    intro c hc
    rw [hcp] at hc
    exact .inl hc

theorem Folds.refl (h : ViewHub v) : Folds h [] h := .quiet rfl rfl rfl rfl rfl rfl

end

namespace ViewHub

variable {S R : Type} {v : ViewDef S R} {topic : Topic} {N : Nat}

theorem rewriteTable_folds {h h' : ViewHub v} (hr : rewriteTable h = .ok h') : Folds h [] h' := by
  unfold rewriteTable at hr
  split at hr
  · cases hr
  · cases hr
    exact .quiet rfl rfl rfl rfl rfl rfl

theorem insertRow_folds {h h' : ViewHub v} (hr : insertRow h r = .ok h') : Folds h [] h' := by
  unfold insertRow at hr
  split at hr
  · cases hr
    exact .quiet rfl rfl rfl rfl rfl rfl
  · cases hr

theorem insertRows_folds {rs : List R} {h h' : ViewHub v}
    (hr : rs.foldlM insertRow h = .ok h') :
    Folds h [] h' := by
  induction rs generalizing h with
  | nil =>
    cases hr
    exact .refl _
  | cons r rs ih =>
    rw [List.foldlM_cons] at hr
    cases he : insertRow h r with
    | error h₁ => rw [he] at hr; cases hr
    | ok h₁ =>
      rw [he] at hr
      exact (insertRow_folds he).trans (ih hr)

theorem applyDelta_folds {h h' : ViewHub v} (hr : applyDelta h d = .ok h') : Folds h [] h' :=
  have hquiet : Folds h [] { h with table := d.2.foldl Table.delete h.table } :=
    .quiet rfl rfl rfl rfl rfl rfl
  hquiet.trans (insertRows_folds hr)

theorem foldlM_folds {step : ViewHub v → LogEntry → ViewM v}
    (hstep : ∀ h e h', step h e = .ok h' → Folds h [e] h') {h h' : ViewHub v}
    (hr : es.foldlM step h = .ok h') : Folds h es h' := by
  induction es generalizing h with
  | nil =>
    cases hr
    exact .refl _
  | cons e es ih =>
    rw [List.foldlM_cons] at hr
    cases he : step h e with
    | error h₁ => rw [he] at hr; cases hr
    | ok h₁ =>
      rw [he] at hr
      exact (hstep h e h₁ he).trans (ih hr)

variable [DecidableEq R]

theorem verifyDelta_folds {h h' : ViewHub v} (hr : verifyDelta h = .ok h') : Folds h [] h' := by
  unfold verifyDelta at hr
  split at hr
  · cases hr
  · split at hr
    · cases hr
      exact .refl _
    · exact rewriteTable_folds hr

theorem diffSyncTable_folds {h h' : ViewHub v} (hr : diffSyncTable h = .ok h') :
    Folds h [] h' := by
  unfold diffSyncTable at hr
  split at hr
  · exact rewriteTable_folds hr
  · split at hr
    · cases hr
      exact .quiet rfl rfl rfl rfl rfl rfl
    · cases hr

theorem syncTable_folds {h h' : ViewHub v} (hr : syncTable h = .ok h') : Folds h [] h' := by
  unfold syncTable at hr
  split at hr
  · cases hr
    exact .refl _
  · exact diffSyncTable_folds hr

theorem foldEntry_folds {h h' : ViewHub v} (hr : foldEntry N h e = .ok h') :
    Folds h [e] h' := by
  unfold foldEntry at hr
  dsimp only at hr
  split at hr
  · simp only [checkpoint] at hr
    have hput : Folds h [e] (checkpointPut { h with
        inst.state := v.reduce h.inst.state e
        inst.ord := some (orderOf e)
        inst.sinceCheckpoint := 0 } (orderOf e) (v.reduce h.inst.state e)) := by
      refine ⟨rfl, rfl, rfl, rfl, rfl, fun c hc => ?_⟩
      rcases Table.eq_or_mem_of_mem_upsert hc with rfl | hc
      · exact .inr ⟨[], e, [], rfl, rfl⟩
      · exact .inl hc
    split at hr
    · exact hput.trans (verifyDelta_folds hr)
    · cases hr
      exact hput
  · cases hr
    exact ⟨rfl, rfl, rfl, rfl, rfl, fun c hc => .inl hc⟩

theorem applyEntry_folds {h h' : ViewHub v} (hr : applyEntry N h e = .ok h') :
    Folds h [e] h' := by
  unfold applyEntry at hr
  split at hr
  · next delta _ =>
    cases hd : applyDelta h (delta h.inst.state e) with
    | error h₁ => rw [hd] at hr; cases hr
    | ok h₁ =>
      rw [hd] at hr
      exact (applyDelta_folds hd).trans (foldEntry_folds hr)
  · exact foldEntry_folds hr

/-- The batches of a refold add up to everything after the cursor. -/
theorem refoldLoop_folds {h h' : ViewHub v} {cursor : Option Order} {fuel : Nat}
    (hfuel : (after orderOf cursor (h.db.topicEntries topic)).length < fuel)
    (hr : refoldLoop topic N fuel cursor h = .ok h') :
    Folds h (after orderOf cursor (h.db.topicEntries topic)) h' := by
  induction fuel generalizing cursor h with
  | zero => omega
  | succ fuel ih =>
    unfold refoldLoop at hr
    cases hbatch : h.db.entriesAfterOrder topic cursor FOLD_BATCH with
    | nil =>
      have hnil : after orderOf cursor (h.db.topicEntries topic) = [] := by
        simpa [Db.entriesAfterOrder, FOLD_BATCH] using hbatch
      rw [hbatch] at hr
      cases hr
      rw [hnil]
      exact .refl _
    | cons e es =>
      rw [hbatch] at hr
      dsimp only at hr
      cases hes : (e :: es).foldlM (foldEntry N) h with
      | error h₁ => rw [hes] at hr; cases hr
      | ok h₁ =>
        rw [hes] at hr
        have hfold : Folds h (e :: es) h₁ := foldlM_folds (fun _ _ _ => foldEntry_folds) hes
        have hcursor : h₁.inst.ord = lastKey orderOf (e :: es) := by
          rw [hfold.ord]
          simp [lastKey, List.getLast?_cons]
        have htake : (after orderOf cursor (h.db.topicEntries topic)).take FOLD_BATCH = e :: es :=
          hbatch
        have hrest := after_lastKey_take (Db.sorted_topicEntries h.db topic)
          (by rw [htake]; simp)
        rw [htake] at hrest
        have hlen : (e :: es).length = min FOLD_BATCH _ := htake ▸ List.length_take
        have hfuel' : (after orderOf h₁.inst.ord (h₁.db.topicEntries topic)).length < fuel := by
          rw [hcursor, hfold.db, hrest, List.length_drop]
          simp only [List.length_cons, FOLD_BATCH] at hlen
          simp only [FOLD_BATCH]
          omega
        have hrest' := ih hfuel' hr
        rw [hcursor, hfold.db, hrest] at hrest'
        rw [← List.take_append_drop FOLD_BATCH (after orderOf cursor _), htake]
        exact hfold.trans hrest'

theorem refoldFrom_folds (h : ViewHub v) (cursor : Option Order) :
    (refoldFrom topic N h cursor).inst.faulted = true ∨
      Folds h (after orderOf cursor (h.db.topicEntries topic))
        (refoldFrom topic N h cursor) := by
  unfold refoldFrom
  dsimp only
  split
  · next h' hr =>
    right
    cases hl : refoldLoop topic N (h.db.sqLog.rows.length + 1) cursor h with
    | error h₁ => rw [hl] at hr; cases hr
    | ok h₁ =>
      rw [hl] at hr
      have hfuel : (after orderOf cursor (h.db.topicEntries topic)).length <
          h.db.sqLog.rows.length + 1 :=
        Nat.lt_succ_of_le ((List.length_filter_le _ _).trans
          (Db.length_topicEntries_le h.db topic))
      have := (refoldLoop_folds hfuel hl).trans (rewriteTable_folds hr)
      simpa using this
  · exact .inl rfl

end ViewHub

end Seqscribe
