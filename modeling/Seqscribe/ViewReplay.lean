import Seqscribe.ViewFold

namespace Seqscribe
set_option autoImplicit true

open Replay

/-! What the state and the checkpoints of a view cover. `all` are the entries of the topic and
`seen` those that the view has materialized. -/

/-- At or below a cursor; nothing is, when it is null. -/
def Upto (cursor : Option Order) (e : LogEntry) : Prop := ∃ o ∈ cursor, orderOf e ≤ o

theorem not_upto : ¬ Upto cursor e ↔ ∀ o ∈ cursor, o < orderOf e := by
  simp [Upto]

/-- The state folds, in total order, entries up to the cursor, every seen one included. -/
def Reached (v : ViewDef S R) (seen all : LogEntry → Prop) (cursor : Option Order) (s : S) :
    Prop :=
  ∃ X, Covers orderOf seen (fun e => all e ∧ Upto cursor e) X ∧ s = v.fold X

/-- A checkpoint has folded every seen entry at or below it. -/
def Point (v : ViewDef S R) (seen all : LogEntry → Prop) (c : Order × S) : Prop :=
  Reached v (fun e => seen e ∧ Upto (some c.1) e) all (some c.1) c.2

structure Tracks (seen all : LogEntry → Prop) (h : ViewHub v) : Prop where
  state : Reached v seen all h.inst.ord h.inst.state
  points : ∀ c ∈ h.checkpoints.rows, Point v seen all c

section
variable {v : ViewDef S R}

theorem Reached.mono (h : Reached v seen all cursor s) (hseen : ∀ e, seen' e → seen e)
    (hall : ∀ e, all e → all' e) : Reached v seen' all' cursor s := by
  obtain ⟨X, hX, hs⟩ := h
  exact ⟨X, hX.mono hseen fun e he => ⟨hall e he.1, he.2⟩, hs⟩

theorem Point.mono (h : Point v seen all c)
    (hseen : ∀ e, seen' e → Upto (some c.1) e → seen e)
    (hall : ∀ e, all e → all' e) : Point v seen' all' c :=
  Reached.mono h (fun e he => ⟨hseen e he.1 he.2, he.2⟩) hall

/-- Before the first entry. -/
theorem Reached.init {seen all : LogEntry → Prop} :
    Reached v (fun e => seen e ∧ Upto none e) all none v.init := by
  refine ⟨[], Covers.nil ?_, rfl⟩
  rintro e ⟨-, o, ho, -⟩
  cases ho

/-- Folding the entries that follow. -/
theorem Folds.tracks {h h' : ViewHub v} (hf : Folds h es h')
    (hstate : Reached v seen all h.inst.ord h.inst.state)
    (hpoints : ∀ c ∈ h.checkpoints.rows, Point v seen' all c)
    (hsorted : es.Pairwise fun a b => orderOf a < orderOf b)
    (hgt : ∀ e ∈ es, ¬ Upto h.inst.ord e) (hall : ∀ e ∈ es, all e)
    (hseen : ∀ e, seen' e → seen e ∨ e ∈ es) : Tracks seen' all h' := by
  obtain ⟨X, hX, hs⟩ := hstate
  have hlt : ∀ x ∈ X, ∀ y ∈ es, orderOf x < orderOf y := by
    intro x hx y hy
    obtain ⟨o, ho, hle⟩ := (hX.sound x hx).2
    exact lt_of_le_of_lt hle (not_upto.1 (hgt y hy) o ho)
  have hcov : Covers orderOf seen' all (X ++ es) :=
    hX.append hsorted hlt (fun x hx => (hX.sound x hx).1) hall hseen
  have hupto : ∀ e ∈ X ++ es, Upto h'.inst.ord e := by
    intro e he
    rw [hf.ord]
    cases hlast : lastKey orderOf es with
    | none =>
      rw [eq_nil_of_lastKey hlast, List.append_nil] at he
      exact (hX.sound e he).2
    | some l =>
      refine ⟨l, rfl, ?_⟩
      rcases List.mem_append.1 he with he | he
      · obtain ⟨y, hy, rfl⟩ := Option.map_eq_some_iff.1 hlast
        exact le_of_lt (hlt e he y (List.mem_of_getLast? hy))
      · exact le_lastKey hsorted hlast he
  have hfold : ∀ ys, ys.foldl v.reduce h.inst.state = v.fold (X ++ ys) := by
    intro ys
    rw [hs, ViewDef.fold, ViewDef.fold, List.foldl_append]
  constructor
  · refine ⟨X ++ es, ⟨hcov.sorted, fun e he => ⟨hcov.sound e he, hupto e he⟩, hcov.complete⟩, ?_⟩
    rw [hf.state, hfold]
  · intro c hc
    rcases hf.checkpoints c hc with hc | ⟨P, e, Q, rfl, rfl⟩
    · exact hpoints c hc
    · rw [hfold]
      have hup : Covers orderOf _ _ ((X ++ P) ++ [e]) :=
        Covers.upTo (Q := Q) (by simpa using hcov)
      refine ⟨X ++ (P ++ [e]), ?_, rfl⟩
      rw [← List.append_assoc]
      apply hup.mono
      · rintro x ⟨hx, o, ⟨⟩, hle⟩
        exact ⟨hx, hle⟩
      · rintro x ⟨hx, hle⟩
        exact ⟨hx, orderOf e, rfl, hle⟩

/-- No checkpoint, unless a kept one, is ahead of the view's own position. -/
def Low (kept : Order × S → Prop) (h : ViewHub v) : Prop :=
  ∀ c ∈ h.checkpoints.rows, kept c ∨ ∃ o ∈ h.inst.ord, c.1 ≤ o

theorem Folds.low {h h' : ViewHub v} (hf : Folds h es h') (hlow : Low kept h)
    (hsorted : es.Pairwise fun a b => orderOf a < orderOf b)
    (hgt : ∀ e ∈ es, ¬ Upto h.inst.ord e) : Low kept h' := by
  intro c hc
  rw [hf.ord]
  cases hlast : lastKey orderOf es with
  | none =>
    obtain rfl := eq_nil_of_lastKey hlast
    rcases hf.checkpoints c hc with hc | ⟨P, e, Q, he, -⟩
    · exact hlow c hc
    · simp at he
  | some l =>
    rcases hf.checkpoints c hc with hc | ⟨P, e, Q, rfl, rfl⟩
    · rcases hlow c hc with hkept | ⟨o, ho, hle⟩
      · exact .inl hkept
      · obtain ⟨y, hy, rfl⟩ := Option.map_eq_some_iff.1 hlast
        refine .inr ⟨orderOf y, rfl, hle.trans (le_of_lt ?_)⟩
        exact not_upto.1 (hgt y (List.mem_of_getLast? hy)) o ho
    · exact .inr ⟨l, rfl, le_lastKey (x := e) hsorted hlast (by simp)⟩

end

namespace ViewHub

variable {S R : Type} {v : ViewDef S R} [DecidableEq R] {topic : Topic} {N : Nat}
  {seen all : LogEntry → Prop}

theorem refoldFrom_tracks {h : ViewHub v}
    (hbase : Reached v (fun e => seen e ∧ Upto h.inst.ord e) all h.inst.ord h.inst.state)
    (hpoints : ∀ c ∈ h.checkpoints.rows, Point v seen all c)
    (hholds : ∀ e, h.db.Holds topic e → all e)
    (hseen : ∀ e, seen e → Upto h.inst.ord e ∨ h.db.Holds topic e) :
    (refoldFrom topic N h h.inst.ord).inst.faulted = true ∨
      (refoldFrom topic N h h.inst.ord).db = h.db ∧
        (refoldFrom topic N h h.inst.ord).inst.lastRowid = h.inst.lastRowid ∧
        Tracks seen all (refoldFrom topic N h h.inst.ord) := by
  rcases refoldFrom_folds h h.inst.ord with hfault | hf
  · exact .inl hfault
  refine .inr ⟨hf.db, hf.lastRowid, hf.tracks hbase hpoints ?_ ?_ ?_ ?_⟩
  · exact (Db.sorted_topicEntries h.db topic).filter _
  · intro e he
    exact not_upto.2 (mem_after.1 he).2
  · intro e he
    exact hholds e (Db.mem_topicEntries.1 (mem_after.1 he).1)
  · intro e he
    by_cases hu : Upto h.inst.ord e
    · exact .inl ⟨he, hu⟩
    · right
      rw [mem_after]
      refine ⟨Db.mem_topicEntries.2 ?_, not_upto.1 hu⟩
      exact (hseen e he).resolve_left hu

/-- The restore point of a late arrival. -/
def restorePoint (h : ViewHub v) (lateOrd : Order) : Option Order :=
  (h.checkpoints.checkpointBefore lateOrd).map Prod.fst

theorem recomputeFrom_tracks (topic : Topic) (N : Nat) (seen all : LogEntry → Prop)
    {h : ViewHub v} (lateOrd : Order)
    (hpoints : ∀ c ∈ h.checkpoints.rows, c.1 < lateOrd → Point v seen all c)
    (hholds : ∀ e, h.db.Holds topic e → all e)
    (hseen : ∀ e, seen e → Upto (h.restorePoint lateOrd) e ∨ h.db.Holds topic e) :
    (recomputeFrom topic N h lateOrd).inst.faulted = true ∨
      (recomputeFrom topic N h lateOrd).db = h.db ∧
        (recomputeFrom topic N h lateOrd).inst.lastRowid = h.inst.lastRowid ∧
        Tracks seen all (recomputeFrom topic N h lateOrd) := by
  unfold recomputeFrom
  unfold restorePoint at hseen
  cases hc : h.checkpoints.checkpointBefore lateOrd with
  | none =>
    rw [hc] at hseen
    apply refoldFrom_tracks (h := { h with
      inst.state := v.init
      inst.ord := none
      checkpoints := Table.empty
      inst.sinceCheckpoint := 0 }) Reached.init
    · intro c hc
      cases hc
    · exact hholds
    · exact hseen
  | some ckpt =>
    rw [hc] at hseen
    obtain ⟨hmem, hlt⟩ := Checkpoints.mem_checkpointBefore hc
    have hpoint := hpoints ckpt hmem hlt
    apply refoldFrom_tracks (h := { h with
      inst.state := ckpt.2
      inst.ord := some ckpt.1
      checkpoints := Table.empty.upsert ckpt
      inst.sinceCheckpoint := 0 }) hpoint
    · intro c hc
      rcases Table.eq_or_mem_of_mem_upsert hc with rfl | hc
      · exact hpoint
      · cases hc
    · exact hholds
    · exact hseen

theorem forwardBatch_folds {h h' : ViewHub v}
    (hr : forwardBatch N h batch lastRowid = .ok h') :
    ∃ h₁, Folds h batch h₁ ∧ h' = { h₁ with inst.lastRowid := lastRowid } := by
  unfold forwardBatch at hr
  cases hb : batch.foldlM (applyEntry N) h with
  | error h₁ => rw [hb] at hr; cases hr
  | ok h₁ =>
    rw [hb] at hr
    have hf : Folds h batch h₁ := foldlM_folds (fun _ _ _ => applyEntry_folds) hb
    cases hs : syncTable h₁ with
    | error h₂ =>
      simp only [hs, bind, Except.bind] at hr
      cases hr
    | ok h₂ =>
      simp only [hs, bind, Except.bind] at hr
      cases hr
      exact ⟨h₂, by simpa using hf.trans (syncTable_folds hs), rfl⟩

theorem refoldFrom_low (topic : Topic) (N : Nat) (kept : Order × S → Prop) {h : ViewHub v}
    (hlow : Low kept h) :
    (refoldFrom topic N h h.inst.ord).inst.faulted = true ∨
      Low kept (refoldFrom topic N h h.inst.ord) := by
  rcases refoldFrom_folds h h.inst.ord with hfault | hf
  · exact .inl hfault
  · refine .inr (hf.low hlow ((Db.sorted_topicEntries h.db topic).filter _) fun e he => ?_)
    exact not_upto.2 (mem_after.1 he).2

theorem recomputeFrom_low (h : ViewHub v) (lateOrd : Order) :
    (recomputeFrom topic N h lateOrd).inst.faulted = true ∨
      Low kept (recomputeFrom topic N h lateOrd) := by
  unfold recomputeFrom
  cases h.checkpoints.checkpointBefore lateOrd with
  | none =>
    apply refoldFrom_low topic N kept (h := { h with
      inst.state := v.init
      inst.ord := none
      checkpoints := Table.empty
      inst.sinceCheckpoint := 0 })
    intro c hc
    cases hc
  | some ckpt =>
    apply refoldFrom_low topic N kept (h := { h with
      inst.state := ckpt.2
      inst.ord := some ckpt.1
      checkpoints := Table.empty.upsert ckpt
      inst.sinceCheckpoint := 0 })
    intro c hc
    rcases Table.eq_or_mem_of_mem_upsert hc with rfl | hc
    · exact .inr ⟨c.1, rfl, le_refl _⟩
    · cases hc

/-- What a turn of the loop relies on: a checkpoint that a forward batch leaves behind counts
everything at or below it, and a late batch finds a checkpoint above the archived entries. -/
structure TurnReady (topic : Topic) (h : ViewHub v) : Prop where
  forward : ∀ first, (h.newBatch topic).head? = some first → ¬ Upto h.inst.ord first →
    ∀ c ∈ h.checkpoints.rows, orderOf first ≤ c.1 →
      Point v (h.db.Known topic) (h.db.Known topic) c
  late : ∀ first, (h.newBatch topic).head? = some first → Upto h.inst.ord first →
    ∀ e, h.db.Archived topic e → Upto (h.restorePoint (orderOf first)) e

/-- The view's state and checkpoints cover what its watermark has passed. -/
abbrev Sound (topic : Topic) (h : ViewHub v) : Prop :=
  Tracks (h.db.KnownTo topic h.inst.lastRowid) (h.db.Known topic) h

/-- A turn over a view whose state and checkpoints also cover entries `base` that come before the
log. -/
theorem materializeBatch_tracks {base : LogEntry → Prop} {h : ViewHub v} (hdb : h.db.Numbered)
    (hsound : Tracks (fun e => base e ∨ h.db.HoldsTo topic h.inst.lastRowid e)
      (fun e => base e ∨ h.db.Holds topic e) h)
    (hforward : ∀ first, (h.newBatch topic).head? = some first → ¬ Upto h.inst.ord first →
      ∀ c ∈ h.checkpoints.rows, orderOf first ≤ c.1 →
        Point v (fun e => base e ∨ h.db.Holds topic e) (fun e => base e ∨ h.db.Holds topic e) c)
    (hlate : ∀ first, (h.newBatch topic).head? = some first → Upto h.inst.ord first →
      ∀ e, base e → Upto (h.restorePoint (orderOf first)) e) :
    (materializeBatch topic N h).1.inst.faulted = true ∨
      (materializeBatch topic N h).1.db = h.db ∧
        (materializeBatch topic N h).1.inst.lastRowid ≤
          max h.inst.lastRowid h.db.logSequence ∧
        Tracks (fun e => base e ∨
            h.db.HoldsTo topic (materializeBatch topic N h).1.inst.lastRowid e)
          (fun e => base e ∨ h.db.Holds topic e) (materializeBatch topic N h).1 := by
  unfold materializeBatch
  dsimp only
  split
  · next first last hfirst hlast =>
    have hbound : last.rowid ≤ max h.inst.lastRowid h.db.logSequence := by
      have hlast' := Db.mem_entriesForTopicFromRowid (List.mem_of_getLast? hlast)
      exact (hdb.bounded last hlast'.1).trans (le_max_right _ _)
    have hnew : ∀ e, (base e ∨ h.db.HoldsTo topic last.rowid e) →
        (base e ∨ h.db.HoldsTo topic h.inst.lastRowid e) ∨ e ∈ h.newBatch topic := by
      rintro e (ha | hto)
      · exact .inl (.inl ha)
      · rcases hdb.mem_batch hlast hto with hold | hrow
        · exact .inl (.inr hold)
        · exact .inr (by simpa [newBatch, Db.batchFrom] using hrow)
    split
    · next hlater =>
      have hupto : Upto h.inst.ord first := by
        obtain ⟨o, ho, hle⟩ := (Option.any_eq_true _ _).1 hlater
        exact ⟨o, ho, orderCompare_le_zero.1 (by simpa using hle)⟩
      have hrec := recomputeFrom_tracks topic N (fun e => base e ∨ h.db.HoldsTo topic last.rowid e)
        (fun e => base e ∨ h.db.Holds topic e) (h := { h with inst.lastRowid := last.rowid })
        (orderOf first) ?_ ?_ ?_
      · rcases hrec with hf | ⟨hdb', hrow, ht⟩
        · exact .inl hf
        · refine .inr ⟨hdb', hrow.trans_le hbound, ?_⟩
          rw [hrow]
          exact ht
      · intro c hc hlt
        apply (hsound.points c hc).mono
        · rintro e he ⟨o, ⟨⟩, hle⟩
          rcases hnew e he with hold | hin
          · exact hold
          · exact absurd (Db.head_le_batchFrom hfirst hin) (not_le.2 (lt_of_le_of_lt hle hlt))
        · exact fun _ h => h
      · exact fun e he => .inr he
      · rintro e (ha | hto)
        · exact .inl (hlate first hfirst hupto e ha)
        · exact .inr hto.holds
    · next hlater =>
      have hnot : ¬ Upto h.inst.ord first := by
        rintro ⟨o, ho, hle⟩
        apply hlater
        rw [Option.any_eq_true]
        exact ⟨o, ho, by simpa using orderCompare_le_zero.2 hle⟩
      cases hb : forwardBatch N h (h.newBatch topic) last.rowid with
      | error h' => exact .inl rfl
      | ok h' =>
        obtain ⟨h₁, hf, rfl⟩ := forwardBatch_folds hb
        refine .inr ⟨hf.db, hbound, ?_⟩
        have htr : Tracks (fun e => base e ∨ h.db.HoldsTo topic last.rowid e)
            (fun e => base e ∨ h.db.Holds topic e) h₁ := hf.tracks
          hsound.state ?_
          (Db.sorted_batchFrom ..) ?_ ?_ hnew
        · exact ⟨htr.state, htr.points⟩
        · intro c hc
          by_cases hle : orderOf first ≤ c.1
          · apply (hforward first hfirst hnot c hc hle).mono
            · rintro e (ha | hto) -
              · exact .inl ha
              · exact .inr hto.holds
            · exact fun _ h => h
          · apply (hsound.points c hc).mono
            · rintro e he ⟨o, ⟨⟩, hec⟩
              rcases hnew e he with hold | hin
              · exact hold
              · exact absurd ((Db.head_le_batchFrom hfirst hin).trans hec) hle
            · exact fun _ h => h
        · intro e he
          rw [not_upto] at hnot ⊢
          intro o ho
          exact lt_of_lt_of_le (hnot o ho) (Db.head_le_batchFrom hfirst he)
        · exact fun e he => .inr (Db.holds_of_mem_batchFrom he)
  · exact .inr ⟨rfl, le_max_left _ _, hsound⟩

theorem materializeBatch_sound {h : ViewHub v} (hdb : h.db.Numbered) (hsound : h.Sound topic)
    (hready : TurnReady topic h) :
    (materializeBatch topic N h).1.inst.faulted = true ∨
      (materializeBatch topic N h).1.db = h.db ∧
        (materializeBatch topic N h).1.inst.lastRowid ≤
          max h.inst.lastRowid h.db.logSequence ∧
        (materializeBatch topic N h).1.Sound topic := by
  rcases materializeBatch_tracks (N := N) hdb hsound hready.forward hready.late with
    hf | ⟨hdb', hrow, ht⟩
  · exact .inl hf
  · refine .inr ⟨hdb', hrow, ?_⟩
    rw [Sound, hdb']
    exact ht

theorem recomputeFrom_faulted {h : ViewHub v} (hf : h.inst.faulted = true) (lateOrd : Order) :
    (recomputeFrom topic N h lateOrd).inst.faulted = true := by
  unfold recomputeFrom
  cases h.checkpoints.checkpointBefore lateOrd with
  | none =>
    rcases refoldFrom_folds (N := N) { h with
      inst.state := v.init
      inst.ord := none
      checkpoints := Table.empty
      inst.sinceCheckpoint := 0 } none with hfault | hfolds
    · exact hfault
    · exact hfolds.faulted.trans hf
  | some ckpt =>
    rcases refoldFrom_folds (N := N) { h with
      inst.state := ckpt.2
      inst.ord := some ckpt.1
      checkpoints := Table.empty.upsert ckpt
      inst.sinceCheckpoint := 0 } (some ckpt.1) with hfault | hfolds
    · exact hfault
    · exact hfolds.faulted.trans hf

theorem materializeBatch_faulted {h : ViewHub v} (hf : h.inst.faulted = true) :
    (materializeBatch topic N h).1.inst.faulted = true := by
  unfold materializeBatch
  dsimp only
  split
  · next first last hfirst hlast =>
    split
    · exact recomputeFrom_faulted (h := { h with inst.lastRowid := last.rowid }) hf _
    · cases hb : forwardBatch N h (h.newBatch topic) last.rowid with
      | error h' => rfl
      | ok h' =>
        obtain ⟨h₁, hfolds, rfl⟩ := forwardBatch_folds hb
        exact hfolds.faulted.trans hf
  · exact hf

theorem materializeBatch_low {h : ViewHub v} (hlow : Low kept h) :
    (materializeBatch topic N h).1.inst.faulted = true ∨
      Low kept (materializeBatch topic N h).1 := by
  unfold materializeBatch
  dsimp only
  split
  · next first last hfirst hlast =>
    split
    · exact recomputeFrom_low _ _
    · next hlate =>
      cases hb : forwardBatch N h (h.newBatch topic) last.rowid with
      | error h' => exact .inl rfl
      | ok h' =>
        obtain ⟨h₁, hf, rfl⟩ := forwardBatch_folds hb
        refine .inr (hf.low hlow (Db.sorted_batchFrom ..) fun e he => ?_)
        rw [not_upto]
        intro o ho
        apply lt_of_lt_of_le _ (Db.head_le_batchFrom hfirst he)
        rw [← not_le]
        intro hle
        apply hlate
        rw [Option.any_eq_true]
        exact ⟨o, ho, by simpa using orderCompare_le_zero.2 hle⟩
  · exact .inr hlow

/-- What every turn of the loop preserves, a pass preserves. -/
theorem materializeLoop_induct {I : ViewHub v → Prop}
    (hstep : ∀ h, I h → I (materializeBatch topic N h).1) {h : ViewHub v} (hI : I h)
    (fuel : Nat) : I (materializeLoop topic N fuel h) := by
  induction fuel generalizing h with
  | zero => exact hI
  | succ fuel ih =>
    have hturn := hstep h hI
    unfold materializeLoop
    split
    · next h' heq =>
      rw [heq] at hturn
      exact ih hturn
    · next h' heq =>
      rw [heq] at hturn
      exact hturn

theorem materialize_induct {I : ViewHub v → Prop}
    (hstep : ∀ h, I h → I (materializeBatch topic N h).1) {h : ViewHub v} (hI : I h) :
    I (materialize topic N h) := by
  unfold materialize
  split
  · exact hI
  · exact materializeLoop_induct hstep hI _

/-- The rows of the topic that the watermark has not passed. -/
def remaining (topic : Topic) (h : ViewHub v) : List LogRow :=
  h.db.sqLog.rows.filter fun r => decide (r.entry.topic = topic ∧ h.inst.lastRowid < r.rowid)

omit [DecidableEq R] in
theorem newRows_eq_nil {h : ViewHub v} : h.newRows topic = [] ↔ h.remaining topic = [] := by
  have hlen : (h.db.sqLog.selectBy
      (fun r => decide (r.entry.topic = topic ∧ h.inst.lastRowid < r.rowid)) (·.rowid)).length =
      (h.remaining topic).length := List.length_insertionSort ..
  rw [← List.length_eq_zero_iff, ← List.length_eq_zero_iff, newRows,
    Db.entriesForTopicFromRowid, List.length_take, hlen]
  simp only [FOLD_BATCH]
  omega

omit [DecidableEq R] in
/-- With no new rows everything held is materialized. -/
theorem holdsTo_of_newRows {h : ViewHub v} (hnew : h.newRows topic = [])
    (he : h.db.Holds topic e) : h.db.HoldsTo topic h.inst.lastRowid e := by
  obtain ⟨ht, r, hr, rfl⟩ := he
  refine ⟨ht, r, hr, rfl, ?_⟩
  by_contra hlt
  have hmem : r ∈ h.remaining topic := List.mem_filter.2 ⟨hr, by simpa using ⟨ht, by omega⟩⟩
  rw [newRows_eq_nil.1 hnew] at hmem
  cases hmem

theorem recomputeFrom_frame (h : ViewHub v) (lateOrd : Order) :
    (recomputeFrom topic N h lateOrd).inst.faulted = true ∨
      (recomputeFrom topic N h lateOrd).db = h.db ∧
        (recomputeFrom topic N h lateOrd).inst.lastRowid = h.inst.lastRowid := by
  unfold recomputeFrom
  cases h.checkpoints.checkpointBefore lateOrd with
  | none => exact (refoldFrom_folds _ _).imp_right fun hf => ⟨hf.db, hf.lastRowid⟩
  | some ckpt => exact (refoldFrom_folds _ _).imp_right fun hf => ⟨hf.db, hf.lastRowid⟩

omit [DecidableEq R] in
theorem remaining_lt {h h' : ViewHub v} (hlast : (h.newRows topic).getLast? = some last)
    (hdb : h'.db = h.db) (hrow : h'.inst.lastRowid = last.rowid) :
    (h'.remaining topic).length < (h.remaining topic).length := by
  obtain ⟨hmem, ht, hlt⟩ := Db.mem_entriesForTopicFromRowid (List.mem_of_getLast? hlast)
  have heq : h'.remaining topic =
      (h.remaining topic).filter fun r => decide (last.rowid < r.rowid) := by
    rw [remaining, remaining, hdb, hrow, List.filter_filter]
    apply List.filter_congr
    intro r _
    rw [← Bool.decide_and, decide_eq_decide]
    constructor
    · rintro ⟨htr, hr⟩
      exact ⟨hr, htr, hlt.trans hr⟩
    · rintro ⟨hr, htr, -⟩
      exact ⟨htr, hr⟩
  rw [heq]
  apply List.length_filter_lt_length_iff_exists.2
  exact ⟨last, List.mem_filter.2 ⟨hmem, by simpa using ⟨ht, hlt⟩⟩, by simp⟩

omit [DecidableEq R] in
theorem newBatch_head {h : ViewHub v} (hnew : h.newRows topic ≠ []) :
    ∃ first last, (h.newBatch topic).head? = some first ∧
      (h.newRows topic).getLast? = some last := by
  have hlen : (h.newBatch topic).length = (h.newRows topic).length := by
    rw [newBatch, Db.batchFrom, List.length_insertionSort, List.length_map]
    rfl
  have hpos := List.length_pos_iff.2 hnew
  refine ⟨(h.newBatch topic).head (List.length_pos_iff.1 (hlen ▸ hpos)),
    (h.newRows topic).getLast hnew, List.head?_eq_some_head _, List.getLast?_eq_some_getLast _⟩

/-- Every turn that goes on passes a row, and the last one finds none. -/
theorem materializeBatch_progress (topic : Topic) (N : Nat) (h : ViewHub v) :
    (materializeBatch topic N h).1.inst.faulted = true ∨
      (materializeBatch topic N h).1.db = h.db ∧
        (((materializeBatch topic N h).2 = true ∧
            ((materializeBatch topic N h).1.remaining topic).length <
              (h.remaining topic).length) ∨
          ((materializeBatch topic N h).2 = false ∧
            (materializeBatch topic N h).1.newRows topic = [])) := by
  unfold materializeBatch
  dsimp only
  split
  · next first last hfirst hlast =>
    split
    · rcases recomputeFrom_frame (N := N)
        { h with inst.lastRowid := last.rowid } (orderOf first) with hf | ⟨hdb, hrow⟩
      · exact .inl hf
      · exact .inr ⟨hdb, .inl ⟨rfl, remaining_lt hlast hdb hrow⟩⟩
    · cases hb : forwardBatch N h (h.newBatch topic) last.rowid with
      | error h' => exact .inl rfl
      | ok h' =>
        obtain ⟨h₁, hf, rfl⟩ := forwardBatch_folds hb
        exact .inr ⟨hf.db, .inl ⟨rfl, remaining_lt hlast hf.db rfl⟩⟩
  · next hnone =>
    refine .inr ⟨rfl, .inr ⟨rfl, ?_⟩⟩
    by_contra hnew
    obtain ⟨first, last, hfirst, hlast⟩ := newBatch_head hnew
    exact hnone first last hfirst hlast

/-- A pass ends with everything materialized, or with a fault. -/
theorem materializeLoop_done {fuel : Nat} {h : ViewHub v}
    (hfuel : (h.remaining topic).length < fuel) :
    (materializeLoop topic N fuel h).inst.faulted = true ∨
      (materializeLoop topic N fuel h).newRows topic = [] := by
  induction fuel generalizing h with
  | zero => omega
  | succ fuel ih =>
    have hprog := materializeBatch_progress topic N h
    unfold materializeLoop
    split
    · next h' heq =>
      rw [heq] at hprog
      rcases hprog with hf | ⟨-, ⟨-, hlt⟩ | ⟨hgo, -⟩⟩
      · left
        exact materializeLoop_induct (I := fun h => h.inst.faulted = true)
          (fun _ hI => materializeBatch_faulted hI) hf fuel
      · apply ih
        dsimp only at hlt
        omega
      · cases hgo
    · next h' heq =>
      rw [heq] at hprog
      rcases hprog with hf | ⟨-, ⟨hgo, -⟩ | ⟨-, hdone⟩⟩
      · exact .inl hf
      · cases hgo
      · exact .inr hdone

theorem materialize_done (h : ViewHub v) :
    (materialize topic N h).inst.faulted = true ∨
      (materialize topic N h).newRows topic = [] := by
  unfold materialize
  split
  · next hf => exact .inl hf
  · apply materializeLoop_done
    exact Nat.lt_succ_of_le (List.length_filter_le _ _)

end ViewHub

end Seqscribe
