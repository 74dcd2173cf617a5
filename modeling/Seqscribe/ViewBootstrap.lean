import Seqscribe.ViewArchive

namespace Seqscribe
set_option autoImplicit true

open Replay

/-! Views that start from the state of a snapshot. -/

namespace ViewHub

variable {S R : Type} {v : ViewDef S R} {topic : Topic} {N : Nat} {cut : Order}

/-- An absent state stands for the one that the view starts with. -/
def installState (topic : Topic) (h : ViewHub v) (state : Option S) (ord : Order) : ViewM v :=
  let h := { h with
    inst.state := state.getD v.init
    inst.ord := some ord
    inst.sinceCheckpoint := 0
    inst.faulted := false }
  let h := checkpointPut h ord h.inst.state
  rewriteTable { h with inst.lastRowid := h.db.maxRowid topic }

/-- Nothing of the view lies before the cut. -/
structure AboveCut (cut : Order) (h : ViewHub v) : Prop where
  position : ∃ o ∈ h.inst.ord, cut ≤ o
  checkpoints : ∀ c ∈ h.checkpoints.rows, cut ≤ c.1

theorem AboveCut.folds {h h' : ViewHub v} (ha : AboveCut cut h) (hf : Folds h es h')
    (hgt : ∀ e ∈ es, ¬ Upto h.inst.ord e) : AboveCut cut h' := by
  obtain ⟨o, ho, hcut⟩ := ha.position
  have hlater : ∀ e ∈ es, cut ≤ orderOf e :=
    fun e he => hcut.trans (le_of_lt (not_upto.1 (hgt e he) o ho))
  constructor
  · rw [hf.ord]
    cases hlast : lastKey orderOf es with
    | none => exact ⟨o, ho, hcut⟩
    | some o' =>
      obtain ⟨e, he, rfl⟩ := Option.map_eq_some_iff.1 hlast
      exact ⟨orderOf e, rfl, hlater e (List.mem_of_getLast? he)⟩
  · intro c hc
    rcases hf.checkpoints c hc with hc | ⟨P, e, Q, rfl, rfl⟩
    · exact ha.checkpoints c hc
    · exact hlater e (List.mem_append_right P List.mem_cons_self)

variable [DecidableEq R]

/-- What comes to a view that started from a snapshot. -/
inductive BootEvent where
  | commit (es : List LogEntry)
  | turn

def bootStep (topic : Topic) (N : Nat) (h : ViewHub v) : BootEvent → ViewHub v
  | .commit es => { h with db := h.db.commit es }
  | .turn => if h.inst.faulted then h else (materializeBatch topic N h).1

omit [DecidableEq R] in
/-- What is committed sorts above the cut, and a late batch finds a checkpoint. -/
def BootReady (topic : Topic) (cut : Order) (h : ViewHub v) : BootEvent → Prop
  | .commit es => ∀ e ∈ es, e.topic = topic → cut < orderOf e
  | .turn => ∀ first, (h.newBatch topic).head? = some first → Upto h.inst.ord first →
      (h.restorePoint (orderOf first)).isSome = true

def BootRunReady (topic : Topic) (N : Nat) (cut : Order) : ViewHub v → List BootEvent → Prop
  | _, [] => True
  | h, ev :: evs => BootReady topic cut h ev ∧ BootRunReady topic N cut (bootStep topic N h ev) evs

/-- The view has folded the entries `covered` and what its watermark has passed. -/
structure Bootstrapped (topic : Topic) (cut : Order) (covered : List LogEntry) (h : ViewHub v) :
    Prop where
  numbered : h.db.Numbered
  watermark : h.inst.lastRowid ≤ h.db.logSequence
  tracks : Tracks (fun e => e ∈ covered ∨ h.db.HoldsTo topic h.inst.lastRowid e)
    (fun e => e ∈ covered ∨ h.db.Holds topic e) h
  low : Low (fun _ => False) h
  above : AboveCut cut h
  later : ∀ e, h.db.Holds topic e → cut < orderOf e

section
variable {covered : List LogEntry}

omit [DecidableEq R] in
theorem Bootstrapped.commit {h : ViewHub v} (hb : Bootstrapped topic cut covered h)
    (hes : ∀ e ∈ es, e.topic = topic → cut < orderOf e) :
    Bootstrapped topic cut covered { h with db := h.db.commit es } := by
  have hc := h.db.commit_commits es
  have hold : ∀ e, (h.db.commit es).HoldsTo topic h.inst.lastRowid e →
      h.db.HoldsTo topic h.inst.lastRowid e := by
    intro e he
    obtain ⟨ht, r, hr, rfl, hle⟩ := he
    rcases hc.added r hr with hr | ⟨hlt, -⟩
    · exact ⟨ht, r, hr, rfl, hle⟩
    · exact absurd (hle.trans hb.watermark) (Nat.not_le.2 hlt)
  refine ⟨hc.numbered hb.numbered, hb.watermark.trans hc.sequence, ?_, hb.low,
    ⟨hb.above.position, hb.above.checkpoints⟩, ?_⟩
  · constructor
    · exact hb.tracks.state.mono (fun e => Or.imp id (hold e)) fun e => Or.imp id hc.holds
    · intro c hmem
      exact (hb.tracks.points c hmem).mono (fun e he _ => he.imp id (hold e))
        fun e => Or.imp id hc.holds
  · intro e he
    obtain ⟨ht, r, hr, rfl⟩ := he
    rcases hc.added r hr with hr | ⟨-, hnew⟩
    · exact hb.later _ ⟨ht, r, hr, rfl⟩
    · exact hes _ hnew ht

/-- A late batch goes back to a checkpoint, which is not before the cut. -/
theorem recomputeFrom_above {h : ViewHub v} (ha : ∀ c ∈ h.checkpoints.rows, cut ≤ c.1)
    (lateOrd : Order) (hfound : (h.restorePoint lateOrd).isSome = true) :
    (recomputeFrom topic N h lateOrd).inst.faulted = true ∨
      AboveCut cut (recomputeFrom topic N h lateOrd) := by
  unfold recomputeFrom
  rw [restorePoint] at hfound
  cases hc : h.checkpoints.checkpointBefore lateOrd with
  | none =>
    rw [hc] at hfound
    cases hfound
  | some ckpt =>
    let h₁ : ViewHub v := { h with
      inst.state := ckpt.2
      inst.ord := some ckpt.1
      checkpoints := Table.empty.upsert ckpt
      inst.sinceCheckpoint := 0 }
    have hckpt := ha ckpt (Checkpoints.mem_checkpointBefore hc).1
    have habove : AboveCut cut h₁ := by
      refine ⟨⟨ckpt.1, rfl, hckpt⟩, ?_⟩
      intro c hmem
      rcases Table.eq_or_mem_of_mem_upsert hmem with rfl | hmem
      · exact hckpt
      · cases hmem
    have hrefold : (refoldFrom topic N h₁ h₁.inst.ord).inst.faulted = true ∨
        Folds h₁ _ (refoldFrom topic N h₁ h₁.inst.ord) := refoldFrom_folds h₁ h₁.inst.ord
    rcases hrefold with hf | hf
    · exact .inl hf
    · exact .inr (habove.folds hf fun e he => not_upto.2 (mem_after.1 he).2)

theorem materializeBatch_above {h : ViewHub v} (ha : AboveCut cut h)
    (hready : BootReady topic cut h .turn) :
    (materializeBatch topic N h).1.inst.faulted = true ∨
      AboveCut cut (materializeBatch topic N h).1 := by
  unfold materializeBatch
  dsimp only
  split
  next first last hfirst hlast =>
    split
    next hlate =>
      have hupto : Upto h.inst.ord first := by
        obtain ⟨o, ho, hle⟩ := (Option.any_eq_true _ _).1 hlate
        exact ⟨o, ho, orderCompare_le_zero.1 (by simpa using hle)⟩
      exact recomputeFrom_above (h := { h with inst.lastRowid := last.rowid }) ha.checkpoints _
        (hready first hfirst hupto)
    next hlate =>
      cases hb : forwardBatch N h (h.newBatch topic) last.rowid with
      | error h' => exact .inl rfl
      | ok h' =>
        obtain ⟨h₁, hf, rfl⟩ := forwardBatch_folds hb
        have habove := ha.folds hf fun e he => by
          rw [not_upto]
          intro o ho
          apply lt_of_lt_of_le _ (Db.head_le_batchFrom hfirst he)
          rw [← not_le]
          intro hle
          apply hlate
          rw [Option.any_eq_true]
          exact ⟨o, ho, by simpa using orderCompare_le_zero.2 hle⟩
        exact .inr ⟨habove.position, habove.checkpoints⟩
  next => exact .inr ha

theorem Bootstrapped.turn {h : ViewHub v} (hb : Bootstrapped topic cut covered h)
    (hcovered : ∀ e ∈ covered, orderOf e ≤ cut) (hready : BootReady topic cut h .turn) :
    (materializeBatch topic N h).1.inst.faulted = true ∨
      Bootstrapped topic cut covered (materializeBatch topic N h).1 := by
  have hlows : (materializeBatch topic N h).1.inst.faulted = true ∨
      Low (fun _ => False) (materializeBatch topic N h).1 := materializeBatch_low hb.low
  rcases hlows with hf | hlow
  · exact .inl hf
  rcases materializeBatch_above (N := N) hb.above hready with hf | habove
  · exact .inl hf
  have hforward : ∀ first, (h.newBatch topic).head? = some first → ¬ Upto h.inst.ord first →
      ∀ c ∈ h.checkpoints.rows, orderOf first ≤ c.1 →
        Point v (fun e => e ∈ covered ∨ h.db.Holds topic e)
          (fun e => e ∈ covered ∨ h.db.Holds topic e) c := by
    intro first _ hnot c hc hle
    obtain hno | ⟨o, ho, hco⟩ := hb.low c hc
    · exact absurd hno id
    · exact absurd ⟨o, ho, hle.trans hco⟩ hnot
  have hlate : ∀ first, (h.newBatch topic).head? = some first → Upto h.inst.ord first →
      ∀ e, e ∈ covered → Upto (h.restorePoint (orderOf first)) e := by
    intro first hfirst hupto e he
    obtain ⟨o, ho⟩ := Option.isSome_iff_exists.1 (hready first hfirst hupto)
    obtain ⟨c, hc, rfl⟩ := Option.map_eq_some_iff.1 ho
    refine ⟨c.1, ho, (hcovered e he).trans ?_⟩
    exact hb.above.checkpoints c (Checkpoints.mem_checkpointBefore hc).1
  rcases materializeBatch_tracks (N := N) hb.numbered hb.tracks hforward hlate with
    hf | ⟨hdb, hwater, htracks⟩
  · exact .inl hf
  refine .inr ⟨hdb ▸ hb.numbered, ?_, ?_, hlow, habove, hdb ▸ hb.later⟩
  · rw [hdb]
    exact hwater.trans (max_le hb.watermark (le_refl _))
  · rw [hdb]
    exact htracks

/-- What every state reached from a snapshot satisfies. -/
structure BootSound (topic : Topic) (cut : Order) (covered : List LogEntry) (h : ViewHub v) :
    Prop where
  healthy : h.inst.faulted = false
  inSync : InSync h
  bootstrapped : Bootstrapped topic cut covered h

theorem BootSound.step (hlaw : v.Lawful) {h : ViewHub v} (hs : BootSound topic cut covered h)
    (hcovered : ∀ e ∈ covered, orderOf e ≤ cut) {ev : BootEvent}
    (hready : BootReady topic cut h ev) : BootSound topic cut covered (bootStep topic N h ev) := by
  cases ev with
  | commit es =>
    exact ⟨hs.healthy, ⟨hs.inSync.matched, hs.inSync.cached⟩, hs.bootstrapped.commit hready⟩
  | turn =>
    have hlawful : (materializeBatch topic N h).1.inst.faulted = false ∧
        InSync (materializeBatch topic N h).1 :=
      materializeBatch_lawful hlaw hs.healthy (.of_tracks hs.bootstrapped.tracks) hs.inSync
    obtain ⟨hnf, hsync⟩ := hlawful
    have hturn := (hs.bootstrapped.turn (N := N) hcovered hready).resolve_left
      (by rw [hnf]; exact Bool.false_ne_true)
    rw [bootStep, hs.healthy]
    exact ⟨hnf, hsync, hturn⟩

theorem BootSound.run (hlaw : v.Lawful) {h : ViewHub v} (hs : BootSound topic cut covered h)
    (hcovered : ∀ e ∈ covered, orderOf e ≤ cut) {evs : List BootEvent}
    (hready : BootRunReady topic N cut h evs) :
    BootSound topic cut covered (evs.foldl (bootStep topic N) h) := by
  induction evs generalizing h with
  | nil => exact hs
  | cons ev evs ih => exact ih (hs.step hlaw hcovered hready.1) hready.2

omit [DecidableEq R] in
/-- With no new rows the state is the fold over the covered entries and those held. -/
theorem Bootstrapped.state {h : ViewHub v} (hb : Bootstrapped topic cut covered h)
    (hsorted : covered.Pairwise fun a b => orderOf a < orderOf b)
    (hcovered : ∀ e ∈ covered, orderOf e ≤ cut) (hnew : h.newRows topic = []) :
    h.inst.state = v.fold (covered ++ h.db.topicEntries topic) := by
  obtain ⟨X, hX, hs⟩ := hb.tracks.state
  rw [hs]
  congr 1
  have hall : Covers orderOf (fun e => e ∈ covered ∨ h.db.Holds topic e)
      (fun e => e ∈ covered ∨ h.db.Holds topic e) X := by
    apply hX.mono _ fun e he => he.1
    intro e he
    exact he.imp id (holdsTo_of_newRows hnew)
  apply hall.eq
  have hbase : Covers orderOf (fun e => e ∈ covered) (fun e => e ∈ covered) covered :=
    ⟨hsorted, fun _ he => he, fun _ he => he⟩
  apply hbase.append (Db.sorted_topicEntries h.db topic)
  · intro x hx y hy
    exact lt_of_le_of_lt (hcovered x hx) (hb.later y (Db.mem_topicEntries.1 hy))
  · exact fun x hx => .inl hx
  · exact fun y hy => .inr (Db.mem_topicEntries.1 hy)
  · exact fun e he => he.imp id Db.mem_topicEntries.2

/-- A view over a log without entries of the topic has no checkpoints. -/
theorem opened_empty (hlaw : v.Lawful) {db : Db}
    (hempty : ∀ e, ¬ db.Holds topic e) :
    (opened topic N v db).db = db ∧ (opened topic N v db).checkpoints.rows = [] := by
  let h₀ : ViewHub v := ⟨db, Table.empty, Table.empty, .fresh v⟩
  have hnone : after orderOf none (h₀.db.topicEntries topic) = [] := by
    apply List.eq_nil_iff_forall_not_mem.2
    intro e he
    exact hempty e (Db.mem_topicEntries.1 (mem_after.1 he).1)
  have hrefold : (refoldFrom topic N h₀ none).inst.faulted = true ∨
      Folds h₀ (after orderOf none (h₀.db.topicEntries topic)) (refoldFrom topic N h₀ none) :=
    refoldFrom_folds h₀ none
  have hhealthy : (refoldFrom topic N h₀ none).inst.faulted = false :=
    (refoldFrom_lawful hlaw (h := h₀) ⟨[], rfl⟩ rfl none).1
  have hf := hrefold.resolve_left (by
    rw [hhealthy]
    exact Bool.false_ne_true)
  rw [hnone] at hf
  refine ⟨hf.db, List.eq_nil_iff_forall_not_mem.2 fun c hc => ?_⟩
  rcases hf.checkpoints c hc with hc | ⟨P, e, Q, hsplit, -⟩
  · cases hc
  · exact absurd hsplit.symm (List.append_ne_nil_of_right_ne_nil _ (List.cons_ne_nil _ _))

omit [DecidableEq R] in
/-- The installation of a state over an empty log of the topic. -/
theorem installState_sound (hlaw : v.Lawful) {h : ViewHub v} (hdb : h.db.Numbered)
    (hempty : ∀ e, ¬ h.db.Holds topic e) (hnone : h.checkpoints.rows = [])
    (hsorted : covered.Pairwise fun a b => orderOf a < orderOf b)
    (hcovered : ∀ e ∈ covered, orderOf e ≤ cut) :
    ∃ h₀, installState topic h (some (v.fold covered)) cut = .ok h₀ ∧
      BootSound topic cut covered h₀ := by
  let h₁ : ViewHub v := { h with
    checkpoints := h.checkpoints.upsert (cut, v.fold covered)
    inst := { h.inst with
      state := v.fold covered
      ord := some cut
      sinceCheckpoint := 0
      faulted := false
      lastRowid := h.db.maxRowid topic } }
  obtain ⟨h₀, hok, hsync⟩ := rewriteTable_ok (h := h₁) hlaw ⟨covered, rfl⟩
  have hf := rewriteTable_folds hok
  have hstate : h₀.inst.state = v.fold covered := hf.state
  have hord : h₀.inst.ord = some cut := hf.ord
  have hpoints : ∀ c ∈ h₀.checkpoints.rows, c = (cut, v.fold covered) := by
    intro c hc
    rcases hf.checkpoints c hc with hc | ⟨P, e, Q, hsplit, -⟩
    · rcases Table.eq_or_mem_of_mem_upsert hc with rfl | hc
      · rfl
      · rw [hnone] at hc
        cases hc
    · exact absurd hsplit.symm (List.append_ne_nil_of_right_ne_nil _ (List.cons_ne_nil _ _))
  have hholds : ∀ e, ¬ h₀.db.Holds topic e := hf.db ▸ hempty
  have hreached : Reached v (fun e => e ∈ covered ∨ h₀.db.HoldsTo topic h₀.inst.lastRowid e)
      (fun e => e ∈ covered ∨ h₀.db.Holds topic e) (some cut) (v.fold covered) := by
    refine ⟨covered, ⟨hsorted, ?_, ?_⟩, rfl⟩
    · exact fun e he => ⟨.inl he, cut, rfl, hcovered e he⟩
    · exact fun e he => he.resolve_right fun hto => hholds e hto.holds
  refine ⟨h₀, hok, hf.faulted, hsync, ?_⟩
  constructor
  case numbered => exact hf.db ▸ hdb
  case watermark =>
    rw [hf.lastRowid, hf.db]
    exact Db.maxRowid_le hdb topic
  case tracks =>
    constructor
    · rw [hord, hstate]
      exact hreached
    · intro c hc
      rw [hpoints c hc]
      exact hreached.mono (fun e he => he.1) fun _ he => he
  case low =>
    intro c hc
    rw [hpoints c hc, hord]
    exact .inr ⟨cut, rfl, le_refl _⟩
  case above =>
    constructor
    · exact ⟨cut, hord, le_refl _⟩
    · intro c hc
      rw [hpoints c hc]
  case later => exact fun e he => absurd he (hholds e)

omit [DecidableEq R] in
/-- What a snapshot takes of a view that has materialized everything. -/
theorem Preserved.stateAt {h : ViewHub v} (hp : Preserved topic h) (hnew : h.newRows topic = [])
    (hready : CutReady topic h (.rebaseAtCut cut)) :
    ViewHub.stateAt topic h cut =
      v.fold ((h.db.unionEntries topic).filter fun e => decide (orderOf e ≤ cut)) := by
  have hpoint : Point v (h.db.KnownTo topic h.inst.lastRowid) (h.db.Known topic)
      (cut, ViewHub.stateAt topic h cut) :=
    stateAt_point (fun c hc _ => hp.sound.points c hc) (fun e he => .inr he) <| by
      rintro e (ha | hh) -
      · exact .inl (hready e ha)
      · exact .inr hh.holds
  obtain ⟨X, hX, hs⟩ := hpoint
  refine Eq.trans hs (congrArg v.fold ?_)
  have hknown := hp.disjoint.covers topic
  have hX' : Covers orderOf (fun e => h.db.Known topic e ∧ orderOf e ≤ cut)
      (fun e => h.db.Known topic e ∧ orderOf e ≤ cut) X := by
    apply hX.mono
    · intro e he
      exact ⟨he.1.imp id (holdsTo_of_newRows hnew), cut, rfl, he.2⟩
    · rintro e ⟨he, o, ⟨⟩, hle⟩
      exact ⟨he, hle⟩
  apply hX'.eq
  refine ⟨hknown.sorted.filter _, ?_, ?_⟩
  · intro e he
    obtain ⟨hmem, hle⟩ := List.mem_filter.1 he
    exact ⟨hknown.sound e hmem, by simpa using hle⟩
  · rintro e ⟨he, hle⟩
    exact List.mem_filter.2 ⟨hknown.complete e he, by simpa using hle⟩

end

end ViewHub

/-- A view that starts from the snapshot at the stamp 2 of a node that archived what it covers. -/
def bootedStamps : ViewHub stamps :=
  match ViewHub.installState "t" (ViewHub.opened "t" 10 stamps (Db.empty.commit []))
    (some (ViewHub.stateAt "t" (archiveRun.foldl (ViewHub.cutStep "t" 10)
      (ViewHub.opened "t" 10 stamps (Db.empty.commit []))) ⟨2, 0, "a", 2⟩)) ⟨2, 0, "a", 2⟩ with
  | .ok h => h
  | .error h => h

/-- Two later entries, of which the second is late. -/
def bootRun : List ViewHub.BootEvent :=
  [.commit [noted "c" 1 5], .turn, .commit [noted "d" 1 4], .turn, .turn]

end Seqscribe
