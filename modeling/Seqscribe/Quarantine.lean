import Seqscribe.RegisterCuts

namespace Seqscribe
set_option autoImplicit true

open Replay

/-! Views and register topics over a log from which rows are quarantined. -/

namespace ViewHub

variable {S R : Type} {v : ViewDef S R} [DecidableEq R] {topic : Topic} {N : Nat}

inductive HeldEvent where
  | cut (ev : CutEvent)
  /-- Rows leave the log for the quarantine. -/
  | quarantine (p : LogRow → Bool)

def heldStep (topic : Topic) (N : Nat) (h : ViewHub v) : HeldEvent → ViewHub v
  | .cut ev => cutStep topic N h ev
  | .quarantine p => { h with db := h.db.deleteLogRows p }

/-- Nothing is archived, and only rows that neither the view nor a checkpoint has reached are
quarantined. -/
def HeldReady (topic : Topic) (h : ViewHub v) : HeldEvent → Prop
  | .cut (.archive _ _) => False
  | .cut ev => CutReady topic h ev
  | .quarantine p => ∀ r ∈ h.db.sqLog.rows, r.entry.topic = topic → p r = true →
      ¬ Upto h.inst.ord r.entry ∧ ∀ c ∈ h.checkpoints.rows, ¬ Upto (some c.1) r.entry

def HeldRunReady (topic : Topic) (N : Nat) : ViewHub v → List HeldEvent → Prop
  | _, [] => True
  | h, ev :: evs => HeldReady topic h ev ∧ HeldRunReady topic N (heldStep topic N h ev) evs

omit [DecidableEq R] in
/-- A fold does not count what lies past its position. -/
theorem Reached.deleteLogRows {db : Db} {p : LogRow → Bool}
    (hr : Reached v seen (db.Known topic) cursor s)
    (hpast : ∀ r ∈ db.sqLog.rows, r.entry.topic = topic → p r = true → ¬ Upto cursor r.entry)
    (hseen : ∀ e, seen' e → seen e) :
    Reached v seen' ((db.deleteLogRows p).Known topic) cursor s := by
  obtain ⟨X, hX, hs⟩ := hr
  refine ⟨X, ⟨hX.sorted, fun e he => ?_, fun e he => hX.complete e (hseen e he)⟩, hs⟩
  obtain ⟨hknown, hu⟩ := hX.sound e he
  have ht : e.topic = topic := by
    rcases hknown with ⟨ht, -⟩ | ⟨ht, -⟩ <;> exact ht
  refine ⟨Db.known_deleteLogRows_of hknown fun r hr hre => ?_, hu⟩
  by_contra hp
  exact hpast r hr (by rw [hre]; exact ht) (by simpa using hp) (by rw [hre]; exact hu)

omit [DecidableEq R] in
theorem Preserved.quarantine {h : ViewHub v} (hp : Preserved topic h) {p : LogRow → Bool}
    (hready : HeldReady topic h (.quarantine p)) :
    Preserved topic { h with db := h.db.deleteLogRows p } := by
  refine ⟨hp.numbered.deleteLogRows p, hp.disjoint.deleteLogRows p, hp.watermark, ?_, ?_⟩
  · exact Reached.deleteLogRows hp.sound.state (fun r hr ht hpr => (hready r hr ht hpr).1)
      fun e => Db.knownTo_deleteLogRows
  · intro c hc
    exact Reached.deleteLogRows (hp.sound.points c hc)
      (fun r hr ht hpr => (hready r hr ht hpr).2 c hc)
      fun e he => ⟨Db.knownTo_deleteLogRows he.1, he.2⟩

/-- What every state of a ready run satisfies. -/
structure HeldSafe (topic : Topic) (h : ViewHub v) : Prop where
  preserved : h.inst.faulted = true ∨ Preserved topic h ∧ h.db.sqArchive.rows = []
  lawful : v.Lawful → h.inst.faulted = false ∧ InSync h

theorem HeldSafe.turn {h : ViewHub v} (hs : HeldSafe topic h) (hready : TurnReady topic h) :
    HeldSafe topic (cutStep topic N h .turn) := by
  rw [cutStep]
  split
  · exact hs
  · next hnf =>
    obtain ⟨hp, hno⟩ := hs.preserved.resolve_left hnf
    constructor
    · rcases materializeBatch_sound (N := N) hp.numbered hp.sound hready with
        hf | ⟨hdb, -, -⟩
      · exact .inl hf
      · exact (hp.turn hready).imp id fun hp' => ⟨hp', hdb ▸ hno⟩
    · intro hlaw
      obtain ⟨hf, hsync⟩ := hs.lawful hlaw
      exact materializeBatch_lawful hlaw hf (.of_tracks hp.sound) hsync

theorem HeldSafe.step {h : ViewHub v} (hs : HeldSafe topic h) {ev : HeldEvent}
    (hready : HeldReady topic h ev) : HeldSafe topic (heldStep topic N h ev) := by
  cases ev with
  | quarantine p =>
    refine ⟨hs.preserved.imp id fun hp => ⟨hp.1.quarantine hready, hp.2⟩, fun hlaw => ?_⟩
    obtain ⟨hnf, hsync⟩ := hs.lawful hlaw
    exact ⟨hnf, hsync.matched, hsync.cached⟩
  | cut ev =>
    cases ev with
    | archive p atMs => exact hready.elim
    | turn => exact hs.turn hready
    | commit es =>
      have hc := h.db.commit_commits (es.filter fun e => (h.db.sqArchive.get e.id).isNone)
      have harch : (h.db.commitNew es).sqArchive = h.db.sqArchive := hc.archive
      refine ⟨hs.preserved.imp id fun hp =>
        ⟨hp.1.commit es, (congrArg Table.rows harch).trans hp.2⟩, fun hlaw => ?_⟩
      obtain ⟨hnf, hsync⟩ := hs.lawful hlaw
      exact ⟨hnf, hsync.matched, hsync.cached⟩
    | rebaseAtCut ord =>
      have hsame : (heldStep topic N h (.cut (.rebaseAtCut ord))).db = h.db ∧
          (heldStep topic N h (.cut (.rebaseAtCut ord))).inst = h.inst ∧
          (heldStep topic N h (.cut (.rebaseAtCut ord))).table = h.table := by
        rw [heldStep, cutStep, ViewHub.rebaseAtCut]
        split <;> exact ⟨rfl, rfl, rfl⟩
      obtain ⟨hdb, hinst, htable⟩ := hsame
      constructor
      · rcases hs.preserved with hf | ⟨hp, hno⟩
        · exact .inl (hinst ▸ hf)
        · exact .inr ⟨hp.rebaseAtCut hready, hdb ▸ hno⟩
      · intro hlaw
        obtain ⟨hnf, hsync⟩ := hs.lawful hlaw
        refine ⟨hinst ▸ hnf, ?_, fun hd => ?_⟩
        · rw [htable, hinst]
          exact hsync.matched
        · rw [htable, hinst]
          exact hsync.cached hd

theorem HeldSafe.run {h : ViewHub v} (hs : HeldSafe topic h) {evs : List HeldEvent}
    (hready : HeldRunReady topic N h evs) :
    HeldSafe topic (evs.foldl (heldStep topic N) h) := by
  induction evs generalizing h with
  | nil => exact hs
  | cons ev evs ih => exact ih (hs.step hready.1) hready.2

theorem HeldSafe.opened : HeldSafe topic (opened topic N v .empty) := by
  have hpres : (ViewHub.opened topic N v .empty).inst.faulted = true ∨
      Preserved topic (ViewHub.opened topic N v .empty) := Preserved.opened []
  refine ⟨?_, fun hlaw => register_lawful hlaw fun c hc => by cases hc⟩
  rcases register_tracks topic N (Db.empty.Known topic) (Db.empty.Known topic) (v := v)
    (h := ⟨Db.empty, Table.empty, Table.empty, .fresh v⟩) (fun c hc => by cases hc)
    (fun e he => .inr he) (fun e he => he.resolve_left (by rintro ⟨-, a, ha, -⟩; cases ha)) with
    hf | ⟨hdb, -⟩
  · exact .inl hf
  · refine hpres.imp id fun hp => ⟨hp, ?_⟩
    rw [ViewHub.opened, hdb]
    rfl

omit [DecidableEq R] in
/-- With no new rows the state is the fold of what the log holds. -/
theorem HeldSafe.state {h : ViewHub v} (hs : HeldSafe topic h) (hnf : h.inst.faulted = false)
    (hnew : h.newRows topic = []) : h.inst.state = v.fold (h.db.topicEntries topic) := by
  obtain ⟨hp, hnone⟩ := hs.preserved.resolve_left (by rw [hnf]; exact Bool.false_ne_true)
  have hno : ∀ e, ¬ h.db.Archived topic e := by
    rintro e ⟨-, a, ha, -⟩
    rw [hnone] at ha
    cases ha
  have hreached : Reached v (h.db.Known topic) (h.db.Known topic) h.inst.ord h.inst.state := by
    apply hp.sound.state.mono _ fun _ h => h
    rintro e (ha | hh)
    · exact .inl ha
    · exact .inr (holdsTo_of_newRows hnew hh)
  exact reached_known hno hreached

end ViewHub

namespace RegisterHub

/-- Arrivals, passes, certificates and quarantines, each when it is safe. -/
def HeldReady (d : RegisterDeps) (topic : Topic) (h : RegisterHub) : Event → Prop
  | .archive _ _ => False
  | ev => Ready d topic h ev

variable {d : RegisterDeps} {topic : Topic}

/-- Between passes only what is folded matters. -/
theorem ready_quarantine {h : RegisterHub} (hidle : h.pass.isIdle = true)
    (hpast : ∀ r ∈ h.db.sqLog.rows, r.entry.topic = topic → p r = true →
      ¬ Upto h.ord r.entry ∧ ¬ Upto (h.base.map RegisterBase.ord) r.entry) :
    HeldReady d topic h (.quarantine p) := by
  intro r hr ht hp
  refine ⟨(hpast r hr ht hp).1, (hpast r hr ht hp).2, ?_⟩
  rintro todo (hpass | ⟨last, hpass⟩) <;> rw [hpass] at hidle <;> cases hidle

theorem HeldReady.step {h : RegisterHub} (hs : Safe d topic h) (hno : h.db.sqArchive.rows = [])
    {ev : Event} (hready : HeldReady d topic h ev) :
    Safe d topic (step d topic h ev) ∧ (step d topic h ev).db.sqArchive.rows = [] := by
  cases ev with
  | archive p atMs => exact hready.elim
  | quarantine p => exact ⟨hs.step hready, hno⟩
  | rebaseAtCut ord => exact ⟨hs.step hready, hno⟩
  | start =>
    refine ⟨hs.start, ?_⟩
    rw [RegisterHub.step, start_db]
    exact hno
  | commit es =>
    have hc := h.db.commit_commits (es.filter fun e => (h.db.sqArchive.get e.id).isNone)
    have harch : (h.db.commitNew es).sqArchive = h.db.sqArchive := hc.archive
    exact ⟨hs.step hready, (congrArg Table.rows harch).trans hno⟩
  | resume =>
    obtain ⟨h', hr, hdb, -, -⟩ := resume_core hs.ground hs.core hready
    refine ⟨hs.step hready, ?_⟩
    rw [RegisterHub.step, hr]
    exact hdb ▸ hno

theorem HeldReady.run {h : RegisterHub} (hs : Safe d topic h) (hno : h.db.sqArchive.rows = [])
    {evs : List Event} (hready : RunMeets d topic (HeldReady d topic) h evs) :
    Safe d topic (run d topic h evs) ∧ (run d topic h evs).db.sqArchive.rows = [] := by
  induction evs generalizing h with
  | nil => exact ⟨hs, hno⟩
  | cons ev evs ih =>
    obtain ⟨hs', hno'⟩ := HeldReady.step hs hno hready.1
    exact ih hs' hno' hready.2

end RegisterHub

/-- In every run of a view, and in every run of a register topic, whose steps are all ready: in
every state reached in which nothing is due, the state of a view that is not faulted and the key
states are the fold over what the log still holds. So is the table of a lawful view. -/
theorem quarantine_reaches_derived {S R : Type} [DecidableEq R] (v : ViewDef S R) (topic : Topic)
    (N : Nat) (viewEvs : List ViewHub.HeldEvent)
    (hview : ViewHub.HeldRunReady topic N (ViewHub.opened topic N v .empty) viewEvs)
    (d : RegisterDeps) (evs : List RegisterHub.Event)
    (hregister : RegisterHub.RunMeets d topic (RegisterHub.HeldReady d topic) .empty evs) :
    let h := viewEvs.foldl (ViewHub.heldStep topic N) (ViewHub.opened topic N v .empty)
    let g := RegisterHub.run d topic .empty evs
    (h.newRows topic = [] → h.inst.faulted = false →
        h.inst.state = v.fold (h.db.topicEntries topic)) ∧
      (v.Lawful → h.newRows topic = [] → h.inst.faulted = false ∧
        Matches v h.table (v.fold (h.db.topicEntries topic))) ∧
      (g.Quiescent topic → ∀ key,
        g.keys.state key =
          (foldAll d (g.db.lookup topic) (g.db.topicEntries topic)).state key) := by
  intro h g
  have hs : ViewHub.HeldSafe topic h := ViewHub.HeldSafe.opened.run hview
  refine ⟨fun hnew hnf => hs.state hnf hnew, fun hlaw hnew => ?_, fun hq key => ?_⟩
  · obtain ⟨hnf, hsync⟩ := hs.lawful hlaw
    refine ⟨hnf, ?_⟩
    rw [← hs.state hnf hnew]
    exact hsync.matched
  · obtain ⟨hsafe, hno⟩ := RegisterHub.HeldReady.run RegisterHub.Safe.empty rfl hregister
    rw [hsafe.quiescent hq key, Db.lookupAll_of_unarchived hno, Db.unionEntries, hno]
    rfl

/-- A row leaves the log before the view has read it. -/
def quarantinedEarly : List ViewHub.HeldEvent :=
  [.cut (.commit [noted "a" 1 1]), .cut .turn, .cut (.commit [noted "b" 1 2]),
    .quarantine fun r => decide (r.entry.writer = "b"), .cut .turn]

/-- The same, for a register topic. -/
def quarantinedEarlyRegister : List RegisterHub.Event :=
  [.commit [setEntry "k" "a" 1 1 none], .start, .resume, .commit [setEntry "k" "b" 1 2 none],
    .quarantine fun r => decide (r.entry.writer = "b"), .start]

theorem derived_state_without_early_quarantine :
    (quarantinedEarly.foldl (ViewHub.heldStep "t" 1)
        (ViewHub.opened "t" 1 stamps .empty)).inst.state = [1] ∧
      ((RegisterHub.run plainDeps "t" .empty quarantinedEarlyRegister).keys.state
        (js "k")).frontier = [("t", "a", 1)] := by
  have hview : ViewHub.HeldRunReady "t" 1 (ViewHub.opened "t" 1 stamps .empty)
      quarantinedEarly := by
    refine ⟨trivial, .of_above (by decide +kernel), trivial, ?_, .of_above (by decide +kernel),
      trivial⟩
    unfold ViewHub.HeldReady Upto
    decide +kernel
  have hregister : RegisterHub.RunMeets plainDeps "t" (RegisterHub.HeldReady plainDeps "t") .empty
      quarantinedEarlyRegister := by
    refine ⟨RegisterHub.ready_commit rfl rfl (by simp [payloadOk_setEntry])
      (Db.backward_of_no_causal (by decide +kernel) (by decide +kernel)), trivial,
      RegisterHub.walksHot_of_unarchived rfl,
      RegisterHub.ready_commit (by decide +kernel) (by decide +kernel)
      (by simp [payloadOk_setEntry])
      (Db.backward_of_no_causal (by decide +kernel) (by decide +kernel)), ?_, trivial, trivial⟩
    refine RegisterHub.ready_quarantine (by decide +kernel) ?_
    unfold Upto
    decide +kernel
  have hboth := quarantine_reaches_derived stamps "t" 1 quarantinedEarly hview plainDeps
    quarantinedEarlyRegister hregister
  refine ⟨(hboth.1 (by decide +kernel) (by decide +kernel)).trans (by decide +kernel), ?_⟩
  rw [hboth.2.2 (by decide +kernel) (js "k")]
  decide +kernel

/-- A row that the view and the register topic have folded leaves the log. -/
def quarantinedLate : List ViewHub.HeldEvent :=
  [.cut (.commit [noted "a" 1 1]), .cut .turn, .quarantine (fun _ => true), .cut .turn]

def quarantinedLateRegister : List RegisterHub.Event :=
  [.commit [setEntry "k" "a" 1 1 none], .start, .resume, .quarantine (fun _ => true), .start]

theorem quarantined_row_still_derived :
    let h := quarantinedLate.foldl (ViewHub.heldStep "t" 1) (ViewHub.opened "t" 1 stamps .empty)
    let g := RegisterHub.run plainDeps "t" .empty quarantinedLateRegister
    (h.newRows "t" = [] ∧ h.inst.faulted = false ∧
        h.inst.state = [1] ∧ stamps.fold (h.db.topicEntries "t") = []) ∧
      g.Quiescent "t" ∧ (g.keys.state (js "k")).winner ≠
        ((foldAll plainDeps (g.db.lookup "t") (g.db.topicEntries "t")).state (js "k")).winner := by
  decide +kernel

end Seqscribe
