import Seqscribe.Host
import Seqscribe.RegisterEvents

namespace Seqscribe
set_option autoImplicit true

open Replay

/-! Nodes that hold the same register entries have the same key states. -/

namespace RegisterHub

/-- Arrivals and passes alone: the payloads have the right types, causal pointers go backward, and
nothing new sorts at or below the batch of a running refold. -/
def Arrives (d : RegisterDeps) (topic : Topic) (h : RegisterHub) : Event → Prop
  | .commit es => (∀ e ∈ es, e.topic = topic → PayloadOk d e) ∧
      (h.db.commitNew es).Backward topic ∧
      ∀ e ∈ es, e.topic = topic → h.db.Holds topic e ∨
        ∀ todo, h.pass = .refold todo → ∀ x ∈ todo, orderOf x < orderOf e
  | .start | .resume => True
  | .rebaseAtCut _ | .archive _ _ | .quarantine _ => False

variable {d : RegisterDeps} {topic : Topic}

/-- Between passes any commit is fine. -/
theorem arrives_commit {h : RegisterHub} (hidle : h.pass.isIdle = true)
    (hpayloads : ∀ e ∈ es, e.topic = topic → PayloadOk d e)
    (hback : (h.db.commitNew es).Backward topic) : Arrives d topic h (.commit es) := by
  refine ⟨hpayloads, hback, fun e _ _ => .inr fun todo hpass => ?_⟩
  rw [hpass] at hidle
  cases hidle

/-- Nothing is archived and no certificate has set a base. -/
structure Plain (h : RegisterHub) : Prop where
  unarchived : h.db.sqArchive.rows = []
  unbased : h.base = none

theorem walksHot_of_unarchived {h : RegisterHub} (hno : h.db.sqArchive.rows = []) :
    WalksHot topic h := by
  intro e _ a
  rw [Db.lookupAll_of_unarchived hno]

theorem Plain.step {h : RegisterHub} (hp : Plain h) (hs : Safe d topic h) {ev : Event}
    (hev : Arrives d topic h ev) :
    Plain (step d topic h ev) ∧ Safe d topic (step d topic h ev) := by
  cases ev with
  | commit es =>
    obtain ⟨hpayloads, hback, hfresh⟩ := hev
    have hc := h.db.commit_commits (es.filter fun e => (h.db.sqArchive.get e.id).isNone)
    refine ⟨⟨?_, hp.unbased⟩, hs.step ⟨hpayloads, hback, fun e he ht => ?_⟩⟩
    · have harch : (h.db.commitNew es).sqArchive = h.db.sqArchive := hc.archive
      exact (congrArg Table.rows harch).trans hp.unarchived
    · rcases hfresh e he ht with hold | habove
      · exact .inl (.inr hold)
      · refine .inr ⟨fun base hb => ?_, habove⟩
        rw [hp.unbased] at hb
        cases hb
  | start =>
    have hs' := hs.start
    refine ⟨⟨?_, ?_⟩, hs'⟩
    · rw [RegisterHub.step, start_db]
      exact hp.unarchived
    · rw [RegisterHub.step, start_base]
      exact hp.unbased
  | resume =>
    have hhot : WalksHot topic h := walksHot_of_unarchived hp.unarchived
    obtain ⟨h', hr, hdb, hbase, -⟩ := resume_core hs.ground hs.core hhot
    refine ⟨?_, hs.resume hhot⟩
    have hstep : RegisterHub.step d topic h .resume = h' := by
      rw [RegisterHub.step, hr]
    rw [hstep]
    exact ⟨hdb ▸ hp.unarchived, hbase.trans hp.unbased⟩
  | rebaseAtCut ord => exact hev.elim
  | archive p atMs => exact hev.elim
  | quarantine p => exact hev.elim

theorem Plain.run {h : RegisterHub} (hp : Plain h) (hs : Safe d topic h) {evs : List Event}
    (hevs : RunMeets d topic (Arrives d topic) h evs) :
    Plain (run d topic h evs) ∧ Safe d topic (run d topic h evs) := by
  induction evs generalizing h with
  | nil => exact ⟨hp, hs⟩
  | cons ev evs ih =>
    obtain ⟨hp', hs'⟩ := hp.step hs hevs.1
    exact ih hp' hs' hevs.2

/-- At quiescence the key states are the fold of what the log holds. -/
theorem Plain.quiescent {h : RegisterHub} (hp : Plain h) (hs : Safe d topic h)
    (hq : h.Quiescent topic) (key : Key) :
    h.keys.state key = (foldAll d (h.db.lookup topic) (h.db.topicEntries topic)).state key := by
  rw [hs.quiescent hq key, Db.lookupAll_of_unarchived hp.unarchived, Db.unionEntries,
    hp.unarchived]
  rfl

end RegisterHub

/-- In every two runs of arrivals and passes whose steps meet the condition, key states of
quiescent nodes that hold the same entries are the same, and are the fold of these entries. -/
theorem registers_converge (d : RegisterDeps) (topic : Topic) (evs evs' : List RegisterHub.Event)
    (hevs : RegisterHub.RunMeets d topic (RegisterHub.Arrives d topic) .empty evs)
    (hevs' : RegisterHub.RunMeets d topic (RegisterHub.Arrives d topic) .empty evs') :
    let h := RegisterHub.run d topic .empty evs
    let h' := RegisterHub.run d topic .empty evs'
    h.Quiescent topic → h'.Quiescent topic →
      (∀ e, h.db.Holds topic e ↔ h'.db.Holds topic e) → ∀ key,
        h.keys.state key = h'.keys.state key ∧
          h.keys.state key =
            (foldAll d (h.db.lookup topic) (h.db.topicEntries topic)).state key := by
  intro h h' hq hq' hsame key
  have hempty : RegisterHub.Plain .empty := ⟨rfl, rfl⟩
  obtain ⟨hp, hs⟩ := hempty.run RegisterHub.Safe.empty hevs
  obtain ⟨hp', hs'⟩ := hempty.run RegisterHub.Safe.empty hevs'
  refine ⟨?_, hp.quiescent hs hq key⟩
  have hknown : ∀ e, h.db.Known topic e ↔ h'.db.Known topic e := by
    intro e
    have hno : ∀ {h : RegisterHub}, RegisterHub.Plain h → ¬ h.db.Archived topic e := by
      rintro h hp ⟨-, a, ha, -⟩
      rw [hp.unarchived] at ha
      cases ha
    constructor
    · exact fun he => .inr ((hsame e).1 (he.resolve_left (hno hp)))
    · exact fun he => .inr ((hsame e).2 (he.resolve_left (hno hp')))
  have hunion : h.db.unionEntries topic = h'.db.unionEntries topic := by
    refine Covers.eq (hs.ground.disjoint.covers topic) ?_
    exact (hs'.ground.disjoint.covers topic).mono (fun e => (hknown e).1) fun e => (hknown e).2
  rw [hs.quiescent hq key, hs'.quiescent hq' key, hunion]
  congr 1
  apply foldAll_congr
  intro e he a
  have hag : h.db.AgreeTo h'.db topic (orderOf e) := fun x _ => hknown x
  rw [← hunion] at he
  exact hag.isAncestor hs.ground.disjoint hs'.ground.disjoint hs.ground.backward
    hs'.ground.backward (Db.mem_unionEntries.1 he) (le_refl _) a

/-- A `set` of a key of the topic `t`. -/
def setEntry (key : String) (writer : WriterId) (seq l : Nat) (causal : Option (WriterId × Nat)) :
    LogEntry where
  topic := "t"
  writer := writer
  seq := seq
  hlc := ⟨l, 0⟩
  kind := js "set"
  key := some (js key)
  causal := causal
  ref := none
  payload := .obj [(js "value", .str (js "x"))]
  chain := ""

theorem payloadOk_setEntry (d : RegisterDeps) : PayloadOk d (setEntry key writer seq l causal) := by
  have hkind : opKind (js "set") = .set := by decide +kernel
  unfold PayloadOk setEntry
  rw [hkind]
  trivial

theorem Db.backward_of_no_causal {db : Db}
    (hlog : ∀ r ∈ db.sqLog.rows, r.entry.causal.isNone = true)
    (harch : ∀ a ∈ db.sqArchive.rows, a.entry.causal.isNone = true) : db.Backward topic := by
  intro e e' he _ hcausal
  have hno : e.causal.isNone = true := by
    rcases he with ⟨-, a, ha, rfl⟩ | ⟨-, r, hr, rfl⟩
    · exact harch a ha
    · exact hlog r hr
  rw [hcausal] at hno
  cases hno

/-- Last writer wins, for every key. -/
def plainDeps : RegisterDeps := ⟨hostEnv "a", fun _ => .lww, fun _ => true⟩

/-- Two concurrent entries in one batch. -/
def oneBatch : List RegisterHub.Event :=
  [.commit [setEntry "k" "a" 1 2 none, setEntry "k" "b" 1 1 none], .start, .resume, .resume]

/-- The earlier one arrives late. -/
def lateBatch : List RegisterHub.Event :=
  [.commit [setEntry "k" "a" 1 2 none], .start, .resume, .commit [setEntry "k" "b" 1 1 none],
    .start, .resume, .resume]

theorem late_register_entry_converges :
    ((RegisterHub.run plainDeps "t" .empty oneBatch).keys.state (js "k")).winner =
      ((RegisterHub.run plainDeps "t" .empty lateBatch).keys.state (js "k")).winner := by
  have hone : RegisterHub.RunMeets plainDeps "t" (RegisterHub.Arrives plainDeps "t") .empty
      oneBatch := by
    refine ⟨RegisterHub.arrives_commit rfl (by simp [payloadOk_setEntry])
      (Db.backward_of_no_causal (by decide +kernel) (by decide +kernel)), trivial, trivial, trivial,
      trivial⟩
  have hlate : RegisterHub.RunMeets plainDeps "t" (RegisterHub.Arrives plainDeps "t") .empty
      lateBatch := by
    refine ⟨RegisterHub.arrives_commit rfl (by simp [payloadOk_setEntry])
      (Db.backward_of_no_causal (by decide +kernel) (by decide +kernel)), trivial, trivial,
      RegisterHub.arrives_commit (by decide +kernel) (by simp [payloadOk_setEntry])
      (Db.backward_of_no_causal (by decide +kernel) (by decide +kernel)), trivial, trivial, trivial,
      trivial⟩
  have hsame : (RegisterHub.run plainDeps "t" .empty oneBatch).db.topicEntries "t" =
      (RegisterHub.run plainDeps "t" .empty lateBatch).db.topicEntries "t" := by
    rfl
  have hk := registers_converge plainDeps "t" oneBatch lateBatch hone hlate (by decide +kernel)
    (by decide +kernel) (fun e => by rw [← Db.mem_topicEntries, ← Db.mem_topicEntries, hsame])
    (js "k")
  rw [hk.1]

/-- A commit at the await of a refold, below its batch: the refold does not see it, and then its
watermark passes it. -/
def commitDuringRefold : List RegisterHub.Event :=
  [.commit [setEntry "k" "a" 1 5 none], .start, .resume, .commit [setEntry "k" "b" 1 3 none],
    .start, .commit [setEntry "j" "c" 1 1 none], .resume, .resume]

/-- The same entries in one batch. -/
def commitBeforeRefold : List RegisterHub.Event :=
  [.commit [setEntry "k" "a" 1 5 none, setEntry "k" "b" 1 3 none, setEntry "j" "c" 1 1 none],
    .start, .resume, .resume, .resume]

theorem refold_skips_commit :
    let h := RegisterHub.run plainDeps "t" .empty commitDuringRefold
    let h' := RegisterHub.run plainDeps "t" .empty commitBeforeRefold
    h.Quiescent "t" ∧ h'.Quiescent "t" ∧ (∀ e, h.db.Holds "t" e ↔ h'.db.Holds "t" e) ∧
      (h.keys.state (js "j")).winner ≠ (h'.keys.state (js "j")).winner := by
  refine ⟨by decide +kernel, by decide +kernel, ?_, by decide +kernel⟩
  intro e
  have hsame : (RegisterHub.run plainDeps "t" .empty commitDuringRefold).db.topicEntries "t" =
      (RegisterHub.run plainDeps "t" .empty commitBeforeRefold).db.topicEntries "t" := by
    rfl
  rw [← Db.mem_topicEntries, ← Db.mem_topicEntries, hsame]

end Seqscribe
