import Seqscribe.ViewRestore

namespace Seqscribe
set_option autoImplicit true

open Replay

/-! Views over a log whose covered rows move to the archive. -/

namespace Db

/-- The archived and the held entries of a topic in total order. -/
def unionEntries (db : Db) (topic : Topic) : List LogEntry :=
  ((db.sqArchive.rows.map ArchiveRow.entry ++ db.sqLog.rows.map LogRow.entry).filter
    fun e => e.topic = topic).insertionSort fun e e' => orderOf e ≤ orderOf e'

/-- Rows of a topic move from the log to the archive. -/
def archiveRows (db : Db) (topic : Topic) (p : LogRow → Bool) (atMs : Nat) : Db :=
  (db.sqLog.rows.filter fun r => decide (r.entry.topic = topic) && p r).foldl (archiveRow atMs) db

/-- No id is both held and archived. -/
def Disjoint (db : Db) : Prop := ∀ r ∈ db.sqLog.rows, db.sqArchive.get r.entry.id = none

theorem mem_unionEntries {db : Db} : e ∈ db.unionEntries topic ↔ db.Known topic e := by
  simp only [unionEntries, List.mem_insertionSort, List.mem_filter, List.mem_append, List.mem_map,
    decide_eq_true_eq, Known, Archived, Holds]
  constructor
  · rintro ⟨h | h, ht⟩
    · exact .inl ⟨ht, h⟩
    · exact .inr ⟨ht, h⟩
  · rintro (⟨ht, h⟩ | ⟨ht, h⟩)
    · exact ⟨.inl h, ht⟩
    · exact ⟨.inr h, ht⟩

theorem Disjoint.covers {db : Db} (hdb : db.Disjoint) (topic : Topic) :
    Covers orderOf (db.Known topic) (db.Known topic) (db.unionEntries topic) := by
  refine ⟨?_, fun _ => mem_unionEntries.1, fun _ => mem_unionEntries.2⟩
  have hle : (db.unionEntries topic).Pairwise fun a b => orderOf a ≤ orderOf b := by
    have htotal : Std.Total fun e e' : LogEntry => orderOf e ≤ orderOf e' :=
      ⟨fun _ _ => le_total _ _⟩
    have htrans : IsTrans LogEntry fun e e' => orderOf e ≤ orderOf e' :=
      ⟨fun _ _ _ => le_trans⟩
    exact List.pairwise_insertionSort _ _
  have hids : ((db.unionEntries topic).map LogEntry.id).Nodup := by
    have hperm := (List.perm_insertionSort (fun e e' => orderOf e ≤ orderOf e')
      ((db.sqArchive.rows.map ArchiveRow.entry ++ db.sqLog.rows.map LogRow.entry).filter
        fun e => e.topic = topic)).map LogEntry.id
    apply hperm.nodup_iff.2
    apply List.Nodup.sublist (List.filter_sublist.map _)
    rw [List.map_append, List.nodup_append]
    refine ⟨by simpa [List.map_map, Function.comp_def] using db.sqArchive.nodup,
      by simpa [List.map_map, Function.comp_def] using db.sqLog.nodup, ?_⟩
    intro i hi j hj heq
    obtain ⟨e, he, rfl⟩ := List.mem_map.1 hi
    obtain ⟨a, ha, rfl⟩ := List.mem_map.1 he
    obtain ⟨e', he', rfl⟩ := List.mem_map.1 hj
    obtain ⟨r, hr, rfl⟩ := List.mem_map.1 he'
    exact Table.get_eq_none_iff.1 (hdb r hr) a ha heq
  have hne : (db.unionEntries topic).Pairwise fun a b => a.id ≠ b.id := List.pairwise_map.1 hids
  refine (hle.and hne).imp_of_mem ?_
  rintro a b ha hb ⟨hab, hn⟩
  apply lt_of_le_of_ne hab
  intro he
  have htopic : ∀ {e}, db.Known topic e → e.topic = topic := by
    rintro e (⟨ht, -⟩ | ⟨ht, -⟩) <;> exact ht
  exact hn (orderOf_injOn
    ((htopic (mem_unionEntries.1 ha)).trans (htopic (mem_unionEntries.1 hb)).symm) he)

/-- What moving some rows of the log to the archive leaves as it was. -/
structure Archives (moved : LogRow → Prop) (db db' : Db) : Prop where
  sequence : db'.logSequence = db.logSequence
  sublist : db'.sqLog.rows.Sublist db.sqLog.rows
  disjoint : db'.Disjoint
  archived : ∀ a ∈ db'.sqArchive.rows, a ∈ db.sqArchive.rows ∨
    ∃ r ∈ db.sqLog.rows, moved r ∧ a.entry = r.entry
  kept : ∀ a ∈ db.sqArchive.rows, a ∈ db'.sqArchive.rows
  held : ∀ r ∈ db.sqLog.rows, r ∈ db'.sqLog.rows ∨ ∃ a ∈ db'.sqArchive.rows, a.entry = r.entry

theorem Archives.row {db₀ db : Db} (h : Archives moved db₀ db) (hn : db₀.Numbered)
    (hr : r ∈ db₀.sqLog.rows) (hm : moved r) : Archives moved db₀ (archiveRow atMs db r) := by
  have hsame : ∀ r' ∈ db.sqLog.rows, r'.rowid = r.rowid → r' = r := by
    intro r' hr' heq
    have hnodup : (db₀.sqLog.rows.map LogRow.rowid).Nodup :=
      List.pairwise_map.2 (hn.sorted.imp fun h => Nat.ne_of_lt h)
    exact List.inj_on_of_nodup_map hnodup (h.sublist.subset hr') hr heq
  have hid : ∀ r' ∈ db.sqLog.rows, r' ≠ r → r'.entry.id ≠ r.entry.id := by
    intro r' hr' hne heq
    exact hne (List.inj_on_of_nodup_map db₀.sqLog.nodup (h.sublist.subset hr') hr heq)
  have hnew : ∀ r' ∈ (archiveRow atMs db r).sqLog.rows, r' ∈ db.sqLog.rows ∧ r' ≠ r := by
    intro r' hr'
    obtain ⟨hmem, hne⟩ := List.mem_filter.1 hr'
    refine ⟨hmem, fun heq => ?_⟩
    simp [heq] at hne
  have hget : ∀ i, (archiveRow atMs db r).sqArchive.get i =
      if r.entry.id = i ∧ db.sqArchive.get i = none then some ⟨r.entry, atMs⟩
      else db.sqArchive.get i := fun i => Table.get_insertIgnore _ _ i
  have hkeep : ∀ a ∈ db.sqArchive.rows, a ∈ (archiveRow atMs db r).sqArchive.rows := by
    intro a ha
    have hga := Table.get_of_mem ha
    have hg := hget a.entry.id
    rw [hga, if_neg (by simp)] at hg
    exact (Table.get_eq_some_iff.1 hg).1
  refine ⟨h.sequence, List.filter_sublist.trans h.sublist, ?_, ?_, fun a ha => hkeep a (h.kept a ha),
    ?_⟩
  · intro r' hr'
    obtain ⟨hmem, hne⟩ := hnew r' hr'
    rw [hget, if_neg (fun hc => hid r' hmem hne hc.1.symm)]
    exact h.disjoint r' hmem
  · intro a ha
    have hga := hget a.entry.id
    rw [Table.get_of_mem ha] at hga
    split at hga
    · next hc =>
      right
      exact ⟨r, hr, hm, by rw [Option.some.inj hga]⟩
    · exact h.archived a (Table.get_eq_some_iff.1 hga.symm).1
  · intro r' hr'
    rcases h.held r' hr' with hmem | ⟨a, ha, he⟩
    · by_cases heq : r' = r
      · subst heq
        right
        have hg := hget r'.entry.id
        rw [if_pos ⟨rfl, h.disjoint r' hmem⟩] at hg
        exact ⟨_, (Table.get_eq_some_iff.1 hg).1, rfl⟩
      · left
        refine List.mem_filter.2 ⟨hmem, ?_⟩
        simpa using fun hrow => heq (hsame r' hmem hrow)
    · exact .inr ⟨a, hkeep a ha, he⟩

theorem archiveRows_archives {db : Db} (hdb : db.Disjoint) (hn : db.Numbered) (topic : Topic)
    (p : LogRow → Bool) (atMs : Nat) :
    Archives (fun r => r.entry.topic = topic ∧ p r = true) db (db.archiveRows topic p atMs) := by
  have hgen : ∀ (rs : List LogRow) (db' : Db),
      (∀ r ∈ rs, r ∈ db.sqLog.rows ∧ r.entry.topic = topic ∧ p r = true) →
      Archives (fun r => r.entry.topic = topic ∧ p r = true) db db' →
      Archives (fun r => r.entry.topic = topic ∧ p r = true) db (rs.foldl (archiveRow atMs) db') := by
    intro rs
    induction rs with
    | nil => exact fun db' _ h => h
    | cons r rs ih =>
      intro db' hrs h
      apply ih _ (fun r' hr' => hrs r' (List.mem_cons_of_mem _ hr'))
      exact h.row hn (hrs r (by simp)).1 (hrs r (by simp)).2
  apply hgen
  · intro r hr
    simpa using List.mem_filter.1 hr
  · exact ⟨rfl, List.Sublist.refl _, hdb, fun a ha => .inl ha, fun _ h => h, fun _ h => .inl h⟩

/-- Entries whose ids are archived are not accepted again: the heads of their streams are past
them. -/
def commitNew (db : Db) (es : List LogEntry) : Db :=
  db.commit (es.filter fun e => (db.sqArchive.get e.id).isNone)

theorem Disjoint.commitNew {db : Db} (hdb : db.Disjoint) (es : List LogEntry) :
    (db.commitNew es).Disjoint := by
  have hc := db.commit_commits (es.filter fun e => (db.sqArchive.get e.id).isNone)
  intro r hr
  have harch : (db.commitNew es).sqArchive = db.sqArchive := hc.archive
  rw [harch]
  rcases hc.added r hr with hold | ⟨-, hnew⟩
  · exact hdb r hold
  · simpa using (List.mem_filter.1 hnew).2

section
variable {moved : LogRow → Prop} {db db' : Db} (h : Archives moved db db')
include h

theorem Archives.numbered (hn : db.Numbered) : db'.Numbered :=
  ⟨hn.sorted.sublist h.sublist, fun r hr => h.sequence ▸ hn.bounded r (h.sublist.subset hr)⟩

theorem Archives.known : db'.Known topic e ↔ db.Known topic e := by
  constructor
  · rintro (⟨ht, a, ha, rfl⟩ | ⟨ht, r, hr, rfl⟩)
    · rcases h.archived a ha with ha | ⟨r, hr, -, he⟩
      · exact .inl ⟨ht, a, ha, rfl⟩
      · exact .inr ⟨ht, r, hr, he.symm⟩
    · exact .inr ⟨ht, r, h.sublist.subset hr, rfl⟩
  · rintro (⟨ht, a, ha, rfl⟩ | ⟨ht, r, hr, rfl⟩)
    · exact .inl ⟨ht, a, h.kept a ha, rfl⟩
    · rcases h.held r hr with hr | ⟨a, ha, he⟩
      · exact .inr ⟨ht, r, hr, rfl⟩
      · exact .inl ⟨ht, a, ha, he⟩

/-- Moving rows that the watermark has passed does not put anything behind it. -/
theorem Archives.knownTo (hseen : ∀ r ∈ db.sqLog.rows, moved r → r.rowid ≤ n)
    (he : db'.KnownTo topic n e) : db.KnownTo topic n e := by
  rcases he with ⟨ht, a, ha, rfl⟩ | ⟨ht, r, hr, rfl, hle⟩
  · rcases h.archived a ha with ha | ⟨r, hr, hm, he⟩
    · exact .inl ⟨ht, a, ha, rfl⟩
    · exact .inr ⟨ht, r, hr, he.symm, hseen r hr hm⟩
  · exact .inr ⟨ht, r, h.sublist.subset hr, rfl, hle⟩

end

end Db

namespace ViewHub

variable {S R : Type} {v : ViewDef S R} [DecidableEq R] {topic : Topic} {N : Nat}

/-- Arrivals, turns of the materialize loop, and the two effects of an accepted certificate. -/
inductive CutEvent where
  | commit (es : List LogEntry)
  | turn
  | rebaseAtCut (ord : Order)
  /-- `archiveNow`: the covered rows that the consumers have passed leave the log. -/
  | archive (p : LogRow → Bool) (atMs : Nat)

def cutStep (topic : Topic) (N : Nat) (h : ViewHub v) : CutEvent → ViewHub v
  | .commit es => { h with db := h.db.commitNew es }
  | .turn => if h.inst.faulted then h else (materializeBatch topic N h).1
  | .rebaseAtCut ord => rebaseAtCut topic h ord
  | .archive p atMs => { h with db := h.db.archiveRows topic p atMs }

/-- No step loses the archived prefix: a late turn restores a checkpoint above every archived
entry, a forward turn leaves no checkpoint behind that misses an entry below it, a rebase starts
above every archived entry, and only rows that the view has materialized are archived. -/
def CutReady (topic : Topic) (h : ViewHub v) : CutEvent → Prop
  | .commit _ => True
  | .turn => TurnReady topic h
  | .rebaseAtCut ord => ∀ e, h.db.Archived topic e →
      Upto (h.restorePoint { ord with seq := ord.seq + 1 }) e
  | .archive p _ => ∀ r ∈ h.db.sqLog.rows, r.entry.topic = topic → p r = true →
      r.rowid ≤ h.inst.lastRowid

def CutRunReady (topic : Topic) (N : Nat) : ViewHub v → List CutEvent → Prop
  | _, [] => True
  | h, ev :: evs => CutReady topic h ev ∧ CutRunReady topic N (cutStep topic N h ev) evs

omit [DecidableEq R] in
/-- A turn is ready when its batch sorts above the view's position and every checkpoint. -/
theorem TurnReady.of_above {h : ViewHub v}
    (habove : ∀ first ∈ (h.newBatch topic).head?, (∀ o ∈ h.inst.ord, o < orderOf first) ∧
      ∀ c ∈ h.checkpoints.rows, c.1 < orderOf first) : TurnReady topic h where
  forward := fun first hfirst _ c hc hle =>
    absurd ((habove first hfirst).2 c hc) (not_lt.2 hle)
  late := by
    rintro first hfirst hupto
    exact absurd hupto (not_upto.2 (habove first hfirst).1)

omit [DecidableEq R] in
/-- A rebase with nothing archived is ready. -/
theorem CutReady.rebase {h : ViewHub v} (hnone : h.db.sqArchive.rows.length = 0) :
    CutReady topic h (.rebaseAtCut ord) := by
  rintro e ⟨-, r, hr, -⟩
  rw [List.length_eq_zero_iff.1 hnone] at hr
  cases hr

structure Preserved (topic : Topic) (h : ViewHub v) : Prop where
  numbered : h.db.Numbered
  disjoint : h.db.Disjoint
  watermark : h.inst.lastRowid ≤ h.db.logSequence
  sound : h.Sound topic

omit [DecidableEq R] in
theorem Preserved.commit {h : ViewHub v} (hp : Preserved topic h) (es : List LogEntry) :
    Preserved topic { h with db := h.db.commitNew es } := by
  have hc := h.db.commit_commits (es.filter fun e => (h.db.sqArchive.get e.id).isNone)
  refine ⟨hc.numbered hp.numbered, hp.disjoint.commitNew es, hp.watermark.trans hc.sequence, ?_⟩
  constructor
  · exact hp.sound.state.mono (fun e => hc.knownTo_inv hp.watermark) fun e => hc.known
  · intro c hmem
    exact (hp.sound.points c hmem).mono (fun e he _ => hc.knownTo_inv hp.watermark he)
      fun e => hc.known

theorem Preserved.turn {h : ViewHub v} (hp : Preserved topic h) (hready : TurnReady topic h) :
    (materializeBatch topic N h).1.inst.faulted = true ∨
      Preserved topic (materializeBatch topic N h).1 := by
  rcases materializeBatch_sound (N := N) hp.numbered hp.sound hready with
    hf | ⟨hdb, hwater, hsound⟩
  · exact .inl hf
  · refine .inr ⟨hdb ▸ hp.numbered, hdb ▸ hp.disjoint, ?_, hsound⟩
    rw [hdb]
    exact hwater.trans (max_le hp.watermark (le_refl _))

omit [DecidableEq R] in
theorem Preserved.rebaseAtCut {h : ViewHub v} (hp : Preserved topic h)
    (hready : CutReady topic h (.rebaseAtCut ord)) :
    Preserved topic (ViewHub.rebaseAtCut topic h ord) := by
  cases hfault : h.inst.faulted with
  | true =>
    rw [ViewHub.rebaseAtCut, hfault]
    exact hp
  | false =>
    have hpoint : Point v (h.db.KnownTo topic h.inst.lastRowid) (h.db.Known topic)
        (ord, stateAt topic h ord) :=
      stateAt_point (fun c hc _ => hp.sound.points c hc) (fun e he => .inr he) <| by
        rintro e (ha | hh) -
        · exact .inl (hready e ha)
        · exact .inr hh.holds
    have heq : (ViewHub.rebaseAtCut topic h ord).db = h.db ∧
        (ViewHub.rebaseAtCut topic h ord).inst = h.inst := by
      rw [ViewHub.rebaseAtCut, hfault]
      exact ⟨rfl, rfl⟩
    obtain ⟨hdb, hinst⟩ := heq
    refine ⟨hdb ▸ hp.numbered, hdb ▸ hp.disjoint, ?_, ?_, ?_⟩
    · rw [hdb, hinst]
      exact hp.watermark
    · rw [hdb, hinst]
      exact hp.sound.state
    · intro c hc
      rw [hdb, hinst]
      rcases mem_rebaseAtCut hfault hc with rfl | hc
      · exact hpoint
      · exact hp.sound.points c hc

omit [DecidableEq R] in
theorem Preserved.archive {h : ViewHub v} (hp : Preserved topic h)
    (hready : CutReady topic h (.archive p atMs)) :
    Preserved topic { h with db := h.db.archiveRows topic p atMs } := by
  have ha := Db.archiveRows_archives hp.disjoint hp.numbered topic p atMs
  have hseen : ∀ e, (h.db.archiveRows topic p atMs).KnownTo topic h.inst.lastRowid e →
      h.db.KnownTo topic h.inst.lastRowid e :=
    fun e => ha.knownTo fun r hr hm => hready r hr hm.1 hm.2
  refine ⟨ha.numbered hp.numbered, ha.disjoint, ?_, ?_, ?_⟩
  · exact hp.watermark.trans ha.sequence.ge
  · exact hp.sound.state.mono hseen fun e he => ha.known.2 he
  · intro c hc
    exact (hp.sound.points c hc).mono (fun e he _ => hseen e he) fun e he => ha.known.2 he

theorem Preserved.step {h : ViewHub v} (hp : h.inst.faulted = true ∨ Preserved topic h)
    {ev : CutEvent} (hready : CutReady topic h ev) :
    (cutStep topic N h ev).inst.faulted = true ∨
      Preserved topic (cutStep topic N h ev) := by
  rcases hp with hf | hp
  · left
    cases ev with
    | commit es => exact hf
    | turn => rw [cutStep, if_pos hf]; exact hf
    | rebaseAtCut ord => rw [cutStep, ViewHub.rebaseAtCut, if_pos hf]; exact hf
    | archive p atMs => exact hf
  · cases ev with
    | commit es => exact .inr (hp.commit es)
    | turn =>
      rw [cutStep]
      split
      · exact .inr hp
      · exact hp.turn hready
    | rebaseAtCut ord => exact .inr (hp.rebaseAtCut hready)
    | archive p atMs => exact .inr (hp.archive hready)

theorem Preserved.run {h : ViewHub v} (hp : h.inst.faulted = true ∨ Preserved topic h)
    {evs : List CutEvent} (hready : CutRunReady topic N h evs) :
    (evs.foldl (cutStep topic N) h).inst.faulted = true ∨
      Preserved topic (evs.foldl (cutStep topic N) h) := by
  induction evs generalizing h with
  | nil => exact hp
  | cons ev evs ih => exact ih (Preserved.step hp hready.1) hready.2

theorem Preserved.opened (held : List LogEntry) :
    (opened topic N v (Db.empty.commit held)).inst.faulted = true ∨
      Preserved topic (opened topic N v (Db.empty.commit held)) := by
  have hc := Db.empty.commit_commits held
  have hno : ∀ e, ¬ (Db.empty.commit held).Archived topic e := by
    intro e he
    obtain ⟨-, r, hr, -⟩ := hc.archived.1 he
    cases hr
  have hopen := Reachable.opened (N := N) (v := v)
    (hc.numbered .empty) hno
  rcases register_tracks topic N ((Db.empty.commit held).Known topic)
    ((Db.empty.commit held).Known topic) (v := v)
    (h := ⟨Db.empty.commit held, Table.empty, Table.empty, .fresh v⟩)
    (fun c hc => by cases hc) (fun e he => .inr he) (fun e he => he.resolve_left (hno e)) with
    hf | ⟨hdb, -⟩
  · exact .inl hf
  refine hopen.orderly.imp id fun ho => ⟨ho.numbered, ?_, ho.watermark, ho.sound⟩
  intro r hr
  rw [ViewHub.opened, hdb, hc.archive]
  rfl

end ViewHub

/-- In every run of arrivals, turns, rebases and archive passes whose steps are all ready, in every
state reached in which everything is materialized, the state of a view that is not faulted is the
fold over the archived and the held entries in total order. -/
theorem view_survives_archiving {S R : Type} [DecidableEq R] (v : ViewDef S R) (topic : Topic)
    (N : Nat) (held : List LogEntry) (evs : List ViewHub.CutEvent)
    (hready : ViewHub.CutRunReady topic N
      (ViewHub.opened topic N v (Db.empty.commit held)) evs) :
    let h := evs.foldl (ViewHub.cutStep topic N)
      (ViewHub.opened topic N v (Db.empty.commit held))
    h.newRows topic = [] → h.inst.faulted = false →
      h.inst.state = v.fold (h.db.unionEntries topic) := by
  intro h hnew hnf
  rcases ViewHub.Preserved.run (ViewHub.Preserved.opened held) hready with hf | hp
  · exact absurd hf (by rw [hnf]; exact Bool.false_ne_true)
  obtain ⟨X, hX, hs⟩ := hp.sound.state
  rw [hs]
  congr 1
  refine Covers.eq ?_ (hp.disjoint.covers topic)
  apply hX.mono _ fun e he => he.1
  rintro e (ha | hh)
  · exact .inl ha
  · exact .inr (ViewHub.holdsTo_of_newRows hnew hh)

/-- A certificate up to the stamp 2, whose two covered entries are archived, and a later entry. -/
def archiveRun : List ViewHub.CutEvent :=
  [.commit [noted "a" 1 1, noted "a" 2 2], .turn, .turn, .rebaseAtCut ⟨2, 0, "a", 2⟩,
    .archive (fun r => decide (r.entry.seq ≤ 2)) 0, .commit [noted "b" 1 3], .turn, .turn]

theorem view_survives_archiving_of_later_entry :
    (archiveRun.foldl (ViewHub.cutStep "t" 10)
      (ViewHub.opened "t" 10 stamps (Db.empty.commit []))).inst.state = [1, 2, 3] := by
  have hready : ViewHub.CutRunReady "t" 10
      (ViewHub.opened "t" 10 stamps (Db.empty.commit [])) archiveRun := by
    refine ⟨trivial, .of_above (by decide +kernel), .of_above (by decide +kernel),
      .rebase (by decide +kernel), ?_, trivial, .of_above (by decide +kernel),
      .of_above (by decide +kernel), trivial⟩
    unfold ViewHub.CutReady
    decide +kernel
  exact (view_survives_archiving stamps "t" 10 [] archiveRun hready (by decide +kernel)
    (by decide +kernel)).trans (by decide +kernel)

/-- An entry below the archived cut follows. -/
def lateCoveredRun : List ViewHub.CutEvent :=
  archiveRun ++ [.commit [noted "c" 1 1], .turn, .turn]

theorem view_loses_archived_prefix :
    let h := lateCoveredRun.foldl (ViewHub.cutStep "t" 10)
      (ViewHub.opened "t" 10 stamps (Db.empty.commit []))
    h.newRows "t" = [] ∧ h.inst.faulted = false ∧
      h.inst.state = [1, 3] ∧ stamps.fold (h.db.unionEntries "t") = [1, 1, 2, 3] := by
  decide +kernel

end Seqscribe
