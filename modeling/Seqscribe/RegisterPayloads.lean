import Seqscribe.RegisterConverge

namespace Seqscribe
set_option autoImplicit true

open Replay

/-! Payloads of the wrong types, and passes that end. -/

namespace RegisterHub

variable (d : RegisterDeps) (topic : Topic)

/-- Rows of the topic past a rowid. -/
def rowsPast (db : Db) (rowid : Nat) : List LogRow :=
  db.sqLog.rows.filter fun r => decide (r.entry.topic = topic ∧ rowid < r.rowid)

/-- Resumed often enough, with nothing in between, the pass ends with everything materialized. -/
def Ends (h : RegisterHub) : Prop :=
  ∃ fuel h', resumeAll d topic fuel h = .ok h' ∧ h'.db = h.db ∧ h'.Quiescent topic

section
variable {d : RegisterDeps} {topic : Topic}

theorem newRows_eq_nil {h : RegisterHub} :
    h.newRows topic = [] ↔ rowsPast topic h.db h.lastRowid = [] := by
  have hlen : (h.db.sqLog.selectBy
      (fun r => decide (r.entry.topic = topic ∧ h.lastRowid < r.rowid)) (·.rowid)).length =
      (rowsPast topic h.db h.lastRowid).length := List.length_insertionSort ..
  rw [← List.length_eq_zero_iff, ← List.length_eq_zero_iff, newRows,
    Db.entriesForTopicFromRowid, List.length_take, hlen]
  simp only [FOLD_BATCH]
  omega

theorem rowsPast_lt {h : RegisterHub} (hlast : (h.newRows topic).getLast? = some last) :
    (rowsPast topic h.db last.rowid).length < (rowsPast topic h.db h.lastRowid).length := by
  obtain ⟨hmem, ht, hlt⟩ := Db.mem_entriesForTopicFromRowid (List.mem_of_getLast? hlast)
  have heq : rowsPast topic h.db last.rowid =
      (rowsPast topic h.db h.lastRowid).filter fun r => decide (last.rowid < r.rowid) := by
    rw [rowsPast, rowsPast, List.filter_filter]
    apply List.filter_congr
    intro r _
    rw [← Bool.decide_and, decide_eq_decide]
    constructor
    · rintro ⟨htr, hr⟩
      exact ⟨hr, htr, hlt.trans hr⟩
    · rintro ⟨hr, htr, -⟩
      exact ⟨htr, hr⟩
  rw [heq]
  apply List.length_filter_lt_length_iff_exists.2
  exact ⟨last, List.mem_filter.2 ⟨hmem, by simpa using ⟨ht, hlt⟩⟩, by simp⟩

theorem Ends.of_quiescent {h : RegisterHub} (hq : h.Quiescent topic) : Ends d topic h :=
  ⟨0, h, rfl, rfl, hq⟩

theorem Ends.of_resume {h h₁ : RegisterHub} (hbusy : h.pass.isIdle = false)
    (hr : resume d topic h = .ok h₁) (hdb : h₁.db = h.db) (he : Ends d topic h₁) :
    Ends d topic h := by
  obtain ⟨fuel, h', hall, hdb', hq⟩ := he
  refine ⟨fuel + 1, h', ?_, hdb'.trans hdb, hq⟩
  rw [resumeAll]
  split
  · next hpass =>
    rw [hpass] at hbusy
    cases hbusy
  · rw [hr]
    exact hall

/-- The rest of a refold batch, and then the next read. -/
theorem refold_ends {h : RegisterHub} {todo : List LogEntry} (hpass : h.pass = .refold todo)
    (hok : ∀ e ∈ todo, PayloadOk d e)
    (hnext : ∀ h', h'.db = h.db → h'.ord = (lastKey orderOf todo).or h.ord →
      Ends d topic (readOn topic h')) : Ends d topic h := by
  induction todo generalizing h with
  | nil =>
    have hr : resume d topic h = .ok (readOn topic h) := by
      rw [resume, hpass]
    exact Ends.of_resume (by rw [hpass]; rfl) hr (readOn_db h) (hnext h rfl rfl)
  | cons e todo ih =>
    have hone := foldOne_ok (hok e (by simp)) topic h
    cases todo with
    | nil =>
      have hr : resume d topic h = .ok (readOn topic { h with
          keys := foldKeys d (h.db.lookup topic) h.keys e
          ord := some (orderOf e) }) := by
        simp only [resume, hpass, hone, bind, Except.bind, pure, Except.pure, List.isEmpty_nil,
          if_true]
      exact Ends.of_resume (by rw [hpass]; rfl) hr (readOn_db _) (hnext _ rfl rfl)
    | cons e' todo =>
      have hr : resume d topic h = .ok { h with
          keys := foldKeys d (h.db.lookup topic) h.keys e
          ord := some (orderOf e)
          pass := .refold (e' :: todo) } := by
        simp only [resume, hpass, hone, bind, Except.bind, pure, Except.pure, List.isEmpty_cons,
          Bool.false_eq_true, if_false]
      apply Ends.of_resume (by rw [hpass]; rfl) hr
      · rfl
      · apply ih rfl fun x hx => hok x (List.mem_cons_of_mem _ hx)
        intro h' hdb hord
        apply hnext h' hdb
        rw [hord]
        simp [lastKey, List.getLast?_cons]

/-- A refold ends, with the watermark past every row. -/
theorem readOn_ends {db : Db} (hok : ∀ e, db.Holds topic e → PayloadOk d e) {h : RegisterHub}
    (hdb : h.db = db) : Ends d topic (readOn topic h) := by
  generalize hn : (after orderOf h.ord (db.topicEntries topic)).length = n
  induction n using Nat.strong_induction_on generalizing h with
  | h n ih =>
    unfold readOn
    cases hes : h.db.entriesAfterOrder topic h.ord FOLD_BATCH with
    | nil =>
      apply Ends.of_quiescent
      refine ⟨rfl, newRows_eq_nil.2 ?_⟩
      rw [rowsPast, List.filter_eq_nil_iff]
      intro r hr hc
      obtain ⟨ht, hlt⟩ := of_decide_eq_true hc
      exact absurd (Db.le_maxRowid hr ht) (not_le.2 hlt)
    | cons e es =>
      have htake : (after orderOf h.ord (db.topicEntries topic)).take FOLD_BATCH = e :: es :=
        hdb ▸ hes
      apply refold_ends rfl
      · intro x hx
        rw [← htake] at hx
        exact hok x (Db.mem_topicEntries.1 (mem_after.1 (List.mem_of_mem_take hx)).1)
      · intro h' hdb' hord
        have hcursor : h'.ord = lastKey orderOf (e :: es) := by
          rw [hord]
          simp [lastKey, List.getLast?_cons]
        have hrest := after_lastKey_take (Db.sorted_topicEntries db topic)
          (by rw [htake]; simp)
        rw [htake, ← hcursor] at hrest
        have hlen : (e :: es).length = min FOLD_BATCH _ := htake ▸ List.length_take
        apply ih _ _ (hdb'.trans hdb) rfl
        rw [hrest, List.length_drop, ← hn]
        simp only [List.length_cons, FOLD_BATCH] at hlen ⊢
        omega

theorem startRefold_ends {h : RegisterHub} (hok : ∀ e, h.db.Holds topic e → PayloadOk d e) :
    Ends d topic (startRefold topic h) := by
  unfold startRefold
  split
  · exact readOn_ends hok rfl
  · exact readOn_ends hok rfl

/-- The rest of a forward batch, and then the head of the loop. -/
theorem forward_ends {h : RegisterHub} {todo : List LogEntry} (hpass : h.pass = .forward todo last)
    (hok : ∀ e ∈ todo, PayloadOk d e)
    (hnext : ∀ h', h'.db = h.db → h'.lastRowid = last → Ends d topic (loopHead topic h')) :
    Ends d topic h := by
  induction todo generalizing h with
  | nil =>
    have hr : resume d topic h = .ok (loopHead topic { h with lastRowid := last }) := by
      rw [resume, hpass]
    exact Ends.of_resume (by rw [hpass]; rfl) hr (loopHead_db _) (hnext _ rfl rfl)
  | cons e todo ih =>
    have hone := foldOne_ok (hok e (by simp)) topic h
    cases todo with
    | nil =>
      have hr : resume d topic h = .ok (loopHead topic { h with
          keys := foldKeys d (h.db.lookup topic) h.keys e
          ord := some (orderOf e)
          lastRowid := last }) := by
        simp only [resume, hpass, hone, bind, Except.bind, pure, Except.pure, List.isEmpty_nil,
          if_true]
      exact Ends.of_resume (by rw [hpass]; rfl) hr (loopHead_db _) (hnext _ rfl rfl)
    | cons e' todo =>
      have hr : resume d topic h = .ok { h with
          keys := foldKeys d (h.db.lookup topic) h.keys e
          ord := some (orderOf e)
          pass := .forward (e' :: todo) last } := by
        simp only [resume, hpass, hone, bind, Except.bind, pure, Except.pure, List.isEmpty_cons,
          Bool.false_eq_true, if_false]
      apply Ends.of_resume (by rw [hpass]; rfl) hr
      · rfl
      · exact ih rfl (fun x hx => hok x (List.mem_cons_of_mem _ hx)) hnext

/-- The loop ends: each turn passes a row. -/
theorem loopHead_ends {db : Db} (hok : ∀ e, db.Holds topic e → PayloadOk d e) {h : RegisterHub}
    (hdb : h.db = db) : Ends d topic (loopHead topic h) := by
  generalize hn : (rowsPast topic h.db h.lastRowid).length = n
  induction n using Nat.strong_induction_on generalizing h with
  | h n ih =>
    unfold loopHead
    split
    · next first last hfirst hlast =>
      split
      · exact startRefold_ends (hdb ▸ hok)
      · apply forward_ends rfl
        · exact fun e he => hok e (hdb ▸ Db.holds_of_mem_batchFrom he)
        · intro h' hdb' hlast'
          apply ih _ _ (hdb'.trans hdb) rfl
          rw [hdb', hlast', ← hn]
          exact rowsPast_lt hlast
    · next hnone =>
      apply Ends.of_quiescent
      refine ⟨rfl, ?_⟩
      by_contra hnew
      have hlen : (h.newBatch topic).length = (h.newRows topic).length := by
        rw [newBatch, Db.batchFrom, List.length_insertionSort, List.length_map]
        rfl
      have hpos := List.length_pos_iff.2 hnew
      exact hnone _ _ (List.head?_eq_some_head (List.length_pos_iff.1 (hlen ▸ hpos)))
        (List.getLast?_eq_some_getLast hnew)

/-- Everything that the pass reads has a payload of the right types. -/
structure Typed (d : RegisterDeps) (topic : Topic) (h : RegisterHub) : Prop where
  held : ∀ e, h.db.Holds topic e → PayloadOk d e
  batch : ∀ e ∈ h.pass.todo, PayloadOk d e

/-- Every commit brings payloads of the right types. -/
def TypedCommit (d : RegisterDeps) (topic : Topic) (_ : RegisterHub) : Event → Prop
  | .commit es => ∀ e ∈ es, e.topic = topic → PayloadOk d e
  | _ => True

theorem Typed.ends {h : RegisterHub} (ht : Typed d topic h) : Ends d topic (start topic h) := by
  unfold start
  split
  · exact loopHead_ends ht.held rfl
  · next hbusy =>
    cases hpass : h.pass with
    | idle => exact absurd hpass hbusy
    | forward todo last =>
      have hbatch := ht.batch
      rw [hpass] at hbatch
      exact forward_ends hpass hbatch fun h' hdb _ => loopHead_ends ht.held hdb
    | refold todo =>
      have hbatch := ht.batch
      rw [hpass] at hbatch
      exact refold_ends hpass hbatch fun h' hdb _ => readOn_ends ht.held hdb

theorem readOn_typed {h : RegisterHub} (hok : ∀ e, h.db.Holds topic e → PayloadOk d e) :
    Typed d topic (readOn topic h) := by
  refine ⟨by rw [readOn_db]; exact hok, ?_⟩
  unfold readOn
  split
  · intro e he
    cases he
  · intro e he
    exact hok e (Db.mem_topicEntries.1 (mem_after.1 (List.mem_of_mem_take he)).1)

theorem loopHead_typed {h : RegisterHub} (hok : ∀ e, h.db.Holds topic e → PayloadOk d e) :
    Typed d topic (loopHead topic h) := by
  unfold loopHead
  split
  · split
    · unfold startRefold
      split
      · exact readOn_typed hok
      · exact readOn_typed hok
    · exact ⟨hok, fun e he => hok e (Db.holds_of_mem_batchFrom he)⟩
  · refine ⟨hok, fun e he => ?_⟩
    cases he

/-- No resumption throws. -/
theorem Typed.resume {h : RegisterHub} (ht : Typed d topic h) :
    ∃ h', RegisterHub.resume d topic h = .ok h' ∧ Typed d topic h' := by
  obtain ⟨held, hbatch⟩ := ht
  unfold RegisterHub.resume
  cases hpass : h.pass with
  | idle => exact ⟨h, rfl, held, by rw [hpass]; exact fun e he => by cases he⟩
  | forward todo last =>
    rw [hpass] at hbatch
    cases todo with
    | nil => exact ⟨_, rfl, loopHead_typed held⟩
    | cons e todo =>
      have hone := foldOne_ok (hbatch e (by simp [Pass.todo])) topic h
      simp only [hone, bind, Except.bind, pure, Except.pure]
      refine ⟨_, rfl, ?_⟩
      split
      · exact loopHead_typed held
      · exact ⟨held, fun x hx => hbatch x (List.mem_cons_of_mem _ hx)⟩
  | refold todo =>
    rw [hpass] at hbatch
    cases todo with
    | nil => exact ⟨_, rfl, readOn_typed held⟩
    | cons e todo =>
      have hone := foldOne_ok (hbatch e (by simp [Pass.todo])) topic h
      simp only [hone, bind, Except.bind, pure, Except.pure]
      refine ⟨_, rfl, ?_⟩
      split
      · exact readOn_typed held
      · exact ⟨held, fun x hx => hbatch x (List.mem_cons_of_mem _ hx)⟩

theorem archiveRows_sublist (db : Db) (topic : Topic) (p : LogRow → Bool) (atMs : Nat) :
    (db.archiveRows topic p atMs).sqLog.rows.Sublist db.sqLog.rows := by
  have hgen : ∀ (rs : List LogRow) (db : Db),
      (rs.foldl (Db.archiveRow atMs) db).sqLog.rows.Sublist db.sqLog.rows := by
    intro rs
    induction rs with
    | nil => exact fun db => List.Sublist.refl _
    | cons r rs ih => exact fun db => (ih _).trans List.filter_sublist
  exact hgen _ db

theorem Typed.step {h : RegisterHub} (ht : Typed d topic h) {ev : Event}
    (hev : TypedCommit d topic h ev) : Typed d topic (step d topic h ev) := by
  cases ev with
  | start =>
    rw [RegisterHub.step, RegisterHub.start]
    split
    · exact loopHead_typed ht.held
    · exact ht
  | resume =>
    obtain ⟨h', hr, ht'⟩ := ht.resume
    rw [RegisterHub.step, hr]
    exact ht'
  | rebaseAtCut ord => exact ⟨ht.held, ht.batch⟩
  | commit es =>
    have hc := h.db.commit_commits (es.filter fun e => (h.db.sqArchive.get e.id).isNone)
    refine ⟨?_, ht.batch⟩
    rintro e ⟨htopic, r, hr, rfl⟩
    rcases hc.added r hr with hold | ⟨-, hnew⟩
    · exact ht.held _ ⟨htopic, r, hold, rfl⟩
    · exact hev _ (List.mem_of_mem_filter hnew) htopic
  | archive p atMs =>
    refine ⟨?_, ht.batch⟩
    rintro e ⟨htopic, r, hr, rfl⟩
    exact ht.held _ ⟨htopic, r, (archiveRows_sublist h.db topic p atMs).subset hr, rfl⟩
  | quarantine p =>
    refine ⟨?_, ht.batch⟩
    rintro e ⟨htopic, r, hr, rfl⟩
    exact ht.held _ ⟨htopic, r, (Db.mem_deleteLogRows.1 hr).1, rfl⟩

theorem Typed.run {h : RegisterHub} (ht : Typed d topic h) {evs : List Event}
    (hevs : RunMeets d topic (TypedCommit d topic) h evs) : Typed d topic (run d topic h evs) := by
  induction evs generalizing h with
  | nil => exact ht
  | cons ev evs ih => exact ih (ht.step hevs.1) hevs.2

theorem Typed.empty : Typed d topic .empty := by
  refine ⟨?_, fun e he => by cases he⟩
  rintro e ⟨-, r, hr, -⟩
  cases hr

theorem watermark_of_quiescent {h : RegisterHub} (hq : h.Quiescent topic) :
    h.db.maxRowid topic ≤ h.lastRowid := by
  have hnil := newRows_eq_nil.1 hq.2
  unfold Db.maxRowid
  cases hmax : ((h.db.sqLog.rows.filter fun r => r.entry.topic = topic).map
      LogRow.rowid).max? with
  | none => exact Nat.zero_le _
  | some m =>
    obtain ⟨r, hr, rfl⟩ := List.mem_map.1 (List.max?_mem hmax)
    obtain ⟨hrow, ht⟩ := List.mem_filter.1 hr
    by_contra hlt
    have hmem : r ∈ rowsPast topic h.db h.lastRowid :=
      List.mem_filter.2 ⟨hrow, by simpa using ⟨of_decide_eq_true ht, not_le.1 hlt⟩⟩
    rw [hnil] at hmem
    cases hmem

end

end RegisterHub

section
variable {d : RegisterDeps}

/-- Exactly the payloads of the right types are folded into every key state. -/
theorem payloadOk_iff {e : LogEntry} :
    PayloadOk d e ↔ ∀ lookup ks key, ∃ r, foldKey d lookup ks key e = .ok r := by
  constructor
  · exact fun hok lookup ks key => foldKey_ok hok lookup ks key
  · intro hall
    by_contra hbad
    obtain ⟨ks, ks', herr⟩ := foldKey_error hbad (fun _ _ => none) []
    obtain ⟨r, hr⟩ := hall (fun _ _ => none) ks []
    rw [hr] at herr
    cases herr

/-- The fold of a list, entry by entry, that stops when one throws. -/
def foldEntries (d : RegisterDeps) (lookup : Lookup) (keys : Keys) (es : List LogEntry) :
    Except Keys Keys :=
  es.foldlM (fun keys e => (foldRegister d lookup keys e).map Prod.fst) keys

theorem foldEntries_ok {lookup : Lookup} {es : List LogEntry} (hok : ∀ e ∈ es, PayloadOk d e)
    (keys : Keys) : foldEntries d lookup keys es = .ok (es.foldl (foldKeys d lookup) keys) := by
  unfold foldEntries
  induction es generalizing keys with
  | nil => rfl
  | cons e es ih =>
    have hone : (foldRegister d lookup keys e).map Prod.fst = .ok (foldKeys d lookup keys e) := by
      unfold foldKeys foldRegister
      cases e.key with
      | none => rfl
      | some key =>
        obtain ⟨r, hr⟩ := foldKey_ok (hok e (by simp)) lookup (keys.state key) key
        simp only [hr]
        rfl
    rw [List.foldlM_cons, hone]
    exact ih (fun x hx => hok x (List.mem_cons_of_mem _ hx)) _

/-- An entry shows on its own key alone, unless another one's causal chain runs through it. -/
theorem state_without {l l' : Lookup} {key : Key} {e : LogEntry} (hkey : e.key ≠ some key)
    {before later : List LogEntry}
    (hwalk : ∀ x ∈ before ++ later, x.key = some key →
      ∀ a, isAncestor l a x = isAncestor l' a x) (keys : Keys) :
    ((before ++ e :: later).foldl (foldKeys d l) keys).state key =
      ((before ++ later).foldl (foldKeys d l') keys).state key := by
  have hfilter : (before ++ e :: later).filter (fun x => decide (x.key = some key)) =
      (before ++ later).filter fun x => decide (x.key = some key) := by
    simp [hkey]
  rw [state_foldl, state_foldl, hfilter]
  apply List.foldl_ext
  intro ks x hx
  obtain ⟨hmem, hk⟩ := List.mem_filter.1 hx
  unfold foldKeyState
  rw [foldKey_congr (hwalk x hmem (of_decide_eq_true hk))]

end

/-- The payloads that no key state rejects are those of the right types. In every run that commits
only such payloads, in every state reached: the pass goes on without throwing, left alone it ends
with the watermark at the last row, and a read folds every entry. An entry does not change what
other entries do to other keys. -/
theorem typed_payloads_never_wedge (d : RegisterDeps) (topic : Topic)
    (evs : List RegisterHub.Event)
    (hevs : RegisterHub.RunMeets d topic (RegisterHub.TypedCommit d topic) .empty evs) :
    let h := RegisterHub.run d topic .empty evs
    (∀ e, PayloadOk d e ↔ ∀ lookup ks key, ∃ r, foldKey d lookup ks key e = .ok r) ∧
      (∃ h', h.resume d topic = .ok h') ∧
      (∃ fuel h', RegisterHub.resumeAll d topic fuel (h.start topic) = .ok h' ∧
        h'.Quiescent topic ∧ h.db.maxRowid topic ≤ h'.lastRowid) ∧
      (∀ ord, foldEntries d (h.db.lookup topic)
          (((h.baseAt ord).map RegisterBase.keys).getD .empty)
          ((after orderOf ((h.baseAt ord).map RegisterBase.ord) (h.db.topicEntries topic)).filter
            fun e => decide (orderOf e ≤ ord)) =
        .ok (h.stateAt d topic ord)) ∧
      ∀ (l l' : Lookup) (key : Key) (e : LogEntry) (before later : List LogEntry) (keys : Keys),
        e.key ≠ some key →
        (∀ x ∈ before ++ later, x.key = some key → ∀ a, isAncestor l a x = isAncestor l' a x) →
        ((before ++ e :: later).foldl (foldKeys d l) keys).state key =
          ((before ++ later).foldl (foldKeys d l') keys).state key := by
  intro h
  have ht : RegisterHub.Typed d topic h := RegisterHub.Typed.empty.run hevs
  refine ⟨fun e => payloadOk_iff, ?_, ?_, fun ord => ?_, fun l l' key e before later keys hkey
    hwalk => state_without hkey hwalk keys⟩
  · obtain ⟨h', hr, -⟩ := ht.resume
    exact ⟨h', hr⟩
  · obtain ⟨fuel, h', hall, hdb, hq⟩ := ht.ends
    refine ⟨fuel, h', hall, hq, ?_⟩
    have hstart : (h.start topic).db = h.db := RegisterHub.start_db h
    rw [← hstart, ← hdb]
    exact RegisterHub.watermark_of_quiescent hq
  · rw [foldEntries_ok, RegisterHub.stateAt_eq]
    intro e he
    exact ht.held e (Db.mem_topicEntries.1 (mem_after.1 (List.mem_of_mem_filter he)).1)

/-- A `resolve` of the key `k`. -/
def resolveEntry (supersedes : JsonValue) : LogEntry where
  topic := "t"
  writer := "a"
  seq := 1
  hlc := ⟨1, 0⟩
  kind := js "resolve"
  key := some (js "k")
  causal := none
  ref := none
  payload := .obj [(js "supersedes", supersedes)]
  chain := "0000000000000000000000000000000000000000000000000000000000000000"

theorem pass_of_resolve_ends :
    ∃ fuel h', RegisterHub.resumeAll plainDeps "t" fuel
      ((RegisterHub.run plainDeps "t" .empty [.commit [resolveEntry (.arr [])]]).start "t") =
        .ok h' ∧ h'.lastRowid ≠ 0 := by
  have hkind : opKind (js "resolve") = .resolve := by decide +kernel
  have hok : PayloadOk plainDeps (resolveEntry (.arr [])) := by
    unfold PayloadOk resolveEntry
    rw [hkind]
    exact ⟨[], rfl, by simp⟩
  have hevs : RegisterHub.RunMeets plainDeps "t" (RegisterHub.TypedCommit plainDeps "t") .empty
      [.commit [resolveEntry (.arr [])]] := by
    refine ⟨fun e he _ => ?_, trivial⟩
    rw [List.mem_singleton.1 he]
    exact hok
  obtain ⟨-, -, ⟨fuel, h', hall, -, hlast⟩, -⟩ := typed_payloads_never_wedge plainDeps "t" _ hevs
  refine ⟨fuel, h', hall, fun hzero => ?_⟩
  rw [hzero] at hlast
  revert hlast
  decide +kernel

/-- Validation accepts a `resolve` whose `supersedes` is not a list, and no pass gets past it. -/
theorem malformed_resolve_wedges :
    (validateEntry (hostEnv "a") (resolveEntry (.bool true))).isOk = true ∧
      let h := RegisterHub.run plainDeps "t" .empty
        [.commit [resolveEntry (.bool true)], .start, .resume, .start, .resume]
      h.pass.isIdle = true ∧ h.lastRowid < h.db.maxRowid "t" ∧
        ((h.start "t").resume plainDeps "t").isOk = false := by
  decide +kernel

end Seqscribe
