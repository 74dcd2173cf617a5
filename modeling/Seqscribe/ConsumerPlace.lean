import Seqscribe.ConsumerCursors
import Seqscribe.ViewFold

namespace Seqscribe
set_option autoImplicit true

/-! An active consumer keeps its place. -/

variable {env : Env}

/-- No row is offered whose callback, or the callback of a later row, has resolved before. -/
def NoRedelivery (events : List ConsumerEvent) : Prop :=
  events.Pairwise fun e e' => ∀ row row', e = .resolved row → e' = .offered row' →
    row.rowid < row'.rowid

namespace Consumer

variable {c : Consumer} {n : Nat}

/-- What has resolved lies at or below the cursor. -/
structure Past (c : Consumer) (n : Nat) : Prop where
  passed : ∀ row, .resolved row ∈ c.events → row.rowid ≤ n
  once : NoRedelivery c.events

/-- The batch in progress lies beyond the cursor. -/
structure InPlace (c : Consumer) (n : Nat) : Prop extends Past c n where
  batch : ∀ row rest, c.drain = .calling row rest →
    n < row.rowid ∧ (row :: rest).Pairwise fun r r' => r.rowid < r'.rowid

theorem offer_same (c : Consumer) (rows : List LogRow) :
    (c.offer rows).topic = c.topic ∧ (c.offer rows).name = c.name := by
  cases rows with
  | nil => exact ⟨rfl, rfl⟩
  | cons => exact ⟨rfl, rfl⟩

theorem topic_pump (db : Db) (c : Consumer) : (c.pump db).topic = c.topic := by
  rw [Consumer.pump]
  split
  · rfl
  · exact (offer_same ..).1

theorem name_pump (db : Db) (c : Consumer) : (c.pump db).name = c.name := by
  rw [Consumer.pump]
  split
  · rfl
  · exact (offer_same ..).2

/-- Waiters come and go. -/
theorem Past.waits {c' : Consumer} (h : c.Past n) {es : List ConsumerEvent}
    (hevents : c'.events = c.events ++ es)
    (hes : ∀ e ∈ es, ∀ row, e ≠ .offered row ∧ e ≠ .resolved row) : c'.Past n := by
  refine ⟨fun row hrow => ?_, ?_⟩
  · rw [hevents, List.mem_append] at hrow
    exact hrow.elim (h.passed row) fun hin => absurd rfl (hes _ hin row).2
  · rw [NoRedelivery, hevents, List.pairwise_append]
    refine ⟨h.once, ?_, fun e _ e' he' row row' _ heq => absurd heq (hes e' he' row').1⟩
    apply List.Pairwise.imp_of_mem (R := fun _ _ => True) _ (List.pairwise_of_forall fun _ _ => trivial)
    intro e e' _ he' _ row row' _ heq
    exact absurd heq (hes e' he' row').1

theorem Past.offer (h : c.Past n) {rows : List LogRow}
    (hrows : rows.Pairwise fun r r' => r.rowid < r'.rowid) (hlt : ∀ r ∈ rows, n < r.rowid) :
    (c.offer rows).InPlace n := by
  cases rows with
  | nil => exact ⟨⟨h.passed, h.once⟩, fun _ _ hdrain => nomatch hdrain⟩
  | cons row rest =>
    refine ⟨⟨fun row' hrow => ?_, ?_⟩, fun row' rest' hdrain => ?_⟩
    · rcases List.mem_append.1 hrow with hrow | hrow
      · exact h.passed row' hrow
      · cases List.mem_singleton.1 hrow
    · refine List.pairwise_append.2 ⟨h.once, List.pairwise_singleton .., ?_⟩
      intro e he e' he' r r' heq heq'
      rw [List.mem_singleton.1 he'] at heq'
      rw [← ConsumerEvent.offered.inj heq']
      exact lt_of_le_of_lt (h.passed r (heq ▸ he)) (hlt row List.mem_cons_self)
    · cases hdrain
      exact ⟨hlt row List.mem_cons_self, hrows⟩

theorem Past.read (h : c.Past n) {db : Db} (hdb : db.Numbered) (hn : c.cursor db = n) :
    (c.read db).InPlace n := by
  apply h.offer
  · have hle := (Table.pairwise_selectBy db.sqLog
      (fun r => decide (r.entry.topic = c.topic ∧ c.cursor db < r.rowid)) (·.rowid)).sublist
        (List.take_sublist BATCH _)
    have hnodup : (db.entriesForTopicFromRowid c.topic (c.cursor db) BATCH).Nodup :=
      (((List.perm_insertionSort _ _).nodup_iff).2 (db.sqLog.nodup.of_map.filter _)).sublist
        (List.take_sublist BATCH _)
    refine (hle.and hnodup).imp_of_mem fun {r r'} hr hr' hboth => ?_
    apply lt_of_le_of_ne hboth.1
    intro heq
    have hrowids : (db.sqLog.rows.map LogRow.rowid).Nodup :=
      List.pairwise_map.2 (hdb.sorted.imp fun h => Nat.ne_of_lt h)
    exact hboth.2 (List.inj_on_of_nodup_map hrowids (Db.mem_entriesForTopicFromRowid hr).1
      (Db.mem_entriesForTopicFromRowid hr').1 heq)
  · intro r hr
    exact hn ▸ (Db.mem_entriesForTopicFromRowid hr).2.2

theorem InPlace.pump (h : c.InPlace n) {db : Db} (hdb : db.Numbered) (hn : c.cursor db = n) :
    (c.pump db).InPlace n := by
  rw [Consumer.pump]
  split
  · exact ⟨⟨h.passed, h.once⟩, h.batch⟩
  · exact h.toPast.read hdb hn

/-- The callback of a row has resolved. -/
theorem InPlace.resolve (h : c.InPlace n) (hdrain : c.drain = .calling row rest) :
    ((c.note (.resolved row)).resolveWaiters row.rowid).Past row.rowid := by
  have hlt := (h.batch row rest hdrain).1
  have hnote : (c.note (.resolved row)).Past row.rowid := by
    refine ⟨fun row' hrow => ?_, ?_⟩
    · rcases List.mem_append.1 hrow with hrow | hrow
      · exact (h.passed row' hrow).trans (Nat.le_of_lt hlt)
      · obtain rfl := ConsumerEvent.resolved.inj (List.mem_singleton.1 hrow)
        exact Nat.le_refl _
    · refine List.pairwise_append.2 ⟨h.once, List.pairwise_singleton .., ?_⟩
      intro e _ e' he' r r' _ heq
      obtain rfl := List.mem_singleton.1 he'
      cases heq
  apply hnote.waits rfl
  intro e he row'
  obtain ⟨w, -, rfl⟩ := List.mem_map.1 he
  exact ⟨nofun, nofun⟩

end Consumer

namespace ConsumerHub

variable {h t u : ConsumerHub} {c c' d : Consumer} {key : ConsumerKey}

def cursorOf (h : ConsumerHub) (c : Consumer) : Option CursorRow :=
  h.core.db.sqCursors.get (c.name, c.topic)

/-- Every registered consumer has a cursor row, and is in place there. -/
structure Placed (env : Env) (h : ConsumerHub) : Prop where
  coherent : h.core.Coherent env
  numbered : h.core.logState.Numbered
  consumers : ∀ c ∈ h.consumers.rows, ∃ row, h.cursorOf c = some row ∧ c.InPlace row.lastRowid

theorem Placed.db (h : Placed env t) : t.core.db.Numbered := ⟨h.numbered.1, h.numbered.2⟩

/-- The cursor of a consumer that stays registered does not move backwards. -/
def Follows (key : ConsumerKey) (t u : ConsumerHub) : Prop :=
  ∀ c row, t.consumers.get key = some c → t.cursorOf c = some row →
    ∃ c' row', u.consumers.get key = some c' ∧ u.cursorOf c' = some row' ∧
      row.lastRowid ≤ row'.lastRowid

theorem Follows.refl (key : ConsumerKey) (t : ConsumerHub) : Follows key t t :=
  fun c row hc hrow => ⟨c, row, hc, hrow, Nat.le_refl _⟩

theorem Follows.trans (h : Follows key t u) (h' : Follows key u v) : Follows key t v := by
  intro c row hc hrow
  obtain ⟨c₁, row₁, hc₁, hrow₁, hle₁⟩ := h c row hc hrow
  obtain ⟨c₂, row₂, hc₂, hrow₂, hle₂⟩ := h' c₁ row₁ hc₁ hrow₁
  exact ⟨c₂, row₂, hc₂, hrow₂, hle₁.trans hle₂⟩

/-- Every consumer stays registered, and in its place or further on. -/
structure Advances (env : Env) (t u : ConsumerHub) : Prop where
  placed : Placed env u
  follows : ∀ key, Follows key t u

theorem Advances.refl (h : Placed env t) : Advances env t t := ⟨h, fun key => .refl key t⟩

theorem Advances.trans (h : Advances env t u) (h' : Advances env u v) : Advances env t v :=
  ⟨h'.placed, fun key => (h.follows key).trans (h'.follows key)⟩

theorem cursor_of_cursorOf (h : t.cursorOf c = some row) : c.cursor t.core.db = row.lastRowid := by
  rw [Consumer.cursor, Db.cursorGet]
  rw [cursorOf] at h
  rw [h]
  rfl

/-- The consumers are the same, and so are their cursors. -/
theorem Placed.onLog (h : Placed env t) {core : Core} (hcoh : core.Coherent env)
    (hnum : core.logState.Numbered)
    (hsame : ∀ c ∈ t.consumers.rows, core.db.sqCursors.get (c.name, c.topic) = t.cursorOf c) :
    Advances env t { t with core := core } := by
  refine ⟨⟨hcoh, hnum, fun c hc => ?_⟩, fun key c row hc hrow => ?_⟩
  · obtain ⟨row, hrow, hplace⟩ := h.consumers c hc
    exact ⟨row, (hsame c hc).trans hrow, hplace⟩
  · refine ⟨c, row, hc, ?_, Nat.le_refl _⟩
    exact (hsame c (Table.get_eq_some_iff.1 hc).1).trans hrow

/-- One consumer changes, and no cursor does. -/
theorem Placed.set (h : Placed env t) (hget : t.consumers.get key = some c)
    (htopic : c'.topic = c.topic) (hname : c'.name = c.name)
    (hplace : ∀ row, t.cursorOf c = some row → c.InPlace row.lastRowid →
      c'.InPlace row.lastRowid) : Advances env t (t.set c') := by
  obtain ⟨hc, hkey⟩ := Table.get_eq_some_iff.1 hget
  have hcursor (u : ConsumerHub) : u.cursorOf c' = u.cursorOf c := by
    rw [cursorOf, cursorOf, htopic, hname]
  have hkey' : c'.key = key := by
    rw [Consumer.key, htopic, hname]
    exact hkey
  refine ⟨⟨h.coherent, h.numbered, fun d hd => ?_⟩, fun k d row hd hrow => ?_⟩
  · rcases Table.mem_upsert.1 hd with rfl | ⟨hd, -⟩
    · obtain ⟨row, hrow, hin⟩ := h.consumers c hc
      exact ⟨row, (hcursor t).trans hrow, hplace row hrow hin⟩
    · exact h.consumers d hd
  · by_cases hk : k = key
    · subst hk
      obtain rfl := Option.some.inj (hget.symm.trans hd)
      refine ⟨c', row, ?_, (hcursor t).trans hrow, Nat.le_refl _⟩
      rw [ConsumerHub.set, Table.get_upsert, if_pos hkey']
    · refine ⟨d, row, ?_, hrow, Nat.le_refl _⟩
      rw [ConsumerHub.set, Table.get_upsert, if_neg fun heq => hk (heq.symm.trans hkey')]
      exact hd

theorem Placed.pumpAt (h : Placed env t) (key : ConsumerKey) : Advances env t (t.pumpAt key) := by
  rw [ConsumerHub.pumpAt]
  split
  next => exact .refl h
  next c hget =>
    apply h.set hget (Consumer.topic_pump ..) (Consumer.name_pump ..)
    intro row hrow hin
    exact hin.pump h.db (cursor_of_cursorOf hrow)

theorem Advances.foldl {step : ConsumerHub → α → ConsumerHub}
    (hstep : ∀ t a, Placed env t → Advances env t (step t a)) (h : Advances env t u)
    (as : List α) : Advances env t (as.foldl step u) := by
  induction as generalizing u with
  | nil => exact h
  | cons a as ih => exact ih (h.trans (hstep u a h.placed))

theorem Placed.notifyApplied (h : Placed env t) (topic : Topic) :
    Advances env t (t.notifyApplied topic) :=
  .foldl (fun _ key ht => ht.pumpAt key) (.refl h) _

theorem key_ne (h : d.key ≠ c.key) : ¬ (c.name, c.topic) = (d.name, d.topic) := by
  intro heq
  obtain ⟨hname, htopic⟩ := Prod.mk.inj heq
  apply h
  rw [Consumer.key, Consumer.key, hname, htopic]

/-- A consumer sets its cursor. -/
theorem Placed.move (h : Placed env t) (hget : t.consumers.get key = some c)
    (htopic : c'.topic = c.topic) (hname : c'.name = c.name) {m now : Nat}
    (hle : ∀ row, t.cursorOf c = some row → row.lastRowid ≤ m) (hplace : c'.InPlace m) :
    Advances env t ((t.onCore fun db => db.cursorSet c.name c.topic m now).set c') := by
  obtain ⟨hc, hkey⟩ := Table.get_eq_some_iff.1 hget
  have hkey' : c'.key = c.key := by rw [Consumer.key, Consumer.key, htopic, hname]
  have hown : ((t.onCore fun db => db.cursorSet c.name c.topic m now).set c').cursorOf c' =
      some ⟨c.name, c.topic, m, now⟩ := by
    rw [cursorOf, hname, htopic]
    exact (Table.get_upsert ..).trans (if_pos rfl)
  have hother (d : Consumer) (hd : d.key ≠ c.key) :
      ((t.onCore fun db => db.cursorSet c.name c.topic m now).set c').cursorOf d = t.cursorOf d :=
    (Table.get_upsert ..).trans (if_neg (key_ne hd))
  refine ⟨⟨⟨h.coherent.1, h.coherent.2, h.coherent.3, h.coherent.4, h.coherent.5⟩, h.numbered,
    fun d hd => ?_⟩, fun k d row hd hrow => ?_⟩
  · rcases Table.mem_upsert.1 hd with rfl | ⟨hd, hne⟩
    · exact ⟨_, hown, hplace⟩
    · obtain ⟨row, hrow, hin⟩ := h.consumers d hd
      exact ⟨row, (hother d (hkey' ▸ hne)).trans hrow, hin⟩
  · by_cases hk : k = key
    · subst hk
      obtain rfl := Option.some.inj (hget.symm.trans hd)
      refine ⟨c', _, ?_, hown, hle row hrow⟩
      rw [ConsumerHub.set, Table.get_upsert, if_pos (hkey'.trans hkey)]
    · have hne : d.key ≠ c.key := by
        rw [hkey, (Table.get_eq_some_iff.1 hd).2]
        exact hk
      refine ⟨d, row, ?_, (hother d hne).trans hrow, Nat.le_refl _⟩
      rw [ConsumerHub.set, Table.get_upsert, if_neg fun heq => hk (heq.symm.trans (hkey'.trans hkey))]
      exact hd

theorem Placed.resolved (h : Placed env t) (hstep : t.resolved key now = some u) :
    Advances env t u := by
  rw [ConsumerHub.resolved] at hstep
  split at hstep
  next => cases hstep
  next c hget =>
    split at hstep
    next row rest hdrain =>
      obtain rfl := Option.some.inj hstep
      obtain ⟨cursor, hcursor, hin⟩ := h.consumers c (Table.get_eq_some_iff.1 hget).1
      have hpast := hin.resolve hdrain
      obtain ⟨hlt, hsorted⟩ := hin.batch row rest hdrain
      have hle : ∀ row', t.cursorOf c = some row' → row'.lastRowid ≤ row.rowid := by
        intro row' hrow'
        obtain rfl := Option.some.inj (hcursor.symm.trans hrow')
        exact Nat.le_of_lt hlt
      have hsame (rows : List LogRow) := Consumer.offer_same
        ((c.note (.resolved row)).resolveWaiters row.rowid) rows
      split
      next =>
        apply h.move hget
        · exact (hsame _).1
        · exact (hsame _).2
        · exact hle
        apply hpast.read
        · exact ⟨h.numbered.1, h.numbered.2⟩
        · rw [Consumer.cursor, Db.cursorGet]
          exact congrArg (fun r => (Option.map CursorRow.lastRowid r).getD 0)
            ((Table.get_upsert ..).trans (if_pos rfl))
      next =>
        apply h.move hget
        · exact (hsame _).1
        · exact (hsame _).2
        · exact hle
        obtain ⟨hfirst, hrest⟩ := List.pairwise_cons.1 hsorted
        exact hpast.offer hrest hfirst
    next => cases hstep

theorem Placed.failed (h : Placed env t) (hstep : t.failed key now = some u) :
    Advances env t u := by
  rw [ConsumerHub.failed] at hstep
  split at hstep
  next => cases hstep
  next c hget =>
    split at hstep
    next =>
      obtain rfl := Option.some.inj hstep
      obtain ⟨cursor, hcursor, hin⟩ := h.consumers c (Table.get_eq_some_iff.1 hget).1
      have hmove : Advances env t
          ((t.onCore fun db => db.cursorSet c.name c.topic cursor.lastRowid now).set
            { c with drain := .over, retryTimer := true }) := by
        apply h.move hget
        · rfl
        · rfl
        · intro row' hrow'
          obtain rfl := Option.some.inj (hcursor.symm.trans hrow')
          exact Nat.le_refl _
        · exact ⟨⟨hin.passed, hin.once⟩, fun _ _ hdrain => nomatch hdrain⟩
      rw [← cursor_of_cursorOf hcursor] at hmove
      exact hmove
    next => cases hstep

theorem Placed.settled (h : Placed env t) (hstep : t.settled key = some u) :
    Advances env t u := by
  rw [ConsumerHub.settled] at hstep
  split at hstep
  next => cases hstep
  next c hget =>
    split at hstep
    next =>
      obtain rfl := Option.some.inj hstep
      dsimp only
      split
      next =>
        apply h.set hget
        · exact Consumer.topic_pump ..
        · exact Consumer.name_pump ..
        intro row hrow hin
        have hidle : ({ c with drain := .idle, rerun := false } : Consumer).InPlace row.lastRowid :=
          ⟨⟨hin.passed, hin.once⟩, fun _ _ hdrain => nomatch hdrain⟩
        exact hidle.pump h.db (cursor_of_cursorOf hrow)
      next =>
        apply h.set hget
        · rfl
        · rfl
        exact fun row _ hin => ⟨⟨hin.passed, hin.once⟩, fun _ _ hdrain => nomatch hdrain⟩
    next => cases hstep

theorem Placed.retry (h : Placed env t) (hstep : t.retry key = some u) : Advances env t u := by
  rw [ConsumerHub.retry] at hstep
  split at hstep
  next => cases hstep
  next c hget =>
    split at hstep
    next =>
      obtain rfl := Option.some.inj hstep
      apply h.set hget
      · exact Consumer.topic_pump ..
      · exact Consumer.name_pump ..
      intro row hrow hin
      have hfired : ({ c with retryTimer := false } : Consumer).InPlace row.lastRowid :=
        ⟨⟨hin.passed, hin.once⟩, hin.batch⟩
      exact hfired.pump h.db (cursor_of_cursorOf hrow)
    next => cases hstep

theorem Placed.caughtUp (h : Placed env t) (hstep : t.caughtUp env topic name = some u) :
    Advances env t u := by
  rw [ConsumerHub.caughtUp] at hstep
  split at hstep
  next => cases hstep
  next =>
    obtain ⟨c, hget, rfl⟩ := Option.map_eq_some_iff.1 hstep
    dsimp only
    split
    next =>
      apply h.set hget
      · rfl
      · rfl
      intro row _ hin
      refine ⟨hin.toPast.waits (List.append_assoc ..) ?_, hin.batch⟩
      intro e he row'
      rcases List.mem_cons.1 he with rfl | he
      · exact ⟨by simp, by simp⟩
      · obtain rfl := List.mem_singleton.1 he
        exact ⟨by simp, by simp⟩
    next =>
      apply h.set hget
      · rfl
      · rfl
      intro row _ hin
      refine ⟨hin.toPast.waits rfl ?_, hin.batch⟩
      intro e he row'
      obtain rfl := List.mem_singleton.1 he
      exact ⟨by simp, by simp⟩

/-- A write to the cursors that leaves those of the registered consumers. -/
theorem Placed.write (h : Placed env t) {f : Db → Db}
    (hf : f t.core.db = { t.core.db with sqCursors := (f t.core.db).sqCursors })
    (hsame : ∀ c ∈ t.consumers.rows,
      (f t.core.db).sqCursors.get (c.name, c.topic) = t.cursorOf c) :
    Advances env t (t.onCore f) := by
  have hcore : ({ t.core with db := f t.core.db } : Core).Coherent env ∧
      ({ t.core with db := f t.core.db } : Core).logState.Numbered := by
    rw [hf]
    exact ⟨⟨h.coherent.1, h.coherent.2, h.coherent.3, h.coherent.4, h.coherent.5⟩, h.numbered⟩
  exact h.onLog hcore.1 hcore.2 hsame

/-- A registered consumer is active under its name. -/
theorem id_ne_of_inactive (hinactive : t.isActive topic name = false) (hc : c ∈ t.consumers.rows) :
    ¬ (name, topic) = (c.name, c.topic) := by
  intro heq
  obtain ⟨rfl, rfl⟩ := Prod.mk.inj heq
  have hget : t.consumers.get (c.topic, c.name) = some c := Table.get_of_mem hc
  rw [isActive, hget] at hinactive
  cases hinactive

theorem Placed.cursorDelete (h : Placed env t) (hinactive : t.isActive topic name = false) :
    Advances env t (t.cursorDelete name topic) := by
  apply h.write rfl
  intro c hc
  exact (Table.get_delete ..).trans (if_neg (id_ne_of_inactive hinactive hc))

theorem Placed.resetConsumer (h : Placed env t)
    (hstep : t.resetConsumer env topic name head now = some u) : Advances env t u := by
  rw [ConsumerHub.resetConsumer] at hstep
  split at hstep
  next hinactive =>
    obtain rfl := Option.some.inj hstep
    rw [inactive, Bool.and_eq_true, Bool.not_eq_true'] at hinactive
    apply h.write rfl
    intro c hc
    exact (Table.get_upsert ..).trans (if_neg (id_ne_of_inactive hinactive.2 hc))
  next => cases hstep

theorem Placed.deleteConsumer (h : Placed env t)
    (hstep : t.deleteConsumer env topic name = some u) : Advances env t u := by
  rw [ConsumerHub.deleteConsumer] at hstep
  split at hstep
  next hinactive =>
    obtain rfl := Option.some.inj hstep
    rw [inactive, Bool.and_eq_true, Bool.not_eq_true'] at hinactive
    exact h.cursorDelete hinactive.2
  next => cases hstep

theorem Placed.pruneConsumers (h : Placed env t)
    (hstep : t.pruneConsumers env topic names before = some u) : Advances env t u := by
  rw [ConsumerHub.pruneConsumers] at hstep
  split at hstep
  next => cases hstep
  next =>
    obtain rfl := Option.some.inj hstep
    have hrows : ∀ rows : List CursorRow, (∀ r ∈ rows, t.isActive topic r.consumer = false) →
        ∀ u, Advances env t u → u.consumers = t.consumers →
          Advances env t (rows.foldl (fun h r => h.cursorDelete r.consumer topic) u) := by
      intro rows
      induction rows with
      | nil => exact fun _ u hu _ => hu
      | cons r rows ih =>
        intro hinactive u hu hsame
        have hr : u.isActive topic r.consumer = false := by
          rw [isActive, hsame]
          exact hinactive r List.mem_cons_self
        exact ih (fun r' hr' => hinactive r' (List.mem_cons_of_mem r hr')) _
          (hu.trans (hu.placed.cursorDelete hr)) hsame
    apply hrows _ _ t (.refl h) rfl
    intro r hr
    have hlet := (List.mem_filter.1 hr).2
    rw [Bool.and_eq_true, Bool.and_eq_true, Bool.not_eq_true'] at hlet
    exact hlet.1.1

theorem Placed.onEntry (h : Placed env t) (hstep : t.onEntry env topic name now = some u) :
    Advances env t u := by
  rw [ConsumerHub.onEntry] at hstep
  split at hstep
  next => cases hstep
  next policy _ =>
    split at hstep
    next => cases hstep
    next hfree =>
      obtain rfl := Option.some.inj hstep
      have hnone : t.isActive topic name = false := by
        rw [not_or, not_or] at hfree
        exact Bool.eq_false_iff.2 hfree.2.2
      let row := ((t.core.db.sqCursors.get (name, topic)).getD ⟨name, topic, 0, now⟩)
      let db := if (t.core.db.sqCursors.get (name, topic)).isSome then t.core.db
        else t.core.db.cursorSet name topic 0 now
      have hdb : Advances env t (t.onCore fun _ => db) ∧
          db.sqCursors.get (name, topic) = some row := by
        by_cases hsome : (t.core.db.sqCursors.get (name, topic)).isSome
        · have heq : db = t.core.db := if_pos hsome
          obtain ⟨found, hfound⟩ := Option.isSome_iff_exists.1 hsome
          refine ⟨?_, ?_⟩
          · rw [heq]
            exact h.write rfl fun _ _ => rfl
          · rw [heq, hfound]
            exact congrArg some (congrArg (Option.getD · _) hfound).symm
        · have heq : db = t.core.db.cursorSet name topic 0 now := if_neg hsome
          have hget : t.core.db.sqCursors.get (name, topic) = none := by simpa using hsome
          rw [heq]
          refine ⟨h.write rfl fun c hc => ?_, ?_⟩
          · exact (Table.get_upsert ..).trans (if_neg (id_ne_of_inactive hnone hc))
          · refine ((Table.get_upsert ..).trans (if_pos rfl)).trans ?_
            exact congrArg some (congrArg (Option.getD · _) hget).symm
      obtain ⟨hwritten, hrow⟩ := hdb
      have hfresh : Advances env t ((t.onCore fun _ => db).set (.fresh topic name)) := by
        refine ⟨⟨hwritten.placed.coherent, hwritten.placed.numbered, fun c hc => ?_⟩, ?_⟩
        · rcases Table.mem_upsert.1 hc with rfl | ⟨hc, -⟩
          · refine ⟨row, hrow, ⟨fun _ hr => ?_, ?_⟩, fun _ _ hdrain => by cases hdrain⟩
            · exact absurd hr List.not_mem_nil
            · exact List.Pairwise.nil
          · exact hwritten.placed.consumers c hc
        · intro key c r hc hr
          obtain ⟨c', r', hc', hr', hle⟩ := hwritten.follows key c r hc hr
          refine ⟨c', r', ?_, hr', hle⟩
          rw [ConsumerHub.set, Table.get_upsert, if_neg]
          · exact hc'
          · rintro rfl
            have hget : t.isActive topic name = true := Option.isSome_iff_exists.2 ⟨c, hc⟩
            cases hget.symm.trans hnone
      exact hfresh.trans (hfresh.placed.pumpAt _)

/-- No archive pass meets the cursor of an active consumer that is older than the window. -/
def SparesActive (env : Env) (h : ConsumerHub) : Action env → Prop
  | .log (.archiveNow topic now _) =>
    ∀ c ∈ h.consumers.rows, ¬ Abandons env h.core topic now (c.name, c.topic)
  | _ => True

/-- The consumer stays registered. -/
def Stays (key : ConsumerKey) : Action env → Prop
  | .unsubscribe key' => key' ≠ key
  | .close | .restart => False
  | _ => True

theorem Placed.log (h : Placed env t) (i : Input env) (hforeign : foreign i = false)
    (hspares : SparesActive env t (.log i)) :
    Advances env t (t.afterLog (Seqscribe.step env t.core i)) := by
  have hcore : Advances env t { t with core := (Seqscribe.step env t.core i).core } := by
    apply h.onLog (step_coherent i h.coherent) (step_numbered i h.coherent h.numbered)
    intro c hc
    by_cases hpass : ∃ topic now fault, i = .archiveNow topic now fault
    · obtain ⟨topic, now, fault, rfl⟩ := hpass
      rcases archiveNow_cursors topic now fault (c.name, c.topic) with heq | ⟨-, hgone⟩
      · exact heq
      · exact absurd hgone (hspares c hc)
    · rw [step_cursors i hforeign fun topic now fault heq => hpass ⟨topic, now, fault, heq⟩]
      rfl
  exact .foldl (fun _ a ht => ht.notifyApplied a.entry.topic) hcore _

/-- What a step keeps: the consumers are placed, and those that stay do not go back. -/
theorem Placed.step (h : Placed env t) {a : Action env} (hspares : SparesActive env t a)
    (hstep : ConsumerHub.step env t a = some u) :
    Placed env u ∧ ∀ key, Stays key a → Follows key t u := by
  have hall (hadv : Advances env t u) : Placed env u ∧ ∀ key, Stays key a → Follows key t u :=
    ⟨hadv.placed, fun key _ => hadv.follows key⟩
  cases a with
  | log i =>
    rw [ConsumerHub.step] at hstep
    split at hstep
    next => cases hstep
    next hforeign =>
      obtain rfl := Option.some.inj hstep
      exact hall (h.log i (Bool.eq_false_iff.2 hforeign) hspares)
  | onEntry topic name now => exact hall (h.onEntry hstep)
  | unsubscribe key' =>
    obtain rfl := Option.some.inj hstep
    refine ⟨⟨h.coherent, h.numbered, fun c hc => ?_⟩, fun key hstays c row hc hrow => ?_⟩
    · exact h.consumers c (List.mem_of_mem_filter hc)
    · refine ⟨c, row, ?_, hrow, Nat.le_refl _⟩
      rw [Table.get_delete, if_neg hstays]
      exact hc
  | resetConsumer topic name head now => exact hall (h.resetConsumer hstep)
  | deleteConsumer topic name => exact hall (h.deleteConsumer hstep)
  | pruneConsumers topic names before => exact hall (h.pruneConsumers hstep)
  | caughtUp topic name => exact hall (h.caughtUp hstep)
  | resolved key now => exact hall (h.resolved hstep)
  | failed key now => exact hall (h.failed hstep)
  | settled key => exact hall (h.settled hstep)
  | retry key => exact hall (h.retry hstep)
  | close =>
    obtain rfl := Option.some.inj hstep
    exact ⟨⟨h.coherent, h.numbered, fun _ hc => absurd hc List.not_mem_nil⟩,
      fun _ hstays => hstays.elim⟩
  | restart =>
    obtain rfl := Option.some.inj hstep
    exact ⟨⟨step_coherent .restart h.coherent, h.numbered, fun _ hc => absurd hc List.not_mem_nil⟩,
      fun _ hstays => hstays.elim⟩

theorem placed_init : Placed env init where
  coherent := Core.coherent_init
  numbered := ⟨List.Pairwise.nil, fun _ hr => absurd hr List.not_mem_nil⟩
  consumers := fun _ hc => absurd hc List.not_mem_nil

/-- In every run whose archive passes spare the active consumers, a consumer that stays registered
keeps its cursor row, which does not move backwards, and no row is offered to it after its callback,
or that of a later row, has resolved. -/
theorem active_consumers_keep_place {as bs : List (Action env)}
    (hrun : Trace (ConsumerHub.step env) (SparesActive env) init as t)
    (hc : t.consumers.get key = some c)
    (hlater : Trace (ConsumerHub.step env) (fun h a => SparesActive env h a ∧ Stays key a) t bs u) :
    ∃ c' row row', u.consumers.get key = some c' ∧ t.cursorOf c = some row ∧
      u.cursorOf c' = some row' ∧ row.lastRowid ≤ row'.lastRowid ∧ NoRedelivery c'.events := by
  have ht : Placed env t := by
    apply hrun.keeps (Placed env) placed_init
    intro t a u ht hspares hstep
    exact (ht.step hspares hstep).1
  have hu : Placed env u ∧ Follows key t u := by
    apply hlater.keeps (fun u => Placed env u ∧ Follows key t u) ⟨ht, .refl key t⟩
    intro u a v hu hok hstep
    obtain ⟨hv, hfollows⟩ := hu.1.step hok.1 hstep
    exact ⟨hv, hu.2.trans (hfollows key hok.2)⟩
  obtain ⟨row, hrow, -⟩ := ht.consumers c (Table.get_eq_some_iff.1 hc).1
  obtain ⟨c', row', hc', hrow', hle⟩ := hu.2 c row hc hrow
  obtain ⟨row'', hrow'', hin⟩ := hu.1.consumers c' (Table.get_eq_some_iff.1 hc').1
  exact ⟨c', row, row', hc', hrow, hrow', hle, hin.once⟩

/-- A certificate that covers nothing. -/
def emptyCut : FinalityCert where
  topic := "t"
  order := ⟨0, 0, "", 0⟩
  cut := .empty
  generation := 1
  authority := "authority"
  sig := "sig"

/-- A consumer registers, an entry is appended and its callback resolves; then comes a certificate
that does not cover it. -/
def consumeFirst : List (Action (hostEnv "a")) :=
  [.onEntry "t" "c" 1, .settled ("t", "c"), .log (hostFlush "a" 1 [hostAppend "a"]), .resolved ("t", "c") 1,
    .settled ("t", "c"), .log (hostFlush "a" 2 [.cert emptyCut])]

/-- An archive pass, and another entry. -/
def passThenAppend (now : Nat) : List (Action (hostEnv "a")) :=
  [.log (.archiveNow "t" now none), .log (hostFlush "a" now [hostAppend "a"])]

/-- The hub at the end of a run. -/
def runHub (as : List (Action (hostEnv "a"))) : Option ConsumerHub :=
  runTrace (ConsumerHub.step (hostEnv "a")) (fun _ _ => True) init as

/-- An archive pass within the first window abandons no one. -/
theorem sparesActive_of_early (h : ConsumerHub) {topic : Topic} {now : Nat} {fault : Option Nat}
    (hnow : now ≤ env.constants.FINALITY_WINDOW_MS) :
    SparesActive env h (.log (.archiveNow topic now fault)) := by
  rintro c - ⟨-, row, -, -, hold⟩
  omega

theorem active_consumers_keep_place_of_early_pass : ∃ t u c c' row row',
    Trace (ConsumerHub.step (hostEnv "a")) (SparesActive (hostEnv "a")) init consumeFirst t ∧
    Trace (ConsumerHub.step (hostEnv "a"))
      (fun h a => SparesActive (hostEnv "a") h a ∧ Stays ("t", "c") a) t (passThenAppend 3) u ∧
    u.consumers.get ("t", "c") = some c' ∧ t.cursorOf c = some row ∧ u.cursorOf c' = some row' ∧
      row.lastRowid ≤ row'.lastRowid ∧ NoRedelivery c'.events := by
  have hruns : ((runHub consumeFirst).any fun t => (t.consumers.get ("t", "c")).isSome &&
      (runTrace (ConsumerHub.step (hostEnv "a")) (fun _ _ => True) t
        (passThenAppend 3)).isSome) = true := by
    decide +kernel
  obtain ⟨t, ht, hboth⟩ := (Option.any_eq_true ..).1 hruns
  obtain ⟨hactive, hlater⟩ := Bool.and_eq_true_iff.1 hboth
  obtain ⟨c, hc⟩ := Option.isSome_iff_exists.1 hactive
  obtain ⟨u, hu⟩ := Option.isSome_iff_exists.1 hlater
  have hrun : Trace (ConsumerHub.step (hostEnv "a")) (SparesActive (hostEnv "a")) init
      consumeFirst t := by
    apply (Trace.of_runTrace ht).of_mem
    intro s a ha
    simp only [consumeFirst, List.mem_cons, List.not_mem_nil, or_false] at ha
    rcases ha with rfl | rfl | rfl | rfl | rfl | rfl <;> exact trivial
  have hrest : Trace (ConsumerHub.step (hostEnv "a"))
      (fun h a => SparesActive (hostEnv "a") h a ∧ Stays ("t", "c") a) t (passThenAppend 3) u := by
    apply (Trace.of_runTrace hu).of_mem
    intro s a ha
    rcases List.mem_cons.1 ha with rfl | ha
    · exact ⟨sparesActive_of_early s (by decide), trivial⟩
    · obtain rfl := List.mem_singleton.1 ha
      exact ⟨trivial, trivial⟩
  obtain ⟨c', row, row', hplaced⟩ := active_consumers_keep_place hrun hc hrest
  exact ⟨t, u, c, c', row, row', hrun, hrest, hplaced⟩

/-- A row that is offered after its callback has resolved. -/
def offeredAgain : List ConsumerEvent → Bool
  | [.offered _, .resolved r, .offered r'] => decide (r'.rowid ≤ r.rowid)
  | _ => false

theorem not_noRedelivery {events : List ConsumerEvent} (h : offeredAgain events = true) :
    ¬ NoRedelivery events := by
  rw [offeredAgain.eq_def] at h
  split at h
  next r r' r'' =>
    intro honce
    have hlt := (List.pairwise_cons.1 (List.pairwise_cons.1 honce).2).1 _ List.mem_cons_self r' r''
      rfl rfl
    exact absurd (of_decide_eq_true h) (Nat.not_le_of_lt hlt)
  next => cases h

/-- A consumer that has taken every entry and then stays idle for longer than the window loses its
cursor to the archive pass, and the next entry brings it the first one again. -/
theorem idle_consumer_redelivered : ∃ t u,
    Trace (ConsumerHub.step (hostEnv "a")) (fun _ _ => True) init
      (consumeFirst ++ (passThenAppend 2592000003).take 1) t ∧
    (∃ c ∈ t.consumers.rows, t.cursorOf c = none) ∧
    Trace (ConsumerHub.step (hostEnv "a")) (fun _ _ => True) init
      (consumeFirst ++ passThenAppend 2592000003) u ∧
    ∃ c ∈ u.consumers.rows, ¬ NoRedelivery c.events := by
  have hgone : ((runHub (consumeFirst ++ (passThenAppend 2592000003).take 1)).any fun t =>
      t.consumers.rows.any fun c => (t.cursorOf c).isNone) = true := by
    decide +kernel
  have hagain : ((runHub (consumeFirst ++ passThenAppend 2592000003)).any fun u =>
      u.consumers.rows.any fun c => offeredAgain c.events) = true := by
    decide +kernel
  obtain ⟨t, ht, hgone⟩ := (Option.any_eq_true ..).1 hgone
  obtain ⟨c, hc, hnone⟩ := List.any_eq_true.1 hgone
  obtain ⟨u, hu, hagain⟩ := (Option.any_eq_true ..).1 hagain
  obtain ⟨c', hc', hevents⟩ := List.any_eq_true.1 hagain
  exact ⟨t, u, .of_runTrace ht, ⟨c, hc, Option.isNone_iff_eq_none.1 hnone⟩, .of_runTrace hu, c', hc',
    not_noRedelivery hevents⟩

end ConsumerHub

end Seqscribe
