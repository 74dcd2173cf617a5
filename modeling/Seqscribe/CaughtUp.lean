import Seqscribe.ConsumerPlace

namespace Seqscribe
set_option autoImplicit true

/-! Waiters are resolved once nothing is left for them to wait for. -/

variable {env : Env}

/-- The topic has the row. -/
def Db.HasRow (db : Db) (topic : Topic) (rowid : Nat) : Prop :=
  ∃ r ∈ db.sqLog.rows, r.entry.topic = topic ∧ r.rowid = rowid

theorem Db.hasRow_maxRowid (db : Db) (topic : Topic) (h : 0 < db.maxRowid topic) :
    db.HasRow topic (db.maxRowid topic) := by
  rw [maxRowid] at h ⊢
  cases hmax : ((db.sqLog.rows.filter fun r => r.entry.topic = topic).map LogRow.rowid).max? with
  | none =>
    rw [hmax] at h
    exact absurd h (Nat.lt_irrefl 0)
  | some m =>
    obtain ⟨r, hr, hm⟩ := List.mem_map.1 (List.max?_mem hmax)
    obtain ⟨hr, htopic⟩ := List.mem_filter.1 hr
    exact ⟨r, hr, of_decide_eq_true htopic, hm⟩

namespace Consumer

variable {c c' : Consumer} {db db' : Db}

/-- The bound of each waiter is a row beyond the cursor; a waiter that is gone was resolved. -/
structure Waiting (db : Db) (c : Consumer) : Prop where
  pending : ∀ w ∈ c.waiters, c.cursor db < w ∧ db.HasRow c.topic w
  told : ∀ w, .waits w ∈ c.events → w ∈ c.waiters ∨ .caughtUp w ∈ c.events

theorem Waiting.fresh (db : Db) (topic : Topic) (name : String) :
    (Consumer.fresh topic name).Waiting db :=
  ⟨fun _ hw => absurd hw List.not_mem_nil, fun _ hw => absurd hw List.not_mem_nil⟩

/-- The cursor goes back or stays, and the bounds stay. -/
theorem Waiting.frame (h : c.Waiting db) (hcursor : c.cursor db' ≤ c.cursor db)
    (hrows : ∀ w ∈ c.waiters, db.HasRow c.topic w → db'.HasRow c.topic w) : c.Waiting db' := by
  refine ⟨fun w hw => ?_, h.told⟩
  obtain ⟨hlt, hrow⟩ := h.pending w hw
  exact ⟨lt_of_le_of_lt hcursor hlt, hrows w hw hrow⟩

/-- Nothing happens to the waiters. -/
theorem Waiting.same (h : c.Waiting db) (hid : c'.topic = c.topic ∧ c'.name = c.name)
    (hwaiters : c'.waiters = c.waiters) {es : List ConsumerEvent}
    (hevents : c'.events = c.events ++ es) (hes : ∀ w, .waits w ∉ es) : c'.Waiting db := by
  refine ⟨fun w hw => ?_, fun w hw => ?_⟩
  · rw [cursor, hid.1, hid.2]
    exact h.pending w (hwaiters ▸ hw)
  · rw [hevents, List.mem_append] at hw
    rw [hevents, hwaiters, List.mem_append]
    rcases h.told w (hw.resolve_right (hes w)) with hin | htold
    · exact .inl hin
    · exact .inr (.inl htold)

theorem Waiting.offer (h : c.Waiting db) (rows : List LogRow) : (c.offer rows).Waiting db := by
  cases rows with
  | nil => exact ⟨h.pending, h.told⟩
  | cons row rest =>
    refine h.same ⟨rfl, rfl⟩ rfl rfl fun w hw => ?_
    cases List.mem_singleton.1 hw

theorem Waiting.pump (h : c.Waiting db) (db' : Db) : (c.pump db').Waiting db := by
  rw [Consumer.pump]
  split
  · exact ⟨h.pending, h.told⟩
  · exact h.offer _

/-- The waiters that a row reaches are resolved, and the others lie beyond it. -/
theorem Waiting.resolve (h : c.Waiting db) {row : LogRow} (hlog : db'.sqLog = db.sqLog)
    (hcursor : c.cursor db' = row.rowid) :
    ((c.note (.resolved row)).resolveWaiters row.rowid).Waiting db' := by
  refine ⟨fun w hw => ?_, fun w hw => ?_⟩
  · obtain ⟨hw, hlt⟩ := List.mem_filter.1 hw
    refine ⟨?_, ?_⟩
    · exact lt_of_le_of_lt (Nat.le_of_eq hcursor) (of_decide_eq_true hlt)
    · rw [Db.HasRow, hlog]
      exact (h.pending w hw).2
  · have hold : .waits w ∈ c.events := by
      rcases List.mem_append.1 hw with hw | hw
      · rcases List.mem_append.1 hw with hw | hw
        · exact hw
        · cases List.mem_singleton.1 hw
      · obtain ⟨w', -, heq⟩ := List.mem_map.1 hw
        cases heq
    rcases h.told w hold with hin | htold
    · by_cases hle : w ≤ row.rowid
      · right
        apply List.mem_append_right
        exact List.mem_map.2 ⟨w, List.mem_filter.2 ⟨hin, decide_eq_true hle⟩, rfl⟩
      · exact .inl (List.mem_filter.2 ⟨hin, decide_eq_true (Nat.lt_of_not_le hle)⟩)
    · exact .inr (List.mem_append_left _ (List.mem_append_left _ htold))

end Consumer

namespace ConsumerHub

variable {t u : ConsumerHub} {c c' : Consumer} {key : ConsumerKey}

def Waits (h : ConsumerHub) : Prop := ∀ c ∈ h.consumers.rows, c.Waiting h.core.db

theorem Waits.set (h : Waits t) (hc' : c'.Waiting t.core.db) : Waits (t.set c') := by
  intro d hd
  rcases Table.mem_upsert.1 hd with rfl | ⟨hd, -⟩
  · exact hc'
  · exact h d hd

theorem Waits.pumpAt (h : Waits t) (key : ConsumerKey) : Waits (t.pumpAt key) := by
  rw [ConsumerHub.pumpAt]
  split
  next => exact h
  next c hget => exact h.set ((h c (Table.get_eq_some_iff.1 hget).1).pump _)

theorem Waits.foldl {step : ConsumerHub → α → ConsumerHub} (h : Waits t)
    (hstep : ∀ t a, Waits t → Waits (step t a)) (as : List α) : Waits (as.foldl step t) := by
  induction as generalizing t with
  | nil => exact h
  | cons a as ih => exact ih (hstep t a h)

/-- The cursors change, and those of the registered consumers do not. -/
theorem Waits.write (h : Waits t) {f : Db → Db} (hlog : (f t.core.db).sqLog = t.core.db.sqLog)
    (hsame : ∀ c ∈ t.consumers.rows,
      (f t.core.db).sqCursors.get (c.name, c.topic) = t.cursorOf c) : Waits (t.onCore f) := by
  intro c hc
  apply (h c hc).frame
  · exact Nat.le_of_eq (congrArg (fun r => (Option.map CursorRow.lastRowid r).getD 0) (hsame c hc))
  · intro w _ hrow
    rw [Db.HasRow] at hrow ⊢
    exact hlog.symm ▸ hrow

/-- A consumer sets its cursor. -/
theorem Waits.move (h : Waits t) (hid : c'.topic = c.topic ∧ c'.name = c.name) {m now : Nat}
    (hc' : c'.Waiting (t.core.db.cursorSet c.name c.topic m now)) :
    Waits ((t.onCore fun db => db.cursorSet c.name c.topic m now).set c') := by
  have hkey' : c'.key = c.key := by rw [Consumer.key, Consumer.key, hid.1, hid.2]
  intro d hd
  rcases Table.mem_upsert.1 hd with rfl | ⟨hd, hne⟩
  · exact hc'
  · have hcursor : (t.core.db.cursorSet c.name c.topic m now).sqCursors.get (d.name, d.topic) =
        t.core.db.sqCursors.get (d.name, d.topic) :=
      (Table.get_upsert ..).trans (if_neg (key_ne (hkey' ▸ hne)))
    apply (h d hd).frame
    · exact Nat.le_of_eq (congrArg (fun r => (Option.map CursorRow.lastRowid r).getD 0) hcursor)
    · exact fun w _ hrow => hrow

theorem cursorGet_cursorSet (db : Db) (name : String) (topic : Topic) (m now : Nat) :
    (db.cursorSet name topic m now).cursorGet name topic = m :=
  congrArg (fun r => (Option.map CursorRow.lastRowid r).getD 0)
    ((Table.get_upsert ..).trans (if_pos rfl))

theorem Waits.resolved (h : Waits t) (hstep : t.resolved key now = some u) : Waits u := by
  rw [ConsumerHub.resolved] at hstep
  split at hstep
  next => cases hstep
  next c hget =>
    split at hstep
    next row rest hdrain =>
      obtain rfl := Option.some.inj hstep
      have hc : ((c.note (.resolved row)).resolveWaiters row.rowid).Waiting
          (t.core.db.cursorSet c.name c.topic row.rowid now) :=
        (h c (Table.get_eq_some_iff.1 hget).1).resolve rfl (cursorGet_cursorSet ..)
      have hsame (rows : List LogRow) := Consumer.offer_same
        ((c.note (.resolved row)).resolveWaiters row.rowid) rows
      split
      next => exact h.move (hsame _) (hc.offer _)
      next => exact h.move (hsame _) (hc.offer _)
    next => cases hstep

theorem Waits.failed (h : Waits t) (hstep : t.failed key now = some u) : Waits u := by
  rw [ConsumerHub.failed] at hstep
  split at hstep
  next => cases hstep
  next c hget =>
    split at hstep
    next =>
      obtain rfl := Option.some.inj hstep
      apply h.move
      · exact ⟨rfl, rfl⟩
      have hc := h c (Table.get_eq_some_iff.1 hget).1
      refine ⟨fun w hw => ⟨?_, (hc.pending w hw).2⟩, hc.told⟩
      have hcursor := cursorGet_cursorSet t.core.db c.name c.topic (c.cursor t.core.db) now
      exact lt_of_le_of_lt (Nat.le_of_eq hcursor) (hc.pending w hw).1
    next => cases hstep

theorem Waits.settled (h : Waits t) (hstep : t.settled key = some u) : Waits u := by
  rw [ConsumerHub.settled] at hstep
  split at hstep
  next => cases hstep
  next c hget =>
    have hc := h c (Table.get_eq_some_iff.1 hget).1
    split at hstep
    next =>
      obtain rfl := Option.some.inj hstep
      apply h.set
      dsimp only
      split
      next =>
        apply Consumer.Waiting.pump
        exact ⟨hc.pending, hc.told⟩
      next => exact ⟨hc.pending, hc.told⟩
    next => cases hstep

theorem Waits.retry (h : Waits t) (hstep : t.retry key = some u) : Waits u := by
  rw [ConsumerHub.retry] at hstep
  split at hstep
  next => cases hstep
  next c hget =>
    have hc := h c (Table.get_eq_some_iff.1 hget).1
    split at hstep
    next =>
      obtain rfl := Option.some.inj hstep
      apply h.set
      apply Consumer.Waiting.pump
      exact ⟨hc.pending, hc.told⟩
    next => cases hstep

/-- A new waiter waits for the row at the head. -/
theorem Waits.caughtUp (h : Waits t) (hstep : t.caughtUp env topic name = some u) : Waits u := by
  rw [ConsumerHub.caughtUp] at hstep
  split at hstep
  next => cases hstep
  next =>
    obtain ⟨c, hget, rfl⟩ := Option.map_eq_some_iff.1 hstep
    have hc := h c (Table.get_eq_some_iff.1 hget).1
    dsimp only
    split
    next =>
      apply h.set
      refine ⟨hc.pending, fun w hw => ?_⟩
      rw [Consumer.note, Consumer.note] at hw ⊢
      dsimp only at hw ⊢
      simp only [List.mem_append, List.mem_singleton] at hw ⊢
      rcases hw with (hw | hw) | hw
      · exact (hc.told w hw).imp_right fun htold => .inl (.inl htold)
      · exact .inr (.inr (by rw [ConsumerEvent.waits.inj hw]))
      · cases hw
    next hlt =>
      have hid : (c.topic, c.name) = (topic, name) := (Table.get_eq_some_iff.1 hget).2
      obtain ⟨rfl, rfl⟩ := Prod.mk.inj hid
      apply h.set
      refine ⟨fun w hw => ?_, fun w hw => ?_⟩
      · rcases List.mem_append.1 hw with hw | hw
        · exact hc.pending w hw
        · obtain rfl := List.mem_singleton.1 hw
          have hbeyond := Nat.lt_of_not_le hlt
          exact ⟨hbeyond, t.core.db.hasRow_maxRowid c.topic (Nat.zero_lt_of_lt hbeyond)⟩
      · rcases List.mem_append.1 hw with hw | hw
        · exact (hc.told w hw).imp (List.mem_append_left _) (List.mem_append_left _)
        · left
          rw [ConsumerEvent.waits.inj (List.mem_singleton.1 hw)]
          exact List.mem_append_right _ (List.mem_singleton_self _)

theorem Waits.cursorDelete (h : Waits t) (hinactive : t.isActive topic name = false) :
    Waits (t.cursorDelete name topic) := by
  apply h.write rfl
  intro c hc
  exact (Table.get_delete ..).trans (if_neg (id_ne_of_inactive hinactive hc))

theorem Waits.cursorSet (h : Waits t) (hinactive : t.isActive topic name = false) (m now : Nat) :
    Waits (t.onCore fun db => db.cursorSet name topic m now) := by
  apply h.write rfl
  intro c hc
  exact (Table.get_upsert ..).trans (if_neg (id_ne_of_inactive hinactive hc))

theorem Waits.resetConsumer (h : Waits t)
    (hstep : t.resetConsumer env topic name head now = some u) : Waits u := by
  rw [ConsumerHub.resetConsumer] at hstep
  split at hstep
  next hinactive =>
    obtain rfl := Option.some.inj hstep
    rw [inactive, Bool.and_eq_true, Bool.not_eq_true'] at hinactive
    exact h.cursorSet hinactive.2 _ _
  next => cases hstep

theorem Waits.deleteConsumer (h : Waits t)
    (hstep : t.deleteConsumer env topic name = some u) : Waits u := by
  rw [ConsumerHub.deleteConsumer] at hstep
  split at hstep
  next hinactive =>
    obtain rfl := Option.some.inj hstep
    rw [inactive, Bool.and_eq_true, Bool.not_eq_true'] at hinactive
    exact h.cursorDelete hinactive.2
  next => cases hstep

theorem Waits.pruneConsumers (h : Waits t)
    (hstep : t.pruneConsumers env topic names before = some u) : Waits u := by
  rw [ConsumerHub.pruneConsumers] at hstep
  split at hstep
  next => cases hstep
  next =>
    obtain rfl := Option.some.inj hstep
    have hrows : ∀ rows : List CursorRow, (∀ r ∈ rows, t.isActive topic r.consumer = false) →
        ∀ u, Waits u → u.consumers = t.consumers →
          Waits (rows.foldl (fun h r => h.cursorDelete r.consumer topic) u) := by
      intro rows
      induction rows with
      | nil => exact fun _ u hu _ => hu
      | cons r rows ih =>
        intro hinactive u hu hsame
        have hr : u.isActive topic r.consumer = false := by
          rw [isActive, hsame]
          exact hinactive r List.mem_cons_self
        exact ih (fun r' hr' => hinactive r' (List.mem_cons_of_mem r hr')) _ (hu.cursorDelete hr)
          hsame
    apply hrows _ _ t h rfl
    intro r hr
    have hlet := (List.mem_filter.1 hr).2
    rw [Bool.and_eq_true, Bool.and_eq_true, Bool.not_eq_true'] at hlet
    exact hlet.1.1

theorem Waits.onEntry (h : Waits t) (hstep : t.onEntry env topic name now = some u) : Waits u := by
  rw [ConsumerHub.onEntry] at hstep
  split at hstep
  next => cases hstep
  next policy _ =>
    split at hstep
    next => cases hstep
    next hfree =>
      obtain rfl := Option.some.inj hstep
      have hnone : t.isActive topic name = false := by
        rw [not_or, not_or] at hfree
        exact Bool.eq_false_iff.2 hfree.2.2
      have hcursor : Waits (t.onCore fun db =>
          if (db.sqCursors.get (name, topic)).isSome then db
          else db.cursorSet name topic 0 now) := by
        rw [ConsumerHub.onCore]
        split
        next => exact h
        next => exact h.cursorSet hnone 0 now
      apply Waits.pumpAt
      exact hcursor.set (.fresh _ topic name)

/-- The log core takes no row away at which a waiter has its bound. -/
def KeepsBounds (env : Env) (h : ConsumerHub) : Action env → Prop
  | .log i => ∀ c ∈ h.consumers.rows, ∀ w ∈ c.waiters, h.core.db.HasRow c.topic w →
      (Seqscribe.step env h.core i).core.db.HasRow c.topic w
  | _ => True

theorem Waits.log (h : Waits t) (i : Input env) (hforeign : foreign i = false)
    (hkeeps : KeepsBounds env t (.log i)) : Waits (t.afterLog (Seqscribe.step env t.core i)) := by
  have hcore : Waits { t with core := (Seqscribe.step env t.core i).core } := by
    intro c hc
    apply (h c hc).frame
    · rw [Consumer.cursor, Db.cursorGet]
      by_cases hpass : ∃ topic now fault, i = .archiveNow topic now fault
      · obtain ⟨topic, now, fault, rfl⟩ := hpass
        rcases archiveNow_cursors topic now fault (c.name, c.topic) with heq | ⟨hgone, -⟩
        · rw [heq]
          exact Nat.le_refl _
        · rw [hgone]
          exact Nat.zero_le _
      · rw [step_cursors i hforeign fun topic now fault heq => hpass ⟨topic, now, fault, heq⟩]
        exact Nat.le_refl _
    · exact fun w hw hrow => hkeeps c hc w hw hrow
  apply hcore.foldl
  intro t a ht
  exact ht.foldl (fun t key ht => ht.pumpAt key) _

theorem Waits.step (h : Waits t) {a : Action env} (hkeeps : KeepsBounds env t a)
    (hstep : ConsumerHub.step env t a = some u) : Waits u := by
  cases a with
  | log i =>
    rw [ConsumerHub.step] at hstep
    split at hstep
    next => cases hstep
    next hforeign =>
      obtain rfl := Option.some.inj hstep
      exact h.log i (Bool.eq_false_iff.2 hforeign) hkeeps
  | onEntry topic name now => exact h.onEntry hstep
  | unsubscribe key =>
    obtain rfl := Option.some.inj hstep
    exact fun c hc => h c (List.mem_of_mem_filter hc)
  | resetConsumer topic name head now => exact h.resetConsumer hstep
  | deleteConsumer topic name => exact h.deleteConsumer hstep
  | pruneConsumers topic names before => exact h.pruneConsumers hstep
  | caughtUp topic name => exact h.caughtUp hstep
  | resolved key now => exact h.resolved hstep
  | failed key now => exact h.failed hstep
  | settled key => exact h.settled hstep
  | retry key => exact h.retry hstep
  | close =>
    obtain rfl := Option.some.inj hstep
    exact fun _ hc => absurd hc List.not_mem_nil
  | restart =>
    obtain rfl := Option.some.inj hstep
    exact fun _ hc => absurd hc List.not_mem_nil

/-- In every run whose log operations keep the rows at the bounds of the pending waiters, a waiter
is resolved once the topic has no more rows from the cursor of its consumer to its bound. -/
theorem waiter_resolved {as : List (Action env)}
    (hrun : Trace (ConsumerHub.step env) (KeepsBounds env) init as t) :
    ∀ c ∈ t.consumers.rows, ∀ w, .waits w ∈ c.events →
      (∀ r ∈ t.core.db.sqLog.rows, r.entry.topic = c.topic → c.cursor t.core.db < r.rowid →
        w < r.rowid) → w ∉ c.waiters ∧ .caughtUp w ∈ c.events := by
  have ht : Waits t := by
    apply hrun.keeps Waits fun _ hc => absurd hc List.not_mem_nil
    intro t a u ht hkeeps hstep
    exact ht.step hkeeps hstep
  intro c hc w hw hrest
  have hwaiting := ht c hc
  have hgone : w ∉ c.waiters := by
    intro hin
    obtain ⟨hlt, r, hr, htopic, rfl⟩ := hwaiting.pending w hin
    exact Nat.lt_irrefl _ (hrest r hr htopic hlt)
  exact ⟨hgone, (hwaiting.told w hw).resolve_left hgone⟩

/-- A waiter for `w` is registered. -/
def Consumer.waitsFor (w : Nat) (c : Consumer) : Bool :=
  c.events.any fun | .waits w' => decide (w' = w) | _ => false

theorem Consumer.waits_of_waitsFor {w : Nat} (h : Consumer.waitsFor w c = true) :
    .waits w ∈ c.events := by
  obtain ⟨e, he, hwaits⟩ := List.any_eq_true.1 h
  split at hwaits
  next => exact of_decide_eq_true hwaits ▸ he
  next => cases hwaits

instance (db : Db) (topic : Topic) (rowid : Nat) : Decidable (db.HasRow topic rowid) :=
  inferInstanceAs (Decidable (∃ r ∈ db.sqLog.rows, r.entry.topic = topic ∧ r.rowid = rowid))

instance (h : ConsumerHub) (a : Action env) : Decidable (KeepsBounds env h a) :=
  match a with
  | .log i => inferInstanceAs (Decidable (∀ c ∈ h.consumers.rows, ∀ w ∈ c.waiters,
      h.core.db.HasRow c.topic w → (Seqscribe.step env h.core i).core.db.HasRow c.topic w))
  | .onEntry .. | .unsubscribe _ | .resetConsumer .. | .deleteConsumer .. | .pruneConsumers ..
  | .caughtUp .. | .resolved .. | .failed .. | .settled _ | .retry _ | .close | .restart =>
    .isTrue trivial

/-- A consumer registers, an entry is appended, and its callback has not ended when the application
asks to be told. -/
def askFirst : List (Action (hostEnv "a")) :=
  [.onEntry "t" "c" 1, .settled ("t", "c"), .log (hostFlush "a" 1 [hostAppend "a"]),
    .caughtUp "t" "c"]

theorem waiter_resolved_of_append : ∃ t c,
    Trace (ConsumerHub.step (hostEnv "a")) (KeepsBounds (hostEnv "a")) init
      (askFirst ++ [.log (hostFlush "a" 2 [hostAppend "a"]), .resolved ("t", "c") 3]) t ∧
    c ∈ t.consumers.rows ∧ .waits 1 ∈ c.events ∧ 1 ∉ c.waiters ∧ .caughtUp 1 ∈ c.events := by
  have hrun : ((runTrace (ConsumerHub.step (hostEnv "a")) (KeepsBounds (hostEnv "a")) init
      (askFirst ++ [.log (hostFlush "a" 2 [hostAppend "a"]), .resolved ("t", "c") 3])).any fun t =>
        t.consumers.rows.any fun c => Consumer.waitsFor 1 c &&
          decide (∀ r ∈ t.core.db.sqLog.rows, r.entry.topic = c.topic →
            c.cursor t.core.db < r.rowid → 1 < r.rowid)) = true := by
    decide +kernel
  obtain ⟨t, ht, hany⟩ := (Option.any_eq_true ..).1 hrun
  obtain ⟨c, hc, hboth⟩ := List.any_eq_true.1 hany
  obtain ⟨hwaits, hrest⟩ := Bool.and_eq_true_iff.1 hboth
  have hwaits := Consumer.waits_of_waitsFor hwaits
  have htrace := Trace.of_runTrace ht
  exact ⟨t, c, htrace, hc, hwaits, waiter_resolved htrace c hc 1 hwaits (of_decide_eq_true hrest)⟩

/-- A certificate that takes away every entry of the first ten milliseconds. -/
def lateCut : FinalityCert := { emptyCut with order := ⟨10, 0, "", 0⟩ }

/-- The callback fails, a certificate quarantines the entry, and the retry finds nothing to do: the
waiter is left behind. -/
theorem waiter_left_behind : ∃ t c,
    Trace (ConsumerHub.step (hostEnv "a")) (fun _ _ => True) init
      (askFirst ++ [.failed ("t", "c") 1, .log (hostFlush "a" 2 [.cert lateCut]),
        .settled ("t", "c"), .retry ("t", "c"), .settled ("t", "c")]) t ∧
    c ∈ t.consumers.rows ∧ Consumer.running c.drain = false ∧ c.retryTimer = false ∧
    t.core.db.sqLog.rows.length = 0 ∧ .waits 1 ∈ c.events ∧ c.waiters = [1] := by
  have hrun : ((runHub (askFirst ++ [.failed ("t", "c") 1,
      .log (hostFlush "a" 2 [.cert lateCut]), .settled ("t", "c"), .retry ("t", "c"),
      .settled ("t", "c")])).any fun t => t.consumers.rows.any fun c => Consumer.waitsFor 1 c &&
        decide (Consumer.running c.drain = false ∧ c.retryTimer = false ∧
          t.core.db.sqLog.rows.length = 0 ∧ c.waiters = [1])) = true := by
    decide +kernel
  obtain ⟨t, ht, hany⟩ := (Option.any_eq_true ..).1 hrun
  obtain ⟨c, hc, hboth⟩ := List.any_eq_true.1 hany
  obtain ⟨hwaits, hstate⟩ := Bool.and_eq_true_iff.1 hboth
  obtain ⟨hidle, htimer, hempty, hwaiters⟩ := of_decide_eq_true hstate
  exact ⟨t, c, .of_runTrace ht, hc, hidle, htimer, hempty, Consumer.waits_of_waitsFor hwaits,
    hwaiters⟩

end ConsumerHub

end Seqscribe
