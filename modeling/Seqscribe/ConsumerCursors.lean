import Seqscribe.ArchiveHistory
import Seqscribe.ConsumerHub

set_option autoImplicit true

/-- Two things that a run ends with. -/
theorem Runs.and {x : EStateM ε σ α} {P Q : α → σ → Prop} {E F : ε → σ → Prop}
    (h : Runs x s P E) (h' : Runs x s Q F) :
    Runs x s (fun a s' => P a s' ∧ Q a s') fun e s' => E e s' ∧ F e s' := by
  rw [Runs] at h h' ⊢
  cases hx : x s with
  | ok a s' =>
    rw [hx] at h h'
    exact ⟨h, h'⟩
  | error e s' =>
    rw [hx] at h h'
    exact ⟨h, h'⟩

namespace Seqscribe

/-! What the log core does to the cursors of consumers: nothing, but for the archive pass. -/

variable {env : Env}

abbrev Cursors := Table (String × Topic) CursorRow CursorRow.id

/-- The store has cursors that `P` holds of. -/
def Txn.Cursored (P : Cursors → Prop) (t : Txn) : Prop := P t.core.db.sqCursors

namespace Cursored

variable {P : Cursors → Prop}

theorem storageCall : Keeps (Txn.Cursored P) (Txn.Cursored P) storageCall := by
  apply Keeps.bind .get
  intro t
  split
  · exact .pure ()
  · exact .throw (fun _ ht => ht) _
  · exact .modify fun _ ht => ht

theorem query (f : Db → α) : Keeps (Txn.Cursored P) (Txn.Cursored P) (query f) :=
  .bind storageCall fun _ => .bind .get fun _ => .pure _

theorem execute {f : Db → Db} (hf : ∀ db, P db.sqCursors → P (f db).sqCursors) :
    Keeps (Txn.Cursored P) (Txn.Cursored P) (execute f) :=
  .bind storageCall fun _ => .modify fun t ht => hf t.core.db ht

/-- A write to another table. -/
theorem write {f : Db → Db} (hf : ∀ db, (f db).sqCursors = db.sqCursors) :
    Keeps (Txn.Cursored P) (Txn.Cursored P) (Seqscribe.execute f) :=
  execute fun db h => (hf db).symm ▸ h

theorem transaction {m : LogM α} (hm : Keeps (Txn.Cursored P) (Txn.Cursored P) m) :
    Keeps (Txn.Cursored P) (Txn.Cursored P) (transaction m) := by
  constructor
  intro t ht
  apply transaction_runs
  exact (hm.runs t ht).mono (fun _ _ h => ⟨trivial, h.2⟩) fun _ _ _ => ht

theorem deleteBatches (topic : Topic) (below : Nat) (before : Option Int) (fuel total : Nat) :
    Keeps (Txn.Cursored P) (Txn.Cursored P)
      (Store.deleteBatches topic below before fuel total) := by
  induction fuel generalizing total with
  | zero => exact .pure _
  | succ fuel ih =>
    refine .bind (query _) fun rows => .ite (fun _ => .pure _) fun _ => ?_
    apply Keeps.bind
    · exact transaction (.forM fun r _ => write fun _ => rfl)
    · exact fun _ => .ite (fun _ => .pure _) fun _ => ih _

theorem archiveBatches (topic : Topic) (writer : WriterId) (maxSeq maxRowid atMs fuel total : Nat) :
    Keeps (Txn.Cursored P) (Txn.Cursored P)
      (Store.archiveBatches topic writer maxSeq maxRowid atMs fuel total) := by
  induction fuel generalizing total with
  | zero => exact .pure _
  | succ fuel ih =>
    apply Keeps.bind
    · apply transaction
      refine .bind (query _) fun rows => .bind (.forM fun r _ => ?_) fun _ => .pure _
      exact .bind (write fun _ => rfl) fun _ => write fun _ => rfl
    · exact fun _ => .ite (fun _ => .pure _) fun _ => ih _

theorem archiveCovered (topic : Topic) (writer : WriterId) (maxSeq maxRowid atMs : Nat) :
    Keeps (Txn.Cursored P) (Txn.Cursored P)
      (Store.archiveCovered topic writer maxSeq maxRowid atMs) := by
  refine .bind .get fun _ => .bind (archiveBatches ..) fun total => ?_
  split
  · exact .bind (.modify fun _ h => h) fun _ => .pure _
  · exact .pure _

theorem saveHead (head : WriterRow) :
    Keeps (Txn.Cursored P) (Txn.Cursored P) (saveHead env head) := by
  refine .bind (.modify fun _ h => h) fun _ => .bind (write fun _ => rfl) fun _ => .bind .get ?_
  intro t
  split
  · exact .pure ()
  · exact .bind (.bind (.bind .get fun _ => .pure _) fun _ => .pure _) fun _ =>
      .modify fun _ h => h

theorem insertEntry (e : LogEntry) :
    Keeps (Txn.Cursored P) (Txn.Cursored P) (Store.insertEntry e) := by
  refine .bind storageCall fun _ => .bind .get fun t => ?_
  dsimp only
  split
  · exact .throw (fun _ h => h) _
  · exact .bind (.modify fun _ h => h) fun _ => .pure _

theorem dropLogCount (topic : Topic) :
    Keeps (Txn.Cursored P) (Txn.Cursored P) (Store.dropLogCount topic) := .modify fun _ h => h

theorem handlers (env : Env) (P : Cursors → Prop) :
    Handlers env (fun _ => True) True True (Txn.Cursored P) (Txn.Cursored P) where
  fails := fun _ h => h
  kept := by
    intro t t' hkept h
    have hsame : t'.core.db.sqCursors = t.core.db.sqCursors :=
      congrArg (fun kept : Txn.Kept => kept.db.cursors) hkept
    rw [Txn.Cursored, hsame]
    exact h
  getStream := by
    intro topic writer _
    apply Keeps.bind .get
    intro t
    split
    · exact .pure_of trivial
    · exact .bind (query _) fun _ => .bind (.modify fun _ h => h) fun _ => .pure_of trivial
  saveHead := saveHead
  insertEntry := fun _ e _ => insertEntry e
  deleteLogRange := fun _ _ _ _ _ => .bind (write fun _ => rfl) fun _ => dropLogCount _
  deleteLogRowsUpToRowid := fun _ _ _ _ _ =>
    .bind .get fun _ => .bind (deleteBatches ..) fun _ =>
      .ite (fun _ => .bind (dropLogCount _) fun _ => .pure _) fun _ => .pure _
  deleteLogRowids := fun _ _ _ _ =>
    .bind (.forM fun _ _ => write fun _ => rfl) fun _ =>
      .ite (fun _ => dropLogCount _) fun _ => .pure _
  deleteStreamPrefix := fun _ _ _ _ _ =>
    .bind (write fun _ => rfl) fun _ => .bind (write fun _ => rfl) fun _ => dropLogCount _
  ackForget := fun _ _ => .bind (write fun _ => rfl) fun _ => write fun _ => rfl

theorem logCount (topic : Topic) :
    Keeps (Txn.Cursored P) (Txn.Cursored P) (Store.logCount topic) := by
  apply Keeps.bind .get
  intro t
  split
  · exact .pure _
  · exact .bind (query _) fun _ => .bind (.modify fun _ h => h) fun _ => .pure _

theorem processRetireTopic (topic : Topic) :
    Keeps (Txn.Cursored P) (Txn.Cursored P) (processRetireTopic env topic) := by
  have hH := handlers env P
  apply Keeps.bind (hH.topicPolicy topic)
  intro policy
  apply Keeps.ite (fun _ => hH.done _)
  intro _
  apply Keeps.ite (fun _ => hH.done _)
  intro _
  apply Keeps.bind (logCount topic)
  intro n
  apply Keeps.ite (fun _ => hH.done _)
  intro _
  apply Keeps.bind .get
  intro t
  apply Keeps.ite (fun _ => hH.done _)
  intro _
  apply Keeps.bind .get
  intro t
  apply Keeps.ite (fun _ => hH.done _)
  intro _
  refine .bind (query _) fun writers => .bind (.forM fun w _ => ?_) fun _ => ?_
  · exact .bind (write fun _ => rfl) fun _ => .modify fun _ h => h
  · exact hH.replaceRing _ _ fun _ => .bind (.modify fun _ h => h) fun _ => hH.done _

theorem processQueued (q : Queued env) :
    Keeps (Txn.Cursored P) (Txn.Cursored P) (processQueued env q) := by
  refine .bind (.modify fun _ h => h) fun _ => ?_
  apply (handlers env P).processItem q.2 trivial (fun _ => trivial) fun _ => trivial
  · exact fun item _ => .stampCausal (fun _ _ h => h) item
  · exact fun cert _ => .bind (write fun _ => rfl) fun _ => .modify fun _ h => h
  · exact fun topic _ _ => processRetireTopic topic

theorem flushBody (batch : List (Queued env)) :
    Keeps (Txn.Cursored P) (Txn.Cursored P) (flushBody env batch) := by
  refine .bind (.forM fun q _ => processQueued q) fun _ => .bind .get fun t => ?_
  refine .bind (write fun _ => rfl) fun _ => .bind .get fun t => ?_
  exact .ite (fun _ => .throw (fun _ h => h) _) fun _ => .pure _

theorem vectors : Keeps (Txn.Cursored P) (Txn.Cursored P) (vectors env) := by
  have hH := handlers env P
  apply Keeps.bind .get
  intro t
  split
  next => exact .pure _
  next =>
    refine .bind (.bind Handlers.clock fun _ => .pure _) fun floor => ?_
    refine .bind (query _) fun heads => .bind .get fun t => ?_
    refine .bind (.foldlM fun out topic => ?_) fun out => .bind (.modify fun _ h => h) fun _ =>
      .pure _
    refine .bind (hH.topicPolicy topic) fun policy => .ite (fun _ => .pure _) fun _ => ?_
    apply Keeps.bind (hH.getCert topic)
    intro cert
    split
    · exact .pure _
    · exact .pure _

theorem runDirect {m : LogM α} {Q : α → Prop}
    (hm : Keeps (Txn.Cursored P) (Txn.Cursored P) m Q) {core : Core} (h : P core.db.sqCursors)
    (now : Nat) (fault : Option Nat) : P (runDirect m now fault core).core.db.sqCursors := by
  have hruns := hm.runs { Txn.start core fault with ambient := { now := now } } h
  rw [Seqscribe.runDirect]
  split
  next hrun => exact (hruns.of_ok hrun).2
  next hrun => exact hruns.of_error hrun

end Cursored

variable {core : Core}

def LogState.Tidy (s : LogState) : Prop := s.Keyed ∧ s.Numbered

theorem tidy_upkeep : LogUpkeep (fun _ => True) True True LogState.Tidy LogState.Tidy where
  fails := fun _ h => h
  keyed := fun _ h => h.1
  numbered := fun _ _ h => h.2
  cacheHead := fun _ _ _ hhead h => ⟨h.1.cacheHead hhead, h.2⟩
  insert := fun _ _ _ _ _ h hlog => ⟨h.1, h.2.insert hlog⟩
  delete := fun _ _ _ p _ _ h => ⟨h.1, h.2.delete p⟩
  lost := fun _ _ _ p _ _ h => ⟨h.1, h.2.delete p⟩

/-- Rowids grow with the insertions, whatever the inputs. -/
theorem step_numbered (i : Input env) (hcoh : core.Coherent env)
    (hn : core.logState.Numbered) : (step env core i).core.logState.Numbered := by
  have hread {α : Type} {m : LogM α} {Q : α → Prop} (now : Nat)
      (hm : Keeps (fun t => LogState.Tidy t.logState) (fun t => LogState.Tidy t.logState) m Q) :
      (runDirect m now none core).core.logState.Numbered :=
    (Keeps.runDirect hm ⟨hcoh.keyed, hn⟩ now none).2
  have hH := tidy_upkeep.handlers env
  cases i with
  | flush batch fault =>
    have hitem (q : Queued env) := tidy_upkeep.processQueued q trivial (fun _ => trivial)
      (fun _ => trivial) fun _ _ _ _ h => h
    have hbody := (LogUpkeep.flushBody (fun _ h => h) fun q (_ : q ∈ batch) => hitem q).runs
      (Txn.start core fault) ⟨hcoh.keyed, hn⟩
    rw [step, flush]
    split
    next => exact hn
    next =>
      rw [transaction]
      cases hrun : flushBody env batch (Txn.start core fault) with
      | ok _ t => exact (hbody.of_ok hrun).2.2
      | error e t => exact hn
  | archiveNow topic now fault =>
    have hI : ArchiveUpkeep topic (fun _ => True) LogState.Numbered :=
      ⟨fun _ h => h, fun _ _ _ _ _ _ h _ _ _ _ => h.delete _, fun _ _ _ h => h⟩
    have hpass := hI.archiveNow (t := { Txn.start core fault with ambient := { now := now } }) env
      (fun _ _ _ _ _ _ => trivial) hn
    rw [step, runDirect]
    split
    next hrun => exact hpass.of_ok hrun
    next hrun => exact hpass.of_error hrun
  | getStream topic writer => exact hread 0 (tidy_upkeep.getStream topic writer trivial)
  | getCert topic => exact hread 0 (hH.getCert topic)
  | floorOf topic writer => exact hread 0 (hH.floorOf topic writer)
  | vectors now => exact hread now tidy_upkeep.vectors
  | cursorSet row => exact hn
  | cursorDelete consumer topic => exact hn
  | ackUpsert row => exact hn
  | ackNodeSeen row => exact hn
  | reportCanonicalUnavailable topic writer => exact hn
  | clearScopeTail scope => exact hn
  | defineTopic topic => exact hn
  | restart => exact hn

/-- An input that is no archive pass leaves the cursors as they are. -/
theorem step_cursors (i : Input env) (hforeign : ConsumerHub.foreign i = false)
    (hpass : ∀ topic now fault, i ≠ .archiveNow topic now fault) :
    (step env core i).core.db.sqCursors = core.db.sqCursors := by
  have hread {α : Type} {m : LogM α} {Q : α → Prop} (now : Nat)
      (hm : Keeps (Txn.Cursored (· = core.db.sqCursors)) (Txn.Cursored (· = core.db.sqCursors)) m Q) :
      (runDirect m now none core).core.db.sqCursors = core.db.sqCursors :=
    Cursored.runDirect hm rfl now none
  have hH := Cursored.handlers env (· = core.db.sqCursors)
  cases i with
  | flush batch fault =>
    have hbody := (Cursored.flushBody (P := (· = core.db.sqCursors)) batch).runs
      (Txn.start core fault) rfl
    rw [step, flush]
    split
    next => rfl
    next =>
      rw [transaction]
      cases hrun : flushBody env batch (Txn.start core fault) with
      | ok _ t => exact (hbody.of_ok hrun).2
      | error e t => rfl
  | archiveNow topic now fault => exact absurd rfl (hpass topic now fault)
  | getStream topic writer => exact hread 0 (hH.getStream topic writer trivial)
  | getCert topic => exact hread 0 (hH.getCert topic)
  | floorOf topic writer => exact hread 0 (hH.floorOf topic writer)
  | vectors now => exact hread now Cursored.vectors
  | cursorSet row => cases hforeign
  | cursorDelete consumer topic => cases hforeign
  | ackUpsert row => rfl
  | ackNodeSeen row => rfl
  | reportCanonicalUnavailable topic writer => rfl
  | clearScopeTail scope => rfl
  | defineTopic topic => rfl
  | restart => cases hforeign

/-- The archive pass finds a certificate, and the cursor older than the window. -/
def Abandons (env : Env) (core : Core) (topic : Topic) (now : Nat) (id : String × Topic) : Prop :=
  (core.certOf topic).isSome ∧ ∃ row, core.db.sqCursors.get id = some row ∧ row.topic = topic ∧
    (row.updatedAt : Int) < (now : Int) - env.constants.FINALITY_WINDOW_MS

/-- The archive pass deletes the cursors that it abandons, and no others. -/
theorem archiveNow_cursors (topic : Topic) (now : Nat) (fault : Option Nat) (id : String × Topic) :
    (step env core (.archiveNow topic now fault)).core.db.sqCursors.get id =
        core.db.sqCursors.get id ∨
      (step env core (.archiveNow topic now fault)).core.db.sqCursors.get id = none ∧
        Abandons env core topic now id := by
  let before := core.db.sqCursors
  let P (C : Cursors) : Prop := ∀ id, C.get id = before.get id ∨
    C.get id = none ∧ Abandons env core topic now id
  have hruns : Ensures (archiveNow env topic)
      { Txn.start core fault with ambient := { now := now } } (Txn.Cursored P) := by
    have hcert := (getCert_certOf topic _).and (((Cursored.handlers env P).getCert topic).runs
      { Txn.start core fault with ambient := { now := now } } fun _ => .inl rfl)
    refine .bind (hcert.mono (fun found t₁ h₁ => ?_) fun _ t' h' => h'.2)
    obtain ⟨⟨hfound, -, hdb, hambient⟩, -, ht₁⟩ := h₁
    have hdb : t₁.core.db = core.db := hdb
    have hnow : t₁.ambient.now = now := congrArg Ambient.now hambient
    split
    next => exact ht₁
    next cert =>
      have hstale : Keeps (Txn.Cursored P) (Txn.Cursored P)
          (forM ((t₁.core.db.sqCursors.rows.filter fun r => decide (r.topic = topic)).filter
            fun c => decide ((c.updatedAt : Int) <
              (t₁.ambient.now : Int) - env.constants.FINALITY_WINDOW_MS)) fun c => do
            Store.cursorDelete c.consumer topic
            report (.consumerAbandoned topic c.consumer)) := by
        apply Keeps.forM
        intro c hc
        obtain ⟨hmem, hold⟩ := List.mem_filter.1 hc
        obtain ⟨hmem, htopic⟩ := List.mem_filter.1 hmem
        have htopic := of_decide_eq_true htopic
        rw [hdb] at hmem
        rw [hnow] at hold
        have hgone : Abandons env core topic now (c.consumer, topic) := by
          refine ⟨Option.isSome_iff_exists.2 ⟨cert, hfound.symm⟩, c, ?_, htopic,
            of_decide_eq_true hold⟩
          rw [← htopic]
          exact Table.get_of_mem hmem
        refine .bind (Cursored.execute fun db hP id => ?_) fun _ => .modify fun _ h => h
        rw [Table.get_delete]
        split
        next heq => exact .inr ⟨rfl, heq ▸ hgone⟩
        next => exact hP id
      refine .bind (.bind (.get (.pure (.bind (query_runs (fun fault => ?_) fun _ => ht₁)))))
      refine .bind ((hstale.runs { t₁ with fault := fault } ht₁).mono (fun _ t₂ h₂ => ?_)
        fun _ _ h => h)
      have hrows (rowid : Nat) : Keeps (Txn.Cursored P) (Txn.Cursored P)
          (forM cert.cut.rows fun c => do
            if c.seq ≠ 0 then
              let _ ← Store.archiveCovered topic c.writer c.seq rowid t₁.ambient.now) :=
        .forM fun c _ => .ite (fun _ => .bind (Cursored.archiveCovered ..) fun _ => .pure _)
          fun _ => .pure _
      exact ((hrows _).runs t₂ h₂.2).mono (fun _ _ h => h.2) fun _ _ h => h
  rw [step, runDirect]
  split
  next hrun => exact hruns.of_ok hrun id
  next hrun => exact hruns.of_error hrun id

end Seqscribe
