import Seqscribe.Flush
import Seqscribe.Runs

namespace Seqscribe
set_option autoImplicit true

/-! A property of the transaction state that the primitives keep is kept by every item. -/

/-- A computation keeps `I`, and returns a value that meets `P`; where it fails it leaves `J`. -/
structure Keeps (I J : Txn → Prop) (m : LogM α) (P : α → Prop := fun _ => True) : Prop where
  runs : ∀ t, I t → Runs m t (fun a t' => P a ∧ I t') fun _ t' => J t'

namespace Keeps

variable {I J : Txn → Prop}

theorem pure_of {P : α → Prop} (h : P a) : Keeps I J (Pure.pure a : LogM α) P :=
  ⟨fun _ ht => ⟨h, ht⟩⟩

theorem pure (a : α) : Keeps I J (Pure.pure a : LogM α) := pure_of trivial

theorem throw (hJ : ∀ t, I t → J t) (e : SeqscribeError) :
    Keeps I J (MonadExcept.throw e : LogM α) P := ⟨hJ⟩

theorem get : Keeps I J (MonadState.get : LogM Txn) := ⟨fun _ h => ⟨trivial, h⟩⟩

theorem modify (h : ∀ t, I t → I (f t)) : Keeps I J (modify f : LogM PUnit) :=
  ⟨fun t ht => ⟨trivial, h t ht⟩⟩

theorem bind_of {x : LogM α} {f : α → LogM β} (hx : Keeps I J x P)
    (hf : ∀ a, P a → Keeps I J (f a) Q) : Keeps I J (x >>= f) Q :=
  ⟨fun t ht => Runs.bind ((hx.runs t ht).mono (fun a t' h => (hf a h.1).runs t' h.2)
    fun _ _ h => h)⟩

theorem bind {x : LogM α} {f : α → LogM β} (hx : Keeps I J x)
    (hf : ∀ a, Keeps I J (f a) Q) : Keeps I J (x >>= f) Q := hx.bind_of fun a _ => hf a

theorem imp {x : LogM α} (hx : Keeps I J x P) (h : ∀ a, P a → Q a) : Keeps I J x Q :=
  ⟨fun t ht => (hx.runs t ht).mono (fun a _ hr => ⟨h a hr.1, hr.2⟩) fun _ _ h => h⟩

theorem plain {x : LogM α} (hx : Keeps I J x P) : Keeps I J x := hx.imp fun _ _ => trivial

theorem ite [Decidable c] {x y : LogM α} (hx : c → Keeps I J x P) (hy : ¬ c → Keeps I J y P) :
    Keeps I J (if c then x else y) P := by
  split
  next h => exact hx h
  next h => exact hy h

theorem forM {xs : List α} {f : α → LogM PUnit} (h : ∀ x ∈ xs, Keeps I J (f x)) :
    Keeps I J (ForM.forM xs f) := by
  induction xs with
  | nil => exact pure ()
  | cons x xs ih =>
    rw [List.forM_cons]
    exact bind (h x List.mem_cons_self) fun _ => ih fun y hy => h y (List.mem_cons_of_mem x hy)

theorem foldlM {xs : List α} {f : β → α → LogM β} (h : ∀ b x, Keeps I J (f b x)) :
    Keeps I J (xs.foldlM f b) := by
  induction xs generalizing b with
  | nil => exact pure b
  | cons x xs ih =>
    rw [List.foldlM_cons]
    exact bind (h b x) fun _ => ih

/-- A property that does not read the tails is kept by a causal stamp. -/
theorem stampCausal {env : Env} (h : ∀ t tails, I t → I { t with core.scopeTails := tails })
    (item : AppendItem env) (seq : Nat) : Keeps I J (stampCausal env item seq) := by
  rw [Seqscribe.stampCausal]
  split
  next => exact pure _
  next => exact bind get fun _ => bind (modify fun t => h t _) fun _ => pure _

end Keeps

/-- The tables that no handler writes but through the primitives below. -/
structure Db.Kept where
  log : Table EntryId LogRow fun r => r.entry.id
  sequence : Nat
  writers : Table StreamId WriterRow WriterRow.stream
  cursors : Table (String × Topic) CursorRow CursorRow.id
  finality : Table Topic FinalityCert FinalityCert.topic
  acks : Table (Topic × WriterId × WriterId) AckRow AckRow.id
  archive : Table EntryId ArchiveRow fun r => r.entry.id

/-- The part of the state that no handler changes but through the primitives below. -/
structure Txn.Kept where
  db : Db.Kept
  counts : Topic → Option Nat
  archiveCounts : Topic → Option Nat
  heads : StreamId → Option WriterRow
  vectors : Option HaveVectors
  defined : List Topic
  scopeTails : String → Option (WriterId × Nat)
  /-- The ring tails that an abort puts back. -/
  rings : Topic → Option (List LogEntry)
  ambient : Ambient

def Db.kept (db : Db) : Db.Kept :=
  ⟨db.sqLog, db.logSequence, db.sqWriters, db.sqCursors, db.sqFinality, db.sqAcks, db.sqArchive⟩

def Txn.kept (t : Txn) : Txn.Kept :=
  ⟨t.core.db.kept, t.core.logCounts, t.core.archiveCounts, t.core.heads, t.core.vectorsCache,
    t.core.defined, t.core.scopeTails, fun T => (t.ringUndo T).getD (t.core.rings T), t.ambient⟩

/-- What the items need of a property to keep it. The topics that they work on satisfy `own`; items
that insert rows, and items that delete rows, need more. -/
structure Handlers (env : Env) (own : Topic → Prop) (inserts deletes : Prop) (I J : Txn → Prop) :
    Prop where
  fails : ∀ t, I t → J t
  kept : ∀ t t' : Txn, t'.kept = t.kept → I t → I t'
  getStream : ∀ topic writer, own topic →
    Keeps I J (getStream env topic writer) fun head => own head.topic
  saveHead : ∀ head, Keeps I J (saveHead env head)
  insertEntry : inserts → ∀ e : LogEntry, own e.topic → Keeps I J (Store.insertEntry e)
  deleteLogRange : deletes → ∀ topic writer fromSeq, own topic →
    Keeps I J (Store.deleteLogRange topic writer fromSeq)
  deleteLogRowsUpToRowid : deletes → ∀ topic below before, own topic →
    Keeps I J (Store.deleteLogRowsUpToRowid topic below before)
  deleteLogRowids : deletes → ∀ topic rowids, own topic →
    Keeps I J (Store.deleteLogRowids topic rowids)
  deleteStreamPrefix : deletes → ∀ topic writer upto, own topic →
    Keeps I J (Store.deleteStreamPrefix topic writer upto)
  ackForget : ∀ topic node, Keeps I J (Store.ackForget topic node)

/-- The item appends rows to the log of its topic. -/
def QueueItem.inserts {env : Env} : QueueItem env → Bool
  | .append _ | .external _ | .adoptFloor .. => true
  | _ => false

/-- The item may delete rows of the log of its topic. -/
def QueueItem.deletes {env : Env} : QueueItem env → Bool
  | .external _ | .cert _ | .directive _ | .pruneTopic .. | .pruneSuperseded .. | .pruneAcked .. =>
    true
  | _ => false

def QueueItem.topic {env : Env} : QueueItem env → Topic
  | .append item => item.topic
  | .external item => item.entry.topic
  | .sealStream topic _ => topic
  | .cert c => c.topic
  | .directive d => d.topic
  | .adopt topic _ => topic
  | .retireTopic topic _ => topic
  | .pruneTopic topic _ _ _ => topic
  | .pruneSuperseded topic _ _ _ _ => topic
  | .pruneAcked topic _ _ _ => topic
  | .adoptFloor topic _ _ _ _ => topic

namespace Handlers

variable {env : Env} {own : Topic → Prop} {inserts deletes : Prop} {I J : Txn → Prop}

theorem modify (hI : Handlers env own inserts deletes I J) (h : ∀ t : Txn, (f t).kept = t.kept) :
    Keeps I J (modify f : LogM PUnit) := .modify fun t => hI.kept t (f t) (h t)

theorem throw (hI : Handlers env own inserts deletes I J) (e : SeqscribeError) :
    Keeps I J (MonadExcept.throw e : LogM α) P := .throw hI.fails e

theorem storageCall (hI : Handlers env own inserts deletes I J) : Keeps I J storageCall := by
  apply Keeps.bind .get
  intro t
  split
  · exact .pure ()
  · exact hI.throw _
  · exact hI.modify fun _ => rfl

theorem query (hI : Handlers env own inserts deletes I J) (f : Db → α) : Keeps I J (query f) :=
  .bind hI.storageCall fun _ => .bind .get fun _ => .pure _

/-- What every database gives. -/
theorem query_of (hI : Handlers env own inserts deletes I J) {f : Db → α} {P : α → Prop}
    (h : ∀ db, P (f db)) : Keeps I J (Seqscribe.query f) P :=
  .bind hI.storageCall fun _ => .bind .get fun _ => .pure_of (h _)

/-- A write to another table. -/
theorem execute (hI : Handlers env own inserts deletes I J) (f : Db → Db)
    (h : ∀ db, (f db).kept = db.kept) : Keeps I J (execute f) := by
  apply Keeps.bind hI.storageCall
  intro _
  apply hI.modify
  intro t
  exact congrArg (fun kept => { t.kept with db := kept }) (h t.core.db)

theorem done (hI : Handlers env own inserts deletes I J) (r : Settled) : Keeps I J (done r) :=
  hI.modify fun _ => rfl

theorem report (hI : Handlers env own inserts deletes I J) (a : Anomaly) : Keeps I J (report a) :=
  hI.modify fun _ => rfl

theorem noteApplied (hI : Handlers env own inserts deletes I J) :
    Keeps I J (noteApplied e rowid via) := hI.modify fun _ => rfl

theorem setRecovery (hI : Handlers env own inserts deletes I J) :
    Keeps I J (setRecovery topic writer target) := hI.modify fun _ => rfl

/-- A ring tail that changes is in the journal. -/
theorem replaceRing (hI : Handlers env own inserts deletes I J) (topic : Topic)
    (ring : Option (List LogEntry)) {f : PUnit → LogM α} (hf : ∀ a, Keeps I J (f a) P) :
    Keeps I J (do
      Seqscribe.journalRing topic
      f (← setRing topic ring)) P := by
  constructor
  intro t ht
  refine .bind (.modify (.bind (.modify ((hf ⟨⟩).runs _ (hI.kept t _ ?_ ht)))))
  split
  next hsome =>
    refine congrArg (fun rings => { t.kept with rings := rings }) (funext fun T => ?_)
    dsimp only
    by_cases hT : T = topic
    · obtain ⟨tail, htail⟩ := Option.isSome_iff_exists.1 (hT ▸ hsome)
      rw [htail]
      rfl
    · rw [Function.update_of_ne hT]
  next hnone =>
    refine congrArg (fun rings => { t.kept with rings := rings }) (funext fun T => ?_)
    dsimp only
    by_cases hT : T = topic
    · subst hT
      rw [Function.update_self, Option.not_isSome_iff_eq_none.1 hnone]
      rfl
    · rw [Function.update_of_ne hT, Function.update_of_ne hT]

theorem getRecovery : Keeps I J (getRecovery topic writer) := .bind .get fun _ => .pure _

theorem clock : Keeps I J clock := .bind .get fun _ => .pure _

theorem topicPolicy (hI : Handlers env own inserts deletes I J) (topic : Topic) :
    Keeps I J (topicPolicy env topic) := by
  rw [Seqscribe.topicPolicy]
  split
  · exact .pure _
  · exact hI.throw _

theorem getCert (hI : Handlers env own inserts deletes I J) (topic : Topic) :
    Keeps I J (getCert topic) := by
  apply Keeps.bind .get
  intro t
  split
  · exact .pure _
  · exact .bind (hI.query _) fun _ => .bind (hI.modify fun _ => rfl) fun _ => .pure _

theorem floorOf (hI : Handlers env own inserts deletes I J) (topic : Topic) (writer : WriterId) :
    Keeps I J (floorOf topic writer) := by
  apply Keeps.bind .get
  intro t
  split
  · exact .pure _
  · exact .bind (hI.query _) fun _ => .bind (hI.modify fun _ => rfl) fun _ => .pure _

theorem sealHead (hI : Handlers env own inserts deletes I J) (head : WriterRow) (e : LogEntry) :
    Keeps I J (sealHead env head e) fun head' => head'.topic = head.topic :=
  .bind (hI.saveHead _) fun _ => .bind (hI.report _) fun _ => .pure_of rfl

theorem annotate (hI : Handlers env own inserts deletes I J) :
    Keeps I J (Store.annotate topic writer seq kind atMs) := hI.execute _ fun _ => rfl

theorem mergeClock (hI : Handlers env own inserts deletes I J) (e : LogEntry) :
    Keeps I J (mergeClock env e) := by
  apply Keeps.bind clock
  intro now
  apply Keeps.ite
  · exact fun _ => .bind hI.annotate fun _ => hI.report _
  · exact fun _ => .bind .get fun _ => hI.modify fun _ => rfl

theorem persist (hI : Handlers env own inserts deletes I J) (hi : inserts) (e : LogEntry)
    (he : own e.topic) : Keeps I J (persist env e) := by
  apply Keeps.bind (hI.topicPolicy _)
  intro policy
  split
  · exact .bind (hI.insertEntry hi e he) fun _ => .pure _
  · exact .bind .get fun _ => hI.replaceRing _ _ fun _ => .pure _
  · exact .pure _

theorem verifyAndApply (hI : Handlers env own inserts deletes I J) (hi : inserts)
    (head : WriterRow) (e : LogEntry) (he : own e.topic) (via : Option String) :
    Keeps I J (verifyAndApply env head e via) fun r => r.1.topic = head.topic := by
  have hforked : Keeps I J (do return (← Seqscribe.sealHead env head e, ApplyResult.forked))
      fun r => r.1.topic = head.topic :=
    .bind_of (hI.sealHead head e) fun _ h => .pure_of h
  have happlied : Keeps I J (do
      let rowid ← Seqscribe.persist env e
      let head := { head with contigSeq := e.seq, contigChain := e.chain }
      Seqscribe.saveHead env head
      Seqscribe.noteApplied e rowid via
      return (head, ApplyResult.applied)) fun r => r.1.topic = head.topic :=
    .bind (hI.persist hi e he) fun _ => .bind (hI.saveHead _) fun _ => .bind hI.noteApplied
      fun _ => .pure_of rfl
  rw [Seqscribe.verifyAndApply]
  apply Keeps.ite (fun _ => hforked)
  intro _
  apply Keeps.ite _ (fun _ => happlied)
  intro _
  exact .bind (hI.query _) fun _ => .ite (fun _ => hforked) fun _ => happlied

theorem drainPending (hI : Handlers env own inserts deletes I J) (hi : inserts)
    (via : Option String) (fuel : Nat) (head : WriterRow) (hhead : own head.topic) :
    Keeps I J (drainPending env via fuel head) := by
  induction fuel generalizing head with
  | zero => exact .pure ()
  | succ fuel ih =>
    have hget : ∀ db : Db, ∀ e ∈ db.sqPending.get (head.topic, head.writer, head.contigSeq + 1),
        e.topic = head.topic := by
      intro db e he
      exact congrArg (fun id : EntryId => id.1) (Table.key_of_get he)
    refine Keeps.bind_of (P := fun found => ∀ e ∈ found, e.topic = head.topic)
      (hI.query_of hget) fun pending hpending => ?_
    split
    next => exact .pure ()
    next next =>
      have hnext : own next.topic := by
        rw [hpending next rfl]
        exact hhead
      refine .bind (hI.execute _ fun _ => rfl) fun _ => ?_
      apply Keeps.bind_of (hI.verifyAndApply hi head next hnext via)
      intro r hr
      exact .ite (fun _ => .pure ()) fun _ => ih r.1 (hr ▸ hhead)

theorem drainStream (hI : Handlers env own inserts deletes I J) (hi : inserts)
    (via : Option String) (head : WriterRow) (hhead : own head.topic) :
    Keeps I J (drainStream env via head) :=
  .bind .get fun _ => hI.drainPending hi via _ head hhead

theorem quarantineRange (hI : Handlers env own inserts deletes I J) (hd : deletes)
    (htopic : own topic) : Keeps I J (quarantineRange topic writer fromSeq toSeq reason now) := by
  refine .bind (hI.query _) fun doomed => ?_
  apply Keeps.bind
  · apply Keeps.forM
    exact fun _ _ => .bind (hI.execute _ fun _ => rfl) fun _ => hI.report _
  · exact fun _ => .bind (hI.deleteLogRange hd _ _ _ htopic) fun _ => .pure _

theorem chainHeldAt (hI : Handlers env own inserts deletes I J) (topic : Topic)
    (writer : WriterId) (seq : Nat) : Keeps I J (chainHeldAt env topic writer seq) :=
  .ite (fun _ => .pure _) fun _ => .bind (hI.query _) fun _ => .pure _

theorem recoveryRewind (hI : Handlers env own inserts deletes I J) (hd : deletes)
    (head : WriterRow) (e : LogEntry) (he : own e.topic) : Keeps I J (recoveryRewind env head e) :=
  .bind clock fun _ => .bind (hI.quarantineRange hd he) fun _ => .bind (hI.chainHeldAt ..) fun _ =>
    .bind (hI.saveHead _) fun _ => .pure _

theorem recoveryExtend (hI : Handlers env own inserts deletes I J) (hi : inserts)
    (head : WriterRow) (e : LogEntry) (he : own e.topic) (target : RecoveryTarget)
    (via : Option String) : Keeps I J (recoveryExtend env head e target via) := by
  apply Keeps.bind clock
  intro now
  apply Keeps.ite (fun _ => hI.done _)
  intro _
  apply Keeps.ite (fun _ => hI.done _)
  intro _
  apply Keeps.bind (hI.persist hi e he)
  intro rowid
  apply Keeps.bind (hI.saveHead _)
  intro _
  apply Keeps.bind hI.noteApplied
  intro _
  apply Keeps.ite _ (fun _ => hI.done _)
  exact fun _ => .bind (hI.saveHead _) fun _ => .bind hI.setRecovery fun _ => hI.done _

theorem recoveryIngest (hI : Handlers env own inserts deletes I J) (hi : inserts) (hd : deletes)
    (head : WriterRow) (e : LogEntry) (he : own e.topic) (target : RecoveryTarget)
    (via : Option String) : Keeps I J (recoveryIngest env head e target via) := by
  apply Keeps.ite _ (fun _ => hI.recoveryExtend hi head e he target via)
  intro _
  refine .bind (hI.query _) fun stored => ?_
  apply Keeps.ite (fun _ => hI.done _)
  exact fun _ => .bind (hI.recoveryRewind hd head e he) fun _ => hI.recoveryExtend hi _ e he ..

theorem processAppend (hI : Handlers env own inserts deletes I J) (hi : inserts)
    (item : AppendItem env) (hitem : own item.topic)
    (hstamp : ∀ seq, Keeps I J (stampCausal env item seq)) :
    Keeps I J (processAppend env item) := by
  apply Keeps.bind (hI.getStream _ _ hitem).plain
  intro head
  apply Keeps.ite (fun _ => hI.done _)
  intro _
  apply Keeps.bind .get
  intro t
  apply Keeps.bind clock
  intro now
  split
  next => exact hI.done _
  next state hlc _ =>
    refine .bind (hI.modify fun _ => rfl) fun _ => ?_
    apply Keeps.bind (hstamp _)
    intro causal
    have hstored (e : LogEntry) (he : item.topic = e.topic) : Keeps I J (do
        let rowid ← Seqscribe.persist env e
        Seqscribe.saveHead env { head with contigSeq := head.contigSeq + 1, contigChain := e.chain }
        Seqscribe.noteApplied e rowid none
        Seqscribe.done (.appended e.id)) :=
      .bind (hI.persist hi _ (he ▸ hitem :)) fun _ => .bind (hI.saveHead _) fun _ =>
        .bind hI.noteApplied fun _ => hI.done _
    apply Keeps.ite
    · intro _
      apply Keeps.bind (hI.throw _)
      intro _
      dsimp only
      split
      next => exact hI.done _
      next =>
        apply hstored
        rfl
    · intro _
      dsimp only
      split
      next => exact hI.done _
      next =>
        apply hstored
        rfl

theorem recheck (hI : Handlers env own inserts deletes I J) (head : WriterRow) (e : LogEntry) :
    Keeps I J (recheck env head e) := by
  refine .bind (hI.query _) fun stored => ?_
  split
  · apply Keeps.ite (fun _ => hI.done _)
    exact fun _ => .bind (hI.sealHead head e).plain fun _ => hI.done _
  · exact hI.done _

theorem extend (hI : Handlers env own inserts deletes I J) (hi : inserts) (head : WriterRow)
    (hhead : own head.topic) (e : LogEntry) (he : own e.topic) (via : Option String) :
    Keeps I J (extend env head e via) := by
  apply Keeps.bind_of (hI.verifyAndApply hi head e he via)
  intro r hr
  apply Keeps.ite _ (fun _ => hI.done _)
  intro _
  apply Keeps.bind (hI.mergeClock e)
  intro _
  exact .bind (hI.drainStream hi via r.1 (hr ▸ hhead)) fun _ => hI.done _

theorem postpone (hI : Handlers env own inserts deletes I J) (head : WriterRow) (e : LogEntry) :
    Keeps I J (postpone env head e) := by
  refine .bind (hI.query _) fun existing => ?_
  split
  · apply Keeps.ite (fun _ => hI.done _)
    exact fun _ => .bind (hI.sealHead head e).plain fun _ => hI.done _
  · refine .bind (hI.query _) fun n => ?_
    apply Keeps.ite (fun _ => hI.done _)
    intro _
    refine .bind (hI.execute _ fun _ => rfl) fun _ => ?_
    exact .bind (hI.mergeClock e) fun _ => hI.done _

theorem processExternal (hI : Handlers env own inserts deletes I J) (hi : inserts) (hd : deletes)
    (item : ExternalItem env) (hitem : own item.entry.topic) :
    Keeps I J (processExternal env item) := by
  apply Keeps.bind_of (hI.getStream _ _ hitem)
  intro head hhead
  apply Keeps.ite
  · intro _
    apply Keeps.bind getRecovery
    intro target
    split
    · exact .ite (fun _ => hI.recoveryIngest hi hd _ _ hitem ..) fun _ => hI.done _
    · exact hI.done _
  · intro _
    apply Keeps.bind (hI.getCert _)
    intro cert
    apply Keeps.ite
    · exact fun _ => .bind clock fun _ => .bind hI.annotate fun _ => .bind (hI.report _) fun _ =>
        hI.done _
    · intro _
      apply Keeps.ite (fun _ => hI.recheck ..)
      intro _
      exact .ite (fun _ => hI.extend hi _ hhead _ hitem _) fun _ => hI.postpone ..

theorem processSeal (hI : Handlers env own inserts deletes I J) (topic : Topic)
    (htopic : own topic) (writer : WriterId) : Keeps I J (processSeal env topic writer) := by
  apply Keeps.bind (hI.getStream _ _ htopic).plain
  intro head
  apply Keeps.ite _ (fun _ => hI.done _)
  exact fun _ => .bind (hI.saveHead _) fun _ => .bind (hI.report _) fun _ => hI.done _

theorem saveForked (hI : Handlers env own inserts deletes I J) (head : WriterRow) (topic : Topic)
    (writer : WriterId) : Keeps I J (saveForked env head topic writer) :=
  .ite (fun _ => .bind (hI.report _) fun _ => hI.saveHead _) fun _ => hI.saveHead _

theorem certStream (hI : Handlers env own inserts deletes I J) (hd : deletes)
    (cert : FinalityCert) (hcert : own cert.topic) (writer : WriterId) :
    Keeps I J (certStream env cert writer) := by
  apply Keeps.bind clock
  intro now
  apply Keeps.bind (hI.getStream _ _ hcert).plain
  intro head
  refine .bind (hI.query _) fun lastCovered => ?_
  apply Keeps.ite
  · intro _
    apply Keeps.bind (hI.chainHeldAt ..)
    intro held
    apply Keeps.bind (hI.quarantineRange hd hcert)
    exact fun _ => .bind (hI.saveForked ..) fun _ => .pure _
  · intro _
    apply Keeps.ite _ (fun _ => .pure _)
    intro _
    apply Keeps.bind (hI.query _)
    exact fun _ => .ite (fun _ => .bind (hI.saveForked ..) fun _ => .pure _) fun _ => .pure _

theorem processCert (hI : Handlers env own inserts deletes I J) (hd : deletes)
    (cert : FinalityCert) (hcert : own cert.topic) (hstore : Keeps I J (storeCert cert)) :
    Keeps I J (processCert env cert) :=
  .bind hstore fun _ => .bind (hI.query _) fun _ =>
    .bind (.foldlM fun _ w => .bind (hI.certStream hd cert hcert w.writer) fun _ => .pure _)
      fun _ => hI.done _

theorem processRetired (hI : Handlers env own inserts deletes I J) (hd : deletes)
    (head : WriterRow) (d : WriterDirective) (htopic : own d.topic) :
    Keeps I J (processRetired env head d) := by
  apply Keeps.bind
  · exact Keeps.ite (fun _ => .pure _) fun _ => hI.chainHeldAt ..
  intro chain
  apply Keeps.ite
  · intro _
    apply Keeps.bind clock
    intro now
    apply Keeps.bind (hI.quarantineRange hd htopic)
    exact fun _ => .bind (hI.saveHead _) fun _ => .bind hI.setRecovery fun _ => hI.done _
  · intro _
    apply Keeps.ite
    · exact fun _ => .bind (hI.saveHead _) fun _ => .bind hI.setRecovery fun _ => hI.done _
    · exact fun _ => .bind hI.setRecovery fun _ => hI.done _

theorem processDirective (hI : Handlers env own inserts deletes I J) (hd : deletes)
    (d : WriterDirective) (htopic : own d.topic) : Keeps I J (processDirective env d) := by
  apply Keeps.bind (hI.getStream _ _ htopic).plain
  intro head
  refine .bind (hI.query _) fun stored => ?_
  apply Keeps.ite
  · exact fun _ => .bind (hI.report _) fun _ => hI.done _
  · intro _
    refine .bind (hI.execute _ fun _ => rfl) fun _ => ?_
    apply Keeps.ite (fun _ => hI.done _)
    intro _
    split
    · apply Keeps.ite
      · exact fun _ => .bind (hI.report _) fun _ => hI.done _
      · exact fun _ => .bind (hI.saveHead _) fun _ => .bind hI.setRecovery fun _ => hI.done _
    · exact hI.processRetired hd head d htopic

theorem processAdopt (hI : Handlers env own inserts deletes I J) (topic : Topic)
    (htopic : own topic) (cut : Cut) : Keeps I J (processAdopt env topic cut) := by
  apply Keeps.bind
  · apply Keeps.forM
    intro c _
    apply Keeps.bind (hI.getStream _ _ htopic).plain
    exact fun _ => .ite (fun _ => hI.saveHead _) fun _ => .pure ()
  · exact fun _ => hI.done _

theorem ackedRetentionRefusal (hI : Handlers env own inserts deletes I J) (topic : Topic) :
    Keeps I J (ackedRetentionRefusal env topic) :=
  .bind (hI.topicPolicy topic) fun _ => .ite (fun _ => .pure _) fun _ => .ite (fun _ => .pure _)
    fun _ => .ite (fun _ => .pure _) fun _ => .ite (fun _ => .pure _) fun _ => .pure _

theorem processAdoptFloor (hI : Handlers env own inserts deletes I J) (hi : inserts)
    (topic : Topic) (htopic : own topic) (writer : WriterId) (seq : Nat) (chain : Chain) :
    Keeps I J (processAdoptFloor env topic writer seq chain) := by
  apply Keeps.bind (hI.ackedRetentionRefusal topic)
  intro refusal
  apply Keeps.ite (fun _ => hI.done _)
  intro _
  apply Keeps.bind_of (hI.getStream _ _ htopic)
  intro head hhead
  apply Keeps.ite (fun _ => hI.done _)
  intro _
  apply Keeps.bind getRecovery
  intro target
  apply Keeps.ite (fun _ => hI.done _)
  intro _
  apply Keeps.ite (fun _ => hI.done _)
  intro _
  apply Keeps.bind clock
  intro now
  have hfloor : Keeps I J (Seqscribe.raiseFloor topic writer seq chain now) :=
    .bind (hI.execute _ fun _ => rfl) fun _ => hI.modify fun _ => rfl
  have hrest (head : WriterRow) (hhead : own head.topic) : Keeps I J (do
      Seqscribe.saveHead env head
      Seqscribe.raiseFloor topic writer seq chain now
      Store.deletePendingUpTo topic writer seq
      Seqscribe.report (.floorAdopted topic writer)
      if head.sealReason = none then Seqscribe.drainStream env none head
      Seqscribe.done (.adoptedFloor .adopted)) := by
    apply Keeps.bind (hI.saveHead head)
    intro _
    apply Keeps.bind hfloor
    intro _
    refine .bind (hI.execute _ fun _ => rfl) fun _ => ?_
    apply Keeps.bind (hI.report _)
    intro _
    apply Keeps.ite _ (fun _ => hI.done _)
    exact fun _ => .bind (hI.drainStream hi none head hhead) fun _ => hI.done _
  have hreached (head : WriterRow) (target : Option RecoveryTarget) (hhead : own head.topic) :
      own ((target.map fun tgt => head.retire tgt now).getD head).topic := by
    cases target with
    | none => exact hhead
    | some tgt => exact hhead
  apply Keeps.ite
  · exact fun _ => .bind hI.setRecovery fun _ => hrest _ (hreached _ _ hhead)
  · exact fun _ => hrest _ (hreached _ _ hhead)

theorem cursorFloorOf (hI : Handlers env own inserts deletes I J) (topic : Topic) :
    Keeps I J (cursorFloorOf topic) := .bind (hI.query _) fun _ => .pure _

theorem rowidAtTailOffset (hI : Handlers env own inserts deletes I J) (topic : Topic) (n : Nat) :
    Keeps I J (Store.rowidAtTailOffset topic n) := .ite (fun _ => .pure _) fun _ => hI.query _

theorem keepNewestFloorOf (hI : Handlers env own inserts deletes I J) (topic : Topic)
    (keepNewest : Option Rat) : Keeps I J (keepNewestFloorOf topic keepNewest) := by
  rw [Seqscribe.keepNewestFloorOf.eq_def]
  split
  · exact .pure _
  · apply Keeps.ite (fun _ => .pure _)
    intro _
    apply Keeps.ite (fun _ => .pure _)
    exact fun _ => .bind (hI.rowidAtTailOffset ..) fun _ => .pure _

theorem processPruneTopic (hI : Handlers env own inserts deletes I J) (hd : deletes)
    (htopic : own topic) : Keeps I J (processPruneTopic env topic olderThanMs keepNewest) := by
  apply Keeps.bind (hI.topicPolicy topic)
  intro policy
  apply Keeps.ite (fun _ => hI.done _)
  intro _
  apply Keeps.ite (fun _ => hI.done _)
  intro _
  apply Keeps.ite (fun _ => hI.done _)
  intro _
  apply Keeps.bind (hI.cursorFloorOf _)
  intro cursorFloor
  apply Keeps.bind (hI.keepNewestFloorOf ..)
  intro keepNewestFloor
  apply Keeps.bind clock
  intro now
  apply Keeps.bind .get
  intro t
  apply Keeps.ite (fun _ => hI.done _)
  intro _
  apply Keeps.bind
  · exact Keeps.ite (fun _ => .bind (hI.rowidAtTailOffset ..) fun _ => .pure _) fun _ => .pure _
  intro refused
  apply Keeps.ite (fun _ => hI.done _)
  intro _
  apply Keeps.ite (fun _ => hI.done _)
  exact fun _ => .bind (hI.deleteLogRowsUpToRowid hd _ _ _ htopic) fun _ => hI.done _

theorem processPruneSuperseded (hI : Handlers env own inserts deletes I J) (hd : deletes)
    (htopic : own topic) :
    Keeps I J (processPruneSuperseded env topic uptoRowid maxRows others) := by
  apply Keeps.bind (hI.topicPolicy topic)
  intro policy
  split
  · exact hI.done _
  · have hpass {c : Prop} [Decidable c] (select : Db → List Nat) : Keeps I J (
        if c then do
          let rowids ← Seqscribe.query select
          Store.deleteLogRowids topic rowids
          return rowids.length
        else return 0) :=
      .ite (fun _ => .bind (hI.query _) fun _ => .bind (hI.deleteLogRowids hd _ _ htopic) fun _ =>
        .pure _) fun _ => .pure _
    refine .bind (hI.query _) fun cursors => ?_
    apply Keeps.ite _ (fun _ => hI.done _)
    exact fun _ => .bind (hpass _) fun _ => .bind (hpass _) fun _ => .bind (hpass _) fun _ =>
      hI.done _

theorem planMember (hI : Handlers env own inserts deletes I J) :
    Keeps I J (planMember topic o recorded newest now plan node) := by
  rw [Seqscribe.planMember]
  apply Keeps.bind _ (fun _ => .pure _)
  split
  · exact .pure _
  · have hname : Keeps I J (Store.ackNodeName topic node now) := hI.execute _ fun _ => rfl
    apply Keeps.ite _ (fun _ => .pure _)
    exact fun _ => .ite (fun _ => .bind hname fun _ => .pure _) fun _ => .pure _

theorem writerNewestOf (hI : Handlers env own inserts deletes I J) (topic : Topic)
    (streams : List StreamView) : Keeps I J (writerNewestOf topic streams) := by
  apply Keeps.foldlM
  intro out s
  apply Keeps.ite (fun _ => .pure _)
  intro _
  refine .bind (hI.query _) fun hlc => ?_
  split
  · exact .pure _
  · exact .pure _

theorem planMembers (hI : Handlers env own inserts deletes I J) :
    Keeps I J (planMembers topic o streams self now) :=
  .bind (hI.query _) fun _ => .bind (hI.writerNewestOf ..) fun _ =>
    .foldlM fun _ _ => hI.planMember

theorem dropPrefix (hI : Handlers env own inserts deletes I J) (hd : deletes) (htopic : own topic) :
    Keeps I J (dropPrefix topic writer prev seq now) := by
  have hfloor : Keeps I J (recordFloor topic writer seq now) :=
    .bind (hI.query _) fun _ => .bind (hI.execute _ fun _ => rfl) fun _ => hI.modify fun _ => rfl
  have hdelete := hI.deleteStreamPrefix hd topic writer seq htopic
  exact .ite (fun _ => .bind hfloor fun _ => hdelete) fun _ => hdelete

theorem pruneAckedStream (hI : Handlers env own inserts deletes I J) (hd : deletes)
    (htopic : own topic) :
    Keeps I J (pruneAckedStream topic o acks included cursorFloor now acc s) := by
  apply Keeps.bind (hI.floorOf ..)
  intro prev
  apply Keeps.ite (fun _ => .pure _)
  intro _
  apply Keeps.ite (fun _ => .pure _)
  intro _
  apply Keeps.ite (fun _ => .pure _)
  intro _
  refine .bind (hI.query _) fun rows => ?_
  dsimp only
  split
  · exact .pure _
  · exact .ite (fun _ => .bind (hI.dropPrefix hd htopic) fun _ => .pure _) fun _ => .pure _

theorem processPruneAcked (hI : Handlers env own inserts deletes I J) (hd : deletes)
    (htopic : own topic) : Keeps I J (processPruneAcked env topic o maxRows) := by
  apply Keeps.bind (hI.ackedRetentionRefusal topic)
  intro refusal
  split
  · exact hI.done _
  · apply Keeps.bind clock
    intro now
    refine .bind (hI.query _) fun listed => ?_
    apply Keeps.bind
    · exact .foldlM fun _ _ => .bind (hI.getStream _ _ htopic).plain fun _ => .pure _
    intro heads
    apply Keeps.bind .get
    intro t
    apply Keeps.bind hI.planMembers
    intro plan
    refine .bind (hI.query _) fun acks => ?_
    apply Keeps.bind (hI.cursorFloorOf _)
    intro cursorFloor
    apply Keeps.bind (.foldlM fun _ _ => hI.pruneAckedStream hd htopic)
    intro result
    apply Keeps.ite _ (fun _ => hI.done _)
    exact fun _ => .bind (.forM fun node _ => hI.ackForget topic node) fun _ => hI.done _

/-- Each item keeps the property, if a causal stamp, a certificate and a retirement of a topic
do. -/
theorem processItem (hI : Handlers env own inserts deletes I J) (item : QueueItem env)
    (hitem : own item.topic) (hi : item.inserts = true → inserts)
    (hd : item.deletes = true → deletes)
    (hstamp : ∀ item', item = .append item' → ∀ seq, Keeps I J (stampCausal env item' seq))
    (hcert : ∀ cert, item = .cert cert → Keeps I J (storeCert cert))
    (hretire : ∀ topic known, item = .retireTopic topic known →
      Keeps I J (processRetireTopic env topic)) : Keeps I J (processItem env item) := by
  cases item with
  | append item => exact hI.processAppend (hi rfl) item hitem (hstamp item rfl)
  | external item => exact hI.processExternal (hi rfl) (hd rfl) item hitem
  | sealStream topic writer => exact hI.processSeal topic hitem writer
  | cert cert => exact hI.processCert (hd rfl) cert hitem (hcert cert rfl)
  | directive d => exact hI.processDirective (hd rfl) d hitem
  | adopt topic cut => exact hI.processAdopt topic hitem cut
  | retireTopic topic known => exact hretire topic known rfl
  | pruneTopic topic olderThanMs keepNewest known => exact hI.processPruneTopic (hd rfl) hitem
  | pruneSuperseded topic uptoRowid maxRows others known =>
    exact hI.processPruneSuperseded (hd rfl) hitem
  | pruneAcked topic o maxRows known => exact hI.processPruneAcked (hd rfl) hitem
  | adoptFloor topic writer seq chain known =>
    exact hI.processAdoptFloor (hi rfl) topic hitem writer seq chain

end Handlers

end Seqscribe
