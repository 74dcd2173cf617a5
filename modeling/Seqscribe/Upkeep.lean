import Seqscribe.Handlers
import Seqscribe.Returns

namespace Seqscribe
set_option autoImplicit true

/-! A property of the transaction state that saving a head and forgetting acknowledgments keep is
kept by every item, as far as the tables it is about are written elsewhere only. -/

/-- A computation that returns keeps a property of the state. -/
structure Maintains (I : Txn → Prop) (m : LogM α) : Prop where
  runs : ∀ t, I t → Runs m t (fun _ t' => I t') fun _ _ => True

namespace Maintains

variable {I : Txn → Prop}

theorem pure (a : α) : Maintains I (Pure.pure a : LogM α) := ⟨fun _ h => h⟩

theorem throw (e : SeqscribeError) : Maintains I (MonadExcept.throw e : LogM α) :=
  ⟨fun _ _ => trivial⟩

theorem get : Maintains I (MonadState.get : LogM Txn) := ⟨fun _ h => h⟩

theorem modify (h : ∀ t, I t → I (f t)) : Maintains I (modify f : LogM PUnit) := ⟨h⟩

theorem bind {x : LogM α} {f : α → LogM β} (hx : Maintains I x) (hf : ∀ a, Maintains I (f a)) :
    Maintains I (x >>= f) :=
  ⟨fun t ht => Runs.bind ((hx.runs t ht).mono (fun a t' ht' => (hf a).runs t' ht') fun _ _ h => h)⟩

theorem ite [Decidable c] {x y : LogM α} (hx : c → Maintains I x) (hy : ¬ c → Maintains I y) :
    Maintains I (if c then x else y) := by
  split
  · next h => exact hx h
  · next h => exact hy h

theorem forM {xs : List α} {f : α → LogM PUnit} (h : ∀ x, Maintains I (f x)) :
    Maintains I (ForM.forM xs f) :=
  ⟨fun _ ht => Runs.forM (fun _ => I) ht fun x _ t' ht' => (h x).runs t' ht'⟩

theorem foldlM {xs : List α} {f : β → α → LogM β} (h : ∀ b x, Maintains I (f b x)) :
    Maintains I (xs.foldlM f b) :=
  ⟨fun _ ht => Runs.foldlM (fun _ _ => I) ht fun x _ b t' ht' => (h b x).runs t' ht'⟩

/-- What a computation returns with, in a state that has the property still. -/
theorem returns {m : LogM α} (hm : Maintains I m) (hI : I t) (h : Returns E m t Q) :
    Returns E m t fun a t' => Q a t' ∧ I t' := by
  have hkept := hm.runs t hI
  unfold Returns Runs at *
  cases hrun : m t with
  | ok a t' =>
    rw [hrun] at h hkept
    exact ⟨h.1, h.2, hkept⟩
  | error e t' =>
    rw [hrun] at h
    exact h

theorem keeps {m : LogM α} (h : Maintains I m) : Keeps I (fun _ => True) m :=
  ⟨fun t ht => (h.runs t ht).mono (fun _ _ ht' => ⟨trivial, ht'⟩) fun _ _ h => h⟩

theorem of_keeps {m : LogM α} (h : Keeps I (fun _ => True) m) : Maintains I m :=
  ⟨fun t ht => (h.runs t ht).mono (fun _ _ h => h.2) fun _ _ h => h⟩

theorem transaction {body : LogM α} (h : Maintains I body) :
    Maintains I (transaction body) := by
  constructor
  intro t ht
  have hbody := h.runs t ht
  unfold Runs at hbody ⊢
  unfold Seqscribe.transaction
  cases hrun : body t with
  | ok a t' =>
    rw [hrun] at hbody
    exact hbody
  | error e t' => trivial

end Maintains

/-- The tables behind the HAVE vectors, the acknowledgments and the tails are as they were. -/
structure Txn.Aside (t t' : Txn) : Prop where
  writers : t'.core.db.sqWriters = t.core.db.sqWriters
  finality : t'.core.db.sqFinality = t.core.db.sqFinality
  acks : t'.core.db.sqAcks = t.core.db.sqAcks
  vectors : t'.core.vectorsCache = t.core.vectorsCache
  defined : t'.core.defined = t.core.defined
  ambient : t'.ambient = t.ambient
  tails : t'.core.scopeTails = t.core.scopeTails

/-- What the items need of a property to keep it. -/
structure Upkeep (env : Env) (I : Txn → Prop) : Prop where
  aside : ∀ t t', t.Aside t' → I t → I t'
  saveHead : ∀ head, Maintains I (saveHead env head)
  ackForget : ∀ topic node, Maintains I (Store.ackForget topic node)

namespace Upkeep

variable {env : Env} {I : Txn → Prop}

theorem modify (hI : Upkeep env I) (h : ∀ t : Txn, t.Aside (f t)) :
    Maintains I (modify f : LogM PUnit) := .modify fun t => hI.aside t (f t) (h t)

theorem storageCall (hI : Upkeep env I) : Maintains I storageCall := by
  refine .bind .get fun _ => ?_
  split
  · exact .pure ()
  · exact .throw _
  · exact hI.modify fun t => ⟨rfl, rfl, rfl, rfl, rfl, rfl, rfl⟩

theorem query (hI : Upkeep env I) (f : Db → α) : Maintains I (query f) :=
  .bind hI.storageCall fun _ => .bind .get fun _ => .pure _

/-- A write to another table. -/
theorem execute (hI : Upkeep env I) (f : Db → Db) (hw : ∀ db, (f db).sqWriters = db.sqWriters)
    (hc : ∀ db, (f db).sqFinality = db.sqFinality) (ha : ∀ db, (f db).sqAcks = db.sqAcks) :
    Maintains I (execute f) :=
  .bind hI.storageCall fun _ =>
    hI.modify fun _ => ⟨hw _, hc _, ha _, rfl, rfl, rfl, rfl⟩

theorem getStream (hI : Upkeep env I) (topic : Topic) (writer : WriterId) :
    Maintains I (getStream env topic writer) := by
  refine .bind .get fun t => ?_
  split
  · exact .pure _
  · refine .bind (hI.query _) fun head => .bind (hI.modify fun _ => ?_) fun _ => .pure _
    exact ⟨rfl, rfl, rfl, rfl, rfl, rfl, rfl⟩

theorem insertEntry (hI : Upkeep env I) (e : LogEntry) : Maintains I (Store.insertEntry e) := by
  refine .bind hI.storageCall fun _ => .bind .get fun _ => ?_
  dsimp only
  split
  · exact .throw _
  · exact .bind (hI.modify fun _ => ⟨rfl, rfl, rfl, rfl, rfl, rfl, rfl⟩) fun _ => .pure _

theorem dropLogCount (hI : Upkeep env I) (topic : Topic) :
    Maintains I (Store.dropLogCount topic) :=
  hI.modify fun _ => ⟨rfl, rfl, rfl, rfl, rfl, rfl, rfl⟩

theorem deleteLogRange (hI : Upkeep env I) (topic : Topic) (writer : WriterId) (fromSeq : Nat) :
    Maintains I (Store.deleteLogRange topic writer fromSeq) :=
  .bind (hI.execute _ (fun _ => rfl) (fun _ => rfl) fun _ => rfl) fun _ => hI.dropLogCount _

theorem deleteLogRowids (hI : Upkeep env I) (topic : Topic) (rowids : List Nat) :
    Maintains I (Store.deleteLogRowids topic rowids) := by
  refine .bind (.forM fun rowid => ?_) fun _ => .ite (fun _ => hI.dropLogCount _) fun _ => .pure ()
  exact hI.execute _ (fun _ => rfl) (fun _ => rfl) fun _ => rfl

theorem deleteBatches (hI : Upkeep env I) (fuel total : Nat) :
    Maintains I (Store.deleteBatches topic below before fuel total) := by
  induction fuel generalizing total with
  | zero => exact .pure _
  | succ fuel ih =>
    refine .bind (hI.query _) fun rows => .ite (fun _ => .pure _) fun _ => ?_
    refine .bind (.transaction (.forM fun r => ?_)) fun _ => .ite (fun _ => .pure _) fun _ => ih _
    exact hI.execute _ (fun _ => rfl) (fun _ => rfl) fun _ => rfl

theorem deleteLogRowsUpToRowid (hI : Upkeep env I) :
    Maintains I (Store.deleteLogRowsUpToRowid topic below before) := by
  refine .bind .get fun t => .bind (hI.deleteBatches _ _) fun total => .ite (fun _ => ?_)
    fun _ => .pure _
  exact .bind (hI.dropLogCount _) fun _ => .pure _

theorem deleteStreamPrefix (hI : Upkeep env I) :
    Maintains I (Store.deleteStreamPrefix topic writer seq) :=
  .bind (hI.execute _ (fun _ => rfl) (fun _ => rfl) fun _ => rfl) fun _ =>
    .bind (hI.execute _ (fun _ => rfl) (fun _ => rfl) fun _ => rfl) fun _ => hI.dropLogCount _

/-- The state at a failure does not matter. -/
theorem handlers (hI : Upkeep env I) :
    Handlers env (fun _ => True) True True I fun _ => True where
  fails := fun _ _ => trivial
  kept := by
    intro t t' hkept
    have hdb := congrArg Txn.Kept.db hkept
    exact hI.aside t t' ⟨congrArg Db.Kept.writers hdb, congrArg Db.Kept.finality hdb,
      congrArg Db.Kept.acks hdb, congrArg Txn.Kept.vectors hkept, congrArg Txn.Kept.defined hkept,
      congrArg Txn.Kept.ambient hkept, congrArg Txn.Kept.scopeTails hkept⟩
  getStream := fun topic writer _ => (hI.getStream topic writer).keeps.imp fun _ _ => trivial
  saveHead := fun head => (hI.saveHead head).keeps
  insertEntry := fun _ e _ => (hI.insertEntry e).keeps
  deleteLogRange := fun _ topic writer fromSeq _ => (hI.deleteLogRange topic writer fromSeq).keeps
  deleteLogRowsUpToRowid := fun _ _ _ _ _ => hI.deleteLogRowsUpToRowid.keeps
  deleteLogRowids := fun _ topic rowids _ => (hI.deleteLogRowids topic rowids).keeps
  deleteStreamPrefix := fun _ _ _ _ _ => hI.deleteStreamPrefix.keeps
  ackForget := fun topic node => (hI.ackForget topic node).keeps

/-- Each item keeps the property, if a causal stamp, a certificate and a retirement of a topic
do. -/
theorem processItem (hI : Upkeep env I) (item : QueueItem env)
    (hstamp : ∀ item', item = .append item' → ∀ seq, Maintains I (stampCausal env item' seq))
    (hcert : ∀ cert, item = .cert cert → Maintains I (storeCert cert))
    (hretire : ∀ topic known, item = .retireTopic topic known →
      Maintains I (processRetireTopic env topic)) : Maintains I (processItem env item) :=
  .of_keeps (hI.handlers.processItem item trivial (fun _ => trivial) (fun _ => trivial)
    (fun item' heq seq => (hstamp item' heq seq).keeps)
    (fun cert heq => (hcert cert heq).keeps) fun topic known heq => (hretire topic known heq).keeps)

end Upkeep

/-- A property of the acknowledgments, the tails and the surroundings only. -/
structure Narrow (I : Txn → Prop) : Prop where
  congr : ∀ t t' : Txn, t'.core.db.sqAcks = t.core.db.sqAcks →
    t'.core.scopeTails = t.core.scopeTails → t'.ambient = t.ambient → I t → I t'

namespace Narrow

variable {env : Env} {I : Txn → Prop}

theorem storageCall (hI : Narrow I) : Maintains I storageCall := by
  apply Maintains.bind .get
  intro t
  split
  next => exact .pure ()
  next => exact .throw _
  next => exact .modify fun t => hI.congr t _ rfl rfl rfl

theorem execute (hI : Narrow I) (f : Db → Db) (ha : ∀ db, (f db).sqAcks = db.sqAcks) :
    Maintains I (execute f) :=
  .bind hI.storageCall fun _ => .modify fun t => hI.congr t _ (ha _) rfl rfl

theorem saveHead (hI : Narrow I) (head : WriterRow) : Maintains I (saveHead env head) := by
  refine .bind (.modify fun t => hI.congr t _ rfl rfl rfl) fun _ =>
    .bind (hI.execute _ fun _ => rfl) fun _ => .bind .get fun t => ?_
  split
  next => exact .pure ()
  next =>
    exact .bind (.bind (.bind .get fun _ => .pure _) fun _ => .pure _) fun _ =>
      .modify fun t => hI.congr t _ rfl rfl rfl

theorem upkeep (hI : Narrow I)
    (hforget : ∀ topic node, Maintains I (Store.ackForget topic node)) : Upkeep env I where
  aside := fun t t' haside => hI.congr t t' haside.acks haside.tails haside.ambient
  saveHead := hI.saveHead
  ackForget := hforget

theorem storeCert (hI : Narrow I) (cert : FinalityCert) : Maintains I (storeCert cert) :=
  .bind (hI.execute _ fun _ => rfl) fun _ => .modify fun t => hI.congr t _ rfl rfl rfl

theorem processRetireTopic (hI : Narrow I) (hup : Upkeep env I) (topic : Topic) :
    Maintains I (processRetireTopic env topic) := by
  have hH := hup.handlers
  have hcount : Keeps I (fun _ => True) (Store.logCount topic) := by
    apply Keeps.bind .get
    intro t
    split
    next => exact .pure _
    next =>
      exact .bind (hH.query _) fun _ =>
        .bind (.modify fun t => hI.congr t _ rfl rfl rfl) fun _ => .pure _
  apply Maintains.of_keeps
  refine .bind (hH.topicPolicy topic) fun policy => .ite (fun _ => hH.done _) fun _ =>
    .ite (fun _ => hH.done _) fun _ => .bind hcount fun n =>
      .ite (fun _ => hH.done _) fun _ => .bind .get fun t => .ite (fun _ => hH.done _) fun _ =>
      .bind .get fun t => .ite (fun _ => hH.done _) fun _ => ?_
  refine .bind (hH.query _) fun writers => .bind (.forM fun w _ => ?_) fun _ =>
    hH.replaceRing _ _ fun _ => .bind (.modify fun t => hI.congr t _ rfl rfl rfl) fun _ => hH.done _
  have hdelete : Maintains I (Store.deleteWriter topic w.writer) := hI.execute _ fun _ => rfl
  exact .bind hdelete.keeps fun _ => .modify fun t => hI.congr t _ rfl rfl rfl

theorem processItem (hI : Narrow I) (hup : Upkeep env I) (item : QueueItem env)
    (hstamp : ∀ item', item = .append item' → ∀ seq, Maintains I (stampCausal env item' seq)) :
    Maintains I (processItem env item) :=
  hup.processItem item hstamp (fun cert _ => hI.storeCert cert)
    fun topic _ _ => hI.processRetireTopic hup topic

end Narrow

/-! The recorded acknowledgments. -/

/-- Every recorded acknowledgment meets a property. -/
def AcksMeet (P : AckRow → Prop) (t : Txn) : Prop := ∀ a ∈ t.core.db.sqAcks.rows, P a

namespace AcksMeet

variable {P : AckRow → Prop}

theorem narrow (P : AckRow → Prop) : Narrow (AcksMeet P) := by
  constructor
  intro t t' hacks _ _ h a ha
  rw [hacks] at ha
  exact h a ha

theorem execute (f : Db → Db) (hf : ∀ db, (f db).sqAcks.rows ⊆ db.sqAcks.rows) :
    Maintains (AcksMeet P) (execute f) :=
  .bind (narrow P).storageCall fun _ => .modify fun t h a ha => h a (hf t.core.db ha)

/-- No item adds an acknowledgment. -/
theorem upkeep (env : Env) (P : AckRow → Prop) : Upkeep env (AcksMeet P) := by
  apply (narrow P).upkeep
  intro topic node
  refine .bind (execute _ fun _ a ha => ?_) fun _ => execute _ fun _ _ ha => ha
  rw [Table.rows_filter] at ha
  exact List.mem_of_mem_filter ha

theorem processQueued (q : Queued env) : Maintains (AcksMeet P) (processQueued env q) := by
  refine .bind (.modify fun _ h => h) fun _ => ?_
  apply (narrow P).processItem (upkeep env P)
  exact fun item _ seq => .of_keeps (.stampCausal (fun _ _ h => h) item seq)

end AcksMeet

/-! Reads and the archive pass, wherever they stop. -/

theorem Txn.Aside.refl (t : Txn) : t.Aside t := ⟨rfl, rfl, rfl, rfl, rfl, rfl, rfl⟩

theorem Txn.Aside.trans {t₁ t₂ t₃ : Txn} (h : t₁.Aside t₂) (h' : t₂.Aside t₃) : t₁.Aside t₃ :=
  ⟨h'.writers.trans h.writers, h'.finality.trans h.finality, h'.acks.trans h.acks,
    h'.vectors.trans h.vectors, h'.defined.trans h.defined, h'.ambient.trans h.ambient,
    h'.tails.trans h.tails⟩

/-- A computation that writes elsewhere only, however it ends. -/
structure StaysAside (m : LogM α) : Prop where
  ensures : ∀ t, Ensures m t (t.Aside ·)

namespace StaysAside

theorem pure (a : α) : StaysAside (Pure.pure a : LogM α) := ⟨fun t => .refl t⟩

theorem throw (e : SeqscribeError) : StaysAside (MonadExcept.throw e : LogM α) := ⟨fun t => .refl t⟩

theorem get : StaysAside (MonadState.get : LogM Txn) := ⟨fun t => .refl t⟩

theorem modify (h : ∀ t : Txn, t.Aside (f t)) : StaysAside (modify f : LogM PUnit) := ⟨h⟩

theorem bind {x : LogM α} {f : α → LogM β} (hx : StaysAside x) (hf : ∀ a, StaysAside (f a)) :
    StaysAside (x >>= f) :=
  ⟨fun t => Ensures.bind ((hx.ensures t).mono
    (fun a t' h => ((hf a).ensures t').mono (fun _ _ h' => h.trans h') fun _ _ h' => h.trans h')
    fun _ _ h => h)⟩

theorem ite [Decidable c] {x y : LogM α} (hx : c → StaysAside x) (hy : ¬ c → StaysAside y) :
    StaysAside (if c then x else y) := by
  split
  · next h => exact hx h
  · next h => exact hy h

theorem forM {xs : List α} {f : α → LogM PUnit} (h : ∀ x, StaysAside (f x)) :
    StaysAside (ForM.forM xs f) := by
  induction xs with
  | nil => exact pure ()
  | cons x xs ih =>
    rw [List.forM_cons]
    exact bind (h x) fun _ => ih

theorem foldlM {xs : List α} {f : β → α → LogM β} (h : ∀ b x, StaysAside (f b x)) :
    StaysAside (xs.foldlM f b) := by
  induction xs generalizing b with
  | nil => exact pure b
  | cons x xs ih =>
    rw [List.foldlM_cons]
    exact bind (h b x) fun _ => ih

theorem transaction {body : LogM α} (h : StaysAside body) : StaysAside (transaction body) := by
  constructor
  intro t
  have hbody := h.ensures t
  unfold Ensures Runs at hbody ⊢
  unfold Seqscribe.transaction
  cases hrun : body t with
  | ok a t' =>
    rw [hrun] at hbody
    exact hbody
  | error e t' =>
    rw [hrun] at hbody
    exact ⟨rfl, rfl, rfl, hbody.vectors, hbody.defined, hbody.ambient, hbody.tails⟩

theorem storageCall : StaysAside storageCall := by
  refine .bind .get fun _ => ?_
  split
  · exact .pure ()
  · exact .throw _
  · exact .modify fun _ => ⟨rfl, rfl, rfl, rfl, rfl, rfl, rfl⟩

theorem query (f : Db → α) : StaysAside (query f) :=
  .bind storageCall fun _ => .bind .get fun _ => .pure _

theorem execute (f : Db → Db) (hw : ∀ db, (f db).sqWriters = db.sqWriters)
    (hc : ∀ db, (f db).sqFinality = db.sqFinality) (ha : ∀ db, (f db).sqAcks = db.sqAcks) :
    StaysAside (execute f) :=
  .bind storageCall fun _ => .modify fun _ => ⟨hw _, hc _, ha _, rfl, rfl, rfl, rfl⟩

theorem clock : StaysAside clock := .bind .get fun _ => .pure _

theorem topicPolicy (env : Env) (topic : Topic) : StaysAside (topicPolicy env topic) := by
  unfold Seqscribe.topicPolicy
  split
  · exact .pure _
  · exact .throw _

theorem getStream (env : Env) (topic : Topic) (writer : WriterId) :
    StaysAside (getStream env topic writer) := by
  refine .bind .get fun t => ?_
  split
  · exact .pure _
  · exact .bind (query _) fun _ => .bind (.modify fun _ => ⟨rfl, rfl, rfl, rfl, rfl, rfl, rfl⟩)
      fun _ => .pure _

theorem getCert (topic : Topic) : StaysAside (getCert topic) := by
  refine .bind .get fun t => ?_
  split
  · exact .pure _
  · exact .bind (query _) fun _ => .bind (.modify fun _ => ⟨rfl, rfl, rfl, rfl, rfl, rfl, rfl⟩)
      fun _ => .pure _

theorem floorOf (topic : Topic) (writer : WriterId) : StaysAside (floorOf topic writer) := by
  refine .bind .get fun t => ?_
  split
  · exact .pure _
  · exact .bind (query _) fun _ => .bind (.modify fun _ => ⟨rfl, rfl, rfl, rfl, rfl, rfl, rfl⟩)
      fun _ => .pure _

theorem archiveBatches (fuel total : Nat) :
    StaysAside (Store.archiveBatches topic writer maxSeq maxRowid now fuel total) := by
  induction fuel generalizing total with
  | zero => exact .pure _
  | succ fuel ih =>
    refine .bind (.transaction (.bind (query _) fun rows => .bind (.forM fun r => ?_) fun _ =>
      .pure _)) fun moved => .ite (fun _ => .pure _) fun _ => ih _
    exact .bind (execute _ (fun _ => rfl) (fun _ => rfl) fun _ => rfl) fun _ =>
      execute _ (fun _ => rfl) (fun _ => rfl) fun _ => rfl

theorem archiveCovered : StaysAside (Store.archiveCovered topic writer maxSeq maxRowid now) :=
  .bind .get fun _ => .bind (archiveBatches _ _) fun _ =>
    .ite (fun _ => .bind (.modify fun _ => ⟨rfl, rfl, rfl, rfl, rfl, rfl, rfl⟩) fun _ => .pure _)
      fun _ => .pure _

theorem archiveNow (env : Env) (topic : Topic) : StaysAside (archiveNow env topic) := by
  refine .bind (getCert topic) fun cert => ?_
  split
  · exact .pure ()
  · refine .bind clock fun now => .bind (query _) fun cursors => .bind (.forM fun c => ?_) fun _ =>
      .forM fun c => .ite (fun _ => .bind archiveCovered fun _ => .pure _) fun _ => .pure _
    exact .bind (execute _ (fun _ => rfl) (fun _ => rfl) fun _ => rfl) fun _ =>
      .modify fun _ => ⟨rfl, rfl, rfl, rfl, rfl, rfl, rfl⟩

theorem returns {m : LogM α} (hm : StaysAside m) (h : Returns E m t Q) :
    Returns E m t fun a t' => Q a t' ∧ t.Aside t' := by
  have haside := hm.ensures t
  unfold Returns Ensures Runs at *
  cases hrun : m t with
  | ok a t' =>
    rw [hrun] at h haside
    exact ⟨h.1, h.2, haside⟩
  | error e t' =>
    rw [hrun] at h
    exact h

/-- What holds wherever a computation that stays aside ends holds at the end of what follows. -/
theorem ends {x : LogM α} {f : α → LogM β} {P : Txn → Prop} (hx : StaysAside x)
    (hP : ∀ t', t.Aside t' → P t') (hf : ∀ a t', t.Aside t' → Ensures (f a) t' P) :
    Ensures (x >>= f) t P := .bind ((hx.ensures t).mono hf fun _ => hP)

/-- Where a computation that stays aside ends. -/
theorem ensures_of {m : LogM α} {P : Txn → Prop} (hm : StaysAside m)
    (hP : ∀ t', t.Aside t' → P t') : Ensures m t P :=
  (hm.ensures t).mono (fun _ => hP) fun _ => hP

end StaysAside

/-- The HAVE vectors are cached after all reads. -/
theorem vectors_aside (env : Env) (t : Txn) : Ensures (vectors env) t fun t' =>
    ∃ cache, t.Aside { t' with core.vectorsCache := cache } := by
  have hcached {t' : Txn} (h : t.Aside t') :
      ∃ cache, t.Aside { t' with core.vectorsCache := cache } := ⟨t'.core.vectorsCache, h⟩
  apply StaysAside.get.ends fun t' h => hcached h
  intro t₀ t₁ h₁
  split
  · exact Runs.pure (hcached h₁)
  · have hfloor : StaysAside (tombstoneFloor env) := .bind .clock fun _ => .pure _
    apply hfloor.ends fun t' h => hcached (h₁.trans h)
    intro floor t₂ h₂
    apply (StaysAside.query _).ends fun t' h => hcached (h₁.trans (h₂.trans h))
    intro heads t₃ h₃
    apply StaysAside.get.ends fun t' h => hcached (h₁.trans (h₂.trans (h₃.trans h)))
    intro t₀ t₄ h₄
    apply (StaysAside.foldlM fun out topic => ?_).ends fun t' h =>
      hcached (h₁.trans (h₂.trans (h₃.trans (h₄.trans h))))
    · intro out t₅ h₅
      have hall := h₁.trans (h₂.trans (h₃.trans (h₄.trans h₅)))
      exact Runs.bind (Runs.modify (Runs.pure ⟨t₅.core.vectorsCache, hall⟩))
    · apply StaysAside.bind (StaysAside.topicPolicy env topic)
      intro policy
      apply StaysAside.ite
      · exact fun _ => .pure _
      · intro _
        apply StaysAside.bind (StaysAside.getCert topic)
        intro cert
        split
        · exact .pure _
        · exact .pure _

/-- Outside any transaction. -/
theorem Ensures.runDirect {m : LogM α} {P : Core → Prop}
    (h : Ensures m { Txn.start core fault with ambient := { now := now } } fun t => P t.core) :
    P (runDirect m now fault core).core := by
  rw [Seqscribe.runDirect]
  dsimp only
  cases hrun : m { Txn.start core fault with ambient := { now := now } } with
  | ok a t => exact h.of_ok hrun
  | error e t => exact h.of_error hrun

end Seqscribe
