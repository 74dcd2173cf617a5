import Seqscribe.ViewTable

namespace Seqscribe
set_option autoImplicit true

open Replay

/-! Commits, restores and reads of a view at the cut. -/

namespace Db

theorem insertEntry_cases (db : Db) (e : LogEntry) :
    db.insertEntry e = db ∨
      (db.insertEntry e).sqLog.rows = db.sqLog.rows ++ [⟨db.logSequence + 1, e⟩] ∧
        (db.insertEntry e).logSequence = db.logSequence + 1 ∧
        (db.insertEntry e).sqArchive = db.sqArchive := by
  unfold insertEntry
  cases hi : db.sqLog.insert ⟨db.logSequence + 1, e⟩ with
  | none => exact .inl rfl
  | some sqLog => exact .inr ⟨Table.rows_of_insert hi, rfl, rfl⟩

/-- What a commit does to the log: it appends rows past every rowid used so far. -/
structure Commits (db db' : Db) (new : LogEntry → Prop) : Prop where
  numbered : db.Numbered → db'.Numbered
  sequence : db.logSequence ≤ db'.logSequence
  archive : db'.sqArchive = db.sqArchive
  kept : ∀ r ∈ db.sqLog.rows, r ∈ db'.sqLog.rows
  added : ∀ r ∈ db'.sqLog.rows, r ∈ db.sqLog.rows ∨ db.logSequence < r.rowid ∧ new r.entry

theorem Commits.refl (db : Db) : Commits db db new :=
  ⟨id, le_refl _, rfl, fun _ h => h, fun _ h => .inl h⟩

theorem insertEntry_commits (db : Db) (hnew : new e) : Commits db (db.insertEntry e) new := by
  rcases insertEntry_cases db e with heq | ⟨hrows, hseq, harch⟩
  · rw [heq]
    exact .refl db
  refine ⟨fun hn => ⟨?_, ?_⟩, by omega, harch, fun r hr => ?_, fun r hr => ?_⟩
  · rw [hrows, List.pairwise_append]
    refine ⟨hn.sorted, List.pairwise_singleton _ _, fun r hr r' hr' => ?_⟩
    rw [List.mem_singleton.1 hr']
    exact Nat.lt_succ_of_le (hn.bounded r hr)
  · intro r hr
    rw [hrows, List.mem_append] at hr
    rw [hseq]
    rcases hr with hr | hr
    · exact (hn.bounded r hr).trans (Nat.le_succ _)
    · rw [List.mem_singleton.1 hr]
  · rw [hrows]
    exact List.mem_append_left _ hr
  · rw [hrows, List.mem_append] at hr
    rcases hr with hr | hr
    · exact .inl hr
    · obtain rfl := List.mem_singleton.1 hr
      exact .inr ⟨Nat.lt_succ_self _, hnew⟩

theorem Commits.trans (h₁ : Commits db db' new) (h₂ : Commits db' db'' new) :
    Commits db db'' new where
  numbered := h₂.numbered ∘ h₁.numbered
  sequence := h₁.sequence.trans h₂.sequence
  archive := h₂.archive.trans h₁.archive
  kept := fun r hr => h₂.kept r (h₁.kept r hr)
  added := by
    intro r hr
    rcases h₂.added r hr with hr | ⟨hlt, hnew⟩
    · exact h₁.added r hr
    · exact .inr ⟨lt_of_le_of_lt h₁.sequence hlt, hnew⟩

/-- A committed batch of entries. -/
def commit (db : Db) (es : List LogEntry) : Db := es.foldl insertEntry db

theorem commit_commits (db : Db) (es : List LogEntry) : Commits db (db.commit es) (· ∈ es) := by
  have hgen : ∀ (xs : List LogEntry) (db : Db), (∀ e ∈ xs, e ∈ es) →
      Commits db (xs.foldl insertEntry db) (· ∈ es) := by
    intro xs
    induction xs with
    | nil => exact fun db _ => .refl db
    | cons x xs ih =>
      intro db hxs
      exact (insertEntry_commits db (hxs x (by simp))).trans
        (ih _ fun e he => hxs e (List.mem_cons_of_mem _ he))
  exact hgen es db fun _ he => he

section
variable {db db' : Db} {new : LogEntry → Prop} (hc : Commits db db' new)
include hc

theorem Commits.holds (h : db.Holds topic e) : db'.Holds topic e := by
  obtain ⟨ht, r, hr, he⟩ := h
  exact ⟨ht, r, hc.kept r hr, he⟩

theorem Commits.archived : db'.Archived topic e ↔ db.Archived topic e := by
  unfold Archived
  rw [hc.archive]

theorem Commits.known (h : db.Known topic e) : db'.Known topic e :=
  h.imp hc.archived.2 hc.holds

theorem Commits.known_inv (h : db'.Known topic e) :
    db.Known topic e ∨ e.topic = topic ∧ new e := by
  rcases h with ha | ⟨ht, r, hr, rfl⟩
  · exact .inl (.inl (hc.archived.1 ha))
  · rcases hc.added r hr with hr | ⟨-, hnew⟩
    · exact .inl (.inr ⟨ht, r, hr, rfl⟩)
    · exact .inr ⟨ht, hnew⟩

/-- A watermark does not pass what is committed later. -/
theorem Commits.knownTo_inv (hn : n ≤ db.logSequence) (h : db'.KnownTo topic n e) :
    db.KnownTo topic n e := by
  rcases h with ha | ⟨ht, r, hr, rfl, hle⟩
  · exact .inl (hc.archived.1 ha)
  · rcases hc.added r hr with hr | ⟨hlt, -⟩
    · exact .inr ⟨ht, r, hr, rfl, hle⟩
    · omega

end

theorem maxRowid_le {db : Db} (hn : db.Numbered) (topic : Topic) :
    db.maxRowid topic ≤ db.logSequence := by
  unfold maxRowid
  cases hm : ((db.sqLog.rows.filter fun r => r.entry.topic = topic).map LogRow.rowid).max? with
  | none => exact Nat.zero_le _
  | some m =>
    obtain ⟨r, hr, rfl⟩ := List.mem_map.1 (List.max?_mem hm)
    exact hn.bounded r (List.mem_of_mem_filter hr)

theorem holdsTo_maxRowid {db : Db} (h : db.Holds topic e) :
    db.HoldsTo topic (db.maxRowid topic) e := by
  obtain ⟨ht, r, hr, rfl⟩ := h
  exact ⟨ht, r, hr, rfl, le_maxRowid hr ht⟩

end Db

theorem Order.lt_succ_iff {o ord : Order} :
    o < { ord with seq := ord.seq + 1 } ↔ o ≤ ord := by
  rw [← not_le, Order.le_iff, Order.le_iff]
  simp only [Nat.add_one_le_iff]
  constructor
  · intro h
    by_contra hn
    simp only [not_or, not_and] at h hn
    rcases lt_trichotomy o.l ord.l with hl | hl | hl
    · exact hn.1 hl
    · rcases lt_trichotomy o.c ord.c with hc | hc | hc
      · exact (hn.2 hl).1 hc
      · rcases lt_trichotomy o.writer ord.writer with hw | hw | hw
        · exact ((hn.2 hl).2 hc).1 hw
        · have h₁ := ((hn.2 hl).2 hc).2 hw
          have h₂ := ((h.2 hl.symm).2 hc.symm).2 hw.symm
          omega
        · exact ((h.2 hl.symm).2 hc.symm).1 hw
      · exact (h.2 hl.symm).1 hc
    · exact h.1 hl
  · rintro (hl | ⟨hl, hc | ⟨hc, hw | ⟨hw, hs⟩⟩⟩) <;>
      rintro (hl' | ⟨hl', hc' | ⟨hc', hw' | ⟨hw', hs'⟩⟩⟩)
    all_goals first
      | omega
      | exact absurd (hw.trans hw') (lt_irrefl _)
      | exact absurd hw (by rw [hw']; exact lt_irrefl _)
      | exact absurd hw' (by rw [hw]; exact lt_irrefl _)

namespace ViewHub

variable {S R : Type} {v : ViewDef S R} {topic : Topic} {N : Nat}
  {seen all : LogEntry → Prop}

/-- The batches of `stateAt` add up to everything after the cursor, up to the order. -/
theorem stateAtLoop_eq {db : Db} {fuel : Nat} {cursor : Option Order} {state : S}
    (hfuel : (after orderOf cursor (db.topicEntries topic)).length < fuel) :
    stateAtLoop topic v db ord fuel cursor state =
      ((after orderOf cursor (db.topicEntries topic)).filter
        fun e => decide (orderOf e ≤ ord)).foldl v.reduce state := by
  induction fuel generalizing cursor state with
  | zero => omega
  | succ fuel ih =>
    have hsorted := Db.sorted_topicEntries db topic
    have hM : (after orderOf cursor (db.topicEntries topic)).Pairwise
        fun a b => orderOf a < orderOf b := hsorted.filter _
    rw [filter_le_eq_takeWhile hM]
    unfold stateAtLoop
    unfold Db.entriesAfterOrder
    dsimp only
    have htake := List.take_append_drop FOLD_BATCH (after orderOf cursor (db.topicEntries topic))
    simp only [orderCompare_le_zero]
    generalize hentries : (after orderOf cursor (db.topicEntries topic)).take FOLD_BATCH = entries
    rw [hentries] at htake
    rw [← htake, List.takeWhile_append]
    split
    · next hstop =>
      rcases hstop with rfl | hlt
      · have hnil : after orderOf cursor (db.topicEntries topic) = [] := by
          simpa [FOLD_BATCH] using hentries
        simp [hnil]
      · rw [if_neg (Nat.ne_of_lt hlt)]
    · next hgo =>
      simp only [not_or, not_lt] at hgo
      have hwithin := (List.takeWhile_prefix (l := entries)
        fun e => decide (orderOf e ≤ ord)).eq_of_length_le hgo.2
      have hne : (after orderOf cursor (db.topicEntries topic)).take FOLD_BATCH ≠ [] := by
        rw [hentries]
        exact hgo.1
      have hrest := after_lastKey_take hsorted hne
      rw [hentries] at hrest
      have hlen : 0 < entries.length := List.length_pos_iff.2 hgo.1
      have hsplit := congrArg List.length htake
      rw [List.length_append] at hsplit
      rw [if_pos (by rw [hwithin]), hwithin, ih, hrest,
        filter_le_eq_takeWhile (hM.sublist (List.drop_sublist _ _)), List.foldl_append]
      rw [hrest]
      omega

/-- What `stateAt` returns covers everything seen at or below the order, given that the
checkpoint it starts from does. -/
theorem stateAt_point {h : ViewHub v} {ord : Order}
    (hpoints : ∀ c ∈ h.checkpoints.rows, c.1 ≤ ord → Point v seen all c)
    (hholds : ∀ e, h.db.Holds topic e → all e)
    (hseen : ∀ e, seen e → orderOf e ≤ ord →
      Upto (h.restorePoint { ord with seq := ord.seq + 1 }) e ∨ h.db.Holds topic e) :
    Point v seen all (ord, stateAt topic h ord) := by
  have hbase : ∀ (cursor : Option Order) (s : S), (∀ o ∈ cursor, o ≤ ord) →
      (∀ e, seen e → orderOf e ≤ ord → Upto cursor e ∨ h.db.Holds topic e) →
      Reached v (fun e => seen e ∧ Upto cursor e) all cursor s →
      Point v seen all
        (ord, stateAtLoop topic v h.db ord (h.db.sqLog.rows.length + 1) cursor s) := by
    rintro cursor s hle hhold ⟨X, hX, rfl⟩
    have hfuel : (after orderOf cursor (h.db.topicEntries topic)).length <
        h.db.sqLog.rows.length + 1 :=
      Nat.lt_succ_of_le ((List.length_filter_le _ _).trans (Db.length_topicEntries_le h.db topic))
    rw [stateAtLoop_eq hfuel]
    refine ⟨X ++ (after orderOf cursor (h.db.topicEntries topic)).filter
      (fun e => decide (orderOf e ≤ ord)), ?_, by rw [ViewDef.fold, ViewDef.fold, List.foldl_append]⟩
    apply hX.append
    · exact ((Db.sorted_topicEntries h.db topic).filter _).filter _
    · intro x hx y hy
      obtain ⟨o, ho, hxo⟩ := (hX.sound x hx).2
      exact lt_of_le_of_lt hxo ((mem_after.1 (List.mem_of_mem_filter hy)).2 o ho)
    · intro x hx
      obtain ⟨hall, o, ho, hxo⟩ := hX.sound x hx
      exact ⟨hall, ord, rfl, hxo.trans (hle o ho)⟩
    · intro y hy
      obtain ⟨hy, hyo⟩ := List.mem_filter.1 hy
      exact ⟨hholds y (Db.mem_topicEntries.1 (mem_after.1 hy).1), ord, rfl, by simpa using hyo⟩
    · rintro e ⟨hs, o, ⟨⟩, heo⟩
      by_cases hu : Upto cursor e
      · exact .inl ⟨hs, hu⟩
      · right
        rw [List.mem_filter, mem_after]
        refine ⟨⟨Db.mem_topicEntries.2 ?_, not_upto.1 hu⟩, by simpa using heo⟩
        exact (hhold e hs heo).resolve_left hu
  unfold stateAt
  unfold restorePoint at hseen
  dsimp only
  cases hc : h.checkpoints.checkpointBefore { ord with seq := ord.seq + 1 } with
  | none =>
    rw [hc] at hseen
    exact hbase none v.init (by simp) hseen Reached.init
  | some ckpt =>
    rw [hc] at hseen
    obtain ⟨hmem, hlt⟩ := Checkpoints.mem_checkpointBefore hc
    have hle := Order.lt_succ_iff.1 hlt
    exact hbase (some ckpt.1) ckpt.2 (by rintro o ⟨⟩; exact hle) hseen (hpoints ckpt hmem hle)

/-- A complete point holds the fold of everything at or below it. -/
theorem point_known {db : Db} (hno : ∀ e, ¬ db.Archived topic e)
    (h : Point v (db.Known topic) (db.Known topic) c) :
    c.2 = v.fold ((db.topicEntries topic).filter fun e => decide (orderOf e ≤ c.1)) := by
  obtain ⟨X, hX, hs⟩ := h
  rw [hs]
  congr 1
  have hL := Db.covers_topicEntries db topic
  apply sorted_ext hX.sorted (hL.sorted.filter _)
  intro e
  rw [List.mem_filter, Db.mem_topicEntries]
  constructor
  · intro he
    obtain ⟨hk, o, ⟨⟩, hle⟩ := hX.sound e he
    exact ⟨hk.resolve_left (hno e), by simpa using hle⟩
  · rintro ⟨hh, hle⟩
    exact hX.complete e ⟨.inr hh, c.1, rfl, by simpa using hle⟩

theorem reached_known {db : Db} (hno : ∀ e, ¬ db.Archived topic e)
    (h : Reached v (db.Known topic) (db.Known topic) cursor s) :
    s = v.fold (db.topicEntries topic) := by
  obtain ⟨X, hX, hs⟩ := h
  rw [hs]
  congr 1
  refine Covers.eq ?_ (Db.covers_topicEntries db topic)
  apply hX.mono
  · exact fun e he => .inr he
  · exact fun e he => he.1.resolve_left (hno e)

variable [DecidableEq R]

/-- `register` on complete checkpoints. -/
theorem register_tracks (topic : Topic) (N : Nat) (seen all : LogEntry → Prop) {h : ViewHub v}
    (hpoints : ∀ c ∈ h.checkpoints.rows, Point v seen all c)
    (hholds : ∀ e, h.db.Holds topic e → all e)
    (hseen : ∀ e, seen e → h.db.Holds topic e) :
    (register topic N h).inst.faulted = true ∨
      (register topic N h).db = h.db ∧
        (register topic N h).inst.lastRowid = h.db.maxRowid topic ∧
        Tracks seen all (register topic N h) := by
  unfold register
  dsimp only
  have hgen : ∀ inst : Instance v,
      Reached v (fun e => seen e ∧ Upto inst.ord e) all inst.ord inst.state →
      (refoldFrom topic N { h with inst := inst } inst.ord).inst.faulted = true ∨
        (refoldFrom topic N { h with inst := inst } inst.ord).db = h.db ∧
          Tracks seen all (refoldFrom topic N { h with inst := inst } inst.ord) := by
    intro inst hinst
    rcases refoldFrom_tracks (N := N) (h := { h with inst := inst })
      hinst hpoints hholds (fun e he => .inr (hseen e he)) with hf | ⟨hdb, -, ht⟩
    · exact .inl hf
    · exact .inr ⟨hdb, ht⟩
  cases hc : h.checkpoints.checkpointBefore ⟨MAX_SAFE_INTEGER, 0, "", 0⟩ with
  | none =>
    rcases hgen (.fresh v) Reached.init with hf | ⟨hdb, ht⟩
    · exact .inl hf
    · exact .inr ⟨hdb, congrArg (Db.maxRowid · topic) hdb, ht.state, ht.points⟩
  | some ckpt =>
    rcases hgen { Instance.fresh v with state := ckpt.2, ord := some ckpt.1 }
      (hpoints ckpt (Checkpoints.mem_checkpointBefore hc).1) with hf | ⟨hdb, ht⟩
    · exact .inl hf
    · exact .inr ⟨hdb, congrArg (Db.maxRowid · topic) hdb, ht.state, ht.points⟩

/-- `rebuild` on complete checkpoints. -/
theorem rebuild_tracks {h : ViewHub v}
    (hpoints : ∀ c ∈ h.checkpoints.rows, Point v seen all c)
    (hholds : ∀ e, h.db.Holds topic e → all e)
    (hseen : ∀ e, seen e → h.db.Holds topic e) :
    (rebuild topic N h).inst.faulted = true ∨
      (rebuild topic N h).db = h.db ∧
        (rebuild topic N h).inst.lastRowid = h.db.maxRowid topic ∧
        Tracks seen all (rebuild topic N h) := by
  unfold rebuild
  dsimp only
  have hgen : ∀ (cs : Checkpoints S) (inst : Instance v),
      (∀ c ∈ cs.rows, Point v seen all c) →
      Reached v (fun e => seen e ∧ Upto inst.ord e) all inst.ord inst.state →
      (refoldFrom topic N { h with checkpoints := cs, inst := inst } inst.ord).inst.faulted
          = true ∨
        (refoldFrom topic N { h with checkpoints := cs, inst := inst } inst.ord).db = h.db ∧
          Tracks seen all
            (refoldFrom topic N { h with checkpoints := cs, inst := inst } inst.ord) := by
    intro cs inst hcs hinst
    rcases refoldFrom_tracks (N := N)
      (h := { h with checkpoints := cs, inst := inst })
      hinst hcs hholds (fun e he => .inr (hseen e he)) with hf | ⟨hdb, -, ht⟩
    · exact .inl hf
    · exact .inr ⟨hdb, ht⟩
  cases hc : h.checkpoints.earliestCheckpoint with
  | none =>
    rcases hgen Table.empty { h.inst with
      state := v.init, ord := none, lastRowid := 0, sinceCheckpoint := 0, faulted := false }
      (fun c hc => by cases hc) Reached.init with hf | ⟨hdb, ht⟩
    · exact .inl hf
    · exact .inr ⟨hdb, congrArg (Db.maxRowid · topic) hdb, ht.state, ht.points⟩
  | some base =>
    have hbase := hpoints base (Checkpoints.mem_earliestCheckpoint hc)
    rcases hgen (Table.empty.upsert base) { h.inst with
      state := base.2, ord := some base.1, lastRowid := 0, sinceCheckpoint := 0, faulted := false }
      (fun c hc => by
        rcases Table.eq_or_mem_of_mem_upsert hc with rfl | hc
        · exact hbase
        · cases hc) hbase with hf | ⟨hdb, ht⟩
    · exact .inl hf
    · exact .inr ⟨hdb, congrArg (Db.maxRowid · topic) hdb, ht.state, ht.points⟩

theorem register_lawful (hlaw : v.Lawful) {h : ViewHub v}
    (hpoints : ∀ c ∈ h.checkpoints.rows, ∃ es, c.2 = v.fold es) :
    (register topic N h).inst.faulted = false ∧ InSync (register topic N h) := by
  unfold register
  dsimp only
  have hgen : ∀ inst : Instance v, inst.faulted = false → (∃ es, inst.state = v.fold es) →
      (refoldFrom topic N { h with inst := inst } inst.ord).inst.faulted = false ∧
        InSync (refoldFrom topic N { h with inst := inst } inst.ord) :=
    fun inst hnf hon => refoldFrom_lawful hlaw (h := { h with inst := inst }) hon hnf _
  cases hc : h.checkpoints.checkpointBefore ⟨MAX_SAFE_INTEGER, 0, "", 0⟩ with
  | none =>
    obtain ⟨hnf, hsync⟩ := hgen (.fresh v) rfl ⟨[], rfl⟩
    exact ⟨hnf, hsync.matched, hsync.cached⟩
  | some ckpt =>
    obtain ⟨hnf, hsync⟩ := hgen { Instance.fresh v with state := ckpt.2, ord := some ckpt.1 } rfl
      (hpoints ckpt (Checkpoints.mem_checkpointBefore hc).1)
    exact ⟨hnf, hsync.matched, hsync.cached⟩

theorem rebuild_lawful (hlaw : v.Lawful) {h : ViewHub v}
    (hpoints : ∀ c ∈ h.checkpoints.rows, ∃ es, c.2 = v.fold es) :
    (rebuild topic N h).inst.faulted = false ∧ InSync (rebuild topic N h) := by
  unfold rebuild
  dsimp only
  have hgen : ∀ (cs : Checkpoints S) (inst : Instance v), inst.faulted = false →
      (∃ es, inst.state = v.fold es) →
      (refoldFrom topic N { h with checkpoints := cs, inst := inst } inst.ord).inst.faulted
          = false ∧
        InSync (refoldFrom topic N { h with checkpoints := cs, inst := inst } inst.ord) :=
    fun cs inst hnf hon =>
      refoldFrom_lawful hlaw (h := { h with checkpoints := cs, inst := inst }) hon hnf _
  cases hc : h.checkpoints.earliestCheckpoint with
  | none =>
    obtain ⟨hnf, hsync⟩ := hgen Table.empty { h.inst with
      state := v.init, ord := none, lastRowid := 0, sinceCheckpoint := 0, faulted := false }
      rfl ⟨[], rfl⟩
    exact ⟨hnf, hsync.matched, hsync.cached⟩
  | some base =>
    obtain ⟨hnf, hsync⟩ := hgen (Table.empty.upsert base) { h.inst with
      state := base.2, ord := some base.1, lastRowid := 0, sinceCheckpoint := 0,
      faulted := false } rfl (hpoints base (Checkpoints.mem_earliestCheckpoint hc))
    exact ⟨hnf, hsync.matched, hsync.cached⟩

end ViewHub

end Seqscribe
