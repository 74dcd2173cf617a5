import Seqscribe.Counts
import Seqscribe.FinalityGate
import Seqscribe.Integrity
import Seqscribe.LogOrder

namespace Seqscribe
set_option autoImplicit true

/-! The archived rows of a stream, followed by its rows in the log. -/

variable {env : Env} {topic : Topic} {t : Txn}

/-- What an archive pass needs of a property to keep it: each row that moves is the first of the
rows that its call covers. -/
structure ArchiveUpkeep (topic : Topic) (moved : LogRow → Prop) (I : LogState → Prop) : Prop where
  numbered : ∀ s, I s → s.Numbered
  move : ∀ s r atMs writer maxSeq maxRowid, I s → r ∈ s.log.rows → moved r →
    coveredBy topic writer maxSeq maxRowid r = true →
    (∀ r' ∈ s.log.rows, coveredBy topic writer maxSeq maxRowid r' = true → r' ≠ r →
      r.entry.seq < r'.entry.seq) → I (s.moveRow atMs r)
  recount : ∀ s counts archiveCounts, I s →
    I { s with counts := counts, archiveCounts := archiveCounts }

namespace ArchiveUpkeep

variable {moved : LogRow → Prop} {I : LogState → Prop} {writer : WriterId} {maxSeq maxRowid : Nat}

/-- The rows that are still to move: each is in the log, and before the covered rows that come
after it. -/
structure Queue (moved covered : LogRow → Prop) (s : LogState) (rows : List LogRow) : Prop where
  held : ∀ r ∈ rows, r ∈ s.log.rows ∧ moved r ∧ covered r
  sorted : rows.Pairwise fun r r' => r.entry.seq < r'.entry.seq
  first : ∀ r ∈ rows, ∀ r' ∈ s.log.rows, covered r' → r' ∉ rows → r.entry.seq < r'.entry.seq

theorem Queue.tail {covered : LogRow → Prop} (h : Queue moved covered s (r :: rows))
    (hn : s.Numbered) : Queue moved covered (s.moveRow atMs r) rows where
  held := by
    intro r' hr'
    obtain ⟨hmem, hm⟩ := h.held r' (List.mem_cons_of_mem r hr')
    refine ⟨List.mem_filter.2 ⟨hmem, ?_⟩, hm⟩
    rw [Bool.not_eq_true', decide_eq_false_iff_not]
    intro heq
    obtain rfl := hn.inj hmem (h.held r List.mem_cons_self).1 heq
    exact absurd ((List.pairwise_cons.1 h.sorted).1 r' hr') (Nat.lt_irrefl _)
  sorted := (List.pairwise_cons.1 h.sorted).2
  first := by
    intro r' hr' r'' hr'' hcov hnot
    obtain ⟨hmem, hne⟩ := List.mem_filter.1 hr''
    rw [Bool.not_eq_true', decide_eq_false_iff_not] at hne
    apply h.first r' (List.mem_cons_of_mem r hr') r'' hmem hcov
    intro hin
    rcases List.mem_cons.1 hin with rfl | hin
    · exact hne rfl
    · exact hnot hin

/-- The first of the covered rows. -/
theorem queue_take (hmoved : ∀ r, coveredBy topic writer maxSeq maxRowid r = true → moved r)
    (s : LogState) (n : Nat) :
    Queue moved (fun r => coveredBy topic writer maxSeq maxRowid r = true) s
      ((s.log.selectBy (coveredBy topic writer maxSeq maxRowid) (·.entry.seq)).take n) := by
  generalize hsel : s.log.selectBy (coveredBy topic writer maxSeq maxRowid) (·.entry.seq) = rows
  have hmem (r : LogRow) : r ∈ rows ↔
      r ∈ s.log.rows ∧ coveredBy topic writer maxSeq maxRowid r = true := by
    rw [← hsel, Table.mem_selectBy]
  have hsorted : rows.Pairwise fun r r' => r.entry.seq < r'.entry.seq := by
    have hle := s.log.pairwise_selectBy (coveredBy topic writer maxSeq maxRowid) (·.entry.seq)
    have hnodup : (s.log.selectBy (coveredBy topic writer maxSeq maxRowid) (·.entry.seq)).Nodup :=
      (List.perm_insertionSort _ _).nodup_iff.2 (s.log.nodup.of_map.filter _)
    rw [hsel] at hle hnodup
    apply (hle.and hnodup).imp_of_mem
    rintro r r' hr hr' ⟨hle, hne⟩
    apply lt_of_le_of_ne hle
    intro hseq
    obtain ⟨hr, hcov⟩ := (hmem r).1 hr
    obtain ⟨hr', hcov'⟩ := (hmem r').1 hr'
    have hid : r.entry.id = r'.entry.id := by
      obtain ⟨ht, hw⟩ := of_decide_eq_true (Bool.and_eq_true_iff.1 hcov).1
      obtain ⟨ht', hw'⟩ := of_decide_eq_true (Bool.and_eq_true_iff.1 hcov').1
      rw [LogEntry.id, LogEntry.id, ht, hw, ht', hw', hseq]
    exact hne (List.inj_on_of_nodup_map s.log.nodup hr hr' hid)
  constructor
  · intro r hr
    obtain ⟨hr, hcov⟩ := (hmem r).1 (List.mem_of_mem_take hr)
    exact ⟨hr, hmoved r hcov, hcov⟩
  · exact hsorted.sublist (List.take_sublist ..)
  · intro r hr r' hr' hcov hnot
    rw [← List.take_append_drop n rows, List.pairwise_append] at hsorted
    have hin : r' ∈ List.take n rows ++ List.drop n rows := by
      rw [List.take_append_drop]
      exact (hmem r').2 ⟨hr', hcov⟩
    exact hsorted.2.2 r hr r' ((List.mem_append.1 hin).resolve_left hnot)

theorem archiveRows (hI : ArchiveUpkeep topic moved I) (rows : List LogRow) (ht : I t.logState)
    (hq : Queue moved (fun r => coveredBy topic writer maxSeq maxRowid r = true) t.logState rows) :
    Runs (forM rows fun r => do
        execute fun db => { db with sqArchive := db.sqArchive.insertIgnore ⟨r.entry, atMs⟩ }
        execute fun db =>
          { db with sqLog := db.sqLog.filter fun r' => !decide (r'.rowid = r.rowid) }) t
      (fun _ t' => I t'.logState) fun _ t' => t'.core = { t.core with db := t'.core.db } := by
  have hn := hI.numbered _ ht
  suffices h : Runs _ t (fun _ t' => t'.core = { t.core with db := t'.core.db } ∧ I t'.logState)
      fun _ t' => t'.core = { t.core with db := t'.core.db } from
    h.mono (fun _ _ h => h.2) fun _ _ h => h
  induction rows generalizing t with
  | nil => exact ⟨rfl, ht⟩
  | cons r rows ih =>
    obtain ⟨hr, hm, hcov⟩ := hq.held r List.mem_cons_self
    have hfirst (r' : LogRow) (hr' : r' ∈ t.logState.log.rows)
        (hcov' : coveredBy topic writer maxSeq maxRowid r' = true) (hne : r' ≠ r) :
        r.entry.seq < r'.entry.seq := by
      by_cases hin : r' ∈ rows
      · exact (List.pairwise_cons.1 hq.sorted).1 r' hin
      · exact hq.first r List.mem_cons_self r' hr' hcov' fun h =>
          (List.mem_cons.1 h).elim hne hin
    have hmove := hI.move _ r atMs writer maxSeq maxRowid ht hr hm hcov hfirst
    rw [List.forM_cons]
    refine .bind (.bind (execute_runs (fun fault => ?_) fun _ => rfl))
    refine execute_runs (fun fault' => ?_) fun _ => rfl
    exact ih (t := { t with
        core.db.sqArchive := t.core.db.sqArchive.insertIgnore ⟨r.entry, atMs⟩
        core.db.sqLog := t.core.db.sqLog.filter fun r' => !decide (r'.rowid = r.rowid)
        fault := fault' }) hmove (hq.tail hn) (hI.numbered _ hmove)

theorem archiveBatches (hI : ArchiveUpkeep topic moved I)
    (hmoved : ∀ r, coveredBy topic writer maxSeq maxRowid r = true → moved r) (ht : I t.logState)
    (fuel total : Nat) :
    Ensures (Store.archiveBatches topic writer maxSeq maxRowid atMs fuel total) t
      fun t' => I t'.logState := by
  induction fuel generalizing total t with
  | zero => exact ht
  | succ fuel ih =>
    apply Ensures.bind
    apply transaction_runs
    refine .bind (query_runs (fun fault => ?_) fun _ => ht)
    generalize hrows : List.take Store.BATCH _ = rows
    have hq : Queue moved (fun r => coveredBy topic writer maxSeq maxRowid r = true)
        t.logState rows := hrows ▸ queue_take hmoved t.logState _
    refine .bind ((hI.archiveRows (t := { t with fault := fault }) rows ht hq).mono
      (fun _ t' ht' => .pure ?_) fun e t' ht' => ?_)
    · split
      next => exact ht'
      next => exact ih ht' _
    · have hback : Txn.logState { t' with core.db := t.core.db } = t.logState := by
        rw [Txn.logState, ht']
        rfl
      rw [hback]
      exact ht

theorem archiveCovered (hI : ArchiveUpkeep topic moved I)
    (hmoved : ∀ r, coveredBy topic writer maxSeq maxRowid r = true → moved r) :
    Keeps (fun t => I t.logState) (fun t => I t.logState)
      (Store.archiveCovered topic writer maxSeq maxRowid atMs) := by
  constructor
  intro t ht
  refine .bind (.get (.bind ?_))
  apply (hI.archiveBatches hmoved ht _ 0).mono _ fun _ _ h => h
  intro total t' ht'
  split
  next => exact .bind (.modify (.pure ⟨trivial, hI.recount _ _ _ ht'⟩))
  next => exact ⟨trivial, ht'⟩

/-- Wherever an archive pass ends, the property is kept. -/
theorem archiveNow (env : Env) (hI : ArchiveUpkeep topic moved I)
    (hmoved : ∀ cert, t.core.certOf topic = some cert → ∀ c ∈ cert.cut.rows, ∀ r,
      coveredBy topic c.writer c.seq (archiveFloor env t.core.db topic t.ambient.now) r = true →
        moved r) (ht : I t.logState) :
    Ensures (archiveNow env topic) t fun t' => I t'.logState := by
  refine .bind ((getCert_certOf topic t).mono (fun found t₁ h₁ => ?_) fun _ t' heq => heq ▸ ht)
  obtain ⟨hcert, hstate, hdb, hambient⟩ := h₁
  rw [← hstate] at ht
  rw [← hdb, ← hambient] at hmoved
  split
  next => exact ht
  next cert =>
    have hcut := hmoved cert hcert.symm
    have hstale (cursors : List CursorRow) :
        Keeps (fun t => I t.logState) (fun t => I t.logState) (forM cursors fun c => do
          Store.cursorDelete c.consumer topic
          report (.consumerAbandoned topic c.consumer)) :=
      .forM fun c _ => .bind (LogUpkeep.execute (fun _ h => h) _ fun _ => ⟨rfl, rfl, rfl⟩) fun _ =>
        .modify fun _ h => h
    have hrows : Keeps (fun t => I t.logState) (fun t => I t.logState)
        (forM cert.cut.rows fun c => do
          if c.seq ≠ 0 then
            let _ ← Store.archiveCovered topic c.writer c.seq
              (archiveFloor env t₁.core.db topic t₁.ambient.now) t₁.ambient.now) :=
      .forM fun c hc => .ite (fun _ => .bind (hI.archiveCovered (hcut c hc)) fun _ => .pure _)
        fun _ => .pure _
    refine .bind (.bind (.get (.pure (.bind (query_runs (fun fault => ?_) fun _ => ht)))))
    refine .bind (((hstale _).runs { t₁ with fault := fault } ht).mono (fun _ t₂ h₂ => ?_)
      fun _ _ h => h)
    exact (hrows.runs t₂ h₂.2).mono (fun _ _ h => h.2) fun _ _ h => h

end ArchiveUpkeep

/-! The history of one stream. -/

namespace Stream

variable {S S' : Stream} {k : StreamId} {P : Act → Prop}

/-- A stream whose archived rows are back in the log. -/
def united (S : Stream) : Stream := { S with rows := fun s => (S.archive s).or (S.rows s) }

/-- The archived rows are at or below a position, and the one there has the chain. -/
def ArchivedTo (S : Stream) (pos : Nat) (chain : Chain) : Prop :=
  ∀ s e, S.archive s = some e → s ≤ pos ∧ (s = pos → e.chain = chain)

/-- The archived rows come before the rows in the log, and none is beyond the head. -/
structure Joined (k : StreamId) (S : Stream) : Prop where
  sound : S.united.Sound k
  zero : S.archive 0 = none
  first : ∀ s e s' e', S.archive s = some e → S.rows s' = some e' → s < s'

theorem rows_united (S : Stream) (s : Nat) : S.united.rows s = (S.archive s).or (S.rows s) := rfl

theorem archive_put (S : Stream) (e : LogEntry) : (S.put env e).archive = S.archive := by
  rw [put]
  split <;> rfl

theorem united_put (hnone : S.archive e.seq = none) :
    (S.put env e).united = S.united.put env e := by
  rw [put, put]
  split
  next =>
    have hrows : (fun s => (S.archive s).or (Function.update S.rows e.seq (some e) s)) =
        Function.update S.united.rows e.seq (some e) := by
      funext s
      by_cases hs : s = e.seq
      · rw [hs, Function.update_self, Function.update_self, hnone, Option.none_or]
      · rw [Function.update_of_ne hs, Function.update_of_ne hs]
        rfl
    exact congrArg (fun rows => { S with rows := rows }) hrows
  next => rfl

/-- Rows beyond the archived ones go to quarantine as they do when these are back in the log. -/
theorem united_quarantineFrom (hnone : ∀ s, fromSeq ≤ s → S.archive s = none) :
    (S.quarantineFrom fromSeq hi reason now).united =
      S.united.quarantineFrom fromSeq hi reason now := by
  have hrows : (fun s => (S.archive s).or (if fromSeq ≤ s then none else S.rows s)) =
      fun s => if fromSeq ≤ s then none else S.united.rows s := by
    funext s
    split
    next hs => rw [hnone s hs, Option.none_or]
    next => rfl
  have hquarantine : (S.quarantineFrom fromSeq hi reason now).quarantine =
      (S.united.quarantineFrom fromSeq hi reason now).quarantine := by
    funext s
    rw [quarantineFrom, quarantineFrom]
    dsimp only
    by_cases hs : fromSeq ≤ s ∧ s ≤ hi
    · rw [if_pos hs, if_pos hs, rows_united, hnone s hs.1, Option.none_or]
      rfl
    · rw [if_neg hs, if_neg hs]
      rfl
  exact congrArg₂ (fun rows quarantine => { S with rows := rows, quarantine := quarantine }) hrows
    hquarantine

namespace Joined

theorem archive_le (h : S.Joined k) (hrow : S.archive s = some e) : s ≤ S.head.contigSeq := by
  have hunited : S.united.rows s = some e := by rw [rows_united, hrow, Option.some_or]
  exact h.sound.row_le hunited

theorem row_le (h : S.Joined k) (hrow : S.rows s = some e) : s ≤ S.head.contigSeq := by
  cases harchive : S.archive s with
  | some a => exact h.archive_le harchive
  | none =>
    have hunited : S.united.rows s = some e := by rw [rows_united, harchive, Option.none_or, hrow]
    exact h.sound.row_le hunited

/-- A move of the head, or of what waits for it, is the same move of the united stream. -/
theorem move (h : S.Joined k) (hmove : S.Move env a S') (hrewind : ∀ s, a ≠ .rewind s)
    (hthin : a ≠ .thin) (hvacate : a = .vacate → ∀ s, S.archive s = none) :
    S.united.Move env a S'.united ∧ S'.archive = S.archive ∧ S'.Joined k := by
  suffices hunited : S.united.Move env a S'.united ∧ S'.archive = S.archive ∧
      ∀ s e s' e', S.archive s = some e → S'.rows s' = some e' → s < s' by
    obtain ⟨hmove', harchive, hfirst⟩ := hunited
    refine ⟨hmove', harchive, h.sound.move hmove', harchive ▸ h.zero, fun s e s' e' he => ?_⟩
    exact hfirst s e s' e' (harchive ▸ he)
  cases hmove with
  | advance _ e hid hseq hchain =>
    have hnone : S.archive e.seq = none := by
      cases harchive : S.archive e.seq with
      | none => rfl
      | some a => exact absurd (h.archive_le harchive) (by omega)
    have heq : (S.advance env e).united = S.united.advance env e :=
      congrArg (saveHead { S.head with contigSeq := e.seq, contigChain := e.chain })
        (united_put hnone)
    refine ⟨heq ▸ .advance S.united e hid hseq hchain, archive_put .., ?_⟩
    intro s a s' e' ha he'
    replace he' : (S.put env e).rows s' = some e' := he'
    rw [rows_put] at he'
    split at he'
    next hnew => exact lt_of_le_of_lt (h.archive_le ha) (by omega)
    next => exact h.first s a s' e' ha he'
  | rewind => exact absurd rfl (hrewind _)
  | thin => exact absurd rfl hthin
  | jump _ s chain hs => exact ⟨.jump S.united s chain hs, rfl, h.first⟩
  | fork => exact ⟨.fork S.united, rfl, h.first⟩
  | retire _ target now => exact ⟨.retire S.united target now, rfl, h.first⟩
  | revive _ rgen => exact ⟨.revive S.united rgen, rfl, h.first⟩
  | seek _ target => exact ⟨.seek S.united target, rfl, h.first⟩
  | shelve _ pending floor => exact ⟨.shelve S.united pending floor, rfl, h.first⟩
  | vacate _ hnone =>
    refine ⟨.vacate S.united fun s => ?_, rfl, h.first⟩
    rw [rows_united, hvacate rfl s, hnone s]
    rfl

/-- A rewind to a position that the archived rows do not exceed. -/
theorem rewind (env : Env) (h : S.Joined k) (hs : s ≤ S.head.contigSeq)
    (hbelow : ∀ s' e, S.archive s' = some e → s' ≤ s)
    (hchain : (s = S.head.contigSeq ∧ chain = S.head.contigChain) ∨
      (∀ held, S.chainHeldAt env s = some held → chain = held) ∧
        ∀ e, S.archive s = some e → e.chain = chain)
    (why : SealReason) (hi : Nat) (reason : QuarantineReason) (now : Nat) :
    let S' := (S.quarantineFrom (s + 1) hi reason now).saveHead
      { S.head with contigSeq := s, contigChain := chain, sealReason := some why }
    S.united.Move env (.rewind s) S'.united ∧ S'.archive = S.archive ∧ S'.Joined k := by
  intro S'
  have hnone (s' : Nat) (hs' : s + 1 ≤ s') : S.archive s' = none := by
    cases harchive : S.archive s' with
    | none => rfl
    | some a => exact absurd (hbelow s' a harchive) (by omega)
  have heq : S'.united = (S.united.quarantineFrom (s + 1) hi reason now).saveHead
      { S.head with contigSeq := s, contigChain := chain, sealReason := some why } :=
    congrArg (saveHead { S.head with
      contigSeq := s, contigChain := chain, sealReason := some why }) (united_quarantineFrom hnone)
  have hmove : S.united.Move env (.rewind s) S'.united := by
    rw [heq]
    apply Move.rewind S.united s hi chain why reason now hs
    rcases hchain with hend | ⟨hheld, harch⟩
    · exact .inl hend
    · right
      intro held hat
      rw [chainHeldAt] at hat
      split at hat
      next hzero => exact hheld held ((if_pos hzero).trans hat)
      next hpos =>
        rw [rows_united] at hat
        cases harchive : S.archive s with
        | none =>
          rw [harchive, Option.none_or] at hat
          exact hheld held ((if_neg hpos).trans hat)
        | some a =>
          rw [harchive, Option.some_or] at hat
          exact (harch a harchive).symm.trans (Option.some.inj hat)
  refine ⟨hmove, rfl, h.sound.move hmove, h.zero, fun s₁ a s₂ e ha he => ?_⟩
  replace he : (if s + 1 ≤ s₂ then none else S.rows s₂) = some e := he
  split at he
  next => cases he
  next => exact h.first s₁ a s₂ e ha he

/-- A chain that stands in for a row that is not held. -/
theorem archivedTo_of_unheld (env : Env) (h : S.Joined k) (harch : S.ArchivedTo pos chain)
    (hchain : S.chainHeldAt env pos = none → chain' = chain) : S.ArchivedTo pos chain' := by
  intro s a ha
  obtain ⟨hle, hat⟩ := harch s a ha
  refine ⟨hle, fun hend => ?_⟩
  have hrow : S.rows s = none := by
    cases hrow : S.rows s with
    | none => rfl
    | some e => exact absurd (h.first s a s e ha hrow) (Nat.lt_irrefl _)
  have hzero : s ≠ 0 := by
    rintro rfl
    cases h.zero.symm.trans ha
  have hnone : S.chainHeldAt env pos = none := by
    rw [chainHeldAt, if_neg (hend ▸ hzero), ← hend, hrow]
    rfl
  exact (hat hend).trans (hchain hnone).symm

/-- Moves without a rewind. -/
theorem moves (h : S.Joined k) (hmoves : S.Moves env P S') (hrewind : ∀ s, ¬ P (.rewind s))
    (hthin : ¬ P .thin) (hvacate : ¬ P .vacate) :
    S.united.Moves env P S'.united ∧ S'.archive = S.archive ∧ S'.Joined k := by
  induction hmoves with
  | refl => exact ⟨.refl _, rfl, h⟩
  | tail _ hmove ih =>
    obtain ⟨a, ha, hmove⟩ := hmove
    obtain ⟨hunited, harchive, hjoined⟩ := ih
    obtain ⟨hmove', harchive', hjoined'⟩ := hjoined.move hmove
      (fun s heq => hrewind s (heq ▸ ha)) (fun heq => hthin (heq ▸ ha))
      (fun heq => absurd (heq ▸ ha) hvacate)
    exact ⟨hunited.tail ha hmove', harchive'.trans harchive, hjoined'⟩

end Joined

/-- A way of a stream that leaves its archive as it is. Heads jump only where it `leaps`. -/
structure Onward (env : Env) (leaps : Bool) (k : StreamId) (S : Stream) (S' : Stream) : Prop where
  moves : S.united.Moves env (fun a => a ≠ .thin ∧ (leaps = false → ∀ s, a ≠ .jump s)) S'.united
  archive : S'.archive = S.archive
  joined : S'.Joined k

theorem Onward.refl (h : S.Joined k) (leaps : Bool) : Onward env leaps k S S := ⟨.refl _, rfl, h⟩

theorem Onward.trans (h : Onward env leaps k S S') (h' : Onward env leaps k S' S'') :
    Onward env leaps k S S'' :=
  ⟨h.moves.trans h'.moves, h'.archive.trans h.archive, h'.joined⟩

/-- The kinds of moves that neither go back nor drop rows. -/
def Forward (leaps : Bool) (a : Act) : Prop :=
  (∀ s, a ≠ .rewind s) ∧ a ≠ .thin ∧ a ≠ .vacate ∧ (leaps = false → ∀ s, a ≠ .jump s)

theorem Moves.onward (hmoves : S.Moves env P S') (h : S.Joined k)
    (hP : ∀ a, P a → Forward leaps a) : Onward env leaps k S S' := by
  obtain ⟨hunited, harchive, hjoined⟩ := h.moves hmoves (fun s hs => (hP _ hs).1 s rfl)
    (fun ht => (hP _ ht).2.1 rfl) fun hv => (hP _ hv).2.2.1 rfl
  exact ⟨hunited.mono fun a ha => ⟨(hP a ha).2.1, (hP a ha).2.2.2⟩, harchive, hjoined⟩

/-- A retirement that is heeded cuts the stream at the end it declares. -/
def Truncates (env : Env) (S : Stream) (stored : Option WriterDirective) (d : WriterDirective) :
    Prop :=
  (∀ s, stored = some s → s = d.stringify) ∧ d.state = .retired ∧ S.Agrees env d ∧ S.Heeds d

end Stream

namespace Local

variable {L : Local} {S : Stream} {k : StreamId} {e : LogEntry}

theorem ingest_eq (env : Env) (cert : Option FinalityCert) (via : Option String) (now : Nat)
    (hrecovering : L.stream.Recovering e) (hdiverges : L.stream.Diverges e) :
    ∃ target, L.ingest env cert e via now =
      (L.recoveryRewind env e now).recoveryExtend env e target via now := by
  obtain ⟨hseal, target, htarget, hfinal⟩ := hrecovering
  obtain ⟨hle, hdiff⟩ := hdiverges
  have hnew : ¬ (L.stream.rows e.seq).any (fun s => decide (s.chain = e.chain)) = true := by
    cases hrow : L.stream.rows e.seq with
    | none => exact Bool.false_ne_true
    | some stored => exact fun hsame => hdiff stored hrow (of_decide_eq_true hsame)
  refine ⟨target, ?_⟩
  rw [ingest, if_pos hseal, htarget]
  dsimp only
  rw [if_pos hfinal, recoveryIngest, if_pos hle, if_neg hnew]

theorem recoveryRewind_onward (env : Env) (now : Nat) (h : L.stream.Joined k) (hseal : L.stream.head.sealReason ≠ none)
    (hpos : 0 < e.seq) (hle : e.seq ≤ L.stream.head.contigSeq)
    (harch : L.stream.ArchivedTo (e.seq - 1) L.stream.head.contigChain) :
    L.stream.Onward env false k (L.recoveryRewind env e now).stream := by
  obtain ⟨why, hwhy⟩ := Option.ne_none_iff_exists'.1 hseal
  have hs : e.seq - 1 + 1 = e.seq := Nat.succ_pred_eq_of_pos hpos
  have hheld : (L.stream.quarantineFrom e.seq L.stream.head.contigSeq .canonicalized now).chainHeldAt
      env (e.seq - 1) = L.stream.chainHeldAt env (e.seq - 1) :=
    Stream.chainHeldAt_quarantineFrom env L.stream (by omega)
  have hchain : (L.stream.quarantineFrom e.seq L.stream.head.contigSeq .canonicalized now).rewoundChain
      env (e.seq - 1) = L.stream.rewoundChain env (e.seq - 1) := by
    rw [Stream.rewoundChain, Stream.rewoundChain, hheld]
    rfl
  have harch' : L.stream.ArchivedTo (e.seq - 1) (L.stream.rewoundChain env (e.seq - 1)) := by
    apply h.archivedTo_of_unheld env harch
    intro hnone
    rw [Stream.rewoundChain, hnone]
    rfl
  obtain ⟨hmove, harchive, hjoined⟩ := h.rewind env (by omega)
    (fun s a ha => (harch' s a ha).1) (.inr ⟨fun held hat => by rw [Stream.rewoundChain, hat]; rfl,
      fun a ha => (harch' _ a ha).2 rfl⟩) why L.stream.head.contigSeq .canonicalized now
  rw [hs, ← hwhy, ← hchain] at hmove hjoined
  exact ⟨.one (a := .rewind (e.seq - 1)) ⟨by simp, by simp⟩ hmove, rfl, hjoined⟩

/-- An entry that is not behind the head of a recovering stream takes the stream forward. -/
theorem ingest_forward (hid : e.stream = L.stream.head.stream) (hpos : 0 < e.seq)
    (hahead : ¬ (L.stream.Recovering e ∧ L.stream.Diverges e)) :
    L.stream.Moves env (Stream.Forward false) (L.ingest env cert e via now).stream := by
  apply Stream.Moves.ingest_of hid hpos
  intro a ha hrewind
  refine ⟨fun s heq => hahead (hrewind s heq), ?_, ?_, fun _ s => ?_⟩
  · rintro rfl
    exact ha
  · rintro rfl
    exact ha
  · rintro rfl
    exact ha

theorem ingest_onward (h : L.stream.Joined k) (hid : e.stream = L.stream.head.stream)
    (hpos : 0 < e.seq)
    (hspares : L.stream.Recovering e → L.stream.Diverges e →
      L.stream.ArchivedTo (e.seq - 1) L.stream.head.contigChain) :
    L.stream.Onward env false k (L.ingest env cert e via now).stream := by
  by_cases hback : L.stream.Recovering e ∧ L.stream.Diverges e
  · obtain ⟨hrecovering, hdiverges⟩ := hback
    have harch := hspares hrecovering hdiverges
    obtain ⟨target, heq⟩ := ingest_eq env cert via now
      hrecovering hdiverges
    rw [heq]
    have hback := recoveryRewind_onward env now h hrecovering.1 hpos hdiverges.1
      harch
    refine hback.trans ?_
    have hmoves : (L.recoveryRewind env e now).stream.Moves env
        (fun a => a = .advance e ∨ a = .retire target ∨ a = .seek none)
        ((L.recoveryRewind env e now).recoveryExtend env e target via now).stream :=
      .recoveryExtend hid (fun _ _ => .inl rfl) (.inr (.inl rfl)) (.inr (.inr rfl))
    apply hmoves.onward hback.joined
    rintro a (rfl | rfl | rfl) <;> exact ⟨nofun, nofun, nofun, fun _ => nofun⟩
  · exact (ingest_forward hid hpos hback).onward h fun _ ha => ha

theorem processRetired_onward (h : L.stream.Joined k) (hagrees : L.stream.Agrees env d)
    (hspares : ∀ s e, L.stream.archive s = some e → s ≤ (directiveTarget env d).finalSeq) :
    L.stream.Onward env false k (L.processRetired env d now).stream := by
  obtain ⟨hle, hend⟩ := id hagrees
  have hchain : ((directiveTarget env d).finalSeq = L.stream.head.contigSeq ∧
      (directiveTarget env d).finalChain = L.stream.head.contigChain) ∨
      (∀ held, L.stream.chainHeldAt env (directiveTarget env d).finalSeq = some held →
        (directiveTarget env d).finalChain = held) ∧
      ∀ e, L.stream.archive (directiveTarget env d).finalSeq = some e →
        e.chain = (directiveTarget env d).finalChain := by
    rw [Stream.chainAtEnd] at hend
    split at hend
    next hat => exact .inl ⟨hat.2, (Option.some.inj hend).symm⟩
    next =>
      refine .inr ⟨fun held hheld => Option.some.inj (hend.symm.trans hheld), fun a ha => ?_⟩
      rw [Stream.chainHeldAt] at hend
      split at hend
      next hzero =>
        rw [hzero] at ha
        cases h.zero.symm.trans ha
      next =>
        obtain ⟨e, hrow, -⟩ := Option.map_eq_some_iff.1 hend
        exact absurd (h.first _ a _ e ha hrow) (Nat.lt_irrefl _)
  obtain ⟨hmove, harchive, hjoined⟩ := h.rewind env hle hspares hchain .fork
    L.stream.head.contigSeq .canonicalized now
  have hback : L.stream.Onward env false k _ :=
    ⟨.one (a := .rewind (directiveTarget env d).finalSeq) ⟨by simp, by simp⟩ hmove, harchive,
      hjoined⟩
  rw [show L.processRetired env d now = _ from if_pos hagrees]
  apply hback.trans
  have hmoves : Stream.Moves env (fun a => a = .retire (directiveTarget env d) ∨ a = .seek none)
      ((L.stream.quarantineFrom ((directiveTarget env d).finalSeq + 1) L.stream.head.contigSeq
        .canonicalized now).saveHead { L.stream.head with
          contigSeq := (directiveTarget env d).finalSeq
          contigChain := (directiveTarget env d).finalChain
          sealReason := some .fork }) _ :=
    (Stream.Moves.one (.inl rfl) (.retire _ (directiveTarget env d) now)).tail (.inr rfl)
      (.seek _ none)
  apply hmoves.onward hback.joined
  rintro a (rfl | rfl) <;> simp [Stream.Forward]

theorem direct_truncates (h : L.stream.Truncates env stored d) :
    L.direct env stored d now = L.processRetired env d now := by
  obtain ⟨hsame, hstate, hagrees, hheeds⟩ := h
  have hconflict : ¬ (stored.any fun s => decide (s ≠ d.stringify)) = true := by
    cases stored with
    | none => exact Bool.false_ne_true
    | some s => exact fun hne => of_decide_eq_true hne (hsame s rfl)
  have hfresh : ¬ (d.rgen ≤ L.stream.head.rgen ∧ L.stream.head.sealReason ≠ some .fork) :=
    fun hstale => hheeds.elim (fun hlt => absurd hstale.1 (Nat.not_le_of_lt hlt)) hstale.2
  rw [direct, if_neg hconflict, if_neg hfresh, hstate]

/-- Any other directive takes the stream forward. -/
theorem direct_forward (h : ¬ L.stream.Truncates env stored d) :
    L.stream.Moves env (Stream.Forward false) (L.direct env stored d now).stream := by
  apply Stream.Moves.direct_of
  rintro a ⟨hsame, ha⟩ hrewind
  refine ⟨fun s heq => h ?_, ?_, ?_, fun _ s => ?_⟩
  · obtain ⟨hagrees, hheeds⟩ := hrewind s heq
    subst heq
    exact ⟨hsame, ha.1, hagrees, hheeds⟩
  · rintro rfl
    exact ha
  · rintro rfl
    exact ha
  · rintro rfl
    exact ha

theorem direct_onward (h : L.stream.Joined k)
    (hspares : (∀ s, stored = some s → s = d.stringify) → d.state = .retired →
      L.stream.Agrees env d → L.stream.Heeds d →
      ∀ s e, L.stream.archive s = some e → s ≤ (directiveTarget env d).finalSeq) :
    L.stream.Onward env false k (L.direct env stored d now).stream := by
  by_cases hback : L.stream.Truncates env stored d
  · rw [direct_truncates hback]
    exact processRetired_onward h hback.2.2.1
      (hspares hback.1 hback.2.1 hback.2.2.1 hback.2.2.2)
  · exact (direct_forward hback).onward h fun _ ha => ha

end Local

/-- A certificate rewinds only a stream that holds a late row. -/
theorem Stream.Joined.certified {S : Stream} {k : StreamId} (h : S.Joined k) (hS : S.Sound k)
    (hspares : S.HoldsLate cert → S.ArchivedTo (cert.cutSeq k.2)
      (((cert.cut.get k.2).map CutEntry.chain).getD "")) :
    S.Onward env false k (S.certified env cert now) := by
  have hforked (S : Stream) (h : S.Joined k) : S.Onward env false k S.forkOpen := by
    rw [Stream.forkOpen]
    split
    next =>
      obtain ⟨hmove, harchive, hjoined⟩ := h.move (Stream.Move.fork S : S.Move env .fork _) (by simp) (by simp)
        (by simp)
      exact ⟨.one (a := .fork) ⟨by simp, by simp⟩ hmove, harchive, hjoined⟩
    next => exact .refl h false
  have hw : S.head.writer = k.2 := hS.writer
  rw [Stream.certified]
  dsimp only
  split
  next hlate =>
    have harch := hspares hlate
    obtain ⟨s, e, hrow, -, hcut⟩ := hlate
    rw [show e.writer = k.2 from congrArg Prod.snd (hS.row_stream hrow), hS.row_seq hrow] at hcut
    have hle := hS.row_le hrow
    rw [← hw] at harch hcut
    have harch' : S.ArchivedTo (cert.cutSeq S.head.writer) (S.cutChain env cert) := by
      apply h.archivedTo_of_unheld env harch
      intro hnone
      rw [Stream.cutChain, hnone]
      rfl
    have hback (why : SealReason) := h.rewind env (by omega)
      (fun s a ha => (harch' s a ha).1) (.inr ⟨fun held hat => by rw [Stream.cutChain, hat]; rfl,
        fun a ha => (harch' _ a ha).2 rfl⟩) why S.head.contigSeq .postCut now
    rw [Stream.forkOpen]
    split
    next =>
      obtain ⟨hmove, harchive, hjoined⟩ := hback .fork
      exact ⟨.one (a := .rewind (cert.cutSeq S.head.writer)) ⟨by simp, by simp⟩ hmove,
        harchive, hjoined⟩
    next hseal =>
      obtain ⟨why, hwhy⟩ := Option.ne_none_iff_exists'.1 hseal
      replace hwhy : S.head.sealReason = some why := hwhy
      obtain ⟨hmove, harchive, hjoined⟩ := hback why
      rw [← hwhy] at hmove hjoined
      exact ⟨.one (a := .rewind (cert.cutSeq S.head.writer)) ⟨by simp, by simp⟩ hmove,
        harchive, hjoined⟩
  next =>
    split
    next => exact hforked S h
    next => exact .refl h false

/-- The item may move heads ahead over entries that are not held. -/
def QueueItem.leaps : QueueItem env → Bool
  | .adopt .. | .adoptFloor .. => true
  | _ => false

def QueueItem.prunes : QueueItem env → Bool
  | .pruneTopic .. | .pruneSuperseded .. | .pruneAcked .. => true
  | _ => false

/-- The item moves no head back below an archived row, nor onto another chain than an archived row
has there. -/
def QueueItem.SparesArchive (item : QueueItem env) (v : View) : Prop :=
  match item with
  | .external item =>
    let S := v.streams item.entry.stream
    S.Recovering item.entry → S.Diverges item.entry →
      S.ArchivedTo (item.entry.seq - 1) S.head.contigChain
  | .cert c => ∀ w, (v.streams (c.topic, w)).HoldsLate c →
      (v.streams (c.topic, w)).ArchivedTo (c.cutSeq w)
        (((c.cut.get w).map CutEntry.chain).getD "")
  | .directive d =>
    let S := v.streams (d.topic, d.writer)
    (∀ s, v.directives d.id = some s → s = d.stringify) → d.state = .retired →
      S.Agrees env d → S.Heeds d → ∀ s e, S.archive s = some e → s ≤ (directiveTarget env d).finalSeq
  | .retireTopic T _ => v.Vacant T → ∀ w s, (v.streams (T, w)).archive s = none
  | _ => True

/-- An item that prunes nothing leads each stream onward. -/
theorem ItemStep.onward {item : QueueItem env} {v v' : View} (h : ItemStep env True item v v')
    (hv : v.Sound) (hjoined : (v.streams k).Joined k) (hspares : item.SparesArchive v)
    (hprunes : item.prunes = false) :
    (v.streams k).Onward env item.leaps k (v'.streams k) := by
  have hid : ∀ k, (v.streams k).head.stream = k := fun k => (hv k).id
  have hlocal {k₀ : StreamId} {L : Local} {leaps : Bool}
      (hL : k₀ = k → (v.streams k).Onward env leaps k L.stream) :
      (v.streams k).Onward env leaps k ((v.withLocal k₀ L).streams k) := by
    by_cases hk : k = k₀
    · subst hk
      rw [View.withLocal_streams_self]
      exact hL rfl
    · rw [View.withLocal_streams_of_ne _ hk]
      exact .refl hjoined leaps
  cases item with
  | append item =>
    obtain ⟨L, happ, rfl⟩ := h
    apply hlocal
    rintro rfl
    apply (Stream.Moves.append (hid _) happ).onward hjoined
    intro a ha
    cases a with
    | advance e => simp [Stream.Forward]
    | _ => exact ha.elim
  | external item =>
    obtain rfl := h
    apply hlocal
    rintro rfl
    exact Local.ingest_onward (L := v.localAt item.entry.stream) hjoined (hid _).symm
      (one_le_seq_of_validateEntry item.valid) hspares
  | sealStream T w =>
    obtain rfl := h
    apply hlocal
    rintro rfl
    apply (Stream.Moves.processSeal (L := v.localAt (T, w))).onward hjoined
    rintro a rfl
    simp [Stream.Forward]
  | cert cert =>
    obtain ⟨writers, n, hlists, rfl⟩ := h
    change (v.streams k).Onward env false k (View.streams (v.certify env cert writers) k)
    rw [View.certify_streams hlists.nodup]
    split
    next hmem =>
      apply hjoined.certified (hv k)
      obtain ⟨T, w⟩ := k
      obtain ⟨rfl, -⟩ := hmem
      exact hspares w
    next => exact .refl hjoined _
  | directive d =>
    obtain rfl := h
    rw [View.onStream, View.storeDirective_localAt]
    by_cases hk : k = (d.topic, d.writer)
    · subst hk
      rw [View.withLocal_streams_self]
      exact Local.direct_onward (L := v.localAt (d.topic, d.writer)) hjoined hspares
    · rw [View.withLocal_streams_of_ne _ hk, View.storeDirective_streams]
      exact .refl hjoined _
  | adopt T cut =>
    obtain rfl := h
    have hmoves : v.Moves env (fun _ a => ∃ s, a = .jump s) (v.adopt T cut.rows) :=
      .adopt fun c _ => ⟨c.seq, rfl⟩
    apply (hmoves k).onward hjoined
    rintro a ⟨s, rfl⟩
    simp [Stream.Forward, QueueItem.leaps]
  | retireTopic T known =>
    rcases h with ⟨e, rfl⟩ | ⟨hvacant, n, rfl⟩
    · exact .refl hjoined _
    · change (v.streams k).Onward env false k (View.streams (v.retireTopic env T) k)
      rw [View.retireTopic]
      dsimp only
      split
      next hT =>
        have hk : k = (T, k.2) := Prod.ext hT rfl
        have hrows (s : Nat) : (v.streams k).rows s = none := by
          rw [hk]
          exact hvacant trivial k.2 s
        have harchive (s : Nat) : (v.streams k).archive s = none := by
          rw [hk]
          exact hspares (hvacant trivial) k.2 s
        have hmove : (v.streams k).Move env .vacate _ := .vacate (v.streams k) hrows
        rw [(hv k).topic, (hv k).writer] at hmove
        obtain ⟨hunited, hsame, hjoined'⟩ := hjoined.move hmove (by simp) (by simp) fun _ => harchive
        exact ⟨.one (a := .vacate) ⟨by simp, by simp⟩ hunited, hsame, hjoined'⟩
      next => exact .refl hjoined _
  | adoptFloor T w s chain known =>
    obtain rfl := h
    apply hlocal
    rintro rfl
    split
    next =>
      apply (Stream.Moves.adoptFloor (L := v.localAt (T, w))).onward hjoined
      intro a ha
      cases a with
      | rewind => exact ha.elim
      | thin => exact ha.elim
      | vacate => exact ha.elim
      | _ => simp [Stream.Forward, QueueItem.leaps]
    next => exact .refl hjoined _
  | _ => cases hprunes

namespace Stream

variable {S S' : Stream} {k : StreamId} {gapless : Prop}

/-- No position up to the head is missing. -/
def Gapless (S : Stream) : Prop :=
  ∀ s, 1 ≤ s → s ≤ S.head.contigSeq → (S.rows s).isSome = true

theorem Gapless.move (h : S.Gapless) (hS : S.Sound k) (hfull : env.isFull k.1 = true)
    (hmove : S.Move env a S') (hthin : a ≠ .thin) (hjump : ∀ s, a ≠ .jump s) : S'.Gapless := by
  intro s hpos hle
  cases hmove with
  | advance _ e hid hseq hchain =>
    have htopic : e.topic = k.1 := congrArg Prod.fst (hid.trans hS.id)
    have hrow : (S.advance env e).rows s = if env.isFull e.topic ∧ s = e.seq then some e
      else S.rows s := S.rows_put env e s
    rw [hrow]
    split
    next => rfl
    next hne =>
      apply h s hpos
      have hle : s ≤ e.seq := hle
      have : s ≠ e.seq := fun heq => hne ⟨htopic ▸ hfull, heq⟩
      omega
  | rewind _ pos hi chain why reason now hs hchain =>
    have hle : s ≤ pos := hle
    have hrow : (if pos + 1 ≤ s then none else S.rows s) = S.rows s := if_neg (by omega)
    exact (congrArg Option.isSome hrow).trans (h s hpos (hle.trans hs))
  | jump => exact absurd rfl (hjump _)
  | thin => exact absurd rfl hthin
  | vacate => exact absurd hle (Nat.not_le_of_lt hpos)
  | fork => exact h s hpos hle
  | retire => exact h s hpos hle
  | revive => exact h s hpos hle
  | seek => exact h s hpos hle
  | shelve => exact h s hpos hle

/-- The archived rows and the rows in the log form one hash chain; where `gapless`, no entry of a
topic that keeps its whole log is missing. -/
structure Unbroken (env : Env) (gapless : Prop) (k : StreamId) (S : Stream) : Prop where
  joined : S.Joined k
  intact : S.united.Intact env
  gapless : gapless → env.isFull k.1 = true → S.united.Gapless

theorem Unbroken.onward {leaps : Bool} (h : S.Unbroken env gapless k)
    (hway : S.Onward env leaps k S') (hleaps : gapless → leaps = false) :
    S'.Unbroken env gapless k where
  joined := hway.joined
  intact := hway.moves.preserves_sound h.joined.sound
    (fun _ _ _ _ hS hintact hmove => hintact.move hS hmove) h.intact
  gapless := by
    intro hg hfull
    apply hway.moves.preserves_sound h.joined.sound _ (h.gapless hg hfull)
    intro a S₁ S₂ ha hS hgap hmove
    exact hgap.move hS hfull hmove ha.1 (ha.2 (hleaps hg))

theorem Unbroken.move (h : S.Unbroken env gapless k) (hmove : S.Move env a S')
    (ha : Forward false a) : S'.Unbroken env gapless k := by
  have hmoves : S.Moves env (fun b => b = a) S' := .one rfl hmove
  exact h.onward (hmoves.onward h.joined fun b hb => hb ▸ ha) fun _ => rfl

/-- Rows of the log that a retention drops leave a stream with gaps. -/
theorem Unbroken.thinned (h : S.Unbroken env gapless k) (hthin : S.Thinned S')
    (harchive : S'.archive = S.archive) (hgaps : ¬ gapless) : S'.Unbroken env gapless k := by
  have hrow (s : Nat) : S'.united.rows s = none ∨ S'.united.rows s = S.united.rows s := by
    rw [rows_united, rows_united, harchive]
    cases S.archive s with
    | some a => exact .inr rfl
    | none => exact hthin.rows s
  have hmove : S.united.Move env .thin S'.united := by
    refine .thin _ _ ⟨hthin.head, hthin.listed, hthin.pending, hthin.quarantine, hthin.recovery,
      hrow, fun s => .inl (congrFun harchive s), hthin.floor.imp_right ?_⟩
    rintro ⟨s, e, hs, hfloor⟩
    refine ⟨s, e, ?_, hfloor⟩
    rw [rows_united]
    cases ha : S.archive s with
    | none => exact hs
    | some a => exact absurd (h.joined.first s a s e ha hs) (Nat.lt_irrefl _)
  refine ⟨⟨h.joined.sound.move hmove, harchive ▸ h.joined.zero, fun s a s' e ha he => ?_⟩,
    h.intact.move h.joined.sound hmove, fun hg => absurd hg hgaps⟩
  exact h.joined.first s a s' e (harchive ▸ ha) (hthin.row he)

/-- Rows that move from the log to the archive leave the united stream as it is. -/
theorem Unbroken.same (h : S.Unbroken env gapless k) (hhead : S'.head = S.head)
    (hlisted : S'.listed = S.listed) (hrows : S'.united.rows = S.united.rows)
    (hfirst : ∀ s e s' e', S'.archive s = some e → S'.rows s' = some e' → s < s') :
    S'.Unbroken env gapless k := by
  have hsub (s : Nat) (e : LogEntry) (he : S'.united.rows s = some e) :
      S.united.rows s = some e := hrows ▸ he
  have hintact : S'.united.Intact env := h.intact.of_rows hsub (congrArg WriterRow.contigSeq hhead)
    (congrArg WriterRow.contigChain hhead) (congrArg WriterRow.stream hhead)
  refine ⟨⟨⟨?_, ?_, ?_, ?_⟩, ?_, hfirst⟩, hintact, ?_⟩
  · exact (congrArg WriterRow.stream hhead).trans h.joined.sound.id
  · intro s e he
    rw [show S'.united.head = S.united.head from hhead]
    exact h.joined.sound.keyed s e (hsub s e he)
  · intro s hs
    rw [hrows]
    apply h.joined.sound.bounded
    rwa [show S.united.head = S'.united.head from hhead.symm]
  · intro s e he
    exact hlisted.trans (h.joined.sound.listed s e (hsub s e he))
  · cases ha : S'.archive 0 with
    | none => rfl
    | some a =>
      have hrow : S'.united.rows 0 = some a := by rw [rows_united, ha, Option.some_or]
      cases hintact.zero.symm.trans hrow
  · intro hg hfull s hpos hle
    rw [hrows]
    apply h.gapless hg hfull s hpos
    rwa [show S.united.head = S'.united.head from hhead.symm]

end Stream

/-! The history of a core. -/

structure Core.Unbroken (env : Env) (gapless : Prop) (core : Core) : Prop where
  coherent : core.Coherent env
  bounded : ∀ k, (core.stream env k).Bounded
  listed : ∀ k, (core.stream env k).Listed
  numbered : core.logState.Numbered
  inOrder : core.logState.InOrder
  streams : ∀ k, (core.stream env k).Unbroken env gapless k

theorem Core.Coherent.keyed {core : Core} (h : core.Coherent env) : core.logState.Keyed := by
  intro k head hk
  rw [h.heads k head hk]
  exact core.head_stream env k

/-- The conditions on an item: the count that a retirement consults is right, and no head goes back
below an archived row. Where `gapless`, nothing is pruned and no head jumps ahead. -/
def Queued.SparesArchive (gapless : Prop) (q : Queued env) (t : Txn) : Prop :=
  q.2.CountExact t.core ∧ q.2.SparesArchive (t.view env) ∧
    (gapless → q.2.prunes = false ∧ q.2.leaps = false)

namespace Core.Unbroken

variable {core : Core} {gapless : Prop}

theorem sound (h : core.Unbroken env gapless) : (core.view env).Sound :=
  Txn.view_sound _ h.bounded h.listed

theorem processQueued {t : Txn} (h : t.core.Unbroken env gapless) (q : Queued env)
    (hspares : q.SparesArchive gapless t) :
    Runs (Seqscribe.processQueued env q) t (fun _ t' => t'.core.Unbroken env gapless)
      fun _ _ => True := by
  obtain ⟨hcount, hitem, hgaps⟩ := hspares
  have hq := (processQueued_spec True True q ⟨h.coherent⟩ (fun _ => ⟨h.sound, hcount⟩)
    fun _ => trivial).with_eq
  apply Runs.mono hq _ fun _ _ _ => trivial
  rintro u t' ⟨-, hrun, hready, hstep⟩
  have horderly : t.Orderly env :=
    ⟨h.coherent, h.bounded, h.coherent.keyed, h.numbered, h.inOrder⟩
  obtain ⟨-, hnumbered, hinOrder, harchive⟩ := processQueued_orderly q horderly hrun
  have hsound : (t'.view env).Sound := fun k =>
    (h.sound k).moves (hstep.moves trivial h.sound k)
  refine ⟨hready.coherent, fun k => (hsound k).bounded, fun k => (hsound k).listed, hnumbered,
    hinOrder, fun k => ?_⟩
  cases hprunes : q.2.prunes with
  | false =>
    have hway := hstep.onward (k := k) h.sound (h.streams k).joined hitem hprunes
    exact (h.streams k).onward hway fun hg => (hgaps hg).2
  | true =>
    have hpruned : View.Pruned { t.view env with now := q.1.now } (t'.view env) := by
      cases hitem : q.2 with
      | pruneTopic => rwa [hitem] at hstep
      | pruneSuperseded => rwa [hitem] at hstep
      | pruneAcked => rwa [hitem] at hstep
      | _ =>
        rw [hitem] at hprunes
        cases hprunes
    obtain ⟨v₁, r, hthin, -, heq⟩ := hpruned
    have hstream : (t'.core.stream env k) = v₁.streams k := congrFun (congrArg View.streams heq) k
    apply (h.streams k).thinned
    · rw [hstream]
      exact hthin.streams k
    · funext s
      exact congrArg (fun T => (Table.get T (k.1, k.2, s)).map ArchiveRow.entry) harchive
    · intro hg
      cases (hgaps hg).1.symm.trans hprunes

/-- A batch whose items all spare the archive. -/
theorem batch {t : Txn} {batch : List (Queued env)} (h : t.core.Unbroken env gapless)
    (hspares : BatchEvery env (Queued.SparesArchive gapless) batch t) :
    Runs (forM batch (Seqscribe.processQueued env)) t
      (fun _ t' => t'.core.Unbroken env gapless) fun _ _ => True := by
  induction batch generalizing t with
  | nil => exact h
  | cons q batch ih =>
    obtain ⟨hq, hrest⟩ := hspares
    rw [List.forM_cons]
    apply Runs.bind
    have hstep := h.processQueued q hq
    rw [Runs] at hstep ⊢
    split
    next u t' hrun =>
      rw [hrun] at hstep hrest
      exact ih hstep hrest
    next => trivial

theorem flush {batch : List (Queued env)} (h : core.Unbroken env gapless)
    (hspares : BatchEvery env (Queued.SparesArchive gapless) batch (Txn.start core fault)) :
    (Seqscribe.flush env batch fault core).core.Unbroken env gapless := by
  have hbody : Runs (flushBody env batch) (Txn.start core fault)
      (fun _ t' => t'.core.Unbroken env gapless) fun _ _ => True := by
    apply Runs.bind
    apply (Core.Unbroken.batch (t := Txn.start core fault) h hspares).mono _ fun _ _ h => h
    intro _ t₁ h₁
    refine .bind (.get (.bind (execute_runs (fun fault => ?_) fun _ => trivial)))
    have h₂ : Core.Unbroken env gapless
        { t₁.core with db.metaHlc := some t₁.core.hlcState } :=
      ⟨⟨h₁.coherent.1, h₁.coherent.2, h₁.coherent.3, h₁.coherent.4, h₁.coherent.5⟩, h₁.bounded,
        h₁.listed, h₁.numbered, h₁.inOrder, h₁.streams⟩
    refine .bind (.get ?_)
    split
    next => trivial
    next => exact h₂
  rw [Seqscribe.flush, transaction]
  split
  next => exact h
  next =>
    cases hrun : flushBody env batch (Txn.start core fault) with
    | ok _ t => exact hbody.of_ok hrun
    | error e t =>
      exact ⟨restoreAborted_coherent core _, h.bounded, h.listed, h.numbered, h.inOrder, h.streams⟩

end Core.Unbroken

namespace LogState

/-- What moving rows to the archive leaves of a log: every row that is gone was to be moved, and is
archived; archived rows come before the rows of their stream in the log. -/
structure Archived (moved : LogRow → Prop) (base s : LogState) : Prop where
  numbered : s.Numbered
  inOrder : s.InOrder
  first : ∀ a ∈ s.archive.rows, ∀ r ∈ s.log.rows, r.entry.stream = a.entry.stream →
    a.entry.seq < r.entry.seq
  sublist : s.log.rows.Sublist base.log.rows
  gone : ∀ r ∈ base.log.rows, r ∈ s.log.rows ∨ moved r ∧ ∃ a ∈ s.archive.rows, a.entry = r.entry
  came : ∀ a ∈ s.archive.rows, a ∈ base.archive.rows ∨
    ∃ r ∈ base.log.rows, moved r ∧ a.entry = r.entry
  kept : ∀ a ∈ base.archive.rows, a ∈ s.archive.rows

variable {moved : LogRow → Prop} {base s : LogState}

/-- The row that a call moves first is the first row of its stream. -/
theorem InOrder.first_covered (h : s.InOrder) (hr : r ∈ s.log.rows)
    (hcov : coveredBy topic writer maxSeq maxRowid r = true)
    (hfirst : ∀ r' ∈ s.log.rows, coveredBy topic writer maxSeq maxRowid r' = true → r' ≠ r →
      r.entry.seq < r'.entry.seq) (hr' : r' ∈ s.log.rows)
    (hstream : r'.entry.stream = r.entry.stream) (hne : r' ≠ r) : r.entry.seq < r'.entry.seq := by
  by_contra hlt
  obtain ⟨hin, hbounds⟩ := Bool.and_eq_true_iff.1 hcov
  obtain ⟨hseq, hrowid⟩ := of_decide_eq_true hbounds
  have hid : r'.entry.seq ≠ r.entry.seq := by
    intro heq
    have hid : r'.entry.id = r.entry.id := by
      rw [LogEntry.id, LogEntry.id, heq,
        show r'.entry.topic = r.entry.topic from congrArg Prod.fst hstream,
        show r'.entry.writer = r.entry.writer from congrArg Prod.snd hstream]
    exact hne (List.inj_on_of_nodup_map s.log.nodup hr' hr hid)
  have hbefore : r'.entry.seq < r.entry.seq := lt_of_le_of_ne (Nat.le_of_not_lt hlt) hid
  have hrowid' := h r' hr' r hr hstream.symm hbefore
  have hin' : Store.inStream topic writer r' = true := by
    obtain ⟨ht, hw⟩ := of_decide_eq_true hin
    exact decide_eq_true ⟨(congrArg Prod.fst hstream).trans ht, (congrArg Prod.snd hstream).trans hw⟩
  have hcov' : coveredBy topic writer maxSeq maxRowid r' = true :=
    Bool.and_eq_true_iff.2 ⟨hin', decide_eq_true ⟨by omega, by omega⟩⟩
  exact hlt (hfirst r' hr' hcov' hne)

theorem Archived.moveRow (h : Archived moved base s) (hr : r ∈ s.log.rows) (hm : moved r)
    (hfirst : ∀ r' ∈ s.log.rows, r'.entry.stream = r.entry.stream → r' ≠ r →
      r.entry.seq < r'.entry.seq) (atMs : Nat) : Archived moved base (s.moveRow atMs r) := by
  have hnone : s.archive.get r.entry.id = none := by
    cases hget : s.archive.get r.entry.id with
    | none => rfl
    | some a =>
      obtain ⟨ha, hid⟩ := Table.get_eq_some_iff.1 hget
      have hstream : r.entry.stream = a.entry.stream :=
        congrArg (fun id : EntryId => ((id.1, id.2.1) : StreamId)) hid.symm
      have hlt := h.first a ha r hr hstream
      exact absurd (congrArg (fun id : EntryId => id.2.2) hid) (Nat.ne_of_lt hlt)
  have harchive : (s.moveRow atMs r).archive.rows = s.archive.rows ++ [⟨r.entry, atMs⟩] := by
    have hignore : (s.moveRow atMs r).archive = s.archive.upsert ⟨r.entry, atMs⟩ := if_pos hnone
    rw [hignore, Table.rows_upsert_of_get_eq_none hnone]
  have hleft (r' : LogRow) (hr' : r' ∈ (s.moveRow atMs r).log.rows) :
      r' ∈ s.log.rows ∧ r' ≠ r := by
    obtain ⟨hmem, hne⟩ := List.mem_filter.1 hr'
    refine ⟨hmem, fun heq => ?_⟩
    rw [heq, decide_eq_true rfl] at hne
    cases hne
  constructor
  · exact h.numbered.delete fun r' => !decide (r'.rowid = r.rowid)
  · exact h.inOrder.sublist fun r' hr' => (hleft r' hr').1
  · intro a ha r' hr' hstream
    obtain ⟨hmem, hne⟩ := hleft r' hr'
    rw [harchive] at ha
    rcases List.mem_append.1 ha with ha | ha
    · exact h.first a ha r' hmem hstream
    · obtain rfl := List.mem_singleton.1 ha
      exact hfirst r' hmem hstream hne
  · exact List.filter_sublist.trans h.sublist
  · intro r' hr'
    rw [harchive]
    rcases h.gone r' hr' with hmem | ⟨hm', a, ha, heq⟩
    · by_cases heq : r' = r
      · subst heq
        exact .inr ⟨hm, ⟨r'.entry, atMs⟩, List.mem_append_right _ (List.mem_singleton.2 rfl), rfl⟩
      · refine .inl (List.mem_filter.2 ⟨hmem, ?_⟩)
        rw [Bool.not_eq_true', decide_eq_false_iff_not]
        exact fun hrowid => heq (h.numbered.inj hmem hr hrowid)
    · exact .inr ⟨hm', a, List.mem_append_left _ ha, heq⟩
  · intro a ha
    rw [harchive] at ha
    rcases List.mem_append.1 ha with ha | ha
    · exact h.came a ha
    · obtain rfl := List.mem_singleton.1 ha
      exact .inr ⟨r, h.sublist.subset hr, hm, rfl⟩
  · intro a ha
    rw [harchive]
    exact List.mem_append_left _ (h.kept a ha)

theorem archived_upkeep (topic : Topic) (moved : LogRow → Prop) (base : LogState) :
    ArchiveUpkeep topic moved (Archived moved base) where
  numbered := fun _ h => h.numbered
  move := fun _ _ atMs _ _ _ h hr hm hcov hfirst =>
    h.moveRow hr hm (fun _ hr' hstream hne => h.inOrder.first_covered hr hcov hfirst hr' hstream hne)
      atMs
  recount := fun _ _ _ h => ⟨h.numbered, h.inOrder, h.first, h.sublist, h.gone, h.came, h.kept⟩

end LogState

namespace Core.Unbroken

variable {core : Core} {gapless : Prop}

theorem archived_refl (h : core.Unbroken env gapless) (moved : LogRow → Prop) :
    LogState.Archived moved core.logState core.logState where
  numbered := h.numbered
  inOrder := h.inOrder
  first := by
    intro a ha r hr hstream
    have harchive : (core.stream env a.entry.stream).archive a.entry.seq = some a.entry :=
      congrArg (Option.map ArchiveRow.entry) (Table.get_of_mem ha)
    have hrow := core.row_of_mem env hr
    rw [hstream] at hrow
    exact (h.streams a.entry.stream).joined.first _ _ _ _ harchive hrow
  sublist := List.Sublist.refl _
  gone := fun _ hr => .inl hr
  came := fun _ ha => .inl ha
  kept := fun _ ha => ha

/-- The entries of a united stream. -/
theorem rows_united_iff {core : Core} {k : StreamId} (hfirst : ∀ a ∈ core.logState.archive.rows,
      ∀ r ∈ core.logState.log.rows, r.entry.stream = a.entry.stream → a.entry.seq < r.entry.seq) :
    (core.stream env k).united.rows s = some e ↔ e.id = (k.1, k.2, s) ∧
      ((∃ a ∈ core.logState.archive.rows, a.entry = e) ∨
        ∃ r ∈ core.logState.log.rows, r.entry = e) := by
  constructor
  · intro h
    rcases Option.or_eq_some_iff.1 h with ha | ⟨-, hr⟩
    · obtain ⟨a, hget, rfl⟩ := Option.map_eq_some_iff.1 ha
      obtain ⟨hmem, hid⟩ := Table.get_eq_some_iff.1 hget
      exact ⟨hid, .inl ⟨a, hmem, rfl⟩⟩
    · obtain ⟨r, hget, rfl⟩ := Option.map_eq_some_iff.1 hr
      obtain ⟨hmem, hid⟩ := Table.get_eq_some_iff.1 hget
      exact ⟨hid, .inr ⟨r, hmem, rfl⟩⟩
  · rintro ⟨hid, ⟨a, ha, rfl⟩ | ⟨r, hr, rfl⟩⟩
    · have harchive : (core.stream env k).archive s = some a.entry :=
        congrArg (Option.map ArchiveRow.entry) (Table.get_eq_some_iff.2 ⟨ha, hid⟩)
      rw [Stream.rows_united, harchive, Option.some_or]
    · have hrow : (core.stream env k).rows s = some r.entry :=
        congrArg (Option.map LogRow.entry) (Table.get_eq_some_iff.2 ⟨hr, hid⟩)
      have harchive : (core.stream env k).archive s = none := by
        apply Option.map_eq_none_iff.2
        apply Table.get_eq_none_iff.2
        intro a ha hid'
        have hstream : r.entry.stream = a.entry.stream :=
          congrArg (fun id : EntryId => ((id.1, id.2.1) : StreamId)) (hid.trans hid'.symm)
        have hlt := hfirst a ha r hr hstream
        exact absurd (congrArg (fun id : EntryId => id.2.2) (hid'.trans hid.symm)) (Nat.ne_of_lt hlt)
      rw [Stream.rows_united, harchive, Option.none_or, hrow]

/-- An archive pass, wherever it ends. -/
theorem archivePass (h : core.Unbroken env gapless) (topic : Topic) (now : Nat)
    (fault : Option Nat) :
    LogState.Archived (Archivable env core topic now) core.logState
      (step env core (.archiveNow topic now fault)).core.logState := by
  have hruns := (LogState.archived_upkeep topic (Archivable env core topic now)
    core.logState).archiveNow env
      (t := { Txn.start core fault with ambient := { now := now } })
      (fun cert hcert c hc r hr => ⟨cert, hcert, c, hc, hr⟩) (h.archived_refl _)
  rw [step, runDirect]
  dsimp only
  split
  next hrun => exact hruns.of_ok hrun
  next hrun => exact hruns.of_error hrun

/-- The pass changes the rows of a stream only. -/
theorem thinned_archiveNow (h : core.Unbroken env gapless) (topic : Topic) (now : Nat)
    (fault : Option Nat) :
    (step env core (.archiveNow topic now fault)).core.Coherent env ∧ ∀ k,
      (core.stream env k).Thinned
        ((step env core (.archiveNow topic now fault)).core.stream env k) := by
  obtain ⟨hcoherent, hstep⟩ := step_spec True (fun _ _ => True) (.archiveNow topic now fault)
    h.coherent (fun _ => ⟨h.sound, trivial⟩) trivial
  have hthins (v v' : View) (hstep : CoreStep env True (fun _ _ => True)
      (.archiveNow topic now fault) v v') : v.Thinned v' := by
    cases hstep with
    | archive hthin => exact hthin
    | quiet _ hquiet => cases hquiet
  exact ⟨hcoherent, (hthins _ _ hstep).streams⟩

/-- The pass leaves the archived rows and the rows in the log, taken together, as they are. -/
theorem united_archiveNow (h : core.Unbroken env gapless) (topic : Topic) (now : Nat)
    (fault : Option Nat) (k : StreamId) :
    ((step env core (.archiveNow topic now fault)).core.stream env k).united.rows =
      (core.stream env k).united.rows := by
  have hpass := h.archivePass topic now fault
  generalize step env core (.archiveNow topic now fault) = o at hpass
  funext s
  apply Option.ext
  intro e
  rw [rows_united_iff hpass.first, rows_united_iff (h.archived_refl fun _ => True).first]
  apply and_congr_right
  intro _
  constructor
  · rintro (⟨a, ha, rfl⟩ | ⟨r, hr, rfl⟩)
    · rcases hpass.came a ha with ha | ⟨r, hr, -, heq⟩
      · exact .inl ⟨a, ha, rfl⟩
      · exact .inr ⟨r, hr, heq.symm⟩
    · exact .inr ⟨r, hpass.sublist.subset hr, rfl⟩
  · rintro (⟨a, ha, rfl⟩ | ⟨r, hr, rfl⟩)
    · exact .inl ⟨a, hpass.kept a ha, rfl⟩
    · exact (hpass.gone r hr).elim (fun hr => .inr ⟨r, hr, rfl⟩) fun h => .inl h.2

theorem archiveNow (h : core.Unbroken env gapless) (topic : Topic) (now : Nat)
    (fault : Option Nat) :
    (step env core (.archiveNow topic now fault)).core.Unbroken env gapless := by
  have hpass := h.archivePass topic now fault
  have hunited := h.united_archiveNow topic now fault
  obtain ⟨hcoherent, hthin⟩ := h.thinned_archiveNow topic now fault
  generalize step env core (.archiveNow topic now fault) = o at hpass hunited hcoherent hthin
  have hmove (k : StreamId) : (core.stream env k).Move env .thin (o.core.stream env k) :=
    .thin _ _ (hthin k)
  refine ⟨hcoherent, fun k => (h.bounded k).move (hmove k), fun k => (h.listed k).move (hmove k),
    hpass.numbered, hpass.inOrder, fun k => ?_⟩
  apply (h.streams k).same (hthin k).head (hthin k).listed (hunited k)
  intro s e s' e' he he'
  obtain ⟨a, ha, rfl⟩ := Option.map_eq_some_iff.1 he
  obtain ⟨r, hr, rfl⟩ := Option.map_eq_some_iff.1 he'
  obtain ⟨ha, hid⟩ := Table.get_eq_some_iff.1 ha
  obtain ⟨hr, hid'⟩ := Table.get_eq_some_iff.1 hr
  have hstream : r.entry.stream = a.entry.stream :=
    (congrArg (fun id : EntryId => ((id.1, id.2.1) : StreamId)) hid').trans
      (congrArg (fun id : EntryId => ((id.1, id.2.1) : StreamId)) hid).symm
  have hlt := hpass.first a ha r hr hstream
  rwa [show a.entry.seq = s from congrArg (fun id : EntryId => id.2.2) hid,
    show r.entry.seq = s' from congrArg (fun id : EntryId => id.2.2) hid'] at hlt

/-- A core with the same log, whose streams differ in their recoveries at most. -/
theorem reseek {core' : Core} (h : core.Unbroken env gapless) (hcoherent : core'.Coherent env)
    (hlog : core'.db.sqLog = core.db.sqLog) (hsequence : core'.db.logSequence = core.db.logSequence)
    (hstreams : ∀ k, ∃ target, core'.stream env k = (core.stream env k).setRecovery target) :
    core'.Unbroken env gapless := by
  have hmove (k : StreamId) : ∃ target, (core.stream env k).Move env (.seek target)
      (core'.stream env k) := by
    obtain ⟨target, heq⟩ := hstreams k
    rw [heq]
    exact ⟨target, .seek _ target⟩
  refine ⟨hcoherent, fun k => ?_, fun k => ?_, ?_, ?_, fun k => ?_⟩
  · exact (h.bounded k).move (hmove k).choose_spec
  · exact (h.listed k).move (hmove k).choose_spec
  · rw [LogState.Numbered, Core.logState, hlog, hsequence]
    exact h.numbered
  · rw [LogState.InOrder, Core.logState, hlog]
    exact h.inOrder
  · exact (h.streams k).move (hmove k).choose_spec ⟨by simp, by simp, by simp, by simp⟩

/-- A read of caches. -/
theorem reads {m : LogM α} {P : α → Prop} {now : Nat} (h : core.Unbroken env gapless)
    (hcoherent : (runDirect m now none core).core.Coherent env)
    (hview : core.view env = (runDirect m now none core).core.view env)
    (hm : ∀ I : LogState → Prop, LogUpkeep (fun _ => True) False False I I →
      Keeps (fun t => I t.logState) (fun t => I t.logState) m P) :
    (runDirect m now none core).core.Unbroken env gapless := by
  have hsame : LogUpkeep (fun _ => True) False False
      (fun s => s.Keyed ∧ s.log = core.db.sqLog ∧ s.sequence = core.db.logSequence)
      fun s => s.Keyed ∧ s.log = core.db.sqLog ∧ s.sequence = core.db.logSequence :=
    ⟨fun _ h => h, fun _ h => h.1, False.elim, fun _ _ _ hhead h => ⟨h.1.cacheHead hhead, h.2⟩,
      False.elim, False.elim, False.elim⟩
  have hend := Keeps.runDirect
    (I := fun s => s.Keyed ∧ s.log = core.db.sqLog ∧ s.sequence = core.db.logSequence)
    (hm _ hsame) ⟨h.coherent.keyed, rfl, rfl⟩ now none
  obtain ⟨-, hlog, hsequence⟩ := hend
  apply h.reseek hcoherent hlog hsequence
  intro k
  exact ⟨(core.stream env k).recovery, (congrFun (congrArg View.streams hview) k).symm⟩

theorem step (h : core.Unbroken env gapless) (i : Input env)
    (hspares : i.Every (Queued.SparesArchive gapless) core) :
    (Seqscribe.step env core i).core.Unbroken env gapless := by
  by_cases hflush : ∃ batch fault, i = .flush batch fault
  · obtain ⟨batch, fault, rfl⟩ := hflush
    exact h.flush hspares
  have hspec := step_spec True (fun _ _ => True) i h.coherent
    (fun _ => ⟨h.sound, by cases i with | flush => exact absurd ⟨_, _, rfl⟩ hflush | _ => trivial⟩)
    (Input.Every.of_forall i fun _ _ => trivial)
  obtain ⟨hcoherent, hstep⟩ := hspec
  have hquiets (v v' : View) (hstep : CoreStep env True (fun _ _ => True) i v v')
      (hquiet : i.quiet = true) : v = v' := by
    cases hstep with
    | quiet => rfl
    | _ => cases hquiet
  have hquiet := hquiets _ _ hstep
  have hsame (k : StreamId) : ∃ target,
      core.stream env k = (core.stream env k).setRecovery target := ⟨_, rfl⟩
  cases i with
  | flush batch fault => exact absurd ⟨batch, fault, rfl⟩ hflush
  | archiveNow topic now fault => exact h.archiveNow topic now fault
  | getStream topic writer =>
    exact h.reads hcoherent (hquiet rfl) fun I hI => hI.getStream topic writer trivial
  | getCert topic =>
    exact h.reads hcoherent (hquiet rfl) fun I hI => (hI.handlers env).getCert topic
  | floorOf topic writer =>
    exact h.reads hcoherent (hquiet rfl) fun I hI => (hI.handlers env).floorOf topic writer
  | vectors now => exact h.reads hcoherent (hquiet rfl) fun I hI => hI.vectors
  | reportCanonicalUnavailable topic writer =>
    apply h.reseek hcoherent rfl rfl
    intro k
    have hview : (View.noteUnavailable (topic, writer) (core.view env)).streams k = _ :=
      congrArg (fun v : View => v.streams k) (core.view_noteUnavailable (topic, writer)).symm
    by_cases hk : k = (topic, writer)
    · subst hk
      exact ⟨_, hview.symm.trans (Function.update_self _ _ _)⟩
    · exact ⟨_, hview.symm.trans (Function.update_of_ne hk _ _)⟩
  | restart => exact h.reseek hcoherent rfl rfl fun k => ⟨none, rfl⟩
  | cursorSet row => exact h.reseek hcoherent rfl rfl hsame
  | cursorDelete consumer topic => exact h.reseek hcoherent rfl rfl hsame
  | ackUpsert row => exact h.reseek hcoherent rfl rfl hsame
  | ackNodeSeen row => exact h.reseek hcoherent rfl rfl hsame
  | clearScopeTail scope => exact h.reseek hcoherent rfl rfl hsame
  | defineTopic topic => exact h.reseek hcoherent rfl rfl hsame

theorem init (env : Env) (gapless : Prop) : Core.init.Unbroken env gapless where
  coherent := Core.coherent_init
  bounded := fun _ _ _ => rfl
  listed := fun _ _ _ h => by cases h
  numbered := ⟨.nil, fun _ h => absurd h List.not_mem_nil⟩
  inOrder := fun _ h => absurd h List.not_mem_nil
  streams := fun k => {
    joined := ⟨Core.sound_init k, rfl, nofun⟩
    intact := intact_of_run (show RunExact env Core.init [] from trivial) k
    gapless := fun _ _ s hpos hle => absurd hle (Nat.not_le_of_lt hpos) }

theorem runCore {is : List (Input env)} (h : core.Unbroken env gapless)
    (hspares : RunEvery env (Queued.SparesArchive gapless) core is) :
    (Seqscribe.runCore env core is).Unbroken env gapless := by
  induction is generalizing core with
  | nil => exact h
  | cons i is ih => exact ih (h.step i hspares.1) hspares.2

end Core.Unbroken

/-! What the scans return. -/

/-- The archived entries of an interval, still readable locally. -/
def Store.archivedEntries (topic : Topic) (writer : WriterId) (fromSeq toSeq : Nat) :
    LogM (List LogEntry) :=
  query fun db =>
    (db.sqArchive.selectBy
      (fun a => decide (a.entry.topic = topic ∧ a.entry.writer = writer) &&
        decide (fromSeq ≤ a.entry.seq ∧ a.entry.seq ≤ toSeq))
      (·.entry.seq)).map ArchiveRow.entry

/-- The archived entries, followed by the entries in the log. -/
def Store.history (topic : Topic) (writer : WriterId) (toSeq : Nat) : LogM (List LogEntry) := do
  let archived ← Store.archivedEntries topic writer 1 toSeq
  let hot ← Store.entriesRange topic writer 1 toSeq
  return archived ++ hot

/-- What a read returns. -/
def Core.read (core : Core) (m : LogM α) : Option α :=
  match m (Txn.start core none) with
  | .ok a _ => some a
  | .error .. => none

/-- The entries of a stream, up to its head. -/
def Core.history (env : Env) (core : Core) (k : StreamId) : Option (List LogEntry) :=
  core.read (Store.history k.1 k.2 (core.head env k).contigSeq)

/-- Entries of one stream that form one hash chain, from the seed to the head. -/
structure HashChain (env : Env) (k : StreamId) (head : WriterRow) (es : List LogEntry) : Prop where
  stream : ∀ e ∈ es, e.stream = k ∧ 1 ≤ e.seq ∧ e.seq ≤ head.contigSeq
  increasing : es.Pairwise fun e e' => e.seq < e'.seq
  first : ∀ e ∈ es, e.seq = 1 → e.chain = chainOf env (seedOf env k.1 k.2) e
  linked : ∀ e ∈ es, ∀ e' ∈ es, e'.seq = e.seq + 1 → e'.chain = chainOf env e.chain e'
  top : ∀ e ∈ es, e.seq = head.contigSeq → e.chain = head.contigChain

/-- Two walks over an increasing list, the first of which ends where the second starts. -/
theorem filterMap_append_filterMap {f g : Nat → Option β} {L : List Nat}
    (hL : L.Pairwise (· < ·)) (hfirst : ∀ s b s' b', f s = some b → g s' = some b' → s < s') :
    L.filterMap f ++ L.filterMap g = L.filterMap fun s => (f s).or (g s) := by
  induction L with
  | nil => rfl
  | cons s L ih =>
    obtain ⟨hs, hL⟩ := List.pairwise_cons.1 hL
    have ih := ih hL
    rw [List.filterMap_cons, List.filterMap_cons, List.filterMap_cons]
    cases hf : f s with
    | some b =>
      have hg : g s = none := by
        cases hg : g s with
        | none => rfl
        | some b' => exact absurd (hfirst s b s b' hf hg) (Nat.lt_irrefl s)
      rw [hg]
      exact congrArg (b :: ·) ih
    | none =>
      cases hg : g s with
      | none => exact ih
      | some b' =>
        have hnone : L.filterMap f = [] := by
          apply List.filterMap_eq_nil_iff.2
          intro s' hs'
          cases hf' : f s' with
          | none => rfl
          | some b => exact absurd (hfirst s' b s b' hf' hg) (Nat.lt_asymm (hs s' hs'))
        rw [hnone, List.nil_append] at ih ⊢
        exact congrArg (b' :: ·) ih

theorem archivedEntries_eq (archive : Table EntryId ArchiveRow fun a => a.entry.id) (T : Topic)
    (w : WriterId) (fromSeq toSeq : Nat) :
    (archive.selectBy (fun a => decide (a.entry.topic = T ∧ a.entry.writer = w) &&
        decide (fromSeq ≤ a.entry.seq ∧ a.entry.seq ≤ toSeq)) (·.entry.seq)).map ArchiveRow.entry =
      (List.range' fromSeq (toSeq + 1 - fromSeq)).filterMap
        fun s => (archive.get (T, w, s)).map ArchiveRow.entry := by
  rw [Table.selectBy_eq_filterMap (fun s => archive.get (T, w, s)) fromSeq (toSeq + 1 - fromSeq),
    List.map_filterMap]
  · intro s a ha
    exact congrArg (fun id : EntryId => id.2.2) (Table.key_of_get ha)
  · intro a
    rw [Table.get_eq_some_iff]
    simp only [LogEntry.id, Bool.and_eq_true, decide_eq_true_eq, Prod.mk.injEq, and_true]
    constructor
    · rintro ⟨ha, hid, hs⟩
      exact ⟨by omega, ha, hid⟩
    · rintro ⟨hs, ha, hid⟩
      exact ⟨ha, hid, by omega⟩

namespace Core

variable {core : Core} {k : StreamId}

theorem read_archivedEntries (env : Env) (k : StreamId) (fromSeq toSeq : Nat) :
    core.read (Store.archivedEntries k.1 k.2 fromSeq toSeq) =
      some ((List.range' fromSeq (toSeq + 1 - fromSeq)).filterMap
        (core.stream env k).archive) :=
  congrArg some (archivedEntries_eq core.db.sqArchive k.1 k.2 fromSeq toSeq)

theorem history_eq : core.history env k =
    some ((List.range' 1 (core.head env k).contigSeq).filterMap (core.stream env k).archive ++
      (List.range' 1 (core.head env k).contigSeq).filterMap (core.stream env k).rows) := by
  have harchived := archivedEntries_eq core.db.sqArchive k.1 k.2 1 (core.head env k).contigSeq
  have hhot := entriesRange_eq core.db.sqLog k.1 k.2 1 (core.head env k).contigSeq
  exact congrArg some (congrArg₂ (· ++ ·) harchived hhot)

end Core

namespace Core.Unbroken

variable {core : Core} {k : StreamId} {gapless : Prop}

theorem history_eq (h : core.Unbroken env gapless) : core.history env k =
    some ((List.range' 1 (core.head env k).contigSeq).filterMap
      (core.stream env k).united.rows) := by
  rw [Core.history_eq]
  apply congrArg some
  exact filterMap_append_filterMap List.pairwise_lt_range' (h.streams k).joined.first

theorem hashChain (h : core.Unbroken env gapless) : HashChain env k (core.head env k)
    ((List.range' 1 (core.head env k).contigSeq).filterMap (core.stream env k).united.rows) := by
  have hsound := (h.streams k).joined.sound
  have hintact := (h.streams k).intact
  have hmem (e : LogEntry) (he : e ∈ (List.range' 1 (core.head env k).contigSeq).filterMap
      (core.stream env k).united.rows) : (core.stream env k).united.rows e.seq = some e ∧
        1 ≤ e.seq ∧ e.seq ≤ (core.head env k).contigSeq := by
    obtain ⟨s, hs, hrow⟩ := List.mem_filterMap.1 he
    have hseq : e.seq = s := congrArg (fun id : EntryId => id.2.2) (hsound.keyed s e hrow)
    rw [← hseq] at hs hrow
    have hrange := List.mem_range'_1.1 hs
    exact ⟨hrow, hrange.1, by omega⟩
  constructor
  · intro e he
    obtain ⟨hrow, hpos, hle⟩ := hmem e he
    have hstream := congrArg (fun id : EntryId => ((id.1, id.2.1) : StreamId))
      (hsound.keyed _ e hrow)
    exact ⟨hstream.trans hsound.id, hpos, hle⟩
  · refine (List.pairwise_lt_range' (s := 1)).filterMap _ ?_
    intro s s' hlt e he e' he'
    rw [show e.seq = s from congrArg (fun id : EntryId => id.2.2) (hsound.keyed s e he),
      show e'.seq = s' from congrArg (fun id : EntryId => id.2.2) (hsound.keyed s' e' he')]
    exact hlt
  · intro e he hseq
    obtain ⟨hrow, -, -⟩ := hmem e he
    have hfirst := hintact.first e (hseq ▸ hrow)
    rw [hsound.topic, hsound.writer] at hfirst
    exact hfirst.symm
  · intro e he e' he' hseq
    obtain ⟨hrow, -, -⟩ := hmem e he
    obtain ⟨hrow', -, -⟩ := hmem e' he'
    exact (hintact.linked e.seq e e' hrow (hseq ▸ hrow')).symm
  · intro e he hseq
    obtain ⟨hrow, -, -⟩ := hmem e he
    exact hintact.top e (hseq ▸ hrow)

/-- Where nothing was pruned and no head jumped, a topic that keeps its whole log has every
entry. -/
theorem seqs (h : core.Unbroken env gapless) (hg : gapless) (hfull : env.isFull k.1 = true) :
    ((List.range' 1 (core.head env k).contigSeq).filterMap (core.stream env k).united.rows).map
      LogEntry.seq = List.range' 1 (core.head env k).contigSeq := by
  have hkeyed := (h.streams k).joined.sound.keyed
  have hgapless := (h.streams k).gapless hg hfull
  rw [List.map_filterMap]
  have heq (s : Nat) (hs : s ∈ List.range' 1 (core.head env k).contigSeq) :
      ((core.stream env k).united.rows s).map LogEntry.seq = some s := by
    have hrange := List.mem_range'_1.1 hs
    have hle : s ≤ (core.head env k).contigSeq := by omega
    obtain ⟨e, hrow⟩ := Option.isSome_iff_exists.1 (hgapless s hrange.1 hle)
    rw [hrow]
    exact congrArg (fun id : EntryId => some id.2.2) (hkeyed s e hrow)
  rw [List.filterMap_congr heq, List.filterMap_some]

/-- An entry of the log that is gone after the pass is found in the archive. -/
theorem found (h : core.Unbroken env gapless) (topic : Topic) (now : Nat) (fault : Option Nat)
    (hr : r ∈ core.db.sqLog.rows)
    (hgone : r ∉ (Seqscribe.step env core (.archiveNow topic now fault)).core.db.sqLog.rows) :
    Archivable env core topic now r ∧
      (Seqscribe.step env core (.archiveNow topic now fault)).core.read
        (Store.archivedEntries r.entry.topic r.entry.writer r.entry.seq r.entry.seq) =
          some [r.entry] := by
  have hpass := h.archivePass topic now fault
  generalize Seqscribe.step env core (.archiveNow topic now fault) = o at hpass hgone
  obtain ⟨hmoved, a, ha, heq⟩ := (hpass.gone r hr).resolve_left hgone
  refine ⟨hmoved, ?_⟩
  have harchive : (o.core.stream env r.entry.stream).archive r.entry.seq = some r.entry := by
    have hget : (o.core.db.sqArchive.get a.entry.id).map ArchiveRow.entry = some a.entry :=
      congrArg (Option.map ArchiveRow.entry) (Table.get_of_mem ha)
    rw [heq] at hget
    exact hget
  have hread := o.core.read_archivedEntries env r.entry.stream r.entry.seq r.entry.seq
  rw [show r.entry.seq + 1 - r.entry.seq = 1 by omega, List.range'_one,
    List.filterMap_cons_some harchive] at hread
  exact hread

end Core.Unbroken

/-- What an archive pass of a topic does to the tables. -/
structure ArchivePass (env : Env) (core : Core) (topic : Topic) (now : Nat) (core' : Core) :
    Prop where
  /-- The entries of a stream, archived or not, are the same. -/
  history : ∀ k, core'.history env k = core.history env k
  /-- What left the log is what the certificate's cut covers, and is read from the archive. -/
  found : ∀ r ∈ core.db.sqLog.rows, r ∉ core'.db.sqLog.rows → Archivable env core topic now r ∧
    core'.read (Store.archivedEntries r.entry.topic r.entry.writer r.entry.seq r.entry.seq) =
      some [r.entry]
  kept : core'.db.sqLog.rows.Sublist core.db.sqLog.rows
  archived : ∀ a ∈ core.db.sqArchive.rows, a ∈ core'.db.sqArchive.rows
  came : ∀ a ∈ core'.db.sqArchive.rows, a ∈ core.db.sqArchive.rows ∨
    ∃ r ∈ core.db.sqLog.rows, Archivable env core topic now r ∧ a.entry = r.entry

/-- Archiving preserves history, in every run in which no head goes back below an archived row. -/
theorem archive_preserves_history (gapless : Prop) (is : List (Input env))
    (hspares : RunEvery env (Queued.SparesArchive gapless) Core.init is) :
    (∀ k, ∃ es, (runCore env Core.init is).history env k = some es ∧
      HashChain env k ((runCore env Core.init is).head env k) es ∧
      (gapless → env.isFull k.1 = true →
        es.map LogEntry.seq = List.range' 1 ((runCore env Core.init is).head env k).contigSeq)) ∧
    ∀ topic now fault, ArchivePass env (runCore env Core.init is) topic now
      (step env (runCore env Core.init is) (.archiveNow topic now fault)).core := by
  have h := (Core.Unbroken.init env gapless).runCore hspares
  generalize runCore env Core.init is = core at h
  refine ⟨fun k => ⟨_, h.history_eq, h.hashChain, h.seqs⟩, fun topic now fault => ?_⟩
  have hpass := h.archivePass topic now fault
  constructor
  · intro k
    have hhead := ((h.thinned_archiveNow topic now fault).2 k).head
    replace hhead : (step env core (.archiveNow topic now fault)).core.head env k =
      core.head env k := hhead
    rw [(h.archiveNow topic now fault).history_eq, h.history_eq, hhead,
      h.united_archiveNow topic now fault]
  · intro r hr hgone
    exact h.found topic now fault hr hgone
  · exact hpass.sublist
  · exact hpass.kept
  · exact hpass.came

theorem RunEvery.append {P : Queued env → Txn → Prop} {is is' : List (Input env)} {core : Core}
    (h : RunEvery env P core is) (h' : RunEvery env P (runCore env core is) is') :
    RunEvery env P core (is ++ is') := by
  induction is generalizing core with
  | nil => exact h'
  | cons i is ih => exact ⟨h.1, ih h.2 h'⟩

theorem RunEvery.flush_one {P : Queued env → Txn → Prop} {core : Core} {q : Queued env}
    (h : P q (Txn.start core fault)) : RunEvery env P core [.flush [q] fault] := by
  refine ⟨⟨h, ?_⟩, trivial⟩
  split <;> trivial

theorem sparesArchive_external (gapless : Prop) (ambient : Ambient) (item : ExternalItem env)
    (fault : Option Nat) {core : Core}
    (h : (core.head env item.entry.stream).sealReason = none) :
    RunEvery env (Queued.SparesArchive gapless) core [.flush [(ambient, .external item)] fault] :=
  RunEvery.flush_one ⟨trivial, fun hrecovering => absurd h hrecovering.1, fun _ => ⟨rfl, rfl⟩⟩

theorem sparesArchive_cert {core : Core} (h : core.db.sqArchive.rows = []) (gapless : Prop)
    (ambient : Ambient) (cert : FinalityCert) (fault : Option Nat) :
    RunEvery env (Queued.SparesArchive gapless) core [.flush [(ambient, .cert cert)] fault] := by
  refine RunEvery.flush_one ⟨trivial, fun w _ s e he => ?_, fun _ => ⟨rfl, rfl⟩⟩
  obtain ⟨a, hget, -⟩ := Option.map_eq_some_iff.1 he
  have ha : a ∈ core.db.sqArchive.rows := (Table.get_eq_some_iff.1 hget).1
  rw [h] at ha
  cases ha

/-- A certificate with the first entry of `w` in its cut. -/
def firstCut : FinalityCert where
  topic := "t"
  order := ⟨10, 0, "x", 1⟩
  cut := .upsert .empty
    ⟨"w", 1, "2b9b9a7838c39f166c0015237d70501dc4ea31d32bf5c34ee8c0d5d8bdf67e27"⟩
  generation := 1
  authority := "authority"
  sig := "sig"

def firstItem : ExternalItem (hostEnv "b") where
  entry := hostEntry "w" 1 1 "k" "2b9b9a7838c39f166c0015237d70501dc4ea31d32bf5c34ee8c0d5d8bdf67e27"
  via := none
  valid := validateEntry_self valid_first
  known := rfl

def firstFlush : List (Input (hostEnv "b")) := [hostFlush "b" 20 [.external firstItem]]

/-- The first entry is archived. -/
def archivedFirst : List (Input (hostEnv "b")) :=
  firstFlush ++ [hostFlush "b" 21 [.cert firstCut]] ++ [.archiveNow "t" 22 none]

def secondItem : ExternalItem (hostEnv "b") where
  entry := hostEntry "w" 2 2 "k" "33219e2f97e466593b7541683f5ca1825c48d9083647f3ef644bf447606e5ec1"
  via := none
  valid := validateEntry_self valid_second
  known := rfl

/-- The second entry follows the archived one. -/
theorem archive_preserves_history_of_second :
    let is := archivedFirst ++ [hostFlush "b" 23 [.external secondItem]]
    (∀ k, ∃ es, (runCore (hostEnv "b") Core.init is).history (hostEnv "b") k = some es ∧
      HashChain (hostEnv "b") k ((runCore (hostEnv "b") Core.init is).head (hostEnv "b") k) es ∧
      (True → (hostEnv "b").isFull k.1 = true → es.map LogEntry.seq =
        List.range' 1 ((runCore (hostEnv "b") Core.init is).head (hostEnv "b") k).contigSeq)) ∧
    ∀ topic now fault, ArchivePass (hostEnv "b") (runCore (hostEnv "b") Core.init is) topic now
      (step (hostEnv "b") (runCore (hostEnv "b") Core.init is)
        (.archiveNow topic now fault)).core := by
  intro is
  have hempty : (runCore (hostEnv "b") Core.init firstFlush).db.sqArchive.rows = [] :=
    List.isEmpty_iff.1 (by decide +kernel)
  have hsecond : ((runCore (hostEnv "b") Core.init archivedFirst).head (hostEnv "b")
      ("t", "w")).sealReason = none := by
    decide +kernel
  have h₁ : RunEvery (hostEnv "b") (Queued.SparesArchive True) Core.init firstFlush :=
    sparesArchive_external True { now := 20 } firstItem none rfl
  have h₂ := h₁.append (sparesArchive_cert hempty True { now := 21 } firstCut none)
  have h₃ : RunEvery (hostEnv "b") (Queued.SparesArchive True) Core.init archivedFirst :=
    h₂.append ⟨trivial, trivial⟩
  exact archive_preserves_history True is
    (h₃.append (sparesArchive_external True { now := 23 } secondItem none hsecond))

theorem valid_otherFirst : (validateEntry (hostEnv "b") (hostEntry "w" 1 1 "j"
    "ed8b8de45a44cd70fe87603c4e1e81f63b38872da675f76f655f80f72290cb7a")).isOk := by
  decide +kernel

/-- The writer is retired below its archived entry and starts again; the next pass deletes its new
first entry, which is not archived. -/
theorem archive_drops_other_branch :
    let is := archivedFirst ++
      [hostFlush "b" 23
          [.directive (hostDirective .retired 1 (some 0) (some (seedOf (hostEnv "b") "t" "w"))),
            .directive (hostDirective .live 2 none none)],
        hostFlush "b" 24 [hostExternal "b" "w" 1 1 "j"
          "ed8b8de45a44cd70fe87603c4e1e81f63b38872da675f76f655f80f72290cb7a" valid_otherFirst]]
    let core := runCore (hostEnv "b") Core.init is
    let core' := (step (hostEnv "b") core (.archiveNow "t" 25 none)).core
    (core.db.sqLog.rows.map fun r => r.entry.chain) =
      ["ed8b8de45a44cd70fe87603c4e1e81f63b38872da675f76f655f80f72290cb7a"] ∧
    core'.db.sqLog.rows = [] ∧
    ((core'.read (Store.archivedEntries "t" "w" 1 1)).map fun es => es.map LogEntry.chain) =
      some ["2b9b9a7838c39f166c0015237d70501dc4ea31d32bf5c34ee8c0d5d8bdf67e27"] ∧
    core'.history (hostEnv "b") ("t", "w") ≠ core.history (hostEnv "b") ("t", "w") := by
  intro is core core'
  refine ⟨by decide +kernel, List.isEmpty_iff.1 (by decide +kernel), by decide +kernel, ?_⟩
  have hlength : (core'.history (hostEnv "b") ("t", "w")).map List.length ≠
      (core.history (hostEnv "b") ("t", "w")).map List.length := by
    decide +kernel
  intro heq
  exact hlength (congrArg (Option.map List.length) heq)

end Seqscribe
