import Seqscribe.ArchiveHistory
import Seqscribe.Counts
import Seqscribe.KeyedPrune
import Seqscribe.ViewFold

namespace Seqscribe
set_option autoImplicit true

/-! Bounded reads of what a node holds, page by page. -/

open Paging Replay

def SCAN_DEFAULT_LIMIT : Int := 500
def SCAN_MAX_LIMIT : Int := 10000

structure ScanOptions where
  after : Option Order := none
  through : Option Order := none
  writer : Option WriterId := none
  fromSeq : Option Nat := none
  toSeq : Option Nat := none
  /-- The floor of the number given. -/
  limit : Option Int := none

structure ScanResult where
  entries : List LogEntry
  complete : Bool
  truncatedBelow : Bool
  nextAfter : Option Order := none
  nextFromSeq : Option Nat := none

structure KeyedScanOptions where
  uptoRowid : Option Int := none
  afterRowid : Option Int := none
  limit : Option Int := none

structure KeyedScanResult where
  entries : List LogRow
  complete : Bool
  nextAfterRowid : Option Nat := none

def scanLimit (limit : Option Int) : Nat :=
  (min (max 1 (limit.getD SCAN_DEFAULT_LIMIT)) SCAN_MAX_LIMIT).toNat

def ringTail (topic : Topic) : LogM (List LogEntry) :=
  return ((← get).core.rings topic).getD []

/-- The rows beyond `through` are a suffix. -/
def within (through : Option Order) (fetched : List LogEntry) : List LogEntry :=
  match through with
  | some through => fetched.filter fun e => decide (orderCompare (orderOf e) through ≤ 0)
  | none => fetched

section
variable (env : Env)

def scanWriter (topic : Topic) (writer : WriterId) (o : ScanOptions) (limit : Nat) :
    LogM ScanResult := do
  if o.after.isSome ∨ o.through.isSome then
    throw (misuse "scanEntries: writer form takes fromSeq/toSeq, not after/through")
  else
    let head ← getStream env topic writer
    let fromSeq := o.fromSeq.getD 1
    let toSeq := o.toSeq.getD head.contigSeq
    if toSeq < fromSeq then
      return { entries := [], complete := true, truncatedBelow := false }
    else
      -- a window of `limit` bounds the page regardless of gaps
      let windowEnd := min toSeq (fromSeq + limit - 1)
      let archived ← Store.archivedEntries topic writer fromSeq windowEnd
      let hot ← Store.entriesRange topic writer fromSeq windowEnd
      let ring := (← ringTail topic).filter fun e =>
        e.writer = writer ∧ e.seq ≥ fromSeq ∧ e.seq ≤ windowEnd
      let bySeq := Table.ofRows LogEntry.seq (archived ++ hot ++ ring)
      let entries := bySeq.selectBy (fun _ => true) LogEntry.seq
      let complete := decide (windowEnd ≥ toSeq)
      let truncatedBelow := match entries.head? with
        | some first => decide (first.seq > fromSeq)
        | none => decide (head.contigSeq ≥ fromSeq)
      return {
        entries := entries
        complete := complete
        truncatedBelow := truncatedBelow
        nextFromSeq := if complete then none else some (windowEnd + 1) }

def scanCanonical (topic : Topic) (o : ScanOptions) (limit : Nat) : LogM ScanResult := do
  let fetched ← query fun db => db.entriesAfterOrder topic o.after (limit + 1)
  let within := within o.through fetched
  let entries := within.take limit
  let complete := decide (within.length ≤ limit ∧
    (within.length < fetched.length ∨ fetched.length ≤ limit))
  let cert ← getCert topic
  -- a canonical scan reads the hot log only
  let archived ← Store.archivedCount topic
  let below := match o.after with
    | some after => cert.any fun cert => decide (orderCompare after cert.order < 0)
    | none => true
  return {
    entries := entries
    complete := complete
    truncatedBelow := decide (archived > 0) && below
    nextAfter := if complete then none else lastKey orderOf entries }

def scanEntries (closed : Bool) (topic : Topic) (o : ScanOptions) : LogM ScanResult := do
  if closed then throw (misuse "node is closed")
  else
    let _ ← topicPolicy env topic
    match o.writer with
    | some writer => scanWriter env topic writer o (scanLimit o.limit)
    | none =>
      if o.fromSeq.isSome ∨ o.toSeq.isSome then
        throw (misuse "scanEntries: fromSeq/toSeq require writer")
      else scanCanonical topic o (scanLimit o.limit)

def assertKeyed (topic : Topic) (op : String) : LogM Unit := do
  let policy ← topicPolicy env topic
  if policy.tombstoneKind.isNone then throw (misuse s!"{op}: requires a keyed topic ({topic})")
  else return

def isSafeRowid (n : Int) : Bool := decide (0 ≤ n ∧ n ≤ MAX_SAFE_INTEGER)

def scanLatestPerKey (closed : Bool) (topic : Topic) (o : KeyedScanOptions) :
    LogM KeyedScanResult := do
  if closed then throw (misuse "node is closed")
  else
    let _ ← topicPolicy env topic
    let limit := scanLimit o.limit
    let after := o.afterRowid.getD 0
    if !isSafeRowid after then
      throw (misuse "scanLatestPerKey: afterRowid must be a non-negative safe integer")
    else if o.uptoRowid.any fun upto => !isSafeRowid upto then
      throw (misuse "scanLatestPerKey: uptoRowid must be a non-negative safe integer")
    else
      assertKeyed env topic "latestPerKey"
      let fetched ← query fun db =>
        db.latestPerKeyPage topic (o.uptoRowid.map Int.toNat) after.toNat (limit + 1)
      let entries := fetched.take limit
      let complete := decide (fetched.length ≤ limit)
      return {
        entries := entries
        complete := complete
        nextAfterRowid := if complete then none else entries.getLast?.map LogRow.rowid }

/-- The call for the next page. -/
def ScanOptions.next (o : ScanOptions) (r : ScanResult) : Option ScanOptions :=
  match r.nextFromSeq, r.nextAfter with
  | some seq, _ => some { o with fromSeq := some seq }
  | none, some order => some { o with after := some order }
  | none, none => none

/-- The call for the next page. -/
def KeyedScanOptions.next (o : KeyedScanOptions) (r : KeyedScanResult) : Option KeyedScanOptions :=
  r.nextAfterRowid.map fun (rowid : Nat) => { o with afterRowid := some (rowid : Int) }

/-- A page of an open node, with the call for the next one. -/
def Core.scanPage (core : Core) (topic : Topic) (o : ScanOptions) :
    Option (List LogEntry × Option ScanOptions) :=
  (core.read (scanEntries env false topic o)).map fun r => (r.entries, o.next r)

def Core.keyedPage (core : Core) (topic : Topic) (o : KeyedScanOptions) :
    Option (List LogRow × Option KeyedScanOptions) :=
  (core.read (scanLatestPerKey env false topic o)).map fun r => (r.entries, o.next r)

end

/-! What the scans would return without a limit. -/

/-- The held entries after one order, up to another. -/
def Db.scan (db : Db) (topic : Topic) (cursor through : Option Order) : List LogEntry :=
  after orderOf cursor (within through (db.topicEntries topic))

def Db.InScan (db : Db) (topic : Topic) (cursor through : Option Order) (e : LogEntry) : Prop :=
  db.Holds topic e ∧ (∀ o ∈ cursor, o < orderOf e) ∧ ∀ o ∈ through, orderOf e ≤ o

/-- The entry of a seq: from the ring tail, else from the log, else from the archive. -/
def Core.entryAt (core : Core) (topic : Topic) (writer : WriterId) (seq : Nat) : Option LogEntry :=
  (((core.rings topic).getD []).filter fun e => e.writer = writer ∧ e.seq = seq).getLast?.or
    (((core.db.sqLog.get (topic, writer, seq)).map LogRow.entry).or
      ((core.db.sqArchive.get (topic, writer, seq)).map ArchiveRow.entry))

/-- The entries of a writer from one seq to another. -/
def Core.scan (core : Core) (topic : Topic) (writer : WriterId) (fromSeq toSeq : Nat) :
    List LogEntry :=
  (List.range' fromSeq (toSeq + 1 - fromSeq)).filterMap (core.entryAt topic writer)

def Core.InScan (core : Core) (topic : Topic) (writer : WriterId) (fromSeq toSeq : Nat)
    (e : LogEntry) : Prop :=
  (fromSeq ≤ e.seq ∧ e.seq ≤ toSeq) ∧ core.entryAt topic writer e.seq = some e

/-- The newest row of each key above a rowid. -/
def Db.newestAfter (db : Db) (topic : Topic) (uptoRowid : Option Int) (rowid : Int) : List LogRow :=
  (db.latestPerKey topic (uptoRowid.map Int.toNat)).filter fun r => decide (rowid < r.rowid)

/-- The head that a node has of a stream. -/
def Core.localHead (env : Env) (core : Core) (topic : Topic) (writer : WriterId) : WriterRow :=
  (core.heads (topic, writer)).getD (core.head env (topic, writer))

theorem scanLimit_pos (limit : Option Int) : 0 < scanLimit limit := by
  rw [scanLimit, SCAN_MAX_LIMIT]
  omega

/-! The canonical form. -/

theorem within_sublist (through : Option Order) (L : List LogEntry) :
    (within through L).Sublist L := by
  cases through with
  | none => exact List.Sublist.refl L
  | some o => exact List.filter_sublist

theorem mem_within : e ∈ within through L ↔ e ∈ L ∧ ∀ o ∈ through, orderOf e ≤ o := by
  cases through with
  | none => simp [within]
  | some o => simp [within, orderCompare_le_zero]

/-- The bound and the page commute, since the fetch is in order. -/
theorem within_take_after {L : List LogEntry} (hL : L.Pairwise fun a b => orderOf a < orderOf b)
    (through cursor : Option Order) (n : Nat) :
    within through ((after orderOf cursor L).take n) =
      (after orderOf cursor (within through L)).take n := by
  cases through with
  | none => rfl
  | some o =>
    have hdown : (after orderOf cursor L).Pairwise fun a b =>
        decide (orderCompare (orderOf b) o ≤ 0) = true →
          decide (orderCompare (orderOf a) o ≤ 0) = true := by
      apply (hL.filter _).imp
      intro a b hab hb
      rw [decide_eq_true_iff, orderCompare_le_zero] at hb ⊢
      exact (le_of_lt hab).trans hb
    rw [within, Paging.filter_take hdown, within, after, after, List.filter_filter,
      List.filter_filter]
    congr 1
    apply List.filter_congr
    intro e _
    exact Bool.and_comm _ _

theorem Db.covers_scan (db : Db) (topic : Topic) (cursor through : Option Order) :
    Covers orderOf (db.InScan topic cursor through) (db.InScan topic cursor through)
      (db.scan topic cursor through) := by
  have hmem : ∀ e, e ∈ db.scan topic cursor through ↔ db.InScan topic cursor through e := by
    intro e
    rw [scan, InScan, mem_after, mem_within, Db.mem_topicEntries]
    tauto
  have hsorted := Db.sorted_topicEntries db topic
  exact ⟨(hsorted.sublist (within_sublist _ _)).filter _, fun e => (hmem e).1, fun e => (hmem e).2⟩

variable {env : Env} {t : Txn} {core : Core}

theorem getCert_keeps {E : SeqscribeError → Prop} (hQ : ∀ c t', t'.core.db = t.core.db → Q c t') :
    Returns E (getCert topic) t Q := by
  refine .bind (.get ?_)
  split
  next c hc => exact .pure (hQ c t rfl)
  next => exact .bind (query_spec fun fault _ => .bind (.modify rfl (.pure (hQ _ _ rfl))))

theorem archivedCount_keeps {E : SeqscribeError → Prop}
    (hQ : ∀ n t', t'.core.db = t.core.db → Q n t') : Returns E (Store.archivedCount topic) t Q := by
  refine .bind (.get ?_)
  split
  next n hn => exact .pure (hQ n t rfl)
  next => exact .bind (query_spec fun fault _ => .bind (.modify rfl (.pure (hQ _ _ rfl))))

/-- A page is complete when no more than `limit` entries are left. -/
theorem scanCanonical_spec (topic : Topic) (o : ScanOptions) (limit : Nat) :
    Returns (fun _ => False) (scanCanonical topic o limit) t fun r _ =>
      r.entries = (t.core.db.scan topic o.after o.through).take limit ∧ r.nextFromSeq = none ∧
      r.nextAfter = if (t.core.db.scan topic o.after o.through).length ≤ limit then none
        else lastKey orderOf ((t.core.db.scan topic o.after o.through).take limit) := by
  have hwithin : within o.through (t.core.db.entriesAfterOrder topic o.after (limit + 1)) =
      (t.core.db.scan topic o.after o.through).take (limit + 1) :=
    within_take_after (Db.sorted_topicEntries t.core.db topic) o.through o.after (limit + 1)
  have hshort := (within_sublist o.through
    (t.core.db.entriesAfterOrder topic o.after (limit + 1))).length_le
  refine .bind (query_spec fun fault _ => ?_)
  refine .bind (getCert_keeps fun cert t₁ _ => .bind (archivedCount_keeps fun n t₂ _ => ?_))
  apply Returns.pure
  rw [hwithin] at hshort
  dsimp only
  rw [hwithin, List.take_take, Nat.min_eq_left (Nat.le_succ limit)]
  generalize t.core.db.scan topic o.after o.through = W at hshort ⊢
  generalize t.core.db.entriesAfterOrder topic o.after (limit + 1) = fetched at hshort ⊢
  have hcomplete : ((W.take (limit + 1)).length ≤ limit ∧
      ((W.take (limit + 1)).length < fetched.length ∨ fetched.length ≤ limit)) ↔
      W.length ≤ limit := by
    rw [List.length_take] at hshort ⊢
    omega
  simp only [hcomplete, decide_eq_true_eq, and_self]

/-! The form of a writer. -/

theorem filter_filterMap {f : Nat → Option LogEntry} (hf : ∀ s e, f s = some e → e.seq = s)
    {L : List Nat} (hL : L.Nodup) (s : Nat) :
    (L.filterMap f).filter (fun e => decide (e.seq = s)) = if s ∈ L then (f s).toList else [] := by
  induction L with
  | nil => simp
  | cons n L ih =>
    obtain ⟨hn, hL⟩ := List.nodup_cons.1 hL
    have ih := ih hL
    rw [List.filterMap_cons]
    by_cases hs : s = n
    · subst hs
      rw [if_neg hn] at ih
      rw [if_pos List.mem_cons_self]
      cases hfs : f s with
      | none => exact ih
      | some e =>
        dsimp only
        rw [List.filter_cons_of_pos (by simpa using hf s e hfs), ih]
        rfl
    · have hmem : s ∈ n :: L ↔ s ∈ L := by
        rw [List.mem_cons]
        exact or_iff_right hs
      simp only [hmem]
      cases hfn : f n with
      | none => exact ih
      | some e =>
        have hseq : ¬ e.seq = s := fun h => hs (h.symm.trans (hf n e hfn))
        dsimp only
        rw [List.filter_cons_of_neg (by simpa using hseq), ih]

/-- Of the three tiers the last one that has a seq gives its entry. -/
theorem getLast?_tiers {f g : Nat → Option LogEntry} (hf : ∀ s e, f s = some e → e.seq = s)
    (hg : ∀ s e, g s = some e → e.seq = s) {L : List Nat} (hL : L.Nodup) (hs : s ∈ L)
    (ring : List LogEntry) :
    ((L.filterMap f ++ L.filterMap g ++ ring).filter fun e => decide (e.seq = s)).getLast? =
      (ring.filter fun e => decide (e.seq = s)).getLast?.or ((g s).or (f s)) := by
  rw [List.filter_append, List.filter_append, filter_filterMap hf hL, filter_filterMap hg hL,
    if_pos hs, if_pos hs, List.getLast?_append, List.getLast?_append]
  cases f s <;> cases g s <;> rfl

theorem seq_entryAt (h : core.entryAt topic writer s = some e) : e.seq = s := by
  rw [Core.entryAt, Option.or_eq_some_iff, Option.or_eq_some_iff] at h
  rcases h with hring | ⟨-, hlog | ⟨-, harchive⟩⟩
  · exact (of_decide_eq_true (List.mem_filter.1 (List.mem_of_getLast? hring)).2).2
  · obtain ⟨r, hr, rfl⟩ := Option.map_eq_some_iff.1 hlog
    exact congrArg (fun id : EntryId => id.2.2) (Table.key_of_get hr)
  · obtain ⟨a, ha, rfl⟩ := Option.map_eq_some_iff.1 harchive
    exact congrArg (fun id : EntryId => id.2.2) (Table.key_of_get ha)

theorem Core.covers_scan (core : Core) (topic : Topic) (writer : WriterId) (fromSeq toSeq : Nat) :
    Covers LogEntry.seq (core.InScan topic writer fromSeq toSeq)
      (core.InScan topic writer fromSeq toSeq) (core.scan topic writer fromSeq toSeq) := by
  have hmem : ∀ e, e ∈ core.scan topic writer fromSeq toSeq ↔
      core.InScan topic writer fromSeq toSeq e := by
    intro e
    rw [scan, InScan, List.mem_filterMap]
    constructor
    · rintro ⟨s, hs, he⟩
      obtain rfl := seq_entryAt he
      rw [List.mem_range'_1] at hs
      exact ⟨by omega, he⟩
    · rintro ⟨hle, he⟩
      exact ⟨e.seq, List.mem_range'_1.2 (by omega), he⟩
  refine ⟨?_, fun e => (hmem e).1, fun e => (hmem e).2⟩
  apply (List.pairwise_lt_range' (s := fromSeq)).filterMap
  intro s s' hlt e he e' he'
  rwa [seq_entryAt he, seq_entryAt he']

/-- A window and what is above it. -/
theorem Core.scan_append (core : Core) (topic : Topic) (writer : WriterId)
    (hle : fromSeq ≤ windowEnd + 1) (hend : windowEnd ≤ toSeq) :
    core.scan topic writer fromSeq toSeq =
      core.scan topic writer fromSeq windowEnd ++ core.scan topic writer (windowEnd + 1) toSeq := by
  rw [scan, scan, scan, ← List.filterMap_append]
  congr 1
  have hsum : toSeq + 1 - fromSeq = (windowEnd + 1 - fromSeq) + (toSeq + 1 - (windowEnd + 1)) := by
    omega
  rw [hsum, ← List.range'_append_1]
  congr 2
  omega

/-- The three tiers merged over a window hold the entry of each seq. -/
theorem selectBy_tiers (core : Core) (topic : Topic) (writer : WriterId) (fromSeq toSeq : Nat) :
    let L := List.range' fromSeq (toSeq + 1 - fromSeq)
    (Table.ofRows LogEntry.seq
      (L.filterMap (fun s => (core.db.sqArchive.get (topic, writer, s)).map ArchiveRow.entry) ++
        L.filterMap (fun s => (core.db.sqLog.get (topic, writer, s)).map LogRow.entry) ++
        ((core.rings topic).getD []).filter fun e =>
          e.writer = writer ∧ e.seq ≥ fromSeq ∧ e.seq ≤ toSeq)).selectBy (fun _ => true)
      LogEntry.seq = core.scan topic writer fromSeq toSeq := by
  intro L
  have harchived : ∀ s e, (core.db.sqArchive.get (topic, writer, s)).map ArchiveRow.entry = some e →
      e.seq = s := by
    intro s e h
    obtain ⟨a, ha, rfl⟩ := Option.map_eq_some_iff.1 h
    exact congrArg (fun id : EntryId => id.2.2) (Table.key_of_get ha)
  have hhot : ∀ s e, (core.db.sqLog.get (topic, writer, s)).map LogRow.entry = some e →
      e.seq = s := by
    intro s e h
    obtain ⟨r, hr, rfl⟩ := Option.map_eq_some_iff.1 h
    exact congrArg (fun id : EntryId => id.2.2) (Table.key_of_get hr)
  have hget : ∀ s ∈ L, (Table.ofRows LogEntry.seq
      (L.filterMap (fun s => (core.db.sqArchive.get (topic, writer, s)).map ArchiveRow.entry) ++
        L.filterMap (fun s => (core.db.sqLog.get (topic, writer, s)).map LogRow.entry) ++
        ((core.rings topic).getD []).filter fun e =>
          e.writer = writer ∧ e.seq ≥ fromSeq ∧ e.seq ≤ toSeq)).get s =
      core.entryAt topic writer s := by
    intro s hs
    rw [Table.get_ofRows, getLast?_tiers harchived hhot (List.nodup_range') hs, Core.entryAt,
      List.filter_filter]
    congr 2
    apply List.filter_congr
    intro e _
    rw [List.mem_range'_1] at hs
    rw [← Bool.decide_and, decide_eq_decide]
    constructor
    · rintro ⟨hseq, hwriter, -⟩
      exact ⟨hwriter, hseq⟩
    · rintro ⟨hwriter, rfl⟩
      exact ⟨rfl, hwriter, by omega, by omega⟩
  have hrange : ∀ {f : Nat → Option LogEntry}, (∀ s e, f s = some e → e.seq = s) →
      ∀ e ∈ L.filterMap f, e.seq ∈ L := by
    intro f hf e he
    obtain ⟨s, hs, he⟩ := List.mem_filterMap.1 he
    rwa [hf s e he]
  rw [Table.selectBy_eq_filterMap (Table.get _) fromSeq (toSeq + 1 - fromSeq)]
  · exact List.filterMap_congr hget
  · exact fun s e he => Table.key_of_get he
  · intro e
    rw [Table.get_eq_some_iff, and_iff_left rfl, and_iff_left rfl]
    refine (and_iff_right_of_imp fun he => ?_).symm
    have he := Table.get_of_mem he
    rw [Table.get_ofRows] at he
    have hmem := List.mem_of_mem_filter (List.mem_of_getLast? he)
    rw [← List.mem_range'_1]
    rcases List.mem_append.1 hmem with hstored | hring
    · rcases List.mem_append.1 hstored with ha | hh
      · exact hrange harchived e ha
      · exact hrange hhot e hh
    · have hbounds := of_decide_eq_true (List.mem_filter.1 hring).2
      rw [List.mem_range'_1]
      omega

theorem getStream_keeps {E : SeqscribeError → Prop}
    (hQ : ∀ t', t'.core.db = t.core.db → t'.core.rings = t.core.rings →
      Q (t.core.localHead env topic writer) t') : Returns E (getStream env topic writer) t Q := by
  have hhead : t.core.localHead env topic writer =
      (t.core.heads (topic, writer)).getD (t.core.head env (topic, writer)) := rfl
  rw [hhead] at hQ
  refine .bind (.get ?_)
  split
  next head hc =>
    rw [hc] at hQ
    exact .pure (hQ t rfl rfl)
  next hc =>
    rw [hc] at hQ
    refine .bind (query_spec fun fault _ => .bind (.modify rfl (.pure ?_)))
    exact hQ _ rfl rfl

/-- A page is the window of `limit` seqs, and the next one starts above it. -/
theorem scanWriter_spec (topic : Topic) (writer : WriterId) {o : ScanOptions}
    (hafter : o.after = none) (hthrough : o.through = none)
    (hfrom : fromSeq = o.fromSeq.getD 1)
    (hto : toSeq = o.toSeq.getD (t.core.localHead env topic writer).contigSeq)
    (hend : windowEnd = min toSeq (fromSeq + limit - 1)) :
    Returns (fun _ => False) (scanWriter env topic writer o limit) t fun r _ =>
      r.entries = t.core.scan topic writer fromSeq windowEnd ∧ r.nextAfter = none ∧
      r.nextFromSeq = if windowEnd ≥ toSeq then none else some (windowEnd + 1) := by
  refine .ite (fun h => ?_) fun _ => ?_
  · rw [hafter, hthrough] at h
    simp at h
  refine .bind (getStream_keeps fun t₁ hdb hrings => ?_)
  dsimp only
  rw [← hfrom, ← hto, ← hend]
  refine .ite (fun hempty => .pure ?_) fun _ => ?_
  · have hnone : windowEnd + 1 - fromSeq = 0 := by omega
    rw [Core.scan, hnone, if_pos (by omega)]
    exact ⟨rfl, rfl, rfl⟩
  · refine .bind (query_spec fun fault _ => .bind (query_spec fun fault _ => ?_))
    refine .bind (.bind (.get (.pure (.pure ?_))))
    dsimp only
    rw [archivedEntries_eq, entriesRange_eq, hdb, hrings]
    refine ⟨selectBy_tiers t.core topic writer fromSeq windowEnd, rfl, ?_⟩
    simp only [decide_eq_true_eq]

/-! The pages. -/

theorem Core.read_of_returns {m : LogM α} {P : α → Prop}
    (h : Returns (fun _ => False) m (Txn.start core none) fun a _ => P a) :
    ∃ a, core.read m = some a ∧ P a := by
  obtain ⟨a, t', hm, -, hP⟩ := h.ends rfl
  refine ⟨a, ?_, hP⟩
  rw [Core.read, hm]

/-- The canonical calls with one topic, bound and limit. -/
structure ScanOptions.Canonical (through : Option Order) (limit : Option Int) (o : ScanOptions) :
    Prop where
  writer : o.writer = none
  fromSeq : o.fromSeq = none
  toSeq : o.toSeq = none
  through : o.through = through
  limit : o.limit = limit

theorem scanPage_canonical (core : Core) (htopic : env.topics topic = some policy)
    (ho : ScanOptions.Canonical through limit o) : ∃ cursor,
      core.scanPage env topic o = some ((core.db.scan topic o.after through).take (scanLimit limit),
        cursor) ∧
      cursor = if (core.db.scan topic o.after through).length ≤ scanLimit limit then none
        else (lastKey orderOf ((core.db.scan topic o.after through).take (scanLimit limit))).map
          fun order => { o with after := some order } := by
  have hspec : Returns (fun _ => False) (scanEntries env false topic o) (Txn.start core none)
      fun r _ => r.entries = (core.db.scan topic o.after o.through).take (scanLimit o.limit) ∧
        r.nextFromSeq = none ∧ r.nextAfter =
          if (core.db.scan topic o.after o.through).length ≤ scanLimit o.limit then none
          else lastKey orderOf
            ((core.db.scan topic o.after o.through).take (scanLimit o.limit)) := by
    refine .bind (topicPolicy_spec htopic ?_)
    rw [ho.writer, ho.fromSeq, ho.toSeq]
    exact scanCanonical_spec topic o (scanLimit o.limit)
  obtain ⟨r, hread, hentries, hseq, hafter⟩ := Core.read_of_returns hspec
  rw [ho.through, ho.limit] at hentries hafter
  refine ⟨o.next r, ?_, ?_⟩
  · rw [Core.scanPage, hread, ← hentries]
    rfl
  · rw [ScanOptions.next, hseq, hafter]
    by_cases hle : (core.db.scan topic o.after through).length ≤ scanLimit limit
    · rw [if_pos hle, if_pos hle]
    · rw [if_neg hle, if_neg hle]
      cases lastKey orderOf ((core.db.scan topic o.after through).take (scanLimit limit)) <;> rfl

theorem canonical_pages (core : Core) (htopic : env.topics topic = some policy)
    (ho : ScanOptions.Canonical through limit o) :
    ∃ ps, Pages (core.scanPage env topic) o ps ∧
      ps.flatten = core.db.scan topic o.after through := by
  apply exists_full_pages (fun o => core.db.scan topic o.after through)
    (ScanOptions.Canonical through limit) (scanLimit_pos limit) _ _ ho
  · intro o ho hle
    obtain ⟨cursor, hpage, hcursor⟩ := scanPage_canonical core htopic ho
    rw [hpage, hcursor, if_pos hle, List.take_of_length_le hle]
  · intro o ho hlt
    obtain ⟨cursor, hpage, hcursor⟩ := scanPage_canonical core htopic ho
    rw [if_neg (Nat.not_le.2 hlt)] at hcursor
    have hpos := scanLimit_pos limit
    have hne : (after orderOf o.after (within through (core.db.topicEntries topic))).take
        (scanLimit limit) ≠ [] := by
      intro hnil
      have hlen := congrArg List.length hnil
      rw [List.length_take] at hlen
      change min _ (core.db.scan topic o.after through).length = 0 at hlen
      omega
    have hsorted : (within through (core.db.topicEntries topic)).Pairwise
        fun a b => orderOf a < orderOf b :=
      (Db.sorted_topicEntries core.db topic).sublist (within_sublist _ _)
    have hrest := after_lastKey_take hsorted hne
    cases hlast : lastKey orderOf ((core.db.scan topic o.after through).take (scanLimit limit)) with
    | none => exact absurd (eq_nil_of_lastKey hlast) hne
    | some order =>
      rw [hlast] at hcursor
      refine ⟨{ o with after := some order }, ?_, ⟨ho.1, ho.2, ho.3, ho.4, ho.5⟩, ?_⟩
      · rw [hpage, hcursor]
        rfl
      · have hlast' : lastKey orderOf ((after orderOf o.after
            (within through (core.db.topicEntries topic))).take (scanLimit limit)) =
              some order := hlast
        rw [hlast'] at hrest
        exact hrest

/-- The calls for one writer with one upper bound and limit. -/
structure ScanOptions.OfWriter (writer : WriterId) (toSeq : Option Nat) (limit : Option Int)
    (o : ScanOptions) : Prop where
  writer : o.writer = some writer
  toSeq : o.toSeq = toSeq
  after : o.after = none
  through : o.through = none
  limit : o.limit = limit

theorem scanPage_writer (core : Core) (htopic : env.topics topic = some policy)
    (ho : ScanOptions.OfWriter writer toSeq limit o) (hfrom : fromSeq = o.fromSeq.getD 1)
    (hto : last = toSeq.getD (core.localHead env topic writer).contigSeq)
    (hend : windowEnd = min last (fromSeq + scanLimit limit - 1)) :
    core.scanPage env topic o = some (core.scan topic writer fromSeq windowEnd,
      if windowEnd ≥ last then none else some { o with fromSeq := some (windowEnd + 1) }) := by
  have hspec : Returns (fun _ => False) (scanEntries env false topic o) (Txn.start core none)
      fun r _ => r.entries = core.scan topic writer fromSeq windowEnd ∧ r.nextAfter = none ∧
        r.nextFromSeq = if windowEnd ≥ last then none else some (windowEnd + 1) := by
    refine .bind (topicPolicy_spec htopic ?_)
    rw [ho.writer]
    apply scanWriter_spec topic writer ho.after ho.through hfrom
    · rw [ho.toSeq, hto]
      rfl
    · rw [ho.limit, hend]
  obtain ⟨r, hread, hentries, hafter, hseq⟩ := Core.read_of_returns hspec
  rw [Core.scanPage, hread, ← hentries]
  refine congrArg (fun next => some (r.entries, next)) ?_
  rw [ScanOptions.next, hseq, hafter]
  by_cases hge : windowEnd ≥ last
  · rw [if_pos hge, if_pos hge]
  · rw [if_neg hge, if_neg hge]

theorem writer_pages (core : Core) (htopic : env.topics topic = some policy)
    (ho : ScanOptions.OfWriter writer toSeq limit o) :
    ∃ ps, Pages (core.scanPage env topic) o ps ∧
      ps.flatten = core.scan topic writer (o.fromSeq.getD 1)
        (toSeq.getD (core.localHead env topic writer).contigSeq) := by
  generalize hlast : toSeq.getD (core.localHead env topic writer).contigSeq = last
  apply exists_pages (fun o => core.scan topic writer (o.fromSeq.getD 1) last)
    (fun o => last + 1 - o.fromSeq.getD 1) (ScanOptions.OfWriter writer toSeq limit) _ ho
  intro o ho
  have hpage := scanPage_writer core htopic ho rfl hlast.symm rfl
  have hpos := scanLimit_pos limit
  generalize hend : min last (o.fromSeq.getD 1 + scanLimit limit - 1) = windowEnd at hpage
  by_cases hge : windowEnd ≥ last
  · rw [if_pos hge] at hpage
    have hsame : windowEnd = last := by omega
    rw [hsame] at hpage
    exact .inl hpage
  · rw [if_neg hge] at hpage
    refine .inr ⟨_, _, hpage, ⟨ho.1, ho.2, ho.3, ho.4, ho.5⟩, ?_, ?_⟩
    · exact core.scan_append topic writer (by omega) (by omega)
    · rw [Option.getD_some]
      omega

/-- The calls with one watermark and limit, from a safe rowid on. -/
structure KeyedScanOptions.Upto (uptoRowid limit : Option Int) (o : KeyedScanOptions) : Prop where
  uptoRowid : o.uptoRowid = uptoRowid
  limit : o.limit = limit
  after : isSafeRowid (o.afterRowid.getD 0) = true

theorem isSafeRowid_iff : isSafeRowid n = true ↔ 0 ≤ n ∧ n ≤ MAX_SAFE_INTEGER := by
  rw [isSafeRowid, decide_eq_true_iff]

theorem newestAfter_eq (h : core.db.RowidsDistinct) (hafter : isSafeRowid rowid = true) :
    core.db.newestAfter topic uptoRowid rowid = rest LogRow.rowid
      (core.db.newestRows topic ((uptoRowid.map Int.toNat).getD MAX_SAFE_INTEGER)) rowid.toNat := by
  rw [isSafeRowid_iff] at hafter
  rw [Db.newestAfter, Db.latestPerKey_eq h, ← rest_rest (Nat.zero_le rowid.toNat), rest, rest]
  apply List.filter_congr
  intro r _
  rw [decide_eq_decide]
  omega

theorem keyedPage_eq (hdb : core.db.RowidsDistinct) (htopic : env.topics topic = some policy)
    (hkeyed : policy.tombstoneKind.isSome) (hupto : ∀ upto ∈ uptoRowid, isSafeRowid upto = true)
    (ho : KeyedScanOptions.Upto uptoRowid limit o)
    (hW : W = core.db.newestAfter topic uptoRowid (o.afterRowid.getD 0)) :
    core.keyedPage env topic o = some (W.take (scanLimit limit),
      if W.length ≤ scanLimit limit then none
      else (W.take (scanLimit limit)).getLast?.map fun r =>
        { o with afterRowid := some (r.rowid : Int) }) := by
  have hfetch : (Txn.start core none).core.db.latestPerKeyPage topic (uptoRowid.map Int.toNat)
      (o.afterRowid.getD 0).toNat (scanLimit limit + 1) = W.take (scanLimit limit + 1) := by
    rw [hW, newestAfter_eq hdb ho.after]
    exact Db.latestPerKeyPage_eq hdb topic _ _ _
  have hspec : Returns (fun _ => False) (scanLatestPerKey env false topic o) (Txn.start core none)
      fun r _ => r.entries = W.take (scanLimit limit) ∧ r.nextAfterRowid =
        if W.length ≤ scanLimit limit then none
        else (W.take (scanLimit limit)).getLast?.map LogRow.rowid := by
    refine .bind (topicPolicy_spec htopic ?_)
    dsimp only
    rw [ho.after, ho.uptoRowid, ho.limit]
    have hany : (uptoRowid.any fun upto => !isSafeRowid upto) = false := by
      cases uptoRowid with
      | none => rfl
      | some upto => rw [Option.any_some, hupto upto rfl]; rfl
    rw [hany]
    refine .bind (.bind (topicPolicy_spec htopic ?_))
    obtain ⟨tombstoneKind, hkind⟩ := Option.isSome_iff_exists.1 hkeyed
    rw [hkind]
    refine .pure (.bind (query_spec fun fault _ => .pure ?_))
    simp only [decide_eq_true_eq]
    rw [hfetch, List.take_take, Nat.min_eq_left (Nat.le_succ _)]
    have hcomplete : (W.take (scanLimit limit + 1)).length ≤ scanLimit limit ↔
        W.length ≤ scanLimit limit := by
      rw [List.length_take]
      omega
    simp only [hcomplete, and_self]
  obtain ⟨r, hread, hentries, hnext⟩ := Core.read_of_returns hspec
  rw [Core.keyedPage, hread, ← hentries]
  refine congrArg (fun next => some (r.entries, next)) ?_
  rw [KeyedScanOptions.next, hnext, hentries]
  split
  · rfl
  · rw [Option.map_map]
    rfl

theorem keyed_pages (hdb : core.db.RowidsDistinct) (htopic : env.topics topic = some policy)
    (hkeyed : policy.tombstoneKind.isSome) (hupto : ∀ upto ∈ uptoRowid, isSafeRowid upto = true)
    (ho : KeyedScanOptions.Upto uptoRowid limit o) :
    ∃ ps, Pages (core.keyedPage env topic) o ps ∧
      ps.flatten = core.db.newestAfter topic uptoRowid (o.afterRowid.getD 0) := by
  apply exists_full_pages
    (fun o => core.db.newestAfter topic uptoRowid (o.afterRowid.getD 0))
    (KeyedScanOptions.Upto uptoRowid limit) (scanLimit_pos limit) _ _ ho
  · intro o ho hle
    rw [keyedPage_eq hdb htopic hkeyed hupto ho rfl, if_pos hle, List.take_of_length_le hle]
  · intro o ho hlt
    rw [keyedPage_eq hdb htopic hkeyed hupto ho rfl, if_neg (Nat.not_le.2 hlt)]
    have hpos := scanLimit_pos limit
    cases hlast : ((core.db.newestAfter topic uptoRowid (o.afterRowid.getD 0)).take
        (scanLimit limit)).getLast? with
    | none =>
      have hlen := congrArg List.length (List.getLast?_eq_none_iff.1 hlast)
      rw [List.length_take, List.length_nil] at hlen
      omega
    | some r =>
      have hr := List.mem_of_mem_take (List.mem_of_getLast? hlast)
      obtain ⟨hr, habove⟩ := List.mem_filter.1 hr
      have habove := of_decide_eq_true habove
      have hsafe : isSafeRowid r.rowid = true := by
        have hle := ((Db.mem_latestPerKey hdb).1 hr).1.2.2
        rw [isSafeRowid_iff]
        cases huptoRowid : uptoRowid with
        | none =>
          rw [huptoRowid] at hle
          exact ⟨by omega, by exact_mod_cast hle⟩
        | some upto =>
          rw [huptoRowid] at hle
          have hbound := isSafeRowid_iff.1 (hupto upto huptoRowid)
          have hle : r.rowid ≤ upto.toNat := hle
          omega
      refine ⟨{ o with afterRowid := some (r.rowid : Int) }, rfl, ⟨ho.1, ho.2, hsafe⟩, ?_⟩
      have hle : (o.afterRowid.getD 0).toNat ≤ r.rowid := by omega
      rw [newestAfter_eq hdb ho.after] at hlast ⊢
      rw [Option.getD_some, newestAfter_eq hdb hsafe, Int.toNat_natCast, ← rest_rest hle]
      exact rest_eq_drop ((hdb.pairwise _).filter _) hlast

theorem sorted_newestAfter (hdb : core.db.RowidsDistinct) (topic : Topic) (uptoRowid : Option Int)
    (rowid : Int) : (core.db.newestAfter topic uptoRowid rowid).Pairwise
      fun r r' => r.rowid < r'.rowid := by
  rw [Db.newestAfter, Db.latestPerKey_eq hdb]
  exact ((hdb.pairwise _).filter _).filter _

/-- Following the cursors ends, from every start, and the pages together are what a scan without a
limit would return, each entry once and in order. -/
theorem scan_pages_exact (hdb : core.db.RowidsDistinct) (htopic : env.topics topic = some policy) :
    (∀ cursor through limit, ∃ ps,
      Pages (core.scanPage env topic) { after := cursor, through := through, limit := limit } ps ∧
      ps.flatten = core.db.scan topic cursor through ∧
      Covers orderOf (core.db.InScan topic cursor through) (core.db.InScan topic cursor through)
        ps.flatten) ∧
    (∀ writer fromSeq toSeq limit, ∃ ps,
      Pages (core.scanPage env topic)
        { writer := some writer, fromSeq := fromSeq, toSeq := toSeq, limit := limit } ps ∧
      let first := fromSeq.getD 1
      let last := toSeq.getD (core.localHead env topic writer).contigSeq
      ps.flatten = core.scan topic writer first last ∧
      Covers LogEntry.seq (core.InScan topic writer first last)
        (core.InScan topic writer first last) ps.flatten) ∧
    (policy.tombstoneKind.isSome → ∀ uptoRowid afterRowid limit,
      (∀ upto ∈ uptoRowid, isSafeRowid upto = true) → isSafeRowid (afterRowid.getD 0) = true →
      ∃ ps, Pages (core.keyedPage env topic)
        { uptoRowid := uptoRowid, afterRowid := afterRowid, limit := limit } ps ∧
      ps.flatten = core.db.newestAfter topic uptoRowid (afterRowid.getD 0) ∧
      ps.flatten.Pairwise fun r r' => r.rowid < r'.rowid) := by
  refine ⟨?_, ?_, ?_⟩
  · intro cursor through limit
    have ho : ScanOptions.Canonical through limit
        { after := cursor, through := through, limit := limit } := ⟨rfl, rfl, rfl, rfl, rfl⟩
    obtain ⟨ps, hps, hflat⟩ := canonical_pages core htopic ho
    refine ⟨ps, hps, hflat, ?_⟩
    rw [hflat]
    exact core.db.covers_scan topic cursor through
  · intro writer fromSeq toSeq limit
    have ho : ScanOptions.OfWriter writer toSeq limit
        { writer := some writer, fromSeq := fromSeq, toSeq := toSeq, limit := limit } :=
      ⟨rfl, rfl, rfl, rfl, rfl⟩
    obtain ⟨ps, hps, hflat⟩ := writer_pages core htopic ho
    refine ⟨ps, hps, hflat, ?_⟩
    rw [hflat]
    exact core.covers_scan topic writer _ _
  · intro hkeyed uptoRowid afterRowid limit hupto hafter
    have ho : KeyedScanOptions.Upto uptoRowid limit
        { uptoRowid := uptoRowid, afterRowid := afterRowid, limit := limit } := ⟨rfl, rfl, hafter⟩
    obtain ⟨ps, hps, hflat⟩ := keyed_pages hdb htopic hkeyed hupto ho
    refine ⟨ps, hps, hflat, ?_⟩
    rw [hflat]
    exact sorted_newestAfter hdb topic uptoRowid _

/-- Two values of one key, read one by one. -/
theorem scan_pages_exact_of_two :
    let core := (keyedTxn [keyedRow 1 "a" 1 "put", keyedRow 2 "a" 2 "put"] (by decide)).core
    (∃ ps, Pages (core.scanPage (keyedEnv "a") "t") { limit := some 1 } ps ∧
      ps.flatten = core.db.scan "t" none none) ∧
    ∃ ps, Pages (core.keyedPage (keyedEnv "a") "t") { limit := some 1 } ps ∧
      ps.flatten = core.db.newestAfter "t" none 0 := by
  intro core
  have hdb : core.db.RowidsDistinct := by
    unfold Db.RowidsDistinct
    decide
  have htopic : (keyedEnv "a").topics "t" =
      some { fullPolicy with tombstoneKind := some (js "del") } := rfl
  obtain ⟨hcanonical, -, hkeyed⟩ := scan_pages_exact hdb htopic
  obtain ⟨ps, hps, hflat, -⟩ := hcanonical none none (some 1)
  obtain ⟨qs, hqs, hflat', -⟩ := hkeyed rfl none none (some 1) (fun _ h => nomatch h) rfl
  exact ⟨⟨ps, hps, hflat⟩, qs, hqs, hflat'⟩

end Seqscribe
