import Seqscribe.Beacon
import Seqscribe.CharterNames
import Seqscribe.DirectRefinement
import Seqscribe.Run

namespace Seqscribe
set_option autoImplicit true

/-! What a node says of a topic when it compares its own streams with a board of reports. -/

structure BeaconHub where
  known : List BeaconReport := []
  boardSeen : Bool := false
  /-- The number of reports that the board did not return, when the host says so. -/
  boardTruncated : Option Nat := none

def BeaconHub.setKnownVectors (_ : BeaconHub) (v : List BeaconReport) (truncated : Option Nat) :
    BeaconHub where
  known := v
  boardSeen := true
  boardTruncated := truncated

inductive SoleCopyRisk where
  | unknown
  | known (risk : Bool)
  deriving DecidableEq, Repr

structure KeyStale where
  latestKnown : Topic × WriterId × Nat
  haveLocally : Bool

structure Staleness where
  behind : Table WriterId (WriterId × Nat) Prod.fst
  aheadPeers : List WriterId
  soleCopyRisk : SoleCopyRisk
  /-- The clock, written as an ISO date in the source. -/
  asOf : Nat
  keyStale : Option KeyStale

/-- `"retired" in w ? w.finalSeq : w.contig` -/
def WriterVec.seq : WriterVec → Nat
  | .live v => v.contig
  | .retired v => v.finalSeq

/-- The report has the stream at a seq or beyond. -/
def BeaconReport.reaches (report : BeaconReport) (topic : Topic) (writer : WriterId) (seq : Nat) :
    Bool :=
  (writerVec report.vectors (topic, writer)).any fun theirs => decide (theirs.seq ≥ seq)

/-- Some stream of the vectors is on no report. -/
def localOnly (known : List BeaconReport) (topic : Topic) (vec : HaveVectors) : Bool :=
  match vec.get topic with
  | none => false
  | some mine =>
    mine.writers.rows.any fun w =>
      decide (w.2.seq > 0) && !known.any fun report => report.reaches topic w.1 w.2.seq

/-- `report.hints?.[topic]?.[key]` -/
def BeaconReport.hint (report : BeaconReport) (topic : Topic) (key : Key) :
    Option (WriterId × Nat) :=
  (report.hints.bind (·.lookup topic)).bind (·.lookup key)

section
variable (env : Env)

/-- How far a report is ahead, and its hint for the key. -/
def readReport (topic : Topic) (key : Option Key)
    (acc : Table WriterId (WriterId × Nat) Prod.fst × Option (WriterId × Nat))
    (report : BeaconReport) :
    LogM (Table WriterId (WriterId × Nat) Prod.fst × Option (WriterId × Nat)) := do
  match report.vectors.get topic with
  | none => return acc
  | some vec =>
    let behind ← vec.writers.rows.foldlM (fun behind w => do
      let mine := (← getStream env topic w.1).contigSeq
      let lag := w.2.seq - mine
      if lag > ((behind.get w.1).map Prod.snd).getD 0 then return behind.upsert (w.1, lag)
      else return behind) acc.1
    let hint := key.bind (report.hint topic)
    let latestKnown := match hint, acc.2 with
      | some hint, some latest => if hint.2 > latest.2 then some hint else some latest
      | some hint, none => some hint
      | none, latest => latest
    return (behind, latestKnown)

def localOnlyAgainstBoard (known : List BeaconReport) (topic : Topic) : LogM Bool :=
  return localOnly known topic (← vectors env)

def BeaconHub.soleCopyRisk (hub : BeaconHub) (topic : Topic) : LogM SoleCopyRisk := do
  if hub.boardSeen = false then return .unknown
  else if hub.boardTruncated.all fun n => decide (n > 0) then return .unknown
  else return .known (← localOnlyAgainstBoard env hub.known topic)

def BeaconHub.staleness (hub : BeaconHub) (topic : Topic) (key : Option Key) : LogM Staleness := do
  let _ ← topicPolicy env topic
  let (behind, latestKnown) ← hub.known.foldlM (readReport env topic key) (.empty, none)
  let aheadPeers := ((behind.rows.filter fun w => decide (w.2 > 0)).map Prod.fst).insertionSort
    (· ≤ ·)
  let soleCopyRisk ← hub.soleCopyRisk env topic
  let keyStale ← match latestKnown with
    | some (writer, seq) =>
      let head ← getStream env topic writer
      pure (some ⟨(topic, writer, seq), decide (head.contigSeq ≥ seq)⟩)
    | none => pure none
  return {
    behind := behind
    aheadPeers := aheadPeers
    soleCopyRisk := soleCopyRisk
    asOf := (← clock)
    keyStale := keyStale }

end

/-- A held stream with a head that no report of a different node reaches. -/
def UncoveredStream (env : Env) (core : Core) (board : List BeaconReport) (topic : Topic)
    (head : WriterRow) : Prop :=
  core.db.sqWriters.get (topic, head.writer) = some head ∧ 0 < head.vec.seq ∧
    ∀ report ∈ board, report.node ≠ env.writerId →
      report.reaches topic head.writer head.vec.seq = false

/-- The answer is right: unknown without a whole board, and else whether a stream is uncovered. -/
structure BeaconHub.RightRisk (env : Env) (core : Core) (hub : BeaconHub) (topic : Topic)
    (risk : SoleCopyRisk) : Prop where
  unknown : risk = .unknown ↔ hub.boardSeen = false ∨ hub.boardTruncated ≠ some 0
  judged : hub.boardSeen = true → hub.boardTruncated = some 0 →
    (risk = .known true ↔ ∃ head, UncoveredStream env core hub.known topic head) ∧
    (risk = .known false ↔ ¬ ∃ head, UncoveredStream env core hub.known topic head)

/-- The HAVE vectors of a core, cached or not. -/
def Core.vectorsAt (env : Env) (core : Core) (now : Nat) : HaveVectors :=
  core.vectorsCache.getD (shownVectors env core.db core.defined now)

variable {env : Env} {core : Core} {now : Nat} {t : Txn}

/-- A read outside any transaction. -/
def Core.readTxn (core : Core) (now : Nat) : Txn :=
  { Txn.start core none with ambient := { now := now } }

theorem Core.answer_of_run {m : LogM α} (h : m (core.readTxn now) = .ok a t) :
    core.answer m now = .ok a := by
  have h' : m { Txn.start core none with ambient := { now := now } } = .ok a t := h
  rw [Core.answer, h']

/-- Only the cached heads have changed. -/
structure ReadsOnly (env : Env) (core : Core) (now : Nat) (t : Txn) : Prop where
  txn : ∃ heads, t = Core.readTxn { core with heads := heads } now
  coherent : t.core.Coherent env

theorem ReadsOnly.getStream (h : ReadsOnly env core now t) (topic : Topic) (writer : WriterId) :
    Runs (Seqscribe.getStream env topic writer) t (fun _ => ReadsOnly env core now)
      fun _ _ => False := by
  obtain ⟨⟨heads, ht⟩, hcoh⟩ := h
  have hfault : t.fault = none := by
    rw [ht]
    rfl
  have hshape : Returns (fun _ => False) (Seqscribe.getStream env topic writer) t fun _ t' =>
      ∃ heads, t' = Core.readTxn { core with heads := heads } now := by
    refine .bind (.get ?_)
    split
    next head hc => exact .pure ⟨heads, ht⟩
    next hc =>
      refine .bind (query_spec fun fault hsame => .bind (.modify rfl (.pure ?_)))
      rw [hfault] at hsame
      cases fault with
      | none =>
        rw [ht]
        exact ⟨_, rfl⟩
      | some n => cases hsame
  have hready : Ready env t := ⟨hcoh⟩
  obtain ⟨head, t', hrun, -, ht'⟩ := (getStream_spec (E := fun _ => False)
    (Q := fun _ t' => t'.core.Coherent env) (hready.at (topic, writer))
    fun t' h' => h'.ready.coherent).ends hfault
  rw [Runs, hrun]
  exact ⟨(Runs.of_ok hshape hrun).2, ht'⟩

theorem ReadsOnly.readReport (h : ReadsOnly env core now t) (topic : Topic) (key : Option Key)
    (acc : Table WriterId (WriterId × Nat) Prod.fst × Option (WriterId × Nat))
    (report : BeaconReport) :
    Runs (Seqscribe.readReport env topic key acc report) t (fun _ => ReadsOnly env core now)
      fun _ _ => False := by
  unfold Seqscribe.readReport
  split
  next => exact .pure h
  next vec hvec =>
    refine .bind (Runs.mono (Runs.foldlM (fun _ _ => ReadsOnly env core now) h ?_)
      (fun _ _ h => .pure h) fun _ _ h => h)
    intro w rest behind t' h'
    refine .bind (Runs.mono (h'.getStream topic w.1) (fun head t'' h'' => ?_) fun _ _ h => h)
    dsimp only
    split
    · exact .pure h''
    · exact .pure h''

/-- With every defined topic known, reading the HAVE vectors does not throw. -/
theorem vectors_returns (ht : Ready env t)
    (hdefined : ∀ topic ∈ t.core.defined, (env.topics topic).isSome) :
    Returns (fun _ => False) (vectors env) t fun _ _ => True := by
  refine .bind (.get ?_)
  cases t.core.vectorsCache with
  | some vec => exact .pure trivial
  | none =>
    refine .bind (.bind (.bind (.get (.pure (.pure ?_)))))
    refine .bind (query_spec fun fault _ => .bind (.get ?_))
    have hready : Ready env { t with fault := fault } := ⟨ht.coherent⟩
    refine .bind (Returns.mono (Returns.foldlM
      (fun rest _ t' => (∀ topic ∈ rest, (env.topics topic).isSome) ∧ Ready env t')
      ⟨hdefined, hready⟩ ?_) fun _ _ _ => .bind (.modify rfl (.pure trivial)))
    intro topic rest out t' ht'
    obtain ⟨htopics, ht'⟩ := ht'
    obtain ⟨policy, hpolicy⟩ := Option.isSome_iff_exists.1 (htopics topic List.mem_cons_self)
    have hrest : ∀ topic ∈ rest, (env.topics topic).isSome :=
      fun topic h => htopics topic (List.mem_cons_of_mem _ h)
    refine .bind (topicPolicy_spec hpolicy ?_)
    dsimp only
    split
    · exact .pure ⟨hrest, ht'⟩
    · refine .bind (getCert_spec (ht'.at ("", "")) fun t'' h => ?_)
      split
      · exact .pure ⟨hrest, h.ready⟩
      · exact .pure ⟨hrest, h.ready⟩

/-- Reading the HAVE vectors after other reads. -/
theorem ReadsOnly.vectors (h : ReadsOnly env core now t)
    (hdefined : ∀ topic ∈ core.defined, (env.topics topic).isSome) :
    ∃ t', Seqscribe.vectors env t = .ok (core.vectorsAt env now) t' ∧ Ready env t' ∧
      t'.fault = none ∧ Shows (core.vectorsAt env now) core.db.sqWriters.get := by
  obtain ⟨⟨heads, rfl⟩, hcoh⟩ := h
  obtain ⟨vec, t', hrun, hfault, -⟩ := (vectors_returns ⟨hcoh⟩ hdefined).ends rfl
  obtain ⟨hready, -, hshows⟩ := (vectors_runs ⟨hcoh⟩).of_ok hrun
  have hvec : vec = core.vectorsAt env now := by
    cases hcache : core.vectorsCache with
    | some vec' =>
      have hval : Returns (fun _ => False) (Seqscribe.vectors env)
          (Core.readTxn { core with heads := heads } now) fun vec _ => vec = vec' := by
        refine .bind (.get ?_)
        rw [show (Core.readTxn { core with heads := heads } now).core.vectorsCache = some vec' from
          hcache]
        exact .pure rfl
      rw [Core.vectorsAt, hcache, (Runs.of_ok hval hrun).2]
      rfl
    | none =>
      have hanswer := vectors_answer hcoh hcache now
      have hrun' : Core.answer { core with heads := heads } (Seqscribe.vectors env) now = .ok vec :=
        Core.answer_of_run hrun
      rw [Core.vectorsAt, hcache]
      have hknown : haveVectorsOf env core.db core.defined now =
          .ok (shownVectors env core.db core.defined now) := haveVectorsOf_known hdefined now
      exact Except.ok.inj (hrun'.symm.trans (hanswer.trans hknown))
  rw [← hvec]
  exact ⟨t', hrun, hready, hfault, hshows⟩

theorem writerVec_eq_some {vec : HaveVectors} : writerVec vec (topic, writer) = some v ↔
    ∃ mine, vec.get topic = some mine ∧ (writer, v) ∈ mine.writers.rows := by
  rw [writerVec, Option.bind_eq_some_iff]
  apply exists_congr
  intro mine
  apply and_congr_right
  intro _
  rw [Option.map_eq_some_iff]
  constructor
  · rintro ⟨w, hw, rfl⟩
    obtain ⟨hmem, rfl⟩ := Table.get_eq_some_iff.1 hw
    exact hmem
  · intro hmem
    exact ⟨(writer, v), Table.get_of_mem hmem, rfl⟩

/-- The streams that the vectors show are compared. -/
theorem localOnly_iff {board : List BeaconReport} {vec : HaveVectors} :
    localOnly board topic vec = true ↔ ∃ writer v, writerVec vec (topic, writer) = some v ∧
      0 < v.seq ∧ ∀ report ∈ board, report.reaches topic writer v.seq = false := by
  simp only [writerVec_eq_some]
  rw [localOnly]
  cases vec.get topic with
  | none => simp
  | some mine => simp [List.any_eq_true]

/-- Without a fault a head can be read. -/
theorem getStream_ends (ht : Ready env t) (hfault : t.fault = none) (topic : Topic)
    (writer : WriterId) :
    Runs (getStream env topic writer) t (fun _ _ => True) fun _ _ => False := by
  obtain ⟨head, t', hrun, -, -⟩ := (getStream_spec (E := fun _ => False) (Q := fun _ _ => True)
    (ht.at (topic, writer)) fun _ _ => trivial).ends hfault
  rw [Runs, hrun]
  trivial

/-- What a node answers about its copies. -/
def BeaconHub.risk (hub : BeaconHub) (topic : Topic) (vec : HaveVectors) : SoleCopyRisk :=
  if hub.boardSeen = true ∧ hub.boardTruncated = some 0 then .known (localOnly hub.known topic vec)
  else .unknown

theorem ReadsOnly.soleCopyRisk (h : ReadsOnly env core now t)
    (hdefined : ∀ topic ∈ core.defined, (env.topics topic).isSome) (hub : BeaconHub)
    (topic : Topic) :
    Runs (hub.soleCopyRisk env topic) t (fun risk t' =>
      risk = hub.risk topic (core.vectorsAt env now) ∧ Ready env t' ∧ t'.fault = none)
      fun _ _ => False := by
  have hready : Ready env t ∧ t.fault = none := by
    obtain ⟨⟨heads, rfl⟩, hcoh⟩ := h
    exact ⟨⟨hcoh⟩, rfl⟩
  rw [BeaconHub.soleCopyRisk, BeaconHub.risk]
  cases hseen : hub.boardSeen with
  | false => exact .pure ⟨(if_neg nofun).symm, hready⟩
  | true =>
    rw [if_neg nofun]
    cases htruncated : hub.boardTruncated with
    | none => exact .pure ⟨(if_neg fun h => nomatch h.2).symm, hready⟩
    | some n =>
      cases n with
      | succ n => exact .pure ⟨(if_neg fun h => nomatch h.2).symm, hready⟩
      | zero =>
        obtain ⟨t', hrun, ht', hfault, -⟩ := h.vectors hdefined
        have hlocal : Runs (localOnlyAgainstBoard env hub.known topic) t (fun risk t' =>
            risk = localOnly hub.known topic (core.vectorsAt env now) ∧ Ready env t' ∧
              t'.fault = none) fun _ _ => False := by
          refine .bind ?_
          rw [Runs, hrun]
          exact .pure ⟨rfl, ht', hfault⟩
        refine .bind (Runs.mono hlocal (fun risk t'' h'' => .pure ?_) fun _ _ h => h)
        exact ⟨h''.1 ▸ (if_pos ⟨rfl, rfl⟩).symm, h''.2⟩

theorem staleness_risk (hcoh : core.Coherent env)
    (hdefined : ∀ topic ∈ core.defined, (env.topics topic).isSome)
    (htopic : (env.topics topic).isSome) (hub : BeaconHub) (key : Option Key) (now : Nat) :
    ∃ s, core.answer (hub.staleness env topic key) now = .ok s ∧
      s.soleCopyRisk = hub.risk topic (core.vectorsAt env now) := by
  obtain ⟨policy, hpolicy⟩ := Option.isSome_iff_exists.1 htopic
  have hreads : ReadsOnly env core now (core.readTxn now) := ⟨⟨core.heads, rfl⟩, hcoh⟩
  have hruns : Runs (hub.staleness env topic key) (core.readTxn now)
      (fun s _ => s.soleCopyRisk = hub.risk topic (core.vectorsAt env now)) fun _ _ => False := by
    refine .bind ?_
    rw [topicPolicy, hpolicy]
    refine .pure (.bind (Runs.mono (Runs.foldlM (fun _ _ => ReadsOnly env core now) hreads
      fun report rest acc t h => h.readReport topic key acc report) (fun acc t h => ?_)
      fun _ _ h => h))
    refine .bind (Runs.mono (h.soleCopyRisk hdefined hub topic) (fun risk t' h' => ?_)
      fun _ _ h => h)
    obtain ⟨hrisk, ht', hfault⟩ := h'
    dsimp only
    split
    · refine .bind (Runs.mono (getStream_ends ht' hfault topic _) (fun head t'' _ => ?_)
        fun _ _ h => h)
      exact hrisk
    · exact hrisk
  rw [Runs] at hruns
  cases hrun : hub.staleness env topic key (core.readTxn now) with
  | ok s t' =>
    rw [hrun] at hruns
    exact ⟨s, Core.answer_of_run hrun, hruns⟩
  | error e t' =>
    rw [hrun] at hruns
    exact hruns.elim

/-- The code answers right unless every uncovered stream is reached by a report of the node itself
or is not shown, as an expired tombstone is not. -/
theorem rightRisk_iff {vec : HaveVectors} (hshows : Shows vec core.db.sqWriters.get)
    (hub : BeaconHub) (topic : Topic) :
    hub.RightRisk env core topic (hub.risk topic vec) ↔
      (hub.boardSeen = true → hub.boardTruncated = some 0 →
        (∃ head, UncoveredStream env core hub.known topic head) →
        ∃ head, UncoveredStream env core hub.known topic head ∧
          (writerVec vec (topic, head.writer)).isSome ∧
          ∀ report ∈ hub.known, report.node = env.writerId →
            report.reaches topic head.writer head.vec.seq = false) := by
  have hlocal : localOnly hub.known topic vec = true ↔
      ∃ head, UncoveredStream env core hub.known topic head ∧
        (writerVec vec (topic, head.writer)).isSome ∧
        ∀ report ∈ hub.known, report.node = env.writerId →
          report.reaches topic head.writer head.vec.seq = false := by
    rw [localOnly_iff]
    constructor
    · rintro ⟨writer, v, hv, hpos, hreports⟩
      obtain ⟨head, hhead, rfl⟩ := Option.map_eq_some_iff.1 (hshows.exposed _ _ hv)
      have hwriter : head.writer = writer := congrArg Prod.snd (Table.key_of_get hhead)
      subst hwriter
      refine ⟨head, ⟨hhead, hpos, fun report hr _ => hreports report hr⟩, ?_, ?_⟩
      · rw [hv]
        rfl
      · exact fun report hr _ => hreports report hr
    · rintro ⟨head, ⟨hhead, hpos, hothers⟩, hshown, hown⟩
      obtain ⟨v, hv⟩ := Option.isSome_iff_exists.1 hshown
      have hvec := hshows.exposed _ _ hv
      rw [hhead] at hvec
      obtain rfl := Option.some.inj hvec
      refine ⟨head.writer, _, hv, hpos, fun report hr => ?_⟩
      by_cases hself : report.node = env.writerId
      · exact hown report hr hself
      · exact hothers report hr hself
  rw [BeaconHub.risk]
  by_cases hwhole : hub.boardSeen = true ∧ hub.boardTruncated = some 0
  · obtain ⟨hseen, htruncated⟩ := hwhole
    rw [if_pos ⟨hseen, htruncated⟩]
    constructor
    · intro h _ _ hexists
      rw [← hlocal]
      exact SoleCopyRisk.known.inj ((h.judged hseen htruncated).1.2 hexists)
    · intro h
      have hiff : localOnly hub.known topic vec = true ↔
          ∃ head, UncoveredStream env core hub.known topic head := by
        rw [hlocal]
        constructor
        · rintro ⟨head, hhead, -⟩
          exact ⟨head, hhead⟩
        · exact h hseen htruncated
      refine ⟨?_, fun _ _ => ⟨?_, ?_⟩⟩
      · rw [hseen, htruncated]
        simp
      · rw [← hiff, SoleCopyRisk.known.injEq]
      · rw [← hiff, SoleCopyRisk.known.injEq, Bool.not_eq_true]
  · rw [if_neg hwhole]
    constructor
    · exact fun _ hseen htruncated => absurd ⟨hseen, htruncated⟩ hwhole
    · intro _
      refine ⟨⟨fun _ => ?_, fun _ => rfl⟩, ?_⟩
      swap
      · exact fun hseen htruncated => absurd ⟨hseen, htruncated⟩ hwhole
      cases hseen : hub.boardSeen with
      | false => exact .inl rfl
      | true => exact .inr fun htruncated => hwhole ⟨hseen, htruncated⟩

/-- A node that has appended one entry. -/
def oneAppend : List (Input (hostEnv "a")) := [hostFlush "a" 1 [hostAppend "a"]]

/-- A whole board with the node's own report only. -/
def ownBoard : BeaconHub :=
  BeaconHub.setKnownVectors {} [⟨"a", "1970-01-01T00:00:00.001Z",
    (runCore (hostEnv "a") Core.init oneAppend).vectorsAt (hostEnv "a") 1, none⟩] (some 0)

end Seqscribe
