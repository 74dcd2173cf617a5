import Seqscribe.Delivery
import Seqscribe.Generations

namespace Seqscribe
set_option autoImplicit true

variable {env : Env} {S₀ : Stream} {L : Local} {v v' : View} {core : Core}

/-- The adjudication of a fork: a directive that retires a stream at the end of a canonical branch,
how far a local branch shares the canonical one, and where the feed of canonical entries starts. -/
structure Adjudication (env : Env) where
  directive : WriterDirective
  canonical : Nat → LogEntry
  common : Nat
  start : Nat
  retires : directive.state = .retired
  id : ∀ s, 1 ≤ s → s ≤ directive.finalSeq.getD 0 →
    (canonical s).id = (directive.topic, directive.writer, s)
  linked : ∀ s < directive.finalSeq.getD 0,
    chainOf env (chainAt env (directive.topic, directive.writer) canonical s) (canonical (s + 1)) =
      (canonical (s + 1)).chain
  final : (directiveTarget env directive).finalChain =
    chainAt env (directive.topic, directive.writer) canonical (directive.finalSeq.getD 0)
  common_le : common ≤ directive.finalSeq.getD 0
  one_le : 1 ≤ start
  start_le : start ≤ common + 1

namespace Adjudication

variable (F : Adjudication env)

def stream : StreamId := (F.directive.topic, F.directive.writer)

def finalSeq : Nat := F.directive.finalSeq.getD 0

def target : RecoveryTarget := directiveTarget env F.directive

/-- The lowest position whose row must be held. -/
def bottom : Nat := max 1 (min F.start F.common)

def chain (s : Nat) : Chain := chainAt env F.stream F.canonical s

/-- A local branch that shares the canonical one up to `common` and diverges after it, with its
rows held from `bottom` on. -/
structure Branch (S : Stream) : Prop where
  le : F.common ≤ S.head.contigSeq
  bounded : S.Bounded
  held : ∀ s, F.bottom ≤ s → s ≤ S.head.contigSeq → (S.rows s).isSome
  shared : ∀ s e, s ≤ F.common → S.rows s = some e → e = F.canonical s
  diverged : ∀ s e, F.common < s → s ≤ F.finalSeq → S.rows s = some e →
    e.chain ≠ (F.canonical s).chain
  chain : ∀ e, S.rows S.head.contigSeq = some e → S.head.contigChain = e.chain

/-- The canonical entries from `start` on in increasing order, split and repeated: `next` is the
position to come. Where the log keeps its entries, one that was matched may come again. -/
inductive Feed : Option Nat → List (QueueItem env) → Option Nat → Prop
  | done (stage : Option Nat) : Feed stage [] stage
  | directive (h : Feed (some F.start) rest stage) : Feed none (.directive F.directive :: rest) stage
  | next (he : item.entry = F.canonical next) (hn : next ≤ F.finalSeq)
      (h : Feed (some (next + 1)) rest stage) : Feed (some next) (.external item :: rest) stage
  | again (he : item.entry = F.canonical s) (hs : F.bottom ≤ s) (hlt : s < next)
      (hkept : env.isFull F.stream.1) (h : Feed (some next) rest stage) :
      Feed (some next) (.external item :: rest) stage

/-- The local rows that diverge from the canonical branch, as anomalies. -/
def doomed (S₀ : Stream) : List Anomaly :=
  (S₀.range (F.common + 1) S₀.head.contigSeq).map .entryQuarantined

/-- From `bottom` on only canonical entries are held, and the divergent rows are in quarantine. -/
structure Cleared (S₀ S : Stream) : Prop where
  held : env.isFull F.stream.1 → ∀ s, F.bottom ≤ s → s ≤ S.head.contigSeq →
    S.rows s = some (F.canonical s)
  only : ∀ s e, F.bottom ≤ s → S.rows s = some e → s ≤ S.head.contigSeq ∧ e = F.canonical s
  quarantined : ∀ s e, F.common < s → S₀.rows s = some e →
    ∃ now, S.quarantine s = some ⟨e, .canonicalized, now⟩

/-- How far a recovery has come when the feed is at a stage, and what it has reported. -/
inductive Fed (S₀ : Stream) : Option Nat → Stream → List Anomaly → Prop
  | before : Fed S₀ none S₀ []
  | walking (hcommon : F.common < F.finalSeq) (hnext : next ≤ F.common + 1)
      (hseal : S.head.sealReason ≠ none) (hrecovery : S.recovery = some F.target)
      (hseq : S.head.contigSeq = S₀.head.contigSeq)
      (hchain : S.head.contigChain = S₀.head.contigChain) (hrows : S.rows = S₀.rows)
      (hquarantine : S.quarantine = S₀.quarantine) : Fed S₀ (some next) S []
  | extending (hnext : F.common + 1 < next) (hn : next ≤ F.finalSeq)
      (hseal : S.head.sealReason ≠ none) (hrecovery : S.recovery = some F.target)
      (hseq : S.head.contigSeq + 1 = next) (hchain : S.head.contigChain = F.chain S.head.contigSeq)
      (hcleared : F.Cleared S₀ S) : Fed S₀ (some next) S (F.doomed S₀)
  | finished (hseal : S.head.sealReason = some .retired) (hrecovery : S.recovery = none)
      (hseq : S.head.contigSeq = F.finalSeq) (hchain : S.head.contigChain = F.chain F.finalSeq)
      (hcleared : F.Cleared S₀ S) : Fed S₀ (some next) S (F.doomed S₀)

theorem bottom_pos : 1 ≤ F.bottom := Nat.le_max_left ..

theorem bottom_le_start : F.bottom ≤ F.start := max_le F.one_le (min_le_left ..)

theorem bottom_le_common (h : 0 < F.common) : F.bottom ≤ F.common :=
  max_le h (min_le_right ..)

theorem bottom_le_final (hcommon : F.common = F.finalSeq) (hpos : 0 < F.finalSeq) :
    F.bottom ≤ F.finalSeq := by
  rw [← hcommon] at hpos ⊢
  exact F.bottom_le_common hpos

theorem bottom_le : F.bottom ≤ F.common + 1 := F.bottom_le_start.trans F.start_le

theorem seq (h1 : 1 ≤ s) (hn : s ≤ F.finalSeq) : (F.canonical s).seq = s :=
  congrArg (fun id : EntryId => id.2.2) (F.id s h1 hn)

theorem topic (h1 : 1 ≤ s) (hn : s ≤ F.finalSeq) : (F.canonical s).topic = F.stream.1 :=
  congrArg (fun id : EntryId => id.1) (F.id s h1 hn)

theorem stream_canonical (h1 : 1 ≤ s) (hn : s ≤ F.finalSeq) : (F.canonical s).stream = F.stream :=
  congrArg (fun id : EntryId => (id.1, id.2.1)) (F.id s h1 hn)

theorem chain_of_pos (h : 0 < s) : F.chain s = (F.canonical s).chain := if_neg (Nat.ne_of_gt h)

end Adjudication

namespace Local

theorem ingest_recovering (hseal : L.stream.head.sealReason ≠ none)
    (hrecovery : L.stream.recovery = some target) (hle : e.seq ≤ target.finalSeq) :
    L.ingest env cert e via now = L.recoveryIngest env e target via now := by
  unfold ingest
  rw [if_pos hseal, hrecovery]
  exact if_pos hle

theorem ingest_sealed (hseal : L.stream.head.sealReason ≠ none) (hrecovery : L.stream.recovery = none) :
    L.ingest env cert e via now = L.done (.external .sealed) := by
  unfold ingest
  rw [if_pos hseal, hrecovery]

theorem recoveryIngest_matching (hle : e.seq ≤ L.stream.head.contigSeq)
    (hrow : L.stream.rows e.seq = some e) :
    L.recoveryIngest env e target via now = L.done (.external .duplicate) := by
  unfold recoveryIngest
  rw [if_pos hle, if_pos (by rw [hrow]; exact decide_eq_true rfl)]

theorem recoveryIngest_diverging (hle : e.seq ≤ L.stream.head.contigSeq)
    (hdiff : ∀ stored, L.stream.rows e.seq = some stored → stored.chain ≠ e.chain) :
    L.recoveryIngest env e target via now =
      (L.recoveryRewind env e now).recoveryExtend env e target via now := by
  unfold recoveryIngest
  rw [if_pos hle, if_neg]
  intro hany
  obtain ⟨stored, hstored, hc⟩ := (Option.any_eq_true _ _).1 hany
  exact hdiff stored hstored (of_decide_eq_true hc)

theorem recoveryIngest_beyond (hlt : L.stream.head.contigSeq < e.seq) :
    L.recoveryIngest env e target via now = L.recoveryExtend env e target via now :=
  if_neg (Nat.not_le_of_lt hlt)

/-- The stream with its next canonical entry, retired when that is the last one. -/
theorem recoveryExtend_next (target : RecoveryTarget) (via : Option String)
    (now : Nat) (L : Local) (hseq : e.seq = L.stream.head.contigSeq + 1)
    (hchain : chainOf env (L.stream.head.prevChain env) e = e.chain) :
    (L.recoveryExtend env e target via now).anomalies = L.anomalies ∧
      (L.recoveryExtend env e target via now).stream =
        let S := L.stream.advance env e
        if e.seq = target.finalSeq ∧ e.chain = target.finalChain then
          (S.saveHead (S.head.retire target now)).setRecovery none
        else S := by
  unfold recoveryExtend
  rw [if_neg (not_not.2 hseq), if_neg (not_not.2 hchain)]
  dsimp only
  split <;> exact ⟨rfl, rfl⟩

end Local

namespace Adjudication

variable {F : Adjudication env}

theorem Branch.row (h : F.Branch S) (hs : F.bottom ≤ s) (hle : s ≤ F.common) :
    S.rows s = some (F.canonical s) := by
  obtain ⟨e, he⟩ := Option.isSome_iff_exists.1 (h.held s hs (hle.trans h.le))
  rw [he, h.shared s e hle he]

/-- The next canonical entry brings a cleared stream one step on. -/
theorem fed_extend
    (hseal : L.stream.head.sealReason ≠ none) (hrecovery : L.stream.recovery = some F.target)
    (hseq : L.stream.head.contigSeq + 1 = s) (hn : s ≤ F.finalSeq) (hs : F.common < s)
    (hprev : L.stream.head.prevChain env = F.chain L.stream.head.contigSeq)
    (hcleared : F.Cleared S₀ L.stream) (hseen : seen ++ L.anomalies = F.doomed S₀) :
    F.Fed S₀ (some (s + 1)) (L.recoveryExtend env (F.canonical s) F.target via now).stream
      (seen ++ (L.recoveryExtend env (F.canonical s) F.target via now).anomalies) := by
  have hs1 : 1 ≤ s := by omega
  have heseq := F.seq hs1 hn
  have hlink : chainOf env (L.stream.head.prevChain env) (F.canonical s) = (F.canonical s).chain := by
    obtain rfl := hseq
    rw [hprev]
    exact F.linked _ hn
  obtain ⟨hanomalies, hstream⟩ := L.recoveryExtend_next F.target via
    now (heseq.trans hseq.symm) hlink
  rw [hanomalies, hseen, hstream]
  have hrow : ∀ s', (L.stream.advance env (F.canonical s)).rows s' =
      if env.isFull F.stream.1 ∧ s' = s then some (F.canonical s) else L.stream.rows s' := by
    intro s'
    refine (Stream.rows_put env L.stream (F.canonical s) s').trans ?_
    rw [F.topic hs1 hn, heseq]
  have hquarantine : (L.stream.advance env (F.canonical s)).quarantine = L.stream.quarantine := by
    change Stream.quarantine (L.stream.put env _) = _
    unfold Stream.put
    split <;> rfl
  have hcleared' : F.Cleared S₀ (L.stream.advance env (F.canonical s)) := by
    refine ⟨fun hfull s' h1 hle => ?_, fun s' e h1 hr => ?_, hquarantine ▸ hcleared.quarantined⟩
    · rw [hrow]
      have hle : s' ≤ (F.canonical s).seq := hle
      split
      · next hc => rw [hc.2]
      · next hc =>
        have hne : s' ≠ s := fun h => hc ⟨hfull, h⟩
        exact hcleared.held hfull s' h1 (by omega)
    · rw [hrow] at hr
      change s' ≤ (F.canonical s).seq ∧ _
      split at hr
      · next hc =>
        rw [hc.2, heseq]
        exact ⟨Nat.le_refl _, (Option.some.inj hr).symm⟩
      · obtain ⟨hle, he⟩ := hcleared.only s' e h1 hr
        exact ⟨by omega, he⟩
  dsimp only
  by_cases hlast : s = F.finalSeq
  · have hend : (F.canonical s).chain = F.target.finalChain := by
      rw [← F.chain_of_pos hs1, hlast]
      exact F.final.symm
    rw [if_pos ⟨heseq.trans hlast, hend⟩]
    exact .finished rfl rfl (heseq.trans hlast) (hend.trans F.final)
      ⟨hcleared'.held, hcleared'.only, hcleared'.quarantined⟩
  · rw [if_neg fun h => hlast (heseq.symm.trans h.1)]
    refine .extending (by omega) (by omega) hseal ?_ (congrArg (· + 1) heseq) ?_ hcleared'
    · rw [← hrecovery]
      change Stream.recovery (L.stream.put env _) = _
      unfold Stream.put
      split <;> rfl
    · change (F.canonical s).chain = F.chain (F.canonical s).seq
      rw [heseq]
      exact (F.chain_of_pos hs1).symm

/-- The first canonical entry after the common part: what diverges is cleared away. -/
theorem fed_diverging (hbranch : F.Branch S₀) (hid : L.stream.head.stream = F.stream)
    (hseal : L.stream.head.sealReason ≠ none) (hrecovery : L.stream.recovery = some F.target)
    (hcommon : F.common < F.finalSeq) (hseq : L.stream.head.contigSeq = S₀.head.contigSeq)
    (hchain : L.stream.head.contigChain = S₀.head.contigChain) (hrows : L.stream.rows = S₀.rows)
    (hseen : seen ++ L.anomalies = []) :
    F.Fed S₀ (some (F.common + 1 + 1))
      (L.recoveryIngest env (F.canonical (F.common + 1)) F.target via now).stream
      (seen ++ (L.recoveryIngest env (F.canonical (F.common + 1)) F.target via now).anomalies) := by
  have heseq : (F.canonical (F.common + 1)).seq = F.common + 1 := F.seq (Nat.succ_pos _) hcommon
  have hpos : 0 < (F.canonical (F.common + 1)).seq := heseq.ge.trans' (Nat.succ_pos _)
  have hrow : ∀ s, F.bottom ≤ s → s ≤ F.common → L.stream.rows s = some (F.canonical s) := by
    rw [hrows]
    exact fun s h1 hle => hbranch.row h1 hle
  have hseed : L.stream.head.topic = F.stream.1 ∧ L.stream.head.writer = F.stream.2 :=
    ⟨congrArg Prod.fst hid, congrArg Prod.snd hid⟩
  by_cases hle : F.common + 1 ≤ S₀.head.contigSeq
  · rw [Local.recoveryIngest_diverging (by rw [heseq, hseq]; exact hle)]
    · refine fed_extend (L := L.recoveryRewind env _ now) hseal hrecovery
        (Nat.succ_pred_eq_of_pos hpos |>.trans heseq) hcommon
        (Nat.lt_succ_self _) ?_ ⟨?_, ?_, ?_⟩ ?_
      · rw [Stream.Moves.prevChain_rewound hpos, heseq]
        change _ = F.chain ((F.canonical (F.common + 1)).seq - 1)
        rw [heseq, Nat.succ_sub_one]
        split
        · next hzero => rw [hzero, hseed.1, hseed.2]; rfl
        · next hzero =>
          have hpos := Nat.pos_of_ne_zero hzero
          unfold Stream.rewoundChain Stream.chainHeldAt
          rw [if_neg hzero, hrow _ (F.bottom_le_common hpos) (Nat.le_refl _)]
          exact (F.chain_of_pos hpos).symm
      · intro _ s h1 hs
        change (if (F.canonical (F.common + 1)).seq ≤ s then none else L.stream.rows s) = _
        have hs : s ≤ (F.canonical (F.common + 1)).seq - 1 := hs
        rw [heseq] at hs ⊢
        rw [if_neg (by omega)]
        exact hrow s h1 hs
      · intro s e h1 hr
        change s ≤ (F.canonical (F.common + 1)).seq - 1 ∧ _
        have hr : (if (F.canonical (F.common + 1)).seq ≤ s then none else L.stream.rows s) =
          some e := hr
        rw [heseq] at hr ⊢
        split at hr
        · cases hr
        · next hlt =>
          rw [hrow s h1 (by omega)] at hr
          exact ⟨by omega, (Option.some.inj hr).symm⟩
      · intro s e hs hr
        refine ⟨now, ?_⟩
        have hm : s ≤ S₀.head.contigSeq := by
          by_contra hlt
          rw [hbranch.bounded s (Nat.lt_of_not_le hlt)] at hr
          cases hr
        exact L.stream.quarantine_quarantineFrom (hrows ▸ hr) (heseq.le.trans hs) (hseq ▸ hm)
      · change seen ++ (L.anomalies ++ (L.stream.range _ _).map _) = _
        rw [← List.append_assoc, hseen, heseq, hseq, List.nil_append, doomed, Stream.range,
          Stream.range, hrows]
    · intro stored hstored
      rw [heseq, hrows] at hstored
      exact hbranch.diverged _ _ (Nat.lt_succ_self _) hcommon hstored
  · have hend : S₀.head.contigSeq = F.common := Nat.le_antisymm (by omega) hbranch.le
    rw [Local.recoveryIngest_beyond (by rw [heseq, hseq]; omega)]
    refine fed_extend hseal hrecovery (by rw [hseq, hend]) hcommon (Nat.lt_succ_self _) ?_
      ⟨?_, ?_, ?_⟩ ?_
    · unfold WriterRow.prevChain
      rw [hseq, hend, hchain]
      split
      · next hzero => rw [hzero, hseed.1, hseed.2]; rfl
      · next hzero =>
        have hpos := Nat.pos_of_ne_zero hzero
        have hlast := hrow _ (F.bottom_le_common hpos) (Nat.le_refl _)
        rw [hrows, ← hend] at hlast
        rw [hbranch.chain _ hlast, F.chain_of_pos hpos, hend]
    · intro _ s h1 hs
      exact hrow s h1 (by omega)
    · intro s e h1 hr
      have hm : s ≤ F.common := by
        by_contra hlt
        rw [hrows, hbranch.bounded s (by omega)] at hr
        cases hr
      rw [hrow s h1 hm] at hr
      exact ⟨by omega, (Option.some.inj hr).symm⟩
    · intro s e hs hr
      rw [hbranch.bounded s (by omega)] at hr
      cases hr
    · rw [hseen, doomed, hend, Stream.range, Nat.sub_self]
      rfl

/-- A canonical entry that was matched before changes nothing. -/
theorem fed_again (hbranch : F.Branch S₀) (hfed : F.Fed S₀ (some next) L.stream (seen ++ L.anomalies))
    (hs : F.bottom ≤ s) (hlt : s < next) (hn : s ≤ F.finalSeq) (hkept : env.isFull F.stream.1) :
    F.Fed S₀ (some next) (L.ingest env cert (F.canonical s) via now).stream
      (seen ++ (L.ingest env cert (F.canonical s) via now).anomalies) := by
  have heseq := F.seq (F.bottom_pos.trans hs) hn
  suffices hsame : ∃ r, L.ingest env cert (F.canonical s) via now = L.done (.external r) by
    obtain ⟨r, hr⟩ := hsame
    rw [hr]
    exact hfed
  have hmatching : L.stream.head.sealReason ≠ none → L.stream.recovery = some F.target →
      s ≤ L.stream.head.contigSeq → L.stream.rows s = some (F.canonical s) →
      ∃ r, L.ingest env cert (F.canonical s) via now = L.done (.external r) := by
    intro hseal hrecovery hle hrow
    rw [Local.ingest_recovering hseal hrecovery (by rw [heseq]; exact hn)]
    exact ⟨_, Local.recoveryIngest_matching (by rwa [heseq]) (by rwa [heseq])⟩
  generalize seen ++ L.anomalies = seen' at hfed
  cases hfed with
  | walking hcommon hnext hseal hrecovery hseq hchain hrows hquarantine =>
    have hle : s ≤ F.common := by omega
    exact hmatching hseal hrecovery (hseq.ge.trans' (hle.trans hbranch.le))
      (hrows ▸ hbranch.row hs hle)
  | extending hnext hn' hseal hrecovery hseq hchain hcleared =>
    have hle : s ≤ L.stream.head.contigSeq := by omega
    exact hmatching hseal hrecovery hle (hcleared.held hkept s hs hle)
  | finished hseal hrecovery hseq hchain hcleared =>
    exact ⟨_, Local.ingest_sealed (by rw [hseal]; simp) hrecovery⟩

/-- The next canonical entry brings a recovery one step on. -/
theorem fed_next (hbranch : F.Branch S₀) (hid : L.stream.head.stream = F.stream)
    (hfed : F.Fed S₀ (some next) L.stream (seen ++ L.anomalies)) (hstart : F.start ≤ next)
    (hn : next ≤ F.finalSeq) :
    F.Fed S₀ (some (next + 1)) (L.ingest env cert (F.canonical next) via now).stream
      (seen ++ (L.ingest env cert (F.canonical next) via now).anomalies) := by
  have hs := F.bottom_le_start.trans hstart
  have heseq := F.seq (F.bottom_pos.trans hs) hn
  have hle : (F.canonical next).seq ≤ F.target.finalSeq := by rw [heseq]; exact hn
  generalize hseen : seen ++ L.anomalies = seen' at hfed
  cases hfed with
  | walking hcommon hnext hseal hrecovery hseq hchain hrows hquarantine =>
    rw [Local.ingest_recovering hseal hrecovery hle]
    by_cases hcome : next = F.common + 1
    · subst hcome
      exact fed_diverging hbranch hid hseal hrecovery hcommon hseq hchain hrows hseen
    · have hle := hbranch.le
      have hrow := hbranch.row hs (by omega)
      rw [← hrows] at hrow
      rw [Local.recoveryIngest_matching (by rw [heseq, hseq]; omega) (by rw [heseq]; exact hrow)]
      change F.Fed S₀ (some (next + 1)) L.stream (seen ++ L.anomalies)
      rw [hseen]
      exact .walking hcommon (by omega) hseal hrecovery hseq hchain hrows hquarantine
  | extending hnext hn' hseal hrecovery hseq hchain hcleared =>
    rw [Local.ingest_recovering hseal hrecovery hle,
      Local.recoveryIngest_beyond (by rw [heseq]; omega)]
    refine fed_extend hseal hrecovery hseq hn (by omega) ?_ hcleared hseen
    unfold WriterRow.prevChain
    rw [if_neg (by omega), hchain]
  | finished hseal hrecovery hseq hchain hcleared =>
    rw [Local.ingest_sealed (by rw [hseal]; simp) hrecovery]
    change F.Fed S₀ (some (next + 1)) L.stream (seen ++ L.anomalies)
    rw [hseen]
    exact .finished hseal hrecovery hseq hchain hcleared

/-- The directive starts the recovery, or retires a stream that has the canonical end. -/
theorem fed_directive (hbranch : F.Branch S₀) (hid : L.stream.head.stream = F.stream)
    (hfed : F.Fed S₀ none L.stream (seen ++ L.anomalies))
    (hstored : ∀ s, stored = some s → s = F.directive.stringify)
    (hgate : S₀.head.rgen < F.directive.rgen ∨ S₀.head.sealReason = some .fork) :
    F.Fed S₀ (some F.start) (L.direct env stored F.directive now).stream
      (seen ++ (L.direct env stored F.directive now).anomalies) := by
  generalize hseen : seen ++ L.anomalies = seen' at hfed
  cases hfed with
  | before =>
  have hdirect : L.direct env stored F.directive now = L.processRetired env F.directive now := by
    unfold Local.direct
    rw [if_neg, if_neg, F.retires]
    · rintro ⟨hle, hfork⟩
      exact hgate.elim (fun hlt => absurd hle (Nat.not_le_of_lt hlt)) fun h => hfork h
    · intro hany
      obtain ⟨s, hs, hne⟩ := (Option.any_eq_true _ _).1 hany
      exact of_decide_eq_true hne (hstored s hs)
  -- the chain at the declared end is that of the row there, whether or not it is the head
  have hheld : ∀ {e}, 0 < F.finalSeq → L.stream.rows F.finalSeq = some e →
      L.stream.chainAtEnd env F.finalSeq = some e.chain := by
    intro e hpos he
    unfold Stream.chainAtEnd
    split
    · next hlast =>
      rw [hlast.2] at he
      rw [hbranch.chain e he]
    · rw [Stream.chainHeldAt, if_neg (Nat.ne_of_gt hpos), he]
      rfl
  rw [hdirect]
  by_cases hends : L.stream.Ends env F.target
  · have hcommon : F.common = F.finalSeq := by
      refine Nat.le_antisymm F.common_le (Nat.le_of_not_lt fun hlt => ?_)
      obtain ⟨hle, hchain⟩ := hends
      obtain ⟨e, he⟩ := Option.isSome_iff_exists.1 (hbranch.held F.finalSeq
        (F.bottom_le.trans hlt) hle)
      have hpos : 0 < F.finalSeq := Nat.zero_lt_of_lt hlt
      rw [show F.target.finalSeq = F.finalSeq from rfl, hheld hpos he] at hchain
      exact hbranch.diverged _ e hlt (Nat.le_refl _) he
        ((Option.some.inj hchain).trans (F.final.trans (F.chain_of_pos hpos)))
    have heq : L.processRetired env F.directive now = _ := if_pos hends
    rw [heq]
    have hdoomed : F.doomed L.stream =
        (L.stream.range (F.finalSeq + 1) L.stream.head.contigSeq).map .entryQuarantined := by
      rw [doomed, hcommon]
    change F.Fed _ _ _ (seen ++ (L.anomalies ++ (L.stream.range (F.finalSeq + 1) _).map _))
    rw [← List.append_assoc, hseen, List.nil_append, ← hdoomed]
    refine .finished rfl rfl rfl F.final ⟨?_, ?_, ?_⟩
    · intro _ s h1 hs
      change s ≤ F.finalSeq at hs
      change (if F.finalSeq + 1 ≤ s then none else L.stream.rows s) = _
      rw [if_neg (by omega)]
      exact hbranch.row h1 (by omega)
    · intro s e h1 hr
      change (if F.finalSeq + 1 ≤ s then none else L.stream.rows s) = some e at hr
      change s ≤ F.finalSeq ∧ _
      split at hr
      · cases hr
      · rw [hbranch.row h1 (by omega)] at hr
        exact ⟨by omega, (Option.some.inj hr).symm⟩
    · intro s e hs hr
      refine ⟨now, ?_⟩
      have hm : s ≤ L.stream.head.contigSeq := by
        by_contra hlt
        rw [hbranch.bounded s (Nat.lt_of_not_le hlt)] at hr
        cases hr
      rw [hcommon] at hs
      exact L.stream.quarantine_quarantineFrom hr hs hm
  · have hcommon : F.common < F.finalSeq := by
      refine Nat.lt_of_le_of_ne F.common_le fun hcommon => hends ⟨?_, ?_⟩
      · have hle := hbranch.le
        rwa [hcommon] at hle
      · rcases Nat.eq_zero_or_pos F.finalSeq with hzero | hpos
        · have hfinal : F.target.finalChain = F.chain 0 := F.final.trans (congrArg F.chain hzero)
          rw [hfinal, show F.target.finalSeq = 0 from hzero]
          change (if _ then _ else some (seedOf env L.stream.head.topic L.stream.head.writer)) = _
          rw [if_neg fun h => h.1 rfl, show L.stream.head.topic = F.stream.1 from
            congrArg Prod.fst hid, show L.stream.head.writer = F.stream.2 from
            congrArg Prod.snd hid]
          rfl
        · rw [show F.target.finalSeq = F.finalSeq from rfl,
            hheld hpos (hbranch.row (F.bottom_le_final hcommon hpos) hcommon.ge)]
          exact congrArg some ((F.final.trans (F.chain_of_pos hpos)).symm)
    have hanomalies : (L.processRetired env F.directive now).anomalies = L.anomalies := by
      have heq : L.processRetired env F.directive now = _ := if_neg hends
      rw [heq]
      change (if _ then L.map Stream.fork else L).anomalies = _
      split <;> rfl
    rw [hanomalies, hseen, Local.processRetired_diverges hends]
    refine .walking hcommon F.start_le ?_ rfl ?_ ?_ ?_ ?_
    · change (if _ then L.stream.fork else L.stream).head.sealReason ≠ none
      split
      · exact Option.some_ne_none _
      · next hseal => exact hseal
    all_goals
      unfold Stream.setRecovery
      dsimp only
      split <;> rfl

/-- The recovery in a view, after the anomalies of earlier flushes. -/
structure Recovering (F : Adjudication env) (S₀ : Stream) (seen : List Anomaly)
    (stage : Option Nat) (v : View) : Prop where
  fed : F.Fed S₀ stage (v.streams F.stream) (seen ++ v.anomalies)
  started : ∀ next, stage = some next → F.start ≤ next ∧ next ≤ F.finalSeq + 1
  stored : stage = none → ∀ s, v.directives F.directive.id = some s → s = F.directive.stringify
  gate : stage = none → S₀.head.rgen < F.directive.rgen ∨ S₀.head.sealReason = some .fork

theorem Feed.append_inv (h : F.Feed stage (items ++ items') stage') :
    ∃ mid, F.Feed stage items mid ∧ F.Feed mid items' stage' := by
  induction items generalizing stage with
  | nil => exact ⟨stage, .done stage, h⟩
  | cons item items ih =>
    cases h with
    | directive h =>
      obtain ⟨mid, h, h'⟩ := ih h
      exact ⟨mid, .directive h, h'⟩
    | next he hn h =>
      obtain ⟨mid, h, h'⟩ := ih h
      exact ⟨mid, .next he hn h, h'⟩
    | again he hs hlt hkept h =>
      obtain ⟨mid, h, h'⟩ := ih h
      exact ⟨mid, .again he hs hlt hkept h, h'⟩

/-- No entry beyond the declared end is held while a recovery goes on. -/
theorem Fed.bounded (hbranch : F.Branch S₀) (h : F.Fed S₀ stage S seen) : S.Bounded := by
  have hcleared : F.common ≤ S.head.contigSeq → F.Cleared S₀ S → S.Bounded := by
    intro hle hcleared s hs
    cases hrow : S.rows s with
    | none => rfl
    | some e =>
      have := (hcleared.only s e (F.bottom_le.trans (by omega)) hrow).1
      omega
  cases h with
  | before => exact hbranch.bounded
  | walking hcommon hnext hseal hrecovery hseq hchain hrows hquarantine =>
    intro s hs
    rw [hrows]
    exact hbranch.bounded s (hseq ▸ hs)
  | extending hnext hn hseal hrecovery hseq hchain h => exact hcleared (by omega) h
  | finished hseal hrecovery hseq hchain h => exact hcleared (hseq ▸ F.common_le) h

/-- A batch of the feed commits, and brings the recovery on. -/
theorem Recovering.batch {batch : List (Queued env)} {t : Txn} (hbranch : F.Branch S₀)
    (ht : Ready env t) (h : F.Recovering S₀ seen stage (t.view env))
    (hfeed : F.Feed stage (batch.map Prod.snd) stage') :
    Returns (fun _ => False) (forM batch (processQueued env)) t fun _ t' =>
      Ready env t' ∧ F.Recovering S₀ seen stage' (t'.view env) := by
  induction batch generalizing t stage with
  | nil =>
    cases hfeed
    exact .pure ⟨ht, h⟩
  | cons q rest ih =>
    obtain ⟨ambient, item⟩ := q
    rw [List.forM_cons]
    have ht₀ : Ready env { t with ambient := ambient } := ⟨ht.coherent⟩
    refine .bind (.bind (.modify rfl ?_))
    have hid : (View.localAt (Txn.view env { t with ambient := ambient }) F.stream).stream.head.stream =
      F.stream := t.core.head_stream env F.stream
    cases hfeed with
    | directive hrest =>
      refine processDirective_spec (ht₀.at _) fun t' h' => ih h'.ready ?_ hrest
      rw [h'.view_eq]
      refine ⟨?_, ?_, nofun, nofun⟩
      · rw [show (F.directive.topic, F.directive.writer) = F.stream from rfl,
          View.withLocal_streams_self]
        exact fed_directive (L := View.localAt _ F.stream) hbranch hid h.fed (h.stored rfl)
          (h.gate rfl)
      · rintro _ ⟨⟩
        exact ⟨Nat.le_refl _, F.start_le.trans (Nat.succ_le_succ F.common_le)⟩
    | next he hn hrest =>
      rename_i next item
      obtain ⟨hstart, -⟩ := h.started next rfl
      have hstream : item.entry.stream = F.stream := by
        rw [he]
        exact F.stream_canonical (F.one_le.trans hstart) hn
      refine processExternal_spec item (ht₀.at _) (fun _ => ?_) fun t' h' => ih h'.ready ?_ hrest
      · rw [hstream]
        exact h.fed.bounded hbranch
      · rw [h'.view_eq]
        refine ⟨?_, ?_, nofun, nofun⟩
        · rw [hstream, View.withLocal_streams_self, he]
          exact fed_next (L := View.localAt _ F.stream) hbranch hid h.fed hstart hn
        · rintro _ ⟨⟩
          exact ⟨by omega, by omega⟩
    | again he hs hlt hkept hrest =>
      rename_i s next item
      obtain ⟨hstart, hend⟩ := h.started next rfl
      have hn : s ≤ F.finalSeq := by omega
      have hstream : item.entry.stream = F.stream := by
        rw [he]
        exact F.stream_canonical (F.bottom_pos.trans hs) hn
      refine processExternal_spec item (ht₀.at _) (fun _ => ?_) fun t' h' => ih h'.ready ?_ hrest
      · rw [hstream]
        exact h.fed.bounded hbranch
      · rw [h'.view_eq]
        refine ⟨?_, h.started, nofun, nofun⟩
        rw [hstream, View.withLocal_streams_self, he]
        exact fed_again (L := View.localAt _ F.stream) hbranch h.fed hs hlt hn hkept

/-- Flushes of the feed bring the recovery on. -/
theorem Recovering.run {flushes : List (List (Queued env))} (hbranch : F.Branch S₀)
    (hcoh : core.Coherent env) (h : F.Recovering S₀ seen stage (core.view env))
    (hfeed : F.Feed stage (flushes.flatten.map Prod.snd) stage') :
    F.Recovering S₀ (seen ++ (Seqscribe.run env core
        (flushes.map fun batch => .flush batch none)).flatMap Outcome.anomalies) stage'
      ((runCore env core (flushes.map fun batch => .flush batch none)).view env) := by
  induction flushes generalizing core seen stage with
  | nil =>
    cases hfeed
    rw [List.map_nil, show Seqscribe.run env core [] = [] from rfl, List.flatMap_nil, List.append_nil]
    exact h
  | cons batch rest ih =>
    rw [List.flatten_cons, List.map_append] at hfeed
    obtain ⟨mid, hfirst, hrest⟩ := hfeed.append_inv
    have hbatch := flushBody_ends (R := F.Recovering S₀ seen mid)
      (Recovering.batch hbranch (t := Txn.start core none) ⟨hcoh⟩ h hfirst)
    have hstep : (step env core (.flush batch none)).core.Coherent env ∧
        F.Recovering S₀ (seen ++ (step env core (.flush batch none)).anomalies) mid
          ((step env core (.flush batch none)).core.view env) := by
      change (flush env batch none core).core.Coherent env ∧ F.Recovering S₀
        (seen ++ (flush env batch none core).anomalies) mid
        ((flush env batch none core).core.view env)
      unfold flush
      split
      · next hempty =>
        obtain rfl := List.isEmpty_iff.1 hempty
        cases hfirst
        exact ⟨hcoh, by simpa using h⟩
      · unfold transaction
        cases hrun : flushBody env batch (Txn.start core none) with
        | ok u t =>
          obtain ⟨ht, hrec⟩ := hbatch.of_ok hrun
          refine ⟨ht.coherent, ?_, hrec.started, hrec.stored, hrec.gate⟩
          change F.Fed S₀ mid _ (seen ++ t.anomalies ++ [])
          rw [List.append_nil]
          exact hrec.fed
        | error e t => exact ((hbatch.of_error hrun).elim (fun h => by cases h.1) False.elim)
    have hend := ih hstep.1 hstep.2 hrest
    rwa [List.append_assoc] at hend

/-- A recovered stream: retired at the canonical end, from `start` on with canonical rows only, and
every divergent row in quarantine. -/
structure Recovered (F : Adjudication env) (S₀ S : Stream) : Prop where
  sealReason : S.head.sealReason = some .retired
  contigSeq : S.head.contigSeq = F.finalSeq
  contigChain : S.head.contigChain = F.target.finalChain
  rows : env.isFull F.stream.1 → ∀ s, F.start ≤ s → s ≤ F.finalSeq →
    S.rows s = some (F.canonical s)
  canonical : ∀ s e, F.start ≤ s → S.rows s = some e → s ≤ F.finalSeq ∧ e = F.canonical s
  quarantined : ∀ s e, F.common < s → S₀.rows s = some e →
    ∃ now, S.quarantine s = some ⟨e, .canonicalized, now⟩

/-- The stream is under the directive: the directive comes first and passes the gate, or a recovery
towards its end is under way. -/
def Under (F : Adjudication env) (core : Core) : Option Nat → Prop
  | none => (∀ s, core.db.sqDirectives.get F.directive.id = some s → s = F.directive.stringify) ∧
      ((core.head env F.stream).rgen < F.directive.rgen ∨
        (core.head env F.stream).sealReason = some .fork)
  | some next => next = F.start ∧ F.common < F.finalSeq ∧
      (core.head env F.stream).sealReason ≠ none ∧ core.recoveries F.stream = some F.target

end Adjudication

/-- A canonical branch of three entries that shares the first one with `twoEntries`. -/
def canonicalThree : Adjudication (hostEnv "b") where
  directive := hostDirective .retired 1 (some 3)
    (some "f920a8b9e7a42f0e6208e7f97481a630563bac961de06497d6f2b732619f25f2")
  canonical := fun s =>
    if s = 1 then
      hostEntry "w" 1 1 "k" "2b9b9a7838c39f166c0015237d70501dc4ea31d32bf5c34ee8c0d5d8bdf67e27"
    else if s = 2 then
      hostEntry "w" 2 2 "j" "811cf080d292756e040183a73dfd30155496edd0322df9ac14d0fac53a354745"
    else hostEntry "w" 3 3 "j" "f920a8b9e7a42f0e6208e7f97481a630563bac961de06497d6f2b732619f25f2"
  common := 1
  start := 1
  retires := rfl
  id := by
    intro s h1 hs
    change s ≤ 3 at hs
    interval_cases s <;> rfl
  linked := by
    intro s hs
    change s < 3 at hs
    interval_cases s <;> decide +kernel
  final := rfl
  common_le := by decide
  one_le := by decide
  start_le := by decide

/-- The directive with the first canonical entry, then the second one twice, then the third. -/
def canonicalFeed : List (List (Queued (hostEnv "b"))) :=
  let first := hostExternal "b" "w" 1 1 "k"
    "2b9b9a7838c39f166c0015237d70501dc4ea31d32bf5c34ee8c0d5d8bdf67e27" valid_first
  let second := hostExternal "b" "w" 2 2 "j"
    "811cf080d292756e040183a73dfd30155496edd0322df9ac14d0fac53a354745" valid_otherSecond
  let third := hostExternal "b" "w" 3 3 "j"
    "f920a8b9e7a42f0e6208e7f97481a630563bac961de06497d6f2b732619f25f2" valid_otherThird
  [[({ now := 7 }, .directive canonicalThree.directive), ({ now := 7 }, first)],
    [({ now := 8 }, second), ({ now := 8 }, second)], [({ now := 9 }, third)]]

/-- A node that keeps no log of its topic, only the newest ten entries. -/
def ringEnv : Env :=
  let policy : TopicPolicy :=
    { fullPolicy with
      retention := .ring 10, replication := .subscribeOnly, finalityAuthority := none }
  { hostEnv "b" with topics := fun T => if T = "t" then some policy else none }

end Seqscribe
