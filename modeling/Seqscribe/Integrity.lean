import Seqscribe.Host
import Seqscribe.Run

namespace Seqscribe
set_option autoImplicit true

variable {env : Env} {S S' : Stream}

/-- The held rows are linked, up to the head and down to the seed. -/
structure Stream.Intact (env : Env) (S : Stream) : Prop where
  linked : ∀ s e e', S.rows s = some e → S.rows (s + 1) = some e' → chainOf env e.chain e' = e'.chain
  top : ∀ e, S.rows S.head.contigSeq = some e → e.chain = S.head.contigChain
  first : ∀ e, S.rows 1 = some e → chainOf env (seedOf env S.head.topic S.head.writer) e = e.chain
  root : S.head.contigSeq = 0 → S.head.contigChain = seedOf env S.head.topic S.head.writer
  zero : S.rows 0 = none

namespace Stream.Intact

/-- The head of an intact stream hashes onto its own chain. -/
theorem prevChain (h : S.Intact env) : S.head.prevChain env = S.head.contigChain := by
  unfold WriterRow.prevChain
  split
  · next h0 => exact (h.root h0).symm
  · rfl

/-- Fewer rows under the same head are as intact. -/
theorem of_rows (h : S.Intact env) (hrows : ∀ s e, S'.rows s = some e → S.rows s = some e)
    (hseq : S'.head.contigSeq = S.head.contigSeq) (hchain : S'.head.contigChain = S.head.contigChain)
    (hid : S'.head.stream = S.head.stream) : S'.Intact env where
  linked s e e' he he' := h.linked s e e' (hrows _ _ he) (hrows _ _ he')
  top e he := by
    rw [hchain]
    exact h.top e (hrows _ _ (hseq ▸ he))
  first e he := by
    rw [show S'.head.topic = S.head.topic from congrArg Prod.fst hid,
      show S'.head.writer = S.head.writer from congrArg Prod.snd hid]
    exact h.first e (hrows _ _ he)
  root h0 := by
    rw [hchain, show S'.head.topic = S.head.topic from congrArg Prod.fst hid,
      show S'.head.writer = S.head.writer from congrArg Prod.snd hid]
    exact h.root (hseq ▸ h0)
  zero := by
    cases he : S'.rows 0 with
    | none => rfl
    | some e =>
      have := hrows 0 e he
      rw [h.zero] at this
      cases this

theorem advance (h : S.Intact env) (hB : S.Bounded) (hseq : e.seq = S.head.contigSeq + 1)
    (hchain : chainOf env (S.head.prevChain env) e = e.chain) : (S.advance env e).Intact env := by
  have hrows : ∀ s, (S.advance env e).rows s =
      if env.isFull e.topic ∧ s = e.seq then some e else S.rows s := S.rows_put env e
  refine ⟨?_, ?_, ?_, ?_, ?_⟩
  · intro s e₁ e₂ h₁ h₂
    rw [hrows] at h₁ h₂
    have hs : ¬ (env.isFull e.topic ∧ s = e.seq) := by
      rintro ⟨-, rfl⟩
      rw [if_neg (fun hc => by omega), hB _ (by omega)] at h₂
      cases h₂
    rw [if_neg hs] at h₁
    split at h₂
    · next hc =>
      obtain rfl := Option.some.inj h₂
      obtain rfl : s = S.head.contigSeq := by omega
      rw [h.top e₁ h₁, ← h.prevChain]
      exact hchain
    · exact h.linked s e₁ e₂ h₁ h₂
  · intro e₁ h₁
    have h₁ : (S.advance env e).rows e.seq = some e₁ := h₁
    rw [hrows] at h₁
    split at h₁
    · exact congrArg LogEntry.chain (Option.some.inj h₁).symm
    · rw [hB _ (show S.head.contigSeq < e.seq by omega)] at h₁
      cases h₁
  · intro e₁ h₁
    rw [hrows] at h₁
    split at h₁
    · next hc =>
      obtain rfl := Option.some.inj h₁
      have h0 : S.head.contigSeq = 0 := by omega
      rw [WriterRow.prevChain, if_pos h0] at hchain
      exact hchain
    · exact h.first e₁ h₁
  · intro h0
    have h0 : e.seq = 0 := h0
    omega
  · rw [hrows, if_neg (fun hc => by omega)]
    exact h.zero

theorem rewind (h : S.Intact env)
    (hchain : (s = S.head.contigSeq ∧ chain = S.head.contigChain) ∨
      ∀ held, S.chainHeldAt env s = some held → chain = held) :
    ((S.quarantineFrom (s + 1) hi reason now).saveHead
      { S.head with contigSeq := s, contigChain := chain }).Intact env := by
  have hrows : ∀ s' e, (if s + 1 ≤ s' then none else S.rows s') = some e →
      s' ≤ s ∧ S.rows s' = some e := by
    intro s' e he
    split at he
    · cases he
    · exact ⟨by omega, he⟩
  refine ⟨?_, ?_, ?_, ?_, ?_⟩
  · intro s' e e' he he'
    exact h.linked s' e e' (hrows _ _ he).2 (hrows _ _ he').2
  · intro e he
    have hrow : S.rows s = some e := (hrows _ _ he).2
    rcases hchain with ⟨rfl, rfl⟩ | hheld
    · exact h.top e hrow
    · have hs : s ≠ 0 := by
        rintro rfl
        rw [h.zero] at hrow
        cases hrow
      refine (hheld e.chain ?_).symm
      rw [Stream.chainHeldAt, if_neg hs, hrow]
      rfl
  · intro e he
    exact h.first e (hrows _ _ he).2
  · intro h0
    obtain rfl : s = 0 := h0
    rcases hchain with ⟨h0, rfl⟩ | hheld
    · exact h.root h0.symm
    · exact hheld _ rfl
  · cases he : (if s + 1 ≤ 0 then none else S.rows 0) with
    | none => exact he
    | some e =>
      have := (hrows _ _ he).2
      rw [h.zero] at this
      cases this

/-- Every move keeps a stream intact. -/
theorem move (hS : S.Sound k) (h : S.Intact env) (hmove : S.Move env a S') : S'.Intact env := by
  cases hmove with
  | advance _ e hid hseq hchain => exact h.advance hS.bounded hseq hchain
  | rewind _ s hi chain why reason now hs hchain =>
    exact (h.rewind hchain).of_rows (fun _ _ he => he) rfl rfl rfl
  | jump _ s chain hs =>
    have hnone : S.rows s = none := hS.bounded s hs
    refine ⟨h.linked, ?_, h.first, ?_, h.zero⟩
    · intro e he
      have he : S.rows s = some e := he
      rw [hnone] at he
      cases he
    · intro h0
      have h0 : s = 0 := h0
      omega
  | fork => exact h.of_rows (fun _ _ he => he) rfl rfl rfl
  | retire => exact h.of_rows (fun _ _ he => he) rfl rfl rfl
  | revive => exact h.of_rows (fun _ _ he => he) rfl rfl rfl
  | seek => exact h.of_rows (fun _ _ he => he) rfl rfl rfl
  | shelve => exact h.of_rows (fun _ _ he => he) rfl rfl rfl
  | thin _ S' hthin =>
    exact h.of_rows (fun s e he => hthin.row he) (by rw [hthin.head]) (by rw [hthin.head])
      (by rw [hthin.head])
  | vacate _ hnone =>
    refine ⟨?_, ?_, ?_, fun _ => rfl, h.zero⟩
    · intro s e e' he
      have he : S.rows s = some e := he
      rw [hnone s] at he
      cases he
    · intro e he
      have he : S.rows 0 = some e := he
      rw [h.zero] at he
      cases he
    · intro e he
      have he : S.rows 1 = some e := he
      rw [hnone 1] at he
      cases he

end Stream.Intact

theorem intact_of_run {is : List (Input env)} (hexact : RunExact env Core.init is)
    (k : StreamId) : ((runCore env Core.init is).stream env k).Intact env := by
  refine runCore_moves (I := fun _ S => S.Intact env) hexact (fun k => ?_)
    (fun k a S S' hS h hmove => h.move hS hmove) k
  refine ⟨?_, ?_, ?_, fun _ => rfl, rfl⟩
  · rintro s e e' ⟨⟩
  · rintro e ⟨⟩
  · rintro e ⟨⟩

/-- The rows of a core are hash chains that end in its heads, and no flush from here hits the
uniqueness of log ids. -/
structure Core.ChainIntact (env : Env) (core : Core) : Prop where
  bounded : ∀ r ∈ core.db.sqLog.rows, r.entry.seq ≤ (core.head env r.entry.stream).contigSeq
  linked : ∀ r ∈ core.db.sqLog.rows, ∀ r' ∈ core.db.sqLog.rows,
    r'.entry.stream = r.entry.stream → r'.entry.seq = r.entry.seq + 1 →
      r'.entry.chain = chainOf env r.entry.chain r'.entry
  first : ∀ r ∈ core.db.sqLog.rows, r.entry.seq = 1 →
    r.entry.chain = chainOf env (seedOf env r.entry.topic r.entry.writer) r.entry
  top : ∀ r ∈ core.db.sqLog.rows, r.entry.seq = (core.head env r.entry.stream).contigSeq →
    r.entry.chain = (core.head env r.entry.stream).contigChain
  /-- At 0 the next entry is verified against the seed. -/
  root : ∀ k, (core.head env k).contigSeq = 0 →
    (core.head env k).prevChain env = seedOf env k.1 k.2 ∧
      (core.head env k).contigChain = seedOf env k.1 k.2
  /-- The heads in memory are the stored ones. -/
  cached : ∀ k head, core.heads k = some head → head = core.head env k
  unique : ∀ batch fault, CountsExact env batch (Txn.start core fault) → ∀ t,
    flushBody env batch (Txn.start core fault) ≠ .error Store.uniqueViolation t

/-- Chain integrity of the log, at the end of every run that retires no topic on a stale count. -/
theorem chain_integrity (is : List (Input env)) (hexact : RunExact env Core.init is) :
    (runCore env Core.init is).ChainIntact env := by
  have hcoh := runCore_coherent is
  have hsound := runCore_sound hexact
  have hintact := intact_of_run hexact
  generalize runCore env Core.init is = core at hcoh hsound hintact
  have hk : ∀ k, (core.stream env k).Sound k := hsound
  constructor
  · intro r hr
    exact (hk r.entry.stream).row_le (core.row_of_mem env hr)
  · intro r hr r' hr' hstream hseq
    have hrow' := core.row_of_mem env hr'
    rw [hstream, hseq] at hrow'
    exact ((hintact r.entry.stream).linked _ _ _ (core.row_of_mem env hr) hrow').symm
  · intro r hr hseq
    have hrow := core.row_of_mem env hr
    rw [hseq] at hrow
    have hfirst := (hintact r.entry.stream).first _ hrow
    rw [(hk r.entry.stream).topic, (hk r.entry.stream).writer] at hfirst
    exact hfirst.symm
  · intro r hr hseq
    have hrow := core.row_of_mem env hr
    rw [hseq] at hrow
    exact (hintact r.entry.stream).top _ hrow
  · intro k h0
    have hroot := (hintact k).root h0
    rw [(hk k).topic, (hk k).writer] at hroot
    exact ⟨((hintact k).prevChain).trans hroot, hroot⟩
  · exact hcoh.heads
  · intro batch fault hcounts t herr
    have hbody := (flushBody_runs True (fun _ _ => True) (t := Txn.start core fault) batch ⟨hcoh⟩
      (fun _ => ⟨hsound, hcounts⟩) (.of_forall fun _ _ _ => trivial)).of_error herr
    rcases hbody with ⟨-, h | h⟩ | ⟨-, h⟩ | ⟨h, -⟩
    · exact absurd h (by decide)
    · exact absurd h (by decide)
    · cases h
    · exact h trivial

theorem chain_integrity_of_appends :
    let is : List (Input (hostEnv "a")) :=
      [hostFlush "a" 5 [hostAppend "a", hostAppend "a"], hostFlush "a" 7 [.retireTopic "t" rfl]]
    RunExact (hostEnv "a") Core.init is ∧
      (runCore (hostEnv "a") Core.init is).ChainIntact (hostEnv "a") := by
  intro is
  have hexact : RunExact (hostEnv "a") Core.init is := by decide +kernel
  exact ⟨hexact, chain_integrity is hexact⟩

end Seqscribe
