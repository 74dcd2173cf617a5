import Seqscribe.Moves

namespace Seqscribe
set_option autoImplicit true

variable {env : Env} {k : StreamId} {n : Nat} {A : Nat → LogEntry} {S S' : Stream} {L : Local}

/-- The chain of an author's entry at a position; the seed at 0. -/
def chainAt (env : Env) (k : StreamId) (A : Nat → LogEntry) (s : Nat) : Chain :=
  if s = 0 then seedOf env k.1 k.2 else (A s).chain

/-- `A 1` to `A n` are a stream as one author writes it: numbered, hash-chained from the seed, with
clocks that never decrease. -/
structure AuthorChain (env : Env) (k : StreamId) (n : Nat) (A : Nat → LogEntry) : Prop where
  id : ∀ s, 1 ≤ s → s ≤ n → (A s).id = (k.1, k.2, s)
  linked : ∀ s < n, chainOf env (chainAt env k A s) (A (s + 1)) = (A (s + 1)).chain
  clocks : ∀ s, 1 ≤ s → s < n → hlcCompare (A s).hlc (A (s + 1)).hlc ≤ 0

namespace AuthorChain

theorem stream (hA : AuthorChain env k n A) (h1 : 1 ≤ s) (hn : s ≤ n) : (A s).stream = k :=
  congrArg (fun id : EntryId => (id.1, id.2.1)) (hA.id s h1 hn)

theorem seq (hA : AuthorChain env k n A) (h1 : 1 ≤ s) (hn : s ≤ n) : (A s).seq = s :=
  congrArg (fun id : EntryId => id.2.2) (hA.id s h1 hn)

theorem topic (hA : AuthorChain env k n A) (h1 : 1 ≤ s) (hn : s ≤ n) : (A s).topic = k.1 :=
  congrArg (fun id : EntryId => id.1) (hA.id s h1 hn)

end AuthorChain

/-- An open stream that has the author's chain up to its head, and holds nothing else. -/
structure Stream.Authored (env : Env) (k : StreamId) (n : Nat) (A : Nat → LogEntry) (S : Stream) :
    Prop where
  id : S.head.stream = k
  isOpen : S.head.sealReason = none
  le : S.head.contigSeq ≤ n
  chain : S.head.contigChain = chainAt env k A S.head.contigSeq
  rows : ∀ s e, S.rows s = some e → 1 ≤ s ∧ s ≤ S.head.contigSeq ∧ e = A s
  pending : ∀ e ∈ S.pending.rows, ∃ s, 1 ≤ s ∧ s ≤ n ∧ e = A s

namespace Stream.Authored

theorem topic (h : S.Authored env k n A) : S.head.topic = k.1 := congrArg Prod.fst h.id

theorem writer (h : S.Authored env k n A) : S.head.writer = k.2 := congrArg Prod.snd h.id

theorem prevChain (h : S.Authored env k n A) :
    S.head.prevChain env = chainAt env k A S.head.contigSeq := by
  rw [← h.chain]
  unfold WriterRow.prevChain
  split
  · next h0 => rw [h.chain, chainAt, if_pos h0, h.topic, h.writer]
  · rfl

/-- What is pending at a position is the author's entry. -/
theorem pendingAt (hA : AuthorChain env k n A) (h : S.Authored env k n A)
    (hget : S.pendingAt s = some e) : 1 ≤ s ∧ s ≤ n ∧ e = A s := by
  obtain ⟨hmem, hkey⟩ := Table.get_eq_some_iff.1 hget
  obtain ⟨s', h1, hn, rfl⟩ := h.pending e hmem
  have hs : (A s').seq = s := congrArg (fun id : EntryId => id.2.2) hkey
  rw [hA.seq h1 hn] at hs
  subst hs
  exact ⟨h1, hn, rfl⟩

/-- The author's next entry is accepted. -/
theorem accepts (hA : AuthorChain env k n A) (h : S.Authored env k n A)
    (hn : S.head.contigSeq + 1 ≤ n) : S.Accepts env (A (S.head.contigSeq + 1)) := by
  refine ⟨?_, fun hpos => ?_⟩
  · rw [h.prevChain]
    exact hA.linked _ hn
  · cases hrow : S.rows S.head.contigSeq with
    | none => rfl
    | some p =>
      obtain ⟨-, -, rfl⟩ := h.rows _ _ hrow
      exact decide_eq_true (hA.clocks _ hpos hn)

theorem advance (hA : AuthorChain env k n A) (h : S.Authored env k n A)
    (hn : S.head.contigSeq + 1 ≤ n) :
    (S.advance env (A (S.head.contigSeq + 1))).Authored env k n A := by
  have hseq := hA.seq (Nat.succ_pos _) hn
  refine ⟨h.id, h.isOpen, ?_, ?_, fun s e hrow => ?_, fun e he => ?_⟩
  · exact hseq.trans_le hn
  · change (A _).chain = chainAt env k A (A _).seq
    rw [hseq, chainAt, if_neg (Nat.succ_ne_zero _)]
  · change 1 ≤ s ∧ s ≤ (A _).seq ∧ e = A s
    have hrow : (S.put env (A (S.head.contigSeq + 1))).rows s = some e := hrow
    rw [Stream.rows_put, hseq] at hrow
    rw [hseq]
    split at hrow
    · next hs =>
      rw [hs.2]
      exact ⟨Nat.succ_pos _, Nat.le_refl _, (Option.some.inj hrow).symm⟩
    · obtain ⟨h1, hle, he⟩ := h.rows s e hrow
      exact ⟨h1, Nat.le_succ_of_le hle, he⟩
  · refine h.pending e ?_
    rw [← Stream.pending_put env S (A (S.head.contigSeq + 1))]
    exact he

theorem unpend (h : S.Authored env k n A) (q : Nat) : (S.unpend q).Authored env k n A :=
  ⟨h.id, h.isOpen, h.le, h.chain, h.rows, fun e he => h.pending e (List.mem_of_mem_filter he)⟩

theorem pend (h : S.Authored env k n A) (h1 : 1 ≤ s) (hn : s ≤ n) :
    (S.pend (A s)).Authored env k n A := by
  refine ⟨h.id, h.isOpen, h.le, h.chain, h.rows, fun e he => ?_⟩
  have hget : (S.pending.upsert (A s)).get e.id = some e := Table.get_of_mem he
  rw [Table.get_upsert] at hget
  split at hget
  · exact ⟨s, h1, hn, (Option.some.inj hget).symm⟩
  · exact h.pending e (Table.get_eq_some_iff.1 hget).1

end Stream.Authored

namespace Stream

/-- The stream has an entry of the author, in its prefix or waiting. -/
def Has (A : Nat → LogEntry) (s : Nat) (S : Stream) : Prop :=
  s ≤ S.head.contigSeq ∨ S.pendingAt s = some (A s)

/-- Every entry up to the head is held, and what waits is beyond it. -/
structure Complete (A : Nat → LogEntry) (S : Stream) : Prop where
  rows : ∀ s, 1 ≤ s → s ≤ S.head.contigSeq → S.rows s = some (A s)
  ahead : ∀ s e, S.pendingAt s = some e → S.head.contigSeq < s

/-- Nothing of the author gets lost from the first stream to the second. -/
structure Keeps (env : Env) (k : StreamId) (A : Nat → LogEntry) (S S' : Stream) : Prop where
  has : ∀ s, S.Has A s → S'.Has A s
  complete : env.isFull k.1 → S.Complete A → S'.Complete A

theorem Keeps.refl (S : Stream) : S.Keeps env k A S := ⟨fun _ h => h, fun _ h => h⟩

theorem Keeps.trans {S₁ S₂ S₃ : Stream} (h : S₁.Keeps env k A S₂) (h' : S₂.Keeps env k A S₃) :
    S₁.Keeps env k A S₃ :=
  ⟨fun s hs => h'.has s (h.has s hs), fun hfull hs => h'.complete hfull (h.complete hfull hs)⟩

/-- One step of the head, with the entry taken from what waits if it is there. -/
theorem Keeps.advance (hA : AuthorChain env k n A) (hn : S.head.contigSeq + 1 ≤ n)
    (hhead : S'.head.contigSeq = S.head.contigSeq + 1)
    (hrows : ∀ s, S'.rows s = (S.put env (A (S.head.contigSeq + 1))).rows s)
    (hpending : ∀ s, S'.pendingAt s = if s = S.head.contigSeq + 1 then none else S.pendingAt s) :
    S.Keeps env k A S' := by
  have hseq := hA.seq (Nat.succ_pos _) hn
  refine ⟨fun s hs => ?_, fun hfull hcomplete => ⟨fun s h1 hs => ?_, fun s e hget => ?_⟩⟩
  · by_cases heq : s = S.head.contigSeq + 1
    · exact .inl (heq.trans hhead.symm).le
    · rcases hs with hle | hwait
      · exact .inl (by omega)
      · exact .inr (by rw [hpending, if_neg heq, hwait])
  · rw [hrows, Stream.rows_put, hseq, hA.topic (Nat.succ_pos _) hn]
    split
    · next heq => rw [heq.2]
    · next hne =>
      refine hcomplete.rows s h1 ?_
      by_contra hlt
      exact hne ⟨hfull, by omega⟩
  · rw [hpending] at hget
    split at hget
    · cases hget
    · next hne =>
      have := hcomplete.ahead s e hget
      omega

end Stream

namespace Local

/-- The drain stays on the author's chain, and stops where nothing waits. -/
theorem drain_authored (hA : AuthorChain env k n A) (h : L.stream.Authored env k n A)
    (hfuel : L.stream.pending.rows.length < fuel) :
    (L.drain env via fuel).stream.Authored env k n A ∧
      L.stream.Keeps env k A (L.drain env via fuel).stream ∧
      (L.drain env via fuel).stream.pendingAt
        ((L.drain env via fuel).stream.head.contigSeq + 1) = none := by
  induction fuel generalizing L with
  | zero => cases hfuel
  | succ fuel ih =>
    unfold Local.drain
    cases hnext : L.stream.pendingAt (L.stream.head.contigSeq + 1) with
    | none => exact ⟨h, .refl _, hnext⟩
    | some next =>
      obtain ⟨-, hn, rfl⟩ := h.pendingAt hA hnext
      have hseq := hA.seq (Nat.succ_pos _) hn
      dsimp only
      rw [hseq]
      have hacc := (h.unpend (L.stream.head.contigSeq + 1)).accepts hA hn
      have hadv := (h.unpend (L.stream.head.contigSeq + 1)).advance hA hn
      rw [show (L.map (Stream.unpend (L.stream.head.contigSeq + 1))).verifyAndApply env
          (A (L.stream.head.contigSeq + 1)) via =
          ((L.map (Stream.unpend (L.stream.head.contigSeq + 1))).advance env
            (A (L.stream.head.contigSeq + 1)) via, .applied) from if_pos hacc]
      rw [if_neg (by simp)]
      have hkeeps : L.stream.Keeps env k A
          ((L.map (Stream.unpend (L.stream.head.contigSeq + 1))).advance env
            (A (L.stream.head.contigSeq + 1)) via).stream := by
        refine .advance hA hn hseq (fun s => ?_) fun s => ?_
        · exact (Stream.rows_put env (L.stream.unpend _) _ s).trans
            (Stream.rows_put env L.stream _ s).symm
        · refine (Stream.pendingAt_advance env (L.stream.unpend _) _ s).trans ?_
          rw [Stream.pendingAt_unpend]
          simp only [eq_comm]
      refine (ih hadv ?_).imp_right (And.imp_left hkeeps.trans)
      have hlt : (L.stream.unpend (L.stream.head.contigSeq + 1)).pending.rows.length <
          L.stream.pending.rows.length := Table.length_delete_lt hnext
      change (Stream.put env _ _).pending.rows.length < fuel
      rw [Stream.pending_put]
      exact Nat.lt_of_lt_of_le hlt (Nat.le_of_lt_succ hfuel)

theorem drainAll_authored (hA : AuthorChain env k n A) (h : L.stream.Authored env k n A) :
    (L.drainAll env via).stream.Authored env k n A ∧
      L.stream.Keeps env k A (L.drainAll env via).stream ∧
      (L.drainAll env via).stream.pendingAt
        ((L.drainAll env via).stream.head.contigSeq + 1) = none :=
  drain_authored hA h (Nat.lt_succ_self _)

/-- What an entry of the author does to the stream: nothing when it is known or must be dropped. -/
theorem stream_ingest (hA : AuthorChain env k n A) (h : L.stream.Authored env k n A)
    (h1 : 1 ≤ s) (hn : s ≤ n) : (L.ingest env none (A s) via now).stream =
      if s ≤ L.stream.head.contigSeq then L.stream
      else if s = L.stream.head.contigSeq + 1 then
        (((L.advance env (A s) via).mergeClock env (A s) now).drainAll env via).stream
      else if (L.stream.pendingAt s).isSome ∨
          L.stream.pending.rows.length ≥ env.constants.PENDING_CAP then L.stream
      else L.stream.pend (A s) := by
  have hseq := hA.seq h1 hn
  unfold Local.ingest
  rw [if_neg (not_not.2 h.isOpen), if_neg (by simp), hseq]
  split
  · unfold Local.recheck
    rw [hseq]
    cases hrow : L.stream.rows s with
    | none => rfl
    | some stored =>
      obtain ⟨-, -, rfl⟩ := h.rows _ _ hrow
      dsimp only
      rw [if_pos rfl]
      rfl
  split
  · next heq =>
    subst heq
    unfold Local.extend Local.verifyAndApply
    dsimp only
    rw [if_pos (h.accepts hA hn), if_pos rfl]
    rfl
  · unfold Local.postpone
    rw [hseq]
    cases hget : L.stream.pendingAt s with
    | some existing =>
      obtain ⟨-, -, rfl⟩ := h.pendingAt hA hget
      dsimp only
      rw [if_pos rfl, if_pos (.inl rfl)]
      rfl
    | none =>
      dsimp only
      by_cases hcap : L.stream.pending.rows.length ≥ env.constants.PENDING_CAP
      · rw [if_pos hcap, if_pos (.inr hcap)]
        rfl
      · rw [if_neg hcap, if_neg (by simpa using hcap)]
        exact Local.stream_mergeClock _

/-- An entry of the author never forks the stream. -/
theorem ingest_authored (hA : AuthorChain env k n A) (h : L.stream.Authored env k n A)
    (h1 : 1 ≤ s) (hn : s ≤ n) : (L.ingest env none (A s) via now).stream.Authored env k n A := by
  rw [stream_ingest hA h h1 hn]
  split
  · exact h
  split
  · next heq =>
    subst heq
    refine (drainAll_authored hA ?_).1
    rw [Local.stream_mergeClock]
    exact h.advance hA hn
  split
  · exact h
  · exact h.pend h1 hn

/-- Below the cap an entry of the author is kept, and so is everything before it. -/
theorem ingest_keeps (hA : AuthorChain env k n A) (h : L.stream.Authored env k n A)
    (hnext : L.stream.pendingAt (L.stream.head.contigSeq + 1) = none) (h1 : 1 ≤ s) (hn : s ≤ n)
    (hcap : L.stream.pending.rows.length < env.constants.PENDING_CAP) {L' : Local}
    (hL' : L.ingest env none (A s) via now = L') :
    L.stream.Keeps env k A L'.stream ∧ L'.stream.Has A s ∧
      L'.stream.pendingAt (L'.stream.head.contigSeq + 1) = none := by
  rw [← hL', stream_ingest hA h h1 hn]
  split
  · next hle => exact ⟨.refl _, .inl hle, hnext⟩
  split
  · next heq =>
    subst heq
    have hadv := h.advance hA hn
    have hseq := hA.seq h1 hn
    generalize hM : (L.advance env (A (L.stream.head.contigSeq + 1)) via).mergeClock env
      (A (L.stream.head.contigSeq + 1)) now = M
    have hstream : M.stream = L.stream.advance env (A (L.stream.head.contigSeq + 1)) := by
      rw [← hM]
      exact Local.stream_mergeClock _
    obtain ⟨-, hdrain, hdone⟩ := drainAll_authored hA (hstream ▸ hadv)
    have hstep : L.stream.Keeps env k A M.stream := by
      rw [hstream]
      refine .advance hA hn hseq (fun s => rfl) fun s => ?_
      rw [Stream.pendingAt_advance]
      split
      · next hs => rw [hs, hnext]
      · rfl
    have hhas : M.stream.Has A (L.stream.head.contigSeq + 1) := by
      rw [hstream]
      exact .inl hseq.ge
    exact ⟨hstep.trans hdrain, hdrain.has _ hhas, hdone⟩
  next hle hne =>
  split
  · next hknown =>
    obtain ⟨e, he⟩ := Option.isSome_iff_exists.1 (hknown.resolve_right (Nat.not_le_of_lt hcap))
    obtain ⟨-, -, rfl⟩ := h.pendingAt hA he
    exact ⟨.refl _, .inr he, hnext⟩
  · have hget : ∀ s', (L.stream.pend (A s)).pendingAt s' =
        if s' = s then some (A s) else L.stream.pendingAt s' := by
      intro s'
      rw [Stream.pendingAt_pend, hA.id s h1 hn, h.topic, h.writer]
      simp only [Prod.mk.injEq, true_and, eq_comm]
    refine ⟨⟨fun s' hs' => ?_, fun _ hc => ⟨hc.rows, fun s' e he => ?_⟩⟩, ?_, ?_⟩
    · refine hs'.imp_right fun hwait => ?_
      rw [hget]
      split
      · next heq => rw [heq]
      · exact hwait
    · rw [hget] at he
      split at he
      · next heq =>
        change L.stream.head.contigSeq < s'
        omega
      · exact hc.ahead s' e he
    · exact .inr ((hget s).trans (if_pos rfl))
    · exact (hget _).trans ((if_neg (Ne.symm hne)).trans hnext)

end Local

end Seqscribe
