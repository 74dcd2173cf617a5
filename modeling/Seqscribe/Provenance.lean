import Seqscribe.FinalityGate

namespace Seqscribe
set_option autoImplicit true

variable {env : Env} {S S' : Stream} {L : Local} {v v' : View} {core : Core} {P : Act → Prop}

/-- What a stream keeps vouches for a chain at a position: the seed at 0, a held row, an archived
row, or the floor. -/
def Stream.Backs (env : Env) (S : Stream) (s : Nat) (chain : Chain) : Prop :=
  s = 0 ∧ chain = seedOf env S.head.topic S.head.writer ∨
    (S.rows s).any (fun e => decide (e.chain = chain)) = true ∨
    (S.archive s).any (fun e => decide (e.chain = chain)) = true ∨
    S.floor.any (fun f => decide (f.seq = s ∧ f.chain = chain)) = true

instance (S : Stream) : Decidable (S.Backs env s chain) :=
  inferInstanceAs (Decidable (_ ∨ _ ∨ _ ∨ _))

/-- The head of a stream is the chain of an entry at its position: one the stream vouches for, or
the one just applied. -/
def View.Genuine (env : Env) (v v' : View) (k : StreamId) : Prop :=
  let head := (v'.streams k).head
  (v'.streams k).Backs env head.contigSeq head.contigChain ∨
    ∃ e via, v'.applied = v.applied ++ [(e, via)] ∧ e.stream = k ∧ e.seq = head.contigSeq ∧
      e.chain = head.contigChain

/-- The position that a certificate or a divergent canonical entry rewinds to has its row held, or
what takes the place of the row's chain is right. -/
def QueueItem.Anchored (env : Env) (item : QueueItem env) (v : View) (k : StreamId) : Prop :=
  let S := v.streams k
  match item with
  | .external item =>
    let e := item.entry
    e.seq = 1 ∨ (S.rows (e.seq - 1)).isSome ∨ chainOf env S.head.contigChain e = e.chain ∨
      S.Backs env (e.seq - 1) S.head.contigChain
  | .cert c =>
    c.cutSeq k.2 = 0 ∨ (S.rows (c.cutSeq k.2)).isSome ∨
      S.Backs env (c.cutSeq k.2) (((c.cut.get k.2).map CutEntry.chain).getD "")
  | _ => True

theorem Stream.Backs.of_held (h : S.chainHeldAt env s = some chain) : S.Backs env s chain := by
  unfold chainHeldAt at h
  split at h
  · next hs => exact .inl ⟨hs, (Option.some.inj h).symm⟩
  · obtain ⟨e, he, rfl⟩ := Option.map_eq_some_iff.1 h
    exact .inr (.inl (by rw [he]; exact decide_eq_true rfl))

/-- Only rewinds and the retirement of a topic move a head back. -/
theorem Stream.Moves.contigSeq_le (h : S.Moves env P S') (hrewind : ∀ s, ¬ P (.rewind s))
    (hvacate : ¬ P .vacate) : S.head.contigSeq ≤ S'.head.contigSeq := by
  refine h.preserves (I := fun S' => S.head.contigSeq ≤ S'.head.contigSeq) ?_ (Nat.le_refl _)
  intro a S₁ S₂ ha hle hmove
  cases hmove with
  | advance _ e hid hseq hchain => exact hle.trans ((Nat.le_succ _).trans hseq.ge)
  | rewind => exact absurd ha (hrewind _)
  | jump _ s chain hs => exact hle.trans (Nat.le_of_lt hs)
  | thin _ S' hthin => rwa [hthin.head]
  | vacate => exact absurd ha hvacate
  | fork => exact hle
  | retire => exact hle
  | revive => exact hle
  | seek => exact hle
  | shelve => exact hle

namespace Local

/-- A directive that truncates a stream leaves a head at a row it holds, or at the seed. -/
theorem direct_backs
    (hback : (L.direct env stored d now).stream.head.contigSeq < L.stream.head.contigSeq) :
    (L.direct env stored d now).stream.Backs env
      (L.direct env stored d now).stream.head.contigSeq
      (L.direct env stored d now).stream.head.contigChain := by
  unfold direct at hback ⊢
  split at hback
  · exact absurd hback (Nat.lt_irrefl _)
  next hconflict =>
  rw [if_neg hconflict]
  split at hback
  · exact absurd hback (Nat.lt_irrefl _)
  next hgate =>
  rw [if_neg hgate]
  cases hstate : d.state with
  | live =>
    rw [hstate] at hback
    dsimp only at hback
    split at hback <;> exact absurd hback (Nat.lt_irrefl _)
  | retired =>
    rw [hstate] at hback
    dsimp only at hback ⊢
    unfold processRetired at hback ⊢
    dsimp only at hback ⊢
    split at hback
    · next hends =>
      rw [if_pos hends]
      obtain ⟨hle, hchain⟩ := hends
      have hback : (directiveTarget env d).finalSeq < L.stream.head.contigSeq := hback
      unfold Stream.chainAtEnd at hchain
      rw [if_neg fun h => absurd h.2 (Nat.ne_of_lt hback)] at hchain
      exact Stream.Backs.of_held
        ((Stream.chainHeldAt_quarantineFrom env L.stream (Nat.lt_succ_self _)).trans hchain)
    · split at hback <;> exact absurd hback (Nat.lt_irrefl _)

/-- A canonical entry that does not follow the head changes nothing; one that does is applied. -/
theorem recoveryExtend_cases (env : Env) (e : LogEntry) (target : RecoveryTarget)
    (via : Option String) (now : Nat) (L : Local) :
    let L' := L.recoveryExtend env e target via now
    (e.seq ≠ L.stream.head.contigSeq + 1 ∨ chainOf env (L.stream.head.prevChain env) e ≠ e.chain) ∧
        L'.stream = L.stream ∧ L'.applied = L.applied ∨
      (e.seq = L.stream.head.contigSeq + 1 ∧
        chainOf env (L.stream.head.prevChain env) e = e.chain) ∧
        L'.stream.head.contigSeq = e.seq ∧ L'.stream.head.contigChain = e.chain ∧
        L'.applied = L.applied ++ [(e, via)] := by
  intro L'
  have hL' : L.recoveryExtend env e target via now = L' := rfl
  unfold recoveryExtend at hL'
  split at hL'
  · next hseq =>
    rw [← hL']
    exact .inl ⟨.inl hseq, rfl, rfl⟩
  next hseq =>
  split at hL'
  · next hchain =>
    rw [← hL']
    exact .inl ⟨.inr hchain, rfl, rfl⟩
  next hchain =>
  refine .inr ⟨⟨not_not.1 hseq, not_not.1 hchain⟩, ?_⟩
  dsimp only at hL'
  split at hL' <;> rw [← hL'] <;> exact ⟨rfl, rfl, rfl⟩

/-- A divergent canonical entry rewinds its stream to a head that is genuine exactly when the row
before it is held, or the chain that the head had fits there. -/
theorem recoveryIngest_rewind (hid : e.stream = L.stream.head.stream) (hpos : 0 < e.seq)
    (hback : (L.recoveryIngest env e target via now).stream.head.contigSeq <
      L.stream.head.contigSeq) :
    ((L.recoveryIngest env e target via now).stream.Backs env
        (L.recoveryIngest env e target via now).stream.head.contigSeq
        (L.recoveryIngest env e target via now).stream.head.contigChain ∨
      ∃ e' via', (L.recoveryIngest env e target via now).applied = L.applied ++ [(e', via')] ∧
        e'.stream = L.stream.head.stream ∧
        e'.seq = (L.recoveryIngest env e target via now).stream.head.contigSeq ∧
        e'.chain = (L.recoveryIngest env e target via now).stream.head.contigChain) ↔
      e.seq = 1 ∨ (L.stream.rows (e.seq - 1)).isSome ∨
        chainOf env L.stream.head.contigChain e = e.chain ∨
        L.stream.Backs env (e.seq - 1) L.stream.head.contigChain := by
  unfold recoveryIngest at hback ⊢
  by_cases hle : e.seq ≤ L.stream.head.contigSeq
  swap
  · rw [if_neg hle] at hback
    rcases recoveryExtend_cases env e target via now L with ⟨-, hL, -⟩ | ⟨-, hseq, -⟩
    · rw [hL] at hback
      exact absurd hback (Nat.lt_irrefl _)
    · rw [hseq] at hback
      exact absurd (Nat.le_of_lt hback) hle
  rw [if_pos hle] at hback ⊢
  split at hback
  · exact absurd hback (Nat.lt_irrefl _)
  next hdiff =>
  rw [if_neg hdiff]
  have hkeeps : (L.recoveryRewind env e now).stream.rows (e.seq - 1) = L.stream.rows (e.seq - 1) :=
    if_neg (by omega)
  have hchain : (L.recoveryRewind env e now).stream.head.contigChain =
      L.stream.rewoundChain env (e.seq - 1) := by
    change Stream.rewoundChain env (L.stream.quarantineFrom e.seq _ _ _) (e.seq - 1) = _
    rw [Stream.rewoundChain, Stream.chainHeldAt_quarantineFrom _ _ (by omega)]
    rfl
  rcases recoveryExtend_cases env e target via now (L.recoveryRewind env e now) with
    ⟨hfails, hL, happlied⟩ | ⟨⟨-, hfits⟩, hseq, hchain', happlied⟩
  · have hfails := hfails.resolve_left fun h => h (Nat.succ_pred_eq_of_pos hpos).symm
    rw [Stream.Moves.prevChain_rewound hpos] at hfails
    rw [hL, happlied, hchain]
    have hnone : ¬ ∃ e' via', (L.recoveryRewind env e now).applied = L.applied ++ [(e', via')] ∧
        e'.stream = L.stream.head.stream ∧
        e'.seq = (L.recoveryRewind env e now).stream.head.contigSeq ∧
        e'.chain = L.stream.rewoundChain env (e.seq - 1) := by
      rintro ⟨e', via', happ, -⟩
      have hlen := congrArg List.length happ
      rw [List.length_append] at hlen
      change L.applied.length = _ at hlen
      simp at hlen
    rw [or_iff_left hnone]
    change Stream.Backs env (L.recoveryRewind env e now).stream (e.seq - 1) _ ↔ _
    by_cases hone : e.seq = 1
    · refine iff_of_true (.inl ⟨by omega, ?_⟩) (.inl hone)
      rw [hone]
      rfl
    by_cases hheld : (L.stream.rows (e.seq - 1)).isSome = true
    · refine iff_of_true (.of_held ?_) (.inr (.inl hheld))
      obtain ⟨p, hp⟩ := Option.isSome_iff_exists.1 hheld
      unfold Stream.rewoundChain Stream.chainHeldAt
      rw [if_neg (by omega), if_neg (by omega), hkeeps, hp]
      rfl
    · have hnot : L.stream.rows (e.seq - 1) = none := Option.not_isSome_iff_eq_none.1 hheld
      have hrewound : L.stream.rewoundChain env (e.seq - 1) = L.stream.head.contigChain := by
        unfold Stream.rewoundChain Stream.chainHeldAt
        rw [if_neg (by omega), hnot]
        rfl
      rw [if_neg (by omega), hrewound] at hfails
      rw [hrewound, or_iff_right hone, or_iff_right hheld, or_iff_right hfails]
      unfold Stream.Backs
      rw [hkeeps]
      rfl
  · refine iff_of_true (.inr ⟨e, via, happlied, hid, hseq.symm, hchain'.symm⟩) ?_
    rw [Stream.Moves.prevChain_rewound hpos] at hfits
    by_cases hone : e.seq = 1
    · exact .inl hone
    by_cases hheld : (L.stream.rows (e.seq - 1)).isSome = true
    · exact .inr (.inl hheld)
    have hnot : L.stream.rows (e.seq - 1) = none := Option.not_isSome_iff_eq_none.1 hheld
    unfold Stream.rewoundChain Stream.chainHeldAt at hfits
    rw [if_neg (by omega), if_neg (by omega), hnot] at hfits
    exact .inr (.inr (.inl hfits))

/-- An external entry that moves the head of a sealed stream back is a divergent canonical one. -/
theorem ingest_rewind
    (hseal : L.stream.head.sealReason ≠ none)
    (hback : (L.ingest env cert e via now).stream.head.contigSeq < L.stream.head.contigSeq) :
    ∃ target, L.ingest env cert e via now = L.recoveryIngest env e target via now := by
  unfold ingest at hback ⊢
  rw [if_pos hseal] at hback ⊢
  cases hrec : L.stream.recovery with
  | none =>
    rw [hrec] at hback
    exact absurd hback (Nat.lt_irrefl _)
  | some target =>
    rw [hrec] at hback
    dsimp only at hback ⊢
    split at hback
    · next hle => exact ⟨target, if_pos hle⟩
    · exact absurd hback (Nat.lt_irrefl _)

theorem applied_certStream : (L.certStream env cert now).applied = L.applied := by
  unfold certStream
  dsimp only
  split
  · unfold sealForked
    split <;> rfl
  · split
    · unfold sealForked
      split <;> rfl
    · rfl

end Local

/-- A certificate rewinds a stream to a head that is genuine exactly when the row at the cut is
held, or the certificate gives the chain that is known there. -/
theorem Stream.certified_backs
    (hback : (S.certified env cert now).head.contigSeq < S.head.contigSeq) :
    (S.certified env cert now).Backs env (S.certified env cert now).head.contigSeq
        (S.certified env cert now).head.contigChain ↔
      cert.cutSeq S.head.writer = 0 ∨ (S.rows (cert.cutSeq S.head.writer)).isSome ∨
        S.Backs env (cert.cutSeq S.head.writer)
          (((cert.cut.get S.head.writer).map CutEntry.chain).getD "") := by
  have hopen : ∀ S' : Stream, S'.forkOpen.head.contigSeq = S'.head.contigSeq ∧
      S'.forkOpen.head.contigChain = S'.head.contigChain ∧
      ∀ s chain, S'.forkOpen.Backs env s chain ↔ S'.Backs env s chain := by
    intro S'
    unfold forkOpen
    split <;> exact ⟨rfl, rfl, fun _ _ => .rfl⟩
  unfold certified at hback ⊢
  dsimp only at hback ⊢
  by_cases hlate : S.HoldsLate cert
  swap
  · rw [if_neg hlate] at hback
    split at hback
    · rw [(hopen S).1] at hback
      exact absurd hback (Nat.lt_irrefl _)
    · exact absurd hback (Nat.lt_irrefl _)
  rw [if_pos hlate, (hopen _).2.2, (hopen _).1, (hopen _).2.1]
  generalize hcut : cert.cutSeq S.head.writer = cut
  have hkeeps : (S.quarantineFrom (cut + 1) S.head.contigSeq .postCut now).rows cut = S.rows cut :=
    if_neg (Nat.not_succ_le_self cut)
  change Backs env (S.quarantineFrom (cut + 1) S.head.contigSeq .postCut now) cut
    (S.cutChain env cert) ↔ _
  unfold cutChain
  rw [hcut]
  cases hheld : S.chainHeldAt env cut with
  | some chain =>
    refine iff_of_true (.of_held ?_) ?_
    · rw [chainHeldAt_quarantineFrom _ _ (Nat.lt_succ_self cut), hheld]
      rfl
    · unfold chainHeldAt at hheld
      split at hheld
      · next hzero => exact .inl hzero
      · obtain ⟨e, he, -⟩ := Option.map_eq_some_iff.1 hheld
        exact .inr (.inl (by rw [he]; rfl))
  | none =>
    unfold chainHeldAt at hheld
    split at hheld
    · cases hheld
    next hzero =>
    have hnot : S.rows cut = none := Option.map_eq_none_iff.1 hheld
    rw [or_iff_right hzero, or_iff_right (by rw [hnot]; simp)]
    unfold Backs
    rw [hkeeps]
    rfl

/-- No item but an external entry of a sealed stream, a certificate, a directive or the retirement
of a topic moves a head back. -/
theorem ItemStep.contigSeq_le {item : QueueItem env} (h : ItemStep env exact item v v')
    (hv : ∀ k, (v.streams k).head.stream = k)
    (hitem : match item with
      | .external item => (v.streams item.entry.stream).head.sealReason = none
      | .cert _ | .directive _ | .retireTopic .. => False
      | _ => True) (k : StreamId) :
    (v.streams k).head.contigSeq ≤ (v'.streams k).head.contigSeq := by
  have hlocal : ∀ {k₀ : StreamId} {L : Local},
      (v.streams k₀).head.contigSeq ≤ L.stream.head.contigSeq →
      (v.streams k).head.contigSeq ≤ ((v.withLocal k₀ L).streams k).head.contigSeq := by
    intro k₀ L hle
    by_cases hk : k = k₀
    · subst hk
      rwa [View.withLocal_streams_self]
    · rw [View.withLocal_streams_of_ne _ hk]
  cases item with
  | append item =>
    obtain ⟨L, happ, rfl⟩ := h
    exact hlocal ((Stream.Moves.append (hv _) happ).contigSeq_le (fun _ h => h) fun h => h)
  | external item =>
    obtain rfl := h
    exact hlocal ((Stream.Moves.ingest (L := v.localAt item.entry.stream) (hv _).symm
      (one_le_seq_of_validateEntry item.valid)).contigSeq_le (fun _ h => h.1 hitem) fun h => h)
  | sealStream T w =>
    obtain rfl := h
    exact hlocal ((Stream.Moves.processSeal (L := v.localAt (T, w)) :
      Stream.Moves env _ _ _).contigSeq_le
      (fun _ h => by cases h) fun h => by cases h)
  | cert => exact hitem.elim
  | directive => exact hitem.elim
  | retireTopic => exact hitem.elim
  | adopt T cut =>
    obtain rfl := h
    have hmoves : v.Moves env (fun _ a => ∃ s, a = .jump s) (v.adopt T cut.rows) :=
      .adopt fun c _ => ⟨c.seq, rfl⟩
    refine (hmoves k).contigSeq_le ?_ ?_
    · rintro s ⟨_, ⟨⟩⟩
    · rintro ⟨_, ⟨⟩⟩
  | pruneTopic =>
    obtain ⟨v₁, r, hthin, -, rfl⟩ := h
    exact (congrArg WriterRow.contigSeq (hthin.streams k).head).ge
  | pruneSuperseded =>
    obtain ⟨v₁, r, hthin, -, rfl⟩ := h
    exact (congrArg WriterRow.contigSeq (hthin.streams k).head).ge
  | pruneAcked =>
    obtain ⟨v₁, r, hthin, -, rfl⟩ := h
    exact (congrArg WriterRow.contigSeq (hthin.streams k).head).ge
  | adoptFloor T w s chain known =>
    obtain rfl := h
    refine hlocal ?_
    by_cases helig : env.ackedRetention T = true
    · simp only [if_pos helig]
      exact (Stream.Moves.adoptFloor (L := v.localAt (T, w))).contigSeq_le (fun _ h => h) fun h => h
    · simp only [if_neg helig]
      exact Nat.le_refl _

/-- Where an item moves a head back, the new head is genuine exactly when the item is anchored. -/
theorem ItemStep.genuine {item : QueueItem env} (h : ItemStep env exact item v v')
    (hv : ∀ k, (v.streams k).head.stream = k)
    (hback : (v'.streams k).head.contigSeq < (v.streams k).head.contigSeq) :
    v.Genuine env v' k ↔ item.Anchored env v k := by
  have hlonger : ∀ e via, v'.applied = v.applied ++ [(e, via)] → v'.applied ≠ v.applied := by
    intro e via happ hsame
    have hlen := congrArg List.length (happ.symm.trans hsame)
    simp at hlen
  cases item with
  | external item =>
    by_cases hopen : (v.streams item.entry.stream).head.sealReason = none
    · exact absurd (h.contigSeq_le hv hopen k) (Nat.not_le_of_lt hback)
    obtain rfl := h
    by_cases hk : k = item.entry.stream
    swap
    · rw [View.onStream, View.withLocal_streams_of_ne _ hk] at hback
      exact absurd hback (Nat.lt_irrefl _)
    subst hk
    have hid := hv item.entry.stream
    have hpos := one_le_seq_of_validateEntry item.valid
    unfold View.Genuine View.onStream
    unfold View.onStream at hback
    dsimp only
    rw [View.withLocal_streams_self] at hback ⊢
    obtain ⟨target, hingest⟩ := Local.ingest_rewind (L := v.localAt item.entry.stream)
      hopen hback
    have hrewind := Local.recoveryIngest_rewind (L := v.localAt item.entry.stream) hid.symm hpos
      (hingest ▸ hback)
    rw [← hingest, show (v.localAt item.entry.stream).stream.head.stream = item.entry.stream
      from hid] at hrewind
    exact hrewind
  | cert c =>
    obtain ⟨writers, n, hlists, rfl⟩ := h
    change (View.streams (v.certify env c writers) k).head.contigSeq < _ at hback
    unfold View.Genuine QueueItem.Anchored
    change (Stream.Backs env (View.streams (v.certify env c writers) k)
      (View.streams (v.certify env c writers) k).head.contigSeq
      (View.streams (v.certify env c writers) k).head.contigChain ∨ _) ↔ _
    rw [View.certify_streams hlists.nodup] at hback ⊢
    split at hback
    · next hmem =>
      have happlied : View.applied (v.certify env c writers) = v.applied := by
        refine List.foldlRecOn writers _ (motive := fun v' : View => v'.applied = v.applied) rfl ?_
        intro v' hv' w _
        exact Local.applied_certStream.trans hv'
      rw [if_pos hmem, or_iff_left]
      swap
      · rintro ⟨e, via, happ, -⟩
        exact hlonger e via happ happlied
      have hcert := Stream.certified_backs hback
      rwa [show (v.streams k).head.writer = k.2 from congrArg Prod.snd (hv k)] at hcert
    · exact absurd hback (Nat.lt_irrefl _)
  | directive d =>
    obtain rfl := h
    refine iff_of_true (.inl ?_) trivial
    by_cases hk : k = (d.topic, d.writer)
    · subst hk
      rw [View.onStream, View.withLocal_streams_self, View.storeDirective_localAt] at hback ⊢
      exact Local.direct_backs hback
    · rw [View.onStream, View.withLocal_streams_of_ne _ hk, View.storeDirective_streams] at hback
      exact absurd hback (Nat.lt_irrefl _)
  | retireTopic T known =>
    refine iff_of_true (.inl ?_) trivial
    rcases h with ⟨e, rfl⟩ | ⟨-, n, rfl⟩
    · exact absurd hback (Nat.lt_irrefl _)
    · by_cases hT : k.1 = T
      · have hstream : ((v.retireTopic env T).done (.retired n)).streams k = _ := if_pos hT
        rw [hstream]
        exact .inl ⟨rfl, rfl⟩
      · have hstream : ((v.retireTopic env T).done (.retired n)).streams k = _ := if_neg hT
        rw [hstream] at hback
        exact absurd hback (Nat.lt_irrefl _)
  | append item => exact absurd (h.contigSeq_le hv trivial k) (Nat.not_le_of_lt hback)
  | sealStream T w => exact absurd (h.contigSeq_le hv trivial k) (Nat.not_le_of_lt hback)
  | adopt T cut => exact absurd (h.contigSeq_le hv trivial k) (Nat.not_le_of_lt hback)
  | pruneTopic => exact absurd (h.contigSeq_le hv trivial k) (Nat.not_le_of_lt hback)
  | pruneSuperseded => exact absurd (h.contigSeq_le hv trivial k) (Nat.not_le_of_lt hback)
  | pruneAcked => exact absurd (h.contigSeq_le hv trivial k) (Nat.not_le_of_lt hback)
  | adoptFloor => exact absurd (h.contigSeq_le hv trivial k) (Nat.not_le_of_lt hback)

/-- Where an item moves a head back, the new head is genuine exactly when the item is anchored. -/
def Queued.RewindsInPlace (q : Queued env) (t : Txn) : Prop :=
  match processQueued env q t with
  | .ok _ t' => ∀ k, (t'.core.head env k).contigSeq < (t.core.head env k).contigSeq →
      ((t.view env).Genuine env (t'.view env) k ↔ q.2.Anchored env (t.view env) k)
  | .error _ _ => True

/-- In every run, an item that moves a head back leaves a genuine one exactly when it is
anchored. -/
theorem rewind_provenance (is : List (Input env)) :
    RunEvery env Queued.RewindsInPlace Core.init is := by
  refine .of_ready (fun q t ht => ?_) Core.coherent_init
  have hq := processQueued_spec False True q ht False.elim fun _ => trivial
  unfold Queued.RewindsInPlace
  cases hrun : processQueued env q t with
  | error => trivial
  | ok u t' =>
    intro k hback
    exact ItemStep.genuine (v := { t.view env with now := q.1.now }) (hq.of_ok hrun).2.2
      (t.core.head_stream env) hback

/-- Above a floor at the first entry, a recovery meets the canonical second entry: the head goes
back to 1 with the chain of the divergent third entry. -/
theorem rewind_out_of_place :
    let is : List (Input (hostEnv "b")) :=
      [hostFlush "b" 20 [.adoptFloor "t" "w" 1
          "2b9b9a7838c39f166c0015237d70501dc4ea31d32bf5c34ee8c0d5d8bdf67e27" rfl],
        hostFlush "b" 21 [hostExternal "b" "w" 2 2 "k"
          "33219e2f97e466593b7541683f5ca1825c48d9083647f3ef644bf447606e5ec1" valid_second,
          hostExternal "b" "w" 3 3 "k"
          "6b0a17638ba14784d5c827283d4c210bf9c218585390c079898b7e17ab1dae88" valid_third],
        hostFlush "b" 22 [.directive (hostDirective .retired 1 (some 2)
          (some "811cf080d292756e040183a73dfd30155496edd0322df9ac14d0fac53a354745"))]]
    let core := runCore (hostEnv "b") Core.init is
    let o := flush (hostEnv "b") [({ now := 23 }, hostExternal "b" "w" 2 2 "j"
      "811cf080d292756e040183a73dfd30155496edd0322df9ac14d0fac53a354745" valid_otherSecond)]
      none core
    let head := o.core.head (hostEnv "b") ("t", "w")
    head.contigSeq < (core.head (hostEnv "b") ("t", "w")).contigSeq ∧
      ¬ (o.core.stream (hostEnv "b") ("t", "w")).Backs (hostEnv "b") head.contigSeq
        head.contigChain ∧
      o.applied.length = 0 := by
  decide +kernel

end Seqscribe
