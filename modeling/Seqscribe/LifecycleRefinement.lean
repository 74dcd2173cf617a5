import Seqscribe.IngestRefinement

namespace Seqscribe
set_option autoImplicit true

variable {env : Env} {E : SeqscribeError → Prop} {t : Txn} {v : View} {L : Local} {k : StreamId}

theorem processSeal_spec (h : At env (T, w) v L t)
    (hQ : ∀ t', At env (T, w) v (L.processSeal T w) t' → Q () t') :
    Returns E (processSeal env T w) t Q := by
  unfold Local.processSeal at hQ
  refine .bind (getStream_spec h fun t h => ?_)
  by_cases hseal : L.stream.head.sealReason = none
  · rw [if_pos hseal] at hQ ⊢
    exact .bind (saveHead_spec h h.head_stream fun t' h' =>
      .bind (report_spec h' fun t' h' => done_spec h' hQ))
  · rw [if_neg hseal] at hQ ⊢
    exact done_spec h hQ

theorem saveForked_spec (h : At env (T, w) v L t) (hhead : head.stream = (T, w))
    (hQ : ∀ t', At env (T, w) v ((L.map (Stream.saveHead head)).sealForked T) t' → Q () t') :
    Returns E (saveForked env head T w) t Q := by
  have hw : head.writer = w := congrArg Prod.snd hhead
  unfold saveForked
  unfold Local.sealForked at hQ
  by_cases hseal : head.sealReason = none
  · rw [if_pos (show (L.map (Stream.saveHead head)).stream.head.sealReason = none from hseal)] at hQ
    rw [if_pos hseal]
    refine .bind (report_spec h fun t h => saveHead_spec h hhead fun t' h' => hQ t' ?_)
    rw [show (L.map (Stream.saveHead head)).stream.head.writer = w from hw]
    exact h'
  · rw [if_neg (show ¬ (L.map (Stream.saveHead head)).stream.head.sealReason = none from hseal)]
      at hQ
    rw [if_neg hseal]
    exact saveHead_spec h hhead hQ

theorem max_getD_lt_iff {xs : List Nat} : c < xs.max?.getD 0 ↔ ∃ x ∈ xs, c < x := by
  cases hm : xs.max? with
  | none =>
    obtain rfl := List.max?_eq_none_iff.1 hm
    simp
  | some m =>
    obtain ⟨hmem, hle⟩ := List.max?_eq_some_iff.1 hm
    constructor
    · intro hc
      exact ⟨m, hmem, hc⟩
    · rintro ⟨x, hx, hc⟩
      exact Nat.lt_of_lt_of_le hc (hle x hx)

theorem lastSeqAtOrBeforeOrder_spec (h : At env (cert.topic, w) v L t)
    (hQ : ∀ n t', (cert.cutSeq w < n ↔ L.stream.HoldsLate cert) →
      At env (cert.topic, w) v L t' → Q n t') :
    Returns E (Store.lastSeqAtOrBeforeOrder cert.topic w cert.order) t Q := by
  refine query_at h fun t' h' => hQ _ t' ?_ h'
  rw [max_getD_lt_iff]
  simp only [List.mem_map, List.mem_filter, Store.inStream, Bool.and_eq_true, decide_eq_true_eq]
  constructor
  · rintro ⟨_, ⟨r, ⟨hr, ⟨hT, hw⟩, hord⟩, rfl⟩, hcut⟩
    refine ⟨r.entry.seq, r.entry, ?_, hord, ?_⟩
    · rw [← h.get_log, ← hT, ← hw]
      exact Option.map_eq_some_iff.2 ⟨r, log_get_of_mem hr, rfl⟩
    · rwa [hw]
  · rintro ⟨s, e, hrow, hord, hcut⟩
    have hid := h.row_id hrow
    rw [← h.get_log] at hrow
    obtain ⟨r, hr, rfl⟩ := Option.map_eq_some_iff.1 hrow
    simp only [LogEntry.id, Prod.mk.injEq] at hid
    obtain ⟨hT, hw, rfl⟩ := hid
    refine ⟨r.entry.seq, ⟨r, ⟨(Table.get_eq_some_iff.1 hr).1, ⟨hT, hw⟩, hord⟩, rfl⟩, ?_⟩
    rwa [hw] at hcut

theorem Local.sealForked_of_sealed (hseal : L.stream.head.sealReason ≠ none) :
    L.sealForked T = L := if_neg hseal

theorem Stream.saveHead_head (S : Stream) (hlisted : S.listed = true) : S.saveHead S.head = S := by
  cases S
  cases hlisted
  rfl

theorem certStream_spec (h : At env (cert.topic, w) v L t) (hlisted : L.stream.listed = true)
    (hQ : ∀ n t', At env (cert.topic, w) v (L.certStream env cert v.now) t' → Q n t') :
    Returns E (certStream env cert w) t Q := by
  have hk := h.head_stream
  have hw : L.stream.head.writer = w := congrArg Prod.snd hk
  unfold Local.certStream at hQ
  rw [hw] at hQ
  refine .bind (clock_at h (.bind (getStream_spec h fun t h => ?_)))
  refine .bind (lastSeqAtOrBeforeOrder_spec h fun last t hlast h => ?_)
  by_cases hlate : L.stream.HoldsLate cert
  · rw [if_pos (hlast.2 hlate)]
    rw [if_pos hlate] at hQ
    refine .bind (chainHeldAt_spec h fun t h => .bind (quarantineRange_spec h fun n t h => ?_))
    refine .bind (saveForked_spec h hk fun t' h' => .pure ?_)
    refine hQ n t' ?_
    rw [Stream.cutChain, hw]
    exact h'
  · rw [if_neg (mt hlast.1 hlate)]
    rw [if_neg hlate] at hQ
    by_cases hcut : cert.cutSeq w > 0 ∧ L.stream.head.contigSeq ≥ cert.cutSeq w
    · rw [if_pos hcut]
      refine .bind (getEntry_spec h fun t h => ?_)
      by_cases hdiff : ∃ mine certified, L.stream.rows (cert.cutSeq w) = some mine ∧
          cert.cut.get w = some certified ∧ mine.chain ≠ certified.chain
      · rw [if_pos ⟨hcut.1, hcut.2, hdiff⟩] at hQ
        obtain ⟨mine, certified, hmine, hcert, hne⟩ := hdiff
        by_cases hseal : L.stream.head.sealReason = none
        · rw [if_pos (by simp [hmine, hcert, hne, hseal])]
          refine .bind (saveForked_spec h hk fun t' h' => .pure (hQ 0 t' ?_))
          rw [Local.map, Stream.saveHead_head _ hlisted] at h'
          exact h'
        · rw [if_neg (by simp [hseal])]
          rw [Local.sealForked_of_sealed hseal] at hQ
          exact .pure (hQ 0 t h)
      · rw [if_neg fun hc => hdiff hc.2.2] at hQ
        rw [if_neg]
        · exact .pure (hQ 0 t h)
        · rintro ⟨hmine, hcert, hne, _⟩
          obtain ⟨_, hm⟩ := Option.isSome_iff_exists.1 hmine
          obtain ⟨_, hc⟩ := Option.isSome_iff_exists.1 hcert
          obtain ⟨mine, hm', rfl⟩ := Option.map_eq_some_iff.1 hm
          obtain ⟨certified, hc', rfl⟩ := Option.map_eq_some_iff.1 hc
          refine hdiff ⟨mine, certified, hm', hc', fun he => hne ?_⟩
          rw [hm, hc, he]
    · rw [if_neg hcut]
      rw [if_neg fun hc => hcut ⟨hc.1, hc.2.1⟩] at hQ
      exact .pure (hQ 0 t h)

namespace View

def done (r : Settled) (v : View) : View := { v with settle := v.settle ++ [r] }

theorem withLocal_done (v : View) (k : StreamId) :
    v.withLocal k ((v.localAt k).done r) = v.done r := by
  simp [withLocal, localAt, Local.done, done]

/-- A certificate is stored, and every listed writer gets its share in turn. -/
noncomputable def certify (env : Env) (cert : FinalityCert) (writers : List WriterId) (v : View) :
    View :=
  writers.foldl (fun v w => v.onStream (cert.topic, w) (Local.certStream env cert v.now))
    { v with certs := Function.update v.certs cert.topic (some cert) }

/-- The writers a topic's loops run over: each listed writer once. -/
structure Lists (v : View) (T : Topic) (writers : List WriterId) : Prop where
  nodup : writers.Nodup
  mem : ∀ w, w ∈ writers ↔ (v.streams (T, w)).listed = true

end View

theorem Ready.done_spec (ht : Ready env t)
    (hQ : ∀ t', Ready env t' → t'.view env = (t.view env).done r → Q () t') :
    Returns E (done r) t Q := by
  refine Seqscribe.done_spec (ht.at ("", "")) fun t' h' => hQ t' h'.ready ?_
  rw [h'.view_eq, View.withLocal_done]

/-- The writers of a topic in table order. -/
theorem listWriters_spec (ht : Ready env t)
    (hQ : ∀ (ws : List WriterRow) t', (t.view env).Lists T (ws.map WriterRow.writer) →
      Ready env t' → t'.view env = t.view env → Q ws t') :
    Returns E (Store.listWriters T) t Q := by
  refine query_spec fun fault _ => hQ _ _ ⟨?_, ?_⟩ ⟨ht.coherent⟩ rfl
  · have hnodup := t.core.db.sqWriters.nodup
    refine (List.nodup_map_iff_inj_on ?_).2 ?_
    · exact (hnodup.of_map _).filter _
    · intro w hw w' hw' he
      simp only [List.mem_filter, decide_eq_true_eq] at hw hw'
      exact List.inj_on_of_nodup_map hnodup hw.1 hw'.1
        (Prod.ext (hw.2.trans hw'.2.symm) he)
  · intro w
    simp only [List.mem_map, List.mem_filter, decide_eq_true_eq, Txn.view, Core.stream,
      Option.isSome_iff_exists, Table.get_eq_some_iff]
    constructor
    · rintro ⟨r, ⟨hr, hT⟩, hw⟩
      exact ⟨r, hr, Prod.ext hT hw⟩
    · rintro ⟨r, hr, hk⟩
      exact ⟨r, ⟨hr, congrArg Prod.fst hk⟩, congrArg Prod.snd hk⟩

theorem writerVec_fgen (vec : HaveVectors) (T : Topic) (fgen : Option Nat) (k : StreamId) :
    writerVec (vec.upsert { topicVecOf vec T with fgen := fgen }) k = writerVec vec k := by
  have hget := Table.get_upsert vec { topicVecOf vec T with fgen := fgen } k.1
  simp only [topicVecOf_topic] at hget
  conv_lhs => unfold writerVec
  simp only [topicVecOf_topic, hget]
  by_cases hT : T = k.1
  · rw [if_pos hT, Option.bind_some, writers_topicVecOf, hT]
  · rw [if_neg hT]
    rfl

theorem storeCert_spec (ht : Ready env t)
    (hQ : ∀ t', Ready env t' → t'.view env = { t.view env with
      certs := Function.update (t.view env).certs cert.topic (some cert) } → Q () t') :
    Returns E (storeCert cert) t Q := by
  refine .bind (execute_spec fun fault => .modify rfl (hQ _ ?_ ?_))
  · obtain ⟨h₁, h₂, h₃, h₄, h₅⟩ := ht.coherent
    refine ⟨h₁, ?_, h₃, ?_, ?_⟩
    · intro T c hc
      change Function.update t.core.certs cert.topic (some (some cert)) T = some c at hc
      change c = (t.core.db.sqFinality.upsert cert).get T
      rw [Table.get_upsert]
      by_cases hT : T = cert.topic
      · subst hT
        rw [Function.update_self] at hc
        rw [if_pos rfl]
        exact (Option.some.inj hc).symm
      · rw [Function.update_of_ne hT] at hc
        rw [if_neg (Ne.symm hT)]
        exact h₂ T c hc
    · intro vec hvec k v' hv'
      obtain ⟨vec₀, hvec₀, rfl⟩ := Option.map_eq_some_iff.1 hvec
      rw [writerVec_fgen] at hv'
      exact h₄ vec₀ hvec₀ k v' hv'
    · intro vec hvec k head hk
      obtain ⟨vec₀, hvec₀, rfl⟩ := Option.map_eq_some_iff.1 hvec
      rw [writerVec_fgen]
      exact h₅ vec₀ hvec₀ k head hk
  · unfold Txn.view
    congr 1
    funext T
    dsimp only
    rw [Table.get_upsert, Function.update_apply]
    by_cases hT : T = cert.topic
    · rw [if_pos hT.symm, if_pos hT]
    · rw [if_neg (Ne.symm hT), if_neg hT]

theorem processCert_spec (ht : Ready env t)
    (hQ : ∀ ws n t', (t.view env).Lists cert.topic ws → Ready env t' →
      t'.view env = ((t.view env).certify env cert ws).done (.cert n) → Q () t') :
    Returns E (processCert env cert) t Q := by
  refine .bind (storeCert_spec ht fun t₀ ht₀ hv₀ => ?_)
  refine .bind (listWriters_spec ht₀ fun rows t₁ hlists ht₁ hv₁ => ?_)
  have hlists' : (t.view env).Lists cert.topic (rows.map WriterRow.writer) := by
    rw [hv₀] at hlists
    exact ⟨hlists.nodup, hlists.mem⟩
  -- the loop has given the writers it passed their share
  refine .bind (.mono (.foldlM (fun rest _ t' => ∃ passed : List WriterRow, passed ++ rest = rows ∧
    Ready env t' ∧
    t'.view env = (t.view env).certify env cert (passed.map WriterRow.writer) ∧
    ∀ w ∈ rest, ((t'.view env).streams (cert.topic, w.writer)).listed = true)
    ⟨[], rfl, ht₁, hv₁.trans hv₀, ?_⟩ ?_) ?_)
  · intro w hw
    rw [hv₁]
    exact (hlists.mem w.writer).1 (List.mem_map_of_mem hw)
  · rintro row rest n t₁ ⟨passed, hpassed, ht₁, hv₁, hlisted⟩
    refine .bind (certStream_spec (ht₁.at _) (hlisted row List.mem_cons_self)
      fun m t₂ h₂ => .pure ?_)
    refine ⟨passed ++ [row], by simpa using hpassed, h₂.ready, ?_, ?_⟩
    · rw [h₂.view_eq, hv₁, List.map_append]
      simp [View.certify, View.onStream]
    · intro w hw
      rw [h₂.view_eq, View.withLocal_streams_of_ne]
      · exact hlisted w (List.mem_cons_of_mem _ hw)
      · intro he
        have hnodup := hlists.nodup
        rw [← hpassed, List.map_append, List.map_cons] at hnodup
        have := (List.nodup_append.1 hnodup).2.1
        rw [List.nodup_cons] at this
        exact this.1 (List.mem_map.2 ⟨w, hw, congrArg Prod.snd he⟩)
  · rintro n t₁ ⟨passed, hpassed, ht₁, hv₁, _⟩
    rw [List.append_nil] at hpassed
    subst hpassed
    refine ht₁.done_spec fun t₂ ht₂ hv₂ => hQ _ n t₂ hlists' ht₂ ?_
    rw [hv₂, hv₁]

theorem localChainAt_spec (h : At env (d.topic, d.writer) v L t)
    (hQ : ∀ t', At env (d.topic, d.writer) v L t' → Q (L.stream.chainAtEnd env s) t') :
    Returns E (localChainAt env L.stream.head d s) t Q := by
  unfold localChainAt
  unfold Stream.chainAtEnd at hQ
  split
  · next hs =>
    rw [if_pos hs] at hQ
    exact .pure (hQ t h)
  · next hs =>
    rw [if_neg hs] at hQ
    exact chainHeldAt_spec h hQ

theorem processRetired_spec (h : At env (d.topic, d.writer) v L t)
    (hQ : ∀ t', At env (d.topic, d.writer) v (L.processRetired env d v.now) t' → Q () t') :
    Returns E (processRetired env L.stream.head d) t Q := by
  have hk := h.head_stream
  unfold Local.processRetired at hQ
  refine .bind (localChainAt_spec h fun t h => ?_)
  by_cases hagree : (directiveTarget env d).finalSeq ≤ L.stream.head.contigSeq ∧
      L.stream.chainAtEnd env (directiveTarget env d).finalSeq =
        some (directiveTarget env d).finalChain
  · dsimp only at hQ
    rw [if_pos hagree] at hQ
    rw [if_pos (show _ ∧ _ from hagree)]
    exact .bind (clock_at h (.bind (quarantineRange_spec h fun n t' h' =>
      .bind (saveHead_spec h' hk fun t' h' => .bind (setRecovery_spec h' fun t' h' =>
        done_spec h' hQ)))))
  · dsimp only at hQ
    rw [if_neg hagree] at hQ
    rw [if_neg (show ¬ (_ ∧ _) from hagree)]
    by_cases hseal : L.stream.head.sealReason = none
    · rw [if_pos hseal] at hQ ⊢
      exact .bind (saveHead_spec h hk fun t' h' =>
        .bind (setRecovery_spec h' fun t' h' => done_spec h' hQ))
    · rw [if_neg hseal] at hQ ⊢
      exact .bind (setRecovery_spec h fun t' h' => done_spec h' hQ)

/-- A directive is stored under its generation unless another one is there. -/
def View.storeDirective (d : WriterDirective) (v : View) : View :=
  if (v.directives d.id).any fun s => decide (s ≠ d.stringify) then v
  else { v with directives := Function.update v.directives d.id (some d) }

theorem directivePut_spec (h : At env k v L t)
    (hQ : ∀ t', At env k { v with directives := Function.update v.directives d.id (some d) } L t' →
      Q () t') : Returns E (Store.directivePut d) t Q := by
  refine execute_spec fun fault => hQ _ ?_
  refine ⟨⟨(h.ready.of_db (fun db => { db with sqDirectives := db.sqDirectives.upsert d.stringify })
    rfl rfl rfl).coherent⟩, h.stream, h.others, h.settle, h.applied, h.anomalies,
    h.hlcState, h.certs, ?_, h.now⟩
  funext id
  dsimp only
  rw [Table.get_upsert, Function.update_apply, ← h.directives]
  by_cases hid : id = d.id
  · rw [if_pos hid, if_pos (show d.stringify.id = id from hid.symm)]
    rfl
  · rw [if_neg hid, if_neg (show ¬ d.stringify.id = id from Ne.symm hid)]

theorem processDirective_spec (h : At env (d.topic, d.writer) v L t)
    (hQ : ∀ t', At env (d.topic, d.writer) (v.storeDirective d)
      (L.direct env (v.directives d.id) d v.now) t' → Q () t') :
    Returns E (processDirective env d) t Q := by
  unfold View.storeDirective Local.direct at hQ
  refine .bind (getStream_spec h fun t₀ h₀ => .bind (query_at h₀ fun t h => ?_))
  rw [h₀.directives, show (d.topic, d.writer, d.rgen) = d.id from rfl]
  split
  · next hconflict =>
    simp only [if_pos hconflict] at hQ
    exact .bind (report_spec h fun t' h' => done_spec h' hQ)
  · next hconflict =>
    simp only [if_neg hconflict] at hQ
    refine .bind (directivePut_spec h fun t h => ?_)
    split
    · next hstale =>
      simp only [if_pos hstale] at hQ
      exact done_spec h hQ
    · next hstale =>
      simp only [if_neg hstale] at hQ
      cases hstate : d.state with
      | live =>
        rw [hstate] at hQ
        dsimp only at hQ ⊢
        split
        · next hfork =>
          rw [if_pos hfork] at hQ
          exact .bind (report_spec h fun t' h' => done_spec h' hQ)
        · next hfork =>
          rw [if_neg hfork] at hQ
          exact .bind (saveHead_spec h h.head_stream fun t' h' =>
            .bind (setRecovery_spec h' fun t' h' => done_spec h' hQ))
      | retired =>
        rw [hstate] at hQ
        exact processRetired_spec h hQ

/-- A snapshot cut is adopted writer by writer. -/
def View.adopt (T : Topic) (cut : List CutEntry) (v : View) : View :=
  cut.foldl (fun v c => v.onStream (T, c.writer) (Local.adopt c.seq c.chain)) v

theorem processAdopt_spec (ht : Ready env t)
    (hQ : ∀ t', Ready env t' → t'.view env = ((t.view env).adopt T cut.rows).done .adopted →
      Q () t') : Returns E (processAdopt env T cut) t Q := by
  refine .bind (.mono (.forM (fun rest t' => ∃ passed, passed ++ rest = cut.rows ∧
    Ready env t' ∧ t'.view env = (t.view env).adopt T passed) ⟨[], rfl, ht, rfl⟩ ?_) ?_)
  · rintro c rest t₁ ⟨passed, hpassed, ht₁, hv₁⟩
    have hstep : ∀ t₂, At env (T, c.writer) (t₁.view env)
        (((t₁.view env).localAt (T, c.writer)).adopt c.seq c.chain) t₂ →
        ∃ passed, passed ++ rest = cut.rows ∧ Ready env t₂ ∧
          t₂.view env = (t.view env).adopt T passed := by
      intro t₂ h₂
      refine ⟨passed ++ [c], by simpa using hpassed, h₂.ready, ?_⟩
      rw [h₂.view_eq, hv₁]
      simp [View.adopt, View.onStream]
    unfold Local.adopt at hstep
    refine .bind (getStream_spec (ht₁.at _) fun t₂ h₂ => ?_)
    split
    · next hlt =>
      rw [if_pos hlt] at hstep
      exact saveHead_spec h₂ h₂.head_stream hstep
    · next hlt =>
      rw [if_neg hlt] at hstep
      exact .pure (hstep t₂ h₂)
  · rintro _ t₁ ⟨passed, hpassed, ht₁, hv₁⟩
    rw [List.append_nil] at hpassed
    subst hpassed
    refine ht₁.done_spec fun t₂ ht₂ hv₂ => hQ t₂ ht₂ ?_
    rw [hv₂, hv₁]

theorem ackedRetentionRefusal_spec (hknown : (env.topics T).isSome)
    (hQ : ∀ refusal, refusal.isSome = !env.ackedRetention T → Q refusal t) :
    Returns E (ackedRetentionRefusal env T) t Q := by
  obtain ⟨p, hp⟩ := Option.isSome_iff_exists.1 hknown
  refine .bind (topicPolicy_spec hp ?_)
  by_cases hkind : p.kind ≠ .append
  · rw [if_pos hkind]
    exact .pure (hQ _ (by simp [Env.ackedRetention, hp, hkind]))
  rw [if_neg hkind]
  by_cases hrepl : p.replication ≠ .fullSync
  · rw [if_pos hrepl]
    exact .pure (hQ _ (by simp [Env.ackedRetention, hp, hrepl]))
  rw [if_neg hrepl]
  by_cases hret : p.retention ≠ .full
  · rw [if_pos hret]
    exact .pure (hQ _ (by simp [Env.ackedRetention, hp, hret]))
  rw [if_neg hret]
  by_cases hkeyed : p.tombstoneKind.isSome
  · rw [if_pos hkeyed]
    exact .pure (hQ _ (by simp [Env.ackedRetention, hp, Option.ne_none_iff_isSome.2 hkeyed]))
  · rw [if_neg hkeyed]
    rw [not_not] at hkind hrepl hret
    exact .pure (hQ _ (by
      simp [Env.ackedRetention, hp, hkind, hrepl, hret, Option.not_isSome_iff_eq_none.1 hkeyed]))

/-- The floors after `floorSet`: it raises the floor of its stream, and only that. -/
theorem At.get_floorSet (h : At env (T, w) v L t) (s now : Nat) (chain : Chain) (k : StreamId) :
    ((t.core.db.sqFloors.upsertWhere ⟨T, w, ⟨s, chain⟩, now⟩
      fun r => decide (s > r.floor.seq)).get k).map FloorRow.floor =
      if (T, w) = k ∧ (L.stream.floor.all fun f => decide (s > f.seq)) = true then some ⟨s, chain⟩
      else (t.core.db.sqFloors.get k).map FloorRow.floor := by
  have hfloor : (t.core.db.sqFloors.get (T, w)).map FloorRow.floor = L.stream.floor := by
    rw [← h.stream]
    rfl
  rw [Table.get_upsertWhere, ← hfloor]
  by_cases hk : (T, w) = k
  · subst hk
    cases t.core.db.sqFloors.get (T, w) with
    | none => simp [FloorRow.stream]
    | some r =>
      by_cases hs : s > r.floor.seq <;> simp [FloorRow.stream, hs]
  · simp [FloorRow.stream, hk]

/-- Raising a floor in the store, with a cache that agrees with it afterwards. -/
theorem At.floorSet (h : At env (T, w) v L t) (s now : Nat) (chain : Chain)
    (cached : Option (Option Floor)) (fault : Option Nat)
    (hcached : ∀ f, cached = some f → f = (L.stream.raiseFloor s chain).floor) :
    At env (T, w) v (L.map (Stream.raiseFloor s chain))
      { t with
        core.db.sqFloors := t.core.db.sqFloors.upsertWhere ⟨T, w, ⟨s, chain⟩, now⟩
          fun r => decide (s > r.floor.seq)
        core.floors := Function.update t.core.floors (T, w) cached
        fault := fault } := by
  have hself : (t.core.stream env (T, w)).floor = L.stream.floor := congrArg Stream.floor h.stream
  obtain ⟨h₁, h₂, h₃, h₄, h₅⟩ := h.ready.coherent
  refine { h with ready := ⟨h₁, h₂, ?_, h₄, h₅⟩, stream := ?_, others := ?_ }
  · intro k f hf
    change Function.update t.core.floors (T, w) cached k = some f at hf
    refine Eq.trans ?_ (h.get_floorSet s now chain k).symm
    by_cases hk : k = (T, w)
    · subst hk
      rw [Function.update_self] at hf
      rw [hcached f hf, Stream.raiseFloor]
      by_cases hs : (L.stream.floor.all fun f => decide (s > f.seq)) = true
      · rw [if_pos hs, if_pos ⟨rfl, hs⟩]
      · rw [if_neg hs, if_neg fun hc => hs hc.2, ← hself]
        rfl
    · rw [Function.update_of_ne hk] at hf
      rw [if_neg fun hc => hk hc.1.symm]
      exact h₃ k f hf
  · have hstream := h.stream
    unfold Local.map Stream.raiseFloor
    simp only [Core.stream, h.get_floorSet, true_and]
    rw [← hstream]
    split <;> rfl
  · intro k hk
    rw [← h.others k hk]
    simp only [Core.stream, h.get_floorSet, if_neg fun hc : (T, w) = k ∧ _ => hk hc.1.symm]
    rfl

theorem raiseFloor_spec (h : At env (T, w) v L t)
    (hQ : ∀ t', At env (T, w) v (L.map (Stream.raiseFloor s chain)) t' → Q () t') :
    Returns E (raiseFloor T w s chain now) t Q :=
  .bind (execute_spec fun fault =>
    .modify rfl (hQ _ (h.floorSet s now chain none fault fun _ hf => by cases hf)))

theorem Stream.Bounded.mono {S S' : Stream} (h : S.Bounded) (hrows : S'.rows = S.rows)
    (hle : S.head.contigSeq ≤ S'.head.contigSeq) : S'.Bounded := by
  intro s hs
  rw [hrows]
  exact h s (Nat.lt_of_le_of_lt hle hs)

theorem Stream.raiseFloor_eq (S : Stream) (s : Nat) (chain : Chain) :
    ∃ floor, S.raiseFloor s chain = { S with floor := floor } := by
  unfold raiseFloor
  split
  · exact ⟨_, rfl⟩
  · exact ⟨S.floor, rfl⟩

theorem Stream.head_raiseFloor (S : Stream) : (S.raiseFloor s chain).head = S.head := by
  unfold raiseFloor
  split <;> rfl

/-- A floor moves the head, and retires a recovering stream whose end it is. -/
theorem Local.stream_jumpToFloor (L : Local) (s : Nat) (chain : Chain) (now : Nat) :
    ∃ head recovery floor, (head.contigSeq = s ∧ head.contigChain = chain ∧
      head.stream = L.stream.head.stream ∧
      (head.sealReason = none → L.stream.head.sealReason = none)) ∧ (L.jumpToFloor s chain now).stream =
      { L.stream with head := head, listed := true, recovery := recovery, floor := floor
                      pending := L.stream.pending.filter fun e => !decide (e.seq ≤ s) } := by
  unfold jumpToFloor
  cases L.stream.recovery.filter fun tgt => decide (s = tgt.finalSeq) with
  | none =>
    obtain ⟨floor, hfloor⟩ := Stream.raiseFloor_eq
      (L.stream.saveHead { L.stream.head with contigSeq := s, contigChain := chain }) s chain
    exact ⟨{ L.stream.head with contigSeq := s, contigChain := chain }, L.stream.recovery, floor,
      ⟨rfl, rfl, rfl, id⟩, congrArg (Stream.dropPending s) hfloor⟩
  | some tgt =>
    obtain ⟨floor, hfloor⟩ := Stream.raiseFloor_eq
      ((L.stream.setRecovery none).saveHead (WriterRow.retire
        { L.stream.head with contigSeq := s, contigChain := chain } tgt now)) s chain
    exact ⟨WriterRow.retire { L.stream.head with contigSeq := s, contigChain := chain } tgt now,
      none, floor, ⟨rfl, rfl, rfl, nofun⟩, congrArg (Stream.dropPending s) hfloor⟩

theorem processAdoptFloor_spec (h : At env (T, w) v L t) (hknown : (env.topics T).isSome)
    (hB : ¬ E Store.uniqueViolation → L.stream.Bounded)
    (hQ : ∀ t', At env (T, w) v
      (if env.ackedRetention T then L.adoptFloor env s chain v.now
        else L.done (.adoptedFloor .refused)) t' → Q () t') :
    Returns E (processAdoptFloor env T w s chain) t Q := by
  refine .bind (ackedRetentionRefusal_spec hknown fun refusal hrefusal => ?_)
  by_cases helig : env.ackedRetention T = true
  swap
  · rw [if_neg helig] at hQ
    rw [if_pos (by simp [hrefusal, helig])]
    exact done_spec h hQ
  rw [if_pos helig] at hQ
  rw [if_neg (by simp [hrefusal, helig])]
  unfold Local.adoptFloor at hQ
  refine .bind (getStream_spec h fun t h => ?_)
  split
  · next hge =>
    rw [if_pos hge] at hQ
    exact done_spec h hQ
  · next hge =>
    rw [if_neg hge] at hQ
    refine .bind (getRecovery_spec h ?_)
    split
    · next href =>
      rw [if_pos href] at hQ
      exact done_spec h hQ
    · next href =>
      rw [if_neg href] at hQ
      split
      · next hcon =>
        rw [if_pos hcon] at hQ
        exact done_spec h hQ
      · next hcon =>
        rw [if_neg hcon] at hQ
        have hB' : ¬ E Store.uniqueViolation →
            (L.jumpToFloor s chain v.now).stream.Bounded := by
          obtain ⟨head, recovery, floor, ⟨hs, -, -⟩, heq⟩ :=
            L.stream_jumpToFloor s chain v.now
          refine fun hE => (hB hE).mono (by rw [heq]) ?_
          rw [heq]
          exact Nat.le_trans (Nat.le_of_lt (Nat.lt_of_not_le hge)) (Nat.le_of_eq hs.symm)
        have hjump : ∀ head t', (L.jumpToFloor s chain v.now).stream.head = head →
            At env (T, w) v (L.jumpToFloor s chain v.now) t' → Returns E (do
              if head.sealReason = none then drainStream env none head
              done (.adoptedFloor .adopted)) t' Q := by
          rintro _ t' rfl h'
          by_cases hseal : (L.jumpToFloor s chain v.now).stream.head.sealReason = none
          · simp only [if_pos hseal] at hQ ⊢
            exact .bind (drainStream_spec h' hknown hB' fun t' h' => done_spec h' hQ)
          · simp only [if_neg hseal] at hQ ⊢
            exact done_spec h' hQ
        have hk := h.head_stream
        obtain rfl : L.stream.head.topic = T := congrArg Prod.fst hk
        obtain rfl : L.stream.head.writer = w := congrArg Prod.snd hk
        refine .bind (clock_at h ?_)
        unfold Local.jumpToFloor at hjump
        cases hreached : L.stream.recovery.filter fun tgt => decide (s = tgt.finalSeq) with
        | none =>
          rw [hreached] at hjump
          refine .bind (saveHead_spec h hk fun t' h' => .bind (raiseFloor_spec h' fun t' h' =>
            .bind (deletePendingUpTo_spec h' fun t' h' => .bind (report_spec h' fun t' h' => ?_))))
          exact hjump _ t' (Stream.head_raiseFloor _) h'
        | some tgt =>
          rw [hreached] at hjump
          refine .bind (setRecovery_spec h fun t' h' => .bind (saveHead_spec h' hk fun t' h' =>
            .bind (raiseFloor_spec h' fun t' h' => .bind (deletePendingUpTo_spec h' fun t' h' =>
              .bind (report_spec h' fun t' h' => ?_)))))
          exact hjump _ t' (Stream.head_raiseFloor _) h'

end Seqscribe
