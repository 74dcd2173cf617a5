import Seqscribe.Host
import Seqscribe.Run

namespace Seqscribe
set_option autoImplicit true

variable {env : Env} {S S' : Stream} {v v' : View} {cert : FinalityCert}

/-- The seal of a stream found forked. -/
def Stream.forkOpen (S : Stream) : Stream := if S.head.sealReason = none then S.fork else S

theorem Local.stream_sealForked (L : Local) : (L.sealForked T).stream = L.stream.forkOpen := by
  unfold sealForked Stream.forkOpen
  split <;> rfl

theorem Stream.rows_forkOpen (S : Stream) : S.forkOpen.rows = S.rows := by
  unfold forkOpen
  split <;> rfl

open Classical in
/-- What a certificate does to one stream. -/
noncomputable def Stream.certified (env : Env) (cert : FinalityCert) (now : Nat) (S : Stream) :
    Stream :=
  let cut := cert.cutSeq S.head.writer
  if S.HoldsLate cert then
    ((S.quarantineFrom (cut + 1) S.head.contigSeq .postCut now).saveHead
      { S.head with contigSeq := cut, contigChain := S.cutChain env cert }).forkOpen
  else if 0 < cut ∧ cut ≤ S.head.contigSeq ∧ ∃ mine certified, S.rows cut = some mine ∧
      cert.cut.get S.head.writer = some certified ∧ mine.chain ≠ certified.chain then
    S.forkOpen
  else S

theorem Local.stream_certStream (L : Local) :
    (L.certStream env cert now).stream = L.stream.certified env cert now := by
  unfold Stream.certified Local.certStream
  dsimp only
  split
  · exact stream_sealForked _
  · split
    · exact stream_sealForked L
    · rfl

theorem View.certify_streams {writers : List WriterId} (hnodup : writers.Nodup) (k : StreamId) :
    (v.certify env cert writers).streams k =
      if k.1 = cert.topic ∧ k.2 ∈ writers then (v.streams k).certified env cert v.now
      else v.streams k := by
  unfold View.certify
  generalize hv₀ : ({ v with certs := _ } : View) = v₀
  have hstreams : v.streams = v₀.streams := by rw [← hv₀]
  have hnow : v.now = v₀.now := by rw [← hv₀]
  rw [hstreams, hnow]
  clear hv₀ hstreams hnow
  induction writers generalizing v₀ with
  | nil => simp
  | cons w rest ih =>
    obtain ⟨hw, hrest⟩ := List.nodup_cons.1 hnodup
    rw [List.foldl_cons, ih hrest]
    change (if k.1 = cert.topic ∧ k.2 ∈ rest then
      ((v₀.withLocal (cert.topic, w) _).streams k).certified env cert v₀.now else _) = _
    by_cases hk : k = (cert.topic, w)
    · subst hk
      rw [if_neg (fun h => hw h.2), if_pos ⟨rfl, List.mem_cons_self⟩]
      exact (View.withLocal_streams_self ..).trans (Local.stream_certStream _)
    · have hmem : (k.1 = cert.topic ∧ k.2 ∈ w :: rest) ↔ (k.1 = cert.topic ∧ k.2 ∈ rest) := by
        rw [List.mem_cons]
        refine ⟨fun h => ⟨h.1, h.2.resolve_left fun hw => hk (Prod.ext h.1 hw)⟩,
          fun h => ⟨h.1, .inr h.2⟩⟩
      simp only [hmem]
      unfold View.onStream
      rw [View.withLocal_streams_of_ne _ hk]

/-- The certificates after an item. -/
def QueueItem.certsAfter (item : QueueItem env) (certs : Topic → Option FinalityCert) :
    Topic → Option FinalityCert :=
  match item with
  | .cert c => Function.update certs c.topic (some c)
  | _ => certs

@[simp] theorem QueueItem.certsAfter_cert (c : FinalityCert) :
    (QueueItem.cert c : QueueItem env).certsAfter certs c.topic = some c := by
  simp [certsAfter]

theorem ItemStep.certs {item : QueueItem env} (h : ItemStep env exact item v v') :
    v'.certs = item.certsAfter v.certs := by
  have hfold : ∀ (T : Topic) (cut : List CutEntry) (v : View), (v.adopt T cut).certs = v.certs := by
    intro T cut
    induction cut with
    | nil => exact fun v => rfl
    | cons c rest ih => exact fun v => ih _
  cases item with
  | append item =>
    obtain ⟨L, -, rfl⟩ := h
    rfl
  | cert c =>
    obtain ⟨writers, n, -, rfl⟩ := h
    change View.certs (List.foldl _ _ writers) = _
    generalize hv₀ : ({ v with certs := _ } : View) = v₀
    have hcerts : Function.update v.certs c.topic (some c) = v₀.certs := by rw [← hv₀]
    rw [show QueueItem.certsAfter (.cert c) v.certs = v₀.certs from hcerts]
    clear hv₀ hcerts
    induction writers generalizing v₀ with
    | nil => rfl
    | cons w rest ih => exact ih _
  | directive d =>
    obtain rfl := h
    unfold View.storeDirective
    split <;> rfl
  | adopt T cut =>
    obtain rfl := h
    exact hfold T cut.rows v
  | retireTopic T known =>
    rcases h with ⟨e, rfl⟩ | ⟨-, n, rfl⟩ <;> rfl
  | external item =>
    obtain rfl := h
    rfl
  | sealStream T w =>
    obtain rfl := h
    rfl
  | adoptFloor T w s chain known =>
    obtain rfl := h
    rfl
  | pruneTopic T olderThanMs keepNewest known =>
    obtain ⟨v₁, r, hthin, -, rfl⟩ := h
    exact hthin.certs
  | pruneSuperseded T uptoRowid maxRows others known =>
    obtain ⟨v₁, r, hthin, -, rfl⟩ := h
    exact hthin.certs
  | pruneAcked T o maxRows known =>
    obtain ⟨v₁, r, hthin, -, rfl⟩ := h
    exact hthin.certs

/-- Only an advance can bring a row outside the cover. -/
theorem Stream.Move.not_holdsLate (hmove : S.Move env a S') (h : ¬ S.HoldsLate cert)
    (hadv : ∀ e, a = .advance e → e.stream = S.head.stream → env.isFull e.topic →
      ¬ OutsideCover cert e) :
    ¬ S'.HoldsLate cert := by
  rintro ⟨s, e, hrow, hout⟩
  cases hmove with
  | advance _ e' hid hseq hchain =>
    have hrow : (S.put env e').rows s = some e := hrow
    rw [Stream.rows_put] at hrow
    split at hrow
    · next hput =>
      obtain rfl := Option.some.inj hrow
      exact hadv _ rfl hid hput.1 hout
    · exact h ⟨s, e, hrow, hout⟩
  | rewind _ pos hi chain why reason now hs hchain =>
    have hrow : (if pos + 1 ≤ s then none else S.rows s) = some e := hrow
    split at hrow
    · cases hrow
    · exact h ⟨s, e, hrow, hout⟩
  | thin _ S' hthin => exact h ⟨s, e, hthin.row hrow, hout⟩
  | jump => exact h ⟨s, e, hrow, hout⟩
  | fork => exact h ⟨s, e, hrow, hout⟩
  | retire => exact h ⟨s, e, hrow, hout⟩
  | revive => exact h ⟨s, e, hrow, hout⟩
  | seek => exact h ⟨s, e, hrow, hout⟩
  | shelve => exact h ⟨s, e, hrow, hout⟩
  | vacate => exact h ⟨s, e, hrow, hout⟩

/-- A certificate leaves no row outside its cover. -/
theorem Stream.Sound.certified (hS : S.Sound k) : ¬ (S.certified env cert now).HoldsLate cert := by
  unfold Stream.certified
  dsimp only
  split
  · rintro ⟨s, e, hrow, -, hcut⟩
    rw [Stream.rows_forkOpen] at hrow
    have hrow : (if cert.cutSeq S.head.writer + 1 ≤ s then none else S.rows s) = some e := hrow
    split at hrow
    · cases hrow
    · rw [show e.writer = k.2 from congrArg Prod.snd (hS.row_stream hrow), ← hS.writer,
        hS.row_seq hrow] at hcut
      omega
  · next hlate =>
    split
    · unfold Stream.HoldsLate
      rw [Stream.rows_forkOpen]
      exact hlate
    · exact hlate

/-- The order of the entry that an append would stamp. -/
def Stream.nextOrder (env : Env) (S : Stream) (hlc : Hlc) : Order :=
  ⟨hlc.l, hlc.c, env.writerId, S.head.contigSeq + 1⟩

/-- No entry that the item would log lies outside the cover of the stored certificate: not the
one it would author, none that waits right behind an arriving entry or an adopted floor, and not
the one a recovery would take. -/
def QueueItem.Gated (item : QueueItem env) (v : View) : Prop :=
  match item with
  | .append item =>
    let S := v.streams (item.topic, env.writerId)
    env.isFull item.topic → ∀ c, v.certs item.topic = some c → S.head.sealReason = none →
      ∀ state hlc, stamp v.hlcState v.now = .ok (state, hlc) →
        ¬ (orderCompare (S.nextOrder env hlc) c.order ≤ 0 ∧
          c.cutSeq env.writerId < S.head.contigSeq + 1)
  | .external item =>
    let e := item.entry
    let S := v.streams e.stream
    env.isFull e.topic → ∀ c, v.certs e.topic = some c →
      (S.head.sealReason = none → ¬ OutsideCover c e → e.seq = S.head.contigSeq + 1 →
        S.Accepts env e → ∀ e', S.Released env e.seq e.chain (some e.hlc) e' → ¬ OutsideCover c e') ∧
      (S.head.sealReason ≠ none → ∀ target, S.recovery = some target → e.seq ≤ target.finalSeq →
        S.Recovers env e → ¬ OutsideCover c e)
  | .adoptFloor T w s chain _ =>
    let S := v.streams (T, w)
    env.ackedRetention T → ∀ c, v.certs T = some c → S.head.sealReason = none →
      S.head.contigSeq < s →
      (∀ target, S.recovery = some target → contradictsTarget target s chain = false) →
      ∀ e, S.Released env s chain none e → ¬ OutsideCover c e
  | _ => True

theorem QueueItem.Gated.advance {item : QueueItem env} (h : item.Gated v)
    (hdoes : item.Does v k (.advance e)) (hfull : env.isFull k.1)
    (hcert : v.certs k.1 = some cert) : ¬ OutsideCover cert e := by
  cases item with
  | append item =>
    obtain ⟨rfl, hopen, state, hlc, causal, hstamp, rfl⟩ := hdoes
    exact h hfull cert hcert hopen state hlc hstamp
  | external item =>
    obtain ⟨rfl, hdoes⟩ := hdoes
    unfold Stream.Ingests at hdoes
    dsimp only at hdoes
    split at hdoes
    · next hopen =>
      obtain ⟨hcover, hseq, hacc, rfl | hrel⟩ := hdoes
      · exact hcover cert hcert
      · rw [Stream.heldHlc, if_pos (show env.isFull item.entry.topic = true from hfull)] at hrel
        exact (h hfull cert hcert).1 hopen (hcover cert hcert) hseq hacc e hrel
    · next hseal =>
      obtain ⟨rfl, hrec, target, htarget, hle⟩ := hdoes
      exact (h hfull cert hcert).2 hseal target htarget hle hrec
  | adoptFloor T w s chain known =>
    obtain ⟨rfl, helig, hopen, hlt, hagree, hrel⟩ := hdoes
    exact h helig cert hcert hopen hlt hagree e hrel
  | sealStream T w => cases hdoes.2
  | cert c => rcases hdoes.2 with h | h <;> cases h
  | directive d => exact hdoes.2.2.elim
  | adopt T cut =>
    obtain ⟨c, -, -, h⟩ := hdoes
    cases h
  | retireTopic T known => cases hdoes.2
  | pruneTopic => cases hdoes
  | pruneSuperseded => cases hdoes
  | pruneAcked => cases hdoes

/-- No row lies outside the cover of the stored certificate of its topic. -/
def Core.Final (core : Core) : Prop :=
  ∀ cert ∈ core.db.sqFinality.rows, ∀ r ∈ core.db.sqLog.rows, r.entry.topic = cert.topic →
    ¬ OutsideCover cert r.entry

instance (core : Core) : Decidable core.Final := inferInstanceAs (Decidable (∀ _ ∈ _, _))

def View.Final (v : View) : Prop :=
  ∀ k cert, v.certs k.1 = some cert → ¬ (v.streams k).HoldsLate cert

theorem View.Final.item {q : Queued env} (hv : v.Sound) (hfinal : v.Final)
    (hgate : q.2.Gated { v with now := q.1.now })
    (hstep : ItemStep env True q.2 { v with now := q.1.now } v') : v'.Final := by
  intro k cert hcert
  have hmoves := hstep.moves trivial hv k
  have hcerts := hstep.certs
  by_cases hc : ∃ c, q.2 = .cert c ∧ k.1 = c.topic
  · obtain ⟨c, hq, hk⟩ := hc
    rw [hq] at hstep hcerts
    obtain ⟨writers, n, hlists, rfl⟩ := hstep
    rw [hcerts, hk, QueueItem.certsAfter_cert] at hcert
    obtain rfl := Option.some.inj hcert
    change ¬ (View.streams _ k).HoldsLate c
    rw [show (View.done _ _).streams k = _ from View.certify_streams hlists.nodup k]
    split
    · exact (hv k).certified
    · next hmem =>
      rintro ⟨s, e, hrow, -⟩
      have hlisted : (v.streams k).listed = true := (hv k).listed s e hrow
      refine hmem ⟨hk, (hlists.mem k.2).2 ?_⟩
      rw [← hk]
      exact hlisted
  · have hsame : v.certs k.1 = some cert := by
      rw [← hcert, hcerts]
      cases hq : q.2 with
      | cert c =>
        exact (Function.update_of_ne (fun hk => hc ⟨c, hq, hk⟩) ..).symm
      | _ => rfl
    refine hmoves.preserves_sound (hv k) (I := fun S => ¬ S.HoldsLate cert) ?_ (hfinal k cert hsame)
    intro a S S' hdoes hS hlate hmove
    refine hmove.not_holdsLate hlate fun e ha hid hfull => ?_
    rw [ha] at hdoes
    refine hgate.advance hdoes ?_ hsame
    rwa [← hS.id, ← hid]

/-- Finality is enforced in every state of a run whose items would log nothing outside the cover
of the stored certificate. -/
theorem finality_enforced (is : List (Input env)) (hexact : RunExact env Core.init is)
    (hgate : RunEvery env (fun q t => q.2.Gated { t.view env with now := q.1.now }) Core.init is)
    (reached : List (Input env)) (hreached : reached <+: is) :
    (runCore env Core.init reached).Final := by
  have hfinal := runCore_items True (fun q v => q.2.Gated { v with now := q.1.now })
    (I := View.Final) (fun _ => hexact.initial hreached) (hgate.initial hreached)
    (by rintro k cert ⟨⟩) ?_ (fun q v v' hv => View.Final.item (hv trivial)) ?_ ?_
  · intro cert hcert r hr htopic
    have hget : (runCore env Core.init reached).db.sqFinality.get cert.topic = some cert :=
      Table.get_of_mem hcert
    rw [← htopic] at hget
    exact fun hout => hfinal r.entry.stream cert hget ⟨_, _, Core.row_of_mem env hr, hout⟩
  · intro v v' hsame hfinal k cert hcert
    rw [hsame.1]
    rw [hsame.2.1] at hcert
    exact hfinal k cert hcert
  · intro v v' hthin hfinal k cert hcert
    rw [hthin.certs] at hcert
    rintro ⟨s, e, hrow, hout⟩
    exact hfinal k cert hcert ⟨s, e, (hthin.streams k).row hrow, hout⟩
  · intro v v' hcerts _ hk hfinal k cert hcert
    rw [hcerts] at hcert
    rcases hk k with hk | hk | hk <;> rw [hk] <;> exact hfinal k cert hcert

/-- A certificate with the first two entries of `w` in its cut, at an order beyond the third. -/
def earlyCut : FinalityCert where
  topic := "t"
  order := ⟨10, 0, "x", 1⟩
  cut := .upsert .empty
    ⟨"w", 2, "33219e2f97e466593b7541683f5ca1825c48d9083647f3ef644bf447606e5ec1"⟩
  generation := 1
  authority := "authority"
  sig := "sig"

theorem finality_enforced_of_early_cut :
    let is : List (Input (hostEnv "b")) :=
      [hostFlush "b" 20 [hostExternal "b" "w" 1 1 "k"
          "2b9b9a7838c39f166c0015237d70501dc4ea31d32bf5c34ee8c0d5d8bdf67e27" valid_first],
        hostFlush "b" 21 [.cert earlyCut]]
    RunExact (hostEnv "b") Core.init is ∧ (runCore (hostEnv "b") Core.init is).Final := by
  intro is
  have hexact : RunExact (hostEnv "b") Core.init is := by decide +kernel
  refine ⟨hexact, finality_enforced is hexact ⟨⟨?_, ?_⟩, ⟨trivial, ?_⟩, trivial⟩ is
    (List.prefix_refl is)⟩
  · rintro - c ⟨⟩
  · split <;> trivial
  · split <;> trivial

/-- The third entry waits when its certificate arrives; the second one releases it into the log,
outside the cover. -/
theorem finality_not_enforced :
    let is : List (Input (hostEnv "b")) :=
      [hostFlush "b" 20 [hostExternal "b" "w" 1 1 "k"
          "2b9b9a7838c39f166c0015237d70501dc4ea31d32bf5c34ee8c0d5d8bdf67e27" valid_first,
          hostExternal "b" "w" 3 3 "k"
          "6b0a17638ba14784d5c827283d4c210bf9c218585390c079898b7e17ab1dae88" valid_third],
        hostFlush "b" 21 [.cert earlyCut],
        hostFlush "b" 22 [hostExternal "b" "w" 2 2 "k"
          "33219e2f97e466593b7541683f5ca1825c48d9083647f3ef644bf447606e5ec1" valid_second]]
    ¬ (runCore (hostEnv "b") Core.init is).Final := by
  decide +kernel

end Seqscribe
