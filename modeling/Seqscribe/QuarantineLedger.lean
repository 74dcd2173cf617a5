import Seqscribe.ArchiveHistory
import Seqscribe.Redelivery

namespace Seqscribe
set_option autoImplicit true

/-! What quarantine keeps of the rows that leave the log. -/

variable {env : Env} {S S' : Stream} {L : Local} {v v' : View} {k : StreamId} {e : LogEntry}

namespace Stream

/-- No row up to the head changes, and nothing in quarantine. -/
structure Growth (S S' : Stream) : Prop where
  id : S'.head.stream = S.head.stream
  head : S.head.contigSeq ≤ S'.head.contigSeq
  rows : ∀ s, s ≤ S.head.contigSeq → S'.rows s = S.rows s
  quarantine : S'.quarantine = S.quarantine

theorem Growth.refl (S : Stream) : S.Growth S := ⟨rfl, Nat.le_refl _, fun _ _ => rfl, rfl⟩

theorem Growth.trans (h : S.Growth S') (h' : S'.Growth S'') : S.Growth S'' where
  id := h'.id.trans h.id
  head := h.head.trans h'.head
  rows := fun s hs => (h'.rows s (hs.trans h.head)).trans (h.rows s hs)
  quarantine := h'.quarantine.trans h.quarantine

theorem quarantine_put (S : Stream) (e : LogEntry) : (S.put env e).quarantine = S.quarantine := by
  rw [put]
  split <;> rfl

theorem Forward.leap (h : Forward leaps a) : Forward true a :=
  ⟨h.1, h.2.1, h.2.2.1, nofun⟩

theorem Move.growth (h : S.Move env a S') (ha : Forward true a) : S.Growth S' := by
  have hid := h.head_stream
  cases h with
  | rewind => exact absurd rfl (ha.1 _)
  | thin => exact absurd rfl ha.2.1
  | vacate => exact absurd rfl ha.2.2.1
  | advance _ e _ hseq hchain =>
    have hle : S.head.contigSeq ≤ e.seq := by omega
    refine ⟨hid, hle, fun s hs => ?_, quarantine_put S e⟩
    apply (S.rows_put env e s).trans
    exact if_neg fun hnew => by omega
  | jump _ s chain hs => exact ⟨hid, Nat.le_of_lt hs, fun _ _ => rfl, rfl⟩
  | fork => exact ⟨hid, Nat.le_refl _, fun _ _ => rfl, rfl⟩
  | retire => exact ⟨hid, Nat.le_refl _, fun _ _ => rfl, rfl⟩
  | revive => exact ⟨hid, Nat.le_refl _, fun _ _ => rfl, rfl⟩
  | seek => exact ⟨hid, Nat.le_refl _, fun _ _ => rfl, rfl⟩
  | shelve => exact ⟨hid, Nat.le_refl _, fun _ _ => rfl, rfl⟩

theorem Moves.growth (h : S.Moves env P S') (hP : ∀ a, P a → Forward true a) : S.Growth S' :=
  h.preserves (I := S.Growth) (fun a _ _ ha hS hmove => hS.trans (hmove.growth (hP a ha)))
    (.refl S)

/-- A step under which the rows at the `parked` positions go to quarantine. Unless it `prunes`, the
other rows up to the head stay. -/
structure Conserves (prunes : Bool) (parked : Nat → Prop) (S S' : Stream) : Prop where
  id : S'.head.stream = S.head.stream
  parks : ∀ s e, parked s → S.rows s = some e → ∃ r, S'.quarantine s = some r ∧ r.entry = e
  keeps : ∀ s, (parked s → S.rows s = none) → S'.quarantine s = S.quarantine s
  spares : prunes = false → ∀ s, s ≤ S.head.contigSeq → ¬ parked s → S'.rows s = S.rows s

variable {parked : Nat → Prop}

theorem Growth.conserves (h : S.Growth S') (hnone : ∀ s, ¬ parked s) :
    S.Conserves prunes parked S' where
  id := h.id
  parks := fun s _ hs => absurd hs (hnone s)
  keeps := fun s _ => congrFun h.quarantine s
  spares := fun _ s hs _ => h.rows s hs

/-- A rewind, and what comes after it. -/
theorem Growth.parks {row : WriterRow}
    (h : Growth ((S.quarantineFrom lo S.head.contigSeq reason now).saveHead row) S')
    (hid : row.stream = S.head.stream) (hpos : row.contigSeq + 1 = lo)
    (hparked : ∀ s, parked s ↔ s ≤ S.head.contigSeq ∧ lo ≤ s) : S.Conserves prunes parked S' := by
  have hquarantine (s : Nat) : S'.quarantine s =
      (S.quarantineFrom lo S.head.contigSeq reason now).quarantine s := congrFun h.quarantine s
  refine ⟨h.id.trans hid, fun s e hs hrow => ?_, fun s hs => ?_, fun _ s hle hs => ?_⟩
  · obtain ⟨hle, hlo⟩ := (hparked s).1 hs
    refine ⟨⟨e, reason, now⟩, ?_, rfl⟩
    rw [hquarantine]
    exact quarantine_quarantineFrom S hrow hlo hle
  · rw [hquarantine, quarantineFrom]
    dsimp only
    by_cases hin : lo ≤ s ∧ s ≤ S.head.contigSeq
    · rw [if_pos hin, hs ((hparked s).2 hin.symm)]
    · rw [if_neg hin]
  · have hlo : ¬ lo ≤ s := fun hlo => hs ((hparked s).2 ⟨hle, hlo⟩)
    have hs' : s ≤ row.contigSeq := by omega
    exact (h.rows s hs').trans (if_neg hlo)

end Stream

/-- The item sends the row of a stream at a position to quarantine. -/
def QueueItem.Quarantines (item : QueueItem env) (v : View) (k : StreamId) (s : Nat) : Prop :=
  s ≤ (v.streams k).head.contigSeq ∧
  match item with
  | .external item => k = item.entry.stream ∧
      ((v.streams k).Recovering item.entry ∧ (v.streams k).Diverges item.entry) ∧
      item.entry.seq ≤ s
  | .cert c => k.1 = c.topic ∧ (v.streams k).listed = true ∧ (v.streams k).HoldsLate c ∧
      c.cutSeq k.2 < s
  | .directive d => k = (d.topic, d.writer) ∧ (v.streams k).Truncates env (v.directives d.id) d ∧
      (directiveTarget env d).finalSeq < s
  | _ => False

namespace Local

theorem ingest_conserves (hid : e.stream = L.stream.head.stream) (hpos : 0 < e.seq)
    {parked : Nat → Prop} (hparked : ∀ s, parked s ↔ s ≤ L.stream.head.contigSeq ∧
      (L.stream.Recovering e ∧ L.stream.Diverges e) ∧ e.seq ≤ s) :
    L.stream.Conserves false parked (L.ingest env cert e via now).stream := by
  by_cases hback : L.stream.Recovering e ∧ L.stream.Diverges e
  · obtain ⟨target, heq⟩ := ingest_eq env cert via now hback.1 hback.2
    have hmoves : (L.recoveryRewind env e now).stream.Moves env
        (fun a => a = .advance e ∨ a = .retire target ∨ a = .seek none)
        ((L.recoveryRewind env e now).recoveryExtend env e target via now).stream :=
      .recoveryExtend hid (fun _ _ => .inl rfl) (.inr (.inl rfl)) (.inr (.inr rfl))
    have hgrowth : Stream.Growth (L.recoveryRewind env e now).stream
        (L.ingest env cert e via now).stream := by
      rw [heq]
      apply hmoves.growth
      rintro a (rfl | rfl | rfl) <;> exact ⟨nofun, nofun, nofun, nofun⟩
    apply Stream.Growth.parks hgrowth rfl (Nat.succ_pred_eq_of_pos hpos)
    intro s
    rw [hparked]
    exact ⟨fun h => ⟨h.1, h.2.2⟩, fun h => ⟨h.1, hback, h.2⟩⟩
  · have hgrowth : L.stream.Growth (L.ingest env cert e via now).stream :=
      (ingest_forward hid hpos hback).growth fun _ ha => ha.leap
    exact hgrowth.conserves fun s hs => hback ((hparked s).1 hs).2.1

theorem direct_conserves {stored : Option WriterDirective} {parked : Nat → Prop}
    (hparked : ∀ s, parked s ↔ s ≤ L.stream.head.contigSeq ∧ L.stream.Truncates env stored d ∧
      (directiveTarget env d).finalSeq < s) :
    L.stream.Conserves false parked (L.direct env stored d now).stream := by
  by_cases hback : L.stream.Truncates env stored d
  · have heq : L.processRetired env d now = _ := if_pos hback.2.2.1
    have hgrowth : Stream.Growth ((L.stream.quarantineFrom ((directiveTarget env d).finalSeq + 1)
        L.stream.head.contigSeq .canonicalized now).saveHead (WriterRow.retire { L.stream.head with
          contigSeq := (directiveTarget env d).finalSeq
          contigChain := (directiveTarget env d).finalChain } (directiveTarget env d) now))
        (L.direct env stored d now).stream := by
      rw [direct_truncates hback, heq]
      exact ⟨rfl, Nat.le_refl _, fun _ _ => rfl, rfl⟩
    apply hgrowth.parks rfl rfl
    intro s
    rw [hparked]
    exact ⟨fun h => ⟨h.1, h.2.2⟩, fun h => ⟨h.1, hback, h.2⟩⟩
  · exact ((direct_forward hback).growth fun _ ha => ha.leap).conserves
      fun s hs => hback ((hparked s).1 hs).2.1

/-- No row is left beyond the end that a retirement cuts the stream at. -/
theorem rows_direct {stored : Option WriterDirective} (h : L.stream.Truncates env stored d)
    (hs : (directiveTarget env d).finalSeq < s) :
    (L.direct env stored d now).stream.rows s = none := by
  have heq : L.processRetired env d now = _ := if_pos h.2.2.1
  rw [direct_truncates h, heq]
  exact if_pos hs

end Local

theorem Stream.certified_conserves {S : Stream} {cert : FinalityCert} (now : Nat)
    {parked : Nat → Prop} (hparked : ∀ s, parked s ↔ s ≤ S.head.contigSeq ∧ S.HoldsLate cert ∧
      cert.cutSeq S.head.writer < s) :
    S.Conserves false parked (S.certified env cert now) := by
  have hforked (S : Stream) : S.Growth S.forkOpen := by
    rw [forkOpen]
    split
    next =>
      have hmove : S.Move env .fork S.fork := .fork S
      exact hmove.growth ⟨by simp, by simp, by simp, by simp⟩
    next => exact .refl S
  rw [certified]
  dsimp only
  split
  next hlate =>
    apply Growth.parks (hforked _)
    · rfl
    · rfl
    · intro s
      rw [hparked]
      exact ⟨fun h => ⟨h.1, h.2.2⟩, fun h => ⟨h.1, hlate, h.2⟩⟩
  next hnone =>
    have hkept (s : Nat) : ¬ parked s := fun hs => hnone ((hparked s).1 hs).2.1
    split
    next => exact (hforked S).conserves hkept
    next => exact (Growth.refl S).conserves hkept

theorem View.Pruned.conserves {parked : Nat → Prop} (h : v.Pruned v') (hnone : ∀ s, ¬ parked s)
    (k : StreamId) : (v.streams k).Conserves true parked (v'.streams k) := by
  obtain ⟨v₁, r, hthin, -, rfl⟩ := h
  have hk := hthin.streams k
  exact ⟨congrArg WriterRow.stream hk.head, fun s _ hs => absurd hs (hnone s),
    fun s _ => congrFun hk.quarantine s, by simp⟩

/-- What an item sends to quarantine is there after it, and it takes no other row up to the head
away, unless it prunes. -/
theorem ItemStep.conserves {item : QueueItem env} (h : ItemStep env exact item v v')
    (hid : ∀ k, (v.streams k).head.stream = k) (k : StreamId) :
    (v.streams k).Conserves item.prunes (item.Quarantines v k) (v'.streams k) := by
  have hsame (hnone : ∀ s, ¬ item.Quarantines v k s) :
      (v.streams k).Conserves item.prunes (item.Quarantines v k) (v.streams k) :=
    (Stream.Growth.refl _).conserves hnone
  have hlocal {k₀ : StreamId} {L : Local} (hother : k ≠ k₀ → ∀ s, ¬ item.Quarantines v k s)
      (hL : k = k₀ → (v.streams k).Conserves item.prunes (item.Quarantines v k) L.stream) :
      (v.streams k).Conserves item.prunes (item.Quarantines v k) ((v.withLocal k₀ L).streams k) := by
    by_cases hk : k = k₀
    · subst hk
      rw [View.withLocal_streams_self]
      exact hL rfl
    · rw [View.withLocal_streams_of_ne _ hk]
      exact hsame (hother hk)
  cases item with
  | append item =>
    obtain ⟨L, happ, rfl⟩ := h
    apply hlocal fun _ _ hs => hs.2
    rintro rfl
    apply Stream.Growth.conserves _ fun _ hs => hs.2
    apply (Stream.Moves.append (hid _) happ).growth
    intro a ha
    cases a with
    | advance e => simp [Stream.Forward]
    | _ => exact ha.elim
  | external item =>
    obtain rfl := h
    apply hlocal fun hk _ hs => hk hs.2.1
    rintro rfl
    apply Local.ingest_conserves (L := v.localAt item.entry.stream) (hid _).symm
      (one_le_seq_of_validateEntry item.valid)
    exact fun s => ⟨fun h => ⟨h.1, h.2.2⟩, fun h => ⟨h.1, rfl, h.2⟩⟩
  | sealStream T w =>
    obtain rfl := h
    apply hlocal fun _ _ hs => hs.2
    rintro rfl
    apply Stream.Growth.conserves _ fun _ hs => hs.2
    have hmoves : Stream.Moves env (fun a => a = .fork) (v.localAt (T, w)).stream
      (Local.processSeal T w (v.localAt (T, w))).stream := .processSeal
    apply hmoves.growth
    rintro a rfl
    simp [Stream.Forward]
  | cert cert =>
    obtain ⟨writers, n, hlists, rfl⟩ := h
    change (v.streams k).Conserves false _ (View.streams (v.certify env cert writers) k)
    rw [View.certify_streams hlists.nodup]
    have hwriter : (v.streams k).head.writer = k.2 := congrArg Prod.snd (hid k)
    split
    next hmem =>
      have hlisted : (v.streams k).listed = true := by
        have hk : k = (cert.topic, k.2) := Prod.ext hmem.1 rfl
        rw [hk]
        exact (hlists.mem k.2).1 hmem.2
      apply Stream.certified_conserves v.now
      intro s
      rw [hwriter]
      exact ⟨fun h => ⟨h.1, h.2.2.2⟩, fun h => ⟨h.1, hmem.1, hlisted, h.2⟩⟩
    next hmem =>
      apply hsame
      rintro s ⟨-, htopic, hlisted, -⟩
      apply hmem
      refine ⟨htopic, (hlists.mem k.2).2 ?_⟩
      rw [← htopic]
      exact hlisted
  | directive d =>
    obtain rfl := h
    rw [View.onStream, View.storeDirective_localAt]
    by_cases hk : k = (d.topic, d.writer)
    · subst hk
      rw [View.withLocal_streams_self]
      apply Local.direct_conserves (L := v.localAt (d.topic, d.writer))
      exact fun s => ⟨fun h => ⟨h.1, h.2.2⟩, fun h => ⟨h.1, rfl, h.2⟩⟩
    · rw [View.withLocal_streams_of_ne _ hk, View.storeDirective_streams]
      exact hsame fun s hs => hk hs.2.1
  | adopt T cut =>
    obtain rfl := h
    have hmoves : v.Moves env (fun _ a => ∃ s, a = .jump s) (v.adopt T cut.rows) :=
      .adopt fun c _ => ⟨c.seq, rfl⟩
    apply Stream.Growth.conserves _ fun _ hs => hs.2
    apply (hmoves k).growth
    rintro a ⟨s, rfl⟩
    simp [Stream.Forward]
  | retireTopic T known =>
    rcases h with ⟨e, rfl⟩ | ⟨-, n, rfl⟩
    · exact hsame fun _ hs => hs.2
    · change (v.streams k).Conserves false _ (View.streams (v.retireTopic env T) k)
      rw [View.retireTopic]
      dsimp only
      split
      next hT => exact ⟨(hid k).symm, fun _ _ hs => hs.2.elim, fun _ _ => rfl, fun _ _ _ _ => rfl⟩
      next => exact hsame fun _ hs => hs.2
  | adoptFloor T w s chain known =>
    obtain rfl := h
    apply hlocal fun _ _ hs => hs.2
    rintro rfl
    apply Stream.Growth.conserves _ fun _ hs => hs.2
    split
    next =>
      apply (Stream.Moves.adoptFloor (L := v.localAt (T, w))).growth
      intro a ha
      cases a with
      | rewind => exact ha.elim
      | thin => exact ha.elim
      | vacate => exact ha.elim
      | _ => simp [Stream.Forward]
    next => exact .refl _
  | pruneTopic => exact View.Pruned.conserves h (fun _ hs => hs.2) k
  | pruneSuperseded => exact View.Pruned.conserves h (fun _ hs => hs.2) k
  | pruneAcked => exact View.Pruned.conserves h (fun _ hs => hs.2) k

/-- The entry is in quarantine, at its place. -/
def Txn.Quarantined (t : Txn) (k : StreamId) (s : Nat) (e : LogEntry) : Prop :=
  ∃ r, t.core.db.sqQuarantine.get (k.1, k.2, s) = some r ∧ r.entry = e

/-- The item sends no other entry to the place in quarantine. -/
def Queued.Spares (k : StreamId) (s : Nat) (e : LogEntry) (q : Queued env) (v : View) : Prop :=
  ∀ e', q.2.Quarantines v k s → (v.streams k).rows s = some e' → e' = e

/-- Heads under their own ids, and an entry in quarantine. -/
def View.Keeping (k : StreamId) (s : Nat) (e : LogEntry) (v : View) : Prop :=
  (∀ k, (v.streams k).head.stream = k) ∧ ∃ r, (v.streams k).quarantine s = some r ∧ r.entry = e

theorem View.Keeping.of_streams (h : v.Keeping k s e)
    (hhead : ∀ k, (v'.streams k).head.stream = (v.streams k).head.stream)
    (hquarantine : ∀ k, (v'.streams k).quarantine = (v.streams k).quarantine) :
    v'.Keeping k s e := by
  refine ⟨fun k => (hhead k).trans (h.1 k), ?_⟩
  rw [hquarantine k]
  exact h.2

/-- An entry stays in quarantine under an item that spares its place. -/
theorem ItemStep.keeping {q : Queued env} (h : ItemStep env exact q.2 { v with now := q.1.now } v')
    (hv : v.Keeping k s e) (hspares : q.Spares k s e v) : v'.Keeping k s e := by
  have hconserves := h.conserves hv.1
  refine ⟨fun k => (hconserves k).id.trans (hv.1 k), ?_⟩
  cases hrow : (v.streams k).rows s with
  | none =>
    rw [(hconserves k).keeps s fun _ => hrow]
    exact hv.2
  | some e' =>
    by_cases hparked : q.2.Quarantines v k s
    · obtain rfl := hspares e' hparked hrow
      exact (hconserves k).parks s e' hparked hrow
    · rw [(hconserves k).keeps s fun hs => absurd hs hparked]
      exact hv.2

theorem Later.keeping (h : Later env (Queued.Spares k s e) t u) (ht : Ready env t)
    (hheld : t.Quarantined k s e) : Ready env u ∧ u.Quarantined k s e := by
  have hkept := h.preserves (I := View.Keeping k s e) ht ⟨t.core.head_stream env, hheld⟩
    (fun v v' hsame hI => hI.of_streams (fun _ => by rw [hsame.1]) fun _ => by rw [hsame.1])
    (fun q v v' hI hQ hstep => hstep.keeping hI hQ)
    (fun v v' hthin hI => hI.of_streams
      (fun k => congrArg WriterRow.stream (hthin.streams k).head)
      fun k => (hthin.streams k).quarantine)
    fun v v' _ _ hk hI => hI.of_streams
      (fun k => by rcases hk k with hk | hk | hk <;> rw [hk] <;> rfl)
      fun k => by rcases hk k with hk | hk | hk <;> rw [hk] <;> rfl
  exact ⟨hkept.1, hkept.2.2⟩

/-- A row at or below its stream's head, taken out of the log by anything but pruning, is in
quarantine from then on as long as no item sends another entry to its place there; the first one
that does replaces it. -/
theorem quarantine_conserves (ht : MidBatch env t) (q : Queued env)
    (hrun : processQueued env q t = .ok () t₁) (hprunes : q.2.prunes = false)
    (hrow : (t.core.stream env k).rows s = some e) (hheld : s ≤ (t.core.head env k).contigSeq)
    (hgone : (t₁.core.stream env k).rows s ≠ some e) :
    (∀ u, Later env (Queued.Spares k s e) t₁ u → u.Quarantined k s e) ∧
    ∀ u q' u', Later env (fun _ _ => True) t₁ u → processQueued env q' u = .ok () u' →
      ¬ q'.Spares k s e (u.view env) → ¬ u'.Quarantined k s e := by
  have hstep {q : Queued env} {u u' : Txn} (hu : Ready env u)
      (hrun : processQueued env q u = .ok () u') : Ready env u' ∧
        ((u.view env).streams k).Conserves q.2.prunes (q.2.Quarantines (u.view env) k)
          ((u'.view env).streams k) := by
    have hspec := processQueued_spec False True q hu False.elim fun _ => trivial
    obtain ⟨-, hu', hitem⟩ := hspec.of_ok hrun
    exact ⟨hu', hitem.conserves (u.core.head_stream env) k⟩
  obtain ⟨ht₁, hconserves⟩ := hstep ht.ready hrun
  have hparked : q.2.Quarantines (t.view env) k s := by
    by_contra hspared
    exact hgone ((hconserves.spares hprunes s hheld hspared).trans hrow)
  refine ⟨fun u hlater => (hlater.keeping ht₁ (hconserves.parks s e hparked hrow)).2,
    fun u q' u' hlater hrun' hother => ?_⟩
  have hu := (hlater.preserves (I := fun _ => True) ht₁ trivial (fun _ _ _ _ => trivial)
    (fun _ _ _ _ _ _ => trivial) (fun _ _ _ _ => trivial) fun _ _ _ _ _ _ => trivial).1
  rintro ⟨r, hr, rfl⟩
  apply hother
  intro e' hparked' hrow'
  obtain ⟨r', hr', rfl⟩ := (hstep hu hrun').2.parks s e' hparked' hrow'
  exact congrArg QuarantineRow.entry (Option.some.inj (hr'.symm.trans hr))

/-- Every stream agrees with an end before its first entry. -/
theorem Stream.Agrees.of_empty (hseq : d.finalSeq = some 0)
    (hchain : d.finalChain = some (seedOf env d.topic d.writer))
    (hid : S.head.stream = (d.topic, d.writer)) : S.Agrees env d := by
  have hend : (directiveTarget env d).finalSeq = 0 := by rw [directiveTarget, hseq, Option.getD_some]
  have hfinal : (directiveTarget env d).finalChain = seedOf env d.topic d.writer := by
    rw [directiveTarget, hchain, Option.getD_some]
  have htopic : S.head.topic = d.topic := congrArg Prod.fst hid
  have hwriter : S.head.writer = d.writer := congrArg Prod.snd hid
  rw [Agrees, hend, hfinal, chainAtEnd, if_neg fun hpos => hpos.1 rfl, chainHeldAt, if_pos rfl, htopic,
    hwriter]
  exact ⟨Nat.zero_le _, rfl⟩

/-- A retirement of `w` below all of its entries. -/
def retireEmpty (rgen : Nat) : WriterDirective :=
  hostDirective .retired rgen (some 0) (some (seedOf (hostEnv "b") "t" "w"))

theorem quarantine_conserves_of_truncation : ∃ t t₁ e,
    processQueued (hostEnv "b") ({ now := 21 }, .directive (retireEmpty 1)) t = .ok () t₁ ∧
    (t.core.stream (hostEnv "b") ("t", "w")).rows 1 = some e ∧ t₁.Quarantined ("t", "w") 1 e := by
  have hreach : MidBatch (hostEnv "b")
      (Txn.start (runCore (hostEnv "b") Core.init firstFlush) none) := ⟨firstFlush, [], none, rfl⟩
  have hheld : 1 ≤ ((runCore (hostEnv "b") Core.init firstFlush).head (hostEnv "b")
      ("t", "w")).contigSeq := by decide +kernel
  have hsome : ((runCore (hostEnv "b") Core.init firstFlush).db.sqLog.get ("t", "w", 1)).isSome := by
    decide +kernel
  have hrgen : ((runCore (hostEnv "b") Core.init firstFlush).head (hostEnv "b")
      ("t", "w")).rgen < 1 := by decide +kernel
  have hnone : (runCore (hostEnv "b") Core.init firstFlush).db.sqDirectives.get
      (retireEmpty 1).id = none := by decide +kernel
  generalize runCore (hostEnv "b") Core.init firstFlush = core at *
  obtain ⟨r, hr⟩ := Option.isSome_iff_exists.1 hsome
  have hrow : (core.stream (hostEnv "b") ("t", "w")).rows 1 = some r.entry :=
    congrArg (Option.map LogRow.entry) hr
  obtain ⟨t₁, hrun, -⟩ := exists_delivered hreach.ready rfl { now := 21 } (retireEmpty 1)
  have hdelivered := delivered hreach.ready _ hrun
  have hcuts : Stream.Truncates (hostEnv "b")
      (((Txn.start core none).view (hostEnv "b")).localAt ("t", "w")).stream
      (core.db.sqDirectives.get (retireEmpty 1).id) (retireEmpty 1) := by
    refine ⟨fun s hs => ?_, rfl, .of_empty rfl rfl (core.head_stream ..), .inl hrgen⟩
    rw [hnone] at hs
    cases hs
  have hgone : (t₁.core.stream (hostEnv "b") ("t", "w")).rows 1 ≠ some r.entry := by
    have hrows : (t₁.core.stream (hostEnv "b") ("t", "w")).rows 1 = none := by
      rw [show t₁.core.stream (hostEnv "b") ("t", "w") = _ from hdelivered.stream]
      exact Local.rows_direct hcuts Nat.zero_lt_one
    rw [hrows]
    exact nofun
  have hledger := quarantine_conserves hreach _ hrun rfl hrow hheld hgone
  exact ⟨_, t₁, r.entry, hrun, hrow, hledger.1 t₁ .now⟩

/-- The writer starts again, and is retired below its new entry too. -/
theorem second_branch_replaces_first :
    let retired := runCore (hostEnv "b") Core.init
      (firstFlush ++ [hostFlush "b" 21 [.directive (retireEmpty 1)]])
    let again := runCore (hostEnv "b") retired
      [hostFlush "b" 22 [.directive (hostDirective .live 2 none none),
          hostExternal "b" "w" 1 1 "j"
            "ed8b8de45a44cd70fe87603c4e1e81f63b38872da675f76f655f80f72290cb7a" valid_otherFirst],
        hostFlush "b" 23 [.directive (retireEmpty 3)]]
    (retired.db.sqLog.rows.map fun r => r.entry.chain) = [] ∧
    ((retired.db.sqQuarantine.get ("t", "w", 1)).map fun r => r.entry.chain) =
      some "2b9b9a7838c39f166c0015237d70501dc4ea31d32bf5c34ee8c0d5d8bdf67e27" ∧
    (again.db.sqQuarantine.rows.map fun r => r.entry.chain) =
      ["ed8b8de45a44cd70fe87603c4e1e81f63b38872da675f76f655f80f72290cb7a"] ∧
    again.db.sqLog.rows.length = 0 ∧ again.db.sqArchive.rows.length = 0 := by
  decide +kernel

end Seqscribe
