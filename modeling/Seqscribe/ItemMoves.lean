import Seqscribe.Moves

namespace Seqscribe
set_option autoImplicit true

variable {env : Env} {L L' : Local} {S S' : Stream} {v v' : View} {P : Act → Prop}

namespace Stream

/-- What the next entry's clock is held against: the entry at the head, where its row is kept. -/
def heldHlc (env : Env) (e : LogEntry) : Option Hlc := if env.isFull e.topic then some e.hlc else none

/-- The pending entry right after a position extends it. -/
def Follows (env : Env) (S : Stream) (s : Nat) (chain : Chain) (hlc : Option Hlc) (e : LogEntry) :
    Prop :=
  S.pendingAt (s + 1) = some e ∧ chainOf env chain e = e.chain ∧
    hlc.all (fun h => decide (hlcCompare h e.hlc ≤ 0)) = true

/-- The pending entries that follow a position without a gap. -/
inductive Released (env : Env) (S : Stream) : Nat → Chain → Option Hlc → LogEntry → Prop
  | next (h : S.Follows env s chain hlc e) : Released env S s chain hlc e
  | later (h : S.Follows env s chain hlc e) (h' : Released env S e.seq e.chain (heldHlc env e) e') :
      Released env S s chain hlc e'

theorem Released.mono (h : S'.Released env s chain hlc e)
    (hsub : ∀ s e, S'.pendingAt s = some e → S.pendingAt s = some e) :
    S.Released env s chain hlc e := by
  induction h with
  | next h => exact .next ⟨hsub _ _ h.1, h.2⟩
  | later h _ ih => exact .later ⟨hsub _ _ h.1, h.2⟩ ih

/-- A recovering stream takes a canonical entry: right after its head, or where it diverges. -/
def Recovers (env : Env) (S : Stream) (e : LogEntry) : Prop :=
  e.seq = S.head.contigSeq + 1 ∧ chainOf env (S.head.prevChain env) e = e.chain ∨
    e.seq ≤ S.head.contigSeq ∧ (∀ stored, S.rows e.seq = some stored → stored.chain ≠ e.chain) ∧
      chainOf env (if e.seq - 1 = 0 then seedOf env S.head.topic S.head.writer
        else S.rewoundChain env (e.seq - 1)) e = e.chain

/-- A sealed stream recovers up to a position at or beyond the entry. -/
def Recovering (S : Stream) (e : LogEntry) : Prop :=
  S.head.sealReason ≠ none ∧ ∃ target, S.recovery = some target ∧ e.seq ≤ target.finalSeq

/-- The stream is past the entry and does not hold it. -/
def Diverges (S : Stream) (e : LogEntry) : Prop :=
  e.seq ≤ S.head.contigSeq ∧ ∀ stored, S.rows e.seq = some stored → stored.chain ≠ e.chain

/-- The stream reaches the declared end of a directive with its chain. -/
def Agrees (env : Env) (S : Stream) (d : WriterDirective) : Prop :=
  let target := directiveTarget env d
  target.finalSeq ≤ S.head.contigSeq ∧ S.chainAtEnd env target.finalSeq = some target.finalChain

/-- The directive is newer than the stream's generation, or the stream is forked. -/
def Heeds (S : Stream) (d : WriterDirective) : Prop :=
  S.head.rgen < d.rgen ∨ S.head.sealReason = some .fork

/-- What an external entry can do to its stream. -/
def Ingests (env : Env) (S : Stream) (cert : Option FinalityCert) (e : LogEntry) : Act → Prop
  | .advance e' =>
    if S.head.sealReason = none then
      (∀ c, cert = some c → ¬ OutsideCover c e) ∧ e.seq = S.head.contigSeq + 1 ∧ S.Accepts env e ∧
        (e' = e ∨ S.Released env e.seq e.chain (heldHlc env e) e')
    else e' = e ∧ S.Recovers env e ∧ ∃ target, S.recovery = some target ∧ e.seq ≤ target.finalSeq
  | .rewind s => S.head.sealReason ≠ none ∧ s + 1 = e.seq ∧ e.seq ≤ S.head.contigSeq
  | .fork => S.head.sealReason = none
  | .retire target => S.head.sealReason ≠ none ∧ S.recovery = some target
  | .seek target => target = none
  | .shelve => True
  | _ => False

/-- What an append can do to its stream. -/
def Appends (env : Env) (S : Stream) (item : AppendItem env) (clock : HlcState) (now : Nat) :
    Act → Prop
  | .advance e => S.head.sealReason = none ∧ ∃ state hlc causal,
      stamp clock now = .ok (state, hlc) ∧ e = Local.appendEntry env item hlc causal S
  | _ => False

/-- What a directive can do to its stream. -/
def Directed (env : Env) (S : Stream) (d : WriterDirective) : Act → Prop
  | .revive rgen =>
    d.state = .live ∧ rgen = d.rgen ∧ S.head.sealReason ≠ some .fork ∧ S.head.rgen < d.rgen
  | .rewind s => d.state = .retired ∧ s = (directiveTarget env d).finalSeq
  | .retire target => d.state = .retired ∧ target = directiveTarget env d ∧
      (S.head.rgen < d.rgen ∨ S.head.sealReason = some .fork)
  | .seek target => target = none ∨ d.state = .retired ∧ target = some (directiveTarget env d) ∧
      (S.head.rgen < d.rgen ∨ S.head.sealReason = some .fork)
  | .fork => d.state = .retired
  | _ => False

/-- What an adopted floor can do to its stream. -/
def Floored (env : Env) (S : Stream) (s : Nat) (chain : Chain) : Act → Prop
  | .advance e => S.head.sealReason = none ∧ S.head.contigSeq < s ∧
      (∀ target, S.recovery = some target → contradictsTarget target s chain = false) ∧
      S.Released env s chain none e
  | .jump s' => s' = s
  | .fork => S.head.sealReason = none
  | .retire target => S.recovery = some target
  | .seek target => target = none
  | .shelve => True
  | _ => False

end Stream

namespace Stream.Moves

theorem verifyAndApply (hid : e.stream = L.stream.head.stream)
    (hseq : e.seq = L.stream.head.contigSeq + 1) (hadv : L.stream.Accepts env e → P (.advance e))
    (hfork : P .fork) : L.stream.Moves env P (L.verifyAndApply env e via).1.stream := by
  unfold Local.verifyAndApply
  split
  · next hacc => exact one (hadv hacc) (.advance L.stream e hid hseq hacc.1)
  · exact one hfork (.fork L.stream)

/-- The drain applies what is released after the head, and forks at most. -/
theorem drain (hlc : Option Hlc)
    (hhlc : ∀ h, hlc = some h → 0 < L.stream.head.contigSeq ∧
      ∃ p, L.stream.rows L.stream.head.contigSeq = some p ∧ p.hlc = h)
    (hadv : ∀ e, L.stream.Released env L.stream.head.contigSeq (L.stream.head.prevChain env) hlc e →
      P (.advance e)) (hfork : P .fork) (hshelve : P .shelve) :
    L.stream.Moves env P (L.drain env via fuel).stream := by
  induction fuel generalizing L hlc with
  | zero => exact refl _
  | succ fuel ih =>
    unfold Local.drain
    cases hnext : L.stream.pendingAt (L.stream.head.contigSeq + 1) with
    | none => exact refl _
    | some next =>
      have hkey := Table.key_of_get hnext
      have hid : next.stream = L.stream.head.stream :=
        congrArg (fun id : EntryId => (id.1, id.2.1)) hkey
      have hseq : next.seq = L.stream.head.contigSeq + 1 :=
        congrArg (fun id : EntryId => id.2.2) hkey
      have hfollows : (L.stream.unpend next.seq).Accepts env next →
          L.stream.Follows env L.stream.head.contigSeq (L.stream.head.prevChain env) hlc next := by
        rintro ⟨hchain, hold⟩
        refine ⟨hnext, hchain, ?_⟩
        cases hh : hlc with
        | none => rfl
        | some h =>
          obtain ⟨hpos, p, hp, rfl⟩ := hhlc h hh
          have hold : (L.stream.rows L.stream.head.contigSeq).all _ = true := hold hpos
          rw [hp] at hold
          exact hold
      have hunpend : L.stream.Moves env P (L.stream.unpend next.seq) :=
        one hshelve (.shelve L.stream (L.stream.unpend next.seq).pending L.stream.floor)
      have hstep : L.stream.Moves env P
          ((L.map (Stream.unpend next.seq)).verifyAndApply env next via).1.stream :=
        hunpend.trans (verifyAndApply (L := L.map (Stream.unpend next.seq)) hid hseq
          (fun hacc => hadv next (.next (hfollows hacc))) hfork)
      dsimp only
      by_cases hacc : (L.stream.unpend next.seq).Accepts env next
      swap
      · rw [if_pos (by simp [Local.verifyAndApply, Local.map, hacc])]
        exact hstep
      have hv : (L.map (Stream.unpend next.seq)).verifyAndApply env next via =
          ((L.map (Stream.unpend next.seq)).advance env next via, .applied) := if_pos hacc
      rw [hv] at hstep ⊢
      rw [if_neg (by simp)]
      have hpos : 0 < next.seq := by omega
      refine hstep.trans (ih (heldHlc env next) ?_ fun e he => ?_)
      · intro h hh
        unfold heldHlc at hh
        split at hh
        · next hfull =>
          refine ⟨hpos, next, ?_, Option.some.inj hh⟩
          exact (Stream.rows_put env _ next next.seq).trans (if_pos ⟨hfull, rfl⟩)
        · cases hh
      · refine hadv e (.later (hfollows hacc) ?_)
        have hprev : WriterRow.prevChain env ((L.map (Stream.unpend next.seq)).advance env next
            via).stream.head = next.chain := by
          refine if_neg ?_
          exact Nat.ne_of_gt hpos
        rw [hprev] at he
        have he : Stream.Released env _ next.seq next.chain (heldHlc env next) e := he
        refine he.mono fun s e' hget => ?_
        have hget : ((L.stream.unpend next.seq).advance env next).pendingAt s = some e' := hget
        rw [Stream.pendingAt_advance, Stream.pendingAt_unpend] at hget
        split at hget
        · cases hget
        · exact hget

theorem recoveryExtend (hid : e.stream = L.stream.head.stream)
    (hadv : e.seq = L.stream.head.contigSeq + 1 →
      chainOf env (L.stream.head.prevChain env) e = e.chain → P (.advance e))
    (hretire : P (.retire target)) (hseek : P (.seek none)) :
    L.stream.Moves env P (L.recoveryExtend env e target via now).stream := by
  unfold Local.recoveryExtend
  split
  · exact refl _
  · next hseq =>
    split
    · exact refl _
    · next hchain =>
      have hseq := not_not.1 hseq
      have hchain := not_not.1 hchain
      have hmoves : L.stream.Moves env P (L.advance env e via).stream :=
        one (hadv hseq hchain) (.advance L.stream e hid hseq hchain)
      dsimp only
      split
      · exact (hmoves.tail hretire (.retire _ target now)).tail hseek (.seek _ none)
      · exact hmoves

theorem rewound (hseal : L.stream.head.sealReason ≠ none) (hpos : 0 < e.seq)
    (hle : e.seq ≤ L.stream.head.contigSeq) :
    L.stream.Move env (.rewind (e.seq - 1)) (L.recoveryRewind env e now).stream := by
  obtain ⟨why, hwhy⟩ := Option.ne_none_iff_exists'.1 hseal
  have hs : e.seq - 1 + 1 = e.seq := by omega
  have hmove : L.stream.Move env _ _ := .rewind L.stream (e.seq - 1) L.stream.head.contigSeq
    ((L.stream.quarantineFrom e.seq L.stream.head.contigSeq .canonicalized now).rewoundChain env
      (e.seq - 1)) why .canonicalized now (by omega) (.inr fun held hheld => by
    rw [Stream.rewoundChain, Stream.chainHeldAt_quarantineFrom _ _ (by omega), hheld]
    rfl)
  rw [hs, ← hwhy] at hmove
  exact hmove

theorem prevChain_rewound (hpos : 0 < e.seq) :
    (L.recoveryRewind env e now).stream.head.prevChain env =
      if e.seq - 1 = 0 then seedOf env L.stream.head.topic L.stream.head.writer
      else L.stream.rewoundChain env (e.seq - 1) := by
  change (if e.seq - 1 = 0 then seedOf env L.stream.head.topic L.stream.head.writer else
    Stream.rewoundChain env (L.stream.quarantineFrom e.seq _ _ _) (e.seq - 1)) = _
  rw [Stream.rewoundChain, Stream.chainHeldAt_quarantineFrom _ _ (by omega)]
  rfl

theorem recoveryIngest (hid : e.stream = L.stream.head.stream) (hpos : 0 < e.seq)
    (hseal : L.stream.head.sealReason ≠ none) (hadv : L.stream.Recovers env e → P (.advance e))
    (hrewind : L.stream.Diverges e → P (.rewind (e.seq - 1)))
    (hretire : P (.retire target)) (hseek : P (.seek none)) :
    L.stream.Moves env P (L.recoveryIngest env e target via now).stream := by
  unfold Local.recoveryIngest
  split
  · next hle =>
    split
    · exact refl _
    · next hdiff =>
      have hdiverges : L.stream.Diverges e := by
        refine ⟨hle, fun stored hstored hc => hdiff ?_⟩
        rw [hstored]
        exact decide_eq_true hc
      refine (one (hrewind hdiverges) (rewound hseal hpos hle)).trans
        (recoveryExtend (L := L.recoveryRewind env e now) hid (fun _ hchain => hadv ?_)
          hretire hseek)
      refine .inr ⟨hle, hdiverges.2, ?_⟩
      rwa [prevChain_rewound hpos] at hchain
  · exact recoveryExtend hid (fun hseq hchain => hadv (.inl ⟨hseq, hchain⟩)) hretire hseek

theorem recheck (hfork : P .fork) : L.stream.Moves env P (L.recheck e).stream := by
  unfold Local.recheck
  split
  · split
    · exact refl _
    · exact one hfork (.fork L.stream)
  · exact refl _

theorem extend (hid : e.stream = L.stream.head.stream)
    (hseq : e.seq = L.stream.head.contigSeq + 1)
    (hadv : ∀ e', L.stream.Accepts env e →
      e' = e ∨ L.stream.Released env e.seq e.chain (Stream.heldHlc env e) e' → P (.advance e'))
    (hfork : P .fork) (hshelve : P .shelve) :
    L.stream.Moves env P (L.extend env e via now).stream := by
  unfold Local.extend Local.verifyAndApply
  dsimp only
  split
  · next hacc =>
    rw [if_pos rfl]
    have hmerge : (Local.mergeClock env e now (L.advance env e via)).stream =
      (L.advance env e via).stream := Local.stream_mergeClock _
    have hhead : (L.advance env e via).stream = L.stream.advance env e := rfl
    have hpos : e.seq ≠ 0 := by omega
    refine (one (hadv e hacc (.inl rfl)) (.advance L.stream e hid hseq hacc.1)).trans ?_
    change Stream.Moves env P (L.advance env e via).stream _
    rw [← hmerge]
    refine drain (Stream.heldHlc env e) ?_ ?_ hfork hshelve
    · intro h hh
      rw [hmerge]
      unfold Stream.heldHlc at hh
      split at hh
      · next hfull =>
        refine ⟨Nat.pos_of_ne_zero hpos, e, ?_, Option.some.inj hh⟩
        exact (Stream.rows_put env _ e e.seq).trans (if_pos ⟨hfull, rfl⟩)
      · cases hh
    · intro e' he'
      rw [hmerge, hhead] at he'
      rw [show WriterRow.prevChain env (L.stream.advance env e).head = e.chain from
        if_neg hpos] at he'
      refine hadv e' hacc (.inr (he'.mono fun s e'' hget => ?_))
      rwa [Stream.pendingAt_advance] at hget
  · exact one hfork (.fork L.stream)

theorem postpone (hfork : P .fork) (hshelve : P .shelve) :
    L.stream.Moves env P (L.postpone env e now).stream := by
  unfold Local.postpone
  split
  · split
    · exact refl _
    · exact one hfork (.fork L.stream)
  · split
    · exact refl _
    · change Stream.Moves env P L.stream
        (Local.mergeClock env e now (L.map (Stream.pend e))).stream
      rw [Local.stream_mergeClock]
      exact one hshelve (.shelve L.stream (L.stream.pend e).pending L.stream.floor)

/-- An external entry rewinds only a recovering stream that diverges from it. -/
theorem ingest_of (hid : e.stream = L.stream.head.stream) (hpos : 0 < e.seq)
    (hP : ∀ a, L.stream.Ingests env cert e a →
      (∀ s, a = .rewind s → L.stream.Recovering e ∧ L.stream.Diverges e) → P a) :
    L.stream.Moves env P (L.ingest env cert e via now).stream := by
  unfold Local.ingest
  split
  · next hseal =>
    split
    · next target htarget =>
      split
      · next hle =>
        refine recoveryIngest hid hpos hseal (fun hrec => hP _ ?_ nofun) (fun hdiv => hP _ ?_ ?_)
          (hP _ ⟨hseal, htarget⟩ nofun) (hP _ rfl nofun)
        · refine (if_neg hseal).mpr ⟨rfl, hrec, target, htarget, hle⟩
        · exact ⟨hseal, Nat.succ_pred_eq_of_pos hpos, hdiv.1⟩
        · exact fun _ _ => ⟨⟨hseal, target, htarget, hle⟩, hdiv⟩
      · exact refl _
    · exact refl _
  · next hopen =>
    have hopen := not_not.1 hopen
    have hfork : P .fork := hP _ hopen nofun
    have hshelve : P .shelve := hP _ trivial nofun
    split
    · exact refl _
    · next hcover =>
      split
      · exact recheck hfork
      · split
        · next hseq =>
          refine extend hid hseq (fun e' hacc he' => hP _ ?_ nofun) hfork hshelve
          refine (if_pos hopen).mpr ⟨fun c hc hout => hcover ?_, hseq, hacc, he'⟩
          rw [hc]
          exact decide_eq_true hout
        · exact postpone hfork hshelve

theorem ingest (hid : e.stream = L.stream.head.stream) (hpos : 0 < e.seq) :
    L.stream.Moves env (L.stream.Ingests env cert e) (L.ingest env cert e via now).stream :=
  ingest_of hid hpos fun _ ha _ => ha

theorem processSeal : L.stream.Moves env (fun a => a = .fork) (L.processSeal T w).stream := by
  unfold Local.processSeal
  split
  · exact one rfl (.fork L.stream)
  · exact refl _

theorem certStream (hS : L.stream.Sound k) :
    L.stream.Moves env (fun a => a = .fork ∨ a = .rewind (cert.cutSeq k.2))
      (L.certStream env cert now).stream := by
  have hw : L.stream.head.writer = k.2 := hS.writer
  have hforked : L.stream.Moves env (fun a => a = .fork ∨ a = .rewind (cert.cutSeq k.2))
      (L.sealForked cert.topic).stream := by
    unfold Local.sealForked
    split
    · exact one (.inl rfl) (.fork L.stream)
    · exact refl _
  unfold Local.certStream
  dsimp only
  split
  · next hlate =>
    obtain ⟨s, e, hrow, -, hcut⟩ := hlate
    rw [show e.writer = k.2 from congrArg Prod.snd (hS.row_stream hrow),
      hS.row_seq hrow] at hcut
    have hs := hS.row_le hrow
    have hrewind := fun why => Stream.Move.rewind L.stream (cert.cutSeq k.2)
      L.stream.head.contigSeq (L.stream.cutChain env cert) why .postCut now (by omega)
      (.inr fun held hheld => by rw [Stream.cutChain, hw, hheld]; rfl)
    rw [hw]
    unfold Local.sealForked
    split
    · exact one (.inr rfl) (hrewind .fork)
    · next hseal =>
      obtain ⟨why, hwhy⟩ := Option.ne_none_iff_exists'.1 hseal
      have hwhy : L.stream.head.sealReason = some why := hwhy
      have h := hrewind why
      rw [← hwhy] at h
      exact one (.inr rfl) h
  · split
    · exact hforked
    · exact refl _

theorem processRetired (hstate : d.state = .retired) (hgate : L.stream.Heeds d)
    (hP : ∀ a, L.stream.Directed env d a →
      (∀ s, a = .rewind s → L.stream.Agrees env d ∧ L.stream.Heeds d) → P a) :
    L.stream.Moves env P (L.processRetired env d now).stream := by
  unfold Local.processRetired
  dsimp only
  split
  · next hagree =>
    obtain ⟨hle, hchain⟩ := hagree
    have hnone : P (.seek none) := hP _ (.inl rfl) nofun
    refine ((one ?_ (.rewind L.stream (directiveTarget env d).finalSeq L.stream.head.contigSeq
      (directiveTarget env d).finalChain .fork .canonicalized now hle ?_)).tail ?_
      (.retire _ (directiveTarget env d) now)).tail hnone (.seek _ none)
    · exact hP _ ⟨hstate, rfl⟩ fun _ _ => ⟨⟨hle, hchain⟩, hgate⟩
    · unfold Stream.chainAtEnd at hchain
      split at hchain
      · next hend => exact .inl ⟨hend.2, (Option.some.inj hchain).symm⟩
      · exact .inr fun held hheld => Option.some.inj (hchain.symm.trans hheld)
    · exact hP _ ⟨hstate, rfl, hgate⟩ nofun
  · have hseek : P (.seek (some (directiveTarget env d))) :=
      hP _ (.inr ⟨hstate, rfl, hgate⟩) nofun
    split
    · have hfork : P .fork := hP .fork hstate nofun
      exact (one hfork (.fork L.stream)).tail hseek (.seek _ _)
    · exact one hseek (.seek _ _)

/-- A directive rewinds only a stream that agrees with its declared end. -/
theorem direct_of
    (hP : ∀ a, (∀ s, stored = some s → s = d.stringify) ∧ L.stream.Directed env d a →
      (∀ s, a = .rewind s → L.stream.Agrees env d ∧ L.stream.Heeds d) → P a) :
    L.stream.Moves env P (L.direct env stored d now).stream := by
  unfold Local.direct
  split
  · exact refl _
  next hconflict =>
  have hsame : ∀ s, stored = some s → s = d.stringify := by
    intro s hs
    by_contra hne
    rw [hs] at hconflict
    exact hconflict (decide_eq_true hne)
  split
  · exact refl _
  next hgate =>
  split
  · next hstate =>
    split
    · exact refl _
    · next hfork =>
      have hgen : L.stream.head.rgen < d.rgen := by
        by_contra hle
        exact hgate ⟨Nat.le_of_not_lt hle, hfork⟩
      have hrevive : P (.revive d.rgen) := hP _ ⟨hsame, hstate, rfl, hfork, hgen⟩ nofun
      have hnone : P (.seek none) := hP _ ⟨hsame, .inl rfl⟩ nofun
      exact (one hrevive (.revive L.stream d.rgen)).tail hnone (.seek _ none)
  · next hstate =>
    refine processRetired hstate ?_ fun a ha hagree => hP a ⟨hsame, ha⟩ hagree
    by_contra hnone
    rw [Stream.Heeds, not_or] at hnone
    exact hgate ⟨Nat.le_of_not_lt hnone.1, hnone.2⟩

theorem direct : L.stream.Moves env
    (fun a => (∀ s, stored = some s → s = d.stringify) ∧ L.stream.Directed env d a)
    (L.direct env stored d now).stream :=
  direct_of fun _ ha _ => ha

theorem adopt : L.stream.Moves env (fun a => a = .jump s) (L.adopt s chain).stream := by
  unfold Local.adopt
  split
  · next hlt => exact one rfl (.jump L.stream s chain hlt)
  · exact refl _

theorem jumpToFloor (hlt : L.stream.head.contigSeq < s) (hjump : P (.jump s))
    (hretire : ∀ target, L.stream.recovery = some target → P (.retire target))
    (hseek : P (.seek none)) (hshelve : P .shelve) :
    L.stream.Moves env P (L.jumpToFloor s chain now).stream := by
  have hjumped : L.stream.Moves env _ _ := one hjump (.jump L.stream s chain hlt)
  unfold Local.jumpToFloor
  cases hreached : L.stream.recovery.filter fun tgt => decide (s = tgt.finalSeq) with
  | none =>
    obtain ⟨floor, hfloor⟩ := Stream.raiseFloor_eq
      (L.stream.saveHead { L.stream.head with contigSeq := s, contigChain := chain }) s chain
    have h := hjumped.tail hshelve (.shelve _
      (L.stream.pending.filter fun e => !decide (e.seq ≤ s)) floor)
    have heq := congrArg (Stream.dropPending s) hfloor
    exact (congrArg _ heq).mpr h
  | some tgt =>
    have htgt : L.stream.recovery = some tgt := (Option.filter_eq_some_iff.1 hreached).1
    obtain ⟨floor, hfloor⟩ := Stream.raiseFloor_eq
      ((L.stream.setRecovery none).saveHead (WriterRow.retire
        { L.stream.head with contigSeq := s, contigChain := chain } tgt now)) s chain
    have h := ((hjumped.tail (hretire tgt htgt) (.retire _ tgt now)).tail hseek
      (.seek _ none)).tail hshelve (.shelve _
        (L.stream.pending.filter fun e => !decide (e.seq ≤ s)) floor)
    have heq := congrArg (Stream.dropPending s) hfloor
    exact (congrArg _ heq).mpr h

theorem adoptFloor :
    L.stream.Moves env (L.stream.Floored env s chain) (L.adoptFloor env s chain now).stream := by
  unfold Local.adoptFloor
  split
  · exact refl _
  next hge =>
  have hlt := Nat.lt_of_not_le hge
  split
  · exact refl _
  next hseal =>
  split
  · exact refl _
  next hagree =>
  have hjump : L.stream.Moves env (L.stream.Floored env s chain)
      (L.jumpToFloor s chain now).stream :=
    jumpToFloor hlt rfl (fun target h => h) rfl trivial
  dsimp only
  split
  · next hopen =>
    obtain ⟨head, recovery, floor, ⟨hs, hchain, hid, hseal'⟩, heq⟩ := L.stream_jumpToFloor s chain now
    have hhead : (L.jumpToFloor s chain now).stream.head = head := by rw [heq]
    have hwas : L.stream.head.sealReason = none := hseal' (hhead ▸ hopen)
    refine hjump.trans (drain none ?_ ?_ hwas trivial)
    · rintro h ⟨⟩
    · intro e he
      rw [hhead, hs, show head.prevChain env = chain from (if_neg (by omega)).trans hchain] at he
      refine ⟨hwas, hlt, fun target htarget => ?_, he.mono fun s' e' hget => ?_⟩
      · rw [htarget] at hagree
        exact Bool.eq_false_iff.2 hagree
      · rw [heq] at hget
        unfold Stream.pendingAt at hget ⊢
        dsimp only at hget
        rw [Table.get_filter, show head.topic = L.stream.head.topic from congrArg Prod.fst hid,
          show head.writer = L.stream.head.writer from congrArg Prod.snd hid] at hget
        exact (Option.filter_eq_some_iff.1 hget).1
  · exact hjump

theorem append (hid : L.stream.head.stream = (item.topic, env.writerId))
    (happ : Local.Appended env item now L L') :
    L.stream.Moves env (L.stream.Appends env item L.hlcState now) L'.stream := by
  cases happ with
  | sealed => exact refl _
  | overflow => exact refl _
  | invalid => exact refl _
  | @appended state hlc causal hopen hstamp hvalid =>
    have hact : L.stream.Appends env item L.hlcState now
        (.advance (Local.appendEntry env item hlc causal L.stream)) :=
      ⟨hopen, state, hlc, causal, hstamp, rfl⟩
    exact one hact (.advance L.stream _ hid.symm rfl rfl)

end Stream.Moves

namespace View.Moves

variable {P : StreamId → Act → Prop}

/-- A certificate moves each sound stream of its topic. -/
theorem certify_at {v : View} (hS : (v.streams k).Sound k) :
    (v.streams k).Moves env
      (fun a => k.1 = cert.topic ∧ (a = .fork ∨ a = .rewind (cert.cutSeq k.2)))
      ((v.certify env cert writers).streams k) := by
  have hloop : ∀ (writers : List WriterId) (v : View), (v.streams k).Sound k →
      (v.streams k).Moves env
        (fun a => k.1 = cert.topic ∧ (a = .fork ∨ a = .rewind (cert.cutSeq k.2)))
        ((writers.foldl (fun v w =>
          v.onStream (cert.topic, w) (Local.certStream env cert v.now)) v).streams k) := by
    intro writers
    induction writers with
    | nil => exact fun v _ => .refl _
    | cons w writers ih =>
      intro v hS
      rw [List.foldl_cons]
      by_cases hk : k = (cert.topic, w)
      · have hstep : (v.streams k).Moves env
            (fun a => k.1 = cert.topic ∧ (a = .fork ∨ a = .rewind (cert.cutSeq k.2)))
            ((v.onStream (cert.topic, w) (Local.certStream env cert v.now)).streams k) := by
          subst hk
          rw [View.onStream, View.withLocal_streams_self]
          exact (Stream.Moves.certStream (L := v.localAt (cert.topic, w)) hS).mono
            fun a ha => ⟨rfl, ha⟩
        exact hstep.trans (ih _ (hS.moves hstep))
      · have hsame : (v.onStream (cert.topic, w) (Local.certStream env cert v.now)).streams k =
            v.streams k := View.withLocal_streams_of_ne _ hk
        have hrest := ih _ (hsame ▸ hS)
        rwa [hsame] at hrest
  exact hloop writers { v with certs := Function.update v.certs cert.topic (some cert) } hS

theorem adopt (hP : ∀ c ∈ cut, P (T, c.writer) (.jump c.seq)) :
    v.Moves env P (v.adopt T cut) := by
  unfold View.adopt
  induction cut generalizing v with
  | nil => exact refl v
  | cons c rest ih =>
    refine trans (withLocal (k := (T, c.writer)) ?_) (ih fun c' hc' => hP c' (List.mem_cons_of_mem _ hc'))
    refine (Stream.Moves.adopt (L := v.localAt (T, c.writer))).mono fun a ha => ?_
    rw [ha]
    exact hP c List.mem_cons_self

/-- A topic without rows loses the heads of its streams. -/
theorem retireTopic_at {v : View} (hS : (v.streams k).Sound k) (hvacant : k.1 = T → v.Vacant T) :
    (v.streams k).Moves env (fun a => k.1 = T ∧ a = .vacate)
      ((v.retireTopic env T).streams k) := by
  unfold View.retireTopic
  dsimp only
  split
  · next hT =>
    have hmove : (v.streams k).Move env .vacate _ := .vacate (v.streams k) fun s => by
      rw [show k = (T, k.2) from Prod.ext hT rfl]
      exact hvacant hT k.2 s
    rw [hS.topic, hS.writer] at hmove
    exact .one ⟨hT, rfl⟩ hmove
  · exact .refl _

end View.Moves

theorem View.storeDirective_streams (v : View) : (v.storeDirective d).streams = v.streams := by
  unfold storeDirective
  split <;> rfl

/-- The moves that an item can make on a stream, by what the item finds there. -/
def QueueItem.Does (item : QueueItem env) (v : View) (k : StreamId) (a : Act) : Prop :=
  match item with
  | .append item => k = (item.topic, env.writerId) ∧
      (v.streams k).Appends env item v.hlcState v.now a
  | .external item => k = item.entry.stream ∧
      (v.streams k).Ingests env (v.certs item.entry.topic) item.entry a
  | .sealStream T w => k = (T, w) ∧ a = .fork
  | .cert c => k.1 = c.topic ∧ (a = .fork ∨ a = .rewind (c.cutSeq k.2))
  | .directive d => k = (d.topic, d.writer) ∧
      (∀ s, v.directives d.id = some s → s = d.stringify) ∧ (v.streams k).Directed env d a
  | .adopt T cut => ∃ c ∈ cut.rows, k = (T, c.writer) ∧ a = .jump c.seq
  | .retireTopic T _ => k.1 = T ∧ a = .vacate
  | .pruneTopic .. | .pruneSuperseded .. | .pruneAcked .. => a = .thin
  | .adoptFloor T w s chain _ =>
      k = (T, w) ∧ env.ackedRetention T ∧ (v.streams k).Floored env s chain a

/-- Only a live directive revives a stream. -/
theorem QueueItem.Does.revive {item : QueueItem env} (h : item.Does v k (.revive rgen)) :
    ∃ d, item = .directive d ∧ k = (d.topic, d.writer) ∧
      (∀ s, v.directives d.id = some s → s = d.stringify) ∧ d.state = .live ∧ rgen = d.rgen ∧
      (v.streams k).head.sealReason ≠ some .fork ∧ (v.streams k).head.rgen < d.rgen := by
  cases item with
  | directive d => exact ⟨d, rfl, h⟩
  | append item => exact h.2.elim
  | external item => exact h.2.elim
  | sealStream => cases h.2
  | cert => rcases h.2 with h | h <;> cases h
  | adopt =>
    obtain ⟨c, -, -, h⟩ := h
    cases h
  | retireTopic => cases h.2
  | adoptFloor => exact h.2.2.elim
  | _ => cases h

/-- Only the retirement of its topic vacates a stream. -/
theorem QueueItem.Does.vacate {item : QueueItem env} (h : item.Does v k .vacate) :
    ∃ T known, item = .retireTopic T known ∧ k.1 = T := by
  cases item with
  | retireTopic T known => exact ⟨T, known, rfl, h.1⟩
  | directive d => exact h.2.2.elim
  | append item => exact h.2.elim
  | external item => exact h.2.elim
  | sealStream => cases h.2
  | cert => rcases h.2 with h | h <;> cases h
  | adopt =>
    obtain ⟨c, -, -, h⟩ := h
    cases h
  | adoptFloor => exact h.2.2.elim
  | _ => cases h

/-- A stream is retired by a directive, or as its recovery says. -/
theorem QueueItem.Does.retire {item : QueueItem env} (h : item.Does v k (.retire target)) :
    (∃ d, item = .directive d) ∨ (v.streams k).recovery = some target := by
  cases item with
  | directive d => exact .inl ⟨d, rfl⟩
  | external item => exact .inr h.2.2
  | adoptFloor => exact .inr h.2.2
  | append item => exact h.2.elim
  | sealStream => cases h.2
  | cert => rcases h.2 with h | h <;> cases h
  | adopt =>
    obtain ⟨c, -, -, h⟩ := h
    cases h
  | retireTopic => cases h.2
  | _ => cases h

/-- Only a directive starts a recovery. -/
theorem QueueItem.Does.seek {item : QueueItem env} (h : item.Does v k (.seek (some target))) :
    ∃ d, item = .directive d := by
  cases item with
  | directive d => exact ⟨d, rfl⟩
  | external item => cases h.2
  | adoptFloor => cases h.2.2
  | append item => exact h.2.elim
  | sealStream => cases h.2
  | cert => rcases h.2 with h | h <;> cases h
  | adopt =>
    obtain ⟨c, -, -, h⟩ := h
    cases h
  | retireTopic => cases h.2
  | _ => cases h

theorem View.Pruned.moves {P : StreamId → Act → Prop} (h : v.Pruned v') (hP : ∀ k, P k .thin) :
    v.Moves env P v' := by
  obtain ⟨v₁, r, hthin, -, rfl⟩ := h
  have hmoves : v.Moves env P v₁ := .thinned hthin hP
  exact hmoves

/-- Whatever an item does to a sound stream, it does by its moves; the retirement of its topic
must find it vacant. -/
theorem ItemStep.moves_at {v v' : View} (h : ItemStep env exact item v v')
    (hid : ∀ k, (v.streams k).head.stream = k)
    (hexact : ∀ known, item = .retireTopic k.1 known → exact) (hS : (v.streams k).Sound k) :
    (v.streams k).Moves env (item.Does v k) (v'.streams k) := by
  have hlocal : ∀ {k₀ : StreamId} {L : Local},
      (v.streams k₀).Moves env (item.Does v k₀) L.stream →
      (v.streams k).Moves env (item.Does v k) ((v.withLocal k₀ L).streams k) := by
    intro k₀ L hmoves
    by_cases hk : k = k₀
    · subst hk
      rwa [View.withLocal_streams_self]
    · rw [View.withLocal_streams_of_ne _ hk]
      exact .refl _
  cases item with
  | append item =>
    obtain ⟨L, happ, rfl⟩ := h
    exact hlocal ((Stream.Moves.append (hid _) happ).mono fun a ha => ⟨rfl, ha⟩)
  | external item =>
    obtain rfl := h
    exact hlocal ((Stream.Moves.ingest (L := v.localAt item.entry.stream) (hid _).symm
      (one_le_seq_of_validateEntry item.valid)).mono fun a ha => ⟨rfl, ha⟩)
  | sealStream T w =>
    obtain rfl := h
    exact hlocal ((Stream.Moves.processSeal (L := v.localAt (T, w))).mono fun a ha => ⟨rfl, ha⟩)
  | cert cert =>
    obtain ⟨writers, n, -, rfl⟩ := h
    exact View.Moves.certify_at hS
  | directive d =>
    obtain rfl := h
    rw [View.onStream, View.storeDirective_localAt]
    by_cases hk : k = (d.topic, d.writer)
    · subst hk
      rw [View.withLocal_streams_self]
      exact (Stream.Moves.direct (L := v.localAt (d.topic, d.writer))).mono fun a ha => ⟨rfl, ha⟩
    · rw [View.withLocal_streams_of_ne _ hk, View.storeDirective_streams]
      exact .refl _
  | adopt T cut =>
    obtain rfl := h
    exact View.Moves.adopt (P := (QueueItem.adopt T cut : QueueItem env).Does v)
      (fun c hc => ⟨c, hc, rfl, rfl⟩) k
  | retireTopic T known =>
    rcases h with ⟨e, rfl⟩ | ⟨hvacant, n, rfl⟩
    · exact .refl _
    · refine View.Moves.retireTopic_at hS fun hT => hvacant (hexact (hT ▸ known) ?_)
      subst hT
      rfl
  | pruneTopic => exact View.Pruned.moves (P := fun _ a => a = .thin) h (fun _ => rfl) k
  | pruneSuperseded => exact View.Pruned.moves (P := fun _ a => a = .thin) h (fun _ => rfl) k
  | pruneAcked => exact View.Pruned.moves (P := fun _ a => a = .thin) h (fun _ => rfl) k
  | adoptFloor T w s chain known =>
    obtain rfl := h
    apply @hlocal (T, w)
    split
    · next helig =>
      exact (Stream.Moves.adoptFloor (L := v.localAt (T, w))).mono fun a ha => ⟨rfl, helig, ha⟩
    · exact .refl _

/-- Whatever an item does, it does to each stream by its moves. -/
theorem ItemStep.moves (h : ItemStep env exact item v v') (hexact : exact) (hv : v.Sound) :
    v.Moves env (item.Does v) v' :=
  fun k => h.moves_at (fun k => (hv k).id) (fun _ _ => hexact) (hv k)

end Seqscribe
