import Seqscribe.EntryIds

namespace Seqscribe
set_option autoImplicit true

variable {env : Env} {S S' : Stream} {L : Local} {v v' : View} {core : Core}

/-- A stream has the end that a directive declares. -/
def Stream.Ends (env : Env) (S : Stream) (target : RecoveryTarget) : Prop :=
  target.finalSeq ≤ S.head.contigSeq ∧ S.chainAtEnd env target.finalSeq = some target.finalChain

/-- A directive of an old generation finds a stream that it leaves as it is: not sealed as forked,
or the directive is live or refused, or its recovery is under way already. -/
def Stream.Ignores (env : Env) (S : Stream) (stored : Option WriterDirective)
    (d : WriterDirective) : Prop :=
  S.head.sealReason ≠ some .fork ∨ d.state = .live ∨ (∃ s, stored = some s ∧ s ≠ d.stringify) ∨
    S.recovery = some (directiveTarget env d) ∧ ¬ S.Ends env (directiveTarget env d)

/-- Two states of a stream that differ at most in their quarantine, archive and floor. -/
def Stream.Unmoved (S S' : Stream) : Prop :=
  S'.head = S.head ∧ S'.recovery = S.recovery ∧ S'.rows = S.rows ∧ S'.pending = S.pending

theorem Stream.Unmoved.refl (S : Stream) : S.Unmoved S := ⟨rfl, rfl, rfl, rfl⟩

namespace Local

theorem processRetired_ends (now : Nat) (h : L.stream.Ends env (directiveTarget env d)) :
    (L.processRetired env d now).stream.head.sealReason = some .retired ∧
      (L.processRetired env d now).stream.head.rgen = d.rgen ∧
      (L.processRetired env d now).stream.recovery = none := by
  have heq : L.processRetired env d now = _ := if_pos h
  rw [heq]
  exact ⟨rfl, rfl, rfl⟩

theorem processRetired_diverges (h : ¬ L.stream.Ends env (directiveTarget env d)) :
    (L.processRetired env d now).stream =
      (if L.stream.head.sealReason = none then L.stream.fork else L.stream).setRecovery
        (some (directiveTarget env d)) := by
  have heq : L.processRetired env d now = _ := if_neg h
  rw [heq]
  change (if _ then L.map Stream.fork else L).stream.setRecovery _ = _
  split <;> rfl

/-- A directive of an old generation leaves a stream unmoved exactly when the stream ignores it. -/
theorem direct_unmoved (now : Nat) (hstale : d.rgen ≤ L.stream.head.rgen) :
    L.stream.Unmoved (L.direct env stored d now).stream ↔ L.stream.Ignores env stored d := by
  unfold direct Stream.Ignores
  by_cases hconflict : ∃ s, stored = some s ∧ s ≠ d.stringify
  · obtain ⟨s, rfl, hs⟩ := hconflict
    rw [if_pos (by simpa using hs)]
    exact iff_of_true (.refl _) (.inr (.inr (.inl ⟨s, rfl, hs⟩)))
  rw [if_neg (by
    cases stored with
    | none => simp
    | some s =>
      have hs : s = d.stringify := not_not.1 fun hs => hconflict ⟨s, rfl, hs⟩
      simp [hs])]
  by_cases hfork : L.stream.head.sealReason = some .fork
  swap
  · rw [if_pos ⟨hstale, hfork⟩]
    exact iff_of_true (.refl _) (.inl hfork)
  rw [if_neg fun h => h.2 hfork]
  cases hstate : d.state with
  | live =>
    dsimp only
    rw [if_pos hfork]
    exact iff_of_true (.refl _) (.inr (.inl rfl))
  | retired =>
    dsimp only
    by_cases hends : L.stream.Ends env (directiveTarget env d)
    · refine iff_of_false (fun h => ?_) ?_
      · have hseal := (processRetired_ends now hends).1
        rw [h.1, hfork] at hseal
        cases hseal
      · rintro (h | h | h | h)
        · exact h hfork
        · cases h
        · exact hconflict h
        · exact h.2 hends
    · rw [processRetired_diverges hends, if_neg (by rw [hfork]; simp)]
      constructor
      · rintro ⟨-, hrec, -, -⟩
        exact .inr (.inr (.inr ⟨hrec.symm, hends⟩))
      · rintro (h | h | h | h)
        · exact absurd hfork h
        · cases h
        · exact absurd h hconflict
        · exact ⟨rfl, h.1.symm, rfl, rfl⟩

/-- What a directive does to the generation of a stream that ignores old ones: it keeps it, or
raises it to its own; a recovery it leaves or starts is not older than the head. -/
theorem direct_generation (now : Nat)
    (hsafe : d.rgen ≤ L.stream.head.rgen → L.stream.Ignores env stored d) :
    L.stream.head.rgen ≤ (L.direct env stored d now).stream.head.rgen ∧
      ((∀ target, L.stream.recovery = some target → L.stream.head.rgen ≤ target.rgen) →
        ∀ target, (L.direct env stored d now).stream.recovery = some target →
          (L.direct env stored d now).stream.head.rgen ≤ target.rgen) := by
  by_cases hstale : d.rgen ≤ L.stream.head.rgen
  · obtain ⟨hhead, hrec, -, -⟩ := (direct_unmoved now hstale).2 (hsafe hstale)
    rw [hhead, hrec]
    exact ⟨Nat.le_refl _, id⟩
  have hfresh := Nat.lt_of_not_le hstale
  unfold direct
  split
  · exact ⟨Nat.le_refl _, id⟩
  rw [if_neg fun h => hstale h.1]
  cases d.state with
  | live =>
    dsimp only
    split
    · exact ⟨Nat.le_refl _, id⟩
    · refine ⟨Nat.le_of_lt hfresh, fun _ target htarget => ?_⟩
      cases htarget
  | retired =>
    dsimp only
    by_cases hends : L.stream.Ends env (directiveTarget env d)
    · obtain ⟨-, hrgen, hrec⟩ := processRetired_ends now hends
      rw [hrgen, hrec]
      refine ⟨Nat.le_of_lt hfresh, fun _ target htarget => ?_⟩
      cases htarget
    · have hrgen : (L.processRetired env d now).stream.head.rgen = L.stream.head.rgen := by
        rw [processRetired_diverges hends]
        split <;> rfl
      rw [hrgen]
      refine ⟨Nat.le_refl _, fun _ target htarget => ?_⟩
      rw [processRetired_diverges hends] at htarget
      obtain rfl := Option.some.inj htarget
      exact Nat.le_of_lt hfresh

end Local

/-- A flush of one directive delivers it. -/
theorem flush_directive (ambient : Ambient) (d : WriterDirective) (hcoh : core.Coherent env) :
    (flush env [(ambient, .directive d)] none core).core.stream env =
      ((core.view env).onStream (d.topic, d.writer)
        (Local.direct env (core.db.sqDirectives.get d.id) d ambient.now)).streams := by
  have hready : Ready env { Txn.start core none with ambient := ambient } := ⟨hcoh⟩
  have hbatch : Returns (fun _ => False) (forM [(ambient, .directive d)] (processQueued env))
      (Txn.start core none) fun _ t' => Ready env t' ∧ (t'.view env).streams =
        ((core.view env).onStream (d.topic, d.writer)
          (Local.direct env (core.db.sqDirectives.get d.id) d ambient.now)).streams := by
    refine .bind (.bind (.modify rfl (processDirective_spec (hready.at _) fun t' h' => ?_)))
    refine .pure ⟨h'.ready, ?_⟩
    rw [h'.view_eq]
    unfold View.onStream View.withLocal
    dsimp only
    rw [View.storeDirective_streams]
    rfl
  have hbody := flushBody_ends (R := fun v => v.streams = _) hbatch
  unfold flush
  rw [if_neg (by simp)]
  unfold transaction
  cases hrun : flushBody env [(ambient, .directive d)] (Txn.start core none) with
  | ok _ t => exact (hbody.of_ok hrun).2
  | error e t => exact ((hbody.of_error hrun).elim (fun h => by cases h.1) False.elim)

/-- Directives of old generations find streams that ignore them. -/
def QueueItem.InGeneration (item : QueueItem env) (v : View) : Prop :=
  match item with
  | .directive d =>
    let S := v.streams (d.topic, d.writer)
    d.rgen ≤ S.head.rgen → S.Ignores env (v.directives d.id) d
  | _ => True

/-- The generation of a stream is at least `m`, and a recovery under way will not lower it. -/
def Stream.Raised (m : Nat) (S : Stream) : Prop :=
  m ≤ S.head.rgen ∧ ∀ target, S.recovery = some target → S.head.rgen ≤ target.rgen

/-- Moves that retire a stream only as its recovery says keep its generation. -/
theorem Stream.Moves.raised {P : Act → Prop} (h : S.Moves env P S') (hS : S.Raised m)
    (hretire : ∀ target, P (.retire target) → S.recovery = some target)
    (hrevive : ∀ rgen, ¬ P (.revive rgen)) (hvacate : ¬ P .vacate)
    (hseek : ∀ target, P (.seek target) → target = none) : S'.Raised m := by
  have hI := h.preserves (I := fun S' => m ≤ S'.head.rgen ∧
    (∀ target, S.recovery = some target → S'.head.rgen ≤ target.rgen) ∧
      ∀ target, S'.recovery = some target → S.recovery = some target) ?_
    ⟨hS.1, hS.2, fun _ ht => ht⟩
  · exact ⟨hI.1, fun target ht => hI.2.1 target (hI.2.2 target ht)⟩
  · intro a S₁ S₂ ha hI hmove
    cases hmove with
    | advance =>
      refine ⟨hI.1, hI.2.1, fun target ht => hI.2.2 target ?_⟩
      rw [← ht]
      change _ = Stream.recovery (S₁.put env _)
      unfold Stream.put
      split <;> rfl
    | retire _ target now =>
      have htarget := hretire target ha
      refine ⟨hS.1.trans (hS.2 target htarget), fun target' ht' => ?_, hI.2.2⟩
      obtain rfl := Option.some.inj (htarget.symm.trans ht')
      exact Nat.le_refl _
    | revive => exact absurd ha (hrevive _)
    | seek _ target =>
      obtain rfl := hseek target ha
      refine ⟨hI.1, hI.2.1, ?_⟩
      rintro target ⟨⟩
    | thin _ S' hthin =>
      rw [hthin.head, hthin.recovery]
      exact hI
    | vacate => exact absurd ha hvacate
    | rewind => exact hI
    | jump => exact hI
    | fork => exact hI
    | shelve => exact hI

theorem ItemStep.raised {item : QueueItem env} (hv : v.Sound) (h : ItemStep env True item v v')
    (hretire : ∀ T known, item ≠ .retireTopic T known) (hgen : item.InGeneration v)
    (hk : (v.streams k).Raised m) : (v'.streams k).Raised m := by
  have hmoves := h.moves trivial hv k
  by_cases hdirective : ∃ d, item = .directive d
  · obtain ⟨d, rfl⟩ := hdirective
    obtain rfl := h
    by_cases hd : k = (d.topic, d.writer)
    · subst hd
      obtain ⟨hle, hrec⟩ := Local.direct_generation (L := v.localAt (d.topic, d.writer))
        v.now hgen
      rw [View.onStream, View.withLocal_streams_self, View.storeDirective_localAt]
      exact ⟨hk.1.trans hle, hrec hk.2⟩
    · rw [View.onStream, View.withLocal_streams_of_ne _ hd, View.storeDirective_streams]
      exact hk
  · refine hmoves.raised hk ?_ ?_ ?_ ?_
    · exact fun target hdoes => hdoes.retire.resolve_left hdirective
    · rintro rgen hdoes
      obtain ⟨d, hitem, -⟩ := hdoes.revive
      exact hdirective ⟨d, hitem⟩
    · intro hdoes
      obtain ⟨T, known, hitem, -⟩ := hdoes.vacate
      exact hretire T known hitem
    · intro target hdoes
      cases target with
      | none => rfl
      | some target => exact absurd hdoes.seek hdirective

theorem runCore_raised {is : List (Input env)} (hcoh : core.Coherent env)
    (hs : (core.view env).Sound) (hretire : NoRetirement is)
    (hgen : RunEvery env (fun q t => q.2.InGeneration (t.view env)) core is)
    (h : (core.stream env k).Raised m) : ((runCore env core is).stream env k).Raised m := by
  refine (runCore_preserves True (fun q v => q.2.InGeneration v)
    (I := fun v => (v.streams k).Raised m) hcoh (fun _ => ⟨hs, hretire.exact⟩) hgen h ?_).2.2
  intro i hi v v' hv hI hcore
  refine (hcore.preserves (I := fun v => (v.streams k).Raised m) hv hI ?_ ?_ ?_ ?_).2
  · intro v v' hsame hI
    rwa [hsame.1]
  · rintro batch fault rfl q hq v v' hv hI hQ hstep
    exact ItemStep.raised (v := { v with now := q.1.now }) (hv trivial) hstep
      (hretire batch fault hi q hq) hQ hI
  · intro v v' hthin hI
    rw [Stream.Raised, (hthin.streams k).head, (hthin.streams k).recovery]
    exact hI
  · intro v v' _ _ hk hI
    rcases hk k with hk | hk | hk <;> rw [hk]
    · refine ⟨hI.1, fun target htarget => ?_⟩
      obtain ⟨r, hr, rfl⟩ := Option.map_eq_some_iff.1 htarget
      exact hI.2 r hr
    · exact hI
    · refine ⟨hI.1, ?_⟩
      rintro target ⟨⟩

/-- A directive of an old generation changes nothing exactly when its stream ignores it, and with
such directives only, generations never decrease: not by a delivery to any reachable core, and not
in a run of any inputs that retires no topic. -/
theorem directive_generations (is : List (Input env)) :
    (∀ ambient d,
      let core := runCore env Core.init is
      let S := core.stream env (d.topic, d.writer)
      let core' := (flush env [(ambient, .directive d)] none core).core
      (d.rgen ≤ S.head.rgen → (S.Unmoved (core'.stream env (d.topic, d.writer)) ↔
        S.Ignores env (core.db.sqDirectives.get d.id) d)) ∧
      ((d.rgen ≤ S.head.rgen → S.Ignores env (core.db.sqDirectives.get d.id) d) →
        ∀ k, (core.head env k).rgen ≤ (core'.head env k).rgen)) ∧
    (NoRetirement is →
      RunEvery env (fun q t => q.2.InGeneration (t.view env)) Core.init is →
      ∀ reached, reached <+: is → ∀ k, ((runCore env Core.init reached).head env k).rgen ≤
        ((runCore env Core.init is).head env k).rgen) := by
  refine ⟨fun ambient d => ?_, ?_⟩
  · intro core S core'
    have hstreams : core'.stream env = _ := flush_directive ambient d (runCore_coherent is)
    have hS : core'.stream env (d.topic, d.writer) = (Local.direct env
        (core.db.sqDirectives.get d.id) d ambient.now
        ((core.view env).localAt (d.topic, d.writer))).stream := by
      rw [hstreams]
      exact View.withLocal_streams_self ..
    refine ⟨fun hstale => ?_, fun hsafe k => ?_⟩
    · rw [hS]
      exact Local.direct_unmoved _ hstale
    · change (core.stream env k).head.rgen ≤ (core'.stream env k).head.rgen
      by_cases hk : k = (d.topic, d.writer)
      · rw [hk, hS]
        exact (Local.direct_generation (L := (core.view env).localAt (d.topic, d.writer)) _ hsafe).1
      · have hother : core'.stream env k = core.stream env k := by
          rw [hstreams]
          exact View.withLocal_streams_of_ne _ hk
        rw [hother]
  · rintro hretire hgen reached ⟨rest, rfl⟩ k
    have hretire₁ : NoRetirement reached := fun batch fault hi =>
      hretire batch fault (List.mem_append_left _ hi)
    have hgen₁ := hgen.initial (List.prefix_append reached rest)
    have hraised := runCore_raised (k := k) (m := 0) Core.coherent_init Core.sound_init hretire₁ hgen₁
      ⟨Nat.zero_le _, fun target htarget => by cases htarget⟩
    have hend := runCore_raised (k := k) (runCore_coherent reached)
      (runCore_sound hretire₁.exact)
      (fun batch fault hi => hretire batch fault (List.mem_append_right _ hi)) hgen.suffix
      ⟨Nat.le_refl _, hraised.2⟩
    rw [runCore_append]
    exact hend.1

/-- A directive that is replayed after its successor finds an open stream, and changes nothing. -/
theorem directive_generations_of_replay :
    let is : List (Input (hostEnv "w")) :=
      [hostFlush "w" 1 [hostAppend "w"],
        hostFlush "w" 2 [.directive (hostDirective .live 2 none none)],
        hostFlush "w" 3 [.directive (hostDirective .live 1 none none)]]
    let core := runCore (hostEnv "w") Core.init is
    let core' := (flush (hostEnv "w") [({ now := 4 }, .directive (hostDirective .live 1 none none))]
      none core).core
    (core.head (hostEnv "w") ("t", "w")).rgen = 2 ∧
      (core.stream (hostEnv "w") ("t", "w")).Unmoved (core'.stream (hostEnv "w") ("t", "w")) ∧
      (runCore (hostEnv "w") Core.init (is.take 2)).db.sqWriters.rows.length = 1 ∧
      ∀ k, ((runCore (hostEnv "w") Core.init (is.take 2)).head (hostEnv "w") k).rgen ≤
        (core.head (hostEnv "w") k).rgen := by
  intro is core core'
  have hsafe := directive_generations is
  have hopen : (core.head (hostEnv "w") ("t", "w")).sealReason = none := by decide +kernel
  have hrgen : (core.head (hostEnv "w") ("t", "w")).rgen = 2 := by decide +kernel
  refine ⟨hrgen, ?_, by decide +kernel, ?_⟩
  · refine ((hsafe.1 { now := 4 } (hostDirective .live 1 none none)).1 ?_).2 (.inl ?_)
    · exact hrgen.symm ▸ Nat.le_succ 1
    · exact fun hfork => by cases hopen.symm.trans hfork
  · refine hsafe.2 ?_ ⟨⟨trivial, ?_⟩, ⟨fun _ => .inr (.inl rfl), ?_⟩, ⟨fun _ => .inr (.inl rfl), ?_⟩,
      trivial⟩ (is.take 2) (List.take_prefix ..)
    · intro batch fault hi q hq T known hq'
      simp only [is, List.mem_cons, List.not_mem_nil, or_false, hostFlush, hostAppend,
        List.map_cons, List.map_nil, Input.flush.injEq] at hi
      obtain ⟨rfl, -⟩ | ⟨rfl, -⟩ | ⟨rfl, -⟩ := hi <;>
        obtain rfl := List.mem_singleton.1 hq <;> cases hq'
    · split <;> trivial
    · split <;> trivial
    · split <;> trivial

/-- A fork opens the gate: an old retirement, replayed, takes the second entry of a revived stream
away and lowers its generation. -/
theorem old_directive_applies :
    let is : List (Input (hostEnv "w")) :=
      [hostFlush "w" 1 [hostAppend "w"],
        hostFlush "w" 2 [.directive (hostDirective .live 2 none none), hostAppend "w"],
        hostFlush "w" 3 [.sealStream "t" "w"]]
    let d := hostDirective .retired 1 (some 1)
      (some "2b9b9a7838c39f166c0015237d70501dc4ea31d32bf5c34ee8c0d5d8bdf67e27")
    let core := runCore (hostEnv "w") Core.init is
    let core' := (flush (hostEnv "w") [({ now := 4 }, .directive d)] none core).core
    d.rgen ≤ (core.head (hostEnv "w") ("t", "w")).rgen ∧
      (core'.head (hostEnv "w") ("t", "w")).rgen < (core.head (hostEnv "w") ("t", "w")).rgen ∧
      (core.db.sqLog.get ("t", "w", 2)).isSome ∧ (core'.db.sqLog.get ("t", "w", 2)).isNone := by
  decide +kernel

end Seqscribe
