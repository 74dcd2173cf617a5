import Seqscribe.Generations
import Seqscribe.Later

namespace Seqscribe
set_option autoImplicit true

/-! Directives that are refused, and directives that come twice. -/

variable {env : Env} {t t₁ t₂ : Txn} {L : Local} {v v' : View} {d d' : WriterDirective}

/-- The same streams and the same stored directives. -/
structure Untouched (env : Env) (t t' : Txn) : Prop where
  streams : t'.core.stream env = t.core.stream env
  directives : t'.core.db.sqDirectives.get = t.core.db.sqDirectives.get

/-- Another directive of the generation is stored, or a live one meets a fork. -/
def Stream.Refuses (S : Stream) (stored : Option WriterDirective) (d : WriterDirective) : Prop :=
  (∃ s, stored = some s ∧ s ≠ d.stringify) ∨
    d.state = .live ∧ S.head.sealReason = some .fork

/-- The directive is of an old generation and the stream is not forked. -/
def Stream.Stale (S : Stream) (d : WriterDirective) : Prop :=
  d.rgen ≤ S.head.rgen ∧ S.head.sealReason ≠ some .fork

theorem conflicts_iff {stored : Option WriterDirective} :
    (stored.any fun s => decide (s ≠ d.stringify)) = true ↔
      ∃ s, stored = some s ∧ s ≠ d.stringify := by
  cases stored with
  | none => simp
  | some s => simp

namespace Local

theorem direct_refused {stored : Option WriterDirective} (h : L.stream.Refuses stored d)
    (now : Nat) : L.direct env stored d now = (L.report .badDirective).done (.directive .refused) := by
  rw [direct]
  rcases h with hconflict | ⟨hlive, hfork⟩
  · exact if_pos (conflicts_iff.2 hconflict)
  · have hfresh : ¬ (d.rgen ≤ L.stream.head.rgen ∧ L.stream.head.sealReason ≠ some .fork) :=
      fun hstale => hstale.2 hfork
    by_cases hconflict : (stored.any fun s => decide (s ≠ d.stringify)) = true
    · exact if_pos hconflict
    · rw [if_neg hconflict, if_neg hfresh, hlive]
      exact if_pos hfork

/-- A directive that is not refused is answered otherwise. -/
theorem direct_accepted (env : Env) {stored : Option WriterDirective} (h : ¬ L.stream.Refuses stored d)
    (now : Nat) : ∃ r, r ≠ .refused ∧
      (L.direct env stored d now).settle = L.settle ++ [.directive r] := by
  rw [direct, if_neg fun hconflict => h (.inl (conflicts_iff.1 hconflict))]
  split
  next => exact ⟨.stale, nofun, rfl⟩
  next =>
    cases hstate : d.state with
    | live =>
      dsimp only
      rw [if_neg fun hfork => h (.inr ⟨hstate, hfork⟩)]
      exact ⟨.applied, nofun, rfl⟩
    | retired =>
      rw [processRetired]
      dsimp only
      split
      next => exact ⟨.applied, nofun, rfl⟩
      next => split <;> exact ⟨.recovery, nofun, rfl⟩

/-- A directive that was accepted is taken again without a change. -/
theorem direct_again {stored : Option WriterDirective} (h : ¬ L.stream.Refuses stored d)
    (now now' : Nat) {L' : Local} (hL' : L'.stream = (L.direct env stored d now).stream) :
    ¬ L'.stream.Refuses (some d) d ∧ (L'.direct env (some d) d now').stream = L'.stream := by
  have hsame : ¬ ∃ s, some d = some s ∧ s ≠ d.stringify := by
    rintro ⟨s, hs, hne⟩
    exact hne (Option.some.inj hs).symm
  have hstale (hstale : L'.stream.Stale d) : ¬ L'.stream.Refuses (some d) d ∧
      (L'.direct env (some d) d now').stream = L'.stream := by
    refine ⟨fun href => href.elim hsame fun hfork => hstale.2 hfork.2, ?_⟩
    rw [direct, if_neg fun hconflict => hsame (conflicts_iff.1 hconflict),
      if_pos (show _ ∧ _ from hstale)]
    rfl
  rw [direct, if_neg fun hconflict => h (.inl (conflicts_iff.1 hconflict))] at hL'
  split at hL'
  next hold =>
    apply hstale
    rw [hL']
    exact hold
  next hnew =>
    cases hstate : d.state with
    | live =>
      rw [hstate] at hL'
      dsimp only at hL'
      rw [if_neg fun hfork => h (.inr ⟨hstate, hfork⟩)] at hL'
      apply hstale
      rw [hL']
      exact ⟨Nat.le_refl _, nofun⟩
    | retired =>
      rw [hstate] at hL'
      dsimp only at hL'
      by_cases hends : L.stream.Ends env (directiveTarget env d)
      · obtain ⟨hseal, hrgen, -⟩ := processRetired_ends now hends
        apply hstale
        rw [Stream.Stale, hL', hseal, hrgen]
        exact ⟨Nat.le_refl _, nofun⟩
      · rw [processRetired_diverges hends] at hL'
        have hrefuses : ¬ L'.stream.Refuses (some d) d := by
          rintro (hconflict | ⟨hlive, -⟩)
          · exact hsame hconflict
          · rw [hstate] at hlive
            cases hlive
        refine ⟨hrefuses, ?_⟩
        have hsealed : L'.stream.head.sealReason ≠ none := by
          rw [hL']
          split
          next => exact nofun
          next hseal => exact hseal
        have hopen : ¬ (d.rgen ≤ L'.stream.head.rgen ∧ L'.stream.head.sealReason ≠ some .fork) := by
          rw [hL']
          split
          next => exact fun hold => hold.2 rfl
          next => exact hnew
        have hends' : ¬ L'.stream.Ends env (directiveTarget env d) := by
          intro hends'
          apply hends
          rw [hL'] at hends'
          split at hends'
          next => exact hends'
          next => exact hends'
        rw [direct, if_neg fun hconflict => hsame (conflicts_iff.1 hconflict), if_neg hopen, hstate]
        dsimp only
        rw [processRetired_diverges hends', if_neg hsealed, hL']
        split <;> rfl

end Local

theorem processQueued_directive (ht : Ready env t) (ambient : Ambient)
    (hrun : processQueued env (ambient, .directive d) t = .ok () t') :
    Ready env t' ∧ t'.view env =
      (View.storeDirective d { t.view env with now := ambient.now }).onStream (d.topic, d.writer)
        (Local.direct env (t.core.db.sqDirectives.get d.id) d ambient.now) := by
  have hstep := processQueued_spec False True (ambient, .directive d) ht False.elim fun _ => trivial
  exact (hstep.of_ok hrun).2

/-- What is left of a transaction when a directive has been processed. -/
structure Delivered (env : Env) (d : WriterDirective) (now : Nat) (t t' : Txn) : Prop where
  ready : Ready env t'
  settle : t'.settle = (((t.view env).localAt (d.topic, d.writer)).direct env
    (t.core.db.sqDirectives.get d.id) d now).settle
  stream : t'.core.stream env (d.topic, d.writer) =
    (((t.view env).localAt (d.topic, d.writer)).direct env (t.core.db.sqDirectives.get d.id) d
      now).stream
  others : ∀ k, k ≠ (d.topic, d.writer) → t'.core.stream env k = t.core.stream env k
  directives : t'.core.db.sqDirectives.get = ((t.view env).storeDirective d).directives

theorem delivered (ht : Ready env t) (ambient : Ambient)
    (hrun : processQueued env (ambient, .directive d) t = .ok () t') :
    Delivered env d ambient.now t t' := by
  obtain ⟨ht', hview⟩ := processQueued_directive ht ambient hrun
  have hlocal : (View.storeDirective d { t.view env with now := ambient.now }).localAt
      (d.topic, d.writer) = (t.view env).localAt (d.topic, d.writer) := View.storeDirective_localAt _
  rw [View.onStream, hlocal] at hview
  refine ⟨ht', congrArg View.settle hview, ?_, fun k hk => ?_, ?_⟩
  · exact (congrArg (fun v : View => v.streams (d.topic, d.writer)) hview).trans
      (View.withLocal_streams_self ..)
  · have hother := congrArg (fun v : View => v.streams k) hview
    dsimp only at hother
    rw [View.withLocal_streams_of_ne _ hk, View.storeDirective_streams] at hother
    exact hother
  · have hstored := congrArg View.directives hview
    rw [View.withLocal_directives] at hstored
    refine hstored.trans ?_
    rw [View.storeDirective, View.storeDirective]
    split <;> rfl

namespace Delivered

/-- The answer says whether the directive was refused. -/
theorem refused_iff (h : Delivered env d now t t') :
    t'.settle = t.settle ++ [.directive .refused] ↔
      (t.core.stream env (d.topic, d.writer)).Refuses (t.core.db.sqDirectives.get d.id) d := by
  rw [h.settle]
  constructor
  · intro hrefused
    by_contra hnot
    have hnot' : ¬ ((t.view env).localAt (d.topic, d.writer)).stream.Refuses
        (t.core.db.sqDirectives.get d.id) d := hnot
    obtain ⟨r, hr, hsettle⟩ := Local.direct_accepted env hnot' now
    rw [hsettle] at hrefused
    cases List.append_cancel_left hrefused
    exact hr rfl
  · intro href
    have href' : ((t.view env).localAt (d.topic, d.writer)).stream.Refuses
        (t.core.db.sqDirectives.get d.id) d := href
    rw [Local.direct_refused href']
    rfl

/-- A directive in whose place another one is stored changes no stored one. -/
theorem directives_of_conflict (h : Delivered env d now t t')
    (hconflict : ∃ s, t.core.db.sqDirectives.get d.id = some s ∧ s ≠ d.stringify) :
    t'.core.db.sqDirectives.get = t.core.db.sqDirectives.get := by
  rw [h.directives, View.storeDirective]
  exact congrArg View.directives (if_pos (conflicts_iff.2 hconflict))

theorem directives_of_free (h : Delivered env d now t t')
    (hfree : ¬ ∃ s, t.core.db.sqDirectives.get d.id = some s ∧ s ≠ d.stringify) :
    t'.core.db.sqDirectives.get = Function.update t.core.db.sqDirectives.get d.id (some d) := by
  rw [h.directives, View.storeDirective]
  exact congrArg View.directives (if_neg fun hconflict => hfree (conflicts_iff.1 hconflict))

end Delivered

/-- A refused directive leaves no trace exactly when a directive of its generation was stored
before. -/
theorem refused_directive_inert (ht : MidBatch env t) (ambient : Ambient) (d : WriterDirective)
    (hrun : processQueued env (ambient, .directive d) t = .ok () t')
    (hrefused : t'.settle = t.settle ++ [.directive .refused]) :
    Untouched env t t' ↔ (t.core.db.sqDirectives.get d.id).isSome = true := by
  have h := delivered ht.ready ambient hrun
  have href := h.refused_iff.1 hrefused
  have hstreams : t'.core.stream env = t.core.stream env := by
    funext k
    by_cases hk : k = (d.topic, d.writer)
    · subst hk
      have href' : ((t.view env).localAt (d.topic, d.writer)).stream.Refuses
        (t.core.db.sqDirectives.get d.id) d := href
      rw [h.stream, Local.direct_refused href']
      rfl
    · exact h.others k hk
  constructor
  · intro hsame
    by_contra hnone
    have hfree : ¬ ∃ s, t.core.db.sqDirectives.get d.id = some s ∧ s ≠ d.stringify := by
      rintro ⟨s, hs, -⟩
      exact hnone (Option.isSome_of_eq_some hs)
    have hstored := hsame.directives.symm.trans (h.directives_of_free hfree)
    apply hnone
    rw [hstored, Function.update_self]
    rfl
  · intro hsome
    refine ⟨hstreams, ?_⟩
    by_cases hconflict : ∃ s, t.core.db.sqDirectives.get d.id = some s ∧ s ≠ d.stringify
    · exact h.directives_of_conflict hconflict
    · obtain ⟨s, hs⟩ := Option.isSome_iff_exists.1 hsome
      have hd : t.core.db.sqDirectives.get d.id = some d :=
        hs.trans (congrArg some (not_not.1 fun hne => hconflict ⟨s, hs, hne⟩))
      rw [h.directives_of_free hconflict, ← hd, Function.update_eq_self]

theorem exists_delivered (ht : Ready env t) (hfault : t.fault = none) (ambient : Ambient)
    (d : WriterDirective) :
    ∃ t', processQueued env (ambient, .directive d) t = .ok () t' ∧ t'.fault = none := by
  have hruns : Returns (fun _ => False) (processQueued env (ambient, .directive d)) t
      fun _ _ => True := by
    have hready : Ready env { t with ambient := ambient } := ⟨ht.coherent⟩
    exact .bind (.modify rfl (processDirective_spec (hready.at _) fun _ _ => trivial))
  obtain ⟨_, t', hrun, hfault', -⟩ := hruns.ends hfault
  exact ⟨t', hrun, hfault'⟩

/-- A retirement that leads to a fork, and one beside it. -/
def retireSealed : WriterDirective := hostDirective .retired 1 (some 3) (some "canonical")

def retireElsewhere : WriterDirective := hostDirective .retired 1 (some 2) (some "canonical")

def sealedStream : List (Input (hostEnv "a")) :=
  [hostFlush "a" 1 [.sealStream "t" "w", .directive retireSealed]]

theorem refused_directive_inert_of_conflict : ∃ t t',
    processQueued (hostEnv "a") ({ now := 2 }, .directive retireElsewhere) t = .ok () t' ∧
    t'.settle = t.settle ++ [.directive .refused] ∧ Untouched (hostEnv "a") t t' := by
  have hreach : MidBatch (hostEnv "a")
      (Txn.start (runCore (hostEnv "a") Core.init sealedStream) none) := ⟨sealedStream, [], none, rfl⟩
  obtain ⟨t', hrun, -⟩ := exists_delivered hreach.ready rfl { now := 2 } retireElsewhere
  have hrefused := (delivered hreach.ready _ hrun).refused_iff.2 (.inl ⟨retireSealed,
    by decide +kernel, by decide +kernel⟩)
  refine ⟨_, t', hrun, hrefused, ?_⟩
  apply (refused_directive_inert hreach _ _ hrun hrefused).2
  decide +kernel

/-- A live directive that comes to a fork. -/
def reviveFork : WriterDirective := hostDirective .live 1 none none

def forkedStream : List (Input (hostEnv "a")) := [hostFlush "a" 1 [.sealStream "t" "w"]]

/-- The refused directive takes its generation away from the retirement that would have been
heeded. -/
theorem refused_directive_burns_generation : ∃ t t' u u',
    MidBatch (hostEnv "a") t ∧
    processQueued (hostEnv "a") ({ now := 2 }, .directive reviveFork) t = .ok () t' ∧
    t'.settle = t.settle ++ [.directive .refused] ∧ ¬ Untouched (hostEnv "a") t t' ∧
    processQueued (hostEnv "a") ({ now := 3 }, .directive retireSealed) t' = .ok () u ∧
    u.settle = t'.settle ++ [.directive .refused] ∧
    processQueued (hostEnv "a") ({ now := 3 }, .directive retireSealed) t = .ok () u' ∧
    u'.settle ≠ t.settle ++ [.directive .refused] := by
  have hreach : MidBatch (hostEnv "a")
      (Txn.start (runCore (hostEnv "a") Core.init forkedStream) none) := ⟨forkedStream, [], none, rfl⟩
  have hnone : (runCore (hostEnv "a") Core.init forkedStream).db.sqDirectives.get reviveFork.id =
      none := by decide +kernel
  have hfork : ((runCore (hostEnv "a") Core.init forkedStream).head (hostEnv "a")
      ("t", "w")).sealReason = some .fork := by decide +kernel
  have hfree : ¬ ∃ s, (runCore (hostEnv "a") Core.init forkedStream).db.sqDirectives.get
      reviveFork.id = some s ∧ s ≠ reviveFork.stringify := by
    rintro ⟨s, hs, -⟩
    rw [hnone] at hs
    cases hs
  generalize runCore (hostEnv "a") Core.init forkedStream = core at *
  obtain ⟨t', hrun, hfault⟩ := exists_delivered hreach.ready rfl { now := 2 } reviveFork
  obtain ⟨u', hrun', -⟩ := exists_delivered hreach.ready rfl { now := 3 } retireSealed
  have h := delivered hreach.ready _ hrun
  have hstored : t'.core.db.sqDirectives.get reviveFork.id = some reviveFork := by
    rw [h.directives_of_free hfree, Function.update_self]
  obtain ⟨u, hrun₂, -⟩ := exists_delivered h.ready hfault { now := 3 } retireSealed
  refine ⟨_, t', u, u', hreach, hrun, h.refused_iff.2 (.inr ⟨rfl, hfork⟩), ?_, hrun₂, ?_, hrun', ?_⟩
  · intro hsame
    rw [hsame.directives] at hstored
    cases hnone.symm.trans hstored
  · apply (delivered h.ready _ hrun₂).refused_iff.2
    exact .inl ⟨reviveFork, hstored, by decide +kernel⟩
  · intro hrefused
    rcases (delivered hreach.ready _ hrun').refused_iff.1 hrefused with ⟨s, hs, -⟩ | ⟨hlive, -⟩
    · cases hnone.symm.trans hs
    · cases hlive

/-- The same JSON value, with its members in any order. -/
structure WriterDirective.SameJson (d d' : WriterDirective) : Prop where
  members : d' = { d with keyOrder := d'.keyOrder }
  order : d'.keyOrder.Perm d.keyOrder

theorem WriterDirective.SameJson.id (h : d.SameJson d') : d'.id = d.id := by
  rw [h.members]
  rfl

theorem WriterDirective.SameJson.eq_iff (h : d.SameJson d') : d' = d ↔ d'.keyOrder = d.keyOrder := by
  constructor
  · rintro rfl
    rfl
  · intro hkeys
    rw [h.members, hkeys]

theorem ItemStep.directives {item : QueueItem env} (h : ItemStep env exact item v v') :
    v'.directives = match item with
      | .directive d => (v.storeDirective d).directives
      | _ => v.directives := by
  have hfold (T : Topic) (cut : List CutEntry) (v : View) :
      (v.adopt T cut).directives = v.directives := by
    induction cut generalizing v with
    | nil => rfl
    | cons c rest ih => exact ih _
  have hcertify (cert : FinalityCert) (writers : List WriterId) (v : View) :
      (writers.foldl (fun v w =>
        v.onStream (cert.topic, w) (Local.certStream env cert v.now)) v).directives =
          v.directives := by
    induction writers generalizing v with
    | nil => rfl
    | cons w rest ih => exact ih _
  cases item with
  | append item =>
    obtain ⟨L, -, rfl⟩ := h
    rfl
  | external item =>
    obtain rfl := h
    rfl
  | sealStream T w =>
    obtain rfl := h
    rfl
  | cert cert =>
    obtain ⟨writers, n, -, rfl⟩ := h
    exact hcertify cert writers _
  | directive d =>
    obtain rfl := h
    rfl
  | adopt T cut =>
    obtain rfl := h
    exact hfold T cut.rows v
  | retireTopic T known => rcases h with ⟨e, rfl⟩ | ⟨-, n, rfl⟩ <;> rfl
  | adoptFloor T w s chain known =>
    obtain rfl := h
    rfl
  | pruneTopic T olderThanMs keepNewest known =>
    obtain ⟨v₁, r, hthin, -, rfl⟩ := h
    exact hthin.directives
  | pruneSuperseded T uptoRowid maxRows others known =>
    obtain ⟨v₁, r, hthin, -, rfl⟩ := h
    exact hthin.directives
  | pruneAcked T o maxRows known =>
    obtain ⟨v₁, r, hthin, -, rfl⟩ := h
    exact hthin.directives

/-- A stored directive stays stored. -/
theorem ItemStep.keeps_directive {item : QueueItem env} (h : ItemStep env exact item v v')
    (hd : v.directives d.id = some d) : v'.directives d.id = some d := by
  rw [h.directives]
  cases item with
  | directive d' =>
    dsimp only
    rw [View.storeDirective]
    split
    next => exact hd
    next hfree =>
      by_cases hid : d.id = d'.id
      · have heq : d' = d := by
          by_contra hne
          apply hfree
          rw [← hid, hd]
          exact decide_eq_true (Ne.symm hne)
        rw [heq]
        exact Function.update_self ..
      · exact (Function.update_of_ne hid ..).trans hd
  | _ => exact hd

theorem Later.keeps_directive (h : Later env Q t u) (ht : Ready env t)
    (hd : t.core.db.sqDirectives.get d.id = some d) :
    Ready env u ∧ u.core.db.sqDirectives.get d.id = some d := by
  apply h.preserves (I := fun v => v.directives d.id = some d) ht hd
  · intro v v' hsame hI
    rw [hsame.2.2]
    exact hI
  · exact fun q v v' hI _ hstep => hstep.keeps_directive hI
  · intro v v' hthin hI
    rw [hthin.directives]
    exact hI
  · intro v v' _ hdirectives _ hI
    rw [hdirectives]
    exact hI

/-- The first directive of a forked stream is accepted. -/
theorem accepted_retireSealed : ∃ t t₁, MidBatch (hostEnv "a") t ∧
    processQueued (hostEnv "a") ({ now := 2 }, .directive retireSealed) t = .ok () t₁ ∧
    t₁.settle ≠ t.settle ++ [.directive .refused] ∧ t₁.fault = none ∧
    t₁.core.db.sqDirectives.get retireSealed.id = some retireSealed := by
  have hreach : MidBatch (hostEnv "a")
      (Txn.start (runCore (hostEnv "a") Core.init forkedStream) none) := ⟨forkedStream, [], none, rfl⟩
  have hnone : (runCore (hostEnv "a") Core.init forkedStream).db.sqDirectives.get retireSealed.id =
      none := by decide +kernel
  generalize runCore (hostEnv "a") Core.init forkedStream = core at *
  obtain ⟨t₁, hrun, hfault⟩ := exists_delivered hreach.ready rfl { now := 2 } retireSealed
  have h := delivered hreach.ready _ hrun
  have hfree : ¬ ∃ s, core.db.sqDirectives.get retireSealed.id = some s ∧
      s ≠ retireSealed.stringify := by
    rintro ⟨s, hs, -⟩
    cases hnone.symm.trans hs
  refine ⟨_, t₁, hreach, hrun, fun hrefused => ?_, hfault, ?_⟩
  · rcases h.refused_iff.1 hrefused with hconflict | ⟨hlive, -⟩
    · exact hfree hconflict
    · cases hlive
  · rw [h.directives_of_free hfree, Function.update_self]

/-- The same directive, as a peer writes it. -/
def retireRewritten : WriterDirective :=
  { retireSealed with
    keyOrder := ["authority", "finalChain", "finalSeq", "rgen", "sig", "state", "topic", "writer"] }

end Seqscribe
