import Seqscribe.RegisterRebase

namespace Seqscribe
set_option autoImplicit true

/-! Who changes an owned key. -/

/-- What the owner of a key guards: its value, its winner, its reset generation and its member
set. -/
structure SameContent (ks ks' : KeyState) : Prop where
  value : ks'.value = ks.value
  winner : ks'.winner = ks.winner
  winnerOrder : ks'.winnerOrder = ks.winnerOrder
  resetGen : ks'.resetGen = ks.resetGen
  members : ∀ name : JsString,
    (ks'.member name).map MemberState.present = (ks.member name).map MemberState.present

section
variable (d : RegisterDeps) (lookup : Lookup) (key : Key) (e : LogEntry)

/-- The ways in which an entry may change the owner of a key. -/
inductive OwnerChange (ks : KeyState) : Option JsString → Prop
  | kept : OwnerChange ks ks.owner
  | chown (hkind : opKind e.kind = .chown) (hallowed : ownedWriteAllowed ks e = true)
      (howner : payloadString d e "newOwner" = some owner) : OwnerChange ks (some owner)
  | takeover (hkind : opKind e.kind = .chownTakeover) (hverified : d.verifyTakeover e = true)
      (howner : payloadString d e "newOwner" = some owner) : OwnerChange ks (some owner)
  /-- The first accepted write of a key without an owner. -/
  | claimed (hkind : opKind e.kind ∈ [.set, .del, .add, .remove]) (hnone : ks.owner = none) :
      OwnerChange ks (some (js e.writer))

structure Authorized (ks ks' : KeyState) : Prop where
  content : ownedWriteAllowed ks e = true ∨ SameContent ks ks'
  owner : OwnerChange d e ks ks'.owner

/-- The payload of a `resolve` or a `resolve-member` does not make its fold throw. -/
def ResolveTaken (ks : KeyState) : Prop :=
  match opKind e.kind with
  | .resolve => ∃ ids, payloadSupersedes e = some ids ∧
      ∃ r, applySupersedes ks.frontier ks.superseded ids = .ok r
  | .resolveMember => ∃ member, payloadString d e "member" = some member ∧
      ∀ ms, ks.member member = some ms → ∃ ids, payloadSupersedes e = some ids ∧
        ∃ r, applySupersedes ms.frontier ms.superseded ids = .ok r
  | _ => False

/-- A `resolve` or a `resolve-member` of the key by someone else than its owner. -/
def Usurps (ks : KeyState) : Prop :=
  e.key = some key ∧ ownedWriteAllowed ks e = false ∧ ResolveTaken d e ks

/-- The state of the key after the entry, thrown or not. -/
def keyAfter (keys : Keys) : KeyState := (foldKeys d lookup keys e).state key

end

namespace SameContent

theorem refl (ks : KeyState) : SameContent ks ks := ⟨rfl, rfl, rfl, rfl, fun _ => rfl⟩

theorem of_settled {ks ks' : KeyState} (hsame : ks'.settled = ks.settled) :
    SameContent ks ks' := by
  have hmembers : ks'.members = ks.members := congrArg (·.members) hsame
  constructor
  · exact congrArg (·.value) hsame
  · exact congrArg (·.winner) hsame
  · exact congrArg (·.winnerOrder) hsame
  · exact congrArg (·.resetGen) hsame
  · intro name
    rw [KeyState.member, KeyState.member, hmembers]

end SameContent

@[simp] theorem owner_foldKeyWrite (lookup : Lookup) (ks : KeyState) (key : Key) (e : LogEntry)
    (policy : ConflictPolicy) (value : Option JsonValue) (isDel : Bool) :
    (foldKeyWrite lookup ks key e policy value isDel).1.owner = ks.owner := by
  rw [foldKeyWrite_fst]
  split
  · rfl
  · rfl

@[simp] theorem owner_foldMemberOp (lookup : Lookup) (ks : KeyState) (key : Key) (e : LogEntry)
    (policy : ConflictPolicy) (member : JsString) (present : Bool) :
    (foldMemberOp lookup ks key e policy member present).1.owner = ks.owner := by
  rw [foldMemberOp_fst]
  change (ks.tracked e).owner = ks.owner
  rw [KeyState.tracked]
  split
  · rfl
  · rfl

@[simp] theorem owner_mirror (ks : KeyState) : ks.mirror.owner = ks.owner := by
  rw [KeyState.mirror]
  split
  · rfl
  · rfl

/-- A claim keeps an owner, and makes the writer the owner of a key that has none. -/
theorem ownerChange_claimOwner {d : RegisterDeps} {e : LogEntry} {ks ks₀ : KeyState}
    (hkind : opKind e.kind ∈ [.set, .del, .add, .remove]) (howner : ks₀.owner = ks.owner)
    (policy : ConflictPolicy) :
    OwnerChange d e ks (claimOwner ks₀ e policy).owner := by
  rw [claimOwner]
  split
  · next h =>
    rw [howner] at h
    exact .claimed hkind h.2
  · rw [howner]
    exact .kept

/-- The clock of a winner is the stamp of the entry, or what it was. -/
theorem KeyStep.winnerOrder {d : RegisterDeps} {lookup : Lookup} {ks ks' : KeyState}
    (hstep : KeyStep d lookup key e ks ks') :
    ks'.winnerOrder = ks.winnerOrder ∨ ks'.winnerOrder = some (orderOf e) := by
  have hclaim : ∀ ks policy, (claimOwner ks e policy).winnerOrder = ks.winnerOrder := by
    intro ks policy
    obtain ⟨owner, howner⟩ := claimOwner_eq ks e policy
    rw [howner]
  have hwrite : ∀ ks policy value isDel,
      (foldKeyWrite lookup ks key e policy value isDel).1.winnerOrder = ks.winnerOrder ∨
        (foldKeyWrite lookup ks key e policy value isDel).1.winnerOrder = some (orderOf e) := by
    intro ks policy value isDel
    rw [foldKeyWrite_fst]
    split
    · exact .inr rfl
    · exact .inl rfl
  have hmember : ∀ ks policy member present,
      (foldMemberOp lookup ks key e policy member present).1.winnerOrder = ks.winnerOrder ∨
        (foldMemberOp lookup ks key e policy member present).1.winnerOrder =
          some (orderOf e) := by
    intro ks policy member present
    rw [foldMemberOp_fst]
    change (ks.tracked e).winnerOrder = _ ∨ (ks.tracked e).winnerOrder = _
    rw [KeyState.tracked]
    split
    · exact .inr rfl
    · exact .inl rfl
  cases hstep with
  | quiet hsame => exact .inl (congrArg (·.winnerOrder) hsame)
  | chown hkind hallowed howner => exact .inl rfl
  | takeover hkind hverified howner => exact .inl rfl
  | @write ks₀ _ value isDel hkind hallowed hstart hwritten =>
    have hold : ks₀.winnerOrder = ks.winnerOrder := by
      rcases hstart with ⟨rfl, -⟩ | rfl
      · rfl
      · rfl
    have hsame : ks'.winnerOrder = _ := congrArg (·.winnerOrder) hwritten
    rw [hsame, ← hold]
    change (claimOwner _ e _).winnerOrder = _ ∨ (claimOwner _ e _).winnerOrder = _
    rw [hclaim]
    exact hwrite ks₀ _ _ _
  | resolve hkind hids htaken => exact hwrite _ _ _ _
  | member hkind hallowed hm =>
    rw [hclaim]
    have hmirror : ks.mirror.winnerOrder = ks.winnerOrder := by
      rw [KeyState.mirror]
      split
      · rfl
      · rfl
    rw [← hmirror]
    exact hmember _ _ _ _
  | @resolveMember member ks₀ hkind hm hstart =>
    have hold : ks₀.winnerOrder = ks.winnerOrder := by
      rcases hstart with ⟨rfl, -⟩ | ⟨ms, ids, frontier, superseded, -, -, -, rfl⟩
      · rfl
      · rfl
    rw [← hold]
    exact hmember _ _ _ _

/-- In a fold in total order, the winner of every key is earlier than what comes. -/
theorem winner_before {d : RegisterDeps} {lookup : Lookup} {keys : Keys}
    (hbefore : ∀ e' ∈ front, orderOf e' < orderOf e)
    (hfold : foldList d lookup .empty front = .ok keys) (key : Key) :
    ∀ o ∈ (keys.state key).winnerOrder, o < orderOf e := by
  apply foldList_preserves (P := fun _ ks => ∀ o ∈ ks.winnerOrder, o < orderOf e) _ _ hfold key
  · intro e' he' key ks ks' h hstep o ho
    rcases hstep.winnerOrder with hsame | hnew
    · rw [hsame] at ho
      exact h o ho
    · rw [hnew] at ho
      cases ho
      exact hbefore e' he'
  · intro key o ho
    cases ho

/-- Supersedes marks leave the content of a key. -/
theorem sameContent_setMember {ks : KeyState} {ms ms' : MemberState}
    (hms : ks.member member = some ms) (hsame : ms'.present = ms.present) :
    SameContent ks (ks.setMember member ms') := by
  constructor
  · rfl
  · rfl
  · rfl
  · rfl
  · intro name
    rw [get_setMember]
    split
    · next he =>
      rw [← he, hms, Option.map_some, Option.map_some, hsame]
    · rfl

/-- What a fold step that throws has made of a key. -/
inductive KeyThrow (d : RegisterDeps) (key : Key) (e : LogEntry) (ks : KeyState) : KeyState → Prop
  | quiet : KeyThrow d key e ks ks
  | mirror (hallowed : d.conflictPolicyFor key = .owned → ownedWriteAllowed ks e = true) :
      KeyThrow d key e ks ks.mirror
  | resolve (frontier superseded : List EntryId) :
      KeyThrow d key e ks { ks with frontier := frontier, superseded := superseded }
  | resolveMember (frontier superseded : List EntryId) (hms : ks.member member = some ms) :
      KeyThrow d key e ks
        (ks.setMember member { ms with frontier := frontier, superseded := superseded })

theorem setOwner_throw {d : RegisterDeps} {ks ks' : KeyState} {e : LogEntry}
    (hfold : setOwner d ks e = .error ks') : ks' = ks := by
  rw [setOwner] at hfold
  cases ho : payloadString d e "newOwner" with
  | none =>
    rw [ho] at hfold
    cases hfold
    rfl
  | some owner =>
    rw [ho] at hfold
    cases hfold

theorem foldMember_throw {d : RegisterDeps} {lookup : Lookup} {ks ks' : KeyState} {key : Key}
    {e : LogEntry} (hfold : foldMember d lookup ks key e (d.conflictPolicyFor key) present =
      .error ks') : KeyThrow d key e ks ks' := by
  rw [foldMember] at hfold
  split at hfold
  next => cases hfold
  next hnot =>
    have hallowed (hpolicy : d.conflictPolicyFor key = .owned) :
        ownedWriteAllowed ks e = true := by
      by_contra hno
      exact hnot ⟨hpolicy, hno⟩
    cases hm : payloadString d e "member" with
    | none =>
      rw [hm] at hfold
      cases hfold
      exact .mirror hallowed
    | some member =>
      rw [hm] at hfold
      cases hfold

theorem foldKey_throw {d : RegisterDeps} {lookup : Lookup} {ks ks' : KeyState} {key : Key}
    {e : LogEntry} (hfold : foldKey d lookup ks key e = .error ks') : KeyThrow d key e ks ks' := by
  rw [foldKey] at hfold
  cases hkind : opKind e.kind with
  | request | other =>
    rw [hkind] at hfold
    cases hfold
  | chown =>
    simp only [hkind, foldChown] at hfold
    split at hfold
    · rw [setOwner_throw hfold]
      exact .quiet
    · cases hfold
  | chownTakeover =>
    simp only [hkind, foldTakeover] at hfold
    split at hfold
    · rw [setOwner_throw hfold]
      exact .quiet
    · cases hfold
  | set =>
    simp only [hkind, foldSet] at hfold
    split at hfold
    · cases hfold
    · cases hfold
  | del =>
    simp only [hkind, foldDel] at hfold
    split at hfold
    · cases hfold
    · cases hfold
  | resolve =>
    simp only [hkind, foldResolve] at hfold
    cases hids : payloadSupersedes e with
    | none =>
      rw [hids] at hfold
      cases hfold
      exact .quiet
    | some ids =>
      simp only [hids] at hfold
      cases htaken : applySupersedes ks.frontier ks.superseded ids with
      | error left =>
        rw [htaken] at hfold
        cases hfold
        exact .resolve _ _
      | ok left =>
        rw [htaken] at hfold
        cases hfold
  | add =>
    simp only [hkind] at hfold
    exact foldMember_throw hfold
  | remove =>
    simp only [hkind] at hfold
    exact foldMember_throw hfold
  | resolveMember =>
    simp only [hkind, foldResolveMember] at hfold
    cases hm : payloadString d e "member" with
    | none =>
      rw [hm] at hfold
      cases hfold
      exact .quiet
    | some member =>
      simp only [hm] at hfold
      cases hms : ks.member member with
      | none =>
        rw [hms] at hfold
        cases hfold
      | some ms =>
        simp only [hms] at hfold
        cases hids : payloadSupersedes e with
        | none =>
          rw [hids] at hfold
          cases hfold
          exact .quiet
        | some ids =>
          simp only [hids] at hfold
          cases htaken : applySupersedes ms.frontier ms.superseded ids with
          | error left =>
            rw [htaken] at hfold
            cases hfold
            exact .resolveMember _ _ hms
          | ok left =>
            rw [htaken] at hfold
            cases hfold

/-- A fold step that throws has changed the content of an owned key only for its owner. -/
theorem KeyThrow.authorized {d : RegisterDeps} {ks ks' : KeyState} {key : Key} {e : LogEntry}
    (h : KeyThrow d key e ks ks') (hpolicy : d.conflictPolicyFor key = .owned) :
    ks'.owner = ks.owner ∧ (ownedWriteAllowed ks e = true ∨ SameContent ks ks') := by
  cases h with
  | quiet => exact ⟨rfl, .inr (.refl ks)⟩
  | mirror hallowed => exact ⟨owner_mirror ks, .inl (hallowed hpolicy)⟩
  | resolve frontier superseded => exact ⟨rfl, .inr ⟨rfl, rfl, rfl, rfl, fun _ => rfl⟩⟩
  | resolveMember frontier superseded hms => exact ⟨rfl, .inr (sameContent_setMember hms rfl)⟩

/-- A step of an owned key that is not a `resolve` or a `resolve-member` of someone else. -/
theorem KeyStep.authorized {d : RegisterDeps} {lookup : Lookup} {ks ks' : KeyState}
    (hstep : KeyStep d lookup key e ks ks') (hpolicy : d.conflictPolicyFor key = .owned)
    (hresolve : ResolveTaken d e ks → ownedWriteAllowed ks e = true) :
    Authorized d e ks ks' := by
  cases hstep with
  | quiet hsame =>
    have howner : ks'.owner = ks.owner := congrArg (·.owner) hsame
    constructor
    · exact .inr (.of_settled hsame)
    · rw [howner]
      exact .kept
  | chown hkind hallowed howner => exact ⟨.inl hallowed, .chown hkind hallowed howner⟩
  | takeover hkind hverified howner =>
    constructor
    · exact .inr ⟨rfl, rfl, rfl, rfl, fun _ => rfl⟩
    · exact .takeover hkind hverified howner
  | @write ks₀ _ value isDel hkind hallowed hstart hwritten =>
    have hold : ks₀.owner = ks.owner := by
      rcases hstart with ⟨rfl, -⟩ | rfl
      · rfl
      · rfl
    have howner : ks'.owner = _ := congrArg (·.owner) hwritten
    constructor
    · exact .inl (hallowed hpolicy)
    · rw [howner]
      have hwrites : opKind e.kind ∈ [.set, .del, .add, .remove] := by
        rcases hkind with hk | hk <;> simp [hk]
      apply ownerChange_claimOwner hwrites
      rw [owner_foldKeyWrite, hold]
  | resolve hkind hids htaken =>
    constructor
    · apply Or.inl
      apply hresolve
      rw [ResolveTaken, hkind]
      exact ⟨_, hids, _, htaken⟩
    · rw [owner_foldKeyWrite]
      exact .kept
  | member hkind hallowed hm =>
    constructor
    · exact .inl (hallowed hpolicy)
    · have hwrites : opKind e.kind ∈ [.set, .del, .add, .remove] := by
        rcases hkind with hk | hk <;> simp [hk]
      apply ownerChange_claimOwner hwrites
      rw [owner_foldMemberOp, owner_mirror]
  | @resolveMember member ks₀ hkind hm hstart =>
    have hold : ks₀.owner = ks.owner := by
      rcases hstart with ⟨rfl, -⟩ | ⟨ms, ids, frontier, superseded, -, -, -, rfl⟩
      · rfl
      · rfl
    constructor
    · apply Or.inl
      apply hresolve
      rw [ResolveTaken, hkind]
      refine ⟨member, hm, ?_⟩
      intro ms hms
      rcases hstart with ⟨-, hnone⟩ | ⟨ms', ids, frontier, superseded, hms', hids, htaken, -⟩
      · rw [hms] at hnone
        cases hnone
      · rw [hms] at hms'
        cases hms'
        exact ⟨ids, hids, _, htaken⟩
    · rw [owner_foldMemberOp, hold]
      exact .kept

/-- A `resolve` or a `resolve-member` whose payload can be read takes the key, whoever sent it. -/
theorem resolve_takes {d : RegisterDeps} {ks : KeyState} {e : LogEntry} (lookup : Lookup)
    (key : Key) (hpolicy : d.conflictPolicyFor key = .owned) (htaken : ResolveTaken d e ks)
    (hbefore : ∀ o ∈ ks.winnerOrder, o < orderOf e) :
    (foldKeyState d lookup key ks e).winnerOrder = some (orderOf e) := by
  have hlater : ∀ o ∈ ks.winnerOrder, orderCompare (orderOf e) o > 0 := by
    intro o ho
    have hlt := hbefore o ho
    rw [← not_le, ← orderCompare_le_zero] at hlt
    omega
  have hadopts : ∀ frontier superseded, adoptsWrite lookup { ks with
      frontier := frontier, superseded := superseded } e .owned = true := by
    intro frontier superseded
    rw [adoptsWrite]
    cases hw : ks.winner with
    | none => rfl
    | some w =>
      cases ho : ks.winnerOrder with
      | none => rfl
      | some o => simpa using hlater o ho
  have htracks : ∀ ks₀ : KeyState, ks₀.winnerOrder = ks.winnerOrder →
      (ks₀.tracked e).winnerOrder = some (orderOf e) := by
    intro ks₀ hsame
    rw [KeyState.tracked, if_pos]
    rw [hsame, Option.all_eq_true]
    intro o ho
    exact decide_eq_true (hlater o ho)
  rw [foldKeyState, foldKey]
  rw [ResolveTaken] at htaken
  cases hkind : opKind e.kind with
  | resolve =>
    rw [hkind] at htaken
    obtain ⟨ids, hids, r, hr⟩ := htaken
    simp only [foldResolve, hids, hr, hpolicy]
    rw [foldKeyWrite_fst, hadopts, if_pos rfl]
  | resolveMember =>
    rw [hkind] at htaken
    obtain ⟨member, hm, hsupersedes⟩ := htaken
    simp only [foldResolveMember, hm]
    cases hms : ks.member member with
    | none =>
      dsimp only
      rw [foldMemberOp_fst]
      exact htracks ks rfl
    | some ms =>
      obtain ⟨ids, hids, r, hr⟩ := hsupersedes ms hms
      simp only [hids, hr]
      rw [foldMemberOp_fst]
      exact htracks _ rfl
  | request | chown | chownTakeover | set | del | add | remove | other =>
    rw [hkind] at htaken
    exact htaken.elim

/-- In a fold in total order, an entry changes an owned key with authority exactly when it is not a
`resolve` or a `resolve-member` of someone else whose payload can be read. -/
theorem owned_key_authority (d : RegisterDeps) (lookup : Lookup) (key : Key)
    (hpolicy : d.conflictPolicyFor key = .owned) (front back : List LogEntry) (e : LogEntry)
    (hsorted : (front ++ e :: back).Pairwise fun e e' => orderOf e < orderOf e') (keys : Keys)
    (hfold : foldList d lookup .empty front = .ok keys) :
    Authorized d e (keys.state key) (keyAfter d lookup key e keys) ↔
      ¬ Usurps d key e (keys.state key) := by
  have hbefore : ∀ o ∈ (keys.state key).winnerOrder, o < orderOf e := by
    apply winner_before _ hfold
    intro e' he'
    exact (List.pairwise_append.1 hsorted).2.2 e' he' e (by simp)
  have hafter : keyAfter d lookup key e keys =
      if e.key = some key then foldKeyState d lookup key (keys.state key) e
      else keys.state key := state_foldKeys lookup keys e key
  constructor
  · rintro hauth ⟨hkey, hrefused, htaken⟩
    rw [hafter, if_pos hkey] at hauth
    rcases hauth.content with hallowed | hsame
    · rw [hrefused] at hallowed
      cases hallowed
    · have horder := hsame.winnerOrder
      rw [resolve_takes lookup key hpolicy htaken hbefore] at horder
      exact lt_irrefl _ (hbefore _ horder.symm)
  · intro hnot
    rw [hafter]
    by_cases hkey : e.key = some key
    · rw [if_pos hkey, foldKeyState]
      cases hr : foldKey d lookup (keys.state key) key e with
      | ok r =>
        apply (foldKey_step hr).authorized hpolicy
        intro htaken
        by_contra hrefused
        exact hnot ⟨hkey, by simpa using hrefused, htaken⟩
      | error ks' =>
        obtain ⟨howner, hcontent⟩ := (foldKey_throw hr).authorized hpolicy
        constructor
        · exact hcontent
        · dsimp only
          rw [howner]
          exact .kept
    · rw [if_neg hkey]
      exact ⟨.inr (.refl _), .kept⟩

/-- A `resolve` of a key of the topic `t` that supersedes nothing. -/
def bareResolve (key : String) (writer : WriterId) (seq l : Nat) : LogEntry :=
  { setEntry key writer seq l none with kind := js "resolve" }

/-- The refused `set` of someone else. -/
theorem refused_set_has_authority :
    ∃ keys, foldList ownedDeps (fun _ _ => none) .empty [setEntry "k" "a" 1 1 none] = .ok keys ∧
      Authorized ownedDeps (setEntry "k" "b" 1 2 none) (keys.state (js "k"))
        (keyAfter ownedDeps (fun _ _ => none) (js "k") (setEntry "k" "b" 1 2 none) keys) := by
  refine ⟨_, rfl, ?_⟩
  apply (owned_key_authority ownedDeps (fun _ _ => none) (js "k") rfl [setEntry "k" "a" 1 1 none] []
    (setEntry "k" "b" 1 2 none) (List.pairwise_pair.2 (by decide +kernel)) _ rfl).2
  rintro ⟨-, -, htaken⟩
  have hkind : opKind (setEntry "k" "b" 1 2 none).kind = .set := by decide +kernel
  rw [ResolveTaken, hkind] at htaken
  exact htaken

/-- The `resolve` of someone else, which the fold does not refuse. -/
theorem resolve_without_authority :
    ∃ keys, foldList ownedDeps (fun _ _ => none) .empty [setEntry "k" "a" 1 1 none] = .ok keys ∧
      ¬ Authorized ownedDeps (bareResolve "k" "b" 1 2) (keys.state (js "k"))
        (keyAfter ownedDeps (fun _ _ => none) (js "k") (bareResolve "k" "b" 1 2) keys) := by
  refine ⟨_, rfl, ?_⟩
  intro hauth
  rcases hauth.content with hallowed | hsame
  · exact absurd hallowed (by decide +kernel)
  · exact absurd hsame.winner (by decide +kernel)

end Seqscribe
