import Seqscribe.RegisterPass
import Seqscribe.ViewArchive

namespace Seqscribe
set_option autoImplicit true

open Replay

/-! The fold of a register topic: when it throws, what it reads of the store, and which key it
changes. -/

/-- Whatever the key's state, `applySupersedes` takes these ids. -/
def SupersedesOk (e : LogEntry) : Prop :=
  ∃ ids, payloadSupersedes e = some ids ∧ ∀ s ∈ ids, s.isNull = false

/-- The payload has the types that its kind reads. -/
def PayloadOk (d : RegisterDeps) (e : LogEntry) : Prop :=
  match opKind e.kind with
  | .chown => (payloadString d e "newOwner").isSome
  | .chownTakeover => d.verifyTakeover e = true → (payloadString d e "newOwner").isSome
  | .add | .remove => (payloadString d e "member").isSome
  | .resolve => SupersedesOk e
  | .resolveMember => (payloadString d e "member").isSome ∧ SupersedesOk e
  | .request | .set | .del | .other => True

theorem applySupersedes_ok {ids : List JsonValue} (h : ∀ s ∈ ids, s.isNull = false)
    (frontier superseded : List EntryId) :
    ∃ r, applySupersedes frontier superseded ids = .ok r := by
  induction ids generalizing frontier superseded with
  | nil => exact ⟨_, rfl⟩
  | cons s ids ih =>
    have hs : ¬ (s.isNull = true ∧ frontier ≠ []) := by
      rw [h s (by simp)]
      simp
    have hids : ∀ s ∈ ids, s.isNull = false := fun s hs => h s (List.mem_cons_of_mem _ hs)
    rw [applySupersedes, if_neg hs]
    split
    · exact ih hids _ _
    · exact ih hids _ _

/-- A null element meets a head of a frontier that is long enough. -/
theorem applySupersedes_error {ids : List JsonValue} {s : JsonValue} (hs : s ∈ ids)
    (hnull : s.isNull = true) {frontier : List EntryId} (hlen : ids.length < frontier.length)
    (superseded : List EntryId) : ∃ r, applySupersedes frontier superseded ids = .error r := by
  induction ids generalizing frontier superseded with
  | nil => cases hs
  | cons s' ids ih =>
    rw [applySupersedes]
    have hne : frontier ≠ [] := by
      rintro rfl
      simp at hlen
    by_cases hn : s'.isNull = true
    · rw [if_pos ⟨hn, hne⟩]
      exact ⟨_, rfl⟩
    · rw [if_neg (fun hc => hn hc.1)]
      have hin : s ∈ ids := by
        rcases List.mem_cons.1 hs with rfl | hin
        · exact absurd hnull hn
        · exact hin
      rw [List.length_cons] at hlen
      split
      · next idx hidx =>
        apply ih hin
        have := List.findIdx?_eq_some_iff_findIdx_eq.1 hidx
        rw [List.length_eraseIdx_of_lt this.1]
        omega
      · exact ih hin (by omega) _

/-- A key's fold never throws on a payload of the right types. -/
theorem foldKey_ok {d : RegisterDeps} {e : LogEntry} (hok : PayloadOk d e) (lookup : Lookup)
    (ks : KeyState) (key : Key) : ∃ r, foldKey d lookup ks key e = .ok r := by
  unfold foldKey
  unfold PayloadOk at hok
  cases hk : opKind e.kind with
  | request => exact ⟨_, rfl⟩
  | other => exact ⟨_, rfl⟩
  | chown =>
    rw [hk] at hok
    obtain ⟨owner, ho⟩ := Option.isSome_iff_exists.1 hok
    simp only [foldChown, setOwner, ho]
    split <;> exact ⟨_, rfl⟩
  | chownTakeover =>
    rw [hk] at hok
    simp only [foldTakeover, setOwner]
    split
    · next hv =>
      obtain ⟨owner, ho⟩ := Option.isSome_iff_exists.1 (hok hv)
      simp only [ho]
      exact ⟨_, rfl⟩
    · exact ⟨_, rfl⟩
  | set =>
    simp only [foldSet]
    split <;> exact ⟨_, rfl⟩
  | del =>
    simp only [foldDel]
    split <;> exact ⟨_, rfl⟩
  | resolve =>
    rw [hk] at hok
    obtain ⟨ids, hids, hnull⟩ := hok
    obtain ⟨r, hr⟩ := applySupersedes_ok hnull ks.frontier ks.superseded
    simp only [foldResolve, hids, hr]
    exact ⟨_, rfl⟩
  | add =>
    rw [hk] at hok
    obtain ⟨member, hm⟩ := Option.isSome_iff_exists.1 hok
    simp only [foldMember, hm]
    split <;> exact ⟨_, rfl⟩
  | remove =>
    rw [hk] at hok
    obtain ⟨member, hm⟩ := Option.isSome_iff_exists.1 hok
    simp only [foldMember, hm]
    split <;> exact ⟨_, rfl⟩
  | resolveMember =>
    rw [hk] at hok
    obtain ⟨member, hm⟩ := Option.isSome_iff_exists.1 hok.1
    obtain ⟨ids, hids, hnull⟩ := hok.2
    simp only [foldResolveMember, hm, hids]
    cases ks.member member with
    | none => exact ⟨_, rfl⟩
    | some ms =>
      obtain ⟨r, hr⟩ := applySupersedes_ok hnull ms.frontier ms.superseded
      dsimp only
      rw [hr]
      exact ⟨_, rfl⟩

/-- On a payload of the wrong types, the fold of some key state throws. -/
theorem foldKey_error {d : RegisterDeps} {e : LogEntry} (hbad : ¬ PayloadOk d e)
    (lookup : Lookup) (key : Key) : ∃ ks ks', foldKey d lookup ks key e = .error ks' := by
  have hsupersedes : ¬ SupersedesOk e → payloadSupersedes e = none ∨
      ∃ ids, payloadSupersedes e = some ids ∧ ∃ s ∈ ids, s.isNull = true := by
    intro hs
    cases hids : payloadSupersedes e with
    | none => exact .inl rfl
    | some ids =>
      right
      by_contra hall
      apply hs
      refine ⟨ids, hids, fun s hmem => ?_⟩
      by_contra hnull
      exact hall ⟨ids, rfl, s, hmem, by simpa using hnull⟩
  have hlong : ∀ ids : List JsonValue,
      ids.length < (List.replicate (ids.length + 1) e.id).length := by
    simp
  unfold PayloadOk at hbad
  unfold foldKey
  cases hk : opKind e.kind with
  | request | other | set | del =>
    rw [hk] at hbad
    exact absurd trivial hbad
  | chown =>
    rw [hk] at hbad
    have hnone : payloadString d e "newOwner" = none := by simpa using hbad
    refine ⟨.fresh, .fresh, ?_⟩
    simp only [foldChown, setOwner, hnone]
    rfl
  | chownTakeover =>
    rw [hk] at hbad
    obtain ⟨hv, hnone⟩ := Classical.not_imp.1 hbad
    have hnone : payloadString d e "newOwner" = none := by simpa using hnone
    refine ⟨.fresh, .fresh, ?_⟩
    simp only [foldTakeover, setOwner, hnone, hv, if_true]
  | add | remove =>
    rw [hk] at hbad
    have hnone : payloadString d e "member" = none := by simpa using hbad
    refine ⟨.fresh, KeyState.mirror .fresh, ?_⟩
    have hallowed : ¬ (d.conflictPolicyFor key = .owned ∧
        ¬ ownedWriteAllowed KeyState.fresh e = true) := by
      rintro ⟨-, hn⟩
      exact hn rfl
    simp only [foldMember, if_neg hallowed, hnone]
  | resolve =>
    rw [hk] at hbad
    rcases hsupersedes hbad with hnone | ⟨ids, hids, s, hs, hnull⟩
    · exact ⟨.fresh, .fresh, by simp only [foldResolve, hnone]⟩
    · obtain ⟨⟨f, sup⟩, hr⟩ := applySupersedes_error hs hnull (hlong ids) []
      refine ⟨{ KeyState.fresh with frontier := List.replicate (ids.length + 1) e.id },
        { KeyState.fresh with frontier := f, superseded := sup }, ?_⟩
      simp only [foldResolve, hids, KeyState.fresh, hr]
  | resolveMember =>
    rw [hk] at hbad
    cases hm : payloadString d e "member" with
    | none => exact ⟨.fresh, .fresh, by simp only [foldResolveMember, hm]⟩
    | some member =>
      have hs : ¬ SupersedesOk e := fun hs => hbad ⟨by rw [hm]; rfl, hs⟩
      have hmember : ∀ ms : MemberState, (KeyState.fresh.setMember member ms).member member =
          some ms := by
        intro ms
        simp [KeyState.setMember, KeyState.member, Table.get_upsert]
      rcases hsupersedes hs with hnone | ⟨ids, hids, s, hs, hnull⟩
      · refine ⟨KeyState.fresh.setMember member ⟨true, e.id, orderOf e, [], []⟩,
          KeyState.fresh.setMember member ⟨true, e.id, orderOf e, [], []⟩, ?_⟩
        simp only [foldResolveMember, hm, hmember, hnone]
      · obtain ⟨⟨f, sup⟩, hr⟩ := applySupersedes_error hs hnull (hlong ids) []
        refine ⟨KeyState.fresh.setMember member
          ⟨true, e.id, orderOf e, List.replicate (ids.length + 1) e.id, []⟩,
          (KeyState.fresh.setMember member
            ⟨true, e.id, orderOf e, List.replicate (ids.length + 1) e.id, []⟩).setMember member
            ⟨true, e.id, orderOf e, f, sup⟩, ?_⟩
        simp only [foldResolveMember, hm, hmember, hids, hr]

theorem mem_setMember {ks : KeyState} {member : JsString} {ms : MemberState}
    (hm : m ∈ (ks.setMember member ms).members.rows) :
    m = (member, ms) ∨ m ∈ ks.members.rows := Table.eq_or_mem_of_mem_upsert hm

theorem get_setMember (ks : KeyState) (member name : JsString) (ms : MemberState) :
    (ks.setMember member ms).member name = if member = name then some ms else ks.member name := by
  rw [KeyState.member, KeyState.setMember, Table.get_upsert]
  split
  · rfl
  · rfl

theorem member_setMember (ks : KeyState) (member : JsString) (ms : MemberState) :
    (ks.setMember member ms).member member = some ms := by
  rw [get_setMember, if_pos rfl]

theorem mem_of_member {ks : KeyState} {member : JsString} {ms : MemberState}
    (h : ks.member member = some ms) : (member, ms) ∈ ks.members.rows := by
  obtain ⟨m, hm, rfl⟩ := Option.map_eq_some_iff.1 h
  obtain ⟨hmem, rfl⟩ := Table.get_eq_some_iff.1 hm
  exact hmem

theorem claimOwner_eq (ks : KeyState) (e : LogEntry) (policy : ConflictPolicy) :
    ∃ owner, claimOwner ks e policy = { ks with owner := owner } := by
  unfold claimOwner
  split
  · exact ⟨_, rfl⟩
  · exact ⟨ks.owner, rfl⟩

/-! What the two kinds of writes leave. -/

/-- The key-level winner after a member op. -/
def KeyState.tracked (ks : KeyState) (e : LogEntry) : KeyState :=
  if ks.winnerOrder.all fun o => decide (orderCompare (orderOf e) o > 0) then
    { ks with winner := some e.id, winnerOrder := some (orderOf e) }
  else ks

section
variable (lookup : Lookup)

/-- Whether a key-level write becomes the winner. -/
def adoptsWrite (ks : KeyState) (e : LogEntry) (policy : ConflictPolicy) : Bool :=
  match ks.winner, ks.winnerOrder with
  | some winner, some winnerOrder =>
    if policy = .fww then isAncestor lookup winner e
    else decide (orderCompare (orderOf e) winnerOrder > 0)
  | _, _ => true

theorem foldKeyWrite_fst (ks : KeyState) (key : Key) (e : LogEntry) (policy : ConflictPolicy)
    (value : Option JsonValue) (isDel : Bool) :
    (foldKeyWrite lookup ks key e policy value isDel).1 =
      if adoptsWrite lookup ks e policy then
        { ks with
          frontier := newFrontier lookup ks.frontier e
          winner := some e.id
          winnerOrder := some (orderOf e)
          value := if isDel then none else value.orElse fun _ => ks.value }
      else { ks with frontier := newFrontier lookup ks.frontier e } := rfl

/-- Whether an op on a member becomes its entry. -/
def adoptsMember (ms : MemberState) (e : LogEntry) (policy : ConflictPolicy) : Bool :=
  if policy = .fww then isAncestor lookup ms.entry e
  else decide (orderCompare (orderOf e) ms.order > 0)

/-- The sub-register of a member after an op on it. -/
def memberAfter (e : LogEntry) (policy : ConflictPolicy) (present : Bool) :
    Option MemberState → MemberState
  | none => ⟨present, e.id, orderOf e, [e.id], []⟩
  | some ms =>
    if adoptsMember lookup ms e policy then
      { ms with
        present := present, entry := e.id, order := orderOf e
        frontier := newFrontier lookup ms.frontier e }
    else { ms with frontier := newFrontier lookup ms.frontier e }

theorem foldMemberOp_fst (ks : KeyState) (key : Key) (e : LogEntry) (policy : ConflictPolicy)
    (member : JsString) (present : Bool) :
    (foldMemberOp lookup ks key e policy member present).1 =
      (ks.tracked e).setMember member
        (memberAfter lookup e policy present ((ks.tracked e).member member)) := by
  rw [foldMemberOp]
  change (match (ks.tracked e).member member with | none => _ | some ms => _ : KeyState × List FoldEvent).1 = _
  cases (ks.tracked e).member member <;> rfl

end

/-- Without the transient request list. -/
def KeyState.settled (ks : KeyState) : KeyState := { ks with requests := [] }

theorem settled_claimOwner (ks : KeyState) (e : LogEntry) (policy : ConflictPolicy) :
    (claimOwner ks e policy).settled = claimOwner ks.settled e policy := by
  rw [claimOwner, apply_ite KeyState.settled]
  rfl

theorem settled_markApproved (ks : KeyState) (ref approver : EntryId) :
    (markApproved ks ref approver).settled = ks.settled := rfl

section
variable (d : RegisterDeps) (lookup : Lookup) (key : Key) (e : LogEntry)

/-- What a fold step that does not throw can make of a key. -/
inductive KeyStep (ks : KeyState) : KeyState → Prop
  /-- A request, a refused write, or an unknown kind. -/
  | quiet (hsame : ks'.settled = ks.settled) : KeyStep ks ks'
  | chown (hkind : opKind e.kind = .chown) (hallowed : ownedWriteAllowed ks e = true)
      (howner : payloadString d e "newOwner" = some owner) :
      KeyStep ks { ks with owner := some owner }
  | takeover (hkind : opKind e.kind = .chownTakeover) (hverified : d.verifyTakeover e = true)
      (howner : payloadString d e "newOwner" = some owner) :
      KeyStep ks { ks with owner := some owner }
  | write (hkind : opKind e.kind = .set ∨ opKind e.kind = .del)
      (hallowed : d.conflictPolicyFor key = .owned → ownedWriteAllowed ks e = true)
      (hstart : ks₀ = ks ∧ ks.scalar = true ∨ ks₀ = ks.reset)
      (hwrite : ks'.settled = (claimOwner
        (foldKeyWrite lookup ks₀ key e (d.conflictPolicyFor key) value isDel).1 e
        (d.conflictPolicyFor key)).settled) : KeyStep ks ks'
  | resolve {frontier : List EntryId} (hkind : opKind e.kind = .resolve)
      (hids : payloadSupersedes e = some ids)
      (htaken : applySupersedes ks.frontier ks.superseded ids = .ok (frontier, superseded)) :
      KeyStep ks (foldKeyWrite lookup { ks with frontier := frontier, superseded := superseded } key
        e (d.conflictPolicyFor key) (e.payload.member "value") false).1
  | member (hkind : opKind e.kind = .add ∨ opKind e.kind = .remove)
      (hallowed : d.conflictPolicyFor key = .owned → ownedWriteAllowed ks e = true)
      (hmember : payloadString d e "member" = some member) :
      KeyStep ks (claimOwner (foldMemberOp lookup ks.mirror key e (d.conflictPolicyFor key) member
        present).1 e (d.conflictPolicyFor key))
  | resolveMember (hkind : opKind e.kind = .resolveMember)
      (hmember : payloadString d e "member" = some member)
      (hstart : ks₀ = ks ∧ ks.member member = none ∨ ∃ ms ids frontier superseded,
        ks.member member = some ms ∧ payloadSupersedes e = some ids ∧
          applySupersedes ms.frontier ms.superseded ids = .ok (frontier, superseded) ∧
          ks₀ = ks.setMember member { ms with frontier := frontier, superseded := superseded }) :
      KeyStep ks (foldMemberOp lookup ks₀ key e (d.conflictPolicyFor key) member
        (JsonValue.truthy (e.payload.member "present"))).1

end

/-- A fold step of a key is one of these. -/
theorem foldKey_step {d : RegisterDeps} {lookup : Lookup} {ks : KeyState} {key : Key}
    {e : LogEntry} (hfold : foldKey d lookup ks key e = .ok r) :
    KeyStep d lookup key e ks r.1 := by
  have hpass : ∀ {P : Prop} [Decidable P] {a b : FoldM}, (if P then a else b) = .ok r →
      P ∧ a = .ok r ∨ ¬ P ∧ b = .ok r := by
    intro P _ a b h
    by_cases hp : P
    · exact .inl ⟨hp, by rwa [if_pos hp] at h⟩
    · exact .inr ⟨hp, by rwa [if_neg hp] at h⟩
  have hallowed : ∀ {policy : ConflictPolicy},
      ¬ (policy = .owned ∧ ¬ ownedWriteAllowed ks e = true) →
      policy = .owned → ownedWriteAllowed ks e = true := by
    intro policy hnot hp
    by_contra hno
    exact hnot ⟨hp, hno⟩
  have howner : setOwner d ks e = .ok r → ∃ owner, payloadString d e "newOwner" = some owner ∧
      r.1 = { ks with owner := some owner } := by
    intro h
    rw [setOwner] at h
    cases ho : payloadString d e "newOwner" with
    | none =>
      rw [ho] at h
      cases h
    | some owner =>
      rw [ho] at h
      cases h
      exact ⟨owner, rfl, rfl⟩
  have hmember : ∀ present, opKind e.kind = .add ∨ opKind e.kind = .remove →
      foldMember d lookup ks key e (d.conflictPolicyFor key) present = .ok r →
      KeyStep d lookup key e ks r.1 := by
    intro present hkind h
    rw [foldMember] at h
    rcases hpass h with ⟨-, h⟩ | ⟨hnot, h⟩
    · cases h
      exact .quiet rfl
    · cases hm : payloadString d e "member" with
      | none =>
        rw [hm] at h
        cases h
      | some member =>
        rw [hm] at h
        cases h
        exact .member hkind (hallowed hnot) hm
  rw [foldKey] at hfold
  cases hkind : opKind e.kind with
  | request =>
    rw [hkind] at hfold
    cases hfold
    exact .quiet rfl
  | other =>
    rw [hkind] at hfold
    cases hfold
    exact .quiet rfl
  | chown =>
    simp only [hkind, foldChown] at hfold
    rcases hpass hfold with ⟨ha, h⟩ | ⟨-, h⟩
    · obtain ⟨owner, ho, hr⟩ := howner h
      rw [hr]
      exact .chown hkind ha ho
    · cases h
      exact .quiet rfl
  | chownTakeover =>
    simp only [hkind, foldTakeover] at hfold
    rcases hpass hfold with ⟨hv, h⟩ | ⟨-, h⟩
    · obtain ⟨owner, ho, hr⟩ := howner h
      rw [hr]
      exact .takeover hkind hv ho
    · cases h
      exact .quiet rfl
  | set =>
    simp only [hkind, foldSet] at hfold
    rcases hpass hfold with ⟨-, h⟩ | ⟨hnot, h⟩
    · cases h
      exact .quiet rfl
    · cases h
      have hstart : (if ks.scalar then ks else ks.reset) = ks ∧ ks.scalar = true ∨
          (if ks.scalar then ks else ks.reset) = ks.reset := by
        by_cases hs : ks.scalar = true
        · exact .inl ⟨if_pos hs, hs⟩
        · exact .inr (if_neg hs)
      apply KeyStep.write (.inl hkind) (hallowed hnot) hstart
      dsimp only
      cases e.ref with
      | none => rfl
      | some ref => rw [settled_claimOwner, settled_claimOwner, settled_markApproved]
  | del =>
    simp only [hkind, foldDel] at hfold
    rcases hpass hfold with ⟨-, h⟩ | ⟨hnot, h⟩
    · cases h
      exact .quiet rfl
    · cases h
      exact .write (.inr hkind) (hallowed hnot) (.inr rfl) rfl
  | resolve =>
    simp only [hkind, foldResolve] at hfold
    cases hids : payloadSupersedes e with
    | none =>
      rw [hids] at hfold
      cases hfold
    | some ids =>
      simp only [hids] at hfold
      cases htaken : applySupersedes ks.frontier ks.superseded ids with
      | error left =>
        rw [htaken] at hfold
        cases hfold
      | ok left =>
        rw [htaken] at hfold
        cases hfold
        exact .resolve hkind hids htaken
  | add =>
    simp only [hkind] at hfold
    exact hmember true (.inl hkind) hfold
  | remove =>
    simp only [hkind] at hfold
    exact hmember false (.inr hkind) hfold
  | resolveMember =>
    simp only [hkind, foldResolveMember] at hfold
    cases hm : payloadString d e "member" with
    | none =>
      rw [hm] at hfold
      cases hfold
    | some member =>
      simp only [hm] at hfold
      cases hms : ks.member member with
      | none =>
        rw [hms] at hfold
        cases hfold
        exact .resolveMember hkind hm (.inl ⟨rfl, hms⟩)
      | some ms =>
        simp only [hms] at hfold
        cases hids : payloadSupersedes e with
        | none =>
          rw [hids] at hfold
          cases hfold
        | some ids =>
          simp only [hids] at hfold
          cases htaken : applySupersedes ms.frontier ms.superseded ids with
          | error left =>
            rw [htaken] at hfold
            cases hfold
          | ok left =>
            rw [htaken] at hfold
            cases hfold
            exact .resolveMember hkind hm (.inr ⟨ms, ids, _, _, hms, hids, htaken, rfl⟩)

section
variable (d : RegisterDeps) (lookup : Lookup)

/-- A fold step, whatever it throws. -/
def foldKeyState (key : Key) (ks : KeyState) (e : LogEntry) : KeyState :=
  match foldKey d lookup ks key e with
  | .ok r => r.1
  | .error ks => ks

def foldKeys (keys : Keys) (e : LogEntry) : Keys :=
  match foldRegister d lookup keys e with
  | .ok r => r.1
  | .error keys => keys

/-- The fold over a list of entries, from empty. -/
def foldAll (es : List LogEntry) : Keys := es.foldl (foldKeys d lookup) .empty

end

section
variable {d : RegisterDeps}

theorem foldKeys_eq (lookup : Lookup) (keys : Keys) (e : LogEntry) :
    foldKeys d lookup keys e =
      match e.key with
      | none => keys
      | some key => keys.upsert (key, foldKeyState d lookup key (keys.state key) e) := by
  unfold foldKeys foldRegister foldKeyState
  cases e.key with
  | none => rfl
  | some key => cases hf : foldKey d lookup (keys.state key) key e <;> simp only [hf]

theorem state_foldKeys (lookup : Lookup) (keys : Keys) (e : LogEntry) (key : Key) :
    (foldKeys d lookup keys e).state key =
      if e.key = some key then foldKeyState d lookup key (keys.state key) e
      else keys.state key := by
  rw [foldKeys_eq]
  cases he : e.key with
  | none => simp
  | some key' =>
    by_cases hk : key' = key
    · subst hk
      simp [Keys.state, Table.get_upsert]
    · simp [Keys.state, Table.get_upsert, hk]

/-- The state of a key folds the entries of that key alone. -/
theorem state_foldl (lookup : Lookup) (es : List LogEntry) (keys : Keys) (key : Key) :
    (es.foldl (foldKeys d lookup) keys).state key =
      (es.filter fun e => decide (e.key = some key)).foldl (foldKeyState d lookup key)
        (keys.state key) := by
  induction es generalizing keys with
  | nil => rfl
  | cons e es ih =>
    rw [List.foldl_cons, ih, state_foldKeys]
    by_cases hk : e.key = some key <;> simp [hk]

/-- The fold reads the store through the causal walks of its entry only. -/
theorem foldKey_congr {l l' : Lookup} {e : LogEntry}
    (h : ∀ a, isAncestor l a e = isAncestor l' a e) (ks : KeyState) (key : Key) :
    foldKey d l ks key e = foldKey d l' ks key e := by
  have hfrontier : ∀ f, newFrontier l f e = newFrontier l' f e := by
    intro f
    simp only [newFrontier, h]
  have hwrite : ∀ ks policy value isDel, foldKeyWrite l ks key e policy value isDel =
      foldKeyWrite l' ks key e policy value isDel := by
    intro ks policy value isDel
    simp only [foldKeyWrite, hfrontier, h]
  have hmember : ∀ ks policy member present, foldMemberOp l ks key e policy member present =
      foldMemberOp l' ks key e policy member present := by
    intro ks policy member present
    simp only [foldMemberOp, hfrontier, h]
  simp only [foldKey, foldSet, foldDel, foldResolve, foldMember, foldResolveMember, hwrite,
    hmember]

theorem foldKeys_congr {l l' : Lookup} {e : LogEntry}
    (h : ∀ a, isAncestor l a e = isAncestor l' a e) (keys : Keys) :
    foldKeys d l keys e = foldKeys d l' keys e := by
  simp only [foldKeys_eq, foldKeyState, foldKey_congr h]

theorem foldl_foldKeys_congr {l l' : Lookup} {es : List LogEntry}
    (h : ∀ e ∈ es, ∀ a, isAncestor l a e = isAncestor l' a e) (keys : Keys) :
    es.foldl (foldKeys d l) keys = es.foldl (foldKeys d l') keys := by
  induction es generalizing keys with
  | nil => rfl
  | cons e es ih =>
    rw [List.foldl_cons, List.foldl_cons, foldKeys_congr (h e (by simp)),
      ih fun e he => h e (List.mem_cons_of_mem _ he)]

theorem foldAll_congr {l l' : Lookup} {es : List LogEntry}
    (h : ∀ e ∈ es, ∀ a, isAncestor l a e = isAncestor l' a e) :
    foldAll d l es = foldAll d l' es := foldl_foldKeys_congr h _

theorem foldOne_ok {e : LogEntry} (hok : PayloadOk d e) (topic : Topic) (h : RegisterHub) :
    h.foldOne d topic e = .ok { h with
      keys := foldKeys d (h.db.lookup topic) h.keys e
      ord := some (orderOf e) } := by
  unfold RegisterHub.foldOne foldKeys foldRegister
  cases e.key with
  | none => rfl
  | some key =>
    obtain ⟨r, hr⟩ := foldKey_ok hok (h.db.lookup topic) (h.keys.state key) key
    simp only [hr]

end

end Seqscribe
