import Seqscribe.RegisterConverge

namespace Seqscribe
set_option autoImplicit true

/-! Folding on from a snapshot of a fold. -/

/-- What a fold step leaves, apart from requests. -/
def FoldM.settled : FoldM → Except KeyState KeyState
  | .ok r => .ok r.1.settled
  | .error ks => .error ks.settled

section
variable (d : RegisterDeps) (lookup : Lookup)

theorem settled_foldKeyWrite (ks : KeyState) (key : Key) (e : LogEntry) (policy : ConflictPolicy)
    (value : Option JsonValue) (isDel : Bool) :
    (foldKeyWrite lookup ks key e policy value isDel).1.settled =
      (foldKeyWrite lookup ks.settled key e policy value isDel).1 := by
  rw [foldKeyWrite_fst, foldKeyWrite_fst, apply_ite KeyState.settled]
  rfl

theorem settled_tracked (ks : KeyState) (e : LogEntry) :
    (ks.tracked e).settled = ks.settled.tracked e := by
  rw [KeyState.tracked, apply_ite KeyState.settled]
  rfl

theorem settled_foldMemberOp (ks : KeyState) (key : Key) (e : LogEntry) (policy : ConflictPolicy)
    (member : JsString) (present : Bool) :
    (foldMemberOp lookup ks key e policy member present).1.settled =
      (foldMemberOp lookup ks.settled key e policy member present).1 := by
  rw [foldMemberOp_fst, foldMemberOp_fst, ← settled_tracked]
  rfl

theorem settled_mirror (ks : KeyState) : ks.mirror.settled = ks.settled.mirror := by
  rw [KeyState.mirror, apply_ite KeyState.settled]
  rfl

theorem settled_unscaled (ks : KeyState) :
    (if ks.scalar then ks else ks.reset).settled =
      if ks.scalar then ks.settled else ks.settled.reset := by
  rw [apply_ite KeyState.settled]
  rfl

/-- No fold step reads the requests. -/
theorem settled_foldKey (ks : KeyState) (key : Key) (e : LogEntry) :
    FoldM.settled (foldKey d lookup ks key e) =
      FoldM.settled (foldKey d lookup ks.settled key e) := by
  have howner : ownedWriteAllowed ks.settled e = ownedWriteAllowed ks e := rfl
  have hmember : ∀ present, FoldM.settled (foldMember d lookup ks key e
      (d.conflictPolicyFor key) present) = FoldM.settled (foldMember d lookup ks.settled key e
      (d.conflictPolicyFor key) present) := by
    intro present
    rw [foldMember, foldMember, howner]
    split
    · rfl
    · cases payloadString d e "member" with
      | none =>
        change Except.error ks.mirror.settled = Except.error ks.settled.mirror.settled
        rw [settled_mirror, settled_mirror]
        rfl
      | some member =>
        change Except.ok (claimOwner (foldMemberOp lookup ks.mirror key e _ member present).1 e
          _).settled = Except.ok (claimOwner (foldMemberOp lookup ks.settled.mirror key e _ member
          present).1 e _).settled
        rw [settled_claimOwner, settled_claimOwner, settled_foldMemberOp, settled_foldMemberOp,
          settled_mirror, settled_mirror]
        rfl
  rw [foldKey, foldKey]
  cases opKind e.kind with
  | request => rfl
  | other => rfl
  | chown =>
    simp only [foldChown, setOwner, howner]
    cases ownedWriteAllowed ks e <;> cases payloadString d e "newOwner" <;> rfl
  | chownTakeover =>
    simp only [foldTakeover, setOwner]
    cases d.verifyTakeover e <;> cases payloadString d e "newOwner" <;> rfl
  | set =>
    dsimp only
    rw [foldSet, foldSet, howner]
    split
    · rfl
    · cases e.ref <;>
        simp only [FoldM.settled, settled_claimOwner, settled_markApproved, settled_foldKeyWrite,
          settled_unscaled] <;> rfl
  | del =>
    dsimp only
    rw [foldDel, foldDel, howner]
    split
    · rfl
    · simp only [FoldM.settled, settled_claimOwner, settled_foldKeyWrite]
      rfl
  | resolve =>
    dsimp only
    rw [foldResolve, foldResolve]
    cases payloadSupersedes e with
    | none => rfl
    | some ids =>
      dsimp only
      rw [show ks.settled.frontier = ks.frontier from rfl,
        show ks.settled.superseded = ks.superseded from rfl]
      cases applySupersedes ks.frontier ks.superseded ids with
      | error r => rfl
      | ok r =>
        simp only [FoldM.settled, settled_foldKeyWrite]
        rfl
  | add => exact hmember true
  | remove => exact hmember false
  | resolveMember =>
    dsimp only
    rw [foldResolveMember, foldResolveMember]
    cases payloadString d e "member" with
    | none => rfl
    | some member =>
      dsimp only
      rw [show ks.settled.member member = ks.member member from rfl]
      cases ks.member member with
      | none =>
        simp only [FoldM.settled, settled_foldMemberOp]
        rfl
      | some ms =>
        cases payloadSupersedes e with
        | none => rfl
        | some ids =>
          dsimp only
          cases applySupersedes ms.frontier ms.superseded ids with
          | error r => rfl
          | ok r =>
            simp only [FoldM.settled, settled_foldMemberOp]
            rfl

end

/-- What every key of a fold from empty satisfies. -/
structure KeyState.Sound (ks : KeyState) : Prop where
  winner : ks.winnerOrder.isSome = ks.winner.isSome
  heads : ∀ name ms, ks.member name = some ms → ms.frontier ≠ []

namespace KeyState.Sound

theorem fresh : KeyState.fresh.Sound := by
  constructor
  · rfl
  · intro name ms h
    cases h

theorem of_settled {ks ks' : KeyState} (h : ks.Sound) (hsame : ks'.settled = ks.settled) :
    ks'.Sound := by
  have hwinner : ks'.winner = ks.winner := congrArg (·.winner) hsame
  have horder : ks'.winnerOrder = ks.winnerOrder := congrArg (·.winnerOrder) hsame
  have hmembers : ks'.members = ks.members := congrArg (·.members) hsame
  constructor
  · rw [hwinner, horder]
    exact h.winner
  · intro name ms hms
    rw [KeyState.member, hmembers] at hms
    exact h.heads name ms hms

theorem reset {ks : KeyState} (h : ks.Sound) : ks.reset.Sound := by
  constructor
  · exact h.winner
  · intro name ms hms
    cases hms

theorem mirror {ks : KeyState} (h : ks.Sound) : ks.mirror.Sound := by
  rw [KeyState.mirror]
  split
  · exact ⟨h.winner, h.heads⟩
  · exact ⟨h.winner, h.heads⟩

theorem claimOwner {ks : KeyState} (h : ks.Sound) (e : LogEntry) (policy : ConflictPolicy) :
    (claimOwner ks e policy).Sound := by
  obtain ⟨owner, howner⟩ := claimOwner_eq ks e policy
  rw [howner]
  exact ⟨h.winner, h.heads⟩

theorem foldKeyWrite {ks : KeyState} (h : ks.Sound) (lookup : Lookup) (key : Key) (e : LogEntry)
    (policy : ConflictPolicy) (value : Option JsonValue) (isDel : Bool) :
    (foldKeyWrite lookup ks key e policy value isDel).1.Sound := by
  rw [foldKeyWrite_fst]
  split
  · exact ⟨rfl, h.heads⟩
  · exact ⟨h.winner, h.heads⟩

theorem tracked {ks : KeyState} (h : ks.Sound) (e : LogEntry) : (ks.tracked e).Sound := by
  rw [KeyState.tracked]
  split
  · exact ⟨rfl, h.heads⟩
  · exact h

end KeyState.Sound

theorem frontier_memberAfter (lookup : Lookup) (e : LogEntry) (policy : ConflictPolicy)
    (present : Bool) (ms : Option MemberState) :
    (memberAfter lookup e policy present ms).frontier ≠ [] := by
  cases ms with
  | none => simp [memberAfter]
  | some ms =>
    rw [memberAfter]
    split
    · simp [newFrontier]
    · simp [newFrontier]

/-- An op on a member leaves a head, whatever the member's frontier was. -/
theorem KeyState.Sound.foldMemberOp {ks ks₀ : KeyState} {member : JsString} (h : ks.Sound)
    (hwinner : ks₀.winner = ks.winner) (horder : ks₀.winnerOrder = ks.winnerOrder)
    (hothers : ∀ name : JsString, name ≠ member → ks₀.member name = ks.member name) (lookup : Lookup)
    (key : Key) (e : LogEntry) (policy : ConflictPolicy) (present : Bool) :
    (foldMemberOp lookup ks₀ key e policy member present).1.Sound := by
  have hmember : ∀ name, (ks₀.tracked e).member name = ks₀.member name := by
    intro name
    rw [KeyState.tracked]
    split
    · rfl
    · rfl
  rw [foldMemberOp_fst]
  constructor
  · change (ks₀.tracked e).winnerOrder.isSome = (ks₀.tracked e).winner.isSome
    rw [KeyState.tracked]
    split
    · rfl
    · rw [hwinner, horder]
      exact h.winner
  · intro name ms hms
    rw [get_setMember] at hms
    split at hms
    · cases hms
      exact frontier_memberAfter lookup e policy present _
    · next hne =>
      rw [hmember, hothers name (Ne.symm hne)] at hms
      exact h.heads name ms hms

theorem KeyState.Sound.step {d : RegisterDeps} {lookup : Lookup} {ks ks' : KeyState}
    (h : ks.Sound) (hstep : KeyStep d lookup key e ks ks') : ks'.Sound := by
  cases hstep with
  | quiet hsame => exact h.of_settled hsame
  | chown hkind hallowed howner => exact ⟨h.winner, h.heads⟩
  | takeover hkind hverified howner => exact ⟨h.winner, h.heads⟩
  | write hkind hallowed hstart hwrite =>
    apply KeyState.Sound.of_settled _ hwrite
    apply KeyState.Sound.claimOwner
    apply KeyState.Sound.foldKeyWrite
    rcases hstart with ⟨rfl, -⟩ | rfl
    · exact h
    · exact h.reset
  | resolve hkind hids htaken =>
    apply KeyState.Sound.foldKeyWrite
    exact ⟨h.winner, h.heads⟩
  | member hkind hallowed hmember =>
    apply KeyState.Sound.claimOwner
    exact h.mirror.foldMemberOp rfl rfl (fun _ _ => rfl) lookup key e _ _
  | @resolveMember member ks₀ hkind hmember hstart =>
    rcases hstart with ⟨rfl, -⟩ | ⟨ms, ids, frontier, superseded, hms, hids, htaken, rfl⟩
    · exact h.foldMemberOp rfl rfl (fun _ _ => rfl) lookup key e _ _
    · have hothers : ∀ name, name ≠ member → (ks.setMember member { ms with
          frontier := frontier, superseded := superseded }).member name = ks.member name := by
        intro name hne
        rw [get_setMember, if_neg (Ne.symm hne)]
      exact h.foldMemberOp (by rfl) (by rfl) hothers lookup key e _ _

section
variable (d : RegisterDeps) (lookup : Lookup)

/-- The fold of a list of entries in order. -/
def foldList (keys : Keys) (es : List LogEntry) : Except Keys Keys :=
  es.foldlM (fun keys e => (foldRegister d lookup keys e).map Prod.fst) keys

/-- The same key states, apart from the transient request lists. -/
def Keys.Alike (keys keys' : Keys) : Prop :=
  ∀ key, (keys.state key).settled = (keys'.state key).settled

/-- Folds that both end, or both throw, with the same key states. -/
def FoldsAlike : Except Keys Keys → Except Keys Keys → Prop
  | .ok keys, .ok keys' => keys.Alike keys'
  | .error keys, .error keys' => keys.Alike keys'
  | .ok _, .error _ | .error _, .ok _ => False

/-- At this split, the fold goes on from a snapshot as it would have gone on without. -/
def RebaseLaw (front back : List LogEntry) : Prop :=
  ∀ keys, foldList d lookup .empty front = .ok keys →
    FoldsAlike (foldList d lookup (keysFromSnapshot (snapshotOf keys)) back)
      (foldList d lookup .empty (front ++ back))

/-- What a snapshot keeps of a key. -/
structure Kept (key : Key) (ks : KeyState) : Prop where
  /-- The name can be a member of a plain object. -/
  name : key ≠ js "__proto__"
  /-- Some op other than an ownership transfer has been accepted. -/
  won : ks.winner.isSome = true
  /-- The key holds a scalar or members, not both. -/
  scalar : ks.scalar = ks.members.rows.isEmpty
  value : ks.value.isSome = true → ks.scalar = true
  members : ks.member (js "__proto__") = none

end

theorem foldList_append (d : RegisterDeps) (lookup : Lookup) (keys : Keys)
    (front back : List LogEntry) :
    foldList d lookup keys (front ++ back) =
      foldList d lookup keys front >>= fun keys => foldList d lookup keys back := by
  rw [foldList, List.foldlM_append]
  rfl

theorem state_upsert (keys : Keys) (key name : Key) (ks : KeyState) :
    Keys.state (Table.upsert keys (key, ks)) name = if key = name then ks else keys.state name := by
  rw [Keys.state, Table.get_upsert]
  split
  · rfl
  · rfl

theorem Keys.Alike.upsert {keys keys' : Keys} (h : keys.Alike keys') {ks ks' : KeyState}
    (hsame : ks.settled = ks'.settled) (key : Key) :
    Keys.Alike (Table.upsert keys (key, ks)) (Table.upsert keys' (key, ks')) := by
  intro name
  rw [state_upsert, state_upsert]
  split
  · exact hsame
  · exact h name

/-- The fold does not tell key states apart that differ in their requests. -/
theorem Keys.Alike.foldRegister {keys keys' : Keys} (h : keys.Alike keys') (d : RegisterDeps)
    (lookup : Lookup) (e : LogEntry) :
    FoldsAlike ((foldRegister d lookup keys e).map Prod.fst)
      ((foldRegister d lookup keys' e).map Prod.fst) := by
  rw [Seqscribe.foldRegister, Seqscribe.foldRegister]
  cases e.key with
  | none => exact h
  | some key =>
    have hsame := settled_foldKey d lookup (keys.state key) key e
    rw [h key, ← settled_foldKey] at hsame
    dsimp only
    cases hr : foldKey d lookup (keys.state key) key e with
    | ok r =>
      cases hr' : foldKey d lookup (keys'.state key) key e with
      | ok r' =>
        rw [hr, hr'] at hsame
        exact h.upsert (Except.ok.inj hsame) key
      | error ks' =>
        rw [hr, hr'] at hsame
        cases hsame
    | error ks =>
      cases hr' : foldKey d lookup (keys'.state key) key e with
      | ok r' =>
        rw [hr, hr'] at hsame
        cases hsame
      | error ks' =>
        rw [hr, hr'] at hsame
        exact h.upsert (Except.error.inj hsame) key

theorem Keys.Alike.foldList {keys keys' : Keys} (h : keys.Alike keys') (d : RegisterDeps)
    (lookup : Lookup) (es : List LogEntry) :
    FoldsAlike (foldList d lookup keys es) (foldList d lookup keys' es) := by
  induction es generalizing keys keys' with
  | nil => exact h
  | cons e es ih =>
    have hhead := h.foldRegister d lookup e
    rw [Seqscribe.foldList, Seqscribe.foldList, List.foldlM_cons, List.foldlM_cons]
    cases hr : (Seqscribe.foldRegister d lookup keys e).map Prod.fst with
    | ok next =>
      cases hr' : (Seqscribe.foldRegister d lookup keys' e).map Prod.fst with
      | ok next' =>
        rw [hr, hr'] at hhead
        exact ih hhead
      | error left' =>
        rw [hr, hr'] at hhead
        exact hhead.elim
    | error left =>
      cases hr' : (Seqscribe.foldRegister d lookup keys' e).map Prod.fst with
      | ok next' =>
        rw [hr, hr'] at hhead
        exact hhead.elim
      | error left' =>
        rw [hr, hr'] at hhead
        exact hhead

/-- What every step of a key preserves holds of every key of a fold. -/
theorem foldList_preserves {d : RegisterDeps} {lookup : Lookup} {P : Key → KeyState → Prop}
    {keys keys' : Keys} (hstep : ∀ e ∈ es, ∀ key ks ks', P key ks →
      KeyStep d lookup key e ks ks' → P key ks')
    (h : ∀ key, P key (keys.state key)) (hfold : foldList d lookup keys es = .ok keys')
    (key : Key) : P key (keys'.state key) := by
  induction es generalizing keys with
  | nil =>
    cases hfold
    exact h key
  | cons e es ih =>
    rw [foldList, List.foldlM_cons] at hfold
    obtain ⟨next, hhead, htail⟩ := Except.bind_eq_ok hfold
    apply ih (fun e' he' => hstep e' (List.mem_cons_of_mem _ he')) _ htail
    intro name
    rw [foldRegister] at hhead
    cases hkey : e.key with
    | none =>
      rw [hkey] at hhead
      cases hhead
      exact h name
    | some key =>
      rw [hkey] at hhead
      cases hr : foldKey d lookup (keys.state key) key e with
      | error left =>
        simp only [hr] at hhead
        cases hhead
      | ok r =>
        simp only [hr] at hhead
        cases hhead
        rw [state_upsert]
        split
        · next he =>
          subst he
          exact hstep e (by simp) key _ _ (h key) (foldKey_step hr)
        · exact h name

theorem foldList_sound {d : RegisterDeps} {lookup : Lookup} {keys : Keys}
    (hfold : foldList d lookup .empty es = .ok keys) (key : Key) : (keys.state key).Sound := by
  have hempty : ∀ key, (Keys.state .empty key).Sound := fun _ => .fresh
  exact foldList_preserves (P := fun _ ks => ks.Sound) (fun e _ key ks ks' h hstep => h.step hstep)
    hempty hfold key

/-- A snapshot of members leaves out the one that it cannot name. -/
theorem rows_snapshotMembers (ks : KeyState) :
    ((if ks.members.rows = [] then none else some (Record.ofAssigned
      (ks.members.rows.map fun m => (m.1, m.2.snapshot))) : Option (Record MemberSnapshot)).getD
      .empty).rows = (ks.members.rows.filter fun m => decide (m.1 ≠ js "__proto__")).map fun m =>
        (m.1, m.2.snapshot) := by
  by_cases hempty : ks.members.rows = []
  · rw [if_pos hempty, hempty]
    rfl
  · rw [if_neg hempty, Option.getD_some, Record.rows_ofAssigned, List.filter_map]
    · rfl
    · rw [List.map_map]
      exact ks.members.nodup

theorem rows_restoredMembers (ks : KeyState) :
    (Table.ofRows Prod.fst (((ks.members.rows.filter fun m =>
      decide (m.1 ≠ js "__proto__")).map fun m => (m.1, m.2.snapshot)).map fun m =>
        (m.1, m.2.restore))).rows = (ks.members.rows.filter fun m =>
          decide (m.1 ≠ js "__proto__")).map fun m => (m.1, m.2.snapshot.restore) := by
  rw [List.map_map, Table.rows_ofRows]
  · rfl
  · rw [List.map_map]
    exact ks.members.nodup.sublist (List.filter_sublist.map _)

/-- A snapshot gives a key back without the member that it cannot name, and without a value that
it does not expect. -/
theorem KeyState.Sound.restore {ks : KeyState} (h : ks.Sound) (hw : ks.winner = some w)
    (ho : ks.winnerOrder = some o) :
    ∃ k, ks.snapshot = some k ∧ k.restore = { ks with
      value := if ks.scalar then ks.value else none
      scalar := (ks.members.filter fun m => decide (m.1 ≠ js "__proto__")).rows.isEmpty
      members := ks.members.filter fun m => decide (m.1 ≠ js "__proto__")
      requests := [] } := by
  have hmembers : Table.ofRows Prod.fst (((ks.members.rows.filter fun m =>
      decide (m.1 ≠ js "__proto__")).map fun m => (m.1, m.2.snapshot)).map fun m =>
        (m.1, m.2.restore)) = ks.members.filter fun m => decide (m.1 ≠ js "__proto__") := by
    apply Table.ext
    rw [rows_restoredMembers]
    apply (List.map_congr_left _).trans (List.map_id _)
    intro m hm
    have hmem : ks.member m.1 = some m.2 := by
      rw [KeyState.member, Table.get_of_mem (List.mem_of_mem_filter hm)]
      rfl
    change (m.1, m.2.snapshot.restore) = m
    rw [MemberState.restore_snapshot (h.heads m.1 m.2 hmem)]
  rw [KeyState.snapshot, hw, ho]
  refine ⟨_, rfl, ?_⟩
  simp only [KeySnapshot.restore, rows_snapshotMembers, hmembers, getD_unlessEmpty]

theorem restoredKey_settled (key : Key) (ks : KeyState) :
    (restoredKey key ks).settled = restoredKey key ks := by
  rw [restoredKey]
  split
  · rfl
  · cases ks.snapshot <;> rfl

/-- What a snapshot keeps of a key is all of it exactly under the conditions of `Kept`, or when
nothing but requests has happened. -/
theorem KeyState.Sound.restored_iff {ks : KeyState} (h : ks.Sound) (key : Key) :
    restoredKey key ks = ks.settled ↔ ks.settled = .fresh ∨ Kept key ks := by
  constructor
  · intro he
    rw [restoredKey] at he
    by_cases hname : key = js "__proto__"
    · rw [if_pos hname] at he
      exact .inl he.symm
    rw [if_neg hname] at he
    cases hw : ks.winner with
    | none =>
      left
      rw [KeyState.snapshot, hw] at he
      exact he.symm
    | some w =>
      obtain ⟨o, ho⟩ := Option.isSome_iff_exists.1 (h.winner.trans (by rw [hw]; rfl))
      obtain ⟨k, hk, hrestore⟩ := h.restore hw ho
      rw [hk, Option.map_some, Option.getD_some, hrestore] at he
      have hvalue : (if ks.scalar then ks.value else none) = ks.value := congrArg (·.value) he
      have hscalar : (ks.members.filter fun m => decide (m.1 ≠ js "__proto__")).rows.isEmpty =
          ks.scalar := congrArg (·.scalar) he
      have hmembers : (ks.members.filter fun m => decide (m.1 ≠ js "__proto__")) = ks.members :=
        congrArg (·.members) he
      right
      refine ⟨hname, by rw [hw]; rfl, ?_, ?_, ?_⟩
      · rw [hmembers] at hscalar
        exact hscalar.symm
      · intro hv
        by_contra hno
        rw [if_neg hno] at hvalue
        rw [← hvalue] at hv
        cases hv
      · rw [KeyState.member, ← hmembers, Table.get_filter, Option.map_eq_none_iff]
        cases hget : ks.members.get (js "__proto__") with
        | none => rfl
        | some m =>
          have hm := Table.key_of_get hget
          simp [Option.filter, hm]
  · rintro (hfresh | hkept)
    · have hnone : ks.snapshot = none := by
        have hw : ks.winner = none := congrArg (·.winner) hfresh
        rw [KeyState.snapshot, hw]
      rw [restoredKey, hnone, hfresh]
      split
      · rfl
      · rfl
    · obtain ⟨w, hw⟩ := Option.isSome_iff_exists.1 hkept.won
      obtain ⟨o, ho⟩ := Option.isSome_iff_exists.1 (h.winner.trans (by rw [hw]; rfl))
      obtain ⟨k, hk, hrestore⟩ := h.restore hw ho
      have hmembers : (ks.members.filter fun m => decide (m.1 ≠ js "__proto__")) = ks.members := by
        apply Table.ext
        apply List.filter_eq_self.2
        intro m hm
        have hnone := Option.map_eq_none_iff.1 hkept.members
        simpa using Table.get_eq_none_iff.1 hnone m hm
      have hvalue : (if ks.scalar then ks.value else none) = ks.value := by
        by_cases hs : ks.scalar = true
        · rw [if_pos hs]
        · rw [if_neg hs]
          cases hv : ks.value with
          | none => rfl
          | some v => exact absurd (hkept.value (by rw [hv]; rfl)) hs
      rw [restoredKey, if_neg hkept.name, hk, Option.map_some, Option.getD_some, hrestore, hmembers,
        hvalue, ← hkept.scalar]
      rfl

/-- Over every suffix, the fold goes on from a snapshot of the prefix as it would have gone on
without, exactly when the snapshot keeps every key that the prefix has touched. -/
theorem register_rebase_law (d : RegisterDeps) (lookup : Lookup) (front : List LogEntry)
    (hfront : front.Pairwise fun e e' => orderOf e < orderOf e') :
    (∀ back, (front ++ back).Pairwise (fun e e' => orderOf e < orderOf e') →
      RebaseLaw d lookup front back) ↔
    ∀ keys, foldList d lookup .empty front = .ok keys → ∀ key,
      (keys.state key).settled = .fresh ∨ Kept key (keys.state key) := by
  have halike : ∀ keys, foldList d lookup .empty front = .ok keys →
      ((keysFromSnapshot (snapshotOf keys)).Alike keys ↔ ∀ key,
        (keys.state key).settled = .fresh ∨ Kept key (keys.state key)) := by
    intro keys hkeys
    apply forall_congr'
    intro key
    rw [state_restored, restoredKey_settled]
    exact (foldList_sound hkeys key).restored_iff key
  constructor
  · intro hlaw keys hkeys
    have h := hlaw [] (by rwa [List.append_nil]) keys hkeys
    rw [List.append_nil, hkeys] at h
    exact (halike keys hkeys).1 h
  · intro hkept back hsorted keys hkeys
    have h := (halike keys hkeys).2 (hkept keys hkeys)
    rw [foldList_append, hkeys]
    exact h.foldList d lookup back

/-- Every key is owned. -/
def ownedDeps : RegisterDeps := ⟨hostEnv "a", fun _ => .owned, fun _ => true⟩

/-- An ownership transfer of a key of the topic `t`. -/
def chownEntry (key : String) (writer : WriterId) (seq l : Nat) (newOwner : String) : LogEntry :=
  { setEntry key writer seq l none with
    kind := js "chown"
    payload := .obj [(js "newOwner", .str (js newOwner))] }

/-- A key that was set. -/
theorem rebase_after_set : RebaseLaw ownedDeps (fun _ _ => none) [setEntry "k" "a" 1 1 none]
    [setEntry "k" "b" 1 2 none] := by
  have hlaw := register_rebase_law ownedDeps (fun _ _ => none) [setEntry "k" "a" 1 1 none]
    (List.pairwise_singleton _ _)
  apply hlaw.2
  · intro keys hkeys key
    cases hkeys
    rw [state_upsert]
    by_cases hk : js "k" = key
    · subst hk
      rw [if_pos rfl]
      exact .inr ⟨by decide +kernel, rfl, rfl, fun _ => rfl, rfl⟩
    · rw [if_neg hk]
      exact .inl rfl
  · exact List.pairwise_pair.2 (by decide +kernel)

/-- A key that was only given an owner: its snapshot has none, and another writer sets it. -/
theorem rebase_drops_owner : ¬ RebaseLaw ownedDeps (fun _ _ => none)
    [chownEntry "k" "a" 1 1 "a"] [setEntry "k" "b" 1 2 none] := by
  intro hlaw
  have h := hlaw _ rfl (js "k")
  have howner : some (js "b") = some (js "a") := congrArg (·.owner) h
  exact absurd howner (by decide +kernel)

end Seqscribe
