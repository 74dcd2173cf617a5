import Seqscribe.RegisterEvents
import Seqscribe.RegisterHistory
import Seqscribe.RegisterOwned

namespace Seqscribe
set_option autoImplicit true

/-! Where the pointers that the key states show come from. -/

/-- An op on a member. -/
def MemberOp (d : RegisterDeps) (member : JsString) (e : LogEntry) : Prop :=
  opKind e.kind ∈ [.add, .remove, .resolveMember] ∧ payloadString d e "member" = some member

/-- The pointer names an entry of the key and, in the scope of a member, of the member. -/
structure Names (d : RegisterDeps) (topic : Topic) (key : Key) (member : Option JsString)
    (p : WriterId × Nat) (e : LogEntry) : Prop where
  topic : e.topic = topic
  key : e.key = some key
  id : (e.writer, e.seq) = p
  member : ∀ m ∈ member, MemberOp d m e

/-- Every pointer that a key shows names an entry with a property. -/
def KeyState.Grounded (d : RegisterDeps) (K : LogEntry → Prop) (topic : Topic) (key : Key)
    (ks : KeyState) : Prop :=
  ∀ member p, materializedLastObserved ks member = some p →
    ∃ e, K e ∧ Names d topic key member p e

def Keys.Grounded (d : RegisterDeps) (K : LogEntry → Prop) (topic : Topic) (keys : Keys) : Prop :=
  ∀ key, (keys.state key).Grounded d K topic key

section
variable {d : RegisterDeps} {K K' : LogEntry → Prop} {lookup : Lookup} {topic : Topic} {key : Key}
  {e : LogEntry} {ks ks₀ ks' : KeyState} {keys keys' : Keys}

theorem KeyState.Grounded.mono (h : ks.Grounded d K topic key) (hK : ∀ e, K e → K' e) :
    ks.Grounded d K' topic key := by
  intro member p hp
  obtain ⟨e, he, hnames⟩ := h member p hp
  exact ⟨e, hK e he, hnames⟩

theorem KeyState.Grounded.fresh : KeyState.fresh.Grounded d K topic key := by
  intro member p hp
  cases member with
  | none => cases hp
  | some m => cases hp

theorem Keys.Grounded.empty : Keys.Grounded d K topic .empty := fun _ => .fresh

/-- The pointers that an entry leaves are the old ones, or name the entry. -/
structure Reveals (d : RegisterDeps) (e : LogEntry) (ks ks' : KeyState) : Prop where
  winner : ks'.winner = ks.winner ∨ ks'.winner = some e.id
  member : ∀ m ms', ks'.member m = some ms' →
    (∃ ms, ks.member m = some ms ∧ ms.entry = ms'.entry) ∨ ms'.entry = e.id ∧ MemberOp d m e

theorem KeyState.Grounded.reveals (h : ks.Grounded d K topic key) (hreveals : Reveals d e ks ks')
    (hK : K e) (htopic : e.topic = topic) (hkey : e.key = some key) :
    ks'.Grounded d K topic key := by
  intro member p hp
  cases member with
  | none =>
    rw [materializedLastObserved] at hp
    rcases hreveals.winner with hsame | hnew
    · rw [hsame] at hp
      exact h none p hp
    · rw [hnew] at hp
      exact ⟨e, hK, htopic, hkey, Option.some.inj hp, fun _ hm => by cases hm⟩
  | some m =>
    obtain ⟨ms', hms', rfl⟩ := Option.map_eq_some_iff.1 hp
    rcases hreveals.member m ms' hms' with ⟨ms, hms, hsame⟩ | ⟨hnew, hop⟩
    · apply h (some m)
      rw [materializedLastObserved, hms, Option.map_some, hsame]
    · refine ⟨e, hK, htopic, hkey, ?_, ?_⟩
      · rw [hnew]
        rfl
      · rintro _ ⟨⟩
        exact hop

namespace Reveals

/-- A change of neither the winner nor the members. -/
theorem still (hwinner : ks'.winner = ks.winner) (hmembers : ks'.members = ks.members) :
    Reveals d e ks ks' := by
  refine ⟨.inl hwinner, fun m ms' hms' => .inl ⟨ms', ?_, rfl⟩⟩
  rwa [KeyState.member, ← hmembers]

theorem refl (ks : KeyState) : Reveals d e ks ks := still rfl rfl

theorem mirror (ks : KeyState) : Reveals d e ks ks.mirror := by
  rw [KeyState.mirror]
  split
  next => exact still rfl rfl
  next => exact still rfl rfl

/-- A reset of the members. -/
theorem reset (h : Reveals d e ks.reset ks') : Reveals d e ks ks' := by
  refine ⟨h.winner, fun m ms' hms' => ?_⟩
  rcases h.member m ms' hms' with ⟨ms, hms, -⟩ | hnew
  · cases hms
  · exact .inr hnew

theorem then_still (h : Reveals d e ks ks₀) (hwinner : ks'.winner = ks₀.winner)
    (hmembers : ks'.members = ks₀.members) : Reveals d e ks ks' := by
  refine ⟨?_, fun m ms' hms' => h.member m ms' ?_⟩
  · rw [hwinner]
    exact h.winner
  · rwa [KeyState.member, ← hmembers]

theorem claimOwner (h : Reveals d e ks ks') (policy : ConflictPolicy) :
    Reveals d e ks (claimOwner ks' e policy) := by
  obtain ⟨owner, heq⟩ := claimOwner_eq ks' e policy
  rw [heq]
  exact h.then_still rfl rfl

theorem foldKeyWrite (lookup : Lookup) (ks : KeyState) (key : Key) (e : LogEntry)
    (policy : ConflictPolicy) (value : Option JsonValue) (isDel : Bool) :
    Reveals d e ks (foldKeyWrite lookup ks key e policy value isDel).1 := by
  rw [foldKeyWrite_fst]
  split
  next => exact ⟨.inr rfl, fun m ms' hms' => .inl ⟨ms', hms', rfl⟩⟩
  next => exact still rfl rfl

theorem entry_memberAfter (lookup : Lookup) (e : LogEntry) (policy : ConflictPolicy)
    (present : Bool) (prev : Option MemberState) :
    (memberAfter lookup e policy present prev).entry = e.id ∨
      ∃ ms, prev = some ms ∧ ms.entry = (memberAfter lookup e policy present prev).entry := by
  cases prev with
  | none => exact .inl rfl
  | some ms =>
    rw [memberAfter]
    split
    next => exact .inl rfl
    next => exact .inr ⟨ms, rfl, rfl⟩

theorem foldMemberOp {m : JsString} (hop : MemberOp d m e) (lookup : Lookup) (ks : KeyState)
    (key : Key) (policy : ConflictPolicy) (present : Bool) :
    Reveals d e ks (foldMemberOp lookup ks key e policy m present).1 := by
  have hmember (name : JsString) : (ks.tracked e).member name = ks.member name := by
    rw [KeyState.tracked]
    split
    next => rfl
    next => rfl
  rw [foldMemberOp_fst]
  constructor
  · change (ks.tracked e).winner = _ ∨ (ks.tracked e).winner = _
    rw [KeyState.tracked]
    split
    next => exact .inr rfl
    next => exact .inl rfl
  · intro name ms' hms'
    rw [get_setMember] at hms'
    split at hms'
    next heq =>
      subst heq
      obtain rfl := Option.some.inj hms'
      rcases entry_memberAfter lookup e policy present ((ks.tracked e).member m) with hnew | hold
      · exact .inr ⟨hnew, hop⟩
      · obtain ⟨ms, hms, hsame⟩ := hold
        exact .inl ⟨ms, (hmember m).symm.trans hms, hsame⟩
    next => exact .inl ⟨ms', (hmember name).symm.trans hms', rfl⟩

/-- The same from a key that shows the same. -/
theorem same_shown (h : Reveals d e ks₀ ks') (hwinner : ks₀.winner = ks.winner)
    (hmember : ∀ m ms₀, ks₀.member m = some ms₀ →
      ∃ ms, ks.member m = some ms ∧ ms.entry = ms₀.entry) : Reveals d e ks ks' := by
  constructor
  · rw [← hwinner]
    exact h.winner
  · intro m ms' hms'
    rcases h.member m ms' hms' with ⟨ms₀, hms₀, hsame⟩ | hnew
    · obtain ⟨ms, hms, hentry⟩ := hmember m ms₀ hms₀
      exact .inl ⟨ms, hms, hentry.trans hsame⟩
    · exact .inr hnew

end Reveals

/-- Marks on a member leave its entry. -/
theorem member_marked {m : JsString} {ms : MemberState} (hms : ks.member m = some ms)
    (frontier superseded : List EntryId) (name : JsString) (ms' : MemberState)
    (hms' : (ks.setMember m { ms with frontier := frontier, superseded := superseded }).member name =
      some ms') : ∃ ms, ks.member name = some ms ∧ ms.entry = ms'.entry := by
  rw [get_setMember] at hms'
  split at hms'
  next heq =>
    subst heq
    obtain rfl := Option.some.inj hms'
    exact ⟨ms, hms, rfl⟩
  next => exact ⟨ms', hms', rfl⟩

theorem winner_mirror (ks : KeyState) : ks.mirror.winner = ks.winner := by
  rw [KeyState.mirror]
  split
  next => rfl
  next => rfl

theorem member_mirror (ks : KeyState) (m : JsString) : ks.mirror.member m = ks.member m := by
  rw [KeyState.mirror]
  split
  next => rfl
  next => rfl

theorem KeyStep.reveals (h : KeyStep d lookup key e ks ks') : Reveals d e ks ks' := by
  cases h with
  | quiet hsame => exact .still (congrArg (·.winner) hsame) (congrArg (·.members) hsame)
  | chown hkind hallowed howner => exact .still rfl rfl
  | takeover hkind hverified howner => exact .still rfl rfl
  | write hkind hallowed hstart hwrite =>
    have hwritten : Reveals d e _ ks' := ((Reveals.foldKeyWrite lookup _ key e _ _ _).claimOwner
      _).then_still (congrArg (·.winner) hwrite) (congrArg (·.members) hwrite)
    rcases hstart with ⟨rfl, -⟩ | rfl
    · exact hwritten
    · exact hwritten.reset
  | resolve hkind hids htaken =>
    exact (Reveals.foldKeyWrite lookup _ key e _ _ _).same_shown rfl
      fun m ms hms => ⟨ms, hms, rfl⟩
  | @member m _ hkind hallowed hmember =>
    have hop : MemberOp d m e := by
      refine ⟨?_, hmember⟩
      rcases hkind with h | h <;> rw [h] <;> decide
    apply Reveals.claimOwner
    apply (Reveals.foldMemberOp hop lookup ks.mirror key _ _).same_shown (winner_mirror ks)
    intro m ms hms
    exact ⟨ms, (member_mirror ks m).symm.trans hms, rfl⟩
  | @resolveMember m _ hkind hmember hstart =>
    have hop : MemberOp d m e := by
      refine ⟨?_, hmember⟩
      rw [hkind]
      decide
    have hfold := Reveals.foldMemberOp hop lookup
    rcases hstart with ⟨rfl, -⟩ | ⟨ms, ids, frontier, superseded, hms, -, -, rfl⟩
    · exact hfold ..
    · exact (hfold ..).same_shown rfl (member_marked hms frontier superseded)

theorem KeyThrow.reveals (h : KeyThrow d key e ks ks') : Reveals d e ks ks' := by
  cases h with
  | quiet => exact .refl ks
  | mirror hallowed => exact .mirror ks
  | resolve frontier superseded => exact .still rfl rfl
  | resolveMember frontier superseded hms =>
    exact (Reveals.refl _).same_shown rfl (member_marked hms frontier superseded)

/-- Whatever a fold step leaves, thrown or not, shows old pointers, or ones to its entry. -/
theorem foldRegister_grounded (h : keys.Grounded d K topic) (hK : K e) (htopic : e.topic = topic)
    (hfold : foldRegister d lookup keys e = .ok (keys', events) ∨
      foldRegister d lookup keys e = .error keys') : keys'.Grounded d K topic := by
  have hupsert (key : Key) (ks : KeyState) (hkey : e.key = some key)
      (hreveals : Reveals d e (keys.state key) ks) : Keys.Grounded d K topic (keys.upsert (key, ks)) := by
    intro name
    rw [state_upsert]
    split
    next heq =>
      subst heq
      exact (h key).reveals hreveals hK htopic hkey
    next => exact h name
  rw [foldRegister] at hfold
  cases hkey : e.key with
  | none =>
    rw [hkey] at hfold
    rcases hfold with hfold | hfold
    · cases hfold
      exact h
    · cases hfold
  | some key =>
    simp only [hkey] at hfold
    cases hr : foldKey d lookup (keys.state key) key e with
    | ok r =>
      simp only [hr] at hfold
      rcases hfold with hfold | hfold
      · cases hfold
        exact hupsert key _ hkey (foldKey_step hr).reveals
      · cases hfold
    | error left =>
      simp only [hr] at hfold
      rcases hfold with hfold | hfold
      · cases hfold
      · cases hfold
        exact hupsert key _ hkey (foldKey_throw hr).reveals

/-- A snapshot shows no pointer that the state did not show. -/
theorem KeyState.Grounded.restored (h : ks.Grounded d K topic key) :
    (restoredKey key ks).Grounded d K topic key := by
  rw [restoredKey]
  split
  next => exact .fresh
  next =>
    cases hk : ks.snapshot with
    | none => exact .fresh
    | some k =>
      have hwinner : k.restore.winner = ks.winner := by
        rw [KeyState.snapshot] at hk
        split at hk
        next hw ho =>
          obtain rfl := Option.some.inj hk
          exact hw.symm
        next => cases hk
      have hmember (m : JsString) (ms' : MemberState) (hms' : k.restore.member m = some ms') :
          ∃ ms, ks.member m = some ms ∧ ms.entry = ms'.entry := by
        have hrow := mem_of_member hms'
        rw [KeyState.snapshot] at hk
        split at hk
        next =>
          obtain rfl := Option.some.inj hk
          rw [KeySnapshot.restore] at hrow
          simp only [rows_snapshotMembers, rows_restoredMembers] at hrow
          obtain ⟨row, hmem, heq⟩ := List.mem_map.1 hrow
          obtain ⟨rfl, rfl⟩ := Prod.mk.inj heq
          refine ⟨row.2, ?_, rfl⟩
          rw [KeyState.member, Table.get_of_mem (List.mem_of_mem_filter hmem)]
          rfl
        next => cases hk
      intro member p hp
      cases member with
      | none =>
        apply h none p
        rw [materializedLastObserved, ← hwinner]
        exact hp
      | some m =>
        obtain ⟨ms', hms', rfl⟩ := Option.map_eq_some_iff.1 hp
        obtain ⟨ms, hms, hsame⟩ := hmember m ms' hms'
        apply h (some m)
        rw [materializedLastObserved, hms, Option.map_some, hsame]

/-- The same of the fold of many entries, whatever they throw. -/
theorem foldl_grounded {es : List LogEntry} (h : keys.Grounded d K topic)
    (hes : ∀ e ∈ es, K e ∧ e.topic = topic) :
    Keys.Grounded d K topic (es.foldl (foldKeys d lookup) keys) := by
  induction es generalizing keys with
  | nil => exact h
  | cons e es ih =>
    obtain ⟨hK, htopic⟩ := hes e List.mem_cons_self
    have hfirst : Keys.Grounded d K topic (foldKeys d lookup keys e) := by
      rw [foldKeys]
      cases hfold : foldRegister d lookup keys e with
      | ok r => exact foldRegister_grounded h hK htopic (.inl hfold)
      | error left =>
        have hthrown : foldRegister d lookup keys e = .ok (left, []) ∨
          foldRegister d lookup keys e = .error left := .inr hfold
        exact foldRegister_grounded h hK htopic hthrown
    exact ih hfirst fun e' he' => hes e' (List.mem_cons_of_mem e he')

end

namespace RegisterHub

/-- What a hub holds in memory shows only pointers to entries with a property. -/
structure Grounded (d : RegisterDeps) (K : LogEntry → Prop) (topic : Topic) (h : RegisterHub) :
    Prop where
  keys : h.keys.Grounded d K topic
  base : ∀ base ∈ h.base, base.keys.Grounded d K topic
  todo : ∀ e ∈ h.pass.todo, K e ∧ e.topic = topic

section
variable {d : RegisterDeps} {K K' : LogEntry → Prop} {topic : Topic} {h h' : RegisterHub}

theorem Grounded.empty : Grounded d K topic .empty :=
  ⟨fun _ => .fresh, (fun _ hbase => nomatch hbase), fun _ he => nomatch he⟩

theorem Grounded.mono (hg : Grounded d K topic h) (hK : ∀ e, K e → K' e) :
    Grounded d K' topic h :=
  ⟨fun key => (hg.keys key).mono hK, fun base hbase key => (hg.base base hbase key).mono hK,
    fun e he => ⟨hK e (hg.todo e he).1, (hg.todo e he).2⟩⟩

theorem Grounded.readOn (hg : Grounded d K topic h) (hheld : ∀ e, h.db.Holds topic e → K e) :
    Grounded d K topic (readOn topic h) := by
  rw [RegisterHub.readOn]
  split
  next => exact ⟨hg.keys, hg.base, fun e he => nomatch he⟩
  next =>
    refine ⟨hg.keys, hg.base, fun e he => ?_⟩
    have hholds := Db.mem_topicEntries.1 (Replay.mem_after.1 (List.mem_of_mem_take he)).1
    exact ⟨hheld e hholds, hholds.1⟩

theorem Grounded.loopHead (hg : Grounded d K topic h) (hheld : ∀ e, h.db.Holds topic e → K e) :
    Grounded d K topic (loopHead topic h) := by
  rw [RegisterHub.loopHead]
  split
  next =>
    split
    next =>
      rw [startRefold]
      split
      next base hbase =>
        have hstart : Grounded d K topic { h with keys := base.keys, ord := some base.ord } :=
          ⟨hg.base base hbase, hg.base, hg.todo⟩
        exact hstart.readOn hheld
      next =>
        have hstart : Grounded d K topic { h with keys := .empty, ord := none } :=
          ⟨.empty, hg.base, hg.todo⟩
        exact hstart.readOn hheld
    next =>
      refine ⟨hg.keys, hg.base, fun e he => ?_⟩
      have hholds := Db.holds_of_mem_batchFrom he
      exact ⟨hheld e hholds, hholds.1⟩
  next => exact ⟨hg.keys, hg.base, fun e he => nomatch he⟩

theorem Grounded.start (hg : Grounded d K topic h) (hheld : ∀ e, h.db.Holds topic e → K e) :
    Grounded d K topic (start topic h) := by
  rw [RegisterHub.start]
  split
  next => exact hg.loopHead hheld
  next => exact hg

/-- The hub after an entry of its batch, as far as the pass goes on. -/
theorem Grounded.foldOne (hg : Grounded d K topic h) (hK : K e) (htopic : e.topic = topic) :
    (∀ h', foldOne d topic h e = .ok h' → h'.pass = h.pass ∧ h'.db = h.db ∧
      Grounded d K topic h') ∧
      ∀ h', foldOne d topic h e = .error h' → Grounded d K topic h' := by
  rw [RegisterHub.foldOne]
  cases hfold : foldRegister d (h.db.lookup topic) h.keys e with
  | ok r =>
    constructor
    · rintro h' ⟨⟩
      exact ⟨rfl, rfl, foldRegister_grounded hg.keys hK htopic (.inl hfold), hg.base, hg.todo⟩
    · exact nofun
  | error left =>
    constructor
    · exact nofun
    · rintro h' ⟨⟩
      have hthrown : foldRegister d (h.db.lookup topic) h.keys e = .ok (left, []) ∨
        foldRegister d (h.db.lookup topic) h.keys e = .error left := .inr hfold
      exact ⟨foldRegister_grounded hg.keys hK htopic hthrown, hg.base, fun e he => nomatch he⟩

/-- Whatever a resumption leaves, thrown or not. -/
theorem Grounded.resume (hg : Grounded d K topic h) (hheld : ∀ e, h.db.Holds topic e → K e)
    (hr : resume d topic h = .ok h' ∨ resume d topic h = .error h') :
    Grounded d K topic h' := by
  have hstep (e : LogEntry) (todo : List LogEntry) (after : RegisterHub → RegisterHub)
      (he : ∀ x ∈ e :: todo, K x ∧ x.topic = topic)
      (hafter : ∀ h₁, h₁.db = h.db → Grounded d K topic h₁ → Grounded d K topic (after h₁))
      (hr : (do return after (← RegisterHub.foldOne d topic h e)) = Except.ok h' ∨
        (do return after (← RegisterHub.foldOne d topic h e)) = Except.error h') :
      Grounded d K topic h' := by
    obtain ⟨hok, herror⟩ := hg.foldOne (he e List.mem_cons_self).1 (he e List.mem_cons_self).2
    cases hone : RegisterHub.foldOne d topic h e with
    | ok h₁ =>
      rw [hone] at hr
      rcases hr with hr | hr
      · cases hr
        exact hafter h₁ (hok h₁ hone).2.1 (hok h₁ hone).2.2
      · cases hr
    | error h₁ =>
      rw [hone] at hr
      rcases hr with hr | hr
      · cases hr
      · cases hr
        exact herror h' hone
  have htodo := hg.todo
  rw [RegisterHub.resume] at hr
  cases hpass : h.pass with
  | idle =>
    rw [hpass] at hr
    rcases hr with hr | hr
    · cases hr
      exact hg
    · cases hr
  | forward todo last =>
    rw [hpass] at hr htodo
    cases todo with
    | nil =>
      rcases hr with hr | hr
      · cases hr
        exact Grounded.loopHead ⟨hg.keys, hg.base, fun e he => by cases he⟩ hheld
      · cases hr
    | cons e todo =>
      refine hstep e todo (fun h₁ => if todo.isEmpty then
        RegisterHub.loopHead topic { h₁ with lastRowid := last }
        else { h₁ with pass := .forward todo last }) htodo (fun h₁ hdb hg₁ => ?_) hr
      split
      next => exact Grounded.loopHead ⟨hg₁.keys, hg₁.base, hg₁.todo⟩ (hdb ▸ hheld)
      next => exact ⟨hg₁.keys, hg₁.base, fun x hx => htodo x (List.mem_cons_of_mem e hx)⟩
  | refold todo =>
    rw [hpass] at hr htodo
    cases todo with
    | nil =>
      rcases hr with hr | hr
      · cases hr
        exact hg.readOn hheld
      · cases hr
    | cons e todo =>
      refine hstep e todo (fun h₁ => if todo.isEmpty then RegisterHub.readOn topic h₁
        else { h₁ with pass := .refold todo }) htodo (fun h₁ hdb hg₁ => ?_) hr
      split
      next => exact hg₁.readOn (hdb ▸ hheld)
      next => exact ⟨hg₁.keys, hg₁.base, fun x hx => htodo x (List.mem_cons_of_mem e hx)⟩

/-- The base after a certificate. -/
theorem Grounded.rebaseAtCut (hg : Grounded d K topic h)
    (hheld : ∀ e, h.db.Holds topic e → K e) (ord : Order) :
    Grounded d K topic (rebaseAtCut d topic h ord) := by
  refine ⟨hg.keys, ?_, hg.todo⟩
  rintro base ⟨⟩ key
  rw [state_restored]
  apply KeyState.Grounded.restored
  rw [stateAt_eq]
  apply foldl_grounded
  · cases hbase : h.baseAt ord with
    | none => exact .empty
    | some base => exact hg.base base (Option.filter_eq_some_iff.1 hbase).1
  · intro e he
    have hholds := Db.mem_topicEntries.1 (Replay.mem_after.1 (List.mem_of_mem_filter he)).1
    exact ⟨hheld e hholds, hholds.1⟩

end

end RegisterHub

end Seqscribe
