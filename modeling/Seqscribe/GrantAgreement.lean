import Seqscribe.DataLane

namespace Seqscribe
set_option autoImplicit true

/-! What the two ends of a session know of each other's grants. -/

namespace Session

variable {α : Type}

/-- The HELLO lane is as it was, but for a session that has closed; frames that are no HELLO may
have been sent. -/
structure SameGrants (s s' : Session α) : Prop where
  topics : s'.topics = s.topics
  grants : s'.grants = s.grants
  peerGrants : s'.peerGrants = s.peerGrants
  grantsGen : s'.grantsGen = s.grantsGen
  peerGrantsGen : s'.peerGrantsGen = s.peerGrantsGen
  refusedTopics : s'.refusedTopics = s.refusedTopics
  state : s'.state = s.state ∧ s'.helloRequest = s.helloRequest ∨ s'.state = .closed
  sent : ∀ m, .hello m ∈ s'.sent ↔ .hello m ∈ s.sent

namespace SameGrants

theorem refl (s : Session α) : SameGrants s s :=
  ⟨rfl, rfl, rfl, rfl, rfl, rfl, .inl ⟨rfl, rfl⟩, fun _ => .rfl⟩

theorem trans {s s' s'' : Session α} (h : SameGrants s s') (h' : SameGrants s' s'') :
    SameGrants s s'' := by
  refine ⟨h'.topics.trans h.topics, h'.grants.trans h.grants, h'.peerGrants.trans h.peerGrants,
    h'.grantsGen.trans h.grantsGen, h'.peerGrantsGen.trans h.peerGrantsGen,
    h'.refusedTopics.trans h.refusedTopics, ?_, fun m => (h'.sent m).trans (h.sent m)⟩
  rcases h'.state with ⟨hstate, hrequest⟩ | hclosed
  · rcases h.state with ⟨hstate', hrequest'⟩ | hclosed'
    · exact .inl ⟨hstate.trans hstate', hrequest.trans hrequest'⟩
    · exact .inr (hstate.trans hclosed')
  · exact .inr hclosed

theorem sendControl (s : Session α) (hf : ∀ m, f ≠ .hello m) : SameGrants s (s.sendControl f) := by
  rw [Session.sendControl]
  split
  · exact .refl s
  · refine ⟨rfl, rfl, rfl, rfl, rfl, rfl, .inl ⟨rfl, rfl⟩, fun m => ?_⟩
    simp only [transmit, List.mem_append, List.mem_singleton]
    constructor
    · rintro (hold | hnew)
      · exact hold
      · exact absurd hnew.symm (hf m)
    · exact .inl

theorem close (s : Session α) (reason : SessionCloseReason) : SameGrants s (s.close reason) := by
  rw [Session.close]
  split
  · exact .refl s
  · exact ⟨rfl, rfl, rfl, rfl, rfl, rfl, .inr rfl, fun _ => .rfl⟩

theorem stallCheck (s : Session α) (now : Nat) : SameGrants s (s.stallCheck now) := by
  rw [Session.stallCheck]
  split
  · exact .refl s
  split
  · exact .close s .stall
  · exact .refl s

theorem sendAck (s : Session α) : SameGrants s s.sendAck := by
  apply sendControl
  intro m hm
  cases hm

theorem offer (s : Session α) (make : Nat → α) : SameGrants s (s.offer make).1 := by
  rw [Session.offer]
  split
  · exact .refl s
  split
  · exact .refl s
  · exact ⟨rfl, rfl, rfl, rfl, rfl, rfl, .inl ⟨rfl, rfl⟩, fun _ => .rfl⟩

theorem pump (s : Session α) (now n : Nat) : SameGrants s (s.pump now n) := by
  induction n generalizing s with
  | zero => exact .refl s
  | succ n ih =>
    rw [Session.pump]
    split
    · exact .refl s
    · next make rest hqueue =>
      split
      · apply SameGrants.trans _ (ih _)
        refine ⟨rfl, rfl, rfl, rfl, rfl, rfl, .inl ⟨rfl, rfl⟩, fun m => ?_⟩
        simp [transmit]
      · exact .refl s

theorem retry (s : Session α) (now n : Nat) : SameGrants s (s.retry now n) := by
  rw [Session.retry]
  split
  · exact .refl s
  · refine ⟨rfl, rfl, rfl, rfl, rfl, rfl, .inl ⟨rfl, rfl⟩, fun m => ?_⟩
    simp

theorem retire (s : Session α) (now upTo : Nat) : SameGrants s (s.retire now upTo) :=
  ⟨rfl, rfl, rfl, rfl, rfl, rfl, .inl ⟨rfl, rfl⟩, fun _ => .rfl⟩

theorem drain (s : Session α) (n : Nat) : SameGrants s (s.drain n) := by
  induction n generalizing s with
  | zero => exact .refl s
  | succ n ih =>
    rw [Session.drain]
    split
    · exact .refl s
    · apply SameGrants.trans _ (ih _)
      exact ⟨rfl, rfl, rfl, rfl, rfl, rfl, .inl ⟨rfl, rfl⟩, fun _ => .rfl⟩

theorem takeIn (s : Session α) (m : DataMsg α) : SameGrants s (s.takeIn m) := by
  rw [Session.takeIn]
  split
  · exact .sendAck s
  split
  · apply SameGrants.trans _ (.close _ _)
    apply sendControl
    intro m hm
    cases hm
  · exact ⟨rfl, rfl, rfl, rfl, rfl, rfl, .inl ⟨rfl, rfl⟩, fun _ => .rfl⟩

end SameGrants

/-- The rest of the HELLO lane is as it was after the refusals are recomputed. -/
structure Refused (s s' : Session α) : Prop where
  topics : s'.topics = s.topics
  grants : s'.grants = s.grants
  peerGrants : s'.peerGrants = s.peerGrants
  grantsGen : s'.grantsGen = s.grantsGen
  peerGrantsGen : s'.peerGrantsGen = s.peerGrantsGen
  state : s'.state = s.state
  helloRequest : s'.helloRequest = s.helloRequest
  refusedTopics : s'.refusedTopics = s.refusals
  sent : ∀ m, .hello m ∈ s'.sent ↔ .hello m ∈ s.sent

theorem refused_recomputeRefusals (s : Session α) : Refused s s.recomputeRefusals := by
  have hfold : ∀ (next : List Topic) (s : Session α),
      let s' := next.foldl
        (fun s topic => s.sendControl (.err .ERR_SCHEMA_MISMATCH (some topic) none)) s
      SameGrants s s' ∧ s'.state = s.state ∧ s'.helloRequest = s.helloRequest := by
    intro next
    induction next with
    | nil => exact fun s => ⟨.refl s, rfl, rfl⟩
    | cons topic next ih =>
      intro s
      have hone : SameGrants s
          (s.sendControl (.err .ERR_SCHEMA_MISMATCH (some topic) none)) := by
        apply SameGrants.sendControl
        intro m hm
        cases hm
      have hstate : (s.sendControl (.err .ERR_SCHEMA_MISMATCH (some topic) none)).state = s.state ∧
          (s.sendControl (.err .ERR_SCHEMA_MISMATCH (some topic) none)).helloRequest =
            s.helloRequest := by
        rw [Session.sendControl]
        split
        · exact ⟨rfl, rfl⟩
        · exact ⟨rfl, rfl⟩
      obtain ⟨hrest, hstate', hrequest'⟩ := ih
        (s.sendControl (.err .ERR_SCHEMA_MISMATCH (some topic) none))
      exact ⟨hone.trans hrest, hstate'.trans hstate.1, hrequest'.trans hstate.2⟩
  obtain ⟨h, hstate, hrequest⟩ :=
    hfold (s.refusals.filter fun topic => decide (topic ∉ s.refusedTopics)) s
  exact ⟨h.topics, h.grants, h.peerGrants, h.grantsGen, h.peerGrantsGen, hstate, hrequest, rfl,
    h.sent⟩

theorem helloGrants_congr {s s' : Session α} (hgrants : s'.grants = s.grants)
    (hhash : ∀ g ∈ s.grants.rows, s'.schemaHash g.1 = s.schemaHash g.1) :
    s'.helloGrants = s.helloGrants := by
  apply Table.ext
  rw [helloGrants, helloGrants]
  dsimp only
  rw [hgrants]
  apply List.map_congr_left
  intro g hg
  rw [hhash g hg]

theorem refusals_congr {s s' : Session α} (hgrants : s'.grants = s.grants)
    (hpeer : s'.peerGrants = s.peerGrants)
    (hhash : ∀ g ∈ s.grants.rows, s'.schemaHash g.1 = s.schemaHash g.1) :
    s'.refusals = s.refusals := by
  rw [refusals, refusals, hgrants, hpeer]
  congr 1
  apply List.filter_congr
  intro g hg
  rw [hhash g hg]

/-- What the ends know: `a` announces and `b` records. -/
structure Announced (a b : Session α) : Prop where
  defined : ∀ g ∈ a.grants.rows, (a.topics g.1).isSome = true
  /-- A HELLO of the current generation carries the current grants. -/
  current : ∀ m, .hello m ∈ a.sent → m.grantsGen ≤ a.grantsGen ∧
    (m.grantsGen = a.grantsGen → m.grants = a.helloGrants)
  refused : a.refusedTopics = a.refusals
  unheard : b.state = .attached → b.peerGrantsGen = 0
  /-- A session that is not ready may have recorded nothing. -/
  recorded : b.peerGrantsGen = 0 ∧ b.state ≠ .ready ∨
    ∃ m, .hello m ∈ a.sent ∧ m.grantsGen = b.peerGrantsGen ∧ m.grants = b.peerGrants
  answers : ∀ m gen, .hello m ∈ b.sent → m.ackGen = some gen → gen ≤ b.peerGrantsGen
  settled : a.state = .ready → 0 < a.grantsGen → a.helloRequest = false →
    a.grantsGen ≤ b.peerGrantsGen

/-- The announcer's step: its grants stay, and a HELLO that it sends carries them. -/
structure Announces (a a' : Session α) : Prop where
  topics : a'.topics = a.topics
  grants : a'.grants = a.grants
  grantsGen : a'.grantsGen = a.grantsGen
  refused : a.refusedTopics = a.refusals → a'.refusedTopics = a'.refusals
  kept : ∀ m, .hello m ∈ a.sent → .hello m ∈ a'.sent
  sent : ∀ m, .hello m ∈ a'.sent →
    .hello m ∈ a.sent ∨ m.grantsGen = a.grantsGen ∧ m.grants = a.helloGrants

namespace Announces

theorem refl (a : Session α) : Announces a a :=
  ⟨rfl, rfl, rfl, id, fun _ => id, fun _ hm => .inl hm⟩

theorem trans {a a' a'' : Session α} (h : Announces a a') (h' : Announces a' a'') :
    Announces a a'' := by
  refine ⟨h'.topics.trans h.topics, h'.grants.trans h.grants, h'.grantsGen.trans h.grantsGen,
    fun hr => h'.refused (h.refused hr), fun m hm => h'.kept m (h.kept m hm), ?_⟩
  intro m hm
  rcases h'.sent m hm with hold | ⟨hgen, hgrants⟩
  · exact h.sent m hold
  · right
    rw [hgen, hgrants, h.grantsGen]
    refine ⟨rfl, helloGrants_congr h.grants ?_⟩
    intro g _
    rw [schemaHash, schemaHash, h.topics]

theorem of_same {a a' : Session α} (h : SameGrants a a') : Announces a a' := by
  refine ⟨h.topics, h.grants, h.grantsGen, ?_, fun m => (h.sent m).2, fun m hm => ?_⟩
  · intro hr
    rw [h.refusedTopics, hr, refusals_congr h.grants h.peerGrants]
    intro g _
    rw [schemaHash, schemaHash, h.topics]
  · exact .inl ((h.sent m).1 hm)

theorem of_refused {a a' : Session α} (h : Refused a a') : Announces a a' := by
  refine ⟨h.topics, h.grants, h.grantsGen, ?_, fun m => (h.sent m).2, fun m hm => ?_⟩
  · intro _
    rw [h.refusedTopics, refusals_congr h.grants h.peerGrants]
    intro g _
    rw [schemaHash, schemaHash, h.topics]
  · exact .inl ((h.sent m).1 hm)

theorem sayHello (a : Session α) (ackGen : Option Nat) :
    Announces a (a.sendControl (.hello { a.helloMsg with ackGen := ackGen })) := by
  rw [Session.sendControl]
  split
  · exact .refl a
  · refine ⟨rfl, rfl, rfl, id, fun m hm => List.mem_append_left _ hm, fun m hm => ?_⟩
    rcases List.mem_append.1 hm with hold | hnew
    · exact .inl hold
    · cases List.mem_singleton.1 hnew
      exact .inr ⟨rfl, rfl⟩

theorem requestHello (a : Session α) : Announces a a.requestHello := by
  rw [Session.requestHello]
  split
  · exact .refl a
  · have hrequest : Announces a { a with helloRequest := true } :=
      ⟨rfl, rfl, rfl, id, fun _ => id, fun _ hm => .inl hm⟩
    exact hrequest.trans (.sayHello _ none)

theorem retryHello (a : Session α) : Announces a a.retryHello := by
  rw [Session.retryHello]
  split
  · exact .sayHello a none
  · exact .refl a

theorem recordGrants (a : Session α) (m : MsgHello) : Announces a (a.recordGrants m) := by
  have h := of_refused (refused_recomputeRefusals
    { a with peerGrants := m.grants, peerGrantsGen := m.grantsGen })
  refine ⟨h.topics, h.grants, h.grantsGen, ?_, h.kept, h.sent⟩
  intro _
  have hr := refused_recomputeRefusals
    { a with peerGrants := m.grants, peerGrantsGen := m.grantsGen }
  rw [Session.recordGrants, hr.refusedTopics, refusals_congr hr.grants hr.peerGrants]
  intro g _
  rw [schemaHash, schemaHash, hr.topics]

theorem answerHello (a : Session α) (m : MsgHello) : Announces a (a.answerHello m) := by
  rw [Session.answerHello]
  cases m.ackGen with
  | none => exact .sayHello a _
  | some ackGen =>
    dsimp only
    split
    · exact ⟨rfl, rfl, rfl, id, fun _ => id, fun _ hm => .inl hm⟩
    · exact .refl a

theorem onHelloUpdate (a : Session α) (m : MsgHello) : Announces a (a.onHelloUpdate m) := by
  rw [Session.onHelloUpdate]
  split
  · exact (Announces.recordGrants a m).trans (.answerHello _ m)
  · exact .answerHello a m

theorem becomeReady (a : Session α) : Announces a a.becomeReady := by
  have hready : Announces a { a with helloRequest := false, state := .ready } :=
    ⟨rfl, rfl, rfl, id, fun _ => id, fun _ hm => .inl hm⟩
  rw [Session.becomeReady]
  split
  · exact hready.trans (.requestHello _)
  · exact hready

theorem onHello (a : Session α) (m : MsgHello) : Announces a (a.onHello m) := by
  rw [Session.onHello]
  split
  · exact .onHelloUpdate a m
  · exact .refl a
  · dsimp only
    split
    · apply of_same
      apply SameGrants.trans _ (.close _ _)
      apply SameGrants.sendControl
      intro m hm
      cases hm
    · have hset : Announces a { a with
          proto := min PROTO_MAX m.protoMax, peerNode := some m.node } :=
        ⟨rfl, rfl, rfl, id, fun _ => id, fun _ hm => .inl hm⟩
      exact (hset.trans (.recordGrants _ m)).trans (.becomeReady _)

end Announces

/-- The recorder's part stays: it may close, and its answers are old. -/
structure SameRecord (b b' : Session α) : Prop where
  peerGrants : b'.peerGrants = b.peerGrants
  peerGrantsGen : b'.peerGrantsGen = b.peerGrantsGen
  state : b'.state = b.state ∨ b'.state = .closed
  answers : ∀ m gen, .hello m ∈ b'.sent → m.ackGen = some gen → .hello m ∈ b.sent

namespace SameRecord

theorem refl (b : Session α) : SameRecord b b := ⟨rfl, rfl, .inl rfl, fun _ _ hm _ => hm⟩

theorem trans {b b' b'' : Session α} (h : SameRecord b b') (h' : SameRecord b' b'') :
    SameRecord b b'' := by
  refine ⟨h'.peerGrants.trans h.peerGrants, h'.peerGrantsGen.trans h.peerGrantsGen, ?_,
    fun m gen hm hack => h.answers m gen (h'.answers m gen hm hack) hack⟩
  rcases h'.state with hsame | hclosed
  · rcases h.state with hsame' | hclosed'
    · exact .inl (hsame.trans hsame')
    · exact .inr (hsame.trans hclosed')
  · exact .inr hclosed

theorem of_same {b b' : Session α} (h : SameGrants b b') : SameRecord b b' :=
  ⟨h.peerGrants, h.peerGrantsGen, h.state.imp And.left id, fun m _ hm _ => (h.sent m).1 hm⟩

theorem of_refused {b b' : Session α} (h : Refused b b') : SameRecord b b' :=
  ⟨h.peerGrants, h.peerGrantsGen, .inl h.state, fun m _ hm _ => (h.sent m).1 hm⟩

theorem sayHello (b : Session α) : SameRecord b (b.sendControl (.hello b.helloMsg)) := by
  rw [Session.sendControl]
  split
  · exact .refl b
  · refine ⟨rfl, rfl, .inl rfl, fun m gen hm hack => ?_⟩
    rcases List.mem_append.1 hm with hold | hnew
    · exact hold
    · cases List.mem_singleton.1 hnew
      cases hack

theorem requestHello (b : Session α) : SameRecord b b.requestHello := by
  rw [Session.requestHello]
  split
  · exact .refl b
  · have hrequest : SameRecord b { b with helloRequest := true } :=
      ⟨rfl, rfl, .inl rfl, fun _ _ hm _ => hm⟩
    exact hrequest.trans (.sayHello _)

theorem retryHello (b : Session α) : SameRecord b b.retryHello := by
  rw [Session.retryHello]
  split
  · exact .sayHello b
  · exact .refl b

theorem define (b : Session α) (topic : Topic) (entry : TopicEntry) :
    SameRecord b (b.define topic entry) := by
  rw [Session.define]
  split
  · exact .refl b
  · exact ⟨rfl, rfl, .inl rfl, fun _ _ hm _ => hm⟩

end SameRecord

/-- `updateGrants` that does not throw. -/
theorem updateGrants_ok {s s' : Session α} {grants : Grants} (h : s.updateGrants grants = .ok s') :
    s.state ≠ .closed ∧ s.assertGrants grants = .ok () ∧
      s' = { s with grants := grants, grantsGen := s.grantsGen + 1 }.recomputeRefusals.requestHello
    := by
  rw [updateGrants] at h
  split at h
  · cases h
  · next hopen =>
    cases hassert : s.assertGrants grants with
    | error e =>
      rw [hassert] at h
      cases h
    | ok u =>
      rw [hassert] at h
      cases h
      exact ⟨hopen, rfl, rfl⟩

theorem defined_of_assertGrants {s : Session α} {grants : Grants}
    (h : s.assertGrants grants = .ok ()) :
    ∀ g ∈ grants.rows, (s.topics g.1).isSome = true := by
  have hforM : ∀ rows : List (Topic × GrantMode), rows.forM s.assertGrant = .ok () →
      ∀ g ∈ rows, (s.topics g.1).isSome = true := by
    intro rows
    induction rows with
    | nil =>
      intro _ g hg
      cases hg
    | cons g rows ih =>
      intro h g' hg'
      change (s.assertGrant g >>= fun _ => rows.forM s.assertGrant) = .ok () at h
      cases hone : s.assertGrant g with
      | error e =>
        rw [hone] at h
        cases h
      | ok u =>
        rw [hone] at h
        rcases List.mem_cons.1 hg' with rfl | hin
        · rw [assertGrant] at hone
          cases htopic : s.topics g'.1 with
          | none =>
            rw [htopic] at hone
            cases hone
          | some entry => rfl
        · exact ih h g' hin
  exact hforM grants.rows h

/-- Nothing that the recorder does on its own is a record. -/
theorem SameRecord.acts {b b' : Session α} (hacts : Acts b b') : SameRecord b b' := by
  cases hacts with
  | offer make => exact .of_same (.offer b make)
  | pump now n => exact .of_same (.pump b now n)
  | retry now n => exact .of_same (.retry b now n)
  | stallCheck now => exact .of_same (.stallCheck b now)
  | drain n => exact .of_same (.drain b n)
  | sendAck => exact .of_same (.sendAck b)
  | retryHello => exact .retryHello b
  | updateGrants grants hok =>
    obtain ⟨-, -, rfl⟩ := updateGrants_ok hok
    have hset : SameRecord b { b with grants := grants, grantsGen := b.grantsGen + 1 } :=
      ⟨rfl, rfl, .inl rfl, fun _ _ hm _ => hm⟩
    have hr := SameRecord.of_refused (refused_recomputeRefusals
      { b with grants := grants, grantsGen := b.grantsGen + 1 })
    exact (hset.trans hr).trans (.requestHello _)
  | define topic entry => exact .define b topic entry
  | close reason => exact .of_same (.close b reason)

namespace Announced

variable {a b : Session α}

/-- A step of the announcer that leaves its grants; the last condition is about its request. -/
theorem announces (h : Announced a b) (hstep : Announces a a')
    (hsettled : a'.state = .ready → 0 < a.grantsGen → a'.helloRequest = false →
      a.grantsGen ≤ b.peerGrantsGen) : Announced a' b := by
  have hsame : a'.helloGrants = a.helloGrants := by
    apply helloGrants_congr hstep.grants
    intro g _
    rw [schemaHash, schemaHash, hstep.topics]
  constructor
  · rw [hstep.grants, hstep.topics]
    exact h.defined
  · intro m hm
    rw [hstep.grantsGen, hsame]
    rcases hstep.sent m hm with hold | ⟨hgen, hgrants⟩
    · exact h.current m hold
    · exact ⟨Nat.le_of_eq hgen, fun _ => hgrants⟩
  · exact hstep.refused h.refused
  · exact h.unheard
  · rcases h.recorded with hnone | ⟨m, hm, hgen, hgrants⟩
    · exact .inl hnone
    · exact .inr ⟨m, hstep.kept m hm, hgen, hgrants⟩
  · exact h.answers
  · rw [hstep.grantsGen]
    exact hsettled

/-- The request is as it was, or the session has closed. -/
theorem sender_same (h : Announced a b) (hsame : SameGrants a a') : Announced a' b := by
  apply h.announces (.of_same hsame)
  intro hready hgen hrequest
  rcases hsame.state with ⟨hstate, hkept⟩ | hclosed
  · exact h.settled (hstate.symm.trans hready) hgen (hkept.symm.trans hrequest)
  · rw [hclosed] at hready
    cases hready

theorem receiver_same (h : Announced a b) (hsame : SameRecord b b') : Announced a b' := by
  constructor
  · exact h.defined
  · exact h.current
  · exact h.refused
  · intro hattached
    rw [hsame.peerGrantsGen]
    rcases hsame.state with hstate | hclosed
    · exact h.unheard (hstate.symm.trans hattached)
    · rw [hclosed] at hattached
      cases hattached
  · rw [hsame.peerGrantsGen, hsame.peerGrants]
    rcases h.recorded with ⟨hgen, hstate⟩ | hrecord
    · left
      refine ⟨hgen, fun hready => ?_⟩
      rcases hsame.state with hkept | hclosed
      · exact hstate (hkept.symm.trans hready)
      · rw [hclosed] at hready
        cases hready
    · exact .inr hrecord
  · intro m gen hm hack
    rw [hsame.peerGrantsGen]
    exact h.answers m gen (hsame.answers m gen hm hack) hack
  · rw [hsame.peerGrantsGen]
    exact h.settled

/-- New grants: their generation is higher than everything sent, and the request is open. -/
theorem updateGrants (h : Announced a b) {grants : Grants}
    (hok : a.updateGrants grants = .ok a') : Announced a' b := by
  obtain ⟨hopen, hassert, rfl⟩ := updateGrants_ok hok
  have hr := refused_recomputeRefusals { a with grants := grants, grantsGen := a.grantsGen + 1 }
  have hq := Announces.requestHello
    ({ a with grants := grants, grantsGen := a.grantsGen + 1 } : Session α).recomputeRefusals
  generalize ({ a with grants := grants, grantsGen := a.grantsGen + 1 } : Session α).recomputeRefusals
    = r at hr hq ⊢
  have hrequest : r.requestHello.helloRequest = true := by
    have hstate : r.state ≠ .closed := fun hc => hopen (hr.state.symm.trans hc)
    rw [Session.requestHello, if_neg hstate, Session.sendControl, if_neg hstate]
    rfl
  have hsame : r.requestHello.helloGrants = r.helloGrants := by
    apply helloGrants_congr hq.grants
    intro g _
    rw [schemaHash, schemaHash, hq.topics]
  have hold : ∀ m, .hello m ∈ a.sent → m.grantsGen ≠ r.requestHello.grantsGen := by
    intro m hm heq
    have hle := (h.current m hm).1
    rw [heq, hq.grantsGen, hr.grantsGen] at hle
    exact absurd hle (Nat.not_succ_le_self _)
  constructor
  · rw [hq.grants, hr.grants, hq.topics, hr.topics]
    exact defined_of_assertGrants hassert
  · intro m hm
    rw [hsame]
    rcases hq.sent m hm with hin | ⟨hgen, hgrants⟩
    · have hin' := (hr.sent m).1 hin
      refine ⟨?_, fun heq => absurd heq (hold m hin')⟩
      rw [hq.grantsGen, hr.grantsGen]
      exact Nat.le_succ_of_le (h.current m hin').1
    · rw [hq.grantsGen]
      exact ⟨Nat.le_of_eq hgen, fun _ => hgrants⟩
  · apply hq.refused
    rw [hr.refusedTopics]
    apply (refusals_congr hr.grants hr.peerGrants _).symm
    intro g _
    rw [schemaHash, schemaHash, hr.topics]
  · exact h.unheard
  · rcases h.recorded with hnone | ⟨m, hm, hrecord⟩
    · exact .inl hnone
    · exact .inr ⟨m, hq.kept m ((hr.sent m).2 hm), hrecord⟩
  · exact h.answers
  · intro _ _ hnot
    rw [hrequest] at hnot
    cases hnot

/-- A new definition leaves those of the granted topics. -/
theorem define (h : Announced a b) (topic : Topic) (entry : TopicEntry) :
    Announced (a.define topic entry) b := by
  rw [Session.define]
  split
  · exact h
  next hnew =>
  have htopics : ∀ g ∈ a.grants.rows,
      (if g.1 = topic then some entry else a.topics g.1) = a.topics g.1 := by
    intro g hg
    apply if_neg
    rintro rfl
    exact hnew (h.defined g hg)
  have hhash : ∀ g ∈ a.grants.rows,
      ({ a with topics := fun t => if t = topic then some entry else a.topics t } :
        Session α).schemaHash g.1 = a.schemaHash g.1 := by
    intro g hg
    rw [schemaHash, schemaHash]
    dsimp only
    rw [htopics g hg]
  have hsame : ({ a with topics := fun t => if t = topic then some entry else a.topics t } :
      Session α).helloGrants = a.helloGrants := helloGrants_congr rfl hhash
  constructor
  · intro g hg
    dsimp only
    rw [htopics g hg]
    exact h.defined g hg
  · rw [hsame]
    exact h.current
  · have hrefusals : ({ a with topics := fun t => if t = topic then some entry else a.topics t } :
        Session α).refusals = a.refusals := refusals_congr rfl rfl hhash
    exact h.refused.trans hrefusals.symm
  · exact h.unheard
  · exact h.recorded
  · exact h.answers
  · exact h.settled

/-- The announcer hears a HELLO: it settles its request only on an answer to its generation. -/
theorem hear (h : Announced a b) (hsent : .hello m ∈ b.sent) : Announced (a.onHello m) b := by
  apply h.announces (.onHello a m)
  have hbecome : ∀ s : Session α, 0 < s.grantsGen → s.becomeReady.helloRequest = false → False := by
    intro s hgen hrequest
    rw [becomeReady, if_pos hgen, requestHello, if_neg (by rintro ⟨⟩), sendControl,
      if_neg (by rintro ⟨⟩)] at hrequest
    cases hrequest
  have hanswer : ∀ s : Session α, s.grantsGen = a.grantsGen → s.state = a.state →
      s.helloRequest = a.helloRequest → (s.answerHello m).state = .ready → 0 < a.grantsGen →
        (s.answerHello m).helloRequest = false → a.grantsGen ≤ b.peerGrantsGen := by
    intro s hgen hstate hrequest hready hpos hsettled
    rw [answerHello] at hready hsettled
    cases hack : m.ackGen with
    | none =>
      simp only [hack] at hready hsettled
      have hkept : ∀ f, (s.sendControl f).state = s.state ∧
          (s.sendControl f).helloRequest = s.helloRequest := by
        intro f
        rw [sendControl]
        split
        · exact ⟨rfl, rfl⟩
        · exact ⟨rfl, rfl⟩
      rw [(hkept _).1, hstate] at hready
      rw [(hkept _).2, hrequest] at hsettled
      exact h.settled hready hpos hsettled
    | some ackGen =>
      simp only [hack] at hready hsettled
      split at hsettled
      · next heq =>
        rw [← hgen, ← heq]
        exact h.answers m ackGen hsent hack
      · next hne =>
        rw [if_neg hne, hstate] at hready
        rw [hrequest] at hsettled
        exact h.settled hready hpos hsettled
  rw [onHello]
  split
  · next hstate =>
    rw [onHelloUpdate]
    split
    · have hr := refused_recomputeRefusals
        { a with peerGrants := m.grants, peerGrantsGen := m.grantsGen }
      exact hanswer _ hr.grantsGen hr.state hr.helloRequest
    · exact hanswer a rfl rfl rfl
  · next hstate =>
    exact fun hready _ _ => absurd (hstate.symm.trans hready) (by decide)
  · next hstate =>
    dsimp only
    split
    · intro hready
      have hclosed : ∀ s : Session α, (s.close .protocol).state = .closed := by
        intro s
        rw [close]
        split
        · assumption
        · rfl
      rw [hclosed] at hready
      cases hready
    · intro _ hpos hsettled
      have hr := refused_recomputeRefusals { a with
        proto := min PROTO_MAX m.protoMax, peerNode := some m.node, peerGrants := m.grants
        peerGrantsGen := m.grantsGen }
      refine (hbecome _ ?_ hsettled).elim
      rw [recordGrants, hr.grantsGen]
      exact hpos

/-- The recorder takes over what a HELLO of the announcer says. -/
theorem recorded_of (h : Announced a b) (hsent : .hello m ∈ a.sent)
    (hle : b.peerGrantsGen ≤ m.grantsGen) (hgen : b'.peerGrantsGen = m.grantsGen)
    (hgrants : b'.peerGrants = m.grants) (hstate : b'.state ≠ .attached)
    (hanswers : ∀ m gen, .hello m ∈ b'.sent → m.ackGen = some gen → .hello m ∈ b.sent) :
    Announced a b' := by
  constructor
  · exact h.defined
  · exact h.current
  · exact h.refused
  · exact fun hattached => absurd hattached hstate
  · exact .inr ⟨m, hsent, hgen.symm, hgrants.symm⟩
  · intro m' gen hm' hack
    rw [hgen]
    exact (h.answers m' gen (hanswers m' gen hm' hack) hack).trans hle
  · intro hready hpos hrequest
    rw [hgen]
    exact (h.settled hready hpos hrequest).trans hle

/-- The recorder answers a HELLO that it has taken over. -/
theorem answered (h : Announced a b) (hle : m.grantsGen ≤ b.peerGrantsGen) :
    Announced a (b.answerHello m) := by
  rw [answerHello]
  cases m.ackGen with
  | some ackGen =>
    dsimp only
    split
    · exact h.receiver_same ⟨rfl, rfl, .inl rfl, fun _ _ hm _ => hm⟩
    · exact h
  | none =>
    dsimp only
    rw [sendControl]
    split
    · exact h
    · constructor
      · exact h.defined
      · exact h.current
      · exact h.refused
      · exact h.unheard
      · exact h.recorded
      · intro m' gen hm' hack
        rcases List.mem_append.1 hm' with hold | hnew
        · exact h.answers m' gen hold hack
        · cases List.mem_singleton.1 hnew
          cases hack
          exact hle
      · exact h.settled

/-- The recorder hears a HELLO of the announcer. -/
theorem record (h : Announced a b) (hsent : .hello m ∈ a.sent) : Announced a (b.onHello m) := by
  rw [onHello]
  split
  · next hstate =>
    rw [onHelloUpdate]
    split
    · next hnewer =>
      have hr := refused_recomputeRefusals
        { b with peerGrants := m.grants, peerGrantsGen := m.grantsGen }
      have hrecorded : Announced a (b.recordGrants m) := by
        apply h.recorded_of hsent (Nat.le_of_lt hnewer) hr.peerGrantsGen hr.peerGrants
        · intro hattached
          cases (hstate.symm.trans hr.state.symm).trans hattached
        · exact fun m' _ hm' _ => (hr.sent m').1 hm'
      exact hrecorded.answered (Nat.le_of_eq hr.peerGrantsGen.symm)
    · next hold => exact h.answered (not_lt.1 hold)
  · exact h
  · next hstate =>
    dsimp only
    split
    · apply h.receiver_same
      apply SameRecord.of_same
      apply SameGrants.trans _ (.close _ _)
      apply SameGrants.sendControl
      intro m hm
      cases hm
    · have hr := refused_recomputeRefusals { b with
        proto := min PROTO_MAX m.protoMax, peerNode := some m.node, peerGrants := m.grants
        peerGrantsGen := m.grantsGen }
      have hzero := h.unheard hstate
      change Announced a (becomeReady (recomputeRefusals { b with
        proto := min PROTO_MAX m.protoMax, peerNode := some m.node, peerGrants := m.grants
        peerGrantsGen := m.grantsGen }))
      generalize recomputeRefusals { b with
        proto := min PROTO_MAX m.protoMax, peerNode := some m.node, peerGrants := m.grants
        peerGrantsGen := m.grantsGen } = r at hr ⊢
      have hready : Announced a { r with helloRequest := false, state := .ready } := by
        apply h.recorded_of hsent
        · rw [hzero]
          exact Nat.zero_le _
        · exact hr.peerGrantsGen
        · exact hr.peerGrants
        · rintro ⟨⟩
        · exact fun m' _ hm' _ => (hr.sent m').1 hm'
      rw [becomeReady]
      split
      · exact hready.receiver_same (.requestHello _)
      · exact hready

end Announced

theorem announced_keeps : Link.Keeps (party α) Announced where
  sender := by
    intro a a' b h hacts
    cases hacts with
    | offer make => exact h.sender_same (.offer a make)
    | pump now n => exact h.sender_same (.pump a now n)
    | retry now n => exact h.sender_same (.retry a now n)
    | stallCheck now => exact h.sender_same (.stallCheck a now)
    | drain n => exact h.sender_same (.drain a n)
    | sendAck => exact h.sender_same (.sendAck a)
    | retryHello =>
      apply h.announces (.retryHello a)
      have hkept : a.retryHello.state = a.state ∧ a.retryHello.helloRequest = a.helloRequest := by
        rw [retryHello]
        split
        · rw [sendControl]
          split
          · exact ⟨rfl, rfl⟩
          · exact ⟨rfl, rfl⟩
        · exact ⟨rfl, rfl⟩
      rw [hkept.1, hkept.2]
      exact h.settled
    | updateGrants grants hok => exact h.updateGrants hok
    | define topic entry => exact h.define topic entry
    | close reason => exact h.sender_same (.close a reason)
  receiver := by
    intro a b b' h hacts
    exact h.receiver_same (.acts hacts)
  delivered := by
    rintro a b f b' h hsent ⟨now, rfl⟩
    rw [arrive.eq_def]
    split
    · exact h
    · cases f with
      | hello m => exact h.record hsent
      | ack upTo => exact h.receiver_same (.of_same (.retire b now upTo))
      | data m => exact h.receiver_same (.of_same (.takeIn b m))
      | err code ref detail => exact h
      | truncated m => exact h
  answered := by
    rintro a b f a' h hsent ⟨now, rfl⟩
    rw [arrive.eq_def]
    split
    · exact h
    · cases f with
      | hello m => exact h.hear hsent
      | ack upTo => exact h.sender_same (.retire a now upTo)
      | data m => exact h.sender_same (.takeIn a m)
      | err code ref detail => exact h
      | truncated m => exact h

theorem announced_fresh {o : SessionOpts} {topics : Topic → Option TopicEntry} {grants : Grants}
    (hassert : (fresh o topics grants : Session α).assertGrants grants = .ok ()) (o' : SessionOpts)
    (topics' : Topic → Option TopicEntry) (grants' : Grants) :
    Announced (fresh o topics grants : Session α) (fresh o' topics' grants') := by
  constructor
  · exact defined_of_assertGrants hassert
  · intro m hm
    cases hm
  · rw [refusals]
    apply Eq.symm
    apply List.map_eq_nil_iff.2
    apply List.filter_eq_nil_iff.2
    intro g _ hg
    rw [Bool.and_eq_true] at hg
    cases hg.2
  · exact fun _ => rfl
  · exact .inl ⟨rfl, by rintro ⟨⟩⟩
  · intro m gen hm
    cases hm
  · rintro ⟨⟩

theorem Linked.announced {a b : Session α} (h : Linked a b) : Announced a b ∧ Announced b a := by
  obtain ⟨o, o', topics, topics', grants, grants', a₀, b₀, -, ha, hb, hrun⟩ := h
  apply announced_keeps.run hrun
  obtain ⟨hassert, rfl⟩ := attach_eq ha
  obtain ⟨hassert', rfl⟩ := attach_eq hb
  have hstart : ∀ {a b : Session α}, a.state = .attached → Announced a b →
      Announced a.requestHello b.requestHello := by
    intro a b hattached h
    apply Announced.receiver_same _ (.requestHello b)
    apply h.announces (.requestHello a)
    intro hready
    have hkept : a.requestHello.state = a.state := by
      rw [requestHello]
      split
      · rfl
      · rw [sendControl]
        split
        · rfl
        · rfl
    rw [hkept, hattached] at hready
    cases hready
  exact ⟨hstart rfl (announced_fresh hassert o' topics' grants'),
    hstart rfl (announced_fresh hassert' o topics grants)⟩

/-! A record never goes back. -/

theorem answerHello_peerGrantsGen (s : Session α) (m : MsgHello) :
    (s.answerHello m).peerGrantsGen = s.peerGrantsGen := by
  rw [answerHello]
  split
  · split
    · rfl
    · rfl
  · rw [sendControl]
    split
    · rfl
    · rfl

theorem onHello_peerGrantsGen (s : Session α) (m : MsgHello)
    (hunheard : s.state = .attached → s.peerGrantsGen = 0) :
    s.peerGrantsGen ≤ (s.onHello m).peerGrantsGen := by
  rw [onHello]
  split
  · rw [onHelloUpdate, answerHello_peerGrantsGen]
    split
    · next hnewer =>
      have hr := refused_recomputeRefusals
        { s with peerGrants := m.grants, peerGrantsGen := m.grantsGen }
      rw [recordGrants, hr.peerGrantsGen]
      exact Nat.le_of_lt hnewer
    · exact Nat.le_refl _
  · exact Nat.le_refl _
  · next hstate =>
    rw [hunheard hstate]
    exact Nat.zero_le _

theorem arrive_peerGrantsGen (s : Session α) (now : Nat) (f : Frame α)
    (hunheard : s.state = .attached → s.peerGrantsGen = 0) :
    s.peerGrantsGen ≤ (s.arrive now f).peerGrantsGen := by
  rw [arrive.eq_def]
  split
  · exact Nat.le_refl _
  · cases f with
    | hello m => exact onHello_peerGrantsGen s m hunheard
    | ack upTo => exact Nat.le_refl _
    | data m => exact Nat.le_of_eq (SameGrants.takeIn s m).peerGrantsGen.symm
    | err code ref detail => exact Nat.le_refl _
    | truncated m => exact Nat.le_refl _

theorem peerGrantsGen_step {s s' : Session α × Session α} (hstep : Link.Step (party α) s s')
    (h : Announced s.1 s.2 ∧ Announced s.2 s.1) :
    s.1.peerGrantsGen ≤ s'.1.peerGrantsGen ∧ s.2.peerGrantsGen ≤ s'.2.peerGrantsGen := by
  cases hstep with
  | left hacts => exact ⟨Nat.le_of_eq (SameRecord.acts hacts).peerGrantsGen.symm, Nat.le_refl _⟩
  | right hacts => exact ⟨Nat.le_refl _, Nat.le_of_eq (SameRecord.acts hacts).peerGrantsGen.symm⟩
  | toLeft hsent hreceives =>
    obtain ⟨now, rfl⟩ := hreceives
    exact ⟨arrive_peerGrantsGen _ now _ h.2.unheard, Nat.le_refl _⟩
  | toRight hsent hreceives =>
    obtain ⟨now, rfl⟩ := hreceives
    exact ⟨Nat.le_refl _, arrive_peerGrantsGen _ now _ h.1.unheard⟩

theorem peerGrantsGen_run {s s' : Session α × Session α} (hrun : Link.Run (party α) s s')
    (h : Announced s.1 s.2 ∧ Announced s.2 s.1) :
    s.1.peerGrantsGen ≤ s'.1.peerGrantsGen ∧ s.2.peerGrantsGen ≤ s'.2.peerGrantsGen := by
  induction hrun with
  | refl => exact ⟨Nat.le_refl _, Nat.le_refl _⟩
  | tail hbefore hstep ih =>
    have hlast := peerGrantsGen_step hstep (announced_keeps.run hbefore h)
    exact ⟨ih.1.trans hlast.1, ih.2.trans hlast.2⟩

/-! Two settled ends agree. -/

/-- Ready, with no unanswered HELLO request outstanding. -/
def Settled (s : Session α) : Prop := s.state = .ready ∧ s.helloRequest = false

/-- The record is the announcer's current grants, once it has heard of their generation. -/
theorem Announced.agreed {a b : Session α} (h : Announced a b)
    (hheard : 0 < a.grantsGen ∨ b.state = .ready) (hle : a.grantsGen ≤ b.peerGrantsGen) :
    b.peerGrantsGen = a.grantsGen ∧ b.peerGrants = a.helloGrants := by
  rcases h.recorded with ⟨hzero, hnot⟩ | ⟨m, hm, hgen, hgrants⟩
  · rw [hzero] at hle
    rcases hheard with hpos | hready
    · exact absurd hle (not_le.2 hpos)
    · exact absurd hready hnot
  · obtain ⟨hmax, hcurrent⟩ := h.current m hm
    have heq : m.grantsGen = a.grantsGen := Nat.le_antisymm hmax (hgen.symm ▸ hle)
    exact ⟨hgen.symm.trans heq, hgrants.symm.trans (hcurrent heq)⟩

theorem Announced.settled_agreed {a b : Session α} (h : Announced a b) (ha : Settled a)
    (hb : Settled b) : b.peerGrants = a.helloGrants := by
  rcases Nat.eq_zero_or_pos a.grantsGen with hzero | hpos
  · exact (h.agreed (.inr hb.1) (hzero ▸ Nat.zero_le _)).2
  · exact (h.agreed (.inl hpos) (h.settled ha.1 hpos ha.2)).2

theorem get_helloGrants (s : Session α) (topic : Topic) :
    s.helloGrants.get topic =
      (s.grants.get topic).map fun g => (g.1, ⟨g.2, s.schemaHash g.1⟩) := by
  rw [Table.get, Table.get, helloGrants, List.find?_map]
  rfl

/-- This end grants the topic in full. -/
def GrantsFull (s : Session α) (topic : Topic) : Prop :=
  (s.grants.get topic).map Prod.snd = some .full

theorem peer_full {a b : Session α} (hpeer : a.peerGrants = b.helloGrants) (topic : Topic) :
    (a.peerGrants.get topic).map (·.2.mode) = some .full ↔ b.GrantsFull topic := by
  rw [hpeer, get_helloGrants, Option.map_map]
  rfl

/-- Both ends grant a refused topic in full, with different schemas. -/
theorem mem_refusals {a b : Session α} (hpeer : a.peerGrants = b.helloGrants) (topic : Topic) :
    topic ∈ a.refusals ↔
      (a.GrantsFull topic ∧ b.GrantsFull topic) ∧ b.schemaHash topic ≠ a.schemaHash topic := by
  have hfull : ∀ {s : Session α} {topic}, s.GrantsFull topic ↔
      s.grants.get topic = some (topic, .full) := by
    intro s topic
    rw [GrantsFull, Option.map_eq_some_iff]
    constructor
    · rintro ⟨⟨t, mode⟩, hget, rfl⟩
      cases Table.key_of_get hget
      exact hget
    · exact fun hget => ⟨_, hget, rfl⟩
  rw [hfull, hfull, refusals, List.mem_map]
  simp only [List.mem_filter, Bool.and_eq_true, decide_eq_true_eq, hpeer, get_helloGrants]
  constructor
  · rintro ⟨⟨t, mode⟩, ⟨hmem, rfl, htheirs⟩, rfl⟩
    cases hget : b.grants.get t with
    | none =>
      rw [hget] at htheirs
      cases htheirs
    | some g =>
      rw [hget, Option.map_some, Option.any_some, decide_eq_true_eq] at htheirs
      obtain ⟨t', mode'⟩ := g
      obtain ⟨rfl, hne⟩ := htheirs
      cases Table.key_of_get hget
      exact ⟨⟨Table.get_of_mem hmem, rfl⟩, hne⟩
  · rintro ⟨⟨hmine, htheirs⟩, hne⟩
    refine ⟨(topic, .full), ⟨(Table.get_eq_some_iff.1 hmine).1, rfl, ?_⟩, rfl⟩
    rw [htheirs]
    simpa using hne

/-- Ends whose records are each other's grants see the same topics as mutual. -/
theorem mutualFull_of_agreed {a b : Session α} (hstate : a.state = b.state)
    (ha : a.peerGrants = b.helloGrants) (hb : b.peerGrants = a.helloGrants)
    (hrefused : a.refusedTopics = a.refusals) (hrefused' : b.refusedTopics = b.refusals)
    (topic : Topic) : a.mutualFull topic = b.mutualFull topic := by
  have hiff : a.mutualFull topic = true ↔ b.mutualFull topic = true := by
    simp only [mutualFull, Bool.and_eq_true, decide_eq_true_eq, peer_full ha, peer_full hb,
      hrefused, hrefused', mem_refusals ha, mem_refusals hb, hstate]
    change (((_ ∧ _) ∧ a.GrantsFull topic) ∧ _) ↔ (((_ ∧ _) ∧ b.GrantsFull topic) ∧ _)
    constructor
    · rintro ⟨⟨⟨hready, hnot⟩, hmine⟩, htheirs⟩
      exact ⟨⟨⟨hready, fun h => hnot ⟨h.1.symm, h.2.symm⟩⟩, htheirs⟩, hmine⟩
    · rintro ⟨⟨⟨hready, hnot⟩, hmine⟩, htheirs⟩
      exact ⟨⟨⟨hready, fun h => hnot ⟨h.1.symm, h.2.symm⟩⟩, htheirs⟩, hmine⟩
  exact Bool.eq_iff_iff.2 hiff

end Session

open Session

/-- A record never goes back; the peer of a settled end has recorded its generation and exactly its
grants; and two settled ends have the same mutual topics. -/
theorem grant_agreement {α : Type} (a b : Session α) (hlinked : Linked a b) :
    (∀ a' b', Link.Run (party α) (a, b) (a', b') →
      a.peerGrantsGen ≤ a'.peerGrantsGen ∧ b.peerGrantsGen ≤ b'.peerGrantsGen) ∧
    (Settled a → 0 < a.grantsGen →
      b.peerGrantsGen = a.grantsGen ∧ b.peerGrants = a.helloGrants) ∧
    (Settled b → 0 < b.grantsGen →
      a.peerGrantsGen = b.grantsGen ∧ a.peerGrants = b.helloGrants) ∧
    (Settled a → Settled b → ∀ topic, a.mutualFull topic = b.mutualFull topic) := by
  obtain ⟨h, h'⟩ := hlinked.announced
  refine ⟨?_, ?_, ?_, ?_⟩
  · intro a' b' hrun
    exact peerGrantsGen_run hrun ⟨h, h'⟩
  · intro hsettled hpos
    exact h.agreed (.inl hpos) (h.settled hsettled.1 hpos hsettled.2)
  · intro hsettled hpos
    exact h'.agreed (.inl hpos) (h'.settled hsettled.1 hpos hsettled.2)
  · intro ha hb
    exact mutualFull_of_agreed (ha.1.trans hb.1.symm) (h'.settled_agreed hb ha)
      (h.settled_agreed ha hb) h.refused h'.refused

def oneGrant : Grants := ⟨[("t", .full)], List.nodup_singleton _⟩

def plainTopics (_ : Topic) : Option TopicEntry := some ⟨.content, .fullSync, "v1"⟩

/-- A session of a node that grants one topic in full. -/
def sharingSession {α : Type} (node : WriterId) : Session α :=
  (Session.fresh (plainOpts node) plainTopics oneGrant).requestHello

/-- What such a session says. -/
def sharingHello (node : WriterId) (gen : Nat) (ackGen : Option Nat) : MsgHello :=
  ⟨PROTO_MIN, PROTO_MAX, node, ⟨[("t", ⟨.full, "v1"⟩)], List.nodup_singleton _⟩, gen, ackGen⟩

/-- The ends shake hands, and one of them updates its grants and hears the answer. -/
theorem grant_agreement_of_update :
    let a : Session Nat := (sharingSession "a").arrive 0 (.hello (sharingHello "b" 0 none))
    let a' := { a with grants := oneGrant, grantsGen := 1 }.recomputeRefusals.requestHello
    let b : Session Nat := (sharingSession "b").arrive 0 (.hello (sharingHello "a" 0 none))
    let b' := b.arrive 0 (.hello (sharingHello "a" 1 none))
    let a'' := a'.arrive 0 (.hello (sharingHello "b" 0 (some 1)))
    b'.peerGrantsGen = 1 ∧ a''.mutualFull "t" = b'.mutualFull "t" := by
  intro a a' b b' a''
  have hlinked : Linked a'' b' := by
    refine ⟨plainOpts "a", plainOpts "b", plainTopics, plainTopics, oneGrant, oneGrant,
      sharingSession "a", sharingSession "b", rfl, rfl, rfl, ?_⟩
    have hleft : Link.Step (party Nat) (sharingSession "a", sharingSession "b")
        (a, sharingSession "b") := .toLeft (List.mem_singleton.2 rfl) ⟨0, rfl⟩
    have hright : Link.Step (party Nat) (a, sharingSession "b") (a, b) :=
      .toRight (List.mem_singleton.2 rfl) ⟨0, rfl⟩
    have hupdate : Link.Step (party Nat) (a, b) (a', b) :=
      .left (.updateGrants oneGrant rfl)
    have hannounce : Link.Step (party Nat) (a', b) (a', b') :=
      .toRight (List.mem_append_right _ (List.mem_singleton.2 rfl)) ⟨0, rfl⟩
    have hanswer : Link.Step (party Nat) (a', b') (a'', b') :=
      .toLeft (List.mem_append_right _ (List.mem_singleton.2 rfl)) ⟨0, rfl⟩
    exact ((((Relation.ReflTransGen.single hleft).tail hright).tail hupdate).tail hannounce).tail
      hanswer
  obtain ⟨-, hrecorded, -, hmutual⟩ := grant_agreement a'' b' hlinked
  have hb : Settled b' := ⟨rfl, rfl⟩
  have ha : Settled a'' := ⟨rfl, rfl⟩
  exact ⟨(hrecorded ha Nat.zero_lt_one).1, hmutual ha hb "t"⟩

end Seqscribe
