import Seqscribe.GrantAgreement
import Seqscribe.TopicRegistry

namespace Seqscribe
set_option autoImplicit true

/-! Topics that both ends of a session share have one schema. -/

namespace Session

variable {α : Type} {a a' b b' : Session α}

/-- The end has defined the topic, and the hash is that of its definition. -/
def Defined (s : Session α) (topic : Topic) (hash : String) : Prop :=
  ∃ entry, s.topics topic = some entry ∧ hash = entry.schemaHash

/-- Every announced grant carries the hash of the announcer's own definition. -/
def Honest (s : Session α) (grants : PeerGrants) : Prop :=
  ∀ g ∈ grants.rows, s.Defined g.1 g.2.schemaHash

/-- What `a` has said and what `b` has recorded of it. -/
structure Truthful (a b : Session α) : Prop where
  defined : ∀ g ∈ a.grants.rows, (a.topics g.1).isSome = true
  said : ∀ m, .hello m ∈ a.sent → a.Honest m.grants
  heard : a.Honest b.peerGrants

theorem schemaHash_defined {s : Session α} (h : (s.topics topic).isSome = true) :
    s.Defined topic (s.schemaHash topic) := by
  obtain ⟨entry, hentry⟩ := Option.isSome_iff_exists.1 h
  refine ⟨entry, hentry, ?_⟩
  rw [schemaHash, hentry]
  rfl

theorem honest_helloGrants {s : Session α} (h : ∀ g ∈ s.grants.rows, (s.topics g.1).isSome = true) :
    s.Honest s.helloGrants := by
  intro g hg
  obtain ⟨g', hg', rfl⟩ := List.mem_map.1 hg
  exact schemaHash_defined (h g' hg')

theorem Honest.extend {s s' : Session α} {grants : PeerGrants} (h : s.Honest grants)
    (hkept : ∀ topic entry, s.topics topic = some entry → s'.topics topic = some entry) :
    s'.Honest grants := by
  intro g hg
  obtain ⟨entry, hentry, hhash⟩ := h g hg
  exact ⟨entry, hkept _ _ hentry, hhash⟩

namespace Truthful

/-- A step of the announcer that leaves its topics and grants. -/
theorem announces (h : Truthful a b) (hstep : Announces a a') : Truthful a' b := by
  have hkept : ∀ topic entry, a.topics topic = some entry → a'.topics topic = some entry := by
    intro topic entry hentry
    rw [hstep.topics]
    exact hentry
  constructor
  · rw [hstep.grants, hstep.topics]
    exact h.defined
  · intro m hm
    rcases hstep.sent m hm with hold | ⟨-, hgrants⟩
    · exact (h.said m hold).extend hkept
    · rw [hgrants]
      exact (honest_helloGrants h.defined).extend hkept
  · exact h.heard.extend hkept

theorem updateGrants (h : Truthful a b) {grants : Grants}
    (hok : a.updateGrants grants = .ok a') : Truthful a' b := by
  obtain ⟨-, hassert, rfl⟩ := updateGrants_ok hok
  have hr := refused_recomputeRefusals { a with grants := grants, grantsGen := a.grantsGen + 1 }
  apply Truthful.announces _ (.requestHello _)
  have hkept : ∀ topic entry, a.topics topic = some entry →
      ({ a with grants := grants, grantsGen := a.grantsGen + 1 } :
        Session α).recomputeRefusals.topics topic = some entry := by
    intro topic entry hentry
    rw [hr.topics]
    exact hentry
  constructor
  · rw [hr.grants, hr.topics]
    exact defined_of_assertGrants hassert
  · intro m hm
    exact (h.said m ((hr.sent m).1 hm)).extend hkept
  · exact h.heard.extend hkept

/-- A topic is defined once. -/
theorem define (h : Truthful a b) (topic : Topic) (entry : TopicEntry) :
    Truthful (a.define topic entry) b := by
  rw [Session.define]
  split
  · exact h
  next hnew =>
  have hkept : ∀ topic' entry', a.topics topic' = some entry' →
      (if topic' = topic then some entry else a.topics topic') = some entry' := by
    intro topic' entry' hentry
    rw [if_neg]
    · exact hentry
    · rintro rfl
      rw [hentry] at hnew
      exact hnew rfl
  constructor
  · intro g hg
    obtain ⟨entry', hentry⟩ := Option.isSome_iff_exists.1 (h.defined g hg)
    exact Option.isSome_iff_exists.2 ⟨entry', hkept _ _ hentry⟩
  · exact fun m hm => (h.said m hm).extend hkept
  · exact h.heard.extend hkept

theorem receiver (h : Truthful a b) (hpeer : b'.peerGrants = b.peerGrants) : Truthful a b' := by
  refine ⟨h.defined, h.said, ?_⟩
  rw [hpeer]
  exact h.heard

end Truthful

/-- What a session records changes with a HELLO only, to what it says. -/
theorem onHello_peerGrants (s : Session α) (m : MsgHello) :
    (s.onHello m).peerGrants = s.peerGrants ∨ (s.onHello m).peerGrants = m.grants := by
  have hanswer : ∀ s : Session α, (s.answerHello m).peerGrants = s.peerGrants := by
    intro s
    rw [answerHello]
    split
    · split
      · rfl
      · rfl
    · rw [sendControl]
      split
      · rfl
      · rfl
  have hrecord : ∀ s : Session α, (s.recordGrants m).peerGrants = m.grants := fun s =>
    (refused_recomputeRefusals { s with peerGrants := m.grants, peerGrantsGen := m.grantsGen }
      ).peerGrants
  have hready : ∀ s : Session α, s.becomeReady.peerGrants = s.peerGrants := by
    intro s
    rw [becomeReady]
    split
    · exact (SameRecord.requestHello _).peerGrants
    · rfl
  rw [onHello]
  split
  · rw [onHelloUpdate, hanswer]
    split
    · exact .inr (hrecord s)
    · exact .inl rfl
  · exact .inl rfl
  · dsimp only
    split
    · left
      have hsame : SameGrants s ((s.sendControl
          (.err .ERR_PROTO_VERSION none none)).close .protocol) := by
        apply SameGrants.trans _ (.close _ _)
        apply SameGrants.sendControl
        intro m hm
        cases hm
      exact hsame.peerGrants
    · right
      rw [hready]
      exact hrecord _

/-- What a session records of its peer comes from a HELLO. -/
theorem arrive_peerGrants (s : Session α) (now : Nat) (f : Frame α) :
    (s.arrive now f).peerGrants = s.peerGrants ∨
      ∃ m, f = .hello m ∧ (s.arrive now f).peerGrants = m.grants := by
  rw [arrive.eq_def]
  split
  · exact .inl rfl
  · cases f with
    | hello m => exact (onHello_peerGrants s m).imp_right fun h => ⟨m, rfl, h⟩
    | ack upTo => exact .inl (SameGrants.retire s now upTo).peerGrants
    | data m => exact .inl (SameGrants.takeIn s m).peerGrants
    | err code ref detail => exact .inl rfl
    | truncated m => exact .inl rfl

theorem truthful_keeps : Link.Keeps (party α) Truthful where
  sender := by
    intro a a' b h hacts
    cases hacts with
    | offer make => exact h.announces (.of_same (.offer a make))
    | pump now n => exact h.announces (.of_same (.pump a now n))
    | retry now n => exact h.announces (.of_same (.retry a now n))
    | stallCheck now => exact h.announces (.of_same (.stallCheck a now))
    | drain n => exact h.announces (.of_same (.drain a n))
    | sendAck => exact h.announces (.of_same (.sendAck a))
    | retryHello => exact h.announces (.retryHello a)
    | updateGrants grants hok => exact h.updateGrants hok
    | define topic entry => exact h.define topic entry
    | close reason => exact h.announces (.of_same (.close a reason))
  receiver := by
    intro a b b' h hacts
    exact h.receiver (SameRecord.acts hacts).peerGrants
  delivered := by
    rintro a b f b' h hsent ⟨now, rfl⟩
    rcases arrive_peerGrants b now f with hsame | ⟨m, rfl, hgrants⟩
    · exact h.receiver hsame
    · refine ⟨h.defined, h.said, ?_⟩
      rw [hgrants]
      exact h.said m hsent
  answered := by
    rintro a b f a' h - ⟨now, rfl⟩
    rw [arrive.eq_def]
    split
    · exact h
    · cases f with
      | hello m => exact h.announces (.onHello a m)
      | ack upTo => exact h.announces (.of_same (.retire a now upTo))
      | data m => exact h.announces (.of_same (.takeIn a m))
      | err code ref detail => exact h
      | truncated m => exact h

theorem Linked.truthful {a b : Session α} (h : Linked a b) : Truthful a b ∧ Truthful b a := by
  obtain ⟨o, o', topics, topics', grants, grants', a₀, b₀, -, ha, hb, hrun⟩ := h
  apply truthful_keeps.run hrun
  obtain ⟨hassert, rfl⟩ := attach_eq ha
  obtain ⟨hassert', rfl⟩ := attach_eq hb
  have hstart : ∀ {o o' : SessionOpts} {topics topics' : Topic → Option TopicEntry}
      {grants grants' : Grants}, (fresh o topics grants : Session α).assertGrants grants = .ok () →
        Truthful (fresh o topics grants : Session α).requestHello
          (fresh o' topics' grants').requestHello := by
    intro o o' topics topics' grants grants' hassert
    apply Truthful.receiver _ (SameRecord.requestHello _).peerGrants
    apply Truthful.announces _ (.requestHello _)
    refine ⟨defined_of_assertGrants hassert, ?_, ?_⟩
    · intro m hm
      cases hm
    · intro g hg
      cases hg
  exact ⟨hstart hassert, hstart hassert'⟩

/-- A topic that one end takes as mutual has one schema at both ends, whatever the other end has
done since it spoke. -/
theorem schemaHash_of_mutualFull {a b : Session α} (h : Linked a b)
    (hmutual : a.mutualFull topic = true) :
    ∃ entry entry', a.topics topic = some entry ∧ b.topics topic = some entry' ∧
      entry.schemaHash = entry'.schemaHash := by
  have hrefused := h.announced.1.refused
  obtain ⟨hown, hpeer⟩ := h.truthful
  simp only [mutualFull, Bool.and_eq_true, decide_eq_true_eq, hrefused] at hmutual
  obtain ⟨⟨⟨-, hnot⟩, hmine⟩, htheirs⟩ := hmutual
  obtain ⟨⟨t, mode⟩, hget, rfl⟩ := Option.map_eq_some_iff.1 hmine
  cases Table.key_of_get hget
  obtain ⟨⟨t', theirs⟩, hget', hmode⟩ := Option.map_eq_some_iff.1 htheirs
  cases Table.key_of_get hget'
  have hmem := (Table.get_eq_some_iff.1 hget).1
  obtain ⟨entry, hentry, hhash⟩ := schemaHash_defined (hown.defined _ hmem)
  obtain ⟨entry', hentry', hhash'⟩ := hpeer.heard _ (Table.get_eq_some_iff.1 hget').1
  refine ⟨entry, entry', hentry, hentry', ?_⟩
  by_contra hne
  apply hnot
  apply List.mem_map.2
  refine ⟨_, List.mem_filter.2 ⟨hmem, ?_⟩, rfl⟩
  rw [hget', Option.any_some, Bool.and_eq_true, decide_eq_true_eq, decide_eq_true_eq]
  refine ⟨rfl, hmode, ?_⟩
  rw [hhash, hhash']
  exact fun h => hne h.symm

end Session

/-! One schema is one policy. -/

theorem sortedMembers_perm (members : List (JsString × JsonValue)) :
    (sortedMembers members).Perm (members.map fun m => (m.1, m.2.sorted)) := by
  induction members with
  | nil => exact .refl _
  | cons m members ih => exact (insertByKey_perm _ _).trans (ih.cons _)

theorem sorted_normalizedPolicy (p : DeclaredPolicy) : (normalizedPolicy p).sorted =
    .obj [(js "conflict",
        (if p.kind = .register then normalizedConflict p.conflict else .null : JsonValue).sorted),
      (js "finalityAuthority", ((p.finalityAuthority.map JsonValue.str).getD .null).sorted),
      (js "kind", nameJson p.kind.name), (js "registerSemanticsVersion", .num 1)] := by
  simp only [normalizedPolicy, JsonValue.sorted, sortedMembers]
  rfl

theorem sorted_normalizedConflict (c : Option ConflictTable) : (normalizedConflict c).sorted =
    .obj [(js "default", nameJson ((c.bind ConflictTable.default).getD .lww).name),
      (js "overrides", (ConflictTable.declared c).json.sorted)] := by
  simp only [normalizedConflict, JsonValue.sorted, sortedMembers]
  rfl

theorem nameJson_inj {name name' : String} (h : nameJson name = nameJson name') : name = name' :=
  js_injective (JsonValue.str.inj h)

theorem ConflictPolicy.name_inj : ∀ {policy policy' : ConflictPolicy},
    policy.name = policy'.name → policy = policy'
  | .lww, .lww, _ | .fww, .fww, _ | .resolver, .resolver, _ | .owned, .owned, _ => rfl

theorem TopicKind.name_inj : ∀ {kind kind' : TopicKind}, kind.name = kind'.name → kind = kind'
  | .append, .append, _ | .register, .register, _ => rfl

/-- The overrides of two tables have the same entries when their sorted objects are one. -/
theorem mem_of_overrides {o o' : Overrides} (h : o.json.sorted = o'.json.sorted)
    {row : Key × ConflictPolicy} (hrow : row ∈ o.entries.rows) : row ∈ o'.entries.rows := by
  have hsorted := JsonValue.obj.inj h
  have hmem : (row.1, nameJson row.2.name) ∈
      (o'.entries.rows.map fun row => (row.1, nameJson row.2.name)).map
        fun m => (m.1, m.2.sorted) := by
    apply (sortedMembers_perm _).subset
    rw [← hsorted]
    apply (sortedMembers_perm _).symm.subset
    rw [List.map_map]
    exact List.mem_map.2 ⟨row, hrow, rfl⟩
  rw [List.map_map] at hmem
  obtain ⟨row', hrow', heq⟩ := List.mem_map.1 hmem
  obtain ⟨hkey, hjson⟩ := Prod.mk.inj heq
  rwa [Prod.ext hkey.symm (ConflictPolicy.name_inj (nameJson_inj hjson)).symm]

/-- The table that declares as much, in an object without a prototype. -/
def ConflictTable.plain (c : Option ConflictTable) : Option ConflictTable :=
  some ⟨some ((c.bind ConflictTable.default).getD .lww),
    some ⟨.null, (ConflictTable.declared c).entries⟩⟩

theorem Resolves.plain {c : Option ConflictTable} {key : Key} {policy : ConflictPolicy}
    (h : Resolves c key policy) : Resolves (ConflictTable.plain c) key policy := by
  cases h with
  | exact_ h => exact .exact_ h
  | glob hexact h => exact .glob hexact h
  | default hexact hglob => exact .default (c := ConflictTable.plain c) hexact hglob

theorem same_plain {c c' : Option ConflictTable}
    (h : (normalizedConflict c).sorted = (normalizedConflict c').sorted) :
    ConflictTable.Same (ConflictTable.plain c) (ConflictTable.plain c') := by
  rw [sorted_normalizedConflict, sorted_normalizedConflict] at h
  simp only [JsonValue.obj.injEq, List.cons.injEq, Prod.mk.injEq, true_and, and_true] at h
  refine ⟨rfl, fun row => ⟨mem_of_overrides h.2, mem_of_overrides h.2.symm⟩, ?_⟩
  exact congrArg some (ConflictPolicy.name_inj (nameJson_inj h.1))

/-- Policies on which the registers of two replicas agree: every key that both answer is resolved
alike. -/
structure DeclaredPolicy.Agrees (p p' : DeclaredPolicy) : Prop where
  kind : p.kind = p'.kind
  finalityAuthority : p.finalityAuthority = p'.finalityAuthority
  conflict : ∀ key, ConflictTable.Answers p.conflict key → ConflictTable.Answers p'.conflict key →
    conflictPolicyFor p.conflict key = conflictPolicyFor p'.conflict key

theorem DeclaredPolicy.WellFormed.no_conflict {authority : AuthorityHooks} {p : DeclaredPolicy}
    (h : p.WellFormed authority) (hkind : p.kind = .append) : p.conflict = none := by
  by_contra hsome
  cases hkind.symm.trans (h.conflict hsome)

theorem agrees_of_normalized {authority authority' : AuthorityHooks} {p p' : DeclaredPolicy}
    (hp : p.WellFormed authority) (hp' : p'.WellFormed authority')
    (h : (normalizedPolicy p).sorted = (normalizedPolicy p').sorted) : p.Agrees p' := by
  rw [sorted_normalizedPolicy, sorted_normalizedPolicy] at h
  simp only [JsonValue.obj.injEq, List.cons.injEq, Prod.mk.injEq, true_and, and_true] at h
  obtain ⟨hconflict, hauthority, hkind⟩ := h
  have hkind := TopicKind.name_inj (nameJson_inj hkind)
  refine ⟨hkind, ?_, ?_⟩
  · cases hp : p.finalityAuthority with
    | none =>
      cases hp' : p'.finalityAuthority with
      | none => rfl
      | some name =>
        rw [hp, hp'] at hauthority
        cases hauthority
    | some name =>
      cases hp' : p'.finalityAuthority with
      | none =>
        rw [hp, hp'] at hauthority
        cases hauthority
      | some name' =>
        rw [hp, hp'] at hauthority
        exact congrArg some (JsonValue.str.inj hauthority)
  · intro key hanswers hanswers'
    cases hk : p.kind with
    | append => rw [hp.no_conflict hk, hp'.no_conflict (hkind.symm.trans hk)]
    | register =>
      rw [← hkind, hk, if_pos rfl, if_pos rfl] at hconflict
      obtain ⟨policy, heq, hresolves⟩ := conflictPolicyFor_resolves hanswers
      obtain ⟨policy', heq', hresolves'⟩ := conflictPolicyFor_resolves hanswers'
      rw [heq, heq', ((same_plain hconflict).resolves hresolves.plain).unique hresolves'.plain]

open Session TopicRegistry

/-- What a session reads of a registered topic. -/
def RegisteredTopic.entry (t : RegisteredTopic) : TopicEntry :=
  ⟨t.policy.access, t.policy.replication, t.schemaHash⟩

/-- What `topicSchemaHashOf` hashes. -/
def schemaBytes (env : Env) (p : DeclaredPolicy) : List UInt8 := utf8 (env.jcs (normalizedPolicy p))

/-- However two nodes define topics, grant them, revoke them and lose HELLOs: a topic that either
end takes as mutual is defined at both, with policies of one kind and one finality authority that
give every key the same conflict policy, or their schemas collide under the hash. -/
theorem schema_agreement {α : Type} (num : NumberSyntax) (env : Env)
    (hjcs : env.jcs = canonicalText num.toNumberText) (authority authority' : AuthorityHooks)
    (r r' : TopicRegistry) (hr : Reached env authority .empty r)
    (hr' : Reached env authority' .empty r') (a b : Session α) (hlinked : Linked a b)
    (ha : ∀ topic, a.topics topic = (r.get topic).map fun row => row.2.entry)
    (hb : ∀ topic, b.topics topic = (r'.get topic).map fun row => row.2.entry) (topic : Topic)
    (hmutual : a.mutualFull topic = true) :
    ∃ p p', (r.get topic).map (·.2.policy) = some p ∧ (r'.get topic).map (·.2.policy) = some p' ∧
      (p.Agrees p' ∨ Collide env (schemaBytes env p) (schemaBytes env p')) := by
  obtain ⟨entry, entry', hentry, hentry', hhash⟩ := schemaHash_of_mutualFull hlinked hmutual
  rw [ha, Option.map_eq_some_iff] at hentry
  rw [hb, Option.map_eq_some_iff] at hentry'
  obtain ⟨row, hrow, rfl⟩ := hentry
  obtain ⟨row', hrow', rfl⟩ := hentry'
  have hreg := hr.registered hrow
  have hreg' := hr'.registered hrow'
  refine ⟨row.2.policy, row'.2.policy, by rw [hrow]; rfl, by rw [hrow']; rfl, ?_⟩
  have hsame : env.sha256Hex (schemaBytes env row.2.policy) =
      env.sha256Hex (schemaBytes env row'.2.policy) :=
    (hreg.schemaHash.symm.trans hhash).trans hreg'.schemaHash
  by_cases hbytes : schemaBytes env row.2.policy = schemaBytes env row'.2.policy
  · left
    apply agrees_of_normalized hreg.policy hreg'.policy
    rw [schemaBytes, schemaBytes, hjcs] at hbytes
    have htext := utf8_inj (wellFormed_canonicalText _ _) (wellFormed_canonicalText _ _) hbytes
    exact (canonicalText_inj num (normalizedPolicy_numbers num _)
      (normalizedPolicy_numbers num _)).1 htext
  · exact .inr ⟨hbytes, hsame⟩

def sharedRegistry : TopicRegistry :=
  Table.empty.upsert ("t", ⟨firstWins, topicSchemaHashOf (decimalEnv "a") firstWins⟩)

def sharedTopics (topic : Topic) : Option TopicEntry :=
  (sharedRegistry.get topic).map fun row => row.2.entry

def registrySession (node : WriterId) : Session Nat :=
  (Session.fresh (plainOpts node) sharedTopics oneGrant).requestHello

def heardSession : Session Nat :=
  (registrySession "a").arrive 0 (.hello (registrySession "b").helloMsg)

theorem topics_registrySession (node : WriterId) (topic : Topic) :
    (registrySession node).topics topic = (sharedRegistry.get topic).map fun row => row.2.entry :=
  congrFun (Announces.requestHello _).topics topic

theorem topics_heardSession (topic : Topic) :
    heardSession.topics topic = (sharedRegistry.get topic).map fun row => row.2.entry := by
  rw [heardSession, arrive.eq_def]
  split
  · exact topics_registrySession "a" topic
  · rw [(Announces.onHello _ _).topics]
    exact topics_registrySession "a" topic

theorem linked_heardSession : Linked heardSession (registrySession "b") := by
  have hsent : Frame.hello (registrySession "b").helloMsg ∈ (registrySession "b").sent :=
    List.mem_singleton.2 rfl
  have hstep : Link.Step (party Nat) (registrySession "a", registrySession "b")
      (heardSession, registrySession "b") := .toLeft hsent ⟨0, rfl⟩
  exact ⟨plainOpts "a", plainOpts "b", sharedTopics, sharedTopics, oneGrant, oneGrant,
    registrySession "a", registrySession "b", rfl, rfl, rfl, .single hstep⟩

theorem reached_sharedRegistry : Reached (decimalEnv "a") noHooks .empty sharedRegistry := by
  have hpolicy : TopicName "t" ∧ firstWins.WellFormed noHooks :=
    validatePolicy_eq_ok.1 (show validatePolicy "t" firstWins noHooks = .ok () from rfl)
  exact .single ⟨"t", firstWins, _, define_eq_ok.2 ⟨hpolicy, .inr ⟨rfl, rfl, rfl⟩⟩⟩

/-- The HELLO of a node with the same policy. -/
theorem schema_agreement_of_hello :
    heardSession.mutualFull "t" = true ∧
      ∃ p p', (sharedRegistry.get "t").map (·.2.policy) = some p ∧
        (sharedRegistry.get "t").map (·.2.policy) = some p' ∧
          (p.Agrees p' ∨ Collide (decimalEnv "a") (schemaBytes (decimalEnv "a") p) (schemaBytes (decimalEnv "a") p'))
    := by
  have hmutual : heardSession.mutualFull "t" = true := by decide +kernel
  exact ⟨hmutual, schema_agreement decimalNumbers (decimalEnv "a") rfl noHooks noHooks sharedRegistry
    sharedRegistry reached_sharedRegistry reached_sharedRegistry heardSession (registrySession "b")
    linked_heardSession topics_heardSession (topics_registrySession "b") "t" hmutual⟩

end Seqscribe
