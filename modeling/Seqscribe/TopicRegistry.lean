import Seqscribe.HaveShape
import Seqscribe.JsonRead
import Seqscribe.PolicyTable
import Seqscribe.Session

namespace Seqscribe
set_option autoImplicit true

/-! The topics that a node defines: what a policy must be, and the schema that it stands for. -/

inductive DeclaredRetention where
  | full
  | ring (size : JsNumber)
  | none

inductive HintKeys where
  | plain
  | hash

/-- `TopicPolicy`, as `defineTopic` is given it. -/
structure DeclaredPolicy where
  kind : TopicKind
  retention : DeclaredRetention
  replication : Replication
  access : Access
  conflict : Option ConflictTable
  finalityAuthority : Option JsString
  hintKeys : Option HintKeys
  flushThrottleMs : Option JsNumber
  /-- `keyed.tombstoneKind` -/
  keyed : Option JsString

/-- Which of the hooks are there. -/
structure AuthorityHooks where
  verifyFinality : Bool
  verifyWriterDirective : Bool
  verifyTakeover : Bool

/-! A policy as a JSON value. -/

/-- A number that passed the checks is finite. -/
def JsNumber.json : JsNumber → JsonValue
  | .finite x => .num x
  | .negZero => .num 0
  | .infinite _ | .nan => .null

def TopicKind.name : TopicKind → String
  | .append => "append"
  | .register => "register"

def ConflictPolicy.name : ConflictPolicy → String
  | .lww => "lww"
  | .fww => "fww"
  | .resolver => "resolver"
  | .owned => "owned"

def Replication.name : Replication → String
  | .fullSync => "full-sync"
  | .subscribeOnly => "subscribe-only"

def Access.name : Access → String
  | .content => "content"
  | .metadata => "metadata"

def HintKeys.name : HintKeys → String
  | .plain => "plain"
  | .hash => "hash"

def nameJson (name : String) : JsonValue := .str (js name)

def DeclaredRetention.mode : DeclaredRetention → String
  | .full => "full"
  | .ring _ => "ring"
  | .none => "none"

def DeclaredRetention.json (r : DeclaredRetention) : JsonValue :=
  match r with
  | .ring size => .obj [(js "mode", nameJson r.mode), (js "size", size.json)]
  | .full | .none => .obj [(js "mode", nameJson r.mode)]

def Overrides.json (o : Overrides) : JsonValue :=
  .obj (o.entries.rows.map fun row => (row.1, nameJson row.2.name))

/-- A member that is there when the field is defined. -/
def memberOf (key : String) (json : α → JsonValue) (field : Option α) : List (JsString × JsonValue) :=
  (field.map fun a => (js key, json a)).toList

def ConflictTable.json (c : ConflictTable) : JsonValue :=
  .obj (memberOf "default" (fun policy => nameJson policy.name) c.default ++
    memberOf "overrides" Overrides.json c.overrides)

def DeclaredPolicy.json (p : DeclaredPolicy) : JsonValue :=
  .obj ([(js "kind", nameJson p.kind.name), (js "retention", p.retention.json),
      (js "replication", nameJson p.replication.name), (js "access", nameJson p.access.name)] ++
    memberOf "conflict" ConflictTable.json p.conflict ++
    memberOf "finalityAuthority" JsonValue.str p.finalityAuthority ++
    memberOf "hintKeys" (fun hint => nameJson hint.name) p.hintKeys ++
    memberOf "flushThrottleMs" JsNumber.json p.flushThrottleMs ++
    memberOf "keyed" (fun kind => .obj [(js "tombstoneKind", .str kind)]) p.keyed)

/-- `conflict` of the normalized object. -/
def normalizedConflict (c : Option ConflictTable) : JsonValue :=
  .obj [(js "default", nameJson ((c.bind ConflictTable.default).getD .lww).name),
    (js "overrides", (ConflictTable.declared c).json)]

def normalizedPolicy (p : DeclaredPolicy) : JsonValue :=
  .obj [(js "kind", nameJson p.kind.name),
    (js "conflict", if p.kind = .register then normalizedConflict p.conflict else .null),
    (js "registerSemanticsVersion", .num 1),
    (js "finalityAuthority", (p.finalityAuthority.map JsonValue.str).getD .null)]

def topicSchemaHashOf (env : Env) (p : DeclaredPolicy) : String :=
  env.sha256Hex (utf8 (env.jcs (normalizedPolicy p)))

/-! The checks of a policy. -/

inductive DefineError where
  | topic (e : SeqscribeError)
  /-- An `ERR_MISUSE`. -/
  | misuse (message : JsString)

def refuseIf (bad : Prop) [Decidable bad] (message : JsString) : Except DefineError Unit :=
  if bad then .error (.misuse message) else .ok ()

def Number.isSafeInteger : JsNumber → Bool
  | .finite x => x.den = 1 && x.num.natAbs ≤ MAX_SAFE_INTEGER
  | .negZero => true
  | .infinite _ | .nan => false

/-- `x < n` -/
def JsNumber.below (n : Int) : JsNumber → Bool
  | .finite x => x < n
  | .negZero => (0 : Int) < n
  | .infinite negative => negative
  | .nan => false

/-- `/^[^*]+\.\*$/` -/
def OVERRIDE_GLOB_RE (pattern : JsString) : Bool :=
  (js ".*").isSuffixOf pattern && decide (2 < pattern.length) &&
    pattern.dropLast.all fun u => decide (u ≠ 42)

def usesOwned (p : DeclaredPolicy) : Bool :=
  decide (p.conflict.bind ConflictTable.default = some .owned) ||
    (ConflictTable.declared p.conflict).entries.rows.any fun row => decide (row.2 = .owned)

def DeclaredRetention.isFull : DeclaredRetention → Bool
  | .full => true
  | .ring _ | .none => false

section
variable (topic : Topic) (p : DeclaredPolicy) (authority : AuthorityHooks)

def validateRing : Except DefineError Unit :=
  match p.retention with
  | .ring size =>
    refuseIf (Number.isSafeInteger size = false ∨ size.below 1) (js s!"bad ring size for {topic}")
  | .full | .none => .ok ()

def validateOverride (row : Key × ConflictPolicy) : Except DefineError Unit :=
  refuseIf ((42 : UInt16) ∈ row.1 ∧ OVERRIDE_GLOB_RE row.1 = false)
    (js "bad override pattern \"" ++ row.1 ++
      js s!"\" for {topic} (exact key or \"prefix.*\" only)")

def validateConflict : Except DefineError Unit :=
  match p.conflict with
  | none => .ok ()
  | some c => do
    refuseIf (p.kind ≠ .register) (js s!"conflict policy on non-register topic {topic}")
    (ConflictTable.declared (some c)).entries.rows.forM (validateOverride topic)

def validateKeyed : Except DefineError Unit :=
  match p.keyed with
  | none => .ok ()
  | some tombstoneKind => do
    refuseIf (p.kind ≠ .append ∨ p.retention.isFull = false ∨ p.replication ≠ .subscribeOnly)
      (js ("keyed requires kind \"append\", retention \"full\" and replication " ++
        s!"\"subscribe-only\" ({topic})"))
    refuseIf (tombstoneKind = []) (js s!"bad keyed.tombstoneKind for {topic}")

def validateThrottle : Except DefineError Unit :=
  match p.flushThrottleMs with
  | none => .ok ()
  | some ms =>
    refuseIf (Number.isSafeInteger ms = false ∨ ms.below 0)
      (js s!"bad flushThrottleMs for {topic}")

def validatePolicy : Except DefineError Unit := do
  (assertTopic topic).mapError .topic
  validateRing topic p
  refuseIf (p.retention.isFull = false ∧ (p.replication ≠ .subscribeOnly ∨ p.kind ≠ .append))
    (js (p.retention.mode ++ " retention requires subscribe-only replication and kind " ++
      s!"\"append\" ({topic})"))
  refuseIf (p.kind = .register ∧ p.retention.isFull = false)
    (js s!"register topics require retention \"full\" ({topic})")
  validateConflict topic p
  refuseIf (p.finalityAuthority ≠ none ∧ authority.verifyFinality = false)
    (js s!"{topic} sets finalityAuthority but authority.verifyFinality is absent")
  refuseIf (usesOwned p = true ∧
      (authority.verifyTakeover = false ∨ authority.verifyWriterDirective = false))
    (js s!"{topic} uses \"owned\" but verifyTakeover/verifyWriterDirective are absent")
  validateKeyed topic p
  validateThrottle topic p

end

/-! The registry. -/

structure RegisteredTopic where
  policy : DeclaredPolicy
  schemaHash : String

abbrev TopicRegistry := Table Topic (Topic × RegisteredTopic) Prod.fst

namespace TopicRegistry

def define (env : Env) (authority : AuthorityHooks) (r : TopicRegistry) (topic : Topic)
    (policy : DeclaredPolicy) : Except DefineError (TopicRegistry × RegisteredTopic) := do
  validatePolicy topic policy authority
  match r.get topic with
  | some existing =>
    refuseIf (env.jcs policy.json ≠ env.jcs existing.2.policy.json)
      (js s!"re-defineTopic with a changed policy: {topic}")
    return (r, existing.2)
  | none =>
    let entry := ⟨policy, topicSchemaHashOf env policy⟩
    return (r.upsert (topic, entry), entry)

/-- A definition that does not throw. -/
def Defines (env : Env) (authority : AuthorityHooks) (r r' : TopicRegistry) : Prop :=
  ∃ topic policy entry, r.define env authority topic policy = .ok (r', entry)

/-- The registries of a process, from the empty one on. -/
abbrev Reached (env : Env) (authority : AuthorityHooks) : TopicRegistry → TopicRegistry → Prop :=
  Relation.ReflTransGen (Defines env authority)

end TopicRegistry

/-! What the checks amount to. -/

/-- The number is an integer; zero may have a sign. -/
def JsNumber.IsInteger (x : JsNumber) (n : Int) : Prop := x = .finite n ∨ x = .negZero ∧ n = 0

theorem safeInteger_iff {x : JsNumber} {bound : Int} :
    ¬ (Number.isSafeInteger x = false ∨ x.below bound = true) ↔
      ∃ n : Int, x.IsInteger n ∧ n.natAbs ≤ MAX_SAFE_INTEGER ∧ bound ≤ n := by
  rw [not_or, Bool.not_eq_false]
  constructor
  · rintro ⟨hsafe, hbelow⟩
    cases x with
    | finite x =>
      rw [Number.isSafeInteger, Bool.and_eq_true, decide_eq_true_eq, decide_eq_true_eq] at hsafe
      have hx : x = (x.num : Rat) := ((Rat.den_eq_one_iff x).1 hsafe.1).symm
      rw [JsNumber.below, decide_eq_true_eq, hx, Rat.intCast_lt_intCast] at hbelow
      exact ⟨x.num, .inl (congrArg JsNumber.finite hx), hsafe.2, Int.not_lt.1 hbelow⟩
    | negZero =>
      rw [JsNumber.below, decide_eq_true_eq] at hbelow
      exact ⟨0, .inr ⟨rfl, rfl⟩, Nat.zero_le _, Int.not_lt.1 hbelow⟩
    | infinite negative => cases hsafe
    | nan => cases hsafe
  · rintro ⟨n, rfl | ⟨rfl, rfl⟩, hsafe, hbound⟩
    · rw [Number.isSafeInteger, JsNumber.below, Bool.and_eq_true, decide_eq_true_eq,
        decide_eq_true_eq, decide_eq_true_eq, Rat.intCast_lt_intCast]
      exact ⟨⟨Rat.den_intCast n, hsafe⟩, Int.not_lt.2 hbound⟩
    · rw [JsNumber.below, decide_eq_true_eq]
      exact ⟨rfl, Int.not_lt.2 hbound⟩

/-- A policy that `validatePolicy` lets through. -/
structure DeclaredPolicy.WellFormed (authority : AuthorityHooks) (p : DeclaredPolicy) : Prop where
  ring : ∀ size, p.retention = .ring size →
    ∃ n : Int, size.IsInteger n ∧ n.natAbs ≤ MAX_SAFE_INTEGER ∧ 1 ≤ n
  shortened : p.retention ≠ .full → p.replication = .subscribeOnly ∧ p.kind = .append
  conflict : p.conflict ≠ none → p.kind = .register
  globs : ∀ row ∈ (ConflictTable.declared p.conflict).entries.rows, (42 : UInt16) ∈ row.1 →
    OVERRIDE_GLOB_RE row.1 = true
  finality : p.finalityAuthority ≠ none → authority.verifyFinality = true
  owned : usesOwned p = true →
    authority.verifyTakeover = true ∧ authority.verifyWriterDirective = true
  keyed : ∀ tombstoneKind, p.keyed = some tombstoneKind →
    (p.kind = .append ∧ p.retention = .full ∧ p.replication = .subscribeOnly) ∧ tombstoneKind ≠ []
  throttle : ∀ ms, p.flushThrottleMs = some ms →
    ∃ n : Int, ms.IsInteger n ∧ n.natAbs ≤ MAX_SAFE_INTEGER ∧ 0 ≤ n

theorem isFull_iff {r : DeclaredRetention} : r.isFull = true ↔ r = .full := by
  cases r with
  | full => exact iff_of_true rfl rfl
  | ring size => exact iff_of_false (by rintro ⟨⟩) (by rintro ⟨⟩)
  | none => exact iff_of_false (by rintro ⟨⟩) (by rintro ⟨⟩)

theorem refuseIf_eq_ok {bad : Prop} [Decidable bad] {message : JsString} :
    refuseIf bad message = .ok () ↔ ¬ bad := by
  rw [refuseIf]
  split
  · next hbad => exact iff_of_false (fun h => by cases h) (not_not.2 hbad)
  · next hgood => exact iff_of_true rfl hgood

section
variable {topic : Topic} {p : DeclaredPolicy} {authority : AuthorityHooks}

theorem validateRing_eq_ok : validateRing topic p = .ok () ↔ ∀ size, p.retention = .ring size →
    ∃ n : Int, size.IsInteger n ∧ n.natAbs ≤ MAX_SAFE_INTEGER ∧ 1 ≤ n := by
  rw [validateRing]
  cases p.retention with
  | ring size =>
    rw [refuseIf_eq_ok, safeInteger_iff]
    constructor
    · rintro h _ ⟨⟩
      exact h
    · exact fun h => h size rfl
  | full => exact iff_of_true rfl (by rintro _ ⟨⟩)
  | none => exact iff_of_true rfl (by rintro _ ⟨⟩)

theorem validateConflict_eq_ok : validateConflict topic p = .ok () ↔
    (p.conflict ≠ none → p.kind = .register) ∧
      ∀ row ∈ (ConflictTable.declared p.conflict).entries.rows, (42 : UInt16) ∈ row.1 →
        OVERRIDE_GLOB_RE row.1 = true := by
  rw [validateConflict]
  cases p.conflict with
  | none =>
    apply iff_of_true rfl
    constructor
    · exact fun h => absurd rfl h
    · intro row hrow
      cases hrow
  | some c =>
    dsimp only
    rw [andThen_eq_ok, refuseIf_eq_ok, not_not, forM_eq_ok]
    apply and_congr
    · exact ⟨fun h _ => h, fun h => h (Option.some_ne_none c)⟩
    · apply forall₂_congr
      intro row _
      rw [validateOverride, refuseIf_eq_ok, not_and, Bool.not_eq_false]

theorem validateKeyed_eq_ok : validateKeyed topic p = .ok () ↔
    ∀ tombstoneKind, p.keyed = some tombstoneKind →
      (p.kind = .append ∧ p.retention = .full ∧ p.replication = .subscribeOnly) ∧
        tombstoneKind ≠ [] := by
  rw [validateKeyed]
  cases p.keyed with
  | none => exact iff_of_true rfl (by rintro _ ⟨⟩)
  | some tombstoneKind =>
    dsimp only
    rw [andThen_eq_ok, refuseIf_eq_ok, refuseIf_eq_ok, not_or, not_or, not_not, not_not,
      Bool.not_eq_false, isFull_iff]
    constructor
    · rintro h _ ⟨⟩
      exact h
    · exact fun h => h tombstoneKind rfl

theorem validateThrottle_eq_ok : validateThrottle topic p = .ok () ↔
    ∀ ms, p.flushThrottleMs = some ms →
      ∃ n : Int, ms.IsInteger n ∧ n.natAbs ≤ MAX_SAFE_INTEGER ∧ 0 ≤ n := by
  rw [validateThrottle]
  cases p.flushThrottleMs with
  | none => exact iff_of_true rfl (by rintro _ ⟨⟩)
  | some ms =>
    dsimp only
    rw [refuseIf_eq_ok, safeInteger_iff]
    constructor
    · rintro h _ ⟨⟩
      exact h
    · exact fun h => h ms rfl

theorem assertTopic_mapError : (assertTopic topic).mapError DefineError.topic = .ok () ↔
    TopicName topic := by
  rw [TopicName]
  cases assertTopic topic with
  | ok u => exact iff_of_true rfl rfl
  | error e => exact iff_of_false (by rintro ⟨⟩) (by rintro ⟨⟩)

/-- The checks let exactly the well-formed policies through. -/
theorem validatePolicy_eq_ok :
    validatePolicy topic p authority = .ok () ↔ TopicName topic ∧ p.WellFormed authority := by
  rw [validatePolicy, andThen_eq_ok, assertTopic_mapError, andThen_eq_ok, validateRing_eq_ok,
    andThen_eq_ok, refuseIf_eq_ok, andThen_eq_ok, refuseIf_eq_ok, andThen_eq_ok,
    validateConflict_eq_ok, andThen_eq_ok, refuseIf_eq_ok, andThen_eq_ok, refuseIf_eq_ok,
    andThen_eq_ok, validateKeyed_eq_ok, validateThrottle_eq_ok]
  apply and_congr_right'
  simp only [not_and, not_or, ne_eq, not_not, ← Bool.not_eq_true, isFull_iff]
  constructor
  · rintro ⟨hring, hshort, -, ⟨hconflict, hglobs⟩, hfinality, howned, hkeyed, hthrottle⟩
    exact ⟨hring, hshort, hconflict, hglobs, hfinality, howned, hkeyed, hthrottle⟩
  · rintro ⟨hring, hshort, hconflict, hglobs, hfinality, howned, hkeyed, hthrottle⟩
    refine ⟨hring, hshort, ?_, ⟨hconflict, hglobs⟩, hfinality, howned, hkeyed, hthrottle⟩
    intro hkind
    by_contra hfull
    exact absurd ((hshort hfull).2.symm.trans hkind) (by rintro ⟨⟩)

end

/-! Runs of definitions. -/

theorem usesOwned_of_declares {p : DeclaredPolicy} (h : ConflictTable.Declares p.conflict .owned) :
    usesOwned p = true := by
  rw [usesOwned, Bool.or_eq_true, decide_eq_true_eq, List.any_eq_true]
  rcases h with ⟨key, hmem⟩ | hdefault
  · exact .inr ⟨_, hmem, decide_eq_true rfl⟩
  · left
    cases hc : p.conflict.bind ConflictTable.default with
    | none =>
      rw [hc] at hdefault
      cases hdefault
    | some policy =>
      rw [hc] at hdefault
      exact congrArg some hdefault.symm

/-- Only a policy that uses `owned` gives it to a key. -/
theorem usesOwned_of_conflictPolicyFor {p : DeclaredPolicy} {key : Key}
    (h : conflictPolicyFor p.conflict key = .policy .owned) : usesOwned p = true := by
  by_cases hanswers : ConflictTable.Answers p.conflict key
  · obtain ⟨policy, heq, hresolves⟩ := conflictPolicyFor_resolves hanswers
    cases h.symm.trans heq
    exact usesOwned_of_declares hresolves.declares
  · cases h.symm.trans (conflictPolicyFor_inherited hanswers)

namespace TopicRegistry

variable {env : Env} {authority : AuthorityHooks} {r r' : TopicRegistry}

/-- What a definition does: nothing to a topic that is there, else the topic is added. -/
theorem define_eq_ok {topic : Topic} {policy : DeclaredPolicy} {entry : RegisteredTopic} :
    r.define env authority topic policy = .ok (r', entry) ↔
      (TopicName topic ∧ policy.WellFormed authority) ∧
        ((∃ existing, r.get topic = some existing ∧
            env.jcs policy.json = env.jcs existing.2.policy.json ∧
            r' = r ∧ entry = existing.2) ∨
          r.get topic = none ∧ entry = ⟨policy, topicSchemaHashOf env policy⟩ ∧
            r' = r.upsert (topic, entry)) := by
  rw [← @validatePolicy_eq_ok topic policy authority, define]
  cases validatePolicy topic policy authority with
  | error e => exact iff_of_false (by rintro ⟨⟩) fun h => by cases h.1
  | ok u =>
    rw [and_iff_right rfl]
    cases hget : r.get topic with
    | none =>
      constructor
      · rintro ⟨⟩
        exact .inr ⟨rfl, rfl, rfl⟩
      · rintro (⟨existing, hnone, -⟩ | ⟨-, rfl, rfl⟩)
        · cases hnone
        · rfl
    | some existing =>
      change (refuseIf (env.jcs policy.json ≠ env.jcs existing.2.policy.json) _ >>=
        fun _ => .ok (r, existing.2)) = .ok (r', entry) ↔ _
      rw [refuseIf]
      split
      · next hchanged =>
        apply iff_of_false
        · rintro ⟨⟩
        · rintro (⟨_, ⟨⟩, hsame, -⟩ | ⟨⟨⟩, -⟩)
          exact hchanged hsame
      · next hsame =>
        constructor
        · rintro ⟨⟩
          exact .inl ⟨existing, rfl, not_not.1 hsame, rfl, rfl⟩
        · rintro (⟨_, ⟨⟩, -, rfl, rfl⟩ | ⟨⟨⟩, -⟩)
          rfl

/-- What is registered under a topic. -/
structure Registered (env : Env) (authority : AuthorityHooks) (topic : Topic)
    (entry : RegisteredTopic) : Prop where
  name : TopicName topic
  policy : entry.policy.WellFormed authority
  schemaHash : entry.schemaHash = topicSchemaHashOf env entry.policy

theorem Defines.get (h : Defines env authority r r') :
    (∀ topic row, r.get topic = some row → r'.get topic = some row) ∧
      ∀ topic row, r'.get topic = some row →
        r.get topic = some row ∨ Registered env authority topic row.2 := by
  obtain ⟨topic, policy, entry, hdefine⟩ := h
  obtain ⟨⟨hname, hpolicy⟩, ⟨_, -, -, rfl, -⟩ | ⟨hnew, rfl, rfl⟩⟩ := define_eq_ok.1 hdefine
  · exact ⟨fun _ _ => id, fun _ _ => .inl⟩
  constructor
  · intro topic' row hrow
    rw [Table.get_upsert, if_neg]
    · exact hrow
    · rintro rfl
      cases hnew.symm.trans hrow
  · intro topic' row hrow
    rw [Table.get_upsert] at hrow
    split at hrow
    · next htopic =>
      cases hrow
      cases htopic
      exact .inr ⟨hname, hpolicy, rfl⟩
    · exact .inl hrow

theorem Reached.get (h : Reached env authority r r') {topic : Topic}
    {row : Topic × RegisteredTopic} (hrow : r.get topic = some row) : r'.get topic = some row := by
  induction h with
  | refl => exact hrow
  | tail _ hstep ih => exact hstep.get.1 _ _ ih

theorem Reached.registered (h : Reached env authority .empty r) {topic : Topic}
    {row : Topic × RegisteredTopic} (hrow : r.get topic = some row) :
    Registered env authority topic row.2 := by
  induction h with
  | refl => cases hrow
  | tail _ hstep ih =>
    rcases hstep.get.2 _ _ hrow with hold | hnew
    · exact ih hold
    · exact hnew

end TopicRegistry

/-! The numbers of a policy. -/

section
variable (num : NumberSyntax)

theorem JsNumber.IsInteger.numbers {x : JsNumber} {n : Int} (h : x.IsInteger n)
    (hn : n.natAbs ≤ MAX_SAFE_INTEGER) : x.json.Numbers num := by
  rcases h with rfl | ⟨rfl, rfl⟩
  · exact num.safe n hn
  · exact num.safe 0 (Nat.zero_le _)

theorem memberNumbers_append {members members' : List (JsString × JsonValue)} :
    MemberNumbers num (members ++ members') ↔
      MemberNumbers num members ∧ MemberNumbers num members' := by
  simp only [memberNumbers_iff, List.forall_mem_append]

theorem memberNumbers_memberOf {key : String} {json : α → JsonValue} {field : Option α} :
    MemberNumbers num (memberOf key json field) ↔ ∀ a, field = some a → (json a).Numbers num := by
  cases field with
  | none => exact iff_of_true trivial (by rintro _ ⟨⟩)
  | some a =>
    constructor
    · rintro h _ ⟨⟩
      exact h.1
    · exact fun h => ⟨h a rfl, trivial⟩

theorem Overrides.numbers (o : Overrides) : o.json.Numbers num := by
  apply (memberNumbers_iff num).2
  intro m hm
  obtain ⟨row, -, rfl⟩ := List.mem_map.1 hm
  trivial

theorem DeclaredPolicy.WellFormed.numbers {authority : AuthorityHooks} {p : DeclaredPolicy}
    (h : p.WellFormed authority) : p.json.Numbers num := by
  have hretention : p.retention.json.Numbers num := by
    cases hr : p.retention with
    | full => exact ⟨trivial, trivial⟩
    | ring size =>
      obtain ⟨n, hinteger, hsafe, -⟩ := h.ring size hr
      exact ⟨trivial, hinteger.numbers num hsafe, trivial⟩
    | none => exact ⟨trivial, trivial⟩
  have hthrottle : ∀ ms, p.flushThrottleMs = some ms → ms.json.Numbers num := by
    intro ms hms
    obtain ⟨n, hinteger, hsafe, -⟩ := h.throttle ms hms
    exact hinteger.numbers num hsafe
  have hconflict : ∀ c, p.conflict = some c → c.json.Numbers num := by
    intro c _
    apply (memberNumbers_append num).2
    exact ⟨(memberNumbers_memberOf num).2 fun _ _ => trivial,
      (memberNumbers_memberOf num).2 fun o _ => o.numbers num⟩
  simp only [DeclaredPolicy.json, JsonValue.Numbers, memberNumbers_append, memberNumbers_memberOf]
  exact ⟨⟨⟨⟨⟨⟨trivial, hretention, trivial, trivial, trivial⟩, hconflict⟩, fun _ _ => trivial⟩,
    fun _ _ => trivial⟩, hthrottle⟩, fun _ _ => ⟨trivial, trivial⟩⟩

theorem normalizedPolicy_numbers (p : DeclaredPolicy) : (normalizedPolicy p).Numbers num := by
  have hauthority : ((p.finalityAuthority.map JsonValue.str).getD .null).Numbers num := by
    cases p.finalityAuthority <;> trivial
  have hversion : JsonValue.Numbers num (.num 1) := num.safe 1 (by decide)
  have hconflict : JsonValue.Numbers num
      (if p.kind = .register then normalizedConflict p.conflict else .null) := by
    split
    · exact ⟨trivial, Overrides.numbers num _, trivial⟩
    · trivial
  exact ⟨trivial, hconflict, hversion, hauthority, trivial⟩

end

open TopicRegistry

/-- However a process defines its topics: a definition that is there stays, is well formed and has
the hash of its own schema; it may be repeated exactly with the same policy, whatever the order of
its members; and no key is `owned` unless the hooks that watch over owners are there. -/
theorem topic_definitions (num : NumberSyntax) (env : Env) (authority : AuthorityHooks)
    (hjcs : env.jcs = canonicalText num.toNumberText) (r : TopicRegistry)
    (hr : Reached env authority .empty r) :
    (∀ r', Reached env authority r r' → ∀ topic row, r.get topic = some row →
      r'.get topic = some row) ∧
    (∀ topic row, r.get topic = some row →
      TopicName topic ∧ row.2.policy.WellFormed authority ∧
        row.2.schemaHash = topicSchemaHashOf env row.2.policy) ∧
    (∀ topic row policy r' entry, r.get topic = some row →
      (r.define env authority topic policy = .ok (r', entry) ↔
        policy.WellFormed authority ∧ policy.json.sorted = row.2.policy.json.sorted ∧
          r' = r ∧ entry = row.2)) ∧
    ∀ topic row key, r.get topic = some row →
      conflictPolicyFor row.2.policy.conflict key = .policy .owned →
        authority.verifyTakeover = true ∧ authority.verifyWriterDirective = true := by
  refine ⟨?_, ?_, ?_, ?_⟩
  · exact fun r' hrun topic row hrow => hrun.get hrow
  · intro topic row hrow
    have h := hr.registered hrow
    exact ⟨h.name, h.policy, h.schemaHash⟩
  · intro topic row policy r' entry hrow
    have h := hr.registered hrow
    have htext : policy.WellFormed authority → (env.jcs policy.json = env.jcs row.2.policy.json ↔
        policy.json.sorted = row.2.policy.json.sorted) := by
      intro hpolicy
      rw [hjcs]
      exact canonicalText_inj num (hpolicy.numbers num) (h.policy.numbers num)
    rw [define_eq_ok]
    constructor
    · rintro ⟨⟨-, hpolicy⟩, ⟨existing, hget, hsame, rfl, rfl⟩ | ⟨hnone, -⟩⟩
      · cases hrow.symm.trans hget
        exact ⟨hpolicy, (htext hpolicy).1 hsame, rfl, rfl⟩
      · cases hrow.symm.trans hnone
    · rintro ⟨hpolicy, hsame, rfl, rfl⟩
      exact ⟨⟨h.name, hpolicy⟩, .inl ⟨row, hrow, (htext hpolicy).2 hsame, rfl, rfl⟩⟩
  · intro topic row key hrow howned
    exact (hr.registered hrow).policy.owned (usesOwned_of_conflictPolicyFor howned)

def noHooks : AuthorityHooks := ⟨false, false, false⟩

/-- A register topic whose conflicts the first writer wins. -/
def firstWins : DeclaredPolicy where
  kind := .register
  retention := .full
  replication := .fullSync
  access := .content
  conflict := some ⟨some .fww, none⟩
  finalityAuthority := none
  hintKeys := none
  flushThrottleMs := none
  keyed := none

theorem topic_definitions_of_one :
    ∃ r row, Reached (decimalEnv "a") noHooks .empty r ∧ r.get "t" = some row ∧
      row.2.schemaHash = topicSchemaHashOf (decimalEnv "a") firstWins := by
  have hpolicy : firstWins.WellFormed noHooks :=
    (validatePolicy_eq_ok.1 (show validatePolicy "t" firstWins noHooks = .ok () from rfl)).2
  have hname : TopicName "t" := rfl
  have hdefine : TopicRegistry.define (decimalEnv "a") noHooks .empty "t" firstWins =
      .ok (Table.empty.upsert ("t", ⟨firstWins, topicSchemaHashOf (decimalEnv "a") firstWins⟩),
        ⟨firstWins, topicSchemaHashOf (decimalEnv "a") firstWins⟩) :=
    define_eq_ok.2 ⟨⟨hname, hpolicy⟩, .inr ⟨rfl, rfl, rfl⟩⟩
  have hone : Defines (decimalEnv "a") noHooks .empty
      (Table.empty.upsert ("t", ⟨firstWins, topicSchemaHashOf (decimalEnv "a") firstWins⟩)) :=
    ⟨_, _, _, hdefine⟩
  have hr : Reached (decimalEnv "a") noHooks .empty _ := .single hone
  have hrow : (Table.empty.upsert ("t", ⟨firstWins, topicSchemaHashOf (decimalEnv "a") firstWins⟩) :
      TopicRegistry).get "t" = some ("t", ⟨firstWins, topicSchemaHashOf (decimalEnv "a") firstWins⟩) := by
    rw [Table.get_upsert, if_pos rfl]
  obtain ⟨-, hregistered, -⟩ := topic_definitions decimalNumbers (decimalEnv "a") noHooks rfl _ hr
  exact ⟨_, _, hr, hrow, (hregistered "t" _ hrow).2.2⟩

end Seqscribe
