import Mathlib.Data.List.Induction
import Seqscribe.CharterNames
import Seqscribe.RegisterHub
import Seqscribe.Sanitize

namespace Seqscribe
set_option autoImplicit true

/-! The conflict policies that a topic's policy declares, and the policy of a key. -/

/-- `Record<string, ConflictPolicy>`: a plain object and its own entries. -/
structure Overrides where
  proto : Prototype
  entries : Table Key (Key × ConflictPolicy) Prod.fst

/-- `TopicPolicy.conflict`. -/
structure ConflictTable where
  default : Option ConflictPolicy
  overrides : Option Overrides

/-- The value of a property: a declared policy, or what `Object.prototype` has under the name. -/
inductive PolicyValue where
  | policy (p : ConflictPolicy)
  | inherited (name : Key)
  deriving DecidableEq, Repr

/-- `overrides[key]` -/
def Overrides.lookup (o : Overrides) (key : Key) : Option PolicyValue :=
  match o.entries.get key with
  | some (_, policy) => some (.policy policy)
  | none =>
    if o.proto = .object ∧ key ∈ OBJECT_PROTOTYPE.map js then some (.inherited key) else none

structure BestGlob where
  len : Nat
  policy : ConflictPolicy
  deriving DecidableEq, Repr

/-- One turn of the loop over the entries. -/
def betterGlob (key : Key) (best : Option BestGlob) (entry : Key × ConflictPolicy) :
    Option BestGlob :=
  if (js ".*").isSuffixOf entry.1 then
    let stem := entry.1.dropLast
    if stem.isPrefixOf key && best.all fun b => b.len < stem.length then
      some ⟨stem.length, entry.2⟩
    else best
  else best

def ConflictTable.declared (c : Option ConflictTable) : Overrides :=
  (c.bind ConflictTable.overrides).getD ⟨.object, .empty⟩

def conflictPolicyFor (c : Option ConflictTable) (key : Key) : PolicyValue :=
  let overrides := ConflictTable.declared c
  match overrides.lookup key with
  | some exact_ => exact_
  | none =>
    let best := overrides.entries.rows.foldl (betterGlob key) none
    .policy (((best.map BestGlob.policy).or (c.bind ConflictTable.default)).getD .lww)

/-! What the entries declare for a key. -/

/-- `stem*` is a declared glob with the policy, and the key begins with its stem. -/
structure MatchesGlob (rows : List (Key × ConflictPolicy)) (key stem : Key)
    (policy : ConflictPolicy) : Prop where
  declared : (stem ++ js "*", policy) ∈ rows
  dotted : js "." <:+ stem
  begins : stem <+: key

/-- The policy is that of the longest declared glob that matches. -/
def LongestGlob (rows : List (Key × ConflictPolicy)) (key stem : Key) (policy : ConflictPolicy) :
    Prop :=
  MatchesGlob rows key stem policy ∧
    ∀ stem' policy', MatchesGlob rows key stem' policy' → stem'.length ≤ stem.length

/-- The law of resolution: the exact entry, else the longest glob, else the default, else `lww`. -/
inductive Resolves (c : Option ConflictTable) (key : Key) : ConflictPolicy → Prop where
  | exact_ (h : (key, policy) ∈ (ConflictTable.declared c).entries.rows) : Resolves c key policy
  | glob (hexact : ∀ policy', (key, policy') ∉ (ConflictTable.declared c).entries.rows)
      (h : LongestGlob (ConflictTable.declared c).entries.rows key stem policy) :
      Resolves c key policy
  | default (hexact : ∀ policy', (key, policy') ∉ (ConflictTable.declared c).entries.rows)
      (hglob : ∀ stem policy',
        ¬ MatchesGlob (ConflictTable.declared c).entries.rows key stem policy') :
      Resolves c key ((c.bind ConflictTable.default).getD .lww)

/-- A policy of an entry, or the default. -/
def ConflictTable.Declares (c : Option ConflictTable) (policy : ConflictPolicy) : Prop :=
  (∃ key, (key, policy) ∈ (ConflictTable.declared c).entries.rows) ∨
    policy = (c.bind ConflictTable.default).getD .lww

theorem Resolves.declares (h : Resolves c key policy) : ConflictTable.Declares c policy := by
  cases h with
  | exact_ h => exact .inl ⟨key, h⟩
  | glob _ h => exact .inl ⟨_, h.1.declared⟩
  | default => exact .inr rfl

/-! The loop over the entries. -/

theorem glob_iff {pattern stem : Key} :
    pattern = stem ++ js "*" ∧ js "." <:+ stem ↔
      js ".*" <:+ pattern ∧ stem = pattern.dropLast := by
  have hjoin (front : Key) : front ++ js ".*" = (front ++ js ".") ++ js "*" :=
    (List.append_assoc ..).symm
  constructor
  · rintro ⟨rfl, front, rfl⟩
    exact ⟨⟨front, hjoin front⟩, List.dropLast_concat.symm⟩
  · rintro ⟨⟨front, rfl⟩, rfl⟩
    rw [hjoin, show (front ++ js "." ++ js "*").dropLast = front ++ js "." from
      List.dropLast_concat]
    exact ⟨rfl, front, rfl⟩

theorem matchesGlob_one : MatchesGlob [entry] key stem policy ↔
    (js ".*" <:+ entry.1 ∧ entry.1.dropLast <+: key) ∧
      stem = entry.1.dropLast ∧ policy = entry.2 := by
  constructor
  · rintro ⟨hdeclared, hdotted, hbegins⟩
    obtain rfl := List.mem_singleton.1 hdeclared
    obtain ⟨hsuffix, hstem⟩ := glob_iff.1 ⟨rfl, hdotted⟩
    exact ⟨⟨hsuffix, hstem ▸ hbegins⟩, hstem, rfl⟩
  · rintro ⟨⟨hsuffix, hbegins⟩, rfl, rfl⟩
    obtain ⟨hpattern, hdotted⟩ := glob_iff.2 ⟨hsuffix, rfl⟩
    exact ⟨List.mem_singleton.2 (hpattern ▸ rfl), hdotted, hbegins⟩

theorem matchesGlob_append : MatchesGlob (rows ++ rows') key stem policy ↔
    MatchesGlob rows key stem policy ∨ MatchesGlob rows' key stem policy := by
  constructor
  · rintro ⟨hdeclared, hdotted, hbegins⟩
    exact (List.mem_append.1 hdeclared).imp (⟨·, hdotted, hbegins⟩) (⟨·, hdotted, hbegins⟩)
  · rintro (h | h)
    · exact ⟨List.mem_append_left _ h.declared, h.dotted, h.begins⟩
    · exact ⟨List.mem_append_right _ h.declared, h.dotted, h.begins⟩

/-- What the loop holds after some rows: the longest of their globs that match. -/
def IsBest (rows : List (Key × ConflictPolicy)) (key : Key) : Option BestGlob → Prop
  | none => ∀ stem policy, ¬ MatchesGlob rows key stem policy
  | some best => ∃ stem, LongestGlob rows key stem best.policy ∧ best.len = stem.length

theorem IsBest.pass (h : IsBest rows key best)
    (hentry : ∀ stem policy, MatchesGlob [entry] key stem policy →
      ∃ b ∈ best, stem.length ≤ b.len) : IsBest (rows ++ [entry]) key best := by
  cases best with
  | none =>
    intro stem policy hmatch
    rcases matchesGlob_append.1 hmatch with hmatch | hmatch
    · exact h stem policy hmatch
    · obtain ⟨b, hb, -⟩ := hentry stem policy hmatch
      exact nomatch hb
  | some best =>
    obtain ⟨stem, ⟨hmatch, hlongest⟩, hlen⟩ := h
    refine ⟨stem, ⟨matchesGlob_append.2 (.inl hmatch), ?_⟩, hlen⟩
    intro stem' policy' hmatch'
    rcases matchesGlob_append.1 hmatch' with hmatch' | hmatch'
    · exact hlongest stem' policy' hmatch'
    · obtain ⟨b, hb, hle⟩ := hentry stem' policy' hmatch'
      cases hb
      exact hlen ▸ hle

theorem IsBest.better (h : IsBest rows key best) (entry : Key × ConflictPolicy) :
    IsBest (rows ++ [entry]) key (betterGlob key best entry) := by
  rw [betterGlob]
  split
  next hsuffix =>
    dsimp only
    split
    next hlonger =>
      rw [Bool.and_eq_true, List.isPrefixOf_iff_prefix] at hlonger
      obtain ⟨hbegins, hlonger⟩ := hlonger
      have hmatch : MatchesGlob [entry] key entry.1.dropLast entry.2 :=
        matchesGlob_one.2 ⟨⟨List.isSuffixOf_iff_suffix.1 hsuffix, hbegins⟩, rfl, rfl⟩
      refine ⟨_, ⟨matchesGlob_append.2 (.inr hmatch), ?_⟩, rfl⟩
      intro stem' policy' hmatch'
      rcases matchesGlob_append.1 hmatch' with hmatch' | hmatch'
      · cases best with
        | none => exact absurd hmatch' (h stem' policy')
        | some best =>
          obtain ⟨stem, ⟨-, hlongest⟩, hlen⟩ := h
          have hlt : best.len < entry.1.dropLast.length := of_decide_eq_true hlonger
          have hle := hlongest stem' policy' hmatch'
          omega
      · exact Nat.le_of_eq (congrArg List.length (matchesGlob_one.1 hmatch').2.1)
    next hshort =>
      apply h.pass
      intro stem policy hmatch
      obtain ⟨⟨-, hbegins⟩, rfl, -⟩ := matchesGlob_one.1 hmatch
      rw [List.isPrefixOf_iff_prefix.2 hbegins, Bool.true_and] at hshort
      cases best with
      | none => exact absurd rfl hshort
      | some best => exact ⟨best, rfl, Nat.le_of_not_lt fun hlt => hshort (decide_eq_true hlt)⟩
  next hsuffix =>
    apply h.pass
    intro stem policy hmatch
    exact absurd (List.isSuffixOf_iff_suffix.2 (matchesGlob_one.1 hmatch).1.1) hsuffix

theorem isBest_rows (rows : List (Key × ConflictPolicy)) (key : Key) :
    IsBest rows key (rows.foldl (betterGlob key) none) := by
  induction rows using List.reverseRecOn with
  | nil => exact fun _ _ h => nomatch h.declared
  | append_singleton rows entry ih =>
    rw [List.foldl_append]
    exact ih.better entry

/-- The table declares the key, or `Object.prototype` has no such property. -/
def ConflictTable.Answers (c : Option ConflictTable) (key : Key) : Prop :=
  (∃ policy, (key, policy) ∈ (ConflictTable.declared c).entries.rows) ∨
    (ConflictTable.declared c).proto = .null ∨ key ∉ OBJECT_PROTOTYPE.map js

theorem conflictPolicyFor_own (h : (key, policy) ∈ (ConflictTable.declared c).entries.rows) :
    conflictPolicyFor c key = .policy policy := by
  have hget : (ConflictTable.declared c).entries.get key = some (key, policy) :=
    Table.get_of_mem h
  rw [conflictPolicyFor, Overrides.lookup, hget]

/-- Where the lookup finds nothing, the loop decides. -/
theorem conflictPolicyFor_globs
    (hexact : ∀ policy, (key, policy) ∉ (ConflictTable.declared c).entries.rows)
    (h : (ConflictTable.declared c).proto = .null ∨ key ∉ OBJECT_PROTOTYPE.map js) :
    ∃ policy, conflictPolicyFor c key = .policy policy ∧ Resolves c key policy := by
  have hget : (ConflictTable.declared c).entries.get key = none := by
    apply Table.get_eq_none_iff.2
    intro row hmem heq
    exact hexact row.2 (heq ▸ hmem)
  have hforeign :
      ¬ ((ConflictTable.declared c).proto = .object ∧ key ∈ OBJECT_PROTOTYPE.map js) := by
    intro hinherited
    rcases h with hnull | hkey
    · exact nomatch hinherited.1.symm.trans hnull
    · exact hkey hinherited.2
  have hbest := isBest_rows (ConflictTable.declared c).entries.rows key
  rw [conflictPolicyFor, Overrides.lookup, hget]
  dsimp only
  rw [if_neg hforeign]
  cases hfold : (ConflictTable.declared c).entries.rows.foldl (betterGlob key) none with
  | none =>
    rw [hfold] at hbest
    exact ⟨_, rfl, .default hexact hbest⟩
  | some best =>
    rw [hfold] at hbest
    obtain ⟨stem, hlongest, -⟩ := hbest
    exact ⟨_, rfl, .glob hexact hlongest⟩

theorem conflictPolicyFor_inherited (h : ¬ ConflictTable.Answers c key) :
    conflictPolicyFor c key = .inherited key := by
  obtain ⟨hexact, hproto, hkey⟩ : (¬ ∃ policy, (key, policy) ∈ _) ∧ _ ∧ _ :=
    ⟨fun h' => h (.inl h'), fun h' => h (.inr (.inl h')), fun h' => h (.inr (.inr h'))⟩
  have hget : (ConflictTable.declared c).entries.get key = none := by
    apply Table.get_eq_none_iff.2
    intro row hmem heq
    exact hexact ⟨row.2, heq ▸ hmem⟩
  have hobject : (ConflictTable.declared c).proto = .object := by
    cases hp : (ConflictTable.declared c).proto with
    | object => rfl
    | null => exact absurd hp hproto
  rw [conflictPolicyFor, Overrides.lookup, hget]
  dsimp only
  rw [if_pos ⟨hobject, not_not.1 hkey⟩]

theorem conflictPolicyFor_resolves (h : ConflictTable.Answers c key) :
    ∃ policy, conflictPolicyFor c key = .policy policy ∧ Resolves c key policy := by
  by_cases hexact : ∃ policy, (key, policy) ∈ (ConflictTable.declared c).entries.rows
  · obtain ⟨policy, hmem⟩ := hexact
    exact ⟨policy, conflictPolicyFor_own hmem, .exact_ hmem⟩
  · exact conflictPolicyFor_globs (fun policy hmem => hexact ⟨policy, hmem⟩)
      (h.resolve_left hexact)

/-- A key gets what the law says exactly when no inherited property stands in the way. -/
theorem conflictPolicyFor_resolves_iff (c : Option ConflictTable) (key : Key) :
    (∃ policy, conflictPolicyFor c key = .policy policy ∧ Resolves c key policy ∧
      ConflictTable.Declares c policy) ↔ ConflictTable.Answers c key := by
  constructor
  · rintro ⟨policy, heq, -⟩
    by_contra h
    exact nomatch (conflictPolicyFor_inherited h).symm.trans heq
  · intro h
    obtain ⟨policy, heq, hresolves⟩ := conflictPolicyFor_resolves h
    exact ⟨policy, heq, hresolves, hresolves.declares⟩

/-! The order of the entries does not count. -/

theorem LongestGlob.same (h : LongestGlob rows key stem policy)
    (h' : LongestGlob rows key stem' policy') : stem = stem' := by
  have hlength : stem.length = stem'.length :=
    Nat.le_antisymm (h'.2 _ _ h.1) (h.2 _ _ h'.1)
  have hle := List.prefix_of_prefix_length_le h.1.begins h'.1.begins (Nat.le_of_eq hlength)
  exact hle.eq_of_length hlength

theorem ConflictTable.one_policy (h : (key, policy) ∈ (ConflictTable.declared c).entries.rows)
    (h' : (key, policy') ∈ (ConflictTable.declared c).entries.rows) : policy = policy' := by
  have hget : (ConflictTable.declared c).entries.get key = some (key, policy) :=
    Table.get_of_mem h
  have hget' : (ConflictTable.declared c).entries.get key = some (key, policy') :=
    Table.get_of_mem h'
  rw [hget] at hget'
  exact (Prod.mk.inj (Option.some.inj hget')).2

/-- The law leaves one policy for each key. -/
theorem Resolves.unique (h : Resolves c key policy) (h' : Resolves c key policy') :
    policy = policy' := by
  cases h with
  | exact_ h =>
    cases h' with
    | exact_ h' => exact ConflictTable.one_policy h h'
    | glob hexact => exact absurd h (hexact _)
    | default hexact => exact absurd h (hexact _)
  | glob hexact h =>
    cases h' with
    | exact_ h' => exact absurd h' (hexact _)
    | glob _ h' =>
      obtain rfl := h.same h'
      exact ConflictTable.one_policy h.1.declared h'.1.declared
    | default _ hglob => exact absurd h.1 (hglob _ _)
  | default hexact hglob =>
    cases h' with
    | exact_ h' => exact absurd h' (hexact _)
    | glob _ h' => exact absurd h'.1 (hglob _ _)
    | default => rfl

/-- Two tables with the same entries, in whatever order, and the same default. -/
structure ConflictTable.Same (c c' : Option ConflictTable) : Prop where
  proto : (ConflictTable.declared c).proto = (ConflictTable.declared c').proto
  entries : ∀ row, row ∈ (ConflictTable.declared c).entries.rows ↔
    row ∈ (ConflictTable.declared c').entries.rows
  default : c.bind ConflictTable.default = c'.bind ConflictTable.default

theorem ConflictTable.Same.matchesGlob (h : ConflictTable.Same c c') :
    MatchesGlob (ConflictTable.declared c).entries.rows key stem policy ↔
      MatchesGlob (ConflictTable.declared c').entries.rows key stem policy :=
  ⟨fun ⟨hdeclared, hdotted, hbegins⟩ => ⟨(h.entries _).1 hdeclared, hdotted, hbegins⟩,
    fun ⟨hdeclared, hdotted, hbegins⟩ => ⟨(h.entries _).2 hdeclared, hdotted, hbegins⟩⟩

theorem ConflictTable.Same.resolves (h : ConflictTable.Same c c') (hr : Resolves c key policy) :
    Resolves c' key policy := by
  cases hr with
  | exact_ hmem => exact .exact_ ((h.entries _).1 hmem)
  | glob hexact hlongest =>
    exact .glob (fun policy' hmem => hexact policy' ((h.entries _).2 hmem))
      ⟨h.matchesGlob.1 hlongest.1,
        fun stem' policy' hmatch => hlongest.2 stem' policy' (h.matchesGlob.2 hmatch)⟩
  | default hexact hglob =>
    rw [h.default]
    exact .default (fun policy' hmem => hexact policy' ((h.entries _).2 hmem))
      fun stem policy' hmatch => hglob stem policy' (h.matchesGlob.2 hmatch)

theorem ConflictTable.Same.answers (h : ConflictTable.Same c c') :
    ConflictTable.Answers c key ↔ ConflictTable.Answers c' key := by
  rw [ConflictTable.Answers, ConflictTable.Answers, h.proto]
  simp only [h.entries]

/-- Replicas that list the same entries in different orders agree on every key. -/
theorem conflictPolicyFor_of_same (h : ConflictTable.Same c c') (key : Key) :
    conflictPolicyFor c key = conflictPolicyFor c' key := by
  by_cases hanswers : ConflictTable.Answers c key
  · obtain ⟨policy, heq, hresolves⟩ := conflictPolicyFor_resolves hanswers
    obtain ⟨policy', heq', hresolves'⟩ := conflictPolicyFor_resolves (h.answers.1 hanswers)
    rw [heq, heq', (h.resolves hresolves).unique hresolves']
  · rw [conflictPolicyFor_inherited hanswers,
      conflictPolicyFor_inherited fun h' => hanswers (h.answers.2 h')]

/-- A register topic whose profile keys are owned. -/
def profileTable : ConflictTable where
  default := some .fww
  overrides := some ⟨.object, Table.ofRows Prod.fst [(js "profile.*", .owned)]⟩

/-- The key `constructor` finds the function that every plain object inherits. -/
theorem constructor_not_declared :
    ¬ ∀ c key, ∃ policy, conflictPolicyFor c key = .policy policy ∧ Resolves c key policy ∧
      ConflictTable.Declares c policy := by
  intro h
  obtain ⟨policy, heq, -⟩ := h (some profileTable) (js "constructor")
  have hinherited : conflictPolicyFor (some profileTable) (js "constructor") =
      .inherited (js "constructor") := by decide
  exact nomatch hinherited.symm.trans heq

end Seqscribe
