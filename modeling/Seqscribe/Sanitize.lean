import Seqscribe.Codec

namespace Seqscribe
set_option autoImplicit true

/-! JavaScript values, and the two functions that decide which of them are JSON. -/

inductive JsNumber where
  | finite (x : Rat)
  | negZero
  | infinite (negative : Bool)
  | nan
  deriving DecidableEq, Repr

def JsNumber.isFinite : JsNumber → Bool
  | .finite _ | .negZero => true
  | .infinite _ | .nan => false

/-- The prototype of a plain object. -/
inductive Prototype where
  | object
  | null
  deriving DecidableEq, Repr

inductive JsValue where
  | undefined
  | null
  | bool (b : Bool)
  | num (x : JsNumber)
  | str (s : JsString)
  | bigint (n : Int)
  | symbol
  | function
  /-- An array has an element or a hole at each position below its length. -/
  | arr (elements : List (Option JsValue))
  /-- The members in the order of `Object.entries`. -/
  | obj (proto : Prototype) (members : List (JsString × JsValue))
  /-- An object of a class. -/
  | instance_

/-- The text of an `ERR_ENTRY_ENCODING`. -/
structure EncodingError where
  message : JsString
  deriving DecidableEq, Repr

def nonFinite (path : JsString) : Except EncodingError α :=
  .error ⟨js "non-finite number at " ++ path⟩

def nonPlain (path : JsString) : Except EncodingError α :=
  .error ⟨js "non-plain object at " ++ path⟩

def undefinedProperty (path : JsString) : Except EncodingError α :=
  .error ⟨js "undefined property at " ++ path⟩

def undefinedElement (path : JsString) : Except EncodingError α :=
  .error ⟨js "undefined array element at " ++ path ++ js " — removing it would shift positions"⟩

def unsupported (type : String) (path : JsString) : Except EncodingError α :=
  .error ⟨js "unsupported type " ++ js type ++ js " at " ++ path⟩

/-- `${path}[${i}]` -/
def atIndex (path : JsString) (i : Nat) : JsString := path ++ js "[" ++ dec i ++ js "]"

/-- `${path}.${k}` -/
def atKey (path k : JsString) : JsString := path ++ js "." ++ k

mutual

def assertJsonValue : JsValue → JsString → Except EncodingError Unit
  | .null, _ | .str _, _ | .bool _, _ => .ok ()
  | .num x, path => if x.isFinite then .ok () else nonFinite path
  | .arr elements, path => assertElements elements path 0
  | .obj _ members, path => assertMembers members path
  | .instance_, path => nonPlain path
  | .undefined, path => unsupported "undefined" path
  | .bigint _, path => unsupported "bigint" path
  | .symbol, path => unsupported "symbol" path
  | .function, path => unsupported "function" path

def assertElements : List (Option JsValue) → JsString → Nat → Except EncodingError Unit
  | [], _, _ => .ok ()
  -- The loop counts to the length, and `v[i]` at a hole is undefined.
  | none :: _, path, i => unsupported "undefined" (atIndex path i)
  | some v :: elements, path, i => do
    assertJsonValue v (atIndex path i)
    assertElements elements path (i + 1)

def assertMembers : List (JsString × JsValue) → JsString → Except EncodingError Unit
  | [], _ => .ok ()
  | (k, .undefined) :: _, path => undefinedProperty (atKey path k)
  | (k, v) :: members, path => do
    assertJsonValue v (atKey path k)
    assertMembers members path

end

mutual

def sanitizeJson : JsValue → JsString → Except EncodingError JsValue
  | .null, _ => .ok .null
  | .str s, _ => .ok (.str s)
  | .bool b, _ => .ok (.bool b)
  | .num x, path => if x.isFinite then .ok (.num x) else nonFinite path
  | .arr elements, path => do return .arr (← sanitizeElements elements path 0)
  | .obj _ members, path => do return .obj .object (← sanitizeMembers members path)
  | .instance_, path => nonPlain path
  | .undefined, path => unsupported "undefined" path
  | .bigint _, path => unsupported "bigint" path
  | .symbol, path => unsupported "symbol" path
  | .function, path => unsupported "function" path

/-- `v.map`. -/
def sanitizeElements :
    List (Option JsValue) → JsString → Nat → Except EncodingError (List (Option JsValue))
  | [], _, _ => .ok []
  -- `map` does not call its function for a hole, and its result has one in the same place.
  | none :: elements, path, i => do return none :: (← sanitizeElements elements path (i + 1))
  | some .undefined :: _, path, i => undefinedElement (atIndex path i)
  | some v :: elements, path, i => do
    let v ← sanitizeJson v (atIndex path i)
    return some v :: (← sanitizeElements elements path (i + 1))

/-- The members of an object have distinct keys, so that no pair of `Object.fromEntries`
replaces another. -/
def sanitizeMembers :
    List (JsString × JsValue) → JsString → Except EncodingError (List (JsString × JsValue))
  | [], _ => .ok []
  | (_, .undefined) :: members, path => sanitizeMembers members path
  | (k, v) :: members, path => do
    let v ← sanitizeJson v (atKey path k)
    return (k, v) :: (← sanitizeMembers members path)

end

/-! What each of the two accepts. -/

mutual

/-- A value of the JSON data model. -/
def JsValue.Json : JsValue → Prop
  | .null | .bool _ | .str _ => True
  | .num x => x.isFinite = true
  | .arr elements => JsonElements elements
  | .obj _ members => JsonMembers members
  | _ => False

def JsonElements : List (Option JsValue) → Prop
  | [] => True
  | none :: _ => False
  | some v :: elements => v.Json ∧ JsonElements elements

def JsonMembers : List (JsString × JsValue) → Prop
  | [] => True
  | (_, v) :: members => v.Json ∧ JsonMembers members

end

mutual

/-- JSON but for undefined members and for holes. -/
def JsValue.Loose : JsValue → Prop
  | .null | .bool _ | .str _ => True
  | .num x => x.isFinite = true
  | .arr elements => LooseElements elements
  | .obj _ members => LooseMembers members
  | _ => False

def LooseElements : List (Option JsValue) → Prop
  | [] => True
  | none :: elements => LooseElements elements
  | some v :: elements => v.Loose ∧ LooseElements elements

def LooseMembers : List (JsString × JsValue) → Prop
  | [] => True
  | (_, v) :: members => (v = .undefined ∨ v.Loose) ∧ LooseMembers members

end

mutual

/-- An array somewhere in the value has a hole. -/
def JsValue.Holed : JsValue → Prop
  | .arr elements => HoledElements elements
  | .obj _ members => HoledMembers members
  | _ => False

def HoledElements : List (Option JsValue) → Prop
  | [] => False
  | none :: _ => True
  | some v :: elements => v.Holed ∨ HoledElements elements

def HoledMembers : List (JsString × JsValue) → Prop
  | [] => False
  | (_, v) :: members => v.Holed ∨ HoledMembers members

end

mutual

/-- The same value in new arrays and new objects. -/
def JsValue.fresh : JsValue → JsValue
  | .arr elements => .arr (freshElements elements)
  | .obj _ members => .obj .object (freshMembers members)
  | v => v

def freshElements : List (Option JsValue) → List (Option JsValue)
  | [] => []
  | none :: elements => none :: freshElements elements
  | some v :: elements => some v.fresh :: freshElements elements

def freshMembers : List (JsString × JsValue) → List (JsString × JsValue)
  | [] => []
  | (k, v) :: members => (k, v.fresh) :: freshMembers members

end

mutual

/-- `fresh`, with the undefined members left out. -/
def JsValue.cleaned : JsValue → JsValue
  | .arr elements => .arr (cleanedElements elements)
  | .obj _ members => .obj .object (cleanedMembers members)
  | v => v

def cleanedElements : List (Option JsValue) → List (Option JsValue)
  | [] => []
  | none :: elements => none :: cleanedElements elements
  | some v :: elements => some v.cleaned :: cleanedElements elements

def cleanedMembers : List (JsString × JsValue) → List (JsString × JsValue)
  | [] => []
  | (_, .undefined) :: members => cleanedMembers members
  | (k, v) :: members => (k, v.cleaned) :: cleanedMembers members

end

/-- The computation returns exactly under the condition, and then the value. -/
def Yields (x : Except ε α) (p : Prop) (a : α) : Prop := ∀ r, x = .ok r ↔ p ∧ r = a

namespace Yields

theorem ok {p : Prop} (hp : p) : Yields (.ok a : Except ε α) p a := by
  intro r
  rw [and_iff_right hp, Except.ok.injEq, eq_comm]

theorem error {p : Prop} (hp : ¬ p) : Yields (.error e : Except ε α) p a :=
  fun _ => iff_of_false (fun h => nomatch h) fun h => hp h.1

theorem bind {x : Except ε α} {f : α → Except ε β} (hx : Yields x p a) (hf : Yields (f a) q b) :
    Yields (x >>= f) (p ∧ q) b := by
  intro r
  cases x with
  | error e =>
    have hp : ¬ p := fun hp => nomatch (hx a).2 ⟨hp, rfl⟩
    exact error (fun h => hp h.1) r
  | ok a' =>
    obtain ⟨hp, rfl⟩ := (hx a').1 rfl
    rw [and_iff_right hp]
    exact hf r

theorem map {x : Except ε α} {f : α → β} (hx : Yields x p a) :
    Yields (do return f (← x)) p (f a) := by
  have h := hx.bind (f := fun a => pure (f a)) (ok trivial)
  rwa [and_true] at h

end Yields

/-! An undefined member is a case of its own in three of the recursions. -/

theorem assertMembers_cons (hv : v ≠ .undefined) :
    assertMembers ((k, v) :: members) path =
      (do assertJsonValue v (atKey path k); assertMembers members path) := by
  cases v <;> first | rfl | exact absurd rfl hv

theorem sanitizeElements_cons (hv : v ≠ .undefined) :
    sanitizeElements (some v :: elements) path i = do
      let v ← sanitizeJson v (atIndex path i)
      return some v :: (← sanitizeElements elements path (i + 1)) := by
  cases v <;> first | rfl | exact absurd rfl hv

theorem sanitizeMembers_cons (hv : v ≠ .undefined) :
    sanitizeMembers ((k, v) :: members) path = do
      let v ← sanitizeJson v (atKey path k)
      return (k, v) :: (← sanitizeMembers members path) := by
  cases v <;> first | rfl | exact absurd rfl hv

theorem cleanedMembers_cons (hv : v ≠ .undefined) :
    cleanedMembers ((k, v) :: members) = (k, v.cleaned) :: cleanedMembers members := by
  cases v <;> first | rfl | exact absurd rfl hv

theorem JsValue.Json.defined (h : JsValue.Json v) : v ≠ .undefined := by
  intro heq
  rw [heq] at h
  exact h

theorem JsValue.Loose.defined (h : JsValue.Loose v) : v ≠ .undefined := by
  intro heq
  rw [heq] at h
  exact h

mutual

theorem assertJsonValue_ok_iff : ∀ (v : JsValue) (path : JsString),
    assertJsonValue v path = .ok () ↔ v.Json
  | .null, _ | .bool _, _ | .str _, _ => iff_of_true rfl trivial
  | .num x, path => by
    rw [assertJsonValue, JsValue.Json]
    cases hx : x.isFinite with
    | true => exact iff_of_true rfl rfl
    | false => exact iff_of_false (by exact fun h => nomatch h) Bool.false_ne_true
  | .arr elements, path => assertElements_ok_iff elements path 0
  | .obj _ members, path => assertMembers_ok_iff members path
  | .undefined, _ | .bigint _, _ | .symbol, _ | .function, _ | .instance_, _ =>
    iff_of_false (fun h => nomatch h) id

theorem assertElements_ok_iff : ∀ (elements : List (Option JsValue)) (path : JsString) (i : Nat),
    assertElements elements path i = .ok () ↔ JsonElements elements
  | [], _, _ => iff_of_true rfl trivial
  | none :: _, _, _ => iff_of_false (fun h => nomatch h) id
  | some v :: elements, path, i => by
    rw [JsonElements, ← assertJsonValue_ok_iff v (atIndex path i),
      ← assertElements_ok_iff elements path (i + 1), assertElements]
    exact andThen_eq_ok

theorem assertMembers_ok_iff : ∀ (members : List (JsString × JsValue)) (path : JsString),
    assertMembers members path = .ok () ↔ JsonMembers members
  | [], _ => iff_of_true rfl trivial
  | (k, v) :: members, path => by
    by_cases hv : v = .undefined
    · subst hv
      exact iff_of_false (fun h => nomatch h) And.left
    · rw [JsonMembers, ← assertJsonValue_ok_iff v (atKey path k),
        ← assertMembers_ok_iff members path, assertMembers_cons hv]
      exact andThen_eq_ok

end

mutual

/-- A loose value is sanitized, and nothing else is. -/
theorem sanitizeJson_yields : ∀ (v : JsValue) (path : JsString),
    Yields (sanitizeJson v path) v.Loose v.cleaned
  | .null, _ | .bool _, _ | .str _, _ => .ok trivial
  | .num x, path => by
    rw [sanitizeJson, JsValue.Loose]
    cases hx : x.isFinite with
    | true => exact .ok rfl
    | false => exact .error Bool.false_ne_true
  | .arr elements, path => (sanitizeElements_yields elements path 0).map
  | .obj _ members, path => (sanitizeMembers_yields members path).map
  | .undefined, _ | .bigint _, _ | .symbol, _ | .function, _ | .instance_, _ => .error id

theorem sanitizeElements_yields : ∀ (elements : List (Option JsValue)) (path : JsString) (i : Nat),
    Yields (sanitizeElements elements path i) (LooseElements elements) (cleanedElements elements)
  | [], _, _ => .ok trivial
  | none :: elements, path, i => (sanitizeElements_yields elements path (i + 1)).map
  | some v :: elements, path, i => by
    by_cases hv : v = .undefined
    · subst hv
      exact .error And.left
    · rw [sanitizeElements_cons hv]
      exact (sanitizeJson_yields v _).bind (sanitizeElements_yields elements path (i + 1)).map

theorem sanitizeMembers_yields : ∀ (members : List (JsString × JsValue)) (path : JsString),
    Yields (sanitizeMembers members path) (LooseMembers members) (cleanedMembers members)
  | [], _ => .ok trivial
  | (k, v) :: members, path => by
    by_cases hv : v = .undefined
    · subst hv
      rw [LooseMembers, and_iff_right (Or.inl rfl)]
      exact sanitizeMembers_yields members path
    · rw [sanitizeMembers_cons hv, LooseMembers, or_iff_right hv, cleanedMembers_cons hv]
      exact (sanitizeJson_yields v _).bind (sanitizeMembers_yields members path).map

end

mutual

/-- Without holes, what is left of a loose value is JSON. -/
theorem JsValue.Loose.json_cleaned_iff : ∀ {v : JsValue}, v.Loose → (v.cleaned.Json ↔ ¬ v.Holed)
  | .null, _ | .bool _, _ | .str _, _ => iff_of_true trivial id
  | .num _, h => iff_of_true h id
  | .arr elements, h => @LooseElements.json_cleaned_iff elements h
  | .obj _ members, h => @LooseMembers.json_cleaned_iff members h

theorem LooseElements.json_cleaned_iff : ∀ {elements : List (Option JsValue)},
    LooseElements elements → (JsonElements (cleanedElements elements) ↔ ¬ HoledElements elements)
  | [], _ => iff_of_true trivial id
  | none :: elements, _ => iff_of_false id fun h => h trivial
  | some v :: elements, h => by
    rw [cleanedElements, JsonElements, HoledElements, not_or, JsValue.Loose.json_cleaned_iff h.1,
      LooseElements.json_cleaned_iff h.2]

theorem LooseMembers.json_cleaned_iff : ∀ {members : List (JsString × JsValue)},
    LooseMembers members → (JsonMembers (cleanedMembers members) ↔ ¬ HoledMembers members)
  | [], _ => iff_of_true trivial id
  | (k, v) :: members, h => by
    have hrest := LooseMembers.json_cleaned_iff h.2
    by_cases hv : v = .undefined
    · subst hv
      rw [HoledMembers, or_iff_right (show ¬ JsValue.undefined.Holed from id)]
      exact hrest
    · rw [cleanedMembers_cons hv, JsonMembers, HoledMembers, not_or,
        JsValue.Loose.json_cleaned_iff (h.1.resolve_left hv), hrest]

end

mutual

/-- JSON is loose, and nothing of it is left out. -/
theorem JsValue.Json.loose : ∀ {v : JsValue}, v.Json → v.Loose ∧ v.cleaned = v.fresh
  | .null, _ | .bool _, _ | .str _, _ => ⟨trivial, rfl⟩
  | .num x, h => ⟨h, rfl⟩
  | .arr elements, h => by
    obtain ⟨hloose, heq⟩ := @JsonElements.loose elements h
    exact ⟨hloose, congrArg _ heq⟩
  | .obj _ members, h => by
    obtain ⟨hloose, heq⟩ := @JsonMembers.loose members h
    exact ⟨hloose, congrArg _ heq⟩

theorem JsonElements.loose : ∀ {elements : List (Option JsValue)}, JsonElements elements →
    LooseElements elements ∧ cleanedElements elements = freshElements elements
  | [], _ => ⟨trivial, rfl⟩
  | some v :: elements, h => by
    obtain ⟨hv, heq⟩ := JsValue.Json.loose h.1
    obtain ⟨hrest, heqs⟩ := JsonElements.loose h.2
    refine ⟨⟨hv, hrest⟩, ?_⟩
    rw [cleanedElements, freshElements, heq, heqs]

theorem JsonMembers.loose : ∀ {members : List (JsString × JsValue)}, JsonMembers members →
    LooseMembers members ∧ cleanedMembers members = freshMembers members
  | [], _ => ⟨trivial, rfl⟩
  | (k, v) :: members, h => by
    obtain ⟨hv, heq⟩ := JsValue.Json.loose h.1
    obtain ⟨hrest, heqs⟩ := JsonMembers.loose h.2
    refine ⟨⟨.inr hv, hrest⟩, ?_⟩
    rw [cleanedMembers_cons h.1.defined, freshMembers, heq, heqs]

end

/-- What `sanitizeJson` promises of a value: a result that `assertJsonValue` accepts, and of an
accepted value the value itself. -/
structure JsValue.Appendable (v : JsValue) : Prop where
  accepted : sanitizeJson v path = .ok r → assertJsonValue r path' = .ok ()
  same : assertJsonValue v path = .ok () → sanitizeJson v path' = .ok v.fresh

theorem sanitized_appendable_iff (v : JsValue) : v.Appendable ↔ (v.Holed → ¬ v.Loose) := by
  constructor
  · intro h hholed hloose
    have hjson := (assertJsonValue_ok_iff _ []).1
      (h.accepted ((sanitizeJson_yields v [] _).2 ⟨hloose, rfl⟩))
    exact hloose.json_cleaned_iff.1 hjson hholed
  · intro h
    constructor
    · intro path r path' hr
      obtain ⟨hloose, rfl⟩ := (sanitizeJson_yields v path _).1 hr
      apply (assertJsonValue_ok_iff _ path').2
      exact hloose.json_cleaned_iff.2 fun hholed => h hholed hloose
    · intro path path' hok
      obtain ⟨hloose, heq⟩ := ((assertJsonValue_ok_iff v path).1 hok).loose
      exact (sanitizeJson_yields v path' _).2 ⟨hloose, heq.symm⟩

/-- `[1, , 3]`: the hole is in the result too. -/
theorem holed_not_appendable : ¬ ∀ v : JsValue, v.Appendable := by
  intro h
  let v : JsValue := .arr [some (.num (.finite 1)), none, some (.num (.finite 3))]
  have hr : sanitizeJson v [] = .ok v := rfl
  have hok : assertJsonValue v [] = .ok () := (h v).accepted hr
  exact nomatch hok

end Seqscribe
