import Seqscribe.JsonBytes

namespace Seqscribe
set_option autoImplicit true

/-! JSON texts are read back. -/

def isDigitUnit (u : UInt16) : Prop := 48 ≤ u.toNat ∧ u.toNat ≤ 57

/-- The units of a JSON numeral: digits, `+`, `-`, `.`, `e` and `E`. -/
def isNumberUnit (u : UInt16) : Prop :=
  isDigitUnit u ∨ u = 43 ∨ u = 45 ∨ u = 46 ∨ u = 101 ∨ u = 69

instance : DecidablePred isDigitUnit := fun _ => inferInstanceAs (Decidable (_ ∧ _))

instance : DecidablePred isNumberUnit := fun _ => inferInstanceAs (Decidable (_ ∨ _))

/-- Numbers, their texts, and the numbers that JSON numerals denote. -/
structure NumberSyntax extends NumberText where
  number : Rat → Prop
  value : JsString → Option Rat
  safe : ∀ n : Int, n.natAbs ≤ MAX_SAFE_INTEGER → number n
  units : ∀ x, number x → ∀ u ∈ text x, isNumberUnit u
  value_nil : value [] = none
  value_text : ∀ x, number x → value (text x) = some x

def isSpaceUnit (u : UInt16) : Bool := u = 32 || u = 9 || u = 10 || u = 13

def skipSpace (s : JsString) : JsString := s.dropWhile isSpaceUnit

/-- The next token, when it is the punctuator. -/
def expect (c : UInt16) (s : JsString) : Option JsString :=
  match skipSpace s with
  | [] => none
  | u :: rest => if u = c then some rest else none

def hexValue (u : UInt16) : Option Nat :=
  if 48 ≤ u.toNat ∧ u.toNat ≤ 57 then some (u.toNat - 48)
  else if 97 ≤ u.toNat ∧ u.toNat ≤ 102 then some (u.toNat - 87)
  else if 65 ≤ u.toNat ∧ u.toNat ≤ 70 then some (u.toNat - 55)
  else none

def hexUnit (a b c d : UInt16) : Option UInt16 := do
  let a ← hexValue a
  let b ← hexValue b
  let c ← hexValue c
  let d ← hexValue d
  return (a * 0x1000 + b * 0x100 + c * 0x10 + d).toUInt16

/-- What a backslash and one unit stand for. -/
def escapeValue (u : UInt16) : Option UInt16 :=
  match u.toNat with
  | 34 => some 34
  | 47 => some 47
  | 92 => some 92
  | 98 => some 8
  | 102 => some 12
  | 110 => some 10
  | 114 => some 13
  | 116 => some 9
  | _ => none

/-- The units up to the closing quote, and what follows it. -/
def readChars : JsString → Option (JsString × JsString)
  | [] => none
  | u :: rest =>
    if u = 34 then some ([], rest)
    else if u = 92 then
      match rest with
      | [] => none
      | e :: rest =>
        if e = 117 then
          match rest with
          | a :: b :: c :: d :: rest =>
            (hexUnit a b c d).bind fun unit => (readChars rest).map fun r => (unit :: r.1, r.2)
          | _ => none
        else
          (escapeValue e).bind fun unit => (readChars rest).map fun r => (unit :: r.1, r.2)
    else if u.toNat < 32 then none
    else (readChars rest).map fun r => (u :: r.1, r.2)

def readWord (word : JsString) (x : JsonValue) (s : JsString) : Option (JsonValue × JsString) :=
  if s.take word.length = word then some (x, s.drop word.length) else none

section
variable (num : NumberSyntax)

def readNumber (s : JsString) : Option (JsonValue × JsString) :=
  (num.value (s.takeWhile isNumberUnit)).map fun x => (.num x, s.dropWhile isNumberUnit)

def readScalar (s : JsString) : Option (JsonValue × JsString) :=
  ((readWord (js "null") .null s).or (readWord (js "true") (.bool true) s)).or
    ((readWord (js "false") (.bool false) s).or (readNumber num s))

mutual

/-- A JSON value at the head of a text, and what follows it. -/
def readValue : Nat → JsString → Option (JsonValue × JsString)
  | 0, _ => none
  | n + 1, s =>
    match expect 123 s, expect 91 s, expect 34 s with
    | some s, _, _ =>
      match expect 125 s with
      | some rest => some (.obj [], rest)
      | none => (readMembers n s).map fun r => (.obj r.1, r.2)
    | none, some s, _ =>
      match expect 93 s with
      | some rest => some (.arr [], rest)
      | none => (readElements n s).map fun r => (.arr r.1, r.2)
    | none, none, some s => (readChars s).map fun r => (.str r.1, r.2)
    | none, none, none => readScalar num (skipSpace s)

def readElements : Nat → JsString → Option (List JsonValue × JsString)
  | 0, _ => none
  | n + 1, s =>
    (readValue n s).bind fun x =>
      match expect 44 x.2 with
      | some rest => (readElements n rest).map fun r => (x.1 :: r.1, r.2)
      | none => (expect 93 x.2).map fun rest => ([x.1], rest)

def readMembers : Nat → JsString → Option (List (JsString × JsonValue) × JsString)
  | 0, _ => none
  | n + 1, s =>
    ((expect 34 s).bind readChars).bind fun key =>
      ((expect 58 key.2).bind (readValue n)).bind fun x =>
        match expect 44 x.2 with
        | some rest => (readMembers n rest).map fun r => ((key.1, x.1) :: r.1, r.2)
        | none => (expect 125 x.2).map fun rest => ([(key.1, x.1)], rest)

end

/-- The syntax of a JSON text: the members of an object as they are written. -/
def readText (s : JsString) : Option JsonValue :=
  (readValue num (s.length + 1) s).bind fun r => if skipSpace r.2 = [] then some r.1 else none

end

/-! Strings. -/

theorem readChars_quote (rest : JsString) : readChars (34 :: rest) = some ([], rest) := by
  rw [readChars.eq_def]
  rfl

theorem readChars_escape {e : UInt16} (he : e ≠ 117) (rest : JsString) :
    readChars (92 :: e :: rest) =
      (escapeValue e).bind fun unit => (readChars rest).map fun r => (unit :: r.1, r.2) := by
  rw [readChars.eq_def]
  exact if_neg he

theorem readChars_unicode (a b c d : UInt16) (rest : JsString) :
    readChars (92 :: 117 :: a :: b :: c :: d :: rest) =
      (hexUnit a b c d).bind fun unit => (readChars rest).map fun r => (unit :: r.1, r.2) := by
  rw [readChars.eq_def]
  rfl

theorem readChars_unit {u : UInt16} (hlow : 32 ≤ u.toNat) (hquote : u.toNat ≠ 34)
    (hslash : u.toNat ≠ 92) (rest : JsString) :
    readChars (u :: rest) = (readChars rest).map fun r => (u :: r.1, r.2) := by
  have hquote' : u ≠ 34 := fun h => hquote (congrArg UInt16.toNat h)
  have hslash' : u ≠ 92 := fun h => hslash (congrArg UInt16.toNat h)
  rw [readChars.eq_def]
  exact ((if_neg hquote').trans (if_neg hslash')).trans (if_neg (Nat.not_lt.2 hlow))

theorem hexValue_hexDigit (hn : n < 16) :
    hexValue (Sha256.hexDigit n).toNat.toUInt16 = some n := by
  have hall : ∀ n < 16, hexValue (Sha256.hexDigit n).toNat.toUInt16 = some n := by decide
  exact hall n hn

theorem js_hex {digits : List Nat} (h : ∀ n ∈ digits, n < 16) :
    js (String.ofList (digits.map Sha256.hexDigit)) =
      digits.map fun n => (Sha256.hexDigit n).toNat.toUInt16 := by
  rw [js_ascii, String.toList_ofList, List.map_map]
  · rfl
  · intro ch hch
    rw [String.toList_ofList] at hch
    obtain ⟨n, hn, rfl⟩ := List.mem_map.1 hch
    exact hexDigit_lt (h n hn)

theorem hexUnit_digits {a b c d : Nat} (ha : a < 16) (hb : b < 16) (hc : c < 16) (hd : d < 16)
    (hu : a * 0x1000 + b * 0x100 + c * 0x10 + d = u.toNat) :
    hexUnit (Sha256.hexDigit a).toNat.toUInt16 (Sha256.hexDigit b).toNat.toUInt16
      (Sha256.hexDigit c).toNat.toUInt16 (Sha256.hexDigit d).toNat.toUInt16 = some u := by
  rw [hexUnit, hexValue_hexDigit ha, hexValue_hexDigit hb, hexValue_hexDigit hc,
    hexValue_hexDigit hd]
  change some (a * 0x1000 + b * 0x100 + c * 0x10 + d).toUInt16 = some u
  rw [hu, Nat.toUInt16_eq, UInt16.ofNat_toNat]

theorem unitDigits_lt (u : UInt16) : ∀ n ∈ [u.toNat / 0x1000, u.toNat / 0x100 % 16,
    u.toNat / 0x10 % 16, u.toNat % 16], n < 16 := by
  have hu := u.toNat_lt
  intro n hn
  simp only [List.mem_cons, List.not_mem_nil, or_false] at hn
  omega

/-- The escape of a unit is read back. -/
theorem readChars_escapeUnit (u : UInt16) (t : JsString) :
    readChars (escapeUnit u ++ t) = (readChars t).map fun r => (u :: r.1, r.2) := by
  have hu := u.toNat_lt
  have htext := js_hex (unitDigits_lt u)
  simp only [List.map_cons, List.map_nil] at htext
  rw [escapeUnit, htext, show js "\\u" = [92, 117] from rfl]
  apply (readChars_unicode ..).trans
  have hunit := hexUnit_digits (a := u.toNat / 0x1000) (b := u.toNat / 0x100 % 16)
    (c := u.toNat / 0x10 % 16) (d := u.toNat % 16) (u := u) (by omega) (by omega) (by omega)
    (by omega) (by omega)
  rw [hunit]
  rfl

theorem readChars_jsonChar (u : UInt16) (t : JsString) :
    readChars (jsonChar u ++ t) = (readChars t).map fun r => (u :: r.1, r.2) := by
  have hof : ∀ n, u.toNat = n → u = n.toUInt16 := by
    intro n hn
    rw [← hn, Nat.toUInt16_eq, UInt16.ofNat_toNat]
  rw [jsonChar]
  split
  · next h => exact hof 8 h ▸ readChars_escape (by decide) t
  · next h => exact hof 9 h ▸ readChars_escape (by decide) t
  · next h => exact hof 10 h ▸ readChars_escape (by decide) t
  · next h => exact hof 12 h ▸ readChars_escape (by decide) t
  · next h => exact hof 13 h ▸ readChars_escape (by decide) t
  · next h => exact hof 34 h ▸ readChars_escape (by decide) t
  · next h => exact hof 92 h ▸ readChars_escape (by decide) t
  · next hquote hslash =>
    split
    · next hcontrol =>
      have hd : u.toNat / 16 < 16 := by omega
      have hd' : u.toNat % 16 < 16 := by omega
      have hdigits : ∀ n ∈ [u.toNat / 16, u.toNat % 16], n < 16 := by simp [hd, hd']
      have htext := js_hex hdigits
      simp only [List.map_cons, List.map_nil] at htext
      rw [htext, show js "\\u00" = [92, 117, 48, 48] from rfl]
      apply (readChars_unicode ..).trans
      have hzero : (48 : UInt16) = (Sha256.hexDigit 0).toNat.toUInt16 := by decide
      rw [hzero, hexUnit_digits (u := u) (by decide) (by decide) hd hd' (by omega)]
      rfl
    · next hplain => exact readChars_unit (Nat.not_lt.1 hplain) hquote hslash t

/-- No unit is a surrogate. -/
def Unpairable (s : JsString) : Prop := ∀ u ∈ s, ¬ isHigh u ∧ ¬ isLow u

theorem AsciiText.unpairable (h : AsciiText s) : Unpairable s := by
  intro u hu
  have hlt := h u hu
  exact ⟨fun hhigh => absurd hhigh.1 (by omega), fun hlow => absurd hlow.1 (by omega)⟩

theorem escapeUnpaired_append (h : Unpairable s) (t : JsString) :
    escapeUnpaired (s ++ t) = s ++ escapeUnpaired t := by
  induction s with
  | nil => rfl
  | cons u s ih =>
    obtain ⟨hhigh, hlow⟩ := h u List.mem_cons_self
    rw [List.cons_append, escapeUnpaired_cons]
    apply ((if_neg hhigh).trans (if_neg hlow)).trans
    rw [ih fun v hv => h v (List.mem_cons_of_mem _ hv)]
    rfl

theorem jsonChar_high {u : UInt16} (h : 128 ≤ u.toNat) : jsonChar u = [u] := by
  rw [jsonChar]
  split <;> first | omega | skip
  exact if_neg (by omega)

theorem ascii_jsonChar {u : UInt16} (hu : u.toNat < 128) : AsciiText (jsonChar u) := by
  rw [jsonChar]
  split
  all_goals try exact ascii_literal (by decide)
  split
  · next hcontrol =>
    have hhex : AsciiText (js (String.ofList [Sha256.hexDigit (u.toNat / 16),
        Sha256.hexDigit (u.toNat % 16)])) := by
      apply ascii_js
      intro ch hch
      rw [String.toList_ofList] at hch
      simp only [List.mem_cons, List.not_mem_nil, or_false] at hch
      rcases hch with rfl | rfl <;> exact hexDigit_lt (by omega)
    exact (ascii_literal (by decide)).append hhex
  · intro v hv
    obtain rfl := List.mem_singleton.1 hv
    exact hu

theorem jsonChar_unpairable {u : UInt16} (hhigh : ¬ isHigh u) (hlow : ¬ isLow u) :
    Unpairable (jsonChar u) := by
  by_cases hu : 128 ≤ u.toNat
  · rw [jsonChar_high hu]
    intro v hv
    obtain rfl := List.mem_singleton.1 hv
    exact ⟨hhigh, hlow⟩
  · exact (ascii_jsonChar (Nat.lt_of_not_le hu)).unpairable

theorem jsonChar_ne_nil (u : UInt16) : jsonChar u ≠ [] := by
  intro hnil
  have hread := readChars_jsonChar u [34]
  rw [hnil] at hread
  cases hread

/-- Nothing that a string writes starts with the second half of a pair, but a string that does. -/
theorem head_flatMap_jsonChar {s t : JsString} {v : UInt16}
    (hs : ∀ v s', s = v :: s' → ¬ isLow v) (h : s.flatMap jsonChar ++ [34] = v :: t) :
    ¬ isLow v := by
  intro hv
  cases s with
  | nil =>
    obtain ⟨rfl, -⟩ := List.cons.inj h
    exact absurd hv.1 (by decide)
  | cons u s =>
    have hu : ¬ isLow u := hs u s rfl
    by_cases hhigh : isHigh u
    · rw [List.flatMap_cons, jsonChar_high (Nat.le_trans (by decide) hhigh.1)] at h
      obtain ⟨rfl, -⟩ := List.cons.inj h
      exact hu hv
    · have hchar := jsonChar_unpairable hhigh hu
      cases hc : jsonChar u with
      | nil => exact absurd hc (jsonChar_ne_nil u)
      | cons w ws =>
        rw [List.flatMap_cons, hc] at h
        obtain ⟨rfl, -⟩ := List.cons.inj h
        exact (hchar w (hc ▸ List.mem_cons_self)).2 hv

/-- A string and what stands before and at its closing quote, piece by piece. -/
inductive Escapes : JsString → JsString → Prop
  | done : Escapes [] [34]
  | pair (hu : isHigh u) (hv : isLow v) (h : Escapes s t) : Escapes (u :: v :: s) (u :: v :: t)
  | high (hu : isHigh u) (hs : ∀ v s', s = v :: s' → ¬ isLow v) (h : Escapes s t) :
      Escapes (u :: s) (escapeUnit u ++ t)
  | low (hu : ¬ isHigh u) (hl : isLow u) (h : Escapes s t) : Escapes (u :: s) (escapeUnit u ++ t)
  | unit (hu : ¬ isHigh u) (hl : ¬ isLow u) (h : Escapes s t) : Escapes (u :: s) (jsonChar u ++ t)

theorem escaped_quote (s : JsString) : Escapes s (escapeUnpaired (s.flatMap jsonChar ++ [34])) := by
  induction reads s with
  | nil => exact .done
  | @pair u v s hu hv _ ih =>
    have hu' := hu.1
    have hv' := hv.1
    have htext : escapeUnpaired ((u :: v :: s).flatMap jsonChar ++ [34]) =
        u :: v :: escapeUnpaired (s.flatMap jsonChar ++ [34]) := by
      rw [List.flatMap_cons, List.flatMap_cons, jsonChar_high (by omega), jsonChar_high (by omega)]
      apply (escapeUnpaired_cons ..).trans
      exact (if_pos hu).trans (if_pos hv)
    rw [htext]
    exact .pair hu hv ih
  | @high u s hu hs _ ih =>
    have hu' := hu.1
    have htext : escapeUnpaired ((u :: s).flatMap jsonChar ++ [34]) =
        escapeUnit u ++ escapeUnpaired (s.flatMap jsonChar ++ [34]) := by
      rw [List.flatMap_cons, jsonChar_high (by omega), List.singleton_append, List.cons_append,
        escapeUnpaired_cons]
      cases hrest : s.flatMap jsonChar ++ [34] with
      | nil => exact absurd hrest (by simp)
      | cons v t => exact (if_pos hu).trans (if_neg (head_flatMap_jsonChar hs hrest))
    rw [htext]
    exact .high hu hs ih
  | @low u s hu hl _ ih =>
    have hl' := hl.1
    have htext : escapeUnpaired ((u :: s).flatMap jsonChar ++ [34]) =
        escapeUnit u ++ escapeUnpaired (s.flatMap jsonChar ++ [34]) := by
      rw [List.flatMap_cons, jsonChar_high (by omega)]
      apply (escapeUnpaired_cons ..).trans
      exact (if_neg hu).trans (if_pos hl)
    rw [htext]
    exact .low hu hl ih
  | @unit u s hu hl _ ih =>
    rw [List.flatMap_cons, List.append_assoc, escapeUnpaired_append (jsonChar_unpairable hu hl)]
    exact .unit hu hl ih

/-- A string is read back from its escapes. -/
theorem Escapes.readChars (h : Escapes s t) (rest : JsString) :
    readChars (t ++ rest) = some (s, rest) := by
  induction h with
  | done => exact readChars_quote rest
  | pair hu hv _ ih =>
    have hu' := hu.1
    have hv' := hv.1
    rw [List.cons_append, List.cons_append, readChars_unit (by omega) (by omega) (by omega),
      readChars_unit (by omega) (by omega) (by omega), ih]
    rfl
  | high hu hs _ ih =>
    rw [List.append_assoc, readChars_escapeUnit, ih]
    rfl
  | low hu hl _ ih =>
    rw [List.append_assoc, readChars_escapeUnit, ih]
    rfl
  | unit hu hl _ ih =>
    rw [List.append_assoc, readChars_jsonChar, ih]
    rfl

theorem readChars_escaped (s rest : JsString) :
    readChars (escapeUnpaired (s.flatMap jsonChar ++ [34]) ++ rest) = some (s, rest) :=
  (escaped_quote s).readChars rest

theorem bytes_escapeUnit (u : UInt16) (t : JsString) :
    utf8ByteLength (escapeUnit u ++ t) = 6 + utf8ByteLength t := by
  have hascii := ascii_escapeUnit u
  have hlength : (escapeUnit u).length = 6 := by
    have htext := js_hex (unitDigits_lt u)
    simp only [List.map_cons, List.map_nil] at htext
    rw [escapeUnit, htext]
    rfl
  rw [hascii.sealed, utf8ByteLength_ascii hascii, hlength]

theorem Unpairable.sealed (h : Unpairable s) : Sealed s := by
  induction s with
  | nil => exact .nil
  | cons u s ih =>
    have hone : Sealed [u] := .unit (h u List.mem_cons_self).1
    exact hone.append (ih fun v hv => h v (List.mem_cons_of_mem _ hv))

/-- An escape is no shorter than the unit that it stands for. -/
theorem bytes_jsonChar (u : UInt16) : utf8ByteLength [u] ≤ utf8ByteLength (jsonChar u) := by
  by_cases hu : 128 ≤ u.toNat
  · rw [jsonChar_high hu]
  · replace hu := Nat.lt_of_not_le hu
    have hone : AsciiText [u] := by
      intro v hv
      obtain rfl := List.mem_singleton.1 hv
      exact hu
    rw [utf8ByteLength_ascii hone, utf8ByteLength_ascii (ascii_jsonChar hu)]
    exact List.length_pos_iff.2 (jsonChar_ne_nil u)

theorem Escapes.bytes (h : Escapes s t) : utf8ByteLength s < utf8ByteLength t := by
  induction h with
  | done => exact Nat.zero_lt_one
  | @pair u v s t hu hv _ ih =>
    have hpair := Sealed.pair hu hv
    have hs : utf8ByteLength (u :: v :: s) = utf8ByteLength [u, v] + utf8ByteLength s := hpair s
    have ht : utf8ByteLength (u :: v :: t) = utf8ByteLength [u, v] + utf8ByteLength t := hpair t
    omega
  | @high u s t hu hs _ ih =>
    have hlone : utf8ByteLength (u :: s) = 3 + utf8ByteLength s := by
      rw [utf8ByteLength, utf8_high hu hs, List.length_append]
      rfl
    rw [bytes_escapeUnit, hlone]
    omega
  | @low u s t hu hl _ ih =>
    have hlone : utf8ByteLength (u :: s) = 3 + utf8ByteLength s := by
      rw [utf8ByteLength, utf8_low hu hl, List.length_append]
      rfl
    rw [bytes_escapeUnit, hlone]
    omega
  | @unit u s t hu hl _ ih =>
    have hs : utf8ByteLength (u :: s) = utf8ByteLength [u] + utf8ByteLength s := Sealed.unit hu s
    have ht : utf8ByteLength (jsonChar u ++ t) = utf8ByteLength (jsonChar u) + utf8ByteLength t :=
      (jsonChar_unpairable hu hl).sealed t
    have hchar := bytes_jsonChar u
    omega

theorem quote_eq (s : JsString) :
    quote s = 34 :: escapeUnpaired (s.flatMap jsonChar ++ [34]) := by
  have hquote : Unpairable [34] := (ascii_literal (s := "\"") (by decide)).unpairable
  rw [quote, jsonString, show js "\"" = [34] from rfl, List.append_assoc,
    escapeUnpaired_append hquote]
  rfl

/-- A quoted string is no shorter than the string. -/
theorem bytes_le_quote (s : JsString) : utf8ByteLength s ≤ utf8ByteLength (quote s) := by
  have hquote : Sealed [34] := (ascii_literal (s := "\"") (by decide)).sealed
  have hbytes := (escaped_quote s).bytes
  have hrest : utf8ByteLength (34 :: escapeUnpaired (s.flatMap jsonChar ++ [34])) =
      1 + utf8ByteLength (escapeUnpaired (s.flatMap jsonChar ++ [34])) := hquote _
  rw [quote_eq, hrest]
  omega

/-! Values. -/

theorem expect_self {c : UInt16} (hc : isSpaceUnit c = false) (s : JsString) :
    expect c (c :: s) = some s := by
  rw [expect, skipSpace, List.dropWhile_cons_of_neg (by simp [hc])]
  exact if_pos rfl

theorem expect_other {c u : UInt16} (hu : isSpaceUnit u = false) (hne : u ≠ c) (s : JsString) :
    expect c (u :: s) = none := by
  rw [expect, skipSpace, List.dropWhile_cons_of_neg (by simp [hu])]
  exact if_neg hne

/-- A number at the end of what comes before does not go on. -/
def EndsNumber (s : JsString) : Prop := ∀ u t, s = u :: t → ¬ isNumberUnit u

theorem endsNumber_cons {u : UInt16} (hu : ¬ isNumberUnit u) (t : JsString) :
    EndsNumber (u :: t) := by
  intro v s h
  obtain ⟨rfl, -⟩ := List.cons.inj h
  exact hu

theorem endsNumber_nil : EndsNumber [] := by
  intro u t h
  cases h

theorem readWord_self (word rest : JsString) (x : JsonValue) :
    readWord word x (word ++ rest) = some (x, rest) := by
  rw [readWord, List.take_left, if_pos rfl, List.drop_left]

theorem readWord_other {word s : JsString} {u v : UInt16} (hne : u ≠ v) (x : JsonValue) :
    readWord (v :: word) x (u :: s) = none := by
  rw [readWord, List.length_cons, List.take_succ_cons]
  exact if_neg fun h => hne (List.cons.inj h).1

section
variable (num : NumberSyntax)

theorem readNumber_text {x : Rat} (hx : num.number x) {rest : JsString} (hrest : EndsNumber rest) :
    readNumber num (num.text x ++ rest) = some (.num x, rest) := by
  have hunits : ∀ u ∈ num.text x, decide (isNumberUnit u) = true :=
    fun u hu => decide_eq_true (num.units x hx u hu)
  have hstop : rest.takeWhile (fun u => decide (isNumberUnit u)) = [] ∧
      rest.dropWhile (fun u => decide (isNumberUnit u)) = rest := by
    cases rest with
    | nil => exact ⟨rfl, rfl⟩
    | cons u t =>
      have hu : ¬ decide (isNumberUnit u) = true := by simpa using hrest u t rfl
      exact ⟨List.takeWhile_cons_of_neg hu, List.dropWhile_cons_of_neg hu⟩
  rw [readNumber, List.takeWhile_append_of_pos hunits, List.dropWhile_append_of_pos hunits, hstop.1,
    hstop.2, List.append_nil, num.value_text x hx]
  rfl

theorem text_cons {x : Rat} (hx : num.number x) : ∃ u t, num.text x = u :: t ∧ isNumberUnit u := by
  cases htext : num.text x with
  | nil =>
    have hvalue := num.value_text x hx
    rw [htext, num.value_nil] at hvalue
    cases hvalue
  | cons u t => exact ⟨u, t, rfl, num.units x hx u (htext ▸ List.mem_cons_self)⟩

mutual

/-- Every number of the value is a number of the language. -/
def JsonValue.Numbers : JsonValue → Prop
  | .null | .bool _ | .str _ => True
  | .num x => num.number x
  | .arr xs => AllNumbers xs
  | .obj members => MemberNumbers members

def AllNumbers : List JsonValue → Prop
  | [] => True
  | x :: xs => x.Numbers ∧ AllNumbers xs

def MemberNumbers : List (JsString × JsonValue) → Prop
  | [] => True
  | (_, x) :: members => x.Numbers ∧ MemberNumbers members

end

theorem numberUnit_starts {u : UInt16} (h : isNumberUnit u) : isSpaceUnit u = false ∧ u ≠ 123 ∧
    u ≠ 91 ∧ u ≠ 34 ∧ u ≠ 93 ∧ u ≠ 110 ∧ u ≠ 116 ∧ u ≠ 102 := by
  have hof : ∀ c : UInt16, u = c → isNumberUnit c := fun c hc => hc ▸ h
  have hne : ∀ c : UInt16, ¬ isNumberUnit c → u ≠ c := fun c hc heq => hc (hof c heq)
  refine ⟨?_, hne _ (by decide), hne _ (by decide), hne _ (by decide), hne _ (by decide),
    hne _ (by decide), hne _ (by decide), hne _ (by decide)⟩
  rw [isSpaceUnit]
  simp [hne 32 (by decide), hne 9 (by decide), hne 10 (by decide), hne 13 (by decide)]

/-- Where the text of a value stands, nothing closes an array. -/
theorem jsonText_starts : ∀ v : JsonValue, v.Numbers num →
    ∃ u t, jsonText num.toNumberText v = u :: t ∧ isSpaceUnit u = false ∧ u ≠ 93
  | .null, _ => ⟨110, [117, 108, 108], rfl, rfl, by decide⟩
  | .bool true, _ => ⟨116, [114, 117, 101], rfl, rfl, by decide⟩
  | .bool false, _ => ⟨102, [97, 108, 115, 101], rfl, rfl, by decide⟩
  | .num x, h => by
    obtain ⟨u, t, htext, hu⟩ := text_cons num h
    exact ⟨u, t, htext, (numberUnit_starts hu).1, (numberUnit_starts hu).2.2.2.2.1⟩
  | .str s, _ => ⟨34, _, quote_eq s, rfl, by decide⟩
  | .arr _, _ => ⟨91, _, rfl, rfl, by decide⟩
  | .obj _, _ => ⟨123, _, rfl, rfl, by decide⟩

theorem readValue_scalar {u : UInt16} (hspace : isSpaceUnit u = false) (hobj : u ≠ 123)
    (harr : u ≠ 91) (hstr : u ≠ 34) (n : Nat) (s : JsString) :
    readValue num (n + 1) (u :: s) = readScalar num (u :: s) := by
  rw [readValue, expect_other hspace hobj, expect_other hspace harr, expect_other hspace hstr,
    skipSpace, List.dropWhile_cons_of_neg (by simp [hspace])]

theorem readScalar_number {x : Rat} (hx : num.number x) {rest : JsString}
    (hrest : EndsNumber rest) : readScalar num (num.text x ++ rest) = some (.num x, rest) := by
  have hread := readNumber_text num hx hrest
  obtain ⟨u, t, htext, hu⟩ := text_cons num hx
  obtain ⟨-, -, -, -, -, hnull, htrue, hfalse⟩ := numberUnit_starts hu
  rw [htext, List.cons_append] at hread ⊢
  rw [readScalar, show js "null" = 110 :: [117, 108, 108] from rfl,
    show js "true" = 116 :: [114, 117, 101] from rfl,
    show js "false" = 102 :: [97, 108, 115, 101] from rfl, readWord_other hnull,
    readWord_other htrue, readWord_other hfalse, hread]
  rfl

theorem readScalar_null (rest : JsString) :
    readScalar num (js "null" ++ rest) = some (.null, rest) := by
  rw [readScalar, readWord_self]
  rfl

theorem readScalar_true (rest : JsString) :
    readScalar num (js "true" ++ rest) = some (.bool true, rest) := by
  have hnull : readWord (js "null") .null (js "true" ++ rest) = none :=
    readWord_other (u := 116) (v := 110) (by decide) .null
  rw [readScalar, hnull, readWord_self]
  rfl

theorem readScalar_false (rest : JsString) :
    readScalar num (js "false" ++ rest) = some (.bool false, rest) := by
  have hnull : readWord (js "null") .null (js "false" ++ rest) = none :=
    readWord_other (u := 102) (v := 110) (by decide) .null
  have htrue : readWord (js "true") (.bool true) (js "false" ++ rest) = none :=
    readWord_other (u := 102) (v := 116) (by decide) (.bool true)
  rw [readScalar, hnull, htrue, readWord_self]
  rfl

theorem readValue_str (s : JsString) (n : Nat) (rest : JsString) :
    readValue num (n + 1) (quote s ++ rest) = some (.str s, rest) := by
  rw [quote_eq, List.cons_append, readValue, expect_other rfl (by decide),
    expect_other rfl (by decide), expect_self rfl]
  exact congrArg (Option.map _) (readChars_escaped s rest)

theorem readElements_succ (n : Nat) (s : JsString) : readElements num (n + 1) s =
    (readValue num n s).bind fun x =>
      match expect 44 x.2 with
      | some rest => (readElements num n rest).map fun r => (x.1 :: r.1, r.2)
      | none => (expect 93 x.2).map fun rest => ([x.1], rest) := by
  rw [readElements]

theorem readElements_last {n : Nat} {s rest : JsString} {x : JsonValue}
    (hx : readValue num n s = some (x, 93 :: rest)) :
    readElements num (n + 1) s = some ([x], rest) := by
  rw [readElements_succ, hx, Option.bind_some, expect_other rfl (by decide)]
  dsimp only
  rw [expect_self rfl]
  rfl

theorem readElements_cons {n : Nat} {s t rest : JsString} {x : JsonValue} {xs : List JsonValue}
    (hx : readValue num n s = some (x, 44 :: t)) (hxs : readElements num n t = some (xs, rest)) :
    readElements num (n + 1) s = some (x :: xs, rest) := by
  rw [readElements_succ, hx, Option.bind_some, expect_self rfl]
  exact congrArg (Option.map _) hxs

theorem readMembers_succ (n : Nat) (s : JsString) : readMembers num (n + 1) s =
    ((expect 34 s).bind readChars).bind fun key =>
      ((expect 58 key.2).bind (readValue num n)).bind fun x =>
        match expect 44 x.2 with
        | some rest => (readMembers num n rest).map fun r => ((key.1, x.1) :: r.1, r.2)
        | none => (expect 125 x.2).map fun rest => ([(key.1, x.1)], rest) := by
  rw [readMembers]

/-- The key of a member, the colon and the value. -/
theorem readMember (key : JsString) {n : Nat} {t : JsString} {r : JsonValue × JsString}
    (hx : readValue num n t = some r) :
    readMembers num (n + 1) (quote key ++ js ":" ++ t) =
      match expect 44 r.2 with
      | some rest => (readMembers num n rest).map fun q => ((key, r.1) :: q.1, q.2)
      | none => (expect 125 r.2).map fun rest => ([(key, r.1)], rest) := by
  have hkey : (expect 34 (quote key ++ js ":" ++ t)).bind readChars = some (key, 58 :: t) := by
    rw [quote_eq, List.append_assoc, List.cons_append, expect_self rfl, Option.bind_some,
      readChars_escaped]
    rfl
  rw [readMembers_succ, hkey, Option.bind_some, expect_self rfl, Option.bind_some, hx,
    Option.bind_some]

theorem joined_cons (open_ close : UInt16) (inner rest : JsString) :
    [open_] ++ inner ++ [close] ++ rest = open_ :: (inner ++ close :: rest) := by
  simp

mutual

/-- With fuel for its length, the text of a value gives the value back. -/
theorem readValue_jsonText : ∀ v : JsonValue, v.Numbers num → ∀ (n : Nat) (rest : JsString),
    (jsonText num.toNumberText v).length < n → EndsNumber rest →
    readValue num n (jsonText num.toNumberText v ++ rest) = some (v, rest)
  | _, _, 0, _, hn, _ => absurd hn (Nat.not_lt_zero _)
  | .null, _, n + 1, rest, _, _ =>
    (readValue_scalar num (u := 110) rfl (by decide) (by decide) (by decide) n _).trans
      (readScalar_null num rest)
  | .bool true, _, n + 1, rest, _, _ =>
    (readValue_scalar num (u := 116) rfl (by decide) (by decide) (by decide) n _).trans
      (readScalar_true num rest)
  | .bool false, _, n + 1, rest, _, _ =>
    (readValue_scalar num (u := 102) rfl (by decide) (by decide) (by decide) n _).trans
      (readScalar_false num rest)
  | .num x, h, n + 1, rest, _, hrest => by
    obtain ⟨u, t, htext, hu⟩ := text_cons num h
    obtain ⟨hspace, hobj, harr, hstr, -⟩ := numberUnit_starts hu
    have hscalar := readScalar_number num h hrest
    rw [jsonText, ← hscalar, htext]
    exact readValue_scalar num hspace hobj harr hstr n _
  | .str s, _, n + 1, rest, _, _ => readValue_str num s n rest
  | .arr [], _, n + 1, rest, _, _ => by
    have htext : jsonText num.toNumberText (.arr []) ++ rest = 91 :: 93 :: rest := rfl
    rw [htext, readValue, expect_other rfl (by decide), expect_self rfl]
    dsimp only
    rw [expect_self rfl]
  | .arr (x :: xs), h, n + 1, rest, hn, _ => by
    have htext : jsonText num.toNumberText (.arr (x :: xs)) ++ rest =
        91 :: ((js ",").intercalate (jsonTexts num.toNumberText (x :: xs)) ++ 93 :: rest) := by
      rw [jsonText, joined]
      exact joined_cons 91 93 _ rest
    have hlength := congrArg List.length htext
    simp only [List.length_append, List.length_cons] at hlength
    have hread := readElements_jsonTexts (x :: xs) (List.cons_ne_nil x xs) h n rest (by omega)
    obtain ⟨u, t, hu, hspace, hclose⟩ := jsonText_starts num x h.1
    have hopen : ∃ t', (js ",").intercalate (jsonTexts num.toNumberText (x :: xs)) ++ 93 :: rest =
        u :: t' := by
      cases xs with
      | nil => exact ⟨_, by rw [jsonTexts, jsonTexts, List.intercalate_singleton, hu]; rfl⟩
      | cons y ys =>
        exact ⟨_, by rw [jsonTexts, jsonTexts, intercalate_cons_cons, hu]; rfl⟩
    obtain ⟨t', ht'⟩ := hopen
    rw [htext, readValue, expect_other rfl (by decide), expect_self rfl]
    dsimp only
    rw [hread, ht', expect_other hspace hclose]
    rfl
  | .obj [], _, n + 1, rest, _, _ => by
    have htext : jsonText num.toNumberText (.obj []) ++ rest = 123 :: 125 :: rest := rfl
    rw [htext, readValue, expect_self rfl]
    dsimp only
    rw [expect_self rfl]
  | .obj ((key, x) :: members), h, n + 1, rest, hn, _ => by
    have htext : jsonText num.toNumberText (.obj ((key, x) :: members)) ++ rest =
        123 :: ((js ",").intercalate (jsonMembers num.toNumberText ((key, x) :: members)) ++
          125 :: rest) := by
      rw [jsonText, joined]
      exact joined_cons 123 125 _ rest
    have hlength := congrArg List.length htext
    simp only [List.length_append, List.length_cons] at hlength
    have hread := readMembers_jsonMembers ((key, x) :: members) (List.cons_ne_nil _ _) h n rest
      (by omega)
    have hopen : ∃ t', (js ",").intercalate (jsonMembers num.toNumberText ((key, x) :: members)) ++
        125 :: rest = 34 :: t' := by
      cases members with
      | nil => exact ⟨_, by rw [jsonMembers, jsonMembers, List.intercalate_singleton, quote_eq]; rfl⟩
      | cons m ms =>
        obtain ⟨key', y⟩ := m
        exact ⟨_, by rw [jsonMembers, jsonMembers, intercalate_cons_cons, quote_eq]; rfl⟩
    obtain ⟨t', ht'⟩ := hopen
    rw [htext, readValue, expect_self rfl]
    dsimp only
    rw [hread, ht', expect_other rfl (by decide)]
    rfl

theorem readElements_jsonTexts : ∀ xs : List JsonValue, xs ≠ [] → AllNumbers num xs →
    ∀ (n : Nat) (rest : JsString),
    ((js ",").intercalate (jsonTexts num.toNumberText xs)).length + 1 < n →
    readElements num n ((js ",").intercalate (jsonTexts num.toNumberText xs) ++ 93 :: rest) =
      some (xs, rest)
  | [], hne, _, _, _, _ => absurd rfl hne
  | _ :: _, _, _, 0, _, hn => absurd hn (Nat.not_lt_zero _)
  | [x], _, h, n + 1, rest, hn => by
    rw [jsonTexts, jsonTexts, List.intercalate_singleton] at hn ⊢
    apply readElements_last
    exact readValue_jsonText x h.1 n _ (by omega) (endsNumber_cons (by decide) rest)
  | x :: y :: ys, _, h, n + 1, rest, hn => by
    rw [jsonTexts, jsonTexts, intercalate_cons_cons] at hn ⊢
    rw [← jsonTexts] at hn ⊢
    simp only [List.length_append] at hn
    have hcomma : (js ",").length = 1 := rfl
    have hrest := readElements_jsonTexts (y :: ys) (List.cons_ne_nil y ys) h.2 n rest (by omega)
    rw [List.append_assoc, List.append_assoc]
    apply readElements_cons num _ hrest
    exact readValue_jsonText x h.1 n _ (by omega) (endsNumber_cons (by decide) _)

theorem readMembers_jsonMembers : ∀ members : List (JsString × JsonValue), members ≠ [] →
    MemberNumbers num members → ∀ (n : Nat) (rest : JsString),
    ((js ",").intercalate (jsonMembers num.toNumberText members)).length + 1 < n →
    readMembers num n ((js ",").intercalate (jsonMembers num.toNumberText members) ++ 125 :: rest) =
      some (members, rest)
  | [], hne, _, _, _, _ => absurd rfl hne
  | _ :: _, _, _, 0, _, hn => absurd hn (Nat.not_lt_zero _)
  | [(key, x)], _, h, n + 1, rest, hn => by
    rw [jsonMembers, jsonMembers, List.intercalate_singleton] at hn ⊢
    simp only [List.length_append] at hn
    have hx := readValue_jsonText x h.1 n (125 :: rest) (by omega)
      (endsNumber_cons (by decide) rest)
    rw [List.append_assoc (quote key ++ js ":"), readMember num key hx,
      expect_other rfl (by decide)]
    dsimp only
    rw [expect_self rfl]
    rfl
  | (key, x) :: (key', y) :: members, _, h, n + 1, rest, hn => by
    rw [jsonMembers, jsonMembers, intercalate_cons_cons] at hn ⊢
    rw [← jsonMembers] at hn ⊢
    simp only [List.length_append] at hn
    have hcomma : (js ",").length = 1 := rfl
    have hrest := readMembers_jsonMembers ((key', y) :: members) (List.cons_ne_nil _ _) h.2 n rest
      (by omega)
    have hx := readValue_jsonText x h.1 n (44 :: ((js ",").intercalate
      (jsonMembers num.toNumberText ((key', y) :: members)) ++ 125 :: rest)) (by omega)
      (endsNumber_cons (by decide) _)
    rw [List.append_assoc, List.append_assoc, List.append_assoc (quote key ++ js ":")]
    apply (readMember num key hx).trans
    rw [expect_self rfl]
    exact congrArg (Option.map _) hrest

end

/-- `JSON.stringify` loses nothing: its text is read back. -/
theorem readText_jsonText {v : JsonValue} (h : v.Numbers num) :
    readText num (jsonText num.toNumberText v) = some v := by
  have hread := readValue_jsonText num v h _ [] (Nat.lt_succ_self _) endsNumber_nil
  rw [List.append_nil] at hread
  rw [readText, hread]
  rfl

theorem jsonText_inj {v w : JsonValue} (hv : v.Numbers num) (hw : w.Numbers num)
    (h : jsonText num.toNumberText v = jsonText num.toNumberText w) : v = w := by
  have hread := readText_jsonText num hv
  rw [h, readText_jsonText num hw] at hread
  exact (Option.some.inj hread).symm

end

/-! Canonical JSON. -/

theorem map_insertByKey (f : JsonValue → JsString) (m : JsString × JsonValue)
    (members : List (JsString × JsonValue)) :
    (insertByKey m members).map (fun m => (m.1, f m.2)) =
      insertMember (m.1, f m.2) (members.map fun m => (m.1, f m.2)) := by
  induction members with
  | nil => rfl
  | cons m' members ih =>
    rw [insertByKey, List.map_cons, insertMember]
    split
    · rw [List.map_cons, ih]
    · rfl

theorem insertByKey_perm (m : JsString × JsonValue) (members : List (JsString × JsonValue)) :
    (insertByKey m members).Perm (m :: members) := by
  induction members with
  | nil => exact .refl _
  | cons m' members ih =>
    rw [insertByKey]
    split
    · exact (ih.cons m').trans (.swap ..)
    · exact .refl _

theorem jsonMembers_eq (num : NumberText) (members : List (JsString × JsonValue)) :
    jsonMembers num members =
      members.map fun m => quote m.1 ++ js ":" ++ jsonText num m.2 := by
  induction members with
  | nil => rfl
  | cons m members ih => exact congrArg _ ih

mutual

/-- Canonical JSON is the text of the value with the members of its objects sorted. -/
theorem canonicalText_eq (num : NumberText) : ∀ v : JsonValue,
    canonicalText num v = jsonText num v.sorted
  | .null => rfl
  | .bool _ => rfl
  | .num _ => rfl
  | .str _ => rfl
  | .arr xs => congrArg (joined "[" "]") (canonicalTexts_eq num xs)
  | .obj members => by
    rw [canonicalText, JsonValue.sorted, jsonText, jsonMembers_eq, canonicalMemberTexts_eq num,
      List.map_map]
    rfl

theorem canonicalTexts_eq (num : NumberText) : ∀ xs : List JsonValue,
    canonicalTexts num xs = jsonTexts num (sortedAll xs)
  | [] => rfl
  | x :: xs => by rw [canonicalTexts, sortedAll, jsonTexts, canonicalText_eq, canonicalTexts_eq]

theorem canonicalMemberTexts_eq (num : NumberText) : ∀ members : List (JsString × JsonValue),
    canonicalMemberTexts num members =
      (sortedMembers members).map fun m => (m.1, jsonText num m.2)
  | [] => rfl
  | (key, x) :: members => by
    rw [canonicalMemberTexts, sortedMembers, map_insertByKey (jsonText num), canonicalText_eq,
      canonicalMemberTexts_eq]

end

section
variable (num : NumberSyntax)

theorem memberNumbers_iff {members : List (JsString × JsonValue)} :
    MemberNumbers num members ↔ ∀ m ∈ members, m.2.Numbers num := by
  induction members with
  | nil => simp [MemberNumbers]
  | cons m members ih =>
    rw [List.forall_mem_cons, ← ih]
    rfl

mutual

theorem numbers_sorted : ∀ v : JsonValue, v.Numbers num → v.sorted.Numbers num
  | .null, _ => trivial
  | .bool _, _ => trivial
  | .num _, h => h
  | .str _, _ => trivial
  | .arr xs, h => allNumbers_sortedAll xs h
  | .obj members, h => memberNumbers_sortedMembers members h

theorem allNumbers_sortedAll : ∀ xs : List JsonValue, AllNumbers num xs →
    AllNumbers num (sortedAll xs)
  | [], _ => trivial
  | x :: xs, h => ⟨numbers_sorted x h.1, allNumbers_sortedAll xs h.2⟩

theorem memberNumbers_sortedMembers : ∀ members : List (JsString × JsonValue),
    MemberNumbers num members → MemberNumbers num (sortedMembers members)
  | [], _ => trivial
  | (key, x) :: members, h => by
    have hx := numbers_sorted x h.1
    have hrest := (memberNumbers_iff num).1 (memberNumbers_sortedMembers members h.2)
    rw [sortedMembers, memberNumbers_iff]
    intro m hm
    rcases List.mem_cons.1 ((insertByKey_perm _ _).subset hm) with rfl | hm
    · exact hx
    · exact hrest m hm

end

/-- Values have one canonical text exactly when they differ in the order of members at most. -/
theorem canonicalText_inj {v w : JsonValue} (hv : v.Numbers num) (hw : w.Numbers num) :
    canonicalText num.toNumberText v = canonicalText num.toNumberText w ↔ v.sorted = w.sorted := by
  rw [canonicalText_eq, canonicalText_eq]
  constructor
  · exact jsonText_inj num (numbers_sorted num v hv) (numbers_sorted num w hw)
  · exact congrArg _

end

/-! Every surrogate of a text is paired. -/

/-- What follows the text is well formed exactly when the whole is. -/
def Paired (s : JsString) : Prop := ∀ t, isWellFormed (s ++ t) = isWellFormed t

theorem Paired.wellFormed (h : Paired s) : isWellFormed s = true := by
  rw [← List.append_nil s, h]
  rfl

theorem Paired.nil : Paired [] := fun _ => rfl

theorem Paired.append (h : Paired s) (h' : Paired s') : Paired (s ++ s') := by
  intro t
  rw [List.append_assoc, h, h']

theorem AsciiText.paired (h : AsciiText s) : Paired s := by
  induction s with
  | nil => exact .nil
  | cons u s ih =>
    have hu : u.toNat < 128 := h u List.mem_cons_self
    intro t
    rw [List.cons_append, isWellFormed_cons, if_neg (by omega), if_neg (by omega)]
    exact ih (fun v hv => h v (List.mem_cons_of_mem _ hv)) t

theorem paired_escapeUnpaired (s : JsString) : Paired (escapeUnpaired s) := by
  induction reads s with
  | nil => exact .nil
  | @pair u v s hu hv _ ih =>
    have heq : escapeUnpaired (u :: v :: s) = [u, v] ++ escapeUnpaired s := by
      rw [escapeUnpaired_cons]
      exact (if_pos hu).trans (if_pos hv)
    have hpair : Paired [u, v] := fun t => isWellFormed_pair hu hv
    rw [heq]
    exact hpair.append ih
  | @high u s hu hs _ ih =>
    have heq : escapeUnpaired (u :: s) = escapeUnit u ++ escapeUnpaired s := by
      rw [escapeUnpaired_cons]
      cases s with
      | nil => exact (if_pos hu).trans (List.append_nil _).symm
      | cons v s => exact (if_pos hu).trans (if_neg (hs v s rfl))
    rw [heq]
    exact (ascii_escapeUnit u).paired.append ih
  | @low u s hu hl _ ih =>
    have heq : escapeUnpaired (u :: s) = escapeUnit u ++ escapeUnpaired s := by
      rw [escapeUnpaired_cons]
      exact (if_neg hu).trans (if_pos hl)
    rw [heq]
    exact (ascii_escapeUnit u).paired.append ih
  | @unit u s hu hl _ ih =>
    have heq : escapeUnpaired (u :: s) = [u] ++ escapeUnpaired s := by
      rw [escapeUnpaired_cons]
      exact (if_neg hu).trans (if_neg hl)
    have hone : Paired [u] := fun t => isWellFormed_unit hu hl
    rw [heq]
    exact hone.append ih

theorem paired_joined {parts : List JsString} (hopen : AsciiText (js open_))
    (hclose : AsciiText (js close)) (h : ∀ part ∈ parts, Paired part) :
    Paired (joined open_ close parts) := by
  have hparts : Paired ((js ",").intercalate parts) := by
    induction parts with
    | nil => exact .nil
    | cons part parts ih =>
      have hrest := ih fun p hp => h p (List.mem_cons_of_mem _ hp)
      cases parts with
      | nil =>
        rw [List.intercalate_singleton]
        exact h part List.mem_cons_self
      | cons part' parts =>
        rw [intercalate_cons_cons]
        have hcomma : Paired (js ",") := (ascii_literal (by decide)).paired
        exact ((h part List.mem_cons_self).append hcomma).append hrest
  exact (hopen.paired.append hparts).append hclose.paired

section
variable (num : NumberText)

mutual

theorem paired_jsonText : ∀ v : JsonValue, Paired (jsonText num v)
  | .null => (ascii_literal (s := "null") (by decide)).paired
  | .bool true => (ascii_literal (s := "true") (by decide)).paired
  | .bool false => (ascii_literal (s := "false") (by decide)).paired
  | .num x => (num.ascii x).paired
  | .str _ => paired_escapeUnpaired _
  | .arr xs => paired_joined (bracket_spec (s := "[") rfl (by decide)).1
      (bracket_spec (s := "]") rfl (by decide)).1 (paired_jsonTexts xs)
  | .obj members => paired_joined (bracket_spec (s := "\x7b") rfl (by decide)).1
      (bracket_spec (s := "\x7d") rfl (by decide)).1 (paired_jsonMembers members)

theorem paired_jsonTexts : ∀ xs : List JsonValue, ∀ part ∈ jsonTexts num xs, Paired part
  | [] => List.forall_mem_nil _
  | x :: xs => List.forall_mem_cons.2 ⟨paired_jsonText x, paired_jsonTexts xs⟩

theorem paired_jsonMembers : ∀ members : List (JsString × JsonValue),
    ∀ part ∈ jsonMembers num members, Paired part
  | [] => List.forall_mem_nil _
  | (key, x) :: members => List.forall_mem_cons.2
      ⟨((paired_escapeUnpaired _).append (ascii_literal (s := ":") (by decide)).paired).append
        (paired_jsonText x), paired_jsonMembers members⟩

end

/-- Canonical JSON is well formed, whatever the strings in the value. -/
theorem wellFormed_canonicalText (v : JsonValue) : isWellFormed (canonicalText num v) = true := by
  rw [canonicalText_eq]
  exact (paired_jsonText num v.sorted).wellFormed

end

/-! The integers, in decimal. -/

def digitsValue (s : JsString) : Nat :=
  Nat.ofDigitChars 10 (s.map fun u => Char.ofNat u.toNat) 0

def naturalValue (s : JsString) : Option Rat :=
  if s ≠ [] ∧ s.all fun u => decide (isDigitUnit u) then some (digitsValue s) else none

/-- The value of a decimal integer. -/
def decimalValue (s : JsString) : Option Rat :=
  match s with
  | [] => none
  | u :: digits => if u = 45 then (naturalValue digits).map fun x => -x else naturalValue s

theorem units_repr (n : Nat) : ∀ u ∈ js n.repr, isDigitUnit u := by
  intro u hu
  have hdigits : ∀ ch ∈ n.repr.toList, 48 ≤ ch.toNat ∧ ch.toNat ≤ 57 := by
    intro ch hch
    rw [Nat.toList_repr] at hch
    have hdigit := Nat.isDigit_of_mem_toDigits (by decide) (by decide) hch
    rw [Char.isDigit, Bool.and_eq_true, decide_eq_true_eq, decide_eq_true_eq] at hdigit
    exact ⟨hdigit.1, hdigit.2⟩
  have hascii : ∀ ch ∈ n.repr.toList, ch.toNat < 128 := by
    intro ch hch
    have := (hdigits ch hch).2
    omega
  obtain ⟨ch, hch, heq⟩ := toNat_js hascii hu
  rw [isDigitUnit, heq]
  exact hdigits ch hch

theorem digitsValue_repr (n : Nat) : digitsValue (js n.repr) = n := by
  have hascii := ascii_toString n
  rw [show toString (n : Int) = n.repr from rfl] at hascii
  have hchars : (js n.repr).map (fun u => Char.ofNat u.toNat) = Nat.toDigits 10 n := by
    rw [js_ascii hascii, List.map_map, ← Nat.toList_repr]
    conv_rhs => rw [← List.map_id n.repr.toList]
    apply List.map_congr_left
    intro ch hch
    have := hascii ch hch
    rw [Function.comp_apply, Nat.toUInt16_eq, UInt16.toNat_ofNat', Nat.mod_eq_of_lt (by omega),
      Char.ofNat_toNat]
    rfl
  rw [digitsValue, hchars, Nat.ofDigitChars_ten_toDigits]

/-- A numeral of a natural number has a first digit, which is no sign. -/
theorem js_repr_cons (n : Nat) : ∃ u digits, js n.repr = u :: digits ∧ u ≠ 45 := by
  cases hdigits : js n.repr with
  | nil =>
    have hlength : n.repr.length = 0 :=
      (length_js (ascii_toString (n : Int))).symm.trans (congrArg List.length hdigits)
    exact absurd hlength (Nat.ne_of_gt Nat.length_repr_pos)
  | cons u digits =>
    refine ⟨u, digits, rfl, ?_⟩
    rintro rfl
    have hdigit := (units_repr n 45 (hdigits ▸ List.mem_cons_self)).1
    exact absurd hdigit (by decide)

theorem naturalValue_repr (n : Nat) : naturalValue (js n.repr) = some (n : Rat) := by
  obtain ⟨u, digits, hdigits, -⟩ := js_repr_cons n
  have hne : js n.repr ≠ [] := by simp [hdigits]
  have hall : (js n.repr).all fun u => decide (isDigitUnit u) :=
    List.all_eq_true.2 fun u hu => decide_eq_true (units_repr n u hu)
  rw [naturalValue, if_pos ⟨hne, hall⟩, digitsValue_repr]

theorem js_toString (n : Int) : js (toString n) =
    if 0 ≤ n then js n.toNat.repr else 45 :: js (-n).toNat.repr := by
  rw [Int.toString_eq_repr, Int.repr_eq_if]
  split
  · rfl
  · rw [js, String.toList_append, List.flatMap_append]
    rfl

theorem decimalValue_toString (n : Int) : decimalValue (js (toString n)) = some (n : Rat) := by
  rw [js_toString]
  split
  · next hn =>
    obtain ⟨u, digits, hdigits, hu⟩ := js_repr_cons n.toNat
    have hvalue := naturalValue_repr n.toNat
    rw [hdigits] at hvalue ⊢
    rw [decimalValue, if_neg hu, hvalue]
    exact congrArg some (congrArg Int.cast (Int.toNat_of_nonneg hn))
  · next hn =>
    have hneg : ((-n).toNat : Int) = -n := Int.toNat_of_nonneg (by omega)
    rw [decimalValue, if_pos rfl, naturalValue_repr, Option.map_some]
    have hcast : (((-n).toNat : Int) : Rat) = ((-n : Int) : Rat) := congrArg Int.cast hneg
    rw [Rat.intCast_neg] at hcast
    rw [show ((-n).toNat : Rat) = (((-n).toNat : Int) : Rat) from rfl, hcast, Rat.neg_neg]

theorem units_toString (n : Int) : ∀ u ∈ js (toString n), isNumberUnit u := by
  rw [js_toString]
  split
  · exact fun u hu => .inl (units_repr _ u hu)
  · intro u hu
    rcases List.mem_cons.1 hu with rfl | hu
    · exact .inr (.inr (.inl rfl))
    · exact .inl (units_repr _ u hu)

theorem ascii_decimal (x : Rat) : AsciiText (js (toString x.num)) :=
  ascii_js (ascii_toString x.num)

theorem decimal_integer (n : Int) (_ : n.natAbs ≤ MAX_SAFE_INTEGER) :
    js (toString (n : Rat).num) = js (toString n) := rfl

/-- Numbers that are integers, in decimal. -/
def decimalNumbers : NumberSyntax where
  text x := js (toString x.num)
  ascii := ascii_decimal
  integer := decimal_integer
  number x := x.den = 1
  value := decimalValue
  safe _ _ := rfl
  units x _ := units_toString x.num
  value_nil := rfl
  value_text x hx := by
    rw [decimalValue_toString, (Rat.den_eq_one_iff x).1 hx]

/-- A node whose canonical JSON is that of this module. -/
def decimalEnv (writerId : WriterId) : Env :=
  { hostEnv writerId with jcs := canonicalText decimalNumbers.toNumberText }

end Seqscribe
