import Mathlib.Algebra.Order.BigOperators.Group.List
import Mathlib.Data.Bool.AllAny
import Seqscribe.Host

namespace Seqscribe
set_option autoImplicit true

/-! The text of JSON values, and its length when nothing in it needs an escape. -/

mutual

/-- `JSON.stringify`: the members of an object stand in their own order. -/
def stringify : JsonValue → JsString
  | .null => js "null"
  | .bool b => js (if b then "true" else "false")
  | .num x => js (toString x.num)
  | .str s => jsonString s
  | .arr xs => joined "[" "]" (stringifyAll xs)
  | .obj members => joined "\x7b" "\x7d" (stringifyMembers members)

def stringifyAll : List JsonValue → List JsString
  | [] => []
  | x :: xs => stringify x :: stringifyAll xs

def stringifyMembers : List (JsString × JsonValue) → List JsString
  | [] => []
  | (key, x) :: members => (jsonString key ++ js ":" ++ stringify x) :: stringifyMembers members

end

/-- Printable ASCII without quotes and backslashes. -/
def PlainText (s : JsString) : Prop :=
  ∀ u ∈ s, 32 ≤ u.toNat ∧ u.toNat < 128 ∧ u.toNat ≠ 34 ∧ u.toNat ≠ 92

def AsciiText (s : JsString) : Prop := ∀ u ∈ s, u.toNat < 128

theorem PlainText.ascii (h : PlainText s) : AsciiText s := fun u hu => (h u hu).2.1

theorem AsciiText.append (h : AsciiText s) (h' : AsciiText s') : AsciiText (s ++ s') := by
  intro u hu
  rcases List.mem_append.1 hu with hu | hu
  · exact h u hu
  · exact h' u hu

theorem utf8ByteLength_ascii (h : AsciiText s) : utf8ByteLength s = s.length := by
  induction s with
  | nil => rfl
  | cons u s ih =>
    have hu : u.toNat < 128 := h u List.mem_cons_self
    have hrest : utf8ByteLength s = s.length := ih fun v hv => h v (List.mem_cons_of_mem _ hv)
    have hone : utf8 (u :: s) = utf8Of u.toNat ++ utf8 s := by
      rw [utf8.eq_def]
      dsimp only
      rw [if_neg (by omega), if_neg (by omega)]
    rw [utf8ByteLength, hone, utf8Of, if_pos hu]
    exact congrArg Nat.succ hrest

/-- A text of ASCII characters has one code unit for each. -/
theorem js_ascii {s : String} (h : ∀ ch ∈ s.toList, ch.toNat < 128) :
    js s = s.toList.map fun ch => ch.toNat.toUInt16 := by
  rw [js, ← List.flatMap_singleton' (s.toList.map _), List.flatMap_map]
  apply List.flatMap_congr
  intro ch hch
  have := h ch hch
  exact if_pos (by omega)

theorem toNat_js {s : String} (h : ∀ ch ∈ s.toList, ch.toNat < 128) (hu : u ∈ js s) :
    ∃ ch ∈ s.toList, u.toNat = ch.toNat := by
  rw [js_ascii h] at hu
  obtain ⟨ch, hch, rfl⟩ := List.mem_map.1 hu
  have := h ch hch
  refine ⟨ch, hch, ?_⟩
  rw [Nat.toUInt16_eq, UInt16.toNat_ofNat', Nat.mod_eq_of_lt (by omega)]

theorem jsonString_plain (h : PlainText s) : jsonString s = js "\"" ++ s ++ js "\"" := by
  have hchars : s.flatMap jsonChar = s := by
    rw [← List.flatMap_singleton' s, List.flatMap_assoc]
    apply List.flatMap_congr
    intro u hu
    obtain ⟨hlow, hhigh, hquote, hslash⟩ := h u hu
    rw [List.flatMap_singleton, jsonChar]
    split <;> first | omega | skip
    exact if_neg (by omega)
  rw [jsonString, hchars]

/-! Values that are written without escapes. -/

mutual

def JsonValue.Plain : JsonValue → Prop
  | .null | .bool _ | .num _ => True
  | .str s => PlainText s
  | .arr xs => PlainValues xs
  | .obj members => PlainMembers members

def PlainValues : List JsonValue → Prop
  | [] => True
  | x :: xs => x.Plain ∧ PlainValues xs

def PlainMembers : List (JsString × JsonValue) → Prop
  | [] => True
  | (key, x) :: members => (PlainText key ∧ x.Plain) ∧ PlainMembers members

end

/-- The length of what stands in brackets, with a comma after each part but the last. -/
def bracketed (lengths : List Nat) : Nat := 1 + max 1 (lengths.map (· + 1)).sum

mutual

/-- The length of the text of a value. -/
def textLength : JsonValue → Nat
  | .null => 4
  | .bool b => if b then 4 else 5
  | .num x => (toString x.num).length
  | .str s => s.length + 2
  | .arr xs => bracketed (valueLengths xs)
  | .obj members => bracketed (memberLengths members)

def valueLengths : List JsonValue → List Nat
  | [] => []
  | x :: xs => textLength x :: valueLengths xs

def memberLengths : List (JsString × JsonValue) → List Nat
  | [] => []
  | (key, x) :: members => (key.length + 3 + textLength x) :: memberLengths members

end

theorem memberLengths_eq (members : List (JsString × JsonValue)) :
    memberLengths members = members.map fun m => m.1.length + 3 + textLength m.2 := by
  induction members with
  | nil => rfl
  | cons m members ih => exact congrArg _ ih

theorem plainMembers_iff {members : List (JsString × JsonValue)} :
    PlainMembers members ↔ ∀ m ∈ members, PlainText m.1 ∧ m.2.Plain := by
  induction members with
  | nil => simp [PlainMembers]
  | cons m members ih =>
    rw [List.forall_mem_cons, ← ih]
    exact Iff.rfl

theorem intercalate_cons_cons (sep part part' : JsString) (parts : List JsString) :
    sep.intercalate (part :: part' :: parts) = part ++ sep ++ sep.intercalate (part' :: parts) := by
  simp [List.intercalate]

theorem ascii_joined {parts : List JsString} (h : ∀ part ∈ parts, AsciiText part) :
    AsciiText ((js ",").intercalate parts) := by
  induction parts with
  | nil => exact fun _ hu => nomatch hu
  | cons part parts ih =>
    have hrest := ih fun p hp => h p (List.mem_cons_of_mem _ hp)
    cases parts with
    | nil =>
      have hone : (js ",").intercalate [part] = part := by simp [List.intercalate]
      rw [hone]
      exact h part List.mem_cons_self
    | cons part' parts =>
      rw [intercalate_cons_cons]
      refine ((h part List.mem_cons_self).append ?_).append hrest
      exact fun u hu => by
        obtain rfl := List.mem_singleton.1 hu
        decide

theorem length_joined (parts : List JsString) :
    ((js ",").intercalate parts).length + 1 = max 1 ((parts.map List.length).map (· + 1)).sum := by
  induction parts with
  | nil => rfl
  | cons part parts ih =>
    cases parts with
    | nil => simp [List.intercalate]
    | cons part' parts =>
      rw [intercalate_cons_cons, List.length_append, List.length_append]
      have hcomma : (js ",").length = 1 := rfl
      simp only [List.map_cons, List.sum_cons] at ih ⊢
      omega

theorem ascii_js {s : String} (h : ∀ ch ∈ s.toList, ch.toNat < 128) : AsciiText (js s) := by
  intro u hu
  obtain ⟨ch, hch, heq⟩ := toNat_js h hu
  rw [heq]
  exact h ch hch

/-- A literal is tried character by character. -/
theorem ascii_literal {s : String} (h : s.toList.all fun ch => ch.toNat < 128) : AsciiText (js s) :=
  ascii_js (List.all_iff_forall_prop.1 h)

theorem length_js {s : String} (h : ∀ ch ∈ s.toList, ch.toNat < 128) : (js s).length = s.length := by
  rw [js_ascii h, List.length_map, String.length_toList]

theorem ascii_toString (n : Int) : ∀ ch ∈ (toString n).toList, ch.toNat < 128 := by
  have hnat : ∀ n : Nat, ∀ ch ∈ n.repr.toList, ch.toNat < 128 := by
    intro n ch hch
    rw [Nat.toList_repr] at hch
    have hdigit := Nat.isDigit_of_mem_toDigits (by decide) (by decide) hch
    have hle : ch.val ≤ 57 := (Bool.and_eq_true_iff.1 hdigit).2 |> of_decide_eq_true
    exact Nat.lt_of_le_of_lt hle (by decide)
  intro ch hch
  rw [Int.toString_eq_repr, Int.repr_eq_if] at hch
  split at hch
  · exact hnat _ ch hch
  · rw [String.toList_append] at hch
    rcases List.mem_append.1 hch with hch | hch
    · obtain rfl := List.mem_singleton.1 hch
      decide
    · exact hnat _ ch hch

theorem PlainText.jsonString (h : PlainText s) :
    AsciiText (jsonString s) ∧ (jsonString s).length = s.length + 2 := by
  have hquote : AsciiText (js "\"") := by
    intro u hu
    obtain rfl := List.mem_singleton.1 hu
    decide
  rw [jsonString_plain h]
  refine ⟨(hquote.append h.ascii).append hquote, ?_⟩
  rw [List.length_append, List.length_append]
  have hone : (js "\"").length = 1 := rfl
  omega

theorem joined_spec (hopen : AsciiText (js open_) ∧ (js open_).length = 1)
    (hclose : AsciiText (js close) ∧ (js close).length = 1) {parts : List JsString}
    (h : ∀ part ∈ parts, AsciiText part) :
    AsciiText (joined open_ close parts) ∧
      (joined open_ close parts).length = bracketed (parts.map List.length) := by
  refine ⟨(hopen.1.append (ascii_joined h)).append hclose.1, ?_⟩
  have hlength := length_joined parts
  rw [joined, List.length_append, List.length_append, hopen.2, hclose.2, bracketed]
  omega

theorem bracket_spec {s : String} (hone : s.toList.length = 1)
    (h : s.toList.all fun ch => ch.toNat < 128) :
    AsciiText (js s) ∧ (js s).length = 1 :=
  ⟨ascii_literal h, by
    rw [length_js (List.all_iff_forall_prop.1 h), ← String.length_toList]
    exact hone⟩

mutual

/-- The text of a plain value is ASCII and has the computed length. -/
theorem stringify_spec : ∀ x : JsonValue, x.Plain →
    AsciiText (stringify x) ∧ (stringify x).length = textLength x
  | .null, _ => ⟨ascii_literal (by decide), rfl⟩
  | .bool true, _ => ⟨ascii_literal (by decide), rfl⟩
  | .bool false, _ => ⟨ascii_literal (by decide), rfl⟩
  | .num x, _ => ⟨ascii_js (ascii_toString _), length_js (ascii_toString _)⟩
  | .str s, h => PlainText.jsonString h
  | .arr xs, h => by
    obtain ⟨hascii, hlength⟩ := stringifyAll_spec xs h
    have hjoined := joined_spec (bracket_spec (s := "[") rfl (by decide))
      (bracket_spec (s := "]") rfl (by decide)) hascii
    rw [hlength] at hjoined
    exact hjoined
  | .obj members, h => by
    obtain ⟨hascii, hlength⟩ := stringifyMembers_spec members h
    have hjoined := joined_spec (bracket_spec (s := "\x7b") rfl (by decide))
      (bracket_spec (s := "\x7d") rfl (by decide)) hascii
    rw [hlength] at hjoined
    exact hjoined

theorem stringifyAll_spec : ∀ xs : List JsonValue, PlainValues xs →
    (∀ part ∈ stringifyAll xs, AsciiText part) ∧
      (stringifyAll xs).map List.length = valueLengths xs
  | [], _ => ⟨fun _ hp => (nomatch hp), rfl⟩
  | x :: xs, h => by
    obtain ⟨hascii, hlength⟩ := stringify_spec x h.1
    obtain ⟨hasciis, hlengths⟩ := stringifyAll_spec xs h.2
    refine ⟨List.forall_mem_cons.2 ⟨hascii, hasciis⟩, ?_⟩
    rw [stringifyAll, List.map_cons, hlength, hlengths]
    rfl

theorem stringifyMembers_spec : ∀ members : List (JsString × JsonValue), PlainMembers members →
    (∀ part ∈ stringifyMembers members, AsciiText part) ∧
      (stringifyMembers members).map List.length = memberLengths members
  | [], _ => ⟨fun _ hp => (nomatch hp), rfl⟩
  | (key, x) :: members, h => by
    obtain ⟨hkey, hlen⟩ := PlainText.jsonString h.1.1
    obtain ⟨hascii, hlength⟩ := stringify_spec x h.1.2
    obtain ⟨hasciis, hlengths⟩ := stringifyMembers_spec members h.2
    have hcolon : AsciiText (js ":") := ascii_literal (by decide)
    refine ⟨List.forall_mem_cons.2 ⟨(hkey.append hcolon).append hascii, hasciis⟩, ?_⟩
    rw [stringifyMembers, List.map_cons, List.length_append, List.length_append, hlen, hlength,
      hlengths]
    rfl

end

/-- The bytes of the text of a plain value. -/
theorem utf8ByteLength_stringify (h : x.Plain) : utf8ByteLength (stringify x) = textLength x := by
  obtain ⟨hascii, hlength⟩ := stringify_spec x h
  rw [utf8ByteLength_ascii hascii, hlength]

end Seqscribe
