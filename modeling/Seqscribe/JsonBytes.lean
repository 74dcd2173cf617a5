import Mathlib.Algebra.Order.BigOperators.Group.List
import Seqscribe.ChainPreimage
import Seqscribe.JsonText

namespace Seqscribe
set_option autoImplicit true

/-! `JSON.stringify` of any value, canonical JSON beside it, and the bytes of both. -/

/-- The decimal texts of numbers, as `Number.prototype.toString` gives them. -/
structure NumberText where
  text : Rat → JsString
  ascii : ∀ x, AsciiText (text x)
  integer : ∀ n : Int, n.natAbs ≤ MAX_SAFE_INTEGER → text n = js (toString n)

def quote (s : JsString) : JsString := escapeUnpaired (jsonString s)

section
variable (num : NumberText)

mutual

/-- `JSON.stringify` -/
def jsonText : JsonValue → JsString
  | .null => js "null"
  | .bool b => js (if b then "true" else "false")
  | .num x => num.text x
  | .str s => quote s
  | .arr xs => joined "[" "]" (jsonTexts xs)
  | .obj members => joined "\x7b" "\x7d" (jsonMembers members)

def jsonTexts : List JsonValue → List JsString
  | [] => []
  | x :: xs => jsonText x :: jsonTexts xs

def jsonMembers : List (JsString × JsonValue) → List JsString
  | [] => []
  | (key, x) :: members => (quote key ++ js ":" ++ jsonText x) :: jsonMembers members

end

mutual

/-- Canonical JSON: the members of every object in the order of their keys. -/
def canonicalText : JsonValue → JsString
  | .null => js "null"
  | .bool b => js (if b then "true" else "false")
  | .num x => num.text x
  | .str s => quote s
  | .arr xs => joined "[" "]" (canonicalTexts xs)
  | .obj members =>
    joined "\x7b" "\x7d" ((canonicalMemberTexts members).map fun m => quote m.1 ++ js ":" ++ m.2)

def canonicalTexts : List JsonValue → List JsString
  | [] => []
  | x :: xs => canonicalText x :: canonicalTexts xs

def canonicalMemberTexts : List (JsString × JsonValue) → List (JsString × JsString)
  | [] => []
  | (key, x) :: members => insertMember (key, canonicalText x) (canonicalMemberTexts members)

end

mutual

/-- The bytes of the text of a value, in whatever order the members stand. -/
def textBytes : JsonValue → Nat
  | .null => 4
  | .bool b => if b then 4 else 5
  | .num x => utf8ByteLength (num.text x)
  | .str s => utf8ByteLength (quote s)
  | .arr xs => bracketed (valueBytes xs)
  | .obj members => bracketed (memberBytes members)

def valueBytes : List JsonValue → List Nat
  | [] => []
  | x :: xs => textBytes x :: valueBytes xs

def memberBytes : List (JsString × JsonValue) → List Nat
  | [] => []
  | (key, x) :: members =>
    (utf8ByteLength (quote key) + 1 + textBytes x) :: memberBytes members

end

end

/-! Texts whose bytes do not depend on what follows. -/

/-- No pair of surrogates can reach over the end of a sealed text. -/
def Sealed (s : JsString) : Prop :=
  ∀ t, utf8ByteLength (s ++ t) = utf8ByteLength s + utf8ByteLength t

theorem Sealed.nil : Sealed [] := fun _ => (Nat.zero_add _).symm

theorem Sealed.append (h : Sealed s) (h' : Sealed s') : Sealed (s ++ s') := by
  intro t
  rw [List.append_assoc, h, h', h, Nat.add_assoc]

theorem utf8_nil : utf8 [] = [] := rfl

theorem Sealed.unit (hu : ¬ isHigh u) : Sealed [u] := by
  intro t
  rw [List.singleton_append, utf8ByteLength, utf8ByteLength, utf8ByteLength]
  by_cases hl : isLow u
  · rw [utf8_low hu hl, utf8_low hu hl, List.length_append, utf8_nil, List.append_nil]
  · rw [utf8_unit hu hl, utf8_unit hu hl, List.length_append, utf8_nil, List.append_nil]

theorem Sealed.pair (hu : isHigh u) (hv : isLow v) : Sealed [u, v] := by
  intro t
  rw [show [u, v] ++ t = u :: v :: t from rfl, utf8ByteLength, utf8ByteLength, utf8ByteLength,
    utf8_pair hu hv, utf8_pair hu hv, List.length_append, utf8_nil, List.append_nil]

theorem AsciiText.sealed (h : AsciiText s) : Sealed s := by
  induction s with
  | nil => exact .nil
  | cons u s ih =>
    have hu : u.toNat < 128 := h u List.mem_cons_self
    have hone : Sealed [u] := .unit fun hhigh => by
      have := hhigh.1
      omega
    exact hone.append (ih fun v hv => h v (List.mem_cons_of_mem _ hv))

theorem escapeUnpaired_cons (u : UInt16) (s : JsString) : escapeUnpaired (u :: s) =
    if 0xD800 ≤ u.toNat ∧ u.toNat < 0xDC00 then
      match s with
      | [] => escapeUnit u
      | v :: s' =>
        if 0xDC00 ≤ v.toNat ∧ v.toNat < 0xE000 then u :: v :: escapeUnpaired s'
        else escapeUnit u ++ escapeUnpaired (v :: s')
    else if 0xDC00 ≤ u.toNat ∧ u.toNat < 0xE000 then escapeUnit u ++ escapeUnpaired s
    else u :: escapeUnpaired s := by
  rw [escapeUnpaired.eq_def]
  rfl

theorem hexDigit_lt (hn : n < 16) : (Sha256.hexDigit n).toNat < 128 := by
  have hall : ∀ n < 16, (Sha256.hexDigit n).toNat < 128 := by decide
  exact hall n hn

theorem ascii_escapeUnit (u : UInt16) : AsciiText (escapeUnit u) := by
  have hu := u.toNat_lt
  refine (ascii_literal (s := "\\u") (by decide)).append (ascii_js ?_)
  intro ch hch
  rw [String.toList_ofList] at hch
  simp only [List.mem_cons, List.not_mem_nil, or_false] at hch
  rcases hch with rfl | rfl | rfl | rfl <;> exact hexDigit_lt (by omega)

/-- Once the unpaired surrogates are escaped, none is left to pair with what follows. -/
theorem sealed_escapeUnpaired (s : JsString) : Sealed (escapeUnpaired s) := by
  induction reads s with
  | nil => exact .nil
  | @pair u v s hu hv _ ih =>
    have heq : escapeUnpaired (u :: v :: s) = [u, v] ++ escapeUnpaired s := by
      rw [escapeUnpaired_cons]
      exact (if_pos hu).trans (if_pos hv)
    rw [heq]
    exact (Sealed.pair hu hv).append ih
  | @high u s hu hs _ ih =>
    have heq : escapeUnpaired (u :: s) = escapeUnit u ++ escapeUnpaired s := by
      rw [escapeUnpaired_cons]
      cases s with
      | nil => exact (if_pos hu).trans (List.append_nil _).symm
      | cons v s => exact (if_pos hu).trans (if_neg (hs v s rfl))
    rw [heq]
    exact (ascii_escapeUnit u).sealed.append ih
  | @low u s hu hl _ ih =>
    have heq : escapeUnpaired (u :: s) = escapeUnit u ++ escapeUnpaired s := by
      rw [escapeUnpaired_cons]
      exact (if_neg hu).trans (if_pos hl)
    rw [heq]
    exact (ascii_escapeUnit u).sealed.append ih
  | @unit u s hu hl _ ih =>
    have heq : escapeUnpaired (u :: s) = [u] ++ escapeUnpaired s := by
      rw [escapeUnpaired_cons]
      exact (if_neg hu).trans (if_neg hl)
    rw [heq]
    exact (Sealed.unit hu).append ih

theorem sealed_quote (s : JsString) : Sealed (quote s) := sealed_escapeUnpaired _

theorem escapeUnpaired_ascii (h : AsciiText s) : escapeUnpaired s = s := by
  induction s with
  | nil => rfl
  | cons u s ih =>
    have hu : u.toNat < 128 := h u List.mem_cons_self
    rw [escapeUnpaired_cons, if_neg (by omega), if_neg (by omega),
      ih fun v hv => h v (List.mem_cons_of_mem _ hv)]

/-- A plain text stands between its quotes as it is. -/
theorem bytes_quote_plain (h : PlainText s) : utf8ByteLength (quote s) = s.length + 2 := by
  obtain ⟨hascii, hlength⟩ := h.jsonString
  rw [quote, escapeUnpaired_ascii hascii, utf8ByteLength_ascii hascii, hlength]

/-! The bytes of texts in brackets. -/

theorem sealed_intercalate {parts : List JsString} (h : ∀ part ∈ parts, Sealed part) :
    Sealed ((js ",").intercalate parts) := by
  induction parts with
  | nil => exact .nil
  | cons part parts ih =>
    have hrest := ih fun p hp => h p (List.mem_cons_of_mem _ hp)
    cases parts with
    | nil =>
      have hone : (js ",").intercalate [part] = part := by simp [List.intercalate]
      rw [hone]
      exact h part List.mem_cons_self
    | cons part' parts =>
      rw [intercalate_cons_cons]
      have hcomma : Sealed (js ",") := (ascii_literal (by decide)).sealed
      exact ((h part List.mem_cons_self).append hcomma).append hrest

theorem bytes_intercalate {parts : List JsString} (h : ∀ part ∈ parts, Sealed part) :
    utf8ByteLength ((js ",").intercalate parts) + 1 =
      max 1 ((parts.map utf8ByteLength).map (· + 1)).sum := by
  induction parts with
  | nil => rfl
  | cons part parts ih =>
    have hpart := h part List.mem_cons_self
    have hrest := ih fun p hp => h p (List.mem_cons_of_mem _ hp)
    cases parts with
    | nil => simp [List.intercalate]
    | cons part' parts =>
      have hcomma : Sealed (js ",") := (ascii_literal (by decide)).sealed
      have hone : utf8ByteLength (js ",") = 1 := rfl
      rw [intercalate_cons_cons, (hpart.append hcomma) _, hpart, hone]
      simp only [List.map_cons, List.sum_cons] at hrest ⊢
      omega

theorem joined_bytes (hopen : AsciiText (js open_) ∧ (js open_).length = 1)
    (hclose : AsciiText (js close) ∧ (js close).length = 1) {parts : List JsString}
    (h : ∀ part ∈ parts, Sealed part) :
    Sealed (joined open_ close parts) ∧
      utf8ByteLength (joined open_ close parts) = bracketed (parts.map utf8ByteLength) := by
  have hparts := sealed_intercalate h
  refine ⟨(hopen.1.sealed.append hparts).append hclose.1.sealed, ?_⟩
  have hbytes := bytes_intercalate h
  rw [joined, (hopen.1.sealed.append hparts) _, hopen.1.sealed, utf8ByteLength_ascii hopen.1,
    utf8ByteLength_ascii hclose.1, hopen.2, hclose.2, bracketed]
  omega

theorem member_bytes (key : JsString) (h : Sealed text) :
    Sealed (quote key ++ js ":" ++ text) ∧
      utf8ByteLength (quote key ++ js ":" ++ text) =
        utf8ByteLength (quote key) + 1 + utf8ByteLength text := by
  have hkey : Sealed (quote key ++ js ":") :=
    (sealed_quote key).append (ascii_literal (s := ":") (by decide)).sealed
  refine ⟨hkey.append h, ?_⟩
  rw [hkey, sealed_quote key]
  rfl

section
variable (num : NumberText)

mutual

theorem jsonText_bytes : ∀ x : JsonValue,
    Sealed (jsonText num x) ∧ utf8ByteLength (jsonText num x) = textBytes num x
  | .null => ⟨(ascii_literal (s := "null") (by decide)).sealed, rfl⟩
  | .bool true => ⟨(ascii_literal (s := "true") (by decide)).sealed, rfl⟩
  | .bool false => ⟨(ascii_literal (s := "false") (by decide)).sealed, rfl⟩
  | .num x => ⟨(num.ascii x).sealed, rfl⟩
  | .str s => ⟨sealed_quote s, rfl⟩
  | .arr xs => by
    obtain ⟨hsealed, hbytes⟩ := jsonTexts_bytes xs
    have hjoined := joined_bytes (bracket_spec (s := "[") rfl (by decide))
      (bracket_spec (s := "]") rfl (by decide)) hsealed
    rw [hbytes] at hjoined
    exact hjoined
  | .obj members => by
    obtain ⟨hsealed, hbytes⟩ := jsonMembers_bytes members
    have hjoined := joined_bytes (bracket_spec (s := "\x7b") rfl (by decide))
      (bracket_spec (s := "\x7d") rfl (by decide)) hsealed
    rw [hbytes] at hjoined
    exact hjoined

theorem jsonTexts_bytes : ∀ xs : List JsonValue,
    (∀ part ∈ jsonTexts num xs, Sealed part) ∧
      (jsonTexts num xs).map utf8ByteLength = valueBytes num xs
  | [] => ⟨fun _ hp => (nomatch hp), rfl⟩
  | x :: xs => by
    obtain ⟨hsealed, hbytes⟩ := jsonText_bytes x
    obtain ⟨hrest, hsizes⟩ := jsonTexts_bytes xs
    refine ⟨List.forall_mem_cons.2 ⟨hsealed, hrest⟩, ?_⟩
    rw [jsonTexts, List.map_cons, hbytes, hsizes]
    rfl

theorem jsonMembers_bytes : ∀ members : List (JsString × JsonValue),
    (∀ part ∈ jsonMembers num members, Sealed part) ∧
      (jsonMembers num members).map utf8ByteLength = memberBytes num members
  | [] => ⟨fun _ hp => (nomatch hp), rfl⟩
  | (key, x) :: members => by
    obtain ⟨hsealed, hbytes⟩ := jsonText_bytes x
    obtain ⟨hrest, hsizes⟩ := jsonMembers_bytes members
    obtain ⟨hmember, hsize⟩ := member_bytes key hsealed
    refine ⟨List.forall_mem_cons.2 ⟨hmember, hrest⟩, ?_⟩
    rw [jsonMembers, List.map_cons, hsize, hbytes, hsizes]
    rfl

end

end

theorem insertMember_perm (m : JsString × JsString) (ms : List (JsString × JsString)) :
    (insertMember m ms).Perm (m :: ms) := by
  induction ms with
  | nil => exact .refl _
  | cons m' ms ih =>
    rw [insertMember]
    split
    · exact (ih.cons m').trans (.swap ..)
    · exact .refl _

theorem bracketed_perm {sizes sizes' : List Nat} (h : sizes.Perm sizes') :
    bracketed sizes = bracketed sizes' := by
  rw [bracketed, bracketed, (h.map (· + 1)).sum_eq]

section
variable (num : NumberText)

mutual

/-- Sorting the members changes no byte count. -/
theorem canonicalText_bytes : ∀ x : JsonValue,
    Sealed (canonicalText num x) ∧ utf8ByteLength (canonicalText num x) = textBytes num x
  | .null => ⟨(ascii_literal (s := "null") (by decide)).sealed, rfl⟩
  | .bool true => ⟨(ascii_literal (s := "true") (by decide)).sealed, rfl⟩
  | .bool false => ⟨(ascii_literal (s := "false") (by decide)).sealed, rfl⟩
  | .num x => ⟨(num.ascii x).sealed, rfl⟩
  | .str s => ⟨sealed_quote s, rfl⟩
  | .arr xs => by
    obtain ⟨hsealed, hbytes⟩ := canonicalTexts_bytes xs
    have hjoined := joined_bytes (bracket_spec (s := "[") rfl (by decide))
      (bracket_spec (s := "]") rfl (by decide)) hsealed
    rw [hbytes] at hjoined
    exact hjoined
  | .obj members => by
    obtain ⟨hsealed, hbytes⟩ := canonicalMemberTexts_bytes members
    have hparts : ∀ part ∈ (canonicalMemberTexts num members).map
        fun m => quote m.1 ++ js ":" ++ m.2, Sealed part := by
      intro part hpart
      obtain ⟨m, hm, rfl⟩ := List.mem_map.1 hpart
      exact (member_bytes m.1 (hsealed m hm)).1
    have hjoined := joined_bytes (bracket_spec (s := "\x7b") rfl (by decide))
      (bracket_spec (s := "\x7d") rfl (by decide)) hparts
    refine ⟨hjoined.1, hjoined.2.trans ?_⟩
    rw [textBytes, ← bracketed_perm hbytes, List.map_map]
    refine congrArg bracketed (List.map_congr_left ?_)
    exact fun m hm => (member_bytes m.1 (hsealed m hm)).2

theorem canonicalTexts_bytes : ∀ xs : List JsonValue,
    (∀ part ∈ canonicalTexts num xs, Sealed part) ∧
      (canonicalTexts num xs).map utf8ByteLength = valueBytes num xs
  | [] => ⟨fun _ hp => (nomatch hp), rfl⟩
  | x :: xs => by
    obtain ⟨hsealed, hbytes⟩ := canonicalText_bytes x
    obtain ⟨hrest, hsizes⟩ := canonicalTexts_bytes xs
    refine ⟨List.forall_mem_cons.2 ⟨hsealed, hrest⟩, ?_⟩
    rw [canonicalTexts, List.map_cons, hbytes, hsizes]
    rfl

theorem canonicalMemberTexts_bytes : ∀ members : List (JsString × JsonValue),
    (∀ m ∈ canonicalMemberTexts num members, Sealed m.2) ∧
      ((canonicalMemberTexts num members).map fun m =>
        utf8ByteLength (quote m.1) + 1 + utf8ByteLength m.2).Perm (memberBytes num members)
  | [] => ⟨fun _ hm => (nomatch hm), .refl _⟩
  | (key, x) :: members => by
    obtain ⟨hsealed, hbytes⟩ := canonicalText_bytes x
    obtain ⟨hrest, hsizes⟩ := canonicalMemberTexts_bytes members
    have hperm := insertMember_perm (key, canonicalText num x) (canonicalMemberTexts num members)
    constructor
    · intro m hm
      rcases List.mem_cons.1 (hperm.subset hm) with rfl | hm
      · exact hsealed
      · exact hrest m hm
    · refine (hperm.map _).trans ?_
      rw [List.map_cons, memberBytes, hbytes]
      exact hsizes.cons _

end

/-- Canonical or not, the text of a value has the same number of bytes. -/
theorem bytes_canonicalText (x : JsonValue) :
    utf8ByteLength (canonicalText num x) = utf8ByteLength (jsonText num x) :=
  (canonicalText_bytes num x).2.trans (jsonText_bytes num x).2.symm

end

end Seqscribe
