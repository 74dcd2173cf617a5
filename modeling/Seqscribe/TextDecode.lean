import Seqscribe.Utf8

namespace Seqscribe
set_option autoImplicit true

/-! `TextDecoder`, and what it reads of the bytes of a string. -/

/-- The code points of some bytes. Of the one under way, `needed` bytes are missing, of which the
next lies between `lower` and `upper`. What is not UTF-8 becomes U+FFFD. -/
def decodeFrom (needed point lower upper : Nat) : List UInt8 → List Nat
  | [] => if needed = 0 then [] else [0xFFFD]
  | b :: bytes =>
    let n := b.toNat
    if needed ≠ 0 ∧ lower ≤ n ∧ n ≤ upper then
      if needed = 1 then (point * 0x40 + n % 0x40) :: decodeFrom 0 0 0x80 0xBF bytes
      else decodeFrom (needed - 1) (point * 0x40 + n % 0x40) 0x80 0xBF bytes
    else
      -- the byte is read again, as the first of a code point
      (if needed = 0 then [] else [0xFFFD]) ++
        if n < 0x80 then n :: decodeFrom 0 0 0x80 0xBF bytes
        else if 0xC2 ≤ n ∧ n ≤ 0xDF then decodeFrom 1 (n % 0x20) 0x80 0xBF bytes
        else if 0xE0 ≤ n ∧ n ≤ 0xEF then
          decodeFrom 2 (n % 0x10) (if n = 0xE0 then 0xA0 else 0x80) (if n = 0xED then 0x9F else 0xBF)
            bytes
        else if 0xF0 ≤ n ∧ n ≤ 0xF4 then
          decodeFrom 3 (n % 8) (if n = 0xF0 then 0x90 else 0x80) (if n = 0xF4 then 0x8F else 0xBF)
            bytes
        else 0xFFFD :: decodeFrom 0 0 0x80 0xBF bytes

def decodePoints (bytes : List UInt8) : List Nat := decodeFrom 0 0 0x80 0xBF bytes

/-- `textDec.decode`: a byte order mark at the start is dropped. -/
def textDecode (bytes : List UInt8) : JsString :=
  let points := decodePoints bytes
  (if points.head? = some 0xFEFF then points.tail else points).flatMap unitsOf

/-- A code point that is not a surrogate. -/
def isScalar (n : Nat) : Prop := n < 0xD800 ∨ 0xE000 ≤ n ∧ n < 0x110000

theorem codePoints_scalar (s : JsString) : ∀ n ∈ codePoints s, isScalar n := by
  induction reads s with
  | nil => exact nofun
  | pair hu hv _ ih =>
    rw [codePoints_pair hu hv, List.forall_mem_cons]
    have := hu.2
    have := hv.2
    exact ⟨.inr (by omega), ih⟩
  | high hu hs _ ih =>
    rw [codePoints_high hu hs, List.forall_mem_cons]
    exact ⟨.inr (by decide), ih⟩
  | low hu hl _ ih =>
    rw [codePoints_low hu hl, List.forall_mem_cons]
    exact ⟨.inr (by decide), ih⟩
  | @unit u s hu hl _ ih =>
    rw [isHigh] at hu
    rw [codePoints_unit hu hl, List.forall_mem_cons]
    rw [isLow] at hl
    have := u.toNat_lt
    refine ⟨?_, ih⟩
    rw [isScalar]
    omega

section
variable {needed point lower upper : Nat} {bytes : List UInt8}

theorem toNat_octet (hn : n < 256) : n.toUInt8.toNat = n := Nat.mod_eq_of_lt hn

/-- A byte that continues a code point. -/
theorem decodeFrom_more (hn : n < 256) (hlower : lower ≤ n) (hupper : n ≤ upper)
    (hneeded : 1 < needed) : decodeFrom needed point lower upper (n.toUInt8 :: bytes) =
      decodeFrom (needed - 1) (point * 0x40 + n % 0x40) 0x80 0xBF bytes := by
  rw [decodeFrom, toNat_octet hn]
  rw [if_pos ⟨by omega, hlower, hupper⟩, if_neg (by omega)]

/-- The byte that ends one. -/
theorem decodeFrom_last (hn : n < 256) (hlower : lower ≤ n) (hupper : n ≤ upper) :
    decodeFrom 1 point lower upper (n.toUInt8 :: bytes) =
      (point * 0x40 + n % 0x40) :: decodePoints bytes := by
  rw [decodeFrom, toNat_octet hn]
  rw [if_pos ⟨Nat.one_ne_zero, hlower, hupper⟩, if_pos rfl]
  rfl

/-- The byte that begins one. -/
theorem decodePoints_lead (hn : n < 256) : decodePoints (n.toUInt8 :: bytes) =
    if n < 0x80 then n :: decodePoints bytes
    else if 0xC2 ≤ n ∧ n ≤ 0xDF then decodeFrom 1 (n % 0x20) 0x80 0xBF bytes
    else if 0xE0 ≤ n ∧ n ≤ 0xEF then
      decodeFrom 2 (n % 0x10) (if n = 0xE0 then 0xA0 else 0x80) (if n = 0xED then 0x9F else 0xBF)
        bytes
    else if 0xF0 ≤ n ∧ n ≤ 0xF4 then
      decodeFrom 3 (n % 8) (if n = 0xF0 then 0x90 else 0x80) (if n = 0xF4 then 0x8F else 0xBF)
        bytes
    else 0xFFFD :: decodePoints bytes := by
  rw [decodePoints, decodeFrom, toNat_octet hn]
  rw [if_neg (fun h => h.1 rfl), if_pos rfl, List.nil_append]
  rfl

end

/-- The bytes of a code point are read as that code point. -/
theorem decodePoints_octets (h : isScalar n) (bytes : List UInt8) :
    decodePoints (utf8Of n ++ bytes) = n :: decodePoints bytes := by
  rw [isScalar] at h
  rw [utf8Of_eq]
  rcases octetsOf_cases n with ⟨hn, he⟩ | ⟨hn, hn', he⟩ | ⟨hn, hn', he⟩ | ⟨hn, he⟩
  · rw [he, List.map_singleton, List.singleton_append, decodePoints_lead (by omega), if_pos hn]
  · rw [he, List.map_cons, List.map_singleton, List.cons_append, List.singleton_append,
      decodePoints_lead (by omega), if_neg (by omega), if_pos (by omega),
      decodeFrom_last (by omega) (by omega) (by omega)]
    congr 1
    omega
  · rw [he, List.map_cons, List.map_cons, List.map_singleton, List.cons_append, List.cons_append,
      List.singleton_append, decodePoints_lead (by omega), if_neg (by omega), if_neg (by omega),
      if_pos (by omega), decodeFrom_more (by omega) (by split <;> omega) (by split <;> omega)
        Nat.one_lt_two, decodeFrom_last (by omega) (by omega) (by omega)]
    congr 1
    omega
  · rw [he, List.map_cons, List.map_cons, List.map_cons, List.map_singleton, List.cons_append,
      List.cons_append, List.cons_append, List.singleton_append, decodePoints_lead (by omega),
      if_neg (by omega), if_neg (by omega), if_neg (by omega), if_pos (by omega),
      decodeFrom_more (by omega) (by split <;> omega) (by split <;> omega) (by decide),
      decodeFrom_more (by omega) (by omega) (by omega) (by decide),
      decodeFrom_last (by omega) (by omega) (by omega)]
    congr 1
    omega

theorem decodePoints_utf8 (s : JsString) : decodePoints (utf8 s) = codePoints s := by
  rw [utf8_eq]
  suffices h : ∀ points : List Nat, (∀ n ∈ points, isScalar n) →
      decodePoints (points.flatMap utf8Of) = points from h _ (codePoints_scalar s)
  intro points hpoints
  induction points with
  | nil => rfl
  | cons n points ih =>
    rw [List.forall_mem_cons] at hpoints
    rw [List.flatMap_cons, decodePoints_octets hpoints.1, ih hpoints.2]

/-- What the encoder writes of a well-formed string without a byte order mark is read back. -/
theorem textDecode_utf8 (hs : isWellFormed s = true) (hmark : (codePoints s).head? ≠ some 0xFEFF) :
    textDecode (utf8 s) = s := by
  rw [textDecode, decodePoints_utf8]
  rw [if_neg hmark, unitsOf_codePoints hs]

/-! What is read is well formed, whatever the bytes. -/

/-- However a code point under way goes on, it is not a surrogate. -/
def OpenPoint : Nat → Nat → Nat → Nat → Prop
  | 0, _, _, _ => True
  | 1, point, lower, upper => ∀ n, lower ≤ n → n ≤ upper → isScalar (point * 0x40 + n % 0x40)
  | needed + 2, point, lower, upper =>
    ∀ n, lower ≤ n → n ≤ upper → OpenPoint (needed + 1) (point * 0x40 + n % 0x40) 0x80 0xBF

theorem openPoint_two (n : Nat) : OpenPoint 1 (n % 0x20) 0x80 0xBF := by
  intro a ha ha'
  rw [isScalar]
  omega

theorem openPoint_three (h : 0xE0 ≤ n ∧ n ≤ 0xEF) : OpenPoint 2 (n % 0x10)
    (if n = 0xE0 then 0xA0 else 0x80) (if n = 0xED then 0x9F else 0xBF) := by
  intro a ha ha' b hb hb'
  rw [isScalar]
  split at ha <;> split at ha' <;> omega

theorem openPoint_four (h : 0xF0 ≤ n ∧ n ≤ 0xF4) : OpenPoint 3 (n % 8)
    (if n = 0xF0 then 0x90 else 0x80) (if n = 0xF4 then 0x8F else 0xBF) := by
  intro a ha ha' b hb hb' c hc hc'
  rw [isScalar]
  split at ha <;> split at ha' <;> omega

theorem decodeFrom_scalar {needed point lower upper : Nat}
    (h : OpenPoint needed point lower upper) (bytes : List UInt8) :
    ∀ n ∈ decodeFrom needed point lower upper bytes, isScalar n := by
  have hbad : isScalar 0xFFFD := .inr (by decide)
  induction bytes generalizing needed point lower upper with
  | nil =>
    intro n hn
    rw [decodeFrom] at hn
    split at hn
    next => cases hn
    next =>
      rw [List.mem_singleton] at hn
      exact hn ▸ hbad
  | cons b bytes ih =>
    have hnext : ∀ n ∈ decodeFrom 0 0 0x80 0xBF bytes, isScalar n := ih trivial
    intro n hn
    rw [decodeFrom] at hn
    split at hn
    next hmore =>
      obtain ⟨hneeded, hlower, hupper⟩ := hmore
      split at hn
      next hone =>
        subst hone
        rcases List.mem_cons.1 hn with rfl | hn
        · exact h _ hlower hupper
        · exact hnext n hn
      next hone =>
        obtain ⟨k, rfl⟩ : ∃ k, needed = k + 2 := ⟨needed - 2, by omega⟩
        exact ih (h _ hlower hupper) n hn
    next =>
      rcases List.mem_append.1 hn with hn | hn
      · split at hn
        next => cases hn
        next =>
          rw [List.mem_singleton] at hn
          exact hn ▸ hbad
      split at hn
      next hascii =>
        rcases List.mem_cons.1 hn with rfl | hn
        · exact .inl (by omega)
        · exact hnext n hn
      next =>
        split at hn
        next => exact ih (openPoint_two _) n hn
        next =>
          split at hn
          next h₃ => exact ih (openPoint_three h₃) n hn
          next =>
            split at hn
            next h₄ => exact ih (openPoint_four h₄) n hn
            next =>
              rcases List.mem_cons.1 hn with rfl | hn
              · exact hbad
              · exact hnext n hn

theorem isWellFormed_units (h : isScalar n) (s : JsString) :
    isWellFormed (unitsOf n ++ s) = isWellFormed s := by
  have hunit : ∀ n, n < 2 ^ 16 → n.toUInt16.toNat = n := fun n hn => Nat.mod_eq_of_lt hn
  rw [isScalar] at h
  rw [unitsOf]
  split
  next hn =>
    have hu := hunit n hn
    rw [List.singleton_append, isWellFormed_unit]
    · rw [isHigh, hu]
      omega
    · rw [isLow, hu]
      omega
  next hn =>
    have hu := hunit (0xD800 + (n - 0x10000) / 0x400) (by omega)
    have hv := hunit (0xDC00 + (n - 0x10000) % 0x400) (by omega)
    rw [List.cons_append, List.singleton_append, isWellFormed_pair]
    · rw [isHigh, hu]
      omega
    · rw [isLow, hv]
      omega

theorem wellFormed_textDecode (bytes : List UInt8) : isWellFormed (textDecode bytes) = true := by
  suffices h : ∀ points : List Nat, (∀ n ∈ points, isScalar n) →
      isWellFormed (points.flatMap unitsOf) = true by
    have hscalar : ∀ n ∈ decodePoints bytes, isScalar n :=
      decodeFrom_scalar (show OpenPoint 0 0 0x80 0xBF from trivial) bytes
    rw [textDecode]
    split
    next => exact h _ fun n hn => hscalar n (List.mem_of_mem_tail hn)
    next => exact h _ hscalar
  intro points hpoints
  induction points with
  | nil => rfl
  | cons n points ih =>
    rw [List.forall_mem_cons] at hpoints
    rw [List.flatMap_cons, isWellFormed_units hpoints.1]
    exact ih hpoints.2

end Seqscribe
