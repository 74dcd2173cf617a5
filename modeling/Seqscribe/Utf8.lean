import Mathlib.Data.List.Lex
import Seqscribe.Encoding

namespace Seqscribe
set_option autoImplicit true

/-! What UTF-8 keeps of a JavaScript string. -/

/-- The code points that `TextEncoder` reads. -/
def codePoints : JsString → List Nat
  | [] => []
  | u :: rest =>
    let n := u.toNat
    if 0xD800 ≤ n ∧ n < 0xDC00 then
      match rest with
      | [] => [0xFFFD]
      | v :: rest' =>
        let m := v.toNat
        if 0xDC00 ≤ m ∧ m < 0xE000 then
          (0x10000 + (n - 0xD800) * 0x400 + (m - 0xDC00)) :: codePoints rest'
        else 0xFFFD :: codePoints (v :: rest')
    else if 0xDC00 ≤ n ∧ n < 0xE000 then 0xFFFD :: codePoints rest
    else n :: codePoints rest

/-- `String.prototype.isWellFormed`: no surrogate is unpaired. -/
def isWellFormed : JsString → Bool
  | [] => true
  | u :: rest =>
    let n := u.toNat
    if 0xD800 ≤ n ∧ n < 0xDC00 then
      match rest with
      | [] => false
      | v :: rest' => decide (0xDC00 ≤ v.toNat ∧ v.toNat < 0xE000) && isWellFormed rest'
    else if 0xDC00 ≤ n ∧ n < 0xE000 then false
    else isWellFormed rest

/-- The code units of a code point. -/
def unitsOf (n : Nat) : JsString :=
  if n < 0x10000 then [n.toUInt16]
  else [(0xD800 + (n - 0x10000) / 0x400).toUInt16, (0xDC00 + (n - 0x10000) % 0x400).toUInt16]

/-! One step of each reading: a pair, an unpaired surrogate, and any other unit. -/

def isHigh (u : UInt16) : Prop := 0xD800 ≤ u.toNat ∧ u.toNat < 0xDC00

def isLow (u : UInt16) : Prop := 0xDC00 ≤ u.toNat ∧ u.toNat < 0xE000

/-- A string as its code points are read. -/
inductive Reads : JsString → Prop where
  | nil : Reads []
  | pair : isHigh u → isLow v → Reads s → Reads (u :: v :: s)
  | high : isHigh u → (∀ v s', s = v :: s' → ¬ isLow v) → Reads s → Reads (u :: s)
  | low : ¬ isHigh u → isLow u → Reads s → Reads (u :: s)
  | unit : ¬ isHigh u → ¬ isLow u → Reads s → Reads (u :: s)

theorem reads (s : JsString) : Reads s := by
  induction s using codePoints.induct with
  | case1 => exact .nil
  | case2 u n hn => exact .high hn nofun .nil
  | case3 u n hn v rest m hm ih => exact .pair hn hm ih
  | case4 u n hn v rest m hm ih =>
    apply Reads.high hn _ ih
    rintro v' s' ⟨⟩
    exact hm
  | case5 u rest n hn hm ih => exact .low hn hm ih
  | case6 u rest n hn hm ih => exact .unit hn hm ih

section
variable {u v : UInt16} {s : JsString}

theorem codePoints_cons (u : UInt16) (s : JsString) : codePoints (u :: s) =
    if 0xD800 ≤ u.toNat ∧ u.toNat < 0xDC00 then
      match s with
      | [] => [0xFFFD]
      | v :: s' =>
        if 0xDC00 ≤ v.toNat ∧ v.toNat < 0xE000 then
          (0x10000 + (u.toNat - 0xD800) * 0x400 + (v.toNat - 0xDC00)) :: codePoints s'
        else 0xFFFD :: codePoints (v :: s')
    else if 0xDC00 ≤ u.toNat ∧ u.toNat < 0xE000 then 0xFFFD :: codePoints s
    else u.toNat :: codePoints s := by
  rw [codePoints.eq_def]
  rfl

theorem codePoints_pair (hu : isHigh u) (hv : isLow v) : codePoints (u :: v :: s) =
    (0x10000 + (u.toNat - 0xD800) * 0x400 + (v.toNat - 0xDC00)) :: codePoints s := by
  rw [isHigh] at hu
  rw [codePoints_cons, if_pos hu]
  exact if_pos hv

theorem codePoints_high (hu : isHigh u) (hs : ∀ v s', s = v :: s' → ¬ isLow v) :
    codePoints (u :: s) = 0xFFFD :: codePoints s := by
  rw [isHigh] at hu
  rw [codePoints_cons, if_pos hu]
  cases s with
  | nil => rfl
  | cons v s => exact if_neg (hs v s rfl)

theorem codePoints_low (hu : ¬ isHigh u) (hl : isLow u) :
    codePoints (u :: s) = 0xFFFD :: codePoints s := by
  rw [isHigh] at hu
  rw [isLow] at hl
  rw [codePoints_cons, if_neg hu, if_pos hl]

theorem codePoints_unit (hu : ¬ isHigh u) (hl : ¬ isLow u) :
    codePoints (u :: s) = u.toNat :: codePoints s := by
  rw [isHigh] at hu
  rw [isLow] at hl
  rw [codePoints_cons, if_neg hu, if_neg hl]

end

theorem utf8_eq (s : JsString) : utf8 s = (codePoints s).flatMap utf8Of := by
  induction s using codePoints.induct with
  | case1 => rfl
  | case2 u n hn =>
    simp only [utf8, codePoints, n, if_pos hn, List.flatMap_cons, List.flatMap_nil, List.append_nil]
  | case3 u n hn v rest m hm ih =>
    simp only [utf8, codePoints, n, m, if_pos hn, if_pos hm, List.flatMap_cons, ih]
  | case4 u n hn v rest m hm ih =>
    simp only [utf8, codePoints, n, m, if_pos hn, if_neg hm, List.flatMap_cons, ih]
  | case5 u rest n hn hm ih =>
    rw [utf8.eq_def, codePoints.eq_def]
    simp only [n, if_neg hn, if_pos hm, List.flatMap_cons, ih]
  | case6 u rest n hn hm ih =>
    rw [utf8.eq_def, codePoints.eq_def]
    simp only [n, if_neg hn, if_neg hm, List.flatMap_cons, ih]

section
variable {u v : UInt16} {s : JsString}

theorem utf8_pair (hu : isHigh u) (hv : isLow v) : utf8 (u :: v :: s) =
    utf8Of (0x10000 + (u.toNat - 0xD800) * 0x400 + (v.toNat - 0xDC00)) ++ utf8 s := by
  rw [utf8_eq, utf8_eq, codePoints_pair hu hv, List.flatMap_cons]

theorem utf8_high (hu : isHigh u) (hs : ∀ v s', s = v :: s' → ¬ isLow v) :
    utf8 (u :: s) = utf8Of 0xFFFD ++ utf8 s := by
  rw [utf8_eq, utf8_eq, codePoints_high hu hs, List.flatMap_cons]

theorem utf8_low (hu : ¬ isHigh u) (hl : isLow u) : utf8 (u :: s) = utf8Of 0xFFFD ++ utf8 s := by
  rw [utf8_eq, utf8_eq, codePoints_low hu hl, List.flatMap_cons]

theorem utf8_unit (hu : ¬ isHigh u) (hl : ¬ isLow u) : utf8 (u :: s) = utf8Of u.toNat ++ utf8 s := by
  rw [utf8_eq, utf8_eq, codePoints_unit hu hl, List.flatMap_cons]

end

theorem codePoints_lt (s : JsString) : ∀ n ∈ codePoints s, n < 0x110000 := by
  induction reads s with
  | nil => exact nofun
  | pair hu hv _ ih =>
    rw [codePoints_pair hu hv, List.forall_mem_cons]
    have := hu.2
    have := hv.2
    exact ⟨by omega, ih⟩
  | high hu hs _ ih =>
    rw [codePoints_high hu hs, List.forall_mem_cons]
    exact ⟨by decide, ih⟩
  | low hu hl _ ih =>
    rw [codePoints_low hu hl, List.forall_mem_cons]
    exact ⟨by decide, ih⟩
  | @unit u s hu hl _ ih =>
    rw [codePoints_unit hu hl, List.forall_mem_cons]
    have := u.toNat_lt
    exact ⟨by omega, ih⟩

theorem unitsOf_toNat (u : UInt16) : unitsOf u.toNat = [u] := by
  have hu := u.toNat_lt
  rw [unitsOf, if_pos (by omega)]
  exact congrArg (fun u => [u]) UInt16.ofNat_toNat

theorem unitsOf_pair (hu : isHigh u) (hv : isLow v) :
    unitsOf (0x10000 + (u.toNat - 0xD800) * 0x400 + (v.toNat - 0xDC00)) = [u, v] := by
  rw [isHigh] at hu
  rw [isLow] at hv
  have hhigh : 0xD800 + (0x10000 + (u.toNat - 0xD800) * 0x400 + (v.toNat - 0xDC00) - 0x10000) /
      0x400 = u.toNat := by omega
  have hlow : 0xDC00 + (0x10000 + (u.toNat - 0xD800) * 0x400 + (v.toNat - 0xDC00) - 0x10000) %
      0x400 = v.toNat := by omega
  rw [unitsOf, if_neg (by omega), hhigh, hlow]
  exact congrArg₂ (fun u v => [u, v]) UInt16.ofNat_toNat UInt16.ofNat_toNat

section
variable {u v : UInt16} {s : JsString}

theorem isWellFormed_cons (u : UInt16) (s : JsString) : isWellFormed (u :: s) =
    if 0xD800 ≤ u.toNat ∧ u.toNat < 0xDC00 then
      match s with
      | [] => false
      | v :: s' => decide (0xDC00 ≤ v.toNat ∧ v.toNat < 0xE000) && isWellFormed s'
    else if 0xDC00 ≤ u.toNat ∧ u.toNat < 0xE000 then false
    else isWellFormed s := by
  rw [isWellFormed.eq_def]
  rfl

theorem isWellFormed_pair (hu : isHigh u) (hv : isLow v) :
    isWellFormed (u :: v :: s) = isWellFormed s := by
  rw [isHigh] at hu
  rw [isLow] at hv
  rw [isWellFormed_cons, if_pos hu]
  exact congrArg (· && isWellFormed s) (decide_eq_true hv)

theorem isWellFormed_high (hu : isHigh u) (hs : ∀ v s', s = v :: s' → ¬ isLow v) :
    isWellFormed (u :: s) = false := by
  rw [isHigh] at hu
  rw [isWellFormed_cons, if_pos hu]
  cases s with
  | nil => rfl
  | cons v s =>
    have hv := hs v s rfl
    rw [isLow] at hv
    exact congrArg (· && isWellFormed s) (decide_eq_false hv)

theorem isWellFormed_low (hu : ¬ isHigh u) (hl : isLow u) : isWellFormed (u :: s) = false := by
  rw [isHigh] at hu
  rw [isLow] at hl
  rw [isWellFormed_cons, if_neg hu, if_pos hl]

theorem isWellFormed_unit (hu : ¬ isHigh u) (hl : ¬ isLow u) :
    isWellFormed (u :: s) = isWellFormed s := by
  rw [isHigh] at hu
  rw [isLow] at hl
  rw [isWellFormed_cons, if_neg hu, if_neg hl]

end

theorem unitsOf_codePoints (h : isWellFormed s = true) : (codePoints s).flatMap unitsOf = s := by
  induction reads s with
  | nil => rfl
  | pair hu hv _ ih =>
    rw [isWellFormed_pair hu hv] at h
    rw [codePoints_pair hu hv, List.flatMap_cons, unitsOf_pair hu hv, ih h]
    rfl
  | high hu hs _ ih =>
    rw [isWellFormed_high hu hs] at h
    cases h
  | low hu hl _ ih =>
    rw [isWellFormed_low hu hl] at h
    cases h
  | unit hu hl _ ih =>
    rw [isWellFormed_unit hu hl] at h
    rw [codePoints_unit hu hl, List.flatMap_cons, unitsOf_toNat, ih h]
    rfl

/-- The bytes of a code point, as numbers. -/
def octetsOf (n : Nat) : List Nat :=
  if n < 0x80 then [n]
  else if n < 0x800 then [0xC0 + n / 0x40, 0x80 + n % 0x40]
  else if n < 0x10000 then [0xE0 + n / 0x1000, 0x80 + n / 0x40 % 0x40, 0x80 + n % 0x40]
  else [0xF0 + n / 0x40000, 0x80 + n / 0x1000 % 0x40, 0x80 + n / 0x40 % 0x40, 0x80 + n % 0x40]

theorem utf8Of_eq (n : Nat) : utf8Of n = (octetsOf n).map Nat.toUInt8 := by
  rw [utf8Of, octetsOf]
  split
  · rfl
  · split
    · rfl
    · split <;> rfl

theorem octetsOf_cases (n : Nat) :
    (n < 0x80 ∧ octetsOf n = [n]) ∨
    (0x80 ≤ n ∧ n < 0x800 ∧ octetsOf n = [0xC0 + n / 0x40, 0x80 + n % 0x40]) ∨
    (0x800 ≤ n ∧ n < 0x10000 ∧
      octetsOf n = [0xE0 + n / 0x1000, 0x80 + n / 0x40 % 0x40, 0x80 + n % 0x40]) ∨
    (0x10000 ≤ n ∧ octetsOf n = [0xF0 + n / 0x40000, 0x80 + n / 0x1000 % 0x40,
      0x80 + n / 0x40 % 0x40, 0x80 + n % 0x40]) := by
  rw [octetsOf]
  split
  next h => exact .inl ⟨h, rfl⟩
  next h =>
    split
    next h' => exact .inr (.inl ⟨Nat.le_of_not_lt h, h', rfl⟩)
    next h' =>
      split
      next h'' => exact .inr (.inr (.inl ⟨Nat.le_of_not_lt h', h'', rfl⟩))
      next h'' => exact .inr (.inr (.inr ⟨Nat.le_of_not_lt h'', rfl⟩))

theorem octetsOf_lt (hn : n < 0x110000) : ∀ b ∈ octetsOf n, b < 2 ^ 8 := by
  intro b hb
  rcases octetsOf_cases n with ⟨h, he⟩ | ⟨h, h', he⟩ | ⟨h, h', he⟩ | ⟨h, he⟩ <;>
    rw [he] at hb <;> simp only [List.mem_cons, List.not_mem_nil, or_false] at hb <;> omega

/-- No code point's bytes begin another's. -/
theorem octetsOf_append_inj {x y : List Nat} (h : octetsOf m ++ x = octetsOf n ++ y) :
    m = n ∧ x = y := by
  suffices hmn : m = n by
    subst hmn
    exact ⟨rfl, List.append_cancel_left h⟩
  rcases octetsOf_cases m with ⟨hm, he⟩ | ⟨hm, hm', he⟩ | ⟨hm, hm', he⟩ | ⟨hm, he⟩ <;>
    rcases octetsOf_cases n with ⟨hn, he'⟩ | ⟨hn, hn', he'⟩ | ⟨hn, hn', he'⟩ | ⟨hn, he'⟩ <;>
    rw [he, he'] at h <;> simp only [List.cons_append, List.nil_append, List.cons.injEq] at h <;>
    omega

theorem octetsOf_ne_nil (n : Nat) : octetsOf n ≠ [] := by
  rcases octetsOf_cases n with ⟨-, he⟩ | ⟨-, -, he⟩ | ⟨-, -, he⟩ | ⟨-, he⟩ <;> rw [he] <;>
    exact List.cons_ne_nil _ _

/-- The code points can be read back. -/
theorem flatMap_octetsOf_inj {xs ys : List Nat} (h : xs.flatMap octetsOf = ys.flatMap octetsOf) :
    xs = ys := by
  induction xs generalizing ys with
  | nil =>
    cases ys with
    | nil => rfl
    | cons n ys => exact absurd (List.append_eq_nil_iff.1 h.symm).1 (octetsOf_ne_nil n)
  | cons m xs ih =>
    cases ys with
    | nil => exact absurd (List.append_eq_nil_iff.1 h).1 (octetsOf_ne_nil m)
    | cons n ys =>
      obtain ⟨rfl, hrest⟩ := octetsOf_append_inj h
      rw [ih hrest]

/-- The bytes of a string, as numbers. -/
theorem toNat_utf8 (s : JsString) :
    (utf8 s).map UInt8.toNat = (codePoints s).flatMap octetsOf := by
  rw [utf8_eq, List.map_flatMap]
  apply List.flatMap_congr
  intro n hn
  rw [utf8Of_eq, List.map_map]
  apply (List.map_congr_left fun b hb => ?_).trans (List.map_id _)
  exact Nat.mod_eq_of_lt (octetsOf_lt (codePoints_lt s n hn) b hb)

/-- UTF-8 keeps the code points, and nothing else. -/
theorem utf8_eq_iff {s s' : JsString} : utf8 s = utf8 s' ↔ codePoints s = codePoints s' := by
  constructor
  · intro h
    apply flatMap_octetsOf_inj
    rw [← toNat_utf8, ← toNat_utf8, h]
  · intro h
    rw [utf8_eq, utf8_eq, h]

/-- A smaller code point has smaller bytes, whatever follows. -/
theorem octetsOf_append_lt (h : m < n) (x y : List Nat) : octetsOf m ++ x < octetsOf n ++ y := by
  rcases octetsOf_cases m with ⟨hm, he⟩ | ⟨hm, hm', he⟩ | ⟨hm, hm', he⟩ | ⟨hm, he⟩ <;>
    rcases octetsOf_cases n with ⟨hn, he'⟩ | ⟨hn, hn', he'⟩ | ⟨hn, hn', he'⟩ | ⟨hn, he'⟩ <;>
    rw [he, he'] <;> simp only [List.cons_append, List.nil_append, List.cons_lt_cons_iff] <;>
    generalize (x < y) = P <;>
    omega

theorem flatMap_octetsOf_strictMono : StrictMono fun xs : List Nat => xs.flatMap octetsOf := by
  intro xs
  induction xs with
  | nil =>
    intro ys hlt
    cases ys with
    | nil => exact absurd hlt (lt_irrefl _)
    | cons n ys =>
      obtain ⟨b, bs, hn⟩ := List.exists_cons_of_ne_nil (octetsOf_ne_nil n)
      dsimp only
      rw [List.flatMap_nil, List.flatMap_cons, hn]
      exact List.nil_lt_cons ..
  | cons m xs ih =>
    intro ys hlt
    cases ys with
    | nil => cases hlt
    | cons n ys =>
      rcases List.cons_lt_cons_iff.1 hlt with hmn | ⟨rfl, hrest⟩
      · exact octetsOf_append_lt hmn _ _
      · exact List.append_left_lt (ih hrest)

/-- The order of the bytes is the order of the code points. -/
theorem utf8_lt_iff {s s' : JsString} :
    (utf8 s).map UInt8.toNat < (utf8 s').map UInt8.toNat ↔ codePoints s < codePoints s' := by
  rw [toNat_utf8, toNat_utf8]
  exact flatMap_octetsOf_strictMono.lt_iff_lt

/-- Without surrogates the code units are the code points. -/
theorem codePoints_of_basic {s : JsString} (hs : ∀ u ∈ s, ¬ isHigh u ∧ ¬ isLow u) :
    codePoints s = s.map UInt16.toNat := by
  induction s with
  | nil => rfl
  | cons u s ih =>
    obtain ⟨hu, hl⟩ := hs u List.mem_cons_self
    rw [codePoints_unit hu hl, ih fun v hv => hs v (List.mem_cons_of_mem u hv), List.map_cons]

/-- On well-formed strings UTF-8 is injective. -/
theorem utf8_inj {s s' : JsString} (hs : isWellFormed s = true) (hs' : isWellFormed s' = true)
    (h : utf8 s = utf8 s') : s = s' := by
  rw [← unitsOf_codePoints hs, ← unitsOf_codePoints hs', utf8_eq_iff.1 h]

/-- The code units of a text are well formed. -/
theorem isWellFormed_js (s : String) : isWellFormed (js s) = true := by
  suffices h : ∀ cs : List Char, isWellFormed (js (String.ofList cs)) = true by
    have hs := h s.toList
    rwa [String.ofList_toList] at hs
  intro cs
  induction cs with
  | nil => rfl
  | cons ch cs ih =>
    obtain ⟨hlt, hnot⟩ := toNat_char ch
    rw [js_cons, utf16Of, js, String.toList_singleton, List.flatMap_singleton]
    dsimp only
    have hunit : ∀ n, n < 2 ^ 16 → n.toUInt16.toNat = n := fun n hn => Nat.mod_eq_of_lt hn
    split
    next h =>
      have hch := hunit ch.toNat h
      rw [List.singleton_append, isWellFormed_unit, ih]
      · rw [isHigh, hch]
        omega
      · rw [isLow, hch]
        omega
    next h =>
      rw [List.cons_append, List.singleton_append, isWellFormed_pair, ih]
      · rw [isHigh, hunit _ (by omega)]
        omega
      · rw [isLow, hunit _ (by omega)]
        omega

theorem utf8_js_inj {s s' : String} (h : utf8 (js s) = utf8 (js s')) : s = s' :=
  js_injective (utf8_inj (isWellFormed_js s) (isWellFormed_js s') h)

end Seqscribe
