import Mathlib.Data.List.DropRight
import Seqscribe.Encoding

namespace Seqscribe
set_option autoImplicit true

/-! Base64, of bytes and of the code units of its text. -/

def B64 : JsString := js "ABCDEFGHIJKLMNOPQRSTUVWXYZabcdefghijklmnopqrstuvwxyz0123456789+/"

def PAD : UInt16 := 61

def B64_CODES (n : Nat) : UInt16 := B64.getD n 0

/-- An unknown character stands for 0. -/
def B64_REV (u : UInt16) : Nat := if u ∈ B64 then B64.idxOf u else 0

def b64encode : List UInt8 → JsString
  | a :: b :: c :: bytes =>
    let x := a.toNat <<< 16 ||| b.toNat <<< 8 ||| c.toNat
    B64_CODES (x >>> 18) :: B64_CODES ((x >>> 12) &&& 63) :: B64_CODES ((x >>> 6) &&& 63) ::
      B64_CODES (x &&& 63) :: b64encode bytes
  | [a, b] =>
    [B64_CODES (a.toNat >>> 2), B64_CODES ((a.toNat &&& 3) <<< 4 ||| b.toNat >>> 4),
      B64_CODES ((b.toNat &&& 15) <<< 2), PAD]
  | [a] => [B64_CODES (a.toNat >>> 2), B64_CODES ((a.toNat &&& 3) <<< 4 ||| 0 >>> 4), PAD, PAD]
  | [] => []

/-- The three bytes of four sextets. -/
def b64group (p q r s : Nat) : List UInt8 :=
  let n := p <<< 18 ||| q <<< 12 ||| r <<< 6 ||| s
  [((n >>> 16) &&& 0xff).toUInt8, ((n >>> 8) &&& 0xff).toUInt8, (n &&& 0xff).toUInt8]

/-- The loop of the decoder: what stands past the end counts as 0. -/
def b64groups : List Nat → List UInt8
  | p :: q :: r :: s :: sextets => b64group p q r s ++ b64groups sextets
  | [p, q, r] => b64group p q r 0
  | [p, q] => b64group p q 0 0
  | [p] => b64group p 0 0 0
  | [] => []

def b64decode (s : JsString) : List UInt8 :=
  let body := s.rdropWhile fun u => decide (u = PAD)
  (b64groups (body.map B64_REV)).take (body.length * 3 / 4)

theorem length_b64encode (bytes : List UInt8) :
    (b64encode bytes).length = (bytes.length + 2) / 3 * 4 := by
  induction bytes using b64encode.induct with
  | case1 a b c bytes ih =>
    simp only [b64encode, List.length_cons, ih]
    omega
  | case2 => simp [b64encode]
  | case3 => simp [b64encode]
  | case4 => simp [b64encode]

theorem codes_spec : ∀ n < 64, B64_REV (B64_CODES n) = n ∧ B64_CODES n ≠ PAD := by decide +kernel

theorem B64_REV_CODES (hn : n < 64) : B64_REV (B64_CODES n) = n := (codes_spec n hn).1

theorem B64_CODES_ne_PAD (hn : n < 64) : B64_CODES n ≠ PAD := (codes_spec n hn).2

/-- Two parts of a number that do not overlap. -/
theorem or_of_lt (a : Nat) (hb : b < 2 ^ i) : a <<< i ||| b = a * 2 ^ i + b := by
  rw [← Nat.shiftLeft_add_eq_or_of_lt hb, Nat.shiftLeft_eq]

theorem and_63 (n : Nat) : n &&& 63 = n % 64 := Nat.and_two_pow_sub_one_eq_mod n 6

theorem and_255 (n : Nat) : n &&& 0xff = n % 256 := Nat.and_two_pow_sub_one_eq_mod n 8

/-- Three bytes as one number. -/
theorem bytes_or (a b c : UInt8) :
    a.toNat <<< 16 ||| b.toNat <<< 8 ||| c.toNat = (a.toNat * 256 + b.toNat) * 256 + c.toNat := by
  have hb := b.toNat_lt
  have hc := c.toNat_lt
  have hbc : b.toNat <<< 8 ||| c.toNat = b.toNat * 2 ^ 8 + c.toNat := or_of_lt _ hc
  rw [Nat.or_assoc, hbc, or_of_lt _ (by omega)]
  omega

/-- Four sextets as one number. -/
theorem sextets_or (hq : q < 64) (hr : r < 64) (hs : s < 64) :
    p <<< 18 ||| q <<< 12 ||| r <<< 6 ||| s = ((p * 64 + q) * 64 + r) * 64 + s := by
  have hrs : r <<< 6 ||| s = r * 2 ^ 6 + s := or_of_lt _ hs
  have hqrs : q <<< 12 ||| (r * 2 ^ 6 + s) = q * 2 ^ 12 + (r * 2 ^ 6 + s) := or_of_lt _ (by omega)
  rw [Nat.or_assoc, Nat.or_assoc, hrs, hqrs, or_of_lt _ (by omega)]
  omega

theorem b64group_eq (hq : q < 64) (hr : r < 64) (hs : s < 64)
    (hn : ((p * 64 + q) * 64 + r) * 64 + s = (a.toNat * 256 + b.toNat) * 256 + c.toNat) :
    b64group p q r s = [a, b, c] := by
  have ha := a.toNat_lt
  have hb := b.toNat_lt
  have hc := c.toNat_lt
  have hbyte : ∀ (u : UInt8) (n : Nat), n % 256 = u.toNat → (n % 256).toUInt8 = u := by
    intro u n h
    rw [h]
    exact UInt8.ofNat_toNat
  rw [b64group, sextets_or hq hr hs, hn]
  simp only [and_255, Nat.shiftRight_eq_div_pow]
  rw [hbyte a _ (by omega), hbyte b _ (by omega), hbyte c _ (by omega)]

/-- What the text of bytes stands for, without the padding. -/
def sextets : List UInt8 → List Nat
  | a :: b :: c :: bytes =>
    let x := (a.toNat * 256 + b.toNat) * 256 + c.toNat
    x / 2 ^ 18 :: x / 2 ^ 12 % 64 :: x / 2 ^ 6 % 64 :: x % 64 :: sextets bytes
  | [a, b] => [a.toNat / 4, a.toNat % 4 * 16 + b.toNat / 16, b.toNat % 16 * 4]
  | [a] => [a.toNat / 4, a.toNat % 4 * 16]
  | [] => []

theorem sextets_lt (bytes : List UInt8) : ∀ n ∈ sextets bytes, n < 64 := by
  induction bytes using sextets.induct with
  | case1 a b c bytes ih =>
    have ha := a.toNat_lt
    have hb := b.toNat_lt
    have hc := c.toNat_lt
    simp only [sextets, List.forall_mem_cons]
    exact ⟨by omega, by omega, by omega, by omega, ih⟩
  | case2 a b =>
    have ha := a.toNat_lt
    have hb := b.toNat_lt
    simp only [sextets, List.forall_mem_cons]
    exact ⟨by omega, by omega, by omega, nofun⟩
  | case3 a =>
    have ha := a.toNat_lt
    simp only [sextets, List.forall_mem_cons]
    exact ⟨by omega, by omega, nofun⟩
  | case4 => exact nofun

theorem b64encode_eq (bytes : List UInt8) : ∃ n,
    b64encode bytes = (sextets bytes).map B64_CODES ++ List.replicate n PAD := by
  induction bytes using b64encode.induct with
  | case1 a b c bytes ih =>
    obtain ⟨n, ih⟩ := ih
    refine ⟨n, ?_⟩
    simp only [b64encode, sextets, bytes_or, and_63, Nat.shiftRight_eq_div_pow, List.map_cons,
      List.cons_append, ih]
  | case2 a b =>
    refine ⟨1, ?_⟩
    have hb := b.toNat_lt
    have h3 : a.toNat &&& 3 = a.toNat % 4 := Nat.and_two_pow_sub_one_eq_mod _ 2
    have h15 : b.toNat &&& 15 = b.toNat % 16 := Nat.and_two_pow_sub_one_eq_mod _ 4
    have h : (a.toNat % 4) <<< 4 ||| b.toNat / 2 ^ 4 = a.toNat % 4 * 2 ^ 4 + b.toNat / 2 ^ 4 :=
      or_of_lt _ (by omega)
    rw [b64encode, h3, h15, Nat.shiftRight_eq_div_pow, Nat.shiftRight_eq_div_pow, h,
      Nat.shiftLeft_eq]
    rfl
  | case3 a =>
    refine ⟨2, ?_⟩
    have h3 : a.toNat &&& 3 = a.toNat % 4 := Nat.and_two_pow_sub_one_eq_mod _ 2
    have h : (a.toNat % 4) <<< 4 ||| 0 >>> 4 = a.toNat % 4 * 2 ^ 4 := or_of_lt _ (by decide)
    rw [b64encode, h3, h, Nat.shiftRight_eq_div_pow]
    rfl
  | case4 => exact ⟨0, rfl⟩

/-- The padding goes, and nothing else. -/
theorem rdropWhile_pad {s : JsString} (hs : ∀ u ∈ s, u ≠ PAD) (n : Nat) :
    (s ++ List.replicate n PAD).rdropWhile (fun u => decide (u = PAD)) = s := by
  induction n with
  | zero =>
    rw [List.replicate_zero, List.append_nil, List.rdropWhile_eq_self_iff]
    intro hne
    simpa using hs _ (List.getLast_mem hne)
  | succ n ih =>
    rw [List.replicate_succ', ← List.append_assoc, List.rdropWhile_concat_pos _ _ _ (by simp), ih]

theorem b64groups_sextets (bytes : List UInt8) :
    (b64groups (sextets bytes)).take ((sextets bytes).length * 3 / 4) = bytes := by
  induction bytes using sextets.induct with
  | case1 a b c bytes ih =>
    have hgroup : b64group (((a.toNat * 256 + b.toNat) * 256 + c.toNat) / 2 ^ 18)
        (((a.toNat * 256 + b.toNat) * 256 + c.toNat) / 2 ^ 12 % 64)
        (((a.toNat * 256 + b.toNat) * 256 + c.toNat) / 2 ^ 6 % 64)
        (((a.toNat * 256 + b.toNat) * 256 + c.toNat) % 64) = [a, b, c] :=
      b64group_eq (by omega) (by omega) (by omega) (by omega)
    have hlength : ((sextets bytes).length + 1 + 1 + 1 + 1) * 3 / 4 =
        (sextets bytes).length * 3 / 4 + 1 + 1 + 1 := by omega
    simp only [sextets, b64groups, hgroup, List.length_cons, hlength, List.cons_append,
      List.nil_append, List.take_succ_cons, ih]
  | case2 a b =>
    have hb := b.toNat_lt
    have hgroup : b64group (a.toNat / 4) (a.toNat % 4 * 16 + b.toNat / 16) (b.toNat % 16 * 4) 0 =
        [a, b, 0] := by
      apply b64group_eq (by omega) (by omega) (by omega)
      have hc : (0 : UInt8).toNat = 0 := rfl
      omega
    simp [sextets, b64groups, hgroup]
  | case3 a =>
    have hgroup : b64group (a.toNat / 4) (a.toNat % 4 * 16) 0 0 = [a, 0, 0] := by
      apply b64group_eq (by omega) (by omega) (by omega)
      have hc : (0 : UInt8).toNat = 0 := rfl
      omega
    simp [sextets, b64groups, hgroup]
  | case4 => rfl

theorem b64decode_b64encode (bytes : List UInt8) : b64decode (b64encode bytes) = bytes := by
  obtain ⟨n, h⟩ := b64encode_eq bytes
  have hpad : ∀ u ∈ (sextets bytes).map B64_CODES, u ≠ PAD := by
    intro u hu
    obtain ⟨k, hk, rfl⟩ := List.mem_map.1 hu
    exact B64_CODES_ne_PAD (sextets_lt bytes k hk)
  have hrev : ((sextets bytes).map B64_CODES).map B64_REV = sextets bytes := by
    rw [List.map_map]
    exact (List.map_congr_left fun k hk => B64_REV_CODES (sextets_lt bytes k hk)).trans (List.map_id _)
  rw [b64decode, h, rdropWhile_pad hpad, hrev, List.length_map]
  exact b64groups_sextets bytes

end Seqscribe
