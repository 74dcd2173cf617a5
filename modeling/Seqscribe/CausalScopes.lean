import Mathlib.Data.List.Basic
import Seqscribe.Encoding

namespace Seqscribe
set_option autoImplicit true

/-! The scopes that register writes stamp in. -/

/-- Member ops stamp in the scope of the member and the reset generation of its key, key-level ops
in that of the key. -/
structure CausalScope where
  topic : Topic
  key : Key
  member : Option JsString
  gen : Nat

namespace CausalScope

def scopeKey (s : CausalScope) : JsString :=
  match s.member with
  | some member =>
    js s.topic ++ 0 :: (s.key ++ 0 :: (js "m" ++ 0 :: (member ++ 0 :: dec s.gen)))
  | none => js s.topic ++ 0 :: s.key

/-- Scopes of the same topic, key and member. -/
structure Same (s s' : CausalScope) : Prop where
  topic : s.topic = s'.topic
  key : s.key = s'.key
  member : s.member = s'.member

/-- Scopes whose strings tell their topics, keys and members apart. -/
def Distinct (S : CausalScope → Prop) : Prop :=
  ∀ s s', S s → S s' → s.scopeKey = s'.scopeKey → s.Same s'

/-- Neither the topic nor the key has the unit that separates them. -/
structure Plain (s : CausalScope) : Prop where
  topic : 0 ∉ js s.topic
  key : 0 ∉ s.key

end CausalScope

/-- A code unit as a character; what is no character by itself gets one of its own. -/
def unitChar (u : UInt16) : Char :=
  if 0xD800 ≤ u.toNat ∧ u.toNat < 0xE000 then Char.ofNat (0x100000 + u.toNat)
  else Char.ofNat u.toNat

/-- A string of code units as text. -/
def unitText (s : JsString) : String := String.ofList (s.map unitChar)

theorem toNat_ofNat {n : Nat} (h : n.isValidChar) : (Char.ofNat n).toNat = n := by
  rw [Char.ofNat, dif_pos h]
  rfl

theorem toNat_unitChar (u : UInt16) : (unitChar u).toNat =
    if 0xD800 ≤ u.toNat ∧ u.toNat < 0xE000 then 0x100000 + u.toNat else u.toNat := by
  have hlt := u.toNat_lt
  rw [unitChar]
  split
  next h => exact toNat_ofNat (.inr ⟨by omega, by omega⟩)
  next h =>
    apply toNat_ofNat
    by_cases hlow : u.toNat < 0xD800
    · exact .inl hlow
    · exact .inr ⟨by omega, by omega⟩

theorem unitChar_injective : Function.Injective unitChar := by
  intro u u' h
  have hlt := u.toNat_lt
  have hlt' := u'.toNat_lt
  have hnat := congrArg Char.toNat h
  rw [toNat_unitChar, toNat_unitChar] at hnat
  apply UInt16.toNat_inj.1
  split at hnat <;> split at hnat <;> omega

theorem unitText_injective : Function.Injective unitText := by
  intro s s' h
  exact List.map_injective_iff.2 unitChar_injective (String.ofList_injective h)

/-- Only the null character has the null unit. -/
theorem zero_notMem_js {s : String} (h : ∀ ch ∈ s.toList, ch.toNat ≠ 0) : 0 ∉ js s := by
  intro hmem
  rw [js, List.mem_flatMap] at hmem
  obtain ⟨ch, hch, hunit⟩ := hmem
  have hvalid := toNat_char ch
  have hpos := h ch hch
  have hzero {n : Nat} (hn : n < 2 ^ 16) (heq : 0 = n.toUInt16) : 0 = n :=
    toUInt16_inj (m := 0) (by decide) hn heq
  dsimp only at hunit
  split at hunit
  next hlt =>
    exact hpos (hzero (by omega) (List.mem_singleton.1 hunit)).symm
  next hge =>
    rcases List.mem_cons.1 hunit with hhigh | hlow
    · have := hzero (by omega) hhigh
      omega
    · have := hzero (by omega) (List.mem_singleton.1 hlow)
      omega

theorem zero_notMem_dec (n : Nat) : 0 ∉ dec n := by
  apply zero_notMem_js
  intro ch hch hzero
  have hdigit : ch.isDigit = true := by
    apply Nat.isDigit_of_mem_toDigits (b := 10) (by decide) (by decide) (n := n)
    rwa [← Nat.toList_repr]
  obtain rfl : ch = Char.ofNat 0 := Char.toNat_inj.1 hzero
  exact absurd hdigit (by decide)

/-- What is up to the first separator, and what is behind it. -/
theorem split_first {a a' x x' : JsString} (ha : 0 ∉ a) (ha' : 0 ∉ a')
    (h : a ++ 0 :: x = a' ++ 0 :: x') : a = a' ∧ x = x' := by
  induction a generalizing a' with
  | nil =>
    cases a' with
    | nil => exact ⟨rfl, (List.cons.inj h).2⟩
    | cons u a' => exact absurd ((List.cons.inj h).1 ▸ List.mem_cons_self) ha'
  | cons u a ih =>
    cases a' with
    | nil => exact absurd ((List.cons.inj h).1 ▸ List.mem_cons_self) ha
    | cons u' a' =>
      obtain ⟨rfl, htail⟩ := List.cons.inj h
      obtain ⟨rfl, hx⟩ := ih (fun hm => ha (List.mem_cons_of_mem u hm))
        (fun hm => ha' (List.mem_cons_of_mem u hm)) htail
      exact ⟨rfl, hx⟩

/-- The same at the last separator. -/
theorem split_last {a a' x x' : JsString} (hx : 0 ∉ x) (hx' : 0 ∉ x')
    (h : a ++ 0 :: x = a' ++ 0 :: x') : a = a' ∧ x = x' := by
  have hrev := congrArg List.reverse h
  simp only [List.reverse_append, List.reverse_cons, List.append_assoc, List.singleton_append]
    at hrev
  obtain ⟨hxs, has⟩ := split_first (fun hm => hx (List.mem_reverse.1 hm))
    (fun hm => hx' (List.mem_reverse.1 hm)) hrev
  exact ⟨List.reverse_injective has, List.reverse_injective hxs⟩

namespace CausalScope

/-- Topics and keys without the separator. -/
theorem distinct_plain : Distinct Plain := by
  intro s s' hs hs' h
  rw [scopeKey, scopeKey] at h
  cases hm : s.member with
  | none =>
    cases hm' : s'.member with
    | none =>
      rw [hm, hm'] at h
      obtain ⟨htopic, hkey⟩ := split_first hs.topic hs'.topic h
      exact ⟨js_injective htopic, hkey, hm.trans hm'.symm⟩
    | some member' =>
      rw [hm, hm'] at h
      obtain ⟨-, hkey⟩ := split_first hs.topic hs'.topic h
      exact absurd (hkey ▸ List.mem_append_right _ List.mem_cons_self) hs.key
  | some member =>
    cases hm' : s'.member with
    | none =>
      rw [hm, hm'] at h
      obtain ⟨-, hkey⟩ := split_first hs.topic hs'.topic h
      exact absurd (hkey ▸ List.mem_append_right _ List.mem_cons_self) hs'.key
    | some member' =>
      rw [hm, hm'] at h
      obtain ⟨htopic, hrest⟩ := split_first hs.topic hs'.topic h
      obtain ⟨hkey, hrest⟩ := split_first hs.key hs'.key hrest
      obtain ⟨-, hrest⟩ := List.append_inj hrest rfl
      obtain ⟨hmember, -⟩ := split_last (zero_notMem_dec _) (zero_notMem_dec _)
        (List.cons.inj hrest).2
      exact ⟨js_injective htopic, hkey, hm.trans ((congrArg some hmember).trans hm'.symm)⟩

end CausalScope

end Seqscribe
