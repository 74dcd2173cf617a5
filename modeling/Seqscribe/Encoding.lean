import Mathlib.Algebra.Group.Nat.Defs
import Seqscribe.Types

namespace Seqscribe
set_option autoImplicit true

/-- The UTF-16 code units of a string. -/
def js (s : String) : JsString :=
  s.toList.flatMap fun ch =>
    let n := ch.toNat
    if n < 0x10000 then [n.toUInt16]
    else [(0xD800 + (n - 0x10000) / 0x400).toUInt16, (0xDC00 + (n - 0x10000) % 0x400).toUInt16]

/-- The code units of a character. -/
def utf16Of (ch : Char) : JsString := js (String.singleton ch)

theorem toUInt16_inj {m n : Nat} (hm : m < 2 ^ 16) (hn : n < 2 ^ 16)
    (h : m.toUInt16 = n.toUInt16) : m = n := by
  have h := congrArg UInt16.toNat h
  rwa [Nat.toUInt16_eq, Nat.toUInt16_eq, UInt16.toNat_ofNat', UInt16.toNat_ofNat',
    Nat.mod_eq_of_lt hm, Nat.mod_eq_of_lt hn] at h

theorem toNat_char (ch : Char) :
    ch.toNat < 0x110000 ∧ ¬ (0xD800 ≤ ch.toNat ∧ ch.toNat < 0xE000) := by
  rcases ch.valid with h | ⟨h, h'⟩
  · replace h : ch.toNat < 0xD800 := h
    omega
  · replace h : 0xDFFF < ch.toNat := h
    replace h' : ch.toNat < 0x110000 := h'
    omega

/-- No character's code units begin another's. -/
theorem utf16Of_append_inj {ch ch' : Char} {s s' : JsString}
    (h : utf16Of ch ++ s = utf16Of ch' ++ s') : ch = ch' ∧ s = s' := by
  suffices hn : ch.toNat = ch'.toNat by
    obtain rfl := Char.toNat_inj.1 hn
    exact ⟨rfl, List.append_cancel_left h⟩
  have hvalid := toNat_char ch
  have hvalid' := toNat_char ch'
  rw [utf16Of, utf16Of, js, js, String.toList_singleton, String.toList_singleton,
    List.flatMap_singleton, List.flatMap_singleton] at h
  dsimp only at h
  split at h <;> split at h
  · exact toUInt16_inj (by omega) (by omega) (List.cons.inj h).1
  · have := toUInt16_inj (by omega) (by omega) (List.cons.inj h).1
    omega
  · have := toUInt16_inj (by omega) (by omega) (List.cons.inj h).1
    omega
  · obtain ⟨hhigh, hlow⟩ := List.cons.inj h
    have := toUInt16_inj (by omega) (by omega) hhigh
    have := toUInt16_inj (by omega) (by omega) (List.cons.inj hlow).1
    omega

theorem js_cons (ch : Char) (cs : List Char) :
    js (String.ofList (ch :: cs)) = utf16Of ch ++ js (String.ofList cs) := by
  rw [utf16Of, js, js, js, String.toList_ofList, String.toList_ofList, String.toList_singleton,
    List.flatMap_cons, List.flatMap_singleton]

theorem utf16Of_ne_nil (ch : Char) : utf16Of ch ≠ [] := by
  rw [utf16Of, js, String.toList_singleton, List.flatMap_singleton]
  dsimp only
  split <;> exact List.cons_ne_nil _ _

theorem js_injective : Function.Injective js := by
  suffices h : ∀ cs cs' : List Char, js (String.ofList cs) = js (String.ofList cs') → cs = cs' by
    intro s s' heq
    rw [← String.ofList_toList (s := s), ← String.ofList_toList (s := s')] at heq
    exact String.toList_injective (h _ _ heq)
  intro cs
  induction cs with
  | nil =>
    intro cs' heq
    cases cs' with
    | nil => rfl
    | cons ch' cs' =>
      rw [js_cons] at heq
      exact absurd (List.append_eq_nil_iff.1 heq.symm).1 (utf16Of_ne_nil ch')
  | cons ch cs ih =>
    intro cs' heq
    rw [js_cons] at heq
    cases cs' with
    | nil => exact absurd (List.append_eq_nil_iff.1 heq).1 (utf16Of_ne_nil ch)
    | cons ch' cs' =>
      rw [js_cons] at heq
      obtain ⟨rfl, hrest⟩ := utf16Of_append_inj heq
      rw [ih cs' hrest]

def utf8Of (cp : Nat) : List UInt8 :=
  if cp < 0x80 then [cp.toUInt8]
  else if cp < 0x800 then [(0xC0 + cp / 0x40).toUInt8, (0x80 + cp % 0x40).toUInt8]
  else if cp < 0x10000 then
    [(0xE0 + cp / 0x1000).toUInt8, (0x80 + cp / 0x40 % 0x40).toUInt8, (0x80 + cp % 0x40).toUInt8]
  else
    [(0xF0 + cp / 0x40000).toUInt8, (0x80 + cp / 0x1000 % 0x40).toUInt8,
      (0x80 + cp / 0x40 % 0x40).toUInt8, (0x80 + cp % 0x40).toUInt8]

/-- `TextEncoder.encode`: an unpaired surrogate becomes U+FFFD. -/
def utf8 : JsString → List UInt8
  | [] => []
  | u :: rest =>
    let n := u.toNat
    if 0xD800 ≤ n ∧ n < 0xDC00 then
      match rest with
      | [] => utf8Of 0xFFFD
      | v :: rest' =>
        let m := v.toNat
        if 0xDC00 ≤ m ∧ m < 0xE000 then
          utf8Of (0x10000 + (n - 0xD800) * 0x400 + (m - 0xDC00)) ++ utf8 rest'
        else utf8Of 0xFFFD ++ utf8 (v :: rest')
    else if 0xDC00 ≤ n ∧ n < 0xE000 then utf8Of 0xFFFD ++ utf8 rest
    else utf8Of n ++ utf8 rest

def utf8ByteLength (s : JsString) : Nat := (utf8 s).length

def u32be (n : Nat) : List UInt8 :=
  [(n / 0x1000000).toUInt8, (n / 0x10000).toUInt8, (n / 0x100).toUInt8, n.toUInt8]

/-- `F(x) = u32be(len(bytes)) || bytes`. -/
def frame (s : JsString) : List UInt8 := u32be (utf8 s).length ++ utf8 s

/-- `dec` of a safe integer; LogCore hashes validated entries, and `processAppend` makes the
domain check on what it stamps. -/
def dec (n : Nat) : JsString := js (toString n)

def seedOf (env : Env) (topic : Topic) (writer : WriterId) : Chain :=
  env.sha256Hex (frame (js "seqscribe:v1") ++ frame (js topic) ++ frame (js writer))

def causalJson (causal : WriterId × Nat) : JsonValue := .arr [.str (js causal.1), .num causal.2]

def refJson (ref : EntryId) : JsonValue :=
  .arr [.str (js ref.1), .str (js ref.2.1), .num ref.2.2]

def chainOf (env : Env) (prevChain : Chain) (e : LogEntry) : Chain :=
  env.sha256Hex <| List.flatten
    [frame (js prevChain),
      frame (dec e.seq),
      frame (dec e.hlc.l),
      frame (dec e.hlc.c),
      frame e.kind,
      frame (e.key.getD []),
      frame (js (if e.key.isNone then "0" else "1")),
      frame ((e.causal.map fun c => env.jcs (causalJson c)).getD []),
      frame (js (if e.causal.isSome then "1" else "0")),
      frame ((e.ref.map fun r => env.jcs (refJson r)).getD []),
      frame (js (if e.ref.isSome then "1" else "0")),
      frame (env.jcs e.payload)]

def hlcJson (h : Hlc) : JsonValue := .obj [(js "l", .num h.l), (js "c", .num h.c)]

def orderJson (o : Order) : JsonValue :=
  .obj [(js "l", .num o.l), (js "c", .num o.c), (js "writer", .str (js o.writer)),
    (js "seq", .num o.seq)]

/-- A log entry as the JSON value that is canonicalized and sent. -/
def entryJson (e : LogEntry) : JsonValue :=
  .obj <|
    [(js "topic", .str (js e.topic)), (js "writer", .str (js e.writer)), (js "seq", .num e.seq),
      (js "hlc", hlcJson e.hlc), (js "kind", .str e.kind)] ++
    (e.key.map fun k => (js "key", JsonValue.str k)).toList ++
    (e.causal.map fun c => (js "causal", causalJson c)).toList ++
    (e.ref.map fun r => (js "ref", refJson r)).toList ++
    [(js "payload", e.payload), (js "chain", .str (js e.chain))]

def certJson (cert : FinalityCert) : JsonValue :=
  .obj
    [(js "topic", .str (js cert.topic)), (js "order", orderJson cert.order),
      (js "cut", .obj (cert.cut.rows.map fun c =>
        (js c.writer, .obj [(js "seq", .num c.seq), (js "chain", .str (js c.chain))]))),
      (js "generation", .num cert.generation), (js "authority", .str (js cert.authority)),
      (js "sig", .str (js cert.sig))]

end Seqscribe
