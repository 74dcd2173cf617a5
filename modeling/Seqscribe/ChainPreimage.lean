import Seqscribe.Codec
import Seqscribe.Host
import Seqscribe.Utf8

namespace Seqscribe
set_option autoImplicit true

/-! What the chain of an entry binds. -/

variable {env : Env} {e e' : LogEntry} {prevChain : Chain}

/-- The parts that `chainOf` frames. -/
def chainParts (env : Env) (e : LogEntry) : List JsString :=
  [dec e.seq, dec e.hlc.l, dec e.hlc.c, e.kind, e.key.getD [],
    js (if e.key.isNone then "0" else "1"),
    (e.causal.map fun c => env.jcs (causalJson c)).getD [],
    js (if e.causal.isSome then "1" else "0"),
    (e.ref.map fun r => env.jcs (refJson r)).getD [],
    js (if e.ref.isSome then "1" else "0"),
    env.jcs e.payload]

/-- The bytes that `chainOf` hashes. -/
def chainPreimage (env : Env) (prevChain : Chain) (e : LogEntry) : List UInt8 :=
  (js prevChain :: chainParts env e).flatMap frame

/-- Two byte strings that the hash does not tell apart. -/
def Collide (env : Env) (x y : List UInt8) : Prop := x ≠ y ∧ env.sha256Hex x = env.sha256Hex y

theorem chainOf_eq : chainOf env prevChain e = env.sha256Hex (chainPreimage env prevChain e) := rfl

theorem u32be_inj {m n : Nat} (hm : m < 2 ^ 32) (hn : n < 2 ^ 32) (h : u32be m = u32be n) : m = n := by
  have hbyte : ∀ {a b : Nat}, a.toUInt8 = b.toUInt8 → a % 256 = b % 256 := by
    intro a b hab
    exact congrArg UInt8.toNat hab
  obtain ⟨h₁, h⟩ := List.cons.inj h
  obtain ⟨h₂, h⟩ := List.cons.inj h
  obtain ⟨h₃, h⟩ := List.cons.inj h
  have h₁ := hbyte h₁
  have h₂ := hbyte h₂
  have h₃ := hbyte h₃
  have h₄ := hbyte (List.cons.inj h).1
  omega

theorem frame_append_inj {s s' : JsString} {x y : List UInt8} (hs : utf8ByteLength s < 2 ^ 32)
    (hs' : utf8ByteLength s' < 2 ^ 32) (h : frame s ++ x = frame s' ++ y) :
    utf8 s = utf8 s' ∧ x = y := by
  rw [frame, frame, List.append_assoc, List.append_assoc] at h
  obtain ⟨hlen, hrest⟩ := List.append_inj h rfl
  exact List.append_inj hrest (u32be_inj hs hs' hlen)

/-- As many framed strings can be told apart. -/
theorem flatMap_frame_inj {ss ss' : List JsString} (hlen : ss.length = ss'.length)
    (hs : ∀ s ∈ ss, utf8ByteLength s < 2 ^ 32) (hs' : ∀ s ∈ ss', utf8ByteLength s < 2 ^ 32)
    (h : ss.flatMap frame = ss'.flatMap frame) : ss.map utf8 = ss'.map utf8 := by
  induction ss generalizing ss' with
  | nil =>
    obtain rfl := List.length_eq_zero_iff.1 hlen.symm
    rfl
  | cons s ss ih =>
    cases ss' with
    | nil => cases hlen
    | cons s' ss' =>
      rw [List.forall_mem_cons] at hs hs'
      obtain ⟨hutf8, hrest⟩ := frame_append_inj hs.1 hs'.1 h
      rw [List.map_cons, List.map_cons, hutf8, ih (Nat.succ.inj hlen) hs.2 hs'.2 hrest]

theorem dec_inj {m n : Nat} (h : utf8 (dec m) = utf8 (dec n)) : m = n := by
  have hrepr : m.repr = n.repr := utf8_js_inj h
  have hdigits := congrArg String.toList hrepr
  rw [Nat.toList_repr, Nat.toList_repr] at hdigits
  rw [← Nat.ofDigitChars_ten_toDigits (n := m), hdigits, Nat.ofDigitChars_ten_toDigits]

/-! JSON values, up to the order of members. -/

def insertByKey (m : JsString × JsonValue) : List (JsString × JsonValue) → List (JsString × JsonValue)
  | [] => [m]
  | m' :: rest => if m'.1 < m.1 then m' :: insertByKey m rest else m :: m' :: rest

mutual

/-- A JSON value with the members of its objects in order: two values are the same when these
are. -/
def JsonValue.sorted : JsonValue → JsonValue
  | .null => .null
  | .bool b => .bool b
  | .num x => .num x
  | .str s => .str s
  | .arr xs => .arr (sortedAll xs)
  | .obj members => .obj (sortedMembers members)

def sortedAll : List JsonValue → List JsonValue
  | [] => []
  | x :: xs => x.sorted :: sortedAll xs

def sortedMembers : List (JsString × JsonValue) → List (JsString × JsonValue)
  | [] => []
  | (key, x) :: members => insertByKey (key, x.sorted) (sortedMembers members)

end

/-- The JSON values of an entry that its chain takes in. -/
def LogEntry.hashed (e : LogEntry) : List JsonValue :=
  (e.causal.map causalJson).toList ++ (e.ref.map refJson).toList ++ [e.payload]

/-- What canonical JSON promises of the values of an entry: the text is well formed, the text of an
object has those of its members in it, and that of a string is no shorter than the string. -/
structure Canonicalizes (env : Env) (e : LogEntry) : Prop where
  wellFormed : ∀ v ∈ e.hashed, isWellFormed (env.jcs v) = true
  member : ∀ members, entryJson e = .obj members → ∀ m ∈ members,
    utf8ByteLength (env.jcs m.2) ≤ utf8ByteLength (env.jcs (entryJson e))
  kind : utf8ByteLength e.kind ≤ utf8ByteLength (env.jcs (.str e.kind))

/-- Two entries whose hashed fields agree. -/
structure LogEntry.Agrees (e e' : LogEntry) : Prop where
  seq : e.seq = e'.seq
  hlc : e.hlc = e'.hlc
  kind : e.kind = e'.kind
  key : e.key = e'.key
  causal : e.causal = e'.causal
  ref : e.ref = e'.ref
  payload : e.payload.sorted = e'.payload.sorted

/-- Two entries that differ, but in their kinds or keys only, and there only in surrogates: read as
UTF-8 does, with U+FFFD for an unpaired one, these are the same. -/
structure LogEntry.Blurred (env : Env) (e e' : LogEntry) : Prop where
  seq : e.seq = e'.seq
  hlc : e.hlc = e'.hlc
  kind : codePoints e.kind = codePoints e'.kind
  key : e.key.map codePoints = e'.key.map codePoints
  causal : e.causal = e'.causal
  ref : e.ref = e'.ref
  payload : env.jcs e.payload = env.jcs e'.payload
  differs : e.kind ≠ e'.kind ∨ e.key ≠ e'.key

/-! The frames are shorter than their length fields can say. -/

/-- What the checks of an entry bound. -/
structure LogEntry.Checked (env : Env) (e : LogEntry) : Prop where
  seq : e.seq ≤ MAX_SAFE_INTEGER
  l : e.hlc.l ≤ MAX_SAFE_INTEGER
  c : e.hlc.c ≤ MAX_SAFE_INTEGER
  key : ∀ k, e.key = some k → utf8ByteLength k ≤ MAX_KEY_BYTES
  size : utf8ByteLength (env.jcs (entryJson e)) ≤ env.constants.MAX_ENTRY_BYTES

theorem checked_of_valid (h : (validateEntry env e).isOk = true) : e.Checked env := by
  obtain ⟨_, h, -⟩ := Except.bind_eq_ok (validateEntry_self h)
  obtain ⟨_, _, h⟩ := Except.bind_eq_ok h
  obtain ⟨_, _, h⟩ := Except.bind_eq_ok h
  obtain ⟨_, hseq, h⟩ := Except.bind_eq_ok h
  obtain ⟨_, _, h⟩ := Except.bind_eq_ok h
  obtain ⟨_, hl, h⟩ := Except.bind_eq_ok h
  obtain ⟨_, hc, h⟩ := Except.bind_eq_ok h
  obtain ⟨_, _, h⟩ := Except.bind_eq_ok h
  obtain ⟨_, _, h⟩ := Except.bind_eq_ok h
  obtain ⟨_, hkey, h⟩ := Except.bind_eq_ok h
  obtain ⟨_, _, h⟩ := Except.bind_eq_ok h
  obtain ⟨_, _, h⟩ := Except.bind_eq_ok h
  obtain ⟨_, _, hsize⟩ := Except.bind_eq_ok h
  refine ⟨ensure_ok hseq, ensure_ok hl, ensure_ok hc, fun k hk => ?_, ensure_ok hsize⟩
  rw [hk] at hkey
  exact ensure_ok hkey

theorem utf8ByteLength_le (s : JsString) : utf8ByteLength s ≤ 3 * s.length := by
  have hlen : ∀ n, (utf8Of n).length ≤ 4 ∧ (n < 0x10000 → (utf8Of n).length ≤ 3) := by
    intro n
    rw [utf8Of_eq, List.length_map]
    rcases octetsOf_cases n with ⟨_, he⟩ | ⟨_, _, he⟩ | ⟨_, _, he⟩ | ⟨hn, he⟩ <;> rw [he] <;>
      simp only [List.length_cons, List.length_nil] <;> omega
  rw [utf8ByteLength]
  induction reads s with
  | nil => exact Nat.zero_le _
  | @pair u v s hu hv _ ih =>
    have := (hlen (0x10000 + (u.toNat - 0xD800) * 0x400 + (v.toNat - 0xDC00))).1
    rw [utf8_pair hu hv, List.length_append, List.length_cons, List.length_cons]
    omega
  | high hu hs _ ih =>
    have := (hlen 0xFFFD).2 (by decide)
    rw [utf8_high hu hs, List.length_append, List.length_cons]
    omega
  | low hu hl _ ih =>
    have := (hlen 0xFFFD).2 (by decide)
    rw [utf8_low hu hl, List.length_append, List.length_cons]
    omega
  | @unit u s hu hl _ ih =>
    have := (hlen u.toNat).2 u.toNat_lt
    rw [utf8_unit hu hl, List.length_append, List.length_cons]
    omega

theorem length_js_le (s : String) : (js s).length ≤ 2 * s.toList.length := by
  rw [js, List.length_flatMap]
  induction s.toList with
  | nil => exact Nat.le_refl 0
  | cons ch cs ih =>
    have hone : ∀ ch : Char, (if ch.toNat < 0x10000 then [ch.toNat.toUInt16]
        else [(0xD800 + (ch.toNat - 0x10000) / 0x400).toUInt16,
          (0xDC00 + (ch.toNat - 0x10000) % 0x400).toUInt16]).length ≤ 2 := by
      intro ch
      split <;> simp
    have hch := hone ch
    rw [List.map_cons, List.sum_cons, List.length_cons]
    dsimp only at ih ⊢
    omega

theorem dec_small (hn : n ≤ MAX_SAFE_INTEGER) : utf8ByteLength (dec n) < 2 ^ 32 := by
  have hdigits : n.repr.toList.length ≤ 16 := by
    rw [Nat.toList_repr, Nat.length_toDigits_le_iff (by decide) (by decide)]
    exact Nat.lt_of_le_of_lt hn (by decide)
  have hunits : (dec n).length ≤ 2 * n.repr.toList.length := length_js_le n.repr
  have hbytes := utf8ByteLength_le (dec n)
  omega

theorem chainParts_small (hentry : env.constants.MAX_ENTRY_BYTES < 2 ^ 32)
    (hjcs : Canonicalizes env e) (he : e.Checked env) :
    ∀ s ∈ chainParts env e, utf8ByteLength s < 2 ^ 32 := by
  have hmember : ∀ members, entryJson e = .obj members → ∀ m ∈ members,
      utf8ByteLength (env.jcs m.2) < 2 ^ 32 := by
    intro members hobj m hm
    exact Nat.lt_of_le_of_lt ((hjcs.member members hobj m hm).trans he.size) hentry
  have hin := hmember _ rfl
  have hflag : ∀ b : Bool, utf8ByteLength (js (if b then "0" else "1")) < 2 ^ 32 ∧
      utf8ByteLength (js (if b then "1" else "0")) < 2 ^ 32 := by decide
  have hempty : utf8ByteLength [] < 2 ^ 32 := by decide
  simp only [chainParts, List.forall_mem_cons]
  refine ⟨dec_small he.seq, dec_small he.l, dec_small he.c, ?_, ?_, (hflag _).1, ?_, (hflag _).2, ?_,
    (hflag _).2, ?_, nofun⟩
  · exact Nat.lt_of_le_of_lt hjcs.kind (hin (js "kind", .str e.kind) (by simp))
  · cases hkey : e.key with
    | none => exact hempty
    | some k => exact Nat.lt_of_le_of_lt (he.key k hkey) (by decide)
  · cases hcausal : e.causal with
    | none => exact hempty
    | some c => exact hin (js "causal", causalJson c) (by simp [hcausal])
  · cases href : e.ref with
    | none => exact hempty
    | some r => exact hin (js "ref", refJson r) (by simp [href])
  · exact hin (js "payload", e.payload) (by simp)

/-- Equal preimages have equal parts, as UTF-8 shows them. -/
theorem utf8_chainParts (hs : ∀ s ∈ chainParts env e, utf8ByteLength s < 2 ^ 32)
    (hs' : ∀ s ∈ chainParts env e', utf8ByteLength s < 2 ^ 32)
    (h : chainPreimage env prevChain e = chainPreimage env prevChain e') :
    (chainParts env e).map utf8 = (chainParts env e').map utf8 :=
  flatMap_frame_inj rfl hs hs' (List.append_cancel_left h)

theorem flag_inj {b b' : Bool}
    (h : utf8 (js (if b then "1" else "0")) = utf8 (js (if b' then "1" else "0"))) : b = b' := by
  have htext : ∀ b b' : Bool, (if b then "1" else "0") = (if b' then "1" else "0") → b = b' := by
    decide
  exact htext b b' (utf8_js_inj h)

theorem flag_swap (b : Bool) : (if b then "0" else "1") = if !b then "1" else "0" := by
  cases b <;> rfl

theorem causalJson_inj {c c' : WriterId × Nat}
    (h : (causalJson c).sorted = (causalJson c').sorted) : c = c' := by
  simp only [causalJson, JsonValue.sorted, sortedAll, JsonValue.arr.injEq, List.cons.injEq,
    JsonValue.str.injEq, JsonValue.num.injEq, and_true] at h
  exact Prod.ext (js_injective h.1) (by exact_mod_cast h.2)

theorem refJson_inj {r r' : EntryId} (h : (refJson r).sorted = (refJson r').sorted) : r = r' := by
  simp only [refJson, JsonValue.sorted, sortedAll, JsonValue.arr.injEq, List.cons.injEq,
    JsonValue.str.injEq, JsonValue.num.injEq, and_true] at h
  exact Prod.ext (js_injective h.1) (Prod.ext (js_injective h.2.1) (by exact_mod_cast h.2.2))

section
variable (hinj : ∀ v ∈ e.hashed, ∀ v' ∈ e'.hashed, env.jcs v = env.jcs v' → v.sorted = v'.sorted)
  (hjcs : Canonicalizes env e) (hjcs' : Canonicalizes env e')

include hinj hjcs hjcs'

theorem hashed_inj {v v' : JsonValue} (hv : v ∈ e.hashed) (hv' : v' ∈ e'.hashed)
    (h : utf8 (env.jcs v) = utf8 (env.jcs v')) :
    env.jcs v = env.jcs v' ∧ v.sorted = v'.sorted := by
  have htext := utf8_inj (hjcs.wellFormed v hv) (hjcs'.wellFormed v' hv') h
  exact ⟨htext, hinj v hv v' hv' htext⟩

theorem causal_eq
    (htext : utf8 ((e.causal.map fun c => env.jcs (causalJson c)).getD []) =
      utf8 ((e'.causal.map fun c => env.jcs (causalJson c)).getD []))
    (hflag : e.causal.isSome = e'.causal.isSome) : e.causal = e'.causal := by
  cases hc : e.causal with
  | none =>
    rw [hc] at hflag
    exact (Option.not_isSome_iff_eq_none.1 (by rw [← hflag]; exact Bool.false_ne_true)).symm
  | some c =>
    rw [hc] at hflag
    obtain ⟨c', hc'⟩ := Option.isSome_iff_exists.1 hflag.symm
    rw [hc, hc'] at htext
    have hv : causalJson c ∈ e.hashed := by simp [LogEntry.hashed, hc]
    have hv' : causalJson c' ∈ e'.hashed := by simp [LogEntry.hashed, hc']
    rw [hc', causalJson_inj (hashed_inj hinj hjcs hjcs' hv hv' htext).2]

theorem ref_eq
    (htext : utf8 ((e.ref.map fun r => env.jcs (refJson r)).getD []) =
      utf8 ((e'.ref.map fun r => env.jcs (refJson r)).getD []))
    (hflag : e.ref.isSome = e'.ref.isSome) : e.ref = e'.ref := by
  cases hr : e.ref with
  | none =>
    rw [hr] at hflag
    exact (Option.not_isSome_iff_eq_none.1 (by rw [← hflag]; exact Bool.false_ne_true)).symm
  | some r =>
    rw [hr] at hflag
    obtain ⟨r', hr'⟩ := Option.isSome_iff_exists.1 hflag.symm
    rw [hr, hr'] at htext
    have hv : refJson r ∈ e.hashed := by simp [LogEntry.hashed, hr]
    have hv' : refJson r' ∈ e'.hashed := by simp [LogEntry.hashed, hr']
    rw [hr', refJson_inj (hashed_inj hinj hjcs hjcs' hv hv' htext).2]

/-- Equal preimages leave the entries the same, or blurred. -/
theorem agrees_or_blurred (hparts : (chainParts env e).map utf8 = (chainParts env e').map utf8) :
    e.Agrees e' ∨ e.Blurred env e' := by
  simp only [chainParts, List.map_cons, List.cons.injEq] at hparts
  obtain ⟨hseq, hl, hc, hkind, hkey, hkeyFlag, hcausal, hcausalFlag, href, hrefFlag, hpayload, -⟩ :=
    hparts
  have hhlc : e.hlc = e'.hlc := by
    rw [show e.hlc = ⟨e.hlc.l, e.hlc.c⟩ from rfl, dec_inj hl, dec_inj hc]
  have hcausal := causal_eq hinj hjcs hjcs' hcausal (flag_inj hcausalFlag)
  have href := ref_eq hinj hjcs hjcs' href (flag_inj hrefFlag)
  have hv : e.payload ∈ e.hashed := by simp [LogEntry.hashed]
  have hv' : e'.payload ∈ e'.hashed := by simp [LogEntry.hashed]
  have hpayload := hashed_inj hinj hjcs hjcs' hv hv' hpayload
  have hkeys : e.key.map codePoints = e'.key.map codePoints := by
    rw [flag_swap, flag_swap] at hkeyFlag
    have hflag := flag_inj hkeyFlag
    cases hk : e.key with
    | none =>
      rw [hk] at hflag
      have hnone : e'.key = none := by simpa using hflag.symm
      rw [hnone]
    | some k =>
      rw [hk] at hflag
      have hsome : e'.key.isSome = true := by simpa using hflag.symm
      obtain ⟨k', hk'⟩ := Option.isSome_iff_exists.1 hsome
      rw [hk, hk'] at hkey
      rw [hk']
      exact congrArg some (utf8_eq_iff.1 hkey)
  by_cases hsame : e.kind = e'.kind ∧ e.key = e'.key
  · exact .inl ⟨dec_inj hseq, hhlc, hsame.1, hsame.2, hcausal, href, hpayload.2⟩
  · exact .inr ⟨dec_inj hseq, hhlc, utf8_eq_iff.1 hkind, hkeys, hcausal, href, hpayload.1,
      Decidable.not_and_iff_not_or_not.1 hsame⟩

end

/-- Blurred entries are hashed alike. -/
theorem LogEntry.Blurred.preimage (h : e.Blurred env e') :
    chainPreimage env prevChain e = chainPreimage env prevChain e' := by
  have hframe : ∀ {s s' : JsString}, utf8 s = utf8 s' → frame s = frame s' := by
    intro s s' h
    rw [frame, frame, h]
  have hkind := hframe (utf8_eq_iff.2 h.kind)
  have hkey : frame (e.key.getD []) = frame (e'.key.getD []) ∧ e.key.isNone = e'.key.isNone := by
    have hkeys := h.key
    cases hk : e.key with
    | none =>
      rw [hk] at hkeys
      rw [Option.map_eq_none_iff.1 hkeys.symm]
      exact ⟨rfl, rfl⟩
    | some k =>
      rw [hk] at hkeys
      obtain ⟨k', hk', hpoints⟩ := Option.map_eq_some_iff.1 hkeys.symm
      rw [hk']
      exact ⟨hframe (utf8_eq_iff.2 hpoints.symm), rfl⟩
  simp only [chainPreimage, chainParts, List.flatMap_cons, hkind, hkey.1, hkey.2, h.seq, h.hlc,
    h.causal, h.ref, h.payload]

/-- The chain of an entry binds it, save for what UTF-8 does to unpaired surrogates in its kind and
its key. -/
theorem chain_binds_iff (hentry : env.constants.MAX_ENTRY_BYTES < 2 ^ 32)
    (hvalid : (validateEntry env e).isOk = true) (hvalid' : (validateEntry env e').isOk = true)
    (hjcs : Canonicalizes env e) (hjcs' : Canonicalizes env e')
    (hinj : ∀ v ∈ e.hashed, ∀ v' ∈ e'.hashed,
      env.jcs v = env.jcs v' → v.sorted = v'.sorted) :
    ((chainPreimage env prevChain e = chainPreimage env prevChain e' → e.Agrees e') ↔
      ¬ e.Blurred env e') ∧
    ((∀ d ∈ [e, e'], isWellFormed d.kind = true ∧ ∀ k, d.key = some k → isWellFormed k = true) →
      ¬ e.Blurred env e') := by
  constructor
  · constructor
    · intro hbinds hblurred
      have hagrees := hbinds hblurred.preimage
      rcases hblurred.differs with hne | hne
      · exact hne hagrees.kind
      · exact hne hagrees.key
    · intro hnot heq
      have hparts := utf8_chainParts
        (chainParts_small hentry hjcs (checked_of_valid hvalid))
        (chainParts_small hentry hjcs' (checked_of_valid hvalid')) heq
      exact (agrees_or_blurred hinj hjcs hjcs' hparts).resolve_right hnot
  · intro hwell hblurred
    rw [List.forall_mem_cons, List.forall_mem_singleton] at hwell
    obtain ⟨⟨hkind, hkey⟩, hkind', hkey'⟩ := hwell
    rcases hblurred.differs with hne | hne
    · exact hne (utf8_inj hkind hkind' (utf8_eq_iff.2 hblurred.kind))
    · apply hne
      have hkeys := hblurred.key
      cases hk : e.key with
      | none =>
        rw [hk] at hkeys
        rw [Option.map_eq_none_iff.1 hkeys.symm]
      | some k =>
        rw [hk] at hkeys
        obtain ⟨k', hk', hpoints⟩ := Option.map_eq_some_iff.1 hkeys.symm
        rw [hk', utf8_inj (hkey k hk) (hkey' k' hk') (utf8_eq_iff.2 hpoints.symm)]

def escapeUnit (u : UInt16) : JsString :=
  js "\\u" ++ js (String.ofList [Sha256.hexDigit (u.toNat / 0x1000),
    Sha256.hexDigit (u.toNat / 0x100 % 16), Sha256.hexDigit (u.toNat / 0x10 % 16),
    Sha256.hexDigit (u.toNat % 16)])

/-- Well-formed `JSON.stringify` escapes a surrogate that is unpaired. -/
def escapeUnpaired : JsString → JsString
  | [] => []
  | u :: rest =>
    let n := u.toNat
    if 0xD800 ≤ n ∧ n < 0xDC00 then
      match rest with
      | [] => escapeUnit u
      | v :: rest' =>
        if 0xDC00 ≤ v.toNat ∧ v.toNat < 0xE000 then u :: v :: escapeUnpaired rest'
        else escapeUnit u ++ escapeUnpaired (v :: rest')
    else if 0xDC00 ≤ n ∧ n < 0xE000 then escapeUnit u ++ escapeUnpaired rest
    else u :: escapeUnpaired rest

/-- A host whose canonical JSON is well formed. -/
def escapingEnv : Env := { hostEnv "b" with jcs := fun v => escapeUnpaired (canonicalize v) }

/-- The first entry of a writer, with one code unit as its kind. -/
def unitKind (u : UInt16) : LogEntry := { hostEntry "w" 1 1 "k"
  "2b9b9a7838c39f166c0015237d70501dc4ea31d32bf5c34ee8c0d5d8bdf67e27" with kind := [u] }

theorem unitKind_valid : (validateEntry escapingEnv (unitKind 0xD800)).isOk = true ∧
    (validateEntry escapingEnv (unitKind 0xDFFF)).isOk = true := by
  decide +kernel

theorem unitKind_canonicalizes (u : UInt16) (hu : u = 0xD800 ∨ u = 0xDFFF) :
    Canonicalizes escapingEnv (unitKind u) := by
  have hnull : isWellFormed (escapingEnv.jcs .null) = true := by decide +kernel
  refine ⟨fun v hv => ?_, fun members hobj => ?_, ?_⟩
  · obtain rfl : v = .null := List.mem_singleton.1 hv
    exact hnull
  · obtain rfl := JsonValue.obj.inj hobj
    rcases hu with rfl | rfl <;> decide +kernel
  · rcases hu with rfl | rfl <;> decide +kernel

theorem chain_binds_iff_of_unitKind :
    ((chainPreimage escapingEnv "" (unitKind 0xD800) = chainPreimage escapingEnv "" (unitKind 0xDFFF) →
      (unitKind 0xD800).Agrees (unitKind 0xDFFF)) ↔
      ¬ (unitKind 0xD800).Blurred escapingEnv (unitKind 0xDFFF)) ∧
    ((∀ d ∈ [unitKind 0xD800, unitKind 0xDFFF],
        isWellFormed d.kind = true ∧ ∀ k, d.key = some k → isWellFormed k = true) →
      ¬ (unitKind 0xD800).Blurred escapingEnv (unitKind 0xDFFF)) := by
  apply chain_binds_iff (by decide) unitKind_valid.1 unitKind_valid.2
    (unitKind_canonicalizes _ (.inl rfl)) (unitKind_canonicalizes _ (.inr rfl))
  intro v hv v' hv' _
  obtain rfl : v = .null := List.mem_singleton.1 hv
  obtain rfl : v' = .null := List.mem_singleton.1 hv'
  rfl

/-- Two unpaired surrogates as kinds: both entries are valid, and every chain is the chain of both. -/
theorem unpaired_kinds_collide :
    (validateEntry escapingEnv (unitKind 0xD800)).isOk = true ∧
    (validateEntry escapingEnv (unitKind 0xDFFF)).isOk = true ∧
    (unitKind 0xD800).stream = (unitKind 0xDFFF).stream ∧
    (unitKind 0xD800).kind ≠ (unitKind 0xDFFF).kind ∧
    ∀ prevChain, chainPreimage escapingEnv prevChain (unitKind 0xD800) =
      chainPreimage escapingEnv prevChain (unitKind 0xDFFF) := by
  refine ⟨unitKind_valid.1, unitKind_valid.2, rfl, by decide, fun prevChain => ?_⟩
  have hparts : (chainParts escapingEnv (unitKind 0xD800)).flatMap frame =
      (chainParts escapingEnv (unitKind 0xDFFF)).flatMap frame := by decide +kernel
  rw [chainPreimage, chainPreimage, List.flatMap_cons, List.flatMap_cons, hparts]

end Seqscribe
