import Seqscribe.Encoding
import Seqscribe.Hlc

namespace Seqscribe
set_option autoImplicit true

def MAX_KEY_BYTES : Nat := 512
def RESERVED_NAME : String := "__proto__"

def isLower (ch : Char) : Bool := 'a' ≤ ch ∧ ch ≤ 'z'
def isUpper (ch : Char) : Bool := 'A' ≤ ch ∧ ch ≤ 'Z'
def isDigit (ch : Char) : Bool := '0' ≤ ch ∧ ch ≤ '9'

def matchesAll (s : String) (charter : Char → Bool) (lo hi : Nat) : Bool :=
  s.toList.all charter && decide (lo ≤ s.toList.length) && decide (s.toList.length ≤ hi)

/-- `/^[a-z0-9_.-]{1,128}$/` -/
def TOPIC_RE (s : String) : Bool :=
  matchesAll s (fun ch => isLower ch || isDigit ch || "_.-".toList.contains ch) 1 128

/-- `/^[A-Za-z0-9_.:-]{1,128}$/` -/
def WRITER_RE (s : String) : Bool :=
  matchesAll s
    (fun ch => isUpper ch || isLower ch || isDigit ch || "_.:-".toList.contains ch) 1 128

/-- `/^[0-9a-f]{64}$/` -/
def CHAIN_RE (s : String) : Bool :=
  matchesAll s (fun ch => isDigit ch || ('a' ≤ ch && ch ≤ 'f')) 64 64

def ensure (p : Prop) [Decidable p] (code : ErrCode) (message : String) :
    Except SeqscribeError Unit :=
  if p then .ok () else .error ⟨code, message⟩

def assertTopic (topic : String) : Except SeqscribeError Unit :=
  ensure (TOPIC_RE topic ∧ topic ≠ RESERVED_NAME) .ERR_ENTRY_ENCODING s!"invalid topic: {topic}"

def assertWriter (writer : String) : Except SeqscribeError Unit :=
  ensure (WRITER_RE writer ∧ writer ≠ RESERVED_NAME) .ERR_ENTRY_ENCODING
    s!"invalid writer: {writer}"

def assertNonNegSafeInt (n : Nat) (name : String) : Except SeqscribeError Unit :=
  ensure (n ≤ MAX_SAFE_INTEGER) .ERR_ENTRY_ENCODING
    s!"{name} must be a non-negative safe integer"

def assertKey (key : Key) : Except SeqscribeError Unit :=
  ensure (utf8ByteLength key ≤ MAX_KEY_BYTES) .ERR_ENTRY_ENCODING
    "invalid key (UTF-8 ≤512B required)"

def assertEntrySize (env : Env) (e : LogEntry) : Except SeqscribeError Unit :=
  let bytes := utf8ByteLength (env.jcs (entryJson e))
  ensure (bytes ≤ env.constants.MAX_ENTRY_BYTES) .ERR_ENTRY_TOO_LARGE
    s!"entry is {bytes}B > MAX_ENTRY_BYTES {env.constants.MAX_ENTRY_BYTES}"

/-- A check of an optional field. -/
def ifPresent (check : α → Except SeqscribeError Unit) : Option α → Except SeqscribeError Unit
  | none => .ok ()
  | some a => check a

def assertCausal (causal : WriterId × Nat) : Except SeqscribeError Unit := do
  assertWriter causal.1
  assertNonNegSafeInt causal.2 "causal seq"

def assertRef (ref : EntryId) : Except SeqscribeError Unit := do
  assertTopic ref.1
  assertWriter ref.2.1
  assertNonNegSafeInt ref.2.2 "ref seq"

/-- The checks that a value of type `LogEntry` can still fail, in the source's order. -/
def checkEntry (env : Env) (e : LogEntry) : Except SeqscribeError Unit := do
  assertTopic e.topic
  assertWriter e.writer
  assertNonNegSafeInt e.seq "seq"
  ensure (1 ≤ e.seq) .ERR_ENTRY_ENCODING "seq starts at 1"
  assertNonNegSafeInt e.hlc.l "hlc.l"
  assertNonNegSafeInt e.hlc.c "hlc.c"
  ensure (e.hlc.c < HLC_C_LIMIT) .ERR_ENTRY_ENCODING "hlc.c >= 2^32"
  ensure (e.kind ≠ []) .ERR_ENTRY_ENCODING "missing kind"
  ifPresent assertKey e.key
  ifPresent assertCausal e.causal
  ifPresent assertRef e.ref
  ensure (CHAIN_RE e.chain) .ERR_ENTRY_ENCODING "invalid chain (lowercase hex64 required)"
  assertEntrySize env e

def validateEntry (env : Env) (e : LogEntry) : Except SeqscribeError LogEntry := do
  checkEntry env e
  return e

theorem ensure_ok {p : Prop} [Decidable p] (h : ensure p code message = .ok u) : p := by
  unfold ensure at h
  split at h
  · assumption
  · cases h

theorem Except.bind_eq_ok {x : Except ε α} {f : α → Except ε β} (h : (x >>= f) = .ok b) :
    ∃ a, x = .ok a ∧ f a = .ok b := by
  cases x with
  | error e => cases h
  | ok a => exact ⟨a, rfl, h⟩

theorem andThen_eq_ok {x : Except ε Unit} {y : Except ε Unit} :
    (x >>= fun _ => y) = .ok () ↔ x = .ok () ∧ y = .ok () := by
  cases x with
  | ok _ => exact (and_iff_right rfl).symm
  | error e => exact iff_of_false (fun h => nomatch h) fun h => nomatch h.1

/-- Validation returns the entry itself. -/
theorem validateEntry_self (h : (validateEntry env e).isOk) : validateEntry env e = .ok e := by
  unfold validateEntry at h ⊢
  cases hc : checkEntry env e with
  | error err =>
    rw [hc] at h
    cases h
  | ok u => rfl

/-- A validated entry has a sequence number of at least one. -/
theorem one_le_seq_of_validateEntry (h : validateEntry env e = .ok e') : 1 ≤ e.seq := by
  obtain ⟨_, h, -⟩ := Except.bind_eq_ok h
  obtain ⟨_, _, h⟩ := Except.bind_eq_ok h
  obtain ⟨_, _, h⟩ := Except.bind_eq_ok h
  obtain ⟨_, _, h⟩ := Except.bind_eq_ok h
  obtain ⟨_, hseq, _⟩ := Except.bind_eq_ok h
  exact ensure_ok hseq

end Seqscribe
