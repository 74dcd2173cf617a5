import Seqscribe.Flush
import Seqscribe.Sha256

namespace Seqscribe
set_option autoImplicit true

/-- A string literal of canonical JSON: two-character escapes, then `\u00xx`. -/
def jsonChar (u : UInt16) : JsString :=
  match u.toNat with
  | 8 => js "\\b"
  | 9 => js "\\t"
  | 10 => js "\\n"
  | 12 => js "\\f"
  | 13 => js "\\r"
  | 34 => js "\\\""
  | 92 => js "\\\\"
  | n =>
    if n < 32 then js "\\u00" ++ js (String.ofList [Sha256.hexDigit (n / 16), Sha256.hexDigit (n % 16)])
    else [u]

def jsonString (s : JsString) : JsString := js "\"" ++ s.flatMap jsonChar ++ js "\""

/-- Code units decide the order of the members of an object. -/
def insertMember (m : JsString × JsString) : List (JsString × JsString) → List (JsString × JsString)
  | [] => [m]
  | m' :: rest => if m'.1 < m.1 then m' :: insertMember m rest else m :: m' :: rest

def joined (open_ close : String) (parts : List JsString) : JsString :=
  js open_ ++ (js ",").intercalate parts ++ js close

mutual

/-- Canonical JSON, for numbers that are integers below `10 ^ 21`. -/
def canonicalize : JsonValue → JsString
  | .null => js "null"
  | .bool b => js (if b then "true" else "false")
  | .num x => js (toString x.num)
  | .str s => jsonString s
  | .arr xs => joined "[" "]" (canonicalizeAll xs)
  | .obj members =>
    joined "\x7b" "\x7d" ((canonicalizeMembers members).map fun m => jsonString m.1 ++ js ":" ++ m.2)

def canonicalizeAll : List JsonValue → List JsString
  | [] => []
  | x :: xs => canonicalize x :: canonicalizeAll xs

def canonicalizeMembers : List (JsString × JsonValue) → List (JsString × JsString)
  | [] => []
  | (key, x) :: members => insertMember (key, canonicalize x) (canonicalizeMembers members)

end

/-- A full-sync topic with the whole log kept, under a finality authority. -/
def fullPolicy : TopicPolicy where
  kind := .append
  retention := .full
  replication := .fullSync
  finalityAuthority := some "authority"
  tombstoneKind := none

/-- A node that knows one topic, with SHA-256 and canonical JSON. -/
def hostEnv (writerId : WriterId) : Env where
  sha256Hex := Sha256.hexDigest
  jcs := canonicalize
  constants := {}
  writerId := writerId
  topics := fun T => if T = "t" then some fullPolicy else none

theorem hostEnv_known (writerId : WriterId) : ((hostEnv writerId).topics "t").isSome = true := rfl

/-- An entry with an empty payload on the host's topic. -/
def hostEntry (writer : WriterId) (seq l : Nat) (kind : String) (chain : Chain) : LogEntry where
  topic := "t"
  writer := writer
  seq := seq
  hlc := ⟨l, 0⟩
  kind := js kind
  key := none
  causal := none
  ref := none
  payload := .null
  chain := chain

def hostAppend (self : WriterId) : QueueItem (hostEnv self) :=
  .append { topic := "t", kind := js "k", payload := .null, known := rfl }

def hostExternal (self writer : WriterId) (seq l : Nat) (kind : String) (chain : Chain)
    (valid : (validateEntry (hostEnv self) (hostEntry writer seq l kind chain)).isOk) :
    QueueItem (hostEnv self) :=
  .external { entry := hostEntry writer seq l kind chain, via := none,
              valid := validateEntry_self valid, known := rfl }

/-- The entries that the runs of this development deliver are valid. -/
theorem valid_entries :
    let valid seq kind chain :=
      (validateEntry (hostEnv "b") (hostEntry "w" seq seq kind chain)).isOk = true
    valid 1 "k" "2b9b9a7838c39f166c0015237d70501dc4ea31d32bf5c34ee8c0d5d8bdf67e27" ∧
    valid 2 "k" "33219e2f97e466593b7541683f5ca1825c48d9083647f3ef644bf447606e5ec1" ∧
    valid 3 "k" "6b0a17638ba14784d5c827283d4c210bf9c218585390c079898b7e17ab1dae88" ∧
    valid 2 "j" "811cf080d292756e040183a73dfd30155496edd0322df9ac14d0fac53a354745" ∧
    valid 3 "j" "f920a8b9e7a42f0e6208e7f97481a630563bac961de06497d6f2b732619f25f2" := by
  decide +kernel

theorem valid_first : (validateEntry (hostEnv "b") (hostEntry "w" 1 1 "k"
    "2b9b9a7838c39f166c0015237d70501dc4ea31d32bf5c34ee8c0d5d8bdf67e27")).isOk :=
  valid_entries.1

theorem valid_second : (validateEntry (hostEnv "b") (hostEntry "w" 2 2 "k"
    "33219e2f97e466593b7541683f5ca1825c48d9083647f3ef644bf447606e5ec1")).isOk :=
  valid_entries.2.1

theorem valid_third : (validateEntry (hostEnv "b") (hostEntry "w" 3 3 "k"
    "6b0a17638ba14784d5c827283d4c210bf9c218585390c079898b7e17ab1dae88")).isOk :=
  valid_entries.2.2.1

theorem valid_otherSecond : (validateEntry (hostEnv "b") (hostEntry "w" 2 2 "j"
    "811cf080d292756e040183a73dfd30155496edd0322df9ac14d0fac53a354745")).isOk :=
  valid_entries.2.2.2.1

theorem valid_otherThird : (validateEntry (hostEnv "b") (hostEntry "w" 3 3 "j"
    "f920a8b9e7a42f0e6208e7f97481a630563bac961de06497d6f2b732619f25f2")).isOk :=
  valid_entries.2.2.2.2

/-- A directive of the authority for writer `w`. -/
def hostDirective (state : DirectiveState) (rgen : Nat) (finalSeq : Option Nat)
    (finalChain : Option Chain) : WriterDirective where
  topic := "t"
  writer := "w"
  state := state
  rgen := rgen
  finalSeq := finalSeq
  finalChain := finalChain
  authority := "authority"
  sig := "sig"
  keyOrder := ["topic", "writer", "state", "rgen", "finalSeq", "finalChain", "authority", "sig"]

/-- Items that are flushed at one time. -/
def hostFlush (self : WriterId) (now : Nat) (items : List (QueueItem (hostEnv self))) :
    Input (hostEnv self) :=
  .flush (items.map fun item => ({ now := now }, item)) none

end Seqscribe
