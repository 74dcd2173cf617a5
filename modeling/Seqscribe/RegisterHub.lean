import Seqscribe.Encoding
import Seqscribe.ViewHub

namespace Seqscribe
set_option autoImplicit true

def ANCESTOR_WALK_CAP : Nat := 1024

inductive ConflictPolicy where
  | lww
  | fww
  | resolver
  | owned
  deriving DecidableEq, Repr

structure MemberState where
  present : Bool
  entry : EntryId
  order : Order
  frontier : List EntryId
  superseded : List EntryId

structure RequestState where
  entry : EntryId
  requester : WriterId
  value : JsonValue
  at_ : Hlc
  approvedBy : Option EntryId

structure KeyState where
  value : Option JsonValue
  /-- False once the key holds a member set. -/
  scalar : Bool
  winner : Option EntryId
  winnerOrder : Option Order
  /-- Any string that a payload names. -/
  owner : Option JsString
  resetGen : Nat
  members : Table JsString (JsString × MemberState) Prod.fst
  frontier : List EntryId
  superseded : List EntryId
  requests : List RequestState

def KeyState.fresh : KeyState where
  value := none
  scalar := true
  winner := none
  winnerOrder := none
  owner := none
  resetGen := 0
  members := .empty
  frontier := []
  superseded := []
  requests := []

abbrev Keys := Table Key (Key × KeyState) Prod.fst

def Keys.state (keys : Keys) (key : Key) : KeyState := ((keys.get key).map Prod.snd).getD .fresh

inductive FoldEvent where
  /-- `surfaceConflict` of a key, or of a member of it. -/
  | conflict (key : Key) (member : Option JsString)
  | askOwner (key : Key) (req : RequestState)
  | ownedViolation (e : LogEntry)
  | takeoverInvalid (e : LogEntry)

/-- What the fold reads besides the entry and its topic's log: the conflict policy of each key of
the topic, and the authority's verdict on a takeover. -/
structure RegisterDeps where
  env : Env
  conflictPolicyFor : Key → ConflictPolicy
  verifyTakeover : LogEntry → Bool

/-- `store.getEntry` on the topic. -/
abbrev Lookup := WriterId → Nat → Option LogEntry

def Db.lookup (db : Db) (topic : Topic) : Lookup :=
  fun writer seq => (db.sqLog.get (topic, writer, seq)).map LogRow.entry

/-! JavaScript on the values of a payload. -/

namespace JsonValue

/-- `x.name` of an object literal's own member; the names read here are not inherited. -/
def member (name : String) : JsonValue → Option JsonValue
  | .obj members => (members.find? fun m => decide (m.1 = js name)).map Prod.snd
  | _ => none

mutual
/-- `String(x)`, `none` where it throws: an object with an own `toString` has no primitive. -/
def toJsString (env : Env) : JsonValue → Option JsString
  | .null => some (js "null")
  | .bool b => some (js (if b then "true" else "false"))
  | .num x => some (env.jcs (.num x))
  | .str s => some s
  | .arr xs => (joinStrings env xs).map fun ss => (js ",").intercalate ss
  | .obj members =>
    if members.any fun m => decide (m.1 = js "toString") then none else some (js "[object Object]")
/-- The elements of `Array.prototype.join`, where null is empty. -/
def joinStrings (env : Env) : List JsonValue → Option (List JsString)
  | [] => some []
  | .null :: xs => (joinStrings env xs).map ([] :: ·)
  | x :: xs => do
    let s ← toJsString env x
    let ss ← joinStrings env xs
    return s :: ss
end

/-- The characters of a string, a surrogate pair being one. -/
def codePoints : JsString → List JsString
  | [] => []
  | [u] => [[u]]
  | u :: v :: rest =>
    if 0xD800 ≤ u.toNat ∧ u.toNat < 0xDC00 ∧ 0xDC00 ≤ v.toNat ∧ v.toNat < 0xE000 then
      [u, v] :: codePoints rest
    else [u] :: codePoints (v :: rest)

/-- What `for … of` runs over, `none` where it throws. -/
def iterate : JsonValue → Option (List JsonValue)
  | .arr xs => some xs
  | .str s => some ((codePoints s).map .str)
  | _ => none

/-- `x[i]`, of a value that is not null. -/
def index (i : Nat) : JsonValue → Option JsonValue
  | .arr xs => xs[i]?
  | .str s => s[i]?.map fun u => .str [u]
  | .obj members => (members.find? fun m => decide (m.1 = dec i)).map Prod.snd
  | _ => none

def isStr (s : JsString) : Option JsonValue → Bool
  | some (.str s') => decide (s' = s)
  | _ => false

def isNum (n : Nat) : Option JsonValue → Bool
  | some (.num x) => decide (x = (n : Rat))
  | _ => false

def isNull : JsonValue → Bool
  | .null => true
  | _ => false

/-- `Boolean(x)`, of a value that may be undefined. -/
def truthy : Option JsonValue → Bool
  | none | some .null => false
  | some (.bool b) => b
  | some (.num x) => decide (x ≠ 0)
  | some (.str s) => decide (s ≠ [])
  | some (.arr _) | some (.obj _) => true

end JsonValue

/-- `a ?? b`. -/
def JsonValue.orElse (x : Option JsonValue) (b : JsonValue) : JsonValue :=
  match x with
  | none | some .null => b
  | some v => v

/-- `sameId(h, s)` with an element of a payload. -/
def sameIdJson (h : EntryId) (s : JsonValue) : Bool :=
  JsonValue.isStr (js h.1) (s.index 0) && JsonValue.isStr (js h.2.1) (s.index 1) &&
    JsonValue.isNum h.2.2 (s.index 2)

/-- Walk the causal chain of an entry, looking for `a`. -/
def ancestorWalk (lookup : Lookup) (a : EntryId) : Nat → Option LogEntry → Bool
  | 0, _ => false
  | _ + 1, none => false
  | hops + 1, some cur =>
    match cur.causal with
    | none => false
    | some c =>
      if c.1 = a.2.1 ∧ c.2 = a.2.2 then true else ancestorWalk lookup a hops (lookup c.1 c.2)

def isAncestor (lookup : Lookup) (a : EntryId) (e : LogEntry) : Bool :=
  ancestorWalk lookup a ANCESTOR_WALK_CAP (some e)

/-- The loop of `applySupersedes`; what it has done remains when an element throws. -/
def applySupersedes (frontier superseded : List EntryId) :
    List JsonValue → Except (List EntryId × List EntryId) (List EntryId × List EntryId)
  | [] => .ok (frontier, superseded)
  | s :: ids =>
    if s.isNull ∧ frontier ≠ [] then .error (frontier, superseded)
    else
      match frontier.findIdx? (sameIdJson · s) with
      | some idx =>
        applySupersedes (frontier.eraseIdx idx) (superseded ++ (frontier[idx]?).toList) ids
      | none => applySupersedes frontier superseded ids

section
variable (d : RegisterDeps) (lookup : Lookup)

/-- The heads that an entry does not supersede, and the entry. -/
def newFrontier (frontier : List EntryId) (e : LogEntry) : List EntryId :=
  (frontier.filter fun h => !isAncestor lookup h e && !decide (h = e.id)) ++ [e.id]

def foldKeyWrite (ks : KeyState) (key : Key) (e : LogEntry) (policy : ConflictPolicy)
    (value : Option JsonValue) (isDel : Bool) : KeyState × List FoldEvent :=
  let prevWinner := ks.winner
  let adopt : Bool :=
    match ks.winner, ks.winnerOrder with
    | some winner, some winnerOrder =>
      if policy = .fww then isAncestor lookup winner e
      else decide (orderCompare (orderOf e) winnerOrder > 0)
    | _, _ => true
  let ks := { ks with frontier := newFrontier lookup ks.frontier e }
  let ks :=
    if adopt then
      { ks with
        winner := some e.id
        winnerOrder := some (orderOf e)
        value := if isDel then none else value.orElse fun _ => ks.value }
    else ks
  let surfaced := prevWinner.any fun w => decide (ks.frontier.length > 1) && !isAncestor lookup w e
  (ks, if surfaced then [.conflict key none] else [])

def KeyState.setMember (ks : KeyState) (member : JsString) (ms : MemberState) : KeyState :=
  { ks with members := ks.members.upsert (member, ms) }

def KeyState.member (ks : KeyState) (member : JsString) : Option MemberState :=
  (ks.members.get member).map Prod.snd

def foldMemberOp (ks : KeyState) (key : Key) (e : LogEntry) (policy : ConflictPolicy)
    (member : JsString) (present : Bool) : KeyState × List FoldEvent :=
  -- the key-level winner tracks the latest effective op on the key
  let ks :=
    if ks.winnerOrder.all fun o => decide (orderCompare (orderOf e) o > 0) then
      { ks with winner := some e.id, winnerOrder := some (orderOf e) }
    else ks
  match ks.member member with
  | none => (ks.setMember member ⟨present, e.id, orderOf e, [e.id], []⟩, [])
  | some ms =>
    let adopt : Bool :=
      if policy = .fww then isAncestor lookup ms.entry e
      else decide (orderCompare (orderOf e) ms.order > 0)
    let frontier := newFrontier lookup ms.frontier e
    let ms' : MemberState :=
      if adopt then
        { ms with present := present, entry := e.id, order := orderOf e, frontier := frontier }
      else { ms with frontier := frontier }
    (ks.setMember member ms',
      if decide (frontier.length > 1) && !isAncestor lookup ms.entry e then
        [.conflict key (some member)]
      else [])

def ownedWriteAllowed (ks : KeyState) (e : LogEntry) : Bool :=
  ks.owner.all fun owner => decide (owner = js e.writer)

def markApproved (ks : KeyState) (ref approver : EntryId) : KeyState :=
  { ks with requests :=
      match ks.requests.findIdx? fun r => decide (r.entry = ref) with
      | some i => ks.requests.modify i fun r => { r with approvedBy := some approver }
      | none => ks.requests }

/-- `ks.owner = e.writer`, under `owned`, of a key without an owner. -/
def claimOwner (ks : KeyState) (e : LogEntry) (policy : ConflictPolicy) : KeyState :=
  if policy = .owned ∧ ks.owner = none then { ks with owner := some (js e.writer) } else ks

/-- A reset epoch: the members go. -/
def KeyState.reset (ks : KeyState) : KeyState :=
  { ks with members := .empty, resetGen := ks.resetGen + 1, scalar := true }

/-- A member op on a scalar-valued key clears the scalar. -/
def KeyState.mirror (ks : KeyState) : KeyState :=
  if ks.scalar ∧ ks.value.isSome then
    { ks with value := none, resetGen := ks.resetGen + 1, scalar := false }
  else { ks with scalar := false }

inductive OpKind where
  | request
  | chown
  | chownTakeover
  | set
  | del
  | resolve
  | add
  | remove
  | resolveMember
  | other
  deriving DecidableEq, Repr

def opKind (kind : JsString) : OpKind :=
  if kind = js "request" then .request
  else if kind = js "chown" then .chown
  else if kind = js "chown-takeover" then .chownTakeover
  else if kind = js "set" then .set
  else if kind = js "del" then .del
  else if kind = js "resolve" then .resolve
  else if kind = js "add" then .add
  else if kind = js "remove" then .remove
  else if kind = js "resolve-member" then .resolveMember
  else .other

/-- `String(payload.name ?? "")`. -/
def payloadString (e : LogEntry) (name : String) : Option JsString :=
  (JsonValue.orElse (e.payload.member name) (.str [])).toJsString d.env

/-- The ids of `payload.supersedes ?? []`. -/
def payloadSupersedes (e : LogEntry) : Option (List JsonValue) :=
  (JsonValue.orElse (e.payload.member "supersedes") (.arr [])).iterate

/-- A fold step of one key: the state it leaves, thrown when it throws. -/
abbrev FoldM := Except KeyState (KeyState × List FoldEvent)

def foldRequest (ks : KeyState) (key : Key) (e : LogEntry) : FoldM :=
  let req : RequestState :=
    { entry := e.id, requester := e.writer
      value := JsonValue.orElse (e.payload.member "value") .null, at_ := e.hlc, approvedBy := none }
  .ok ({ ks with requests := ks.requests ++ [req] }, [.askOwner key req])

def setOwner (ks : KeyState) (e : LogEntry) : FoldM :=
  match payloadString d e "newOwner" with
  | none => .error ks
  | some owner => .ok ({ ks with owner := some owner }, [])

def foldChown (ks : KeyState) (e : LogEntry) : FoldM :=
  if ownedWriteAllowed ks e then setOwner d ks e else .ok (ks, [.ownedViolation e])

def foldTakeover (ks : KeyState) (e : LogEntry) : FoldM :=
  if d.verifyTakeover e then setOwner d ks e else .ok (ks, [.takeoverInvalid e])

def foldSet (ks : KeyState) (key : Key) (e : LogEntry) (policy : ConflictPolicy) : FoldM :=
  if policy = .owned ∧ ¬ ownedWriteAllowed ks e then .ok (ks, [.ownedViolation e])
  else
    let ks := if ks.scalar then ks else ks.reset
    let (ks, events) := foldKeyWrite lookup ks key e policy (e.payload.member "value") false
    let ks :=
      match e.ref with
      | some ref => markApproved ks ref e.id
      | none => ks
    .ok (claimOwner ks e policy, events)

def foldDel (ks : KeyState) (key : Key) (e : LogEntry) (policy : ConflictPolicy) : FoldM :=
  if policy = .owned ∧ ¬ ownedWriteAllowed ks e then .ok (ks, [.ownedViolation e])
  else
    let (ks, events) := foldKeyWrite lookup ks.reset key e policy none true
    .ok (claimOwner ks e policy, events)

def foldResolve (ks : KeyState) (key : Key) (e : LogEntry) (policy : ConflictPolicy) : FoldM :=
  match payloadSupersedes e with
  | none => .error ks
  | some ids =>
    match applySupersedes ks.frontier ks.superseded ids with
    | .error (frontier, superseded) =>
      .error { ks with frontier := frontier, superseded := superseded }
    | .ok (frontier, superseded) =>
      .ok (foldKeyWrite lookup { ks with frontier := frontier, superseded := superseded } key e
        policy (e.payload.member "value") false)

/-- `add` and `remove`. -/
def foldMember (ks : KeyState) (key : Key) (e : LogEntry) (policy : ConflictPolicy)
    (present : Bool) : FoldM :=
  if policy = .owned ∧ ¬ ownedWriteAllowed ks e then .ok (ks, [.ownedViolation e])
  else
    match payloadString d e "member" with
    | none => .error ks.mirror
    | some member =>
      let (ks, events) := foldMemberOp lookup ks.mirror key e policy member present
      .ok (claimOwner ks e policy, events)

def foldResolveMember (ks : KeyState) (key : Key) (e : LogEntry) (policy : ConflictPolicy) :
    FoldM :=
  match payloadString d e "member" with
  | none => .error ks
  | some member =>
    let present := JsonValue.truthy (e.payload.member "present")
    match ks.member member with
    | none => .ok (foldMemberOp lookup ks key e policy member present)
    | some ms =>
      match payloadSupersedes e with
      | none => .error ks
      | some ids =>
        match applySupersedes ms.frontier ms.superseded ids with
        | .error (frontier, superseded) =>
          .error (ks.setMember member { ms with frontier := frontier, superseded := superseded })
        | .ok (frontier, superseded) =>
          let ks := ks.setMember member { ms with frontier := frontier, superseded := superseded }
          .ok (foldMemberOp lookup ks key e policy member present)

def foldKey (ks : KeyState) (key : Key) (e : LogEntry) : FoldM :=
  let policy := d.conflictPolicyFor key
  match opKind e.kind with
  | .request => foldRequest ks key e
  | .chown => foldChown d ks e
  | .chownTakeover => foldTakeover d ks e
  | .set => foldSet lookup ks key e policy
  | .del => foldDel lookup ks key e policy
  | .resolve => foldResolve lookup ks key e policy
  | .add => foldMember d lookup ks key e policy true
  | .remove => foldMember d lookup ks key e policy false
  | .resolveMember => foldResolveMember d lookup ks key e policy
  | .other => .ok (ks, [])

/-- `fold` on the key states. -/
def foldRegister (keys : Keys) (e : LogEntry) : Except Keys (Keys × List FoldEvent) :=
  match e.key with
  | none => .ok (keys, [])
  | some key =>
    match foldKey d lookup (keys.state key) key e with
    | .ok (ks, events) => .ok (keys.upsert (key, ks), events)
    | .error ks => .error (keys.upsert (key, ks))

end

end Seqscribe
