import Seqscribe.Store
import Seqscribe.Traces

namespace Seqscribe
set_option autoImplicit true

/-! The reference beacon with a board store: the requests of one account, the load that seeds the
board of an isolate, and the chain of saves. The handler keys everything by account. -/

structure BeaconReport where
  node : WriterId
  at_ : String
  vectors : HaveVectors
  hints : Option (List (Topic × List (Key × WriterId × Nat)))

/-- `Map<string, BeaconReport>`, of a board in memory and of a stored one. An absent map is the
empty one. -/
abbrev BeaconBoard := Table WriterId BeaconReport BeaconReport.node

structure FetchRequest where
  authorization : Option String
  /-- The path is that of the account's vectors. -/
  matched : Bool
  method : String
  /-- `req.json()`, when it is a report with a string `node`. -/
  json : Option BeaconReport

/-- A request that waits for `hydrate`. -/
inductive BeaconRequest where
  | get
  | post (report : BeaconReport)

/-- The checks of the handler before `hydrate`, with the status of a refusal. -/
def FetchRequest.route (token : Option String) (req : FetchRequest) : Except Nat BeaconRequest :=
  if token.any fun t => decide (req.authorization ≠ some s!"Bearer {t}") then .error 401
  else if req.matched = false then .error 404
  else if req.method = "GET" then .ok .get
  else if req.method = "POST" then
    match req.json with
    | some report => .ok (.post report)
    | none => .error 400
  else .error 405

structure BeaconResponse where
  status : Nat
  body : List BeaconReport

/-- `store.load` in flight: the value is that of the moment it is read. -/
inductive BoardLoad where
  | asked
  | read (saved : Option BeaconBoard)

/-- The link of the save chain whose turn it is: the report it was enqueued for, by its place in
the history, and the snapshot. -/
structure BoardSave where
  report : Nat
  snapshot : BeaconBoard
  written : Bool

structure Beacon where
  token : Option String
  board : BeaconBoard
  hydrated : Bool
  hydrating : Option BoardLoad
  /-- Requests that await the load in flight, and requests whose `hydrate` has resolved. -/
  waiting : List BeaconRequest
  resumable : List BeaconRequest
  saveChain : List Nat
  saving : Option BoardSave
  store : Option BeaconBoard
  answers : List BeaconResponse
  -- history: the reports set on a board, those stored at first before all others, and the places
  -- of the reports whose save has succeeded
  taken : List BeaconReport
  kept : List Nat

namespace Beacon

/-- An isolate that has served nothing, over what earlier ones have stored. -/
def init (token : Option String) (stored : Option BeaconBoard) : Beacon where
  token := token
  board := .empty
  hydrated := false
  hydrating := none
  waiting := []
  resumable := []
  saveChain := []
  saving := none
  store := stored
  answers := []
  taken := (stored.getD .empty).rows
  kept := List.range (stored.getD .empty).rows.length

inductive Action where
  | arrive (req : FetchRequest)
  /-- `store.load` reads its value, returns it, or throws. -/
  | loadReads
  | loadReturns
  | loadFails
  /-- A request goes on after `hydrate`. -/
  | resume (i : Nat)
  /-- The next link of the save chain gets its turn; `store.save` writes; it returns, or throws. -/
  | saveStarts
  | saveWrites
  | saveReturns
  | saveFails
  /-- The isolate is gone, and a new one serves the next request. -/
  | evict

/-- `hydrate`, up to its await. -/
def hydrate (s : Beacon) (r : BeaconRequest) : Beacon :=
  if s.hydrated then { s with resumable := s.resumable ++ [r] }
  else { s with
    hydrating := some (s.hydrating.getD .asked)
    waiting := s.waiting ++ [r] }

def arrive (s : Beacon) (req : FetchRequest) : Beacon :=
  match req.route s.token with
  | .error status => { s with answers := s.answers ++ [⟨status, []⟩] }
  | .ok r => s.hydrate r

/-- Merge under what this isolate already accepted. -/
def seed (acct : BeaconBoard) (saved : Option BeaconBoard) : BeaconBoard :=
  (saved.getD .empty).rows.foldl Table.insertIgnore acct

/-- The end of a load, which every request that awaits it resumes at. -/
def loadEnds (s : Beacon) : Beacon :=
  { s with hydrating := none, waiting := [], resumable := s.resumable ++ s.waiting }

/-- What a request does after `hydrate`: a POST then awaits its link of the save chain. -/
def serve (s : Beacon) : BeaconRequest → Beacon
  | .get => { s with answers := s.answers ++ [⟨200, s.board.rows⟩] }
  | .post report => { s with
      board := s.board.upsert report
      saveChain := s.saveChain ++ [s.taken.length]
      taken := s.taken ++ [report] }

/-- The link of the chain resolves either way, and its request is answered. -/
def saveEnds (s : Beacon) : Beacon :=
  { s with saving := none, answers := s.answers ++ [⟨204, []⟩] }

def step (s : Beacon) : Action → Option Beacon
  | .arrive req => some (s.arrive req)
  | .loadReads =>
    match s.hydrating with
    | some .asked => some { s with hydrating := some (.read s.store) }
    | _ => none
  | .loadReturns =>
    match s.hydrating with
    | some (.read saved) => some ({ s with board := seed s.board saved, hydrated := true }).loadEnds
    | _ => none
  | .loadFails =>
    match s.hydrating with
    | some _ => some s.loadEnds
    | none => none
  | .resume i =>
    match s.resumable[i]? with
    | some r => some ({ s with resumable := s.resumable.eraseIdx i }.serve r)
    | none => none
  | .saveStarts =>
    match s.saving, s.saveChain with
    | none, i :: rest => some { s with saveChain := rest, saving := some ⟨i, s.board, false⟩ }
    | _, _ => none
  | .saveWrites =>
    match s.saving with
    | some ⟨i, snapshot, false⟩ =>
      some { s with store := some snapshot, saving := some ⟨i, snapshot, true⟩ }
    | _ => none
  | .saveReturns =>
    match s.saving with
    | some ⟨i, _, true⟩ => some ({ s with kept := s.kept ++ [i] }).saveEnds
    | _ => none
  | .saveFails =>
    match s.saving with
    | some _ => some s.saveEnds
    | none => none
  | .evict => some { s with
      board := .empty, hydrated := false, hydrating := none, waiting := [], resumable := []
      saveChain := [], saving := none }

end Beacon
end Seqscribe
