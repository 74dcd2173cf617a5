import Seqscribe.RegisterSnapshot

namespace Seqscribe
set_option autoImplicit true

/-! The materialize pass of a register topic. It awaits after every entry that it folds, and
anything may happen at an await. -/

inductive Pass where
  | idle
  /-- The rest of a batch, and its last rowid. -/
  | forward (todo : List LogEntry) (lastRowid : Nat)
  /-- The rest of a batch of a refold. -/
  | refold (todo : List LogEntry)

structure RegisterBase where
  keys : Keys
  ord : Order

/-- The store and the state of one register topic. -/
structure RegisterHub where
  db : Db
  keys : Keys
  ord : Option Order
  lastRowid : Nat
  base : Option RegisterBase
  pass : Pass

namespace RegisterHub

variable (d : RegisterDeps) (topic : Topic)

def empty : RegisterHub := ⟨.empty, .empty, none, 0, none, .idle⟩

def newRows (h : RegisterHub) : List LogRow :=
  h.db.entriesForTopicFromRowid topic h.lastRowid FOLD_BATCH

def newBatch (h : RegisterHub) : List LogEntry := h.db.batchFrom topic h.lastRowid

/-- The next read of a refold, whose cursor is the topic's position. -/
def readOn (h : RegisterHub) : RegisterHub :=
  match h.db.entriesAfterOrder topic h.ord FOLD_BATCH with
  | [] => { h with lastRowid := h.db.maxRowid topic, pass := .idle }
  | es => { h with pass := .refold es }

/-- A late arrival: refold in total order from the base floor, or from empty. -/
def startRefold (h : RegisterHub) : RegisterHub :=
  match h.base with
  | some base => readOn topic { h with keys := base.keys, ord := some base.ord }
  | none => readOn topic { h with keys := .empty, ord := none }

/-- The head of the loop of `materialize`. -/
def loopHead (h : RegisterHub) : RegisterHub :=
  match (h.newBatch topic).head?, (h.newRows topic).getLast? with
  | some first, some last =>
    if h.ord.any fun ord => decide (orderCompare (orderOf first) ord ≤ 0) then
      startRefold topic h
    else { h with pass := .forward (h.newBatch topic) last.rowid }
  | _, _ => { h with pass := .idle }

/-- `materialize`, which leaves a running pass alone. -/
def start (h : RegisterHub) : RegisterHub :=
  match h.pass with
  | .idle => loopHead topic h
  | _ => h

/-- One entry: `fold`, which throws what it leaves. -/
def foldOne (h : RegisterHub) (e : LogEntry) : Except RegisterHub RegisterHub :=
  match foldRegister d (h.db.lookup topic) h.keys e with
  | .ok (keys, _) => .ok { h with keys := keys, ord := some (orderOf e) }
  -- the pass is rejected; its `finally` lets the next one start
  | .error keys => .error { h with keys := keys, ord := some (orderOf e), pass := .idle }

/-- From one await of the pass to the next. -/
def resume (h : RegisterHub) : Except RegisterHub RegisterHub :=
  match h.pass with
  | .idle => .ok h
  | .forward [] last => .ok (loopHead topic { h with lastRowid := last })
  | .forward (e :: todo) last => do
    let h ← foldOne d topic h e
    return if todo.isEmpty then loopHead topic { h with lastRowid := last }
      else { h with pass := .forward todo last }
  | .refold [] => .ok (readOn topic h)
  | .refold (e :: todo) => do
    let h ← foldOne d topic h e
    return if todo.isEmpty then readOn topic h else { h with pass := .refold todo }

/-- The fold of the topic as a reducer, whatever it throws. -/
def reducer (lookup : Lookup) : ViewDef Keys Empty where
  init := .empty
  reduce keys e :=
    match foldRegister d lookup keys e with
    | .ok r => r.1
    | .error keys => keys
  rows _ := []
  rowKey := Empty.elim
  delta := none
  validRow _ := true

/-- The key states exactly at `ord`, from the base floor when it is not past `ord`. -/
def stateAt (h : RegisterHub) (ord : Order) : Keys :=
  let start : Option RegisterBase := h.base.filter fun base => decide (base.ord ≤ ord)
  let fuel := h.db.sqLog.rows.length + 1
  ViewHub.stateAtLoop topic (reducer d (h.db.lookup topic)) h.db ord fuel
    (start.map RegisterBase.ord) ((start.map RegisterBase.keys).getD .empty)

/-- The cut state becomes the fold floor. -/
def rebaseAtCut (h : RegisterHub) (ord : Order) : RegisterHub :=
  { h with base := some ⟨keysFromSnapshot (snapshotOf (stateAt d topic h ord)), ord⟩ }

/-- The rest of a pass with nothing in between; `fuel` bounds the number of entries. -/
def resumeAll : Nat → RegisterHub → Except RegisterHub RegisterHub
  | 0, h => .ok h
  | fuel + 1, h =>
    match h.pass with
    | .idle => .ok h
    | _ => do
      let h ← resume d topic h
      resumeAll fuel h

end RegisterHub

end Seqscribe
