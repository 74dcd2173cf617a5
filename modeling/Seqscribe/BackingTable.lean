import Mathlib.Algebra.Order.Ring.Rat
import Mathlib.Data.List.Lex
import Mathlib.Data.String.Basic
import Mathlib.Data.Sum.Order
import Mathlib.Order.WithBot
import Seqscribe.Deltas
import Seqscribe.Encoding
import Seqscribe.Records

namespace Seqscribe
set_option autoImplicit true

/-! The table behind a view: its rows as the view's functions make them, and as SQLite keeps,
compares and returns them. -/

/-- `string | number | null`; the numbers that are not finite are one value. -/
inductive Cell where
  | null
  | num (x : Rat)
  | nonFinite
  | str (s : JsString)
  deriving DecidableEq

/-- The order of its properties is not part of a row: no function that reads rows depends on it. -/
abbrev Row := Record String Cell

inductive ColType where
  | TEXT
  | INTEGER
  | REAL
  deriving DecidableEq

/-- The values of a column in the order of `ORDER BY`: `NULL`, then the numbers, then the texts
by their bytes. -/
abbrev SqlKey := WithBot (Lex (Rat ⊕ List Nat))

def Cell.collate : Cell → SqlKey
  | .null | .nonFinite => ⊥
  | .num x => ((toLex (.inl x) : Lex (Rat ⊕ List Nat)) : SqlKey)
  | .str s => ((toLex (.inr ((utf8 s).map UInt8.toNat)) : Lex (Rat ⊕ List Nat)) : SqlKey)

/-- A number that is not finite does not canonicalize. -/
def Cell.json : Cell → JsonValue
  | .null | .nonFinite => .null
  | .num x => .num x
  | .str s => .str s

def Row.json (r : Row) : JsonValue := .obj (r.members.map fun m => (js m.1, m.2.json))

/-- What the rows of a view meet outside this program. -/
structure Engine where
  /-- `String` of a finite number. -/
  numeral : Rat → JsString
  /-- What a column, which is the primary key or not, returns of a value that was bound to it;
  `none` when it refuses the value. -/
  keep : ColType → Bool → Cell → Option Cell
  /-- `key = ?` for a text and a key. -/
  finds : ColType → JsString → SqlKey → Bool

/-- `String`. -/
def Engine.string (engine : Engine) : Cell → JsString
  | .null => js "null"
  | .num x => engine.numeral x
  | .nonFinite => js "NaN"
  | .str s => s

/-- What a view's definition says about its table. -/
structure TableDef where
  rowKey : String
  schema : Table String (String × ColType) Prod.fst
  known : (schema.get rowKey).isSome
  /-- The view has a delta function. -/
  delta : Bool

namespace TableDef

variable (d : TableDef) (engine : Engine)

/-- `String(r[rowKey])`. -/
def sortText (r : Row) : JsString :=
  match r.get d.rowKey with
  | none => js "undefined"
  | some c => engine.string c

/-- `String(r[rowKey] ?? "")`. -/
def keyText (r : Row) : JsString :=
  match r.get d.rowKey with
  | none | some .null => []
  | some c => engine.string c

def keyType : ColType := ((d.schema.get d.rowKey).map Prod.snd).getD .TEXT

/-- What `insertRow` binds to a column. -/
def bound (r : Row) (col : String) : Cell :=
  if col = d.rowKey then .str (d.keyText engine r) else (r.get col).getD .null

/-- The row that `SELECT *` returns after `insertRow`. -/
def stored (r : Row) : Option Row :=
  (d.schema.rows.mapM fun col =>
    (engine.keep col.2 (decide (col.1 = d.rowKey)) (d.bound engine r col.1)).map fun c =>
      (col.1, c)).map Record.ofList

def sqlKey (r : Row) : SqlKey := ((r.get d.rowKey).getD .null).collate

end TableDef

/-- The table and what the instance of the view keeps with it. -/
structure Backed (d : TableDef) where
  table : Table SqlKey Row d.sqlKey
  /-- Delta-less views: the rows written last, by their keys, each as its canonical JSON. -/
  rowCache : Option (Table JsString (JsString × JsString) Prod.fst)
  /-- `delta_mismatch` anomalies. -/
  mismatches : Nat
  /-- New epochs, each with a reset for the subscribers. -/
  resets : Nat

/-- What a throwing function leaves behind is the state that it throws. -/
abbrev BackedM (d : TableDef) := Except (Backed d) (Backed d)

namespace Backed

variable (env : Env) (MAX_ROW_BYTES : Nat) (engine : Engine) {d : TableDef}

def validateRow (r : Row) : Bool :=
  (r.members.all fun m => decide (m.2 ≠ .nonFinite)) &&
    decide (utf8ByteLength (env.jcs r.json) ≤ MAX_ROW_BYTES)

/-- JavaScript compares strings by their code units. -/
def sortedRows (d : TableDef) (rows : List Row) : Option (List Row) :=
  if rows.all (validateRow env MAX_ROW_BYTES) then
    some (rows.insertionSort fun r r' =>
      (d.sortText engine r).map UInt16.toNat ≤ (d.sortText engine r').map UInt16.toNat)
  else none

def tableRows (h : Backed d) : List Row :=
  h.table.rows.insertionSort fun r r' => d.sqlKey r ≤ d.sqlKey r'

def insertRow (h : Backed d) (r : Row) : BackedM d :=
  match d.stored engine r with
  | none => .error h
  | some r' => .ok { h with table := h.table.upsert r' }

def deleteKey (h : Backed d) (k : JsString) : Backed d :=
  { h with table := h.table.filter fun r => !engine.finds d.keyType k (d.sqlKey r) }

/-- The entries of the row cache. -/
def serialize (d : TableDef) (r : Row) : JsString × JsString := (d.keyText engine r, env.jcs r.json)

def rewriteTable (rows : List Row) (h : Backed d) : BackedM d :=
  match sortedRows env MAX_ROW_BYTES engine d rows with
  | none => .error h
  | some rows =>
    match rows.foldlM (insertRow engine) { h with table := .empty } with
    | .error h => .error h
    | .ok h =>
      .ok { h with
        rowCache := if d.delta then h.rowCache
          else some (.ofRows Prod.fst (rows.map (serialize env engine d))) }

/-- Writes only the rows that changed since the last batch, and returns the changes. -/
def diffSyncTable (rows : List Row) (h : Backed d) :
    Except (Backed d) (Backed d × Delta JsString Row) :=
  match h.rowCache with
  | none => (rewriteTable env MAX_ROW_BYTES engine rows h).map fun h => (h, ⟨[], []⟩)
  | some cache =>
    -- the canonicalization refuses a number that is not finite
    if rows.all (validateRow env MAX_ROW_BYTES) then
      let next := Table.ofRows (d.keyText engine) rows
      let changed := next.rows.filter fun r =>
        decide ((cache.get (d.keyText engine r)).map Prod.snd ≠ some (env.jcs r.json))
      let gone := (cache.rows.map Prod.fst).filter fun k => (next.get k).isNone
      match changed.foldlM (insertRow engine) h with
      | .error h => .error h
      | .ok h =>
        .ok ({ gone.foldl (deleteKey engine) h with
          rowCache := some (.ofRows Prod.fst (next.rows.map (serialize env engine d))) },
          ⟨changed, gone⟩)
    else .error h

/-- `sha256HexUtf8(jcs(rows))`. -/
def digest (rows : List Row) : String := env.sha256Hex (utf8 (env.jcs (.arr (rows.map Row.json))))

/-- `rows` is authoritative: a table that differs is rewritten. -/
def verifyDelta (rows : List Row) (h : Backed d) : BackedM d :=
  match sortedRows env MAX_ROW_BYTES engine d rows with
  | none => .error h
  | some expected =>
    if digest env expected = digest env h.tableRows then .ok h
    else
      (rewriteTable env MAX_ROW_BYTES engine rows { h with mismatches := h.mismatches + 1 }).map
        fun h => { h with resets := h.resets + 1 }

end Backed

end Seqscribe
