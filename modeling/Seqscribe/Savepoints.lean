import Mathlib.Data.List.Basic

/-! Transactions of a database connection, and what nested transactions mean. -/

namespace Savepoints
set_option autoImplicit true

/-- A connection. The open levels stand innermost first, each with the data at its opening: the
transaction itself has no name, a savepoint has one. -/
structure Conn (ν δ : Type) where
  data : δ
  levels : List (Option ν × δ)

inductive Sql (ν : Type) where
  | begin_
  | commit
  | rollback
  | savepoint (name : ν)
  | release (name : ν)
  | rollbackTo (name : ν)

variable [DecidableEq ν] {c : Conn ν δ}

/-- The levels from the innermost savepoint of a name on. -/
def Conn.from (c : Conn ν δ) (name : ν) : List (Option ν × δ) :=
  c.levels.dropWhile fun l => decide (l.1 ≠ some name)

/-- A statement that throws changes nothing. `isName` says which names a statement may spell. -/
def Sql.apply (isName : ν → Bool) (s : Sql ν) (c : Conn ν δ) : Option (Conn ν δ) :=
  match s with
  | .begin_ => if c.levels.isEmpty then some { c with levels := [(none, c.data)] } else none
  | .commit => if c.levels.isEmpty then none else some { c with levels := [] }
  | .rollback => c.levels.getLast?.map fun l => ⟨l.2, []⟩
  | .savepoint name =>
    if isName name then some { c with levels := (some name, c.data) :: c.levels } else none
  | .release name =>
    match c.from name with
    | [] => none
    | _ :: rest => some { c with levels := rest }
  | .rollbackTo name =>
    match c.from name with
    | [] => none
    | l :: rest => some ⟨l.2, l :: rest⟩

/-- The statements of one text, up to the first that throws. -/
def Conn.exec (isName : ν → Bool) : List (Sql ν) → Conn ν δ → Bool × Conn ν δ
  | [], c => (true, c)
  | s :: rest, c =>
    match s.apply isName c with
    | none => (false, c)
    | some c => exec isName rest c

theorem from_top (h : c.levels = (some name, x) :: rest) : c.from name = c.levels := by
  rw [Conn.from, h, List.dropWhile_cons, if_neg (by simp)]

/-- Releasing the innermost savepoint keeps the data. -/
theorem exec_release (isName : ν → Bool) (h : c.levels = (some name, x) :: rest) :
    c.exec isName [.release name] = (true, { c with levels := rest }) := by
  rw [Conn.exec, Sql.apply, from_top h, h]
  rfl

/-- Rolling back to the innermost savepoint, and releasing it, restores the data. -/
theorem exec_rollbackTo (isName : ν → Bool) (h : c.levels = (some name, x) :: rest) :
    c.exec isName [.rollbackTo name, .release name] = (true, ⟨x, rest⟩) := by
  rw [Conn.exec, Sql.apply, from_top h, h]
  exact exec_release isName rfl

/-- What a function does inside a transaction. Of each call it is given whether its opening and
its closing statement are accepted; the function may catch what a call throws. -/
inductive Program (δ : Type) where
  | done
  | fails
  | write (w : δ → δ) (rest : Program δ)
  | read (rest : δ → Program δ)
  | call (opens closes : Bool) (body onReturn onThrow : Program δ)

namespace Program

/-- Whether it returns, and the data it leaves: a call that throws leaves the data it found. -/
def meaning : Program δ → δ → Bool × δ
  | done, d => (true, d)
  | fails, d => (false, d)
  | write w rest, d => rest.meaning (w d)
  | read rest, d => (rest d).meaning d
  | call opens closes body onReturn onThrow, d =>
    if opens && (body.meaning d).1 && closes then onReturn.meaning (body.meaning d).2
    else onThrow.meaning d

/-- No closing statement is refused. -/
def Closes : Program δ → δ → Prop
  | done, _ => True
  | fails, _ => True
  | write w rest, d => rest.Closes (w d)
  | read rest, d => (rest d).Closes d
  | call opens closes body onReturn onThrow, d =>
    if opens then
      body.Closes d ∧
        if (body.meaning d).1 then closes = true ∧ onReturn.Closes (body.meaning d).2
        else onThrow.Closes d
    else onThrow.Closes d

end Program

end Savepoints
