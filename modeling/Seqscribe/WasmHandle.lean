import Seqscribe.Savepoints

namespace Seqscribe
set_option autoImplicit true

/-! The handle over SQLite WASM, which keeps the depth of its transactions by hand. -/

open Savepoints

structure WasmHandle (δ : Type) where
  depth : Int
  conn : Conn Int δ

/-- A savepoint is named `sq_sp_${depth}`; with a sign that is not a name. -/
def isSavepointName (depth : Int) : Bool := decide (0 ≤ depth)

/-- A call of `transaction`: the handle before it, how it ended, and the handle then. -/
structure TransactionCall (δ : Type) where
  before : WasmHandle δ
  returned : Bool
  after : WasmHandle δ

/-- How a function has run: the handle it leaves, and the calls that have ended. -/
structure WasmRun (δ : Type) where
  returned : Bool
  handle : WasmHandle δ
  calls : List (TransactionCall δ)

namespace WasmHandle

def exec (accepted : Bool) (sql : List (Sql Int)) (h : WasmHandle δ) : Bool × WasmHandle δ :=
  if accepted then
    ((h.conn.exec isSavepointName sql).1,
      { h with conn := (h.conn.exec isSavepointName sql).2 })
  else (false, h)

/-- The handler of `transaction`. -/
def undo (name : Int) (h : WasmHandle δ) : WasmHandle δ :=
  let h := { h with depth := h.depth - 1 }
  (h.exec true (if h.depth = 0 then [.rollback] else [.rollbackTo name, .release name])).2

def transaction (opens closes : Bool) (fn : WasmHandle δ → WasmRun δ) (h : WasmHandle δ) :
    WasmRun δ :=
  let name := h.depth
  let opened := h.exec opens [if h.depth = 0 then .begin_ else .savepoint name]
  if opened.1 then
    let out := fn { opened.2 with depth := opened.2.depth + 1 }
    if out.returned then
      let h := { out.handle with depth := out.handle.depth - 1 }
      let closed := h.exec closes [if h.depth = 0 then .commit else .release name]
      if closed.1 then { out with handle := closed.2 }
      -- the statement stands inside the `try`: the handler counts the level down once more
      else { out with returned := false, handle := closed.2.undo name }
    else { out with handle := out.handle.undo name }
  else { returned := false, handle := opened.2, calls := [] }

/-- A handle without an open transaction. -/
def fresh (d : δ) : WasmHandle δ := ⟨0, ⟨d, []⟩⟩

end WasmHandle

/-- A function that writes through the handle and calls `transaction` on it. -/
def runProgram : Program δ → WasmHandle δ → WasmRun δ
  | .done, h => ⟨true, h, []⟩
  | .fails, h => ⟨false, h, []⟩
  | .write w rest, h => runProgram rest { h with conn.data := w h.conn.data }
  | .read rest, h => runProgram (rest h.conn.data) h
  | .call opens closes body onReturn onThrow, h =>
    let out := h.transaction opens closes (runProgram body)
    let rest := if out.returned then runProgram onReturn out.handle
      else runProgram onThrow out.handle
    { rest with calls := out.calls ++ ⟨h, out.returned, out.handle⟩ :: rest.calls }

/-- The depth is what it was and what the database says, and a call that throws has no effect. -/
structure TransactionCall.Balanced (c : TransactionCall δ) : Prop where
  depth : c.after.depth = c.before.depth
  nesting : c.after.depth = c.after.conn.levels.length
  undone : c.returned = false → c.after.conn.data = c.before.conn.data

namespace WasmHandle

/-- The names of the open levels at a depth. -/
def levelNames : Nat → List (Option Int)
  | 0 => []
  | n + 1 => (if n = 0 then none else some (n : Int)) :: levelNames n

/-- The depth is the number of open levels, each with the name of its depth. -/
structure Aligned (n : Nat) (h : WasmHandle δ) : Prop where
  depth : h.depth = n
  names : h.conn.levels.map Prod.fst = levelNames n

theorem length_levelNames (n : Nat) : (levelNames n).length = n := by
  induction n with
  | zero => rfl
  | succ n ih => rw [levelNames, List.length_cons, ih]

variable {h : WasmHandle δ} {n : Nat}

theorem Aligned.nesting (hn : Aligned n h) : h.depth = h.conn.levels.length := by
  have hlen := congrArg List.length hn.names
  rw [List.length_map, length_levelNames] at hlen
  rw [hn.depth, hlen]

/-- Inside a call: one level more, with the data at its opening. -/
def inner (h : WasmHandle δ) : WasmHandle δ where
  depth := h.depth + 1
  conn := { h.conn with levels :=
    (if h.depth = 0 then none else some h.depth, h.conn.data) :: h.conn.levels }

theorem Aligned.inner (hn : Aligned n h) : Aligned (n + 1) h.inner := by
  refine ⟨?_, ?_⟩
  · rw [WasmHandle.inner, hn.depth]
    rfl
  · rw [WasmHandle.inner, List.map_cons, hn.names, levelNames, hn.depth]
    simp only [Int.natCast_eq_zero]

/-- The opening statement. -/
theorem Aligned.exec_open (hn : Aligned n h) :
    h.exec true [if h.depth = 0 then .begin_ else .savepoint h.depth] =
      (true, { h.inner with depth := h.depth }) := by
  have hlen := hn.nesting
  by_cases hzero : h.depth = 0
  · have hnil : h.conn.levels = [] := by
      rw [← List.length_eq_zero_iff]
      omega
    rw [if_pos hzero, exec, if_pos rfl, Conn.exec, Sql.apply, hnil]
    simp [Conn.exec, WasmHandle.inner, hzero, hnil]
  · have hname : isSavepointName h.depth = true := by
      rw [isSavepointName, decide_eq_true_iff]
      omega
    rw [if_neg hzero, exec, if_pos rfl, Conn.exec, Sql.apply, if_pos hname]
    simp [Conn.exec, WasmHandle.inner, hzero]

/-- The closing statement keeps the data. -/
theorem Aligned.exec_close (hn : Aligned n h) (d : δ) :
    let h' : WasmHandle δ := ⟨h.depth, ⟨d, h.inner.conn.levels⟩⟩
    h'.exec true [if h'.depth = 0 then .commit else .release h.depth] =
      (true, { h with conn.data := d }) := by
  intro h'
  have hlen := hn.nesting
  by_cases hzero : h.depth = 0
  · have hnil : h.conn.levels = [] := by
      rw [← List.length_eq_zero_iff]
      omega
    rw [if_pos hzero, exec, if_pos rfl, Conn.exec, Sql.apply]
    simp [Conn.exec, h', WasmHandle.inner, hnil]
  · have htop : h'.conn.levels = (some h.depth, h.conn.data) :: h.conn.levels := by
      simp [h', WasmHandle.inner, hzero]
    rw [if_neg hzero, exec, if_pos rfl, exec_release isSavepointName htop]

/-- The handler restores the data. -/
theorem Aligned.undo (hn : Aligned n h) (d : δ) :
    (⟨h.depth + 1, ⟨d, h.inner.conn.levels⟩⟩ : WasmHandle δ).undo h.depth = h := by
  have hlen := hn.nesting
  rw [WasmHandle.undo]
  dsimp only
  rw [Int.add_sub_cancel]
  by_cases hzero : h.depth = 0
  · have hnil : h.conn.levels = [] := by
      rw [← List.length_eq_zero_iff]
      omega
    have hsame : (⟨h.conn.data, []⟩ : Conn Int δ) = h.conn := by rw [← hnil]
    rw [if_pos hzero, exec, if_pos rfl, Conn.exec, Sql.apply, WasmHandle.inner, hnil]
    simp [Conn.exec, hsame]
  · have htop : (⟨d, h.inner.conn.levels⟩ : Conn Int δ).levels =
        (some h.depth, h.conn.data) :: h.conn.levels := by
      simp [WasmHandle.inner, hzero]
    rw [if_neg hzero, exec, if_pos rfl, exec_rollbackTo isSavepointName htop]

/-- A call whose opening statement is refused does nothing. -/
theorem transaction_refused (h : WasmHandle δ) (closes : Bool) (fn : WasmHandle δ → WasmRun δ) :
    h.transaction false closes fn = ⟨false, h, []⟩ := rfl

variable {fn : WasmHandle δ → WasmRun δ} {d : δ}

/-- A body that throws, having left the levels as they were at its start, has no effect. -/
theorem Aligned.transaction_threw (hn : Aligned n h) (closes : Bool)
    (hfn : (fn h.inner).handle = { h.inner with conn.data := d })
    (hthrew : (fn h.inner).returned = false) :
    h.transaction true closes fn = { fn h.inner with handle := h } := by
  have hinner : { h.inner with depth := h.depth + 1 } = h.inner := rfl
  have hundo := hn.undo d
  rw [WasmHandle.transaction, hn.exec_open]
  dsimp only
  rw [if_pos rfl, hinner, if_neg (Bool.eq_false_iff.1 hthrew), hfn]
  exact congrArg (fun handle => { fn h.inner with handle := handle }) hundo

/-- A body that returns keeps its effect when the closing statement is accepted. -/
theorem Aligned.transaction_returned (hn : Aligned n h)
    (hfn : (fn h.inner).handle = { h.inner with conn.data := d })
    (hret : (fn h.inner).returned = true) :
    h.transaction true true fn = { fn h.inner with handle := { h with conn.data := d } } := by
  have hinner : { h.inner with depth := h.depth + 1 } = h.inner := rfl
  have hdepth : h.inner.depth - 1 = h.depth := Int.add_sub_cancel h.depth 1
  have hclose := hn.exec_close d
  rw [WasmHandle.transaction, hn.exec_open]
  dsimp only at hclose ⊢
  rw [if_pos rfl, hinner, if_pos hret, hfn]
  dsimp only
  rw [hdepth, hclose]
  rfl

/-- When it is refused, the level is counted down twice. -/
theorem Aligned.transaction_refused (hn : Aligned n h)
    (hfn : (fn h.inner).handle = { h.inner with conn.data := d })
    (hret : (fn h.inner).returned = true) :
    (h.transaction true false fn).handle.depth = h.depth - 1 := by
  have hinner : { h.inner with depth := h.depth + 1 } = h.inner := rfl
  have hdepth : h.inner.depth - 1 = h.depth := Int.add_sub_cancel h.depth 1
  rw [WasmHandle.transaction, hn.exec_open]
  dsimp only
  rw [if_pos rfl, hinner, if_pos hret, hfn]
  dsimp only
  rw [hdepth]
  rfl

/-- The calls of the body have ended before the call does. -/
theorem Aligned.transaction_calls (hn : Aligned n h) (closes : Bool)
    (fn : WasmHandle δ → WasmRun δ) :
    (h.transaction true closes fn).calls = (fn h.inner).calls := by
  have hinner : { h.inner with depth := h.depth + 1 } = h.inner := rfl
  rw [WasmHandle.transaction, hn.exec_open]
  dsimp only
  rw [if_pos rfl, hinner]
  split
  · rw [apply_ite WasmRun.calls]
    exact ite_self _
  · rfl

theorem Aligned.write (hn : Aligned n h) (d : δ) : Aligned n { h with conn.data := d } :=
  ⟨hn.depth, hn.names⟩

/-- A call that leaves the levels and, when it throws, the data is balanced. -/
theorem Aligned.balanced (hn : Aligned n h) {returned : Bool} {d : δ}
    (hundone : returned = false → d = h.conn.data) :
    TransactionCall.Balanced ⟨h, returned, { h with conn.data := d }⟩ :=
  ⟨rfl, hn.nesting, hundone⟩

end WasmHandle

open WasmHandle

/-- Where no closing statement is refused, the handle does what nested transactions mean. -/
theorem runProgram_of_closes (p : Program δ) {h : WasmHandle δ} (hn : Aligned n h)
    (hcloses : p.Closes h.conn.data) :
    (runProgram p h).returned = (p.meaning h.conn.data).1 ∧
      (runProgram p h).handle = { h with conn.data := (p.meaning h.conn.data).2 } ∧
      ∀ c ∈ (runProgram p h).calls, c.Balanced := by
  induction p generalizing h n with
  | done => exact ⟨rfl, rfl, nofun⟩
  | fails => exact ⟨rfl, rfl, nofun⟩
  | write w rest ih => exact ih (hn.write (w h.conn.data)) hcloses
  | read rest ih => exact ih h.conn.data hn hcloses
  | call opens closes body onReturn onThrow ihBody ihReturn ihThrow =>
    rw [Program.Closes] at hcloses
    rw [runProgram, Program.meaning]
    cases opens with
    | false =>
      rw [if_neg Bool.false_ne_true] at hcloses
      rw [transaction_refused]
      obtain ⟨hret, hhandle, hcalls⟩ := ihThrow hn hcloses
      exact ⟨hret, hhandle, List.forall_mem_cons.2 ⟨hn.balanced fun _ => rfl, hcalls⟩⟩
    | true =>
      rw [if_pos rfl] at hcloses
      obtain ⟨hbody, hrest⟩ := hcloses
      obtain ⟨hret, hhandle, hcalls⟩ := ihBody hn.inner hbody
      change (runProgram body h.inner).returned = (body.meaning h.conn.data).1 at hret
      change (runProgram body h.inner).handle =
        { h.inner with conn.data := (body.meaning h.conn.data).2 } at hhandle
      cases hends : (body.meaning h.conn.data).1 with
      | false =>
        rw [hends] at hret
        rw [hends, if_neg Bool.false_ne_true] at hrest
        rw [hn.transaction_threw closes hhandle hret]
        dsimp only
        rw [if_neg (Bool.eq_false_iff.1 hret)]
        obtain ⟨hret', hhandle', hcalls'⟩ := ihThrow hn hrest
        refine ⟨hret', hhandle', List.forall_mem_append.2 ⟨hcalls, ?_⟩⟩
        refine List.forall_mem_cons.2 ⟨?_, hcalls'⟩
        exact hn.balanced fun _ => rfl
      | true =>
        rw [hends] at hret
        rw [hends, if_pos rfl] at hrest
        obtain ⟨rfl, hrest⟩ := hrest
        rw [hn.transaction_returned hhandle hret]
        dsimp only
        rw [if_pos hret]
        obtain ⟨hret', hhandle', hcalls'⟩ := ihReturn (hn.write (body.meaning h.conn.data).2) hrest
        refine ⟨hret', hhandle', List.forall_mem_append.2 ⟨hcalls, ?_⟩⟩
        refine List.forall_mem_cons.2 ⟨?_, hcalls'⟩
        rw [hret]
        exact hn.balanced nofun

/-- A call whose closing statement is refused is not balanced. -/
theorem exists_unbalanced (p : Program δ) {h : WasmHandle δ} (hn : Aligned n h)
    (hcloses : ¬ p.Closes h.conn.data) : ∃ c ∈ (runProgram p h).calls, ¬ c.Balanced := by
  induction p generalizing h n with
  | done => exact absurd trivial hcloses
  | fails => exact absurd trivial hcloses
  | write w rest ih => exact ih (hn.write (w h.conn.data)) hcloses
  | read rest ih => exact ih h.conn.data hn hcloses
  | call opens closes body onReturn onThrow ihBody ihReturn ihThrow =>
    rw [Program.Closes] at hcloses
    rw [runProgram]
    cases opens with
    | false =>
      rw [if_neg Bool.false_ne_true] at hcloses
      rw [transaction_refused]
      obtain ⟨c, hc, hbad⟩ := ihThrow hn hcloses
      exact ⟨c, List.mem_cons_of_mem _ hc, hbad⟩
    | true =>
      rw [if_pos rfl] at hcloses
      by_cases hbody : body.Closes h.conn.data
      · rw [and_iff_right hbody] at hcloses
        obtain ⟨hret, hhandle, hcalls⟩ := runProgram_of_closes body hn.inner hbody
        change (runProgram body h.inner).returned = (body.meaning h.conn.data).1 at hret
        change (runProgram body h.inner).handle =
          { h.inner with conn.data := (body.meaning h.conn.data).2 } at hhandle
        cases hends : (body.meaning h.conn.data).1 with
        | false =>
          rw [hends] at hret
          rw [hends, if_neg Bool.false_ne_true] at hcloses
          rw [hn.transaction_threw closes hhandle hret]
          dsimp only
          rw [if_neg (Bool.eq_false_iff.1 hret)]
          obtain ⟨c, hc, hbad⟩ := ihThrow hn hcloses
          exact ⟨c, List.mem_append_right _ (List.mem_cons_of_mem _ hc), hbad⟩
        | true =>
          rw [hends] at hret
          rw [hends, if_pos rfl] at hcloses
          cases closes with
          | false =>
            refine ⟨_, List.mem_append_right _ List.mem_cons_self, fun hbalanced => ?_⟩
            have hdepth := hbalanced.depth
            dsimp only at hdepth
            rw [hn.transaction_refused hhandle hret] at hdepth
            omega
          | true =>
            rw [and_iff_right rfl] at hcloses
            rw [hn.transaction_returned hhandle hret]
            dsimp only
            rw [if_pos hret]
            obtain ⟨c, hc, hbad⟩ := ihReturn (hn.write (body.meaning h.conn.data).2) hcloses
            exact ⟨c, List.mem_append_right _ (List.mem_cons_of_mem _ hc), hbad⟩
      · obtain ⟨c, hc, hbad⟩ := ihBody hn.inner hbody
        refine ⟨c, List.mem_append_left _ ?_, hbad⟩
        rw [hn.transaction_calls]
        exact hc

theorem aligned_fresh (d : δ) : Aligned 0 (fresh d) := ⟨rfl, rfl⟩

/-- Every call of `transaction`, however deep, is balanced if and only if no COMMIT or RELEASE is
refused. -/
theorem transactions_balanced_iff (p : Program δ) (d : δ) :
    (∀ c ∈ (runProgram p (fresh d)).calls, c.Balanced) ↔ p.Closes d := by
  constructor
  · intro hall
    by_contra hcloses
    obtain ⟨c, hc, hbad⟩ := exists_unbalanced p (aligned_fresh d) hcloses
    exact hbad (hall c hc)
  · intro hcloses
    exact (runProgram_of_closes p (aligned_fresh d) hcloses).2.2

/-- One write, whose COMMIT is refused. -/
theorem refused_commit_unbalanced :
    ¬ ∀ c ∈ (runProgram (.call true false (.write (fun _ => 1) .done) .done .done) (fresh 0)).calls,
      c.Balanced := by
  intro hall
  have hdepth := (hall _ List.mem_cons_self).depth
  exact absurd hdepth (by decide)

end Seqscribe
