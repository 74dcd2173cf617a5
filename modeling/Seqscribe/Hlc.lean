import Mathlib.Data.Prod.Lex
import Mathlib.Data.String.Basic
import Seqscribe.Types

namespace Seqscribe
set_option autoImplicit true

def HLC_C_LIMIT : Nat := 2 ^ 32

def stamp (state : HlcState) (pt : Nat) : Except SeqscribeError (HlcState × Hlc) :=
  let l := max state.l pt
  let c := if l = state.l then state.c + 1 else 0
  if c ≥ HLC_C_LIMIT then .error ⟨.ERR_ENTRY_ENCODING, "hlc.c overflow at stamp"⟩
  else .ok (⟨l, c⟩, ⟨l, c⟩)

def merge (state : HlcState) (remote : Hlc) (pt : Nat) : HlcState :=
  let l := max (max state.l remote.l) pt
  let c :=
    if l = state.l ∧ l = remote.l then max state.c remote.c + 1
    else if l = state.l then state.c + 1
    else if l = remote.l then remote.c + 1
    else 0
  -- the carry: clock state only, no entry is stamped with it
  if c ≥ HLC_C_LIMIT then ⟨l + 1, 0⟩ else ⟨l, c⟩

def isOverEpsilon (remote : Hlc) (pt epsilonMs : Nat) : Bool := remote.l > pt + epsilonMs

def hlcCompare (a b : Hlc) : Int :=
  if a.l ≠ b.l then (if a.l < b.l then -1 else 1)
  else if a.c ≠ b.c then (if a.c < b.c then -1 else 1)
  else 0

def orderCompare (a b : Order) : Int :=
  if a.l ≠ b.l then (if a.l < b.l then -1 else 1)
  else if a.c ≠ b.c then (if a.c < b.c then -1 else 1)
  else if a.writer ≠ b.writer then (if a.writer < b.writer then -1 else 1)
  else if a.seq ≠ b.seq then (if a.seq < b.seq then -1 else 1)
  else 0

def orderOf (e : LogEntry) : Order := ⟨e.hlc.l, e.hlc.c, e.writer, e.seq⟩

theorem hlcCompare_le_zero : hlcCompare a b ≤ 0 ↔ a.l < b.l ∨ a.l = b.l ∧ a.c ≤ b.c := by
  unfold hlcCompare
  grind

theorem hlcCompare_trans (h₁ : hlcCompare a b ≤ 0) (h₂ : hlcCompare b c ≤ 0) :
    hlcCompare a c ≤ 0 := by
  rw [hlcCompare_le_zero] at *
  omega

/-- The total order on entries as a lexicographic key. -/
def Order.toKey (o : Order) : ℕ ×ₗ ℕ ×ₗ String ×ₗ ℕ :=
  toLex (o.l, toLex (o.c, toLex (o.writer, o.seq)))

theorem Order.toKey_injective : Function.Injective Order.toKey := by
  intro a b h
  cases a
  cases b
  simpa [Order.toKey] using h

instance : LinearOrder Order := LinearOrder.lift' Order.toKey Order.toKey_injective

theorem Order.le_iff {a b : Order} :
    a ≤ b ↔ a.l < b.l ∨ a.l = b.l ∧ (a.c < b.c ∨ a.c = b.c ∧
      (a.writer < b.writer ∨ a.writer = b.writer ∧ a.seq ≤ b.seq)) := by
  change a.toKey ≤ b.toKey ↔ _
  simp [Order.toKey, Prod.Lex.le_iff]

/-- The comparison the source computes is the linear order on orders. -/
theorem orderCompare_le_zero {a b : Order} : orderCompare a b ≤ 0 ↔ a ≤ b := by
  rw [Order.le_iff]
  unfold orderCompare
  by_cases hl : a.l = b.l
  · by_cases hc : a.c = b.c
    · by_cases hw : a.writer = b.writer
      · grind
      · simp only [ne_eq, hl, hc, hw, not_true_eq_false, not_false_eq_true, if_true, if_false]
        split <;> simp_all
    · grind
  · grind

end Seqscribe
