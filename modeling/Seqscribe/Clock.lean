import Seqscribe.Hlc

namespace Seqscribe
set_option autoImplicit true

/-! The laws of the clock, over any sequence of stamps and merges. -/

/-- Time before counter. -/
def Hlc.toKey (h : Hlc) : ℕ ×ₗ ℕ := toLex (h.l, h.c)

theorem Hlc.toKey_injective : Function.Injective Hlc.toKey := by
  intro a b h
  cases a
  cases b
  simpa [Hlc.toKey] using h

instance : LinearOrder Hlc := LinearOrder.lift' Hlc.toKey Hlc.toKey_injective

theorem Hlc.lt_iff {a b : Hlc} : a < b ↔ a.l < b.l ∨ a.l = b.l ∧ a.c < b.c :=
  Prod.Lex.toLex_lt_toLex

theorem lt_stamp {s state : HlcState} {h : Hlc} (hstamp : stamp s pt = .ok (state, h)) :
    s < state ∧ h = state ∧ h.c < HLC_C_LIMIT := by
  rw [stamp] at hstamp
  by_cases heq : max s.l pt = s.l
  · rw [if_pos heq] at hstamp
    split at hstamp
    next => cases hstamp
    next hc =>
      obtain ⟨rfl, rfl⟩ := Prod.mk.inj (Except.ok.inj hstamp)
      exact ⟨Hlc.lt_iff.2 (.inr ⟨heq.symm, Nat.lt_succ_self _⟩), rfl, Nat.lt_of_not_le hc⟩
  · rw [if_neg heq] at hstamp
    split at hstamp
    next => cases hstamp
    next hc =>
      obtain ⟨rfl, rfl⟩ := Prod.mk.inj (Except.ok.inj hstamp)
      have hlt : s.l < max s.l pt := lt_of_le_of_ne (le_max_left _ _) (Ne.symm heq)
      exact ⟨Hlc.lt_iff.2 (.inl hlt), rfl, Nat.lt_of_not_le hc⟩

/-- A merge passes the state and the remote value. -/
theorem lt_merge (s : HlcState) (remote : Hlc) (pt : Nat) :
    s < merge s remote pt ∧ remote < merge s remote pt := by
  have hl : s.l ≤ max (max s.l remote.l) pt := le_max_of_le_left (le_max_left _ _)
  have hr : remote.l ≤ max (max s.l remote.l) pt := le_max_of_le_left (le_max_right _ _)
  rw [Hlc.lt_iff, Hlc.lt_iff, merge]
  generalize max (max s.l remote.l) pt = l at hl hr
  generalize hcounter : (if l = s.l ∧ l = remote.l then max s.c remote.c + 1
    else if l = s.l then s.c + 1 else if l = remote.l then remote.c + 1 else 0) = c
  split
  next =>
    -- the carry passes both, whatever the counters were
    exact ⟨.inl (Nat.lt_succ_of_le hl), .inl (Nat.lt_succ_of_le hr)⟩
  next =>
    dsimp only
    have hs := le_max_left s.c remote.c
    have hc := le_max_right s.c remote.c
    split at hcounter
    next hboth => omega
    next =>
      split at hcounter
      next => omega
      next => split at hcounter <;> omega

/-- What a clock is asked for, with what the wall clock reads. -/
inductive ClockOp where
  | stamp (pt : Int)
  | merge (remote : Hlc) (pt : Int)

inductive ClockEvent where
  | stamped (h : Hlc)
  | merged (remote : Hlc)

def ClockEvent.hlc : ClockEvent → Hlc
  | .stamped h => h
  | .merged remote => remote

/-- A clock, with what it has emitted and merged. -/
structure Clock where
  state : HlcState
  events : List ClockEvent

/-- A reading below 0 counts as 0: the state's time is never below it. -/
theorem max_reading (l : Nat) (pt : Int) : max (l : Int) pt = (max l pt.toNat : Nat) := by
  omega

namespace Clock

def step (clock : Clock) : ClockOp → Clock
  | .stamp pt =>
    match Seqscribe.stamp clock.state pt.toNat with
    | .ok (state, h) => ⟨state, clock.events ++ [.stamped h]⟩
    | .error _ => clock
  | .merge remote pt =>
    ⟨Seqscribe.merge clock.state remote pt.toNat, clock.events ++ [.merged remote]⟩

/-- Everything that passed is behind the state, and each stamp was ahead of what had passed. -/
structure Ahead (clock : Clock) : Prop where
  behind : ∀ x ∈ clock.events, x.hlc ≤ clock.state
  ordered : clock.events.Pairwise fun x y => ∀ h, y = .stamped h → x.hlc < h
  small : ∀ h, .stamped h ∈ clock.events → h.c < HLC_C_LIMIT

theorem Ahead.step {clock : Clock} (ha : Ahead clock) (op : ClockOp) : Ahead (clock.step op) := by
  cases op with
  | stamp pt =>
    rw [Clock.step]
    cases hstamp : Seqscribe.stamp clock.state pt.toNat with
    | error => exact ha
    | ok r =>
      obtain ⟨state, h⟩ := r
      obtain ⟨hlt, rfl, hsmall⟩ := lt_stamp hstamp
      have hbehind (x : ClockEvent) (hx : x ∈ clock.events) : x.hlc < h :=
        lt_of_le_of_lt (ha.behind x hx) hlt
      constructor
      · intro x hx
        rcases List.mem_append.1 hx with hx | hx
        · exact le_of_lt (hbehind x hx)
        · obtain rfl := List.mem_singleton.1 hx
          exact le_refl h
      · apply List.pairwise_append.2 ⟨ha.ordered, List.pairwise_singleton .., ?_⟩
        intro x hx y hy h' hstamped
        obtain rfl := List.mem_singleton.1 hy
        cases hstamped
        exact hbehind x hx
      · intro h' hh'
        rcases List.mem_append.1 hh' with hh' | hh'
        · exact ha.small h' hh'
        · cases List.mem_singleton.1 hh'
          exact hsmall
  | merge remote pt =>
    obtain ⟨hlt, hremote⟩ := lt_merge clock.state remote pt.toNat
    constructor
    · intro x hx
      rcases List.mem_append.1 hx with hx | hx
      · exact (ha.behind x hx).trans (le_of_lt hlt)
      · obtain rfl := List.mem_singleton.1 hx
        exact le_of_lt hremote
    · apply List.pairwise_append.2 ⟨ha.ordered, List.pairwise_singleton .., ?_⟩
      intro x _ y hy h' hstamped
      obtain rfl := List.mem_singleton.1 hy
      cases hstamped
    · intro h' hh'
      rcases List.mem_append.1 hh' with hh' | hh'
      · exact ha.small h' hh'
      · cases List.mem_singleton.1 hh'

theorem ahead_foldl {clock : Clock} (ha : Ahead clock) (ops : List ClockOp) :
    Ahead (ops.foldl step clock) := by
  induction ops generalizing clock with
  | nil => exact ha
  | cons op ops ih => exact ih (ha.step op)

end Clock

end Seqscribe
