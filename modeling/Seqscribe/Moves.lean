import Mathlib.Logic.Relation
import Seqscribe.Items

namespace Seqscribe
set_option autoImplicit true

variable {env : Env} {S S' : Stream} {P P' : Act → Prop}

/-- The kinds of change that a stream is ever made of. -/
inductive Act where
  | advance (e : LogEntry)
  | rewind (seq : Nat)
  | jump (seq : Nat)
  | fork
  | retire (target : RecoveryTarget)
  | revive (rgen : Nat)
  | seek (target : Option RecoveryTarget)
  | shelve
  | thin
  | vacate

inductive Stream.Move (env : Env) : Act → Stream → Stream → Prop
  /-- An entry chained onto the head. -/
  | advance (S : Stream) (e : LogEntry) (hid : e.stream = S.head.stream)
      (hseq : e.seq = S.head.contigSeq + 1)
      (hchain : chainOf env (S.head.prevChain env) e = e.chain) :
      Move env (.advance e) S (S.advance env e)
  /-- The rows beyond a position leave and the stream is sealed; where the chain at the position
  is known, it is taken. -/
  | rewind (S : Stream) (s hi : Nat) (chain : Chain) (why : SealReason) (reason : QuarantineReason)
      (now : Nat) (hs : s ≤ S.head.contigSeq)
      (hchain : (s = S.head.contigSeq ∧ chain = S.head.contigChain) ∨
        ∀ held, S.chainHeldAt env s = some held → chain = held) :
      Move env (.rewind s) S ((S.quarantineFrom (s + 1) hi reason now).saveHead
        { S.head with contigSeq := s, contigChain := chain, sealReason := some why })
  /-- The head jumps ahead over entries that are not held. -/
  | jump (S : Stream) (s : Nat) (chain : Chain) (hs : S.head.contigSeq < s) :
      Move env (.jump s) S (S.saveHead { S.head with contigSeq := s, contigChain := chain })
  | fork (S : Stream) : Move env .fork S S.fork
  | retire (S : Stream) (target : RecoveryTarget) (now : Nat) :
      Move env (.retire target) S (S.saveHead (S.head.retire target now))
  | revive (S : Stream) (rgen : Nat) : Move env (.revive rgen) S (S.saveHead (S.head.revive rgen))
  | seek (S : Stream) (target : Option RecoveryTarget) :
      Move env (.seek target) S (S.setRecovery target)
  /-- What waits for the head, or the recorded floor, changes. -/
  | shelve (S : Stream) (pending : Table EntryId LogEntry LogEntry.id) (floor : Option Floor) :
      Move env .shelve S { S with pending := pending, floor := floor }
  | thin (S S' : Stream) (h : S.Thinned S') : Move env .thin S S'
  /-- A stream without rows starts again. -/
  | vacate (S : Stream) (h : ∀ s, S.rows s = none) :
      Move env .vacate S { S with head := freshHead env S.head.topic S.head.writer, listed := false }

theorem Stream.move_seek (env : Env) (S : Stream) (target : Option RecoveryTarget) :
    S.Move env (.seek target) (S.setRecovery target) := .seek S target

/-- A sequence of moves of allowed kinds. -/
def Stream.Moves (env : Env) (P : Act → Prop) : Stream → Stream → Prop :=
  Relation.ReflTransGen fun S S' => ∃ a, P a ∧ Stream.Move env a S S'

/-- Every row is held under its own id. -/
def Stream.Keyed (S : Stream) : Prop :=
  ∀ s e, S.rows s = some e → e.id = (S.head.topic, S.head.writer, s)

namespace Stream.Moves

theorem refl (S : Stream) : S.Moves env P S := Relation.ReflTransGen.refl

theorem one (ha : P a) (h : S.Move env a S') : S.Moves env P S' :=
  Relation.ReflTransGen.single ⟨a, ha, h⟩

theorem trans {S₁ S₂ S₃ : Stream} (h : S₁.Moves env P S₂) (h' : S₂.Moves env P S₃) :
    S₁.Moves env P S₃ := Relation.ReflTransGen.trans h h'

theorem tail (h : S.Moves env P S') (ha : P a) (h' : S'.Move env a S'') : S.Moves env P S'' :=
  h.trans (one ha h')

theorem mono (h : S.Moves env P S') (hP : ∀ a, P a → P' a) : S.Moves env P' S' :=
  Relation.ReflTransGen.mono (fun _ _ ⟨a, ha, hmove⟩ => ⟨a, hP a ha, hmove⟩) _ _ h

/-- What every allowed move preserves, moves preserve. -/
theorem preserves {I : Stream → Prop}
    (hstep : ∀ a S S', P a → I S → S.Move env a S' → I S') (h : S.Moves env P S') (hS : I S) :
    I S' := by
  induction h with
  | refl => exact hS
  | tail _ hmove ih =>
    obtain ⟨a, ha, hmove⟩ := hmove
    exact hstep a _ _ ha ih hmove

end Stream.Moves

theorem Stream.Bounded.move (h : S.Bounded) (hmove : S.Move env a S') : S'.Bounded := by
  intro s hs
  cases hmove with
  | advance _ e hid hseq hchain =>
    have hs : e.seq < s := hs
    exact h.put hs (by omega)
  | rewind _ pos hi chain why reason now hle hchain =>
    have hs : pos < s := hs
    exact if_pos hs
  | jump _ pos chain hlt =>
    have hs : pos < s := hs
    exact h s (by omega)
  | thin _ S' hthin =>
    rw [hthin.head] at hs
    rcases hthin.rows s with hn | hr
    · exact hn
    · exact hr.trans (h s hs)
  | vacate _ hnone => exact hnone s
  | fork => exact h s hs
  | retire => exact h s hs
  | revive => exact h s hs
  | seek => exact h s hs
  | shelve => exact h s hs

theorem Stream.Keyed.move (h : S.Keyed) (hmove : S.Move env a S') : S'.Keyed := by
  intro s e hrow
  cases hmove with
  | advance _ e' hid hseq hchain =>
    have hrow : (S.put env e').rows s = some e := hrow
    rw [Stream.rows_put] at hrow
    split at hrow
    · next hc =>
      obtain rfl := Option.some.inj hrow
      obtain rfl := hc.2
      exact congrArg (fun k : StreamId => ((k.1, k.2, e'.seq) : EntryId)) hid
    · exact h s e hrow
  | rewind _ pos hi chain why reason now hle hchain =>
    have hrow : (if pos + 1 ≤ s then none else S.rows s) = some e := hrow
    split at hrow
    · cases hrow
    · exact h s e hrow
  | thin _ S' hthin =>
    rw [hthin.head]
    exact h s e (hthin.row hrow)
  | vacate _ hnone =>
    have hrow : S.rows s = some e := hrow
    rw [hnone s] at hrow
    cases hrow
  | jump => exact h s e hrow
  | fork => exact h s e hrow
  | retire => exact h s e hrow
  | revive => exact h s e hrow
  | seek => exact h s e hrow
  | shelve => exact h s e hrow

/-- A stream with a row has its writer listed. -/
def Stream.Listed (S : Stream) : Prop := ∀ s e, S.rows s = some e → S.listed = true

theorem Stream.Listed.move (h : S.Listed) (hmove : S.Move env a S') : S'.Listed := by
  intro s e hrow
  cases hmove with
  | thin _ S' hthin =>
    rw [hthin.listed]
    exact h s e (hthin.row hrow)
  | vacate _ hnone =>
    have hrow : S.rows s = some e := hrow
    rw [hnone s] at hrow
    cases hrow
  | seek => exact h s e hrow
  | shelve => exact h s e hrow
  | _ => rfl

theorem Stream.Move.head_stream (hmove : S.Move env a S') : S'.head.stream = S.head.stream := by
  cases hmove with
  | thin _ S' hthin => rw [hthin.head]
  | _ => rfl

/-- The stream of an id, with its rows under their own ids and none beyond the head. -/
structure Stream.Sound (k : StreamId) (S : Stream) : Prop where
  id : S.head.stream = k
  keyed : S.Keyed
  bounded : S.Bounded
  listed : S.Listed

theorem Stream.Sound.move (hS : S.Sound k) (hmove : S.Move env a S') : S'.Sound k :=
  ⟨hmove.head_stream.trans hS.id, hS.keyed.move hmove, hS.bounded.move hmove,
    hS.listed.move hmove⟩

theorem Stream.Sound.moves (h : S.Sound k) (hmoves : S.Moves env P S') : S'.Sound k :=
  hmoves.preserves (fun _ _ _ _ hS hmove => hS.move hmove) h

/-- What sound streams keep under every allowed move, moves keep. -/
theorem Stream.Moves.preserves_sound {I : Stream → Prop} (h : S.Moves env P S') (hS : S.Sound k)
    (hstep : ∀ a S S', P a → S.Sound k → I S → S.Move env a S' → I S') (hI : I S) : I S' :=
  (h.preserves (I := fun S => S.Sound k ∧ I S)
    (fun a S S' ha hS hmove => ⟨hS.1.move hmove, hstep a S S' ha hS.1 hS.2 hmove⟩) ⟨hS, hI⟩).2

theorem Stream.Sound.topic (h : S.Sound k) : S.head.topic = k.1 := congrArg Prod.fst h.id

theorem Stream.Sound.writer (h : S.Sound k) : S.head.writer = k.2 := congrArg Prod.snd h.id

theorem Stream.Sound.row_stream (h : S.Sound k) (hrow : S.rows s = some e) : e.stream = k := by
  have hid := h.keyed s e hrow
  exact Prod.ext ((congrArg (fun id : EntryId => id.1) hid).trans h.topic)
    ((congrArg (fun id : EntryId => id.2.1) hid).trans h.writer)

theorem Stream.Sound.row_seq (h : S.Sound k) (hrow : S.rows s = some e) : e.seq = s :=
  congrArg (fun id : EntryId => id.2.2) (h.keyed s e hrow)

theorem Stream.Sound.row_le (h : S.Sound k) (hrow : S.rows s = some e) : s ≤ S.head.contigSeq := by
  by_contra hlt
  rw [h.bounded s (Nat.lt_of_not_le hlt)] at hrow
  cases hrow

namespace View

variable {v v' : View}

def Sound (v : View) : Prop := ∀ k, (v.streams k).Sound k

/-- Every stream of the second view is made of the first one's by moves of its allowed kinds. -/
def Moves (env : Env) (P : StreamId → Act → Prop) (v v' : View) : Prop :=
  ∀ k, (v.streams k).Moves env (P k) (v'.streams k)

namespace Moves

variable {P P' : StreamId → Act → Prop}

theorem refl (v : View) : v.Moves env P v := fun k => .refl (v.streams k)

theorem trans {v₁ v₂ v₃ : View} (h : v₁.Moves env P v₂) (h' : v₂.Moves env P v₃) :
    v₁.Moves env P v₃ := fun k => (h k).trans (h' k)

theorem mono (h : v.Moves env P v') (hP : ∀ k a, P k a → P' k a) : v.Moves env P' v' :=
  fun k => (h k).mono (hP k)

theorem withLocal (h : (v.streams k).Moves env (P k) L.stream) :
    v.Moves env P (v.withLocal k L) := by
  intro k'
  by_cases hk : k' = k
  · subst hk
    rw [View.withLocal_streams_self]
    exact h
  · rw [View.withLocal_streams_of_ne _ hk]
    exact .refl _

theorem sound (h : v.Moves env P v') (hv : v.Sound) : v'.Sound := fun k => (hv k).moves (h k)

theorem thinned (h : v.Thinned v') (hP : ∀ k, P k .thin) : v.Moves env P v' :=
  fun k => .one (hP k) (.thin _ _ (h.streams k))

end Moves

end View

end Seqscribe
