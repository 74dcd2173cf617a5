import Mathlib.Data.List.Sort

/-! Replaying records in the order of their keys. -/

namespace Replay
set_option autoImplicit true

/-- The key of the last record. -/
def lastKey (key : ε → ω) (X : List ε) : Option ω := X.getLast?.map key

@[simp] theorem lastKey_nil : lastKey key [] = none := rfl

@[simp] theorem lastKey_append_cons : lastKey key (X ++ y :: Y) = lastKey key (y :: Y) := by
  simp [lastKey, List.getLast?_append, List.getLast?_cons]

theorem eq_nil_of_lastKey (h : lastKey key X = none) : X = [] := by
  simpa [lastKey] using h

variable [LinearOrder ω]

/-- `X` lists, in key order, only records among `all` and every record of `seen`. -/
structure Covers (key : ε → ω) (seen all : ε → Prop) (X : List ε) : Prop where
  sorted : X.Pairwise fun a b => key a < key b
  sound : ∀ e ∈ X, all e
  complete : ∀ e, seen e → e ∈ X

variable {key : ε → ω}

theorem Covers.nil (h : ∀ e, ¬ seen e) : Covers key seen all [] :=
  ⟨List.Pairwise.nil, by simp, fun e he => absurd he (h e)⟩

theorem Covers.mono (h : Covers key seen all X) (hseen : ∀ e, seen' e → seen e)
    (hall : ∀ e, all e → all' e) : Covers key seen' all' X :=
  ⟨h.sorted, fun e he => hall e (h.sound e he), fun e he => h.complete e (hseen e he)⟩

theorem sorted_ext {X Y : List ε} (hX : X.Pairwise fun a b => key a < key b)
    (hY : Y.Pairwise fun a b => key a < key b) (h : ∀ e, e ∈ X ↔ e ∈ Y) : X = Y := by
  have hne : ∀ {a b : ε}, key a < key b → a ≠ b := by
    intro a b hab he
    exact absurd hab (by rw [he]; exact lt_irrefl _)
  have hperm : X.Perm Y :=
    (List.perm_ext_iff_of_nodup (hX.imp hne) (hY.imp hne)).2 h
  apply hperm.eq_of_pairwise _ hX hY
  intro a b _ _ hab hba
  exact absurd (hab.trans hba) (lt_irrefl _)

/-- Two complete replays of the same records are the same. -/
theorem Covers.eq (hX : Covers key all all X) (hY : Covers key all all Y) : X = Y := by
  apply sorted_ext hX.sorted hY.sorted
  intro e
  exact ⟨fun he => hY.complete e (hX.sound e he), fun he => hX.complete e (hY.sound e he)⟩

theorem Covers.append (h : Covers key seen all X) (hsorted : Y.Pairwise fun a b => key a < key b)
    (hlt : ∀ x ∈ X, ∀ y ∈ Y, key x < key y) (hall : ∀ x ∈ X, all' x) (hsound : ∀ y ∈ Y, all' y)
    (hseen : ∀ e, seen' e → seen e ∨ e ∈ Y) : Covers key seen' all' (X ++ Y) where
  sorted := List.pairwise_append.2 ⟨h.sorted, hsorted, hlt⟩
  sound := by
    intro e he
    rcases List.mem_append.1 he with hX | hY
    · exact hall e hX
    · exact hsound e hY
  complete := by
    intro e he
    rcases hseen e he with hs | hY
    · exact List.mem_append_left _ (h.complete e hs)
    · exact List.mem_append_right _ hY

/-- The part of a replay up to one of its records covers everything at or below that record. -/
theorem Covers.upTo (h : Covers key seen all (P ++ e :: Q)) :
    Covers key (fun x => seen x ∧ key x ≤ key e) (fun x => all x ∧ key x ≤ key e) (P ++ [e]) := by
  have hsplit : P ++ e :: Q = (P ++ [e]) ++ Q := by simp
  rw [hsplit] at h
  obtain ⟨hP, -, hlt⟩ := List.pairwise_append.1 h.sorted
  refine ⟨hP, ?_, ?_⟩
  · intro x hx
    refine ⟨h.sound x (List.mem_append_left _ hx), ?_⟩
    rcases List.mem_append.1 hx with hx | hx
    · exact le_of_lt ((List.pairwise_append.1 hP).2.2 x hx e (by simp))
    · rw [List.mem_singleton.1 hx]
  · rintro x ⟨hseen, hle⟩
    rcases List.mem_append.1 (h.complete x hseen) with hx | hx
    · exact hx
    · exact absurd (hlt e (by simp) x hx) (not_lt.2 hle)

theorem le_lastKey (hX : X.Pairwise fun a b => key a < key b) (h : lastKey key X = some o)
    (hx : x ∈ X) : key x ≤ o := by
  obtain ⟨l, hl, rfl⟩ := Option.map_eq_some_iff.1 h
  obtain ⟨P, rfl⟩ := List.getLast?_eq_some_iff.1 hl
  rcases List.mem_append.1 hx with hx | hx
  · exact le_of_lt ((List.pairwise_append.1 hX).2.2 x hx l (by simp))
  · rw [List.mem_singleton.1 hx]

/-- The records strictly after a cursor. -/
def after (key : ε → ω) (cursor : Option ω) (L : List ε) : List ε :=
  L.filter fun e => decide (∀ o ∈ cursor, o < key e)

theorem mem_after : e ∈ after key cursor L ↔ e ∈ L ∧ ∀ o ∈ cursor, o < key e := by
  simp [after]

@[simp] theorem after_none : after key none L = L := by
  simp [after]

/-- Reading on from the last record of a batch yields the rest. -/
theorem after_lastKey_take {L : List ε} (hL : L.Pairwise fun a b => key a < key b)
    (h : (after key cursor L).take n ≠ []) :
    after key (lastKey key ((after key cursor L).take n)) L = (after key cursor L).drop n := by
  have hM : (after key cursor L).Pairwise fun a b => key a < key b := hL.filter _
  have hsplit := List.take_append_drop n (after key cursor L)
  obtain ⟨l, hl⟩ : ∃ l, ((after key cursor L).take n).getLast? = some l := by
    cases hg : ((after key cursor L).take n).getLast? with
    | none => exact absurd (List.getLast?_eq_none_iff.1 hg) h
    | some l => exact ⟨l, rfl⟩
  have hlast : lastKey key ((after key cursor L).take n) = some (key l) := by
    rw [lastKey, hl]
    rfl
  have hlt : ∀ x ∈ (after key cursor L).take n, ∀ y ∈ (after key cursor L).drop n,
      key x < key y := by
    rw [← hsplit] at hM
    exact (List.pairwise_append.1 hM).2.2
  have hlmem : l ∈ (after key cursor L).take n := List.mem_of_getLast? hl
  rw [hlast]
  apply sorted_ext (X := after key (some (key l)) L) (hL.filter _)
    (hM.sublist (List.drop_sublist _ _))
  intro e
  rw [mem_after]
  constructor
  · rintro ⟨he, hgt⟩
    have hgt := hgt (key l) rfl
    have hafter : e ∈ after key cursor L := by
      rw [mem_after]
      refine ⟨he, fun o ho => ?_⟩
      exact ((mem_after.1 (List.mem_of_mem_take hlmem)).2 o ho).trans hgt
    rw [← hsplit] at hafter
    rcases List.mem_append.1 hafter with hx | hx
    · have hle := le_lastKey (hM.sublist (List.take_sublist _ _)) hlast hx
      exact absurd hgt (not_lt.2 hle)
    · exact hx
  · intro he
    refine ⟨(mem_after.1 (List.mem_of_mem_drop he)).1, ?_⟩
    rintro o ⟨⟩
    exact hlt l hlmem e he

/-- In a sorted list the records up to a bound come first. -/
theorem filter_le_eq_takeWhile {L : List ε} (hL : L.Pairwise fun a b => key a < key b) (o : ω) :
    L.filter (fun e => decide (key e ≤ o)) = L.takeWhile fun e => decide (key e ≤ o) := by
  induction L with
  | nil => rfl
  | cons e L ih =>
    obtain ⟨hlt, hL⟩ := List.pairwise_cons.1 hL
    by_cases he : key e ≤ o
    · simp [he, ih hL]
    · have hnil : L.filter (fun e => decide (key e ≤ o)) = [] := by
        rw [List.filter_eq_nil_iff]
        intro x hx hle
        exact he ((le_of_lt (hlt x hx)).trans (by simpa using hle))
      simp [he, hnil]

end Replay
