import Seqscribe.Heads
import Seqscribe.RegisterHistory
import Seqscribe.RegisterOwned

namespace Seqscribe
set_option autoImplicit true

/-! The conflict frontier of a key, and what a write that loses under `fww` leaves. -/

/-- The `supersedes` list of a `resolve` names an entry. -/
def namesHead (e : LogEntry) (h : EntryId) : Bool :=
  decide (opKind e.kind = .resolve) && (payloadSupersedes e).any fun ids => ids.any (sameIdJson h)

/-- Whether an entry takes a head off the frontier. -/
def dropsHead (lookup : Lookup) (e : LogEntry) (h : EntryId) : Bool :=
  namesHead e h || isAncestor lookup h e || decide (h = e.id)

theorem sameIdJson_inj {h h' : EntryId} {s : JsonValue} (hs : sameIdJson h s = true)
    (hs' : sameIdJson h' s = true) : h = h' := by
  have hstr {s s' : JsString} {x : Option JsonValue} (hx : JsonValue.isStr s x = true)
      (hx' : JsonValue.isStr s' x = true) : s = s' := by
    unfold JsonValue.isStr at hx hx'
    split at hx
    next => exact (of_decide_eq_true hx).symm.trans (of_decide_eq_true hx')
    next => cases hx
  have hnum {n n' : Nat} {x : Option JsonValue} (hx : JsonValue.isNum n x = true)
      (hx' : JsonValue.isNum n' x = true) : n = n' := by
    unfold JsonValue.isNum at hx hx'
    split at hx
    next =>
      have heq := (of_decide_eq_true hx).symm.trans (of_decide_eq_true hx')
      exact_mod_cast heq
    next => cases hx
  obtain ⟨htopic, hwriter, hseq⟩ : _ ∧ _ ∧ _ := by
    simpa only [sameIdJson, Bool.and_eq_true, and_assoc] using hs
  obtain ⟨htopic', hwriter', hseq'⟩ : _ ∧ _ ∧ _ := by
    simpa only [sameIdJson, Bool.and_eq_true, and_assoc] using hs'
  apply Prod.ext (js_injective (hstr htopic htopic'))
  exact Prod.ext (js_injective (hstr hwriter hwriter')) (hnum hseq hseq')

/-- Where at most one element meets a predicate, its first is its only one. -/
theorem eraseIdx_findIdx? {xs : List α} {p : α → Bool} (hnodup : xs.Nodup)
    (hone : ∀ x y, p x = true → p y = true → x = y) {i : Nat} (hi : xs.findIdx? p = some i) :
    xs.eraseIdx i = xs.filter fun x => !p x := by
  have herase : xs.eraseP p = xs.eraseIdx i := by rw [List.eraseP_eq_eraseIdx, hi]
  rw [← herase]
  clear hi herase
  induction xs with
  | nil => rfl
  | cons x xs ih =>
    obtain ⟨hx, hnodup⟩ := List.nodup_cons.1 hnodup
    cases hp : p x with
    | false =>
      rw [List.eraseP_cons_of_neg (Bool.eq_false_iff.1 hp), List.filter_cons_of_pos (by rw [hp]; rfl),
        ih hnodup]
    | true =>
      rw [List.eraseP_cons_of_pos hp, List.filter_cons_of_neg (by rw [hp]; exact Bool.false_ne_true)]
      refine (List.filter_eq_self.2 fun y hy => ?_).symm
      cases hy' : p y with
      | false => rfl
      | true => exact absurd (hone x y hp hy' ▸ hy) hx

/-- The ids that a `resolve` names leave the frontier, whatever their order and repetition. -/
theorem applySupersedes_frontier {ids : List JsonValue} {frontier superseded : List EntryId}
    (hnodup : frontier.Nodup)
    (hr : applySupersedes frontier superseded ids = .ok (frontier', superseded')) :
    frontier' = frontier.filter fun h => !ids.any (sameIdJson h) := by
  induction ids generalizing frontier superseded with
  | nil =>
    cases hr
    exact (List.filter_eq_self.2 fun _ _ => rfl).symm
  | cons s ids ih =>
    have hsplit : (frontier.filter fun h => !(s :: ids).any (sameIdJson h)) =
        (frontier.filter fun h => !sameIdJson h s).filter fun h => !ids.any (sameIdJson h) := by
      rw [List.filter_filter]
      apply List.filter_congr
      intro h _
      rw [List.any_cons, Bool.not_or, Bool.and_comm]
    rw [applySupersedes] at hr
    split at hr
    next => cases hr
    next =>
      rw [hsplit]
      split at hr
      next i hi =>
        have herase := eraseIdx_findIdx? hnodup (fun _ _ => sameIdJson_inj) hi
        rw [herase] at hr
        exact ih (hnodup.filter _) hr
      next hnone =>
        have hall : (frontier.filter fun h => !sameIdJson h s) = frontier := by
          apply List.filter_eq_self.2
          intro h hh
          rw [List.findIdx?_eq_none_iff.1 hnone h hh]
          rfl
        rw [hall]
        exact ih hnodup hr

theorem frontier_foldKeyWrite (lookup : Lookup) (ks : KeyState) (key : Key) (e : LogEntry)
    (policy : ConflictPolicy) (value : Option JsonValue) (isDel : Bool) :
    (foldKeyWrite lookup ks key e policy value isDel).1.frontier =
      newFrontier lookup ks.frontier e := by
  rw [foldKeyWrite_fst]
  split <;> rfl

theorem newFrontier_eq_push (lookup : Lookup) (frontier : List EntryId) {e : LogEntry}
    (hnames : ∀ h, namesHead e h = false) :
    newFrontier lookup frontier e = Heads.push LogEntry.id (dropsHead lookup) frontier e := by
  rw [newFrontier, Heads.push]
  congr 1
  apply List.filter_congr
  intro h _
  rw [dropsHead, hnames, Bool.false_or, Bool.not_or]

/-- A write makes its entry the newest head. -/
theorem frontier_foldKey {d : RegisterDeps} {lookup : Lookup} {ks ks' : KeyState} {key : Key}
    {e : LogEntry} (hkind : opKind e.kind = .set ∨ opKind e.kind = .del ∨ opKind e.kind = .resolve)
    (hpolicy : d.conflictPolicyFor key ≠ .owned) (hnodup : ks.frontier.Nodup)
    (hr : foldKey d lookup ks key e = .ok (ks', events)) :
    ks'.frontier = Heads.push LogEntry.id (dropsHead lookup) ks.frontier e := by
  have hopen : ¬ (d.conflictPolicyFor key = .owned ∧ ¬ ownedWriteAllowed ks e = true) :=
    fun h => hpolicy h.1
  have hclaim (ks : KeyState) : claimOwner ks e (d.conflictPolicyFor key) = ks :=
    if_neg fun h => hpolicy h.1
  have hplain (hk : opKind e.kind ≠ .resolve) (h : EntryId) : namesHead e h = false := by
    rw [namesHead, decide_eq_false hk, Bool.false_and]
  rw [foldKey] at hr
  rcases hkind with hk | hk | hk
  · rw [hk] at hr
    dsimp only at hr
    rw [foldSet, if_neg hopen] at hr
    dsimp only at hr
    rw [hclaim] at hr
    obtain ⟨rfl, -⟩ := Prod.mk.inj (Except.ok.inj hr)
    rw [← newFrontier_eq_push lookup _ (hplain (by rw [hk]; simp))]
    have hreset : (if ks.scalar = true then ks else ks.reset).frontier = ks.frontier := by
      split <;> rfl
    have hw := frontier_foldKeyWrite lookup (if ks.scalar = true then ks else ks.reset) key e
      (d.conflictPolicyFor key) (e.payload.member "value") false
    rw [hreset] at hw
    rw [← hw]
    cases e.ref <;> rfl
  · rw [hk] at hr
    dsimp only at hr
    rw [foldDel, if_neg hopen] at hr
    dsimp only at hr
    rw [hclaim] at hr
    obtain ⟨rfl, -⟩ := Prod.mk.inj (Except.ok.inj hr)
    rw [← newFrontier_eq_push lookup _ (hplain (by rw [hk]; simp))]
    exact frontier_foldKeyWrite ..
  · rw [hk] at hr
    dsimp only at hr
    rw [foldResolve] at hr
    cases hids : payloadSupersedes e with
    | none =>
      rw [hids] at hr
      cases hr
    | some ids =>
      rw [hids] at hr
      dsimp only at hr
      cases hs : applySupersedes ks.frontier ks.superseded ids with
      | error r =>
        rw [hs] at hr
        cases hr
      | ok r =>
        obtain ⟨frontier', superseded'⟩ := r
        rw [hs] at hr
        dsimp only at hr
        have hw := congrArg (fun r : KeyState × List FoldEvent => r.1.frontier) (Except.ok.inj hr)
        dsimp only at hw
        rw [← hw, frontier_foldKeyWrite, newFrontier, Heads.push]
        dsimp only
        rw [applySupersedes_frontier hnodup hs, List.filter_filter]
        congr 1
        apply List.filter_congr
        intro h _
        have hnames : namesHead e h = ids.any (sameIdJson h) := by
          rw [namesHead, hk, hids]
          rfl
        rw [dropsHead, hnames, Bool.not_or, Bool.not_or, Bool.and_comm, Bool.and_assoc]

theorem dropsHead_self (lookup : Lookup) (e : LogEntry) : dropsHead lookup e e.id = true := by
  rw [dropsHead, decide_eq_true rfl, Bool.or_true]

/-- The frontier of a key at the end of a fold of its writes. -/
theorem frontier_foldList {d : RegisterDeps} {lookup : Lookup} {key : Key}
    (hpolicy : d.conflictPolicyFor key ≠ .owned) {es : List LogEntry}
    (hkey : ∀ e ∈ es, e.key = some key)
    (hkind : ∀ e ∈ es,
      opKind e.kind = .set ∨ opKind e.kind = .del ∨ opKind e.kind = .resolve)
    {keys keys' : Keys} (hnodup : (keys.state key).frontier.Nodup)
    (hfold : foldList d lookup keys es = .ok keys') :
    (keys'.state key).frontier.Nodup ∧ (keys'.state key).frontier =
      es.foldl (Heads.push LogEntry.id (dropsHead lookup)) (keys.state key).frontier := by
  induction es generalizing keys with
  | nil =>
    cases hfold
    exact ⟨hnodup, rfl⟩
  | cons e es ih =>
    rw [foldList, List.foldlM_cons, foldRegister, hkey e List.mem_cons_self] at hfold
    dsimp only at hfold
    cases hr : foldKey d lookup (keys.state key) key e with
    | error ks =>
      rw [hr] at hfold
      cases hfold
    | ok r =>
      obtain ⟨ks, events⟩ := r
      rw [hr] at hfold
      replace hfold : foldList d lookup (keys.upsert (key, ks)) es = .ok keys' := hfold
      have hstate : Keys.state (keys.upsert (key, ks)) key = ks := by
        rw [Keys.state, Table.get_upsert, if_pos rfl]
        rfl
      have hpush := frontier_foldKey (hkind e List.mem_cons_self) hpolicy hnodup hr
      have hnodup' : (Keys.state (keys.upsert (key, ks)) key).frontier.Nodup := by
        rw [hstate, hpush]
        exact Heads.nodup_push _ _ hnodup (dropsHead_self lookup e)
      rw [List.foldl_cons, ← hpush]
      rw [← hstate] at hpush ⊢
      exact ih (fun e he => hkey e (List.mem_cons_of_mem _ he))
        (fun e he => hkind e (List.mem_cons_of_mem _ he)) hnodup' hfold

/-- `n` causal pointers, through entries of the list, lead from an entry back to `x`. -/
inductive CausalChain (es : List LogEntry) (x : LogEntry) : Nat → LogEntry → Prop
  | direct (hx : x ∈ es) (h : y.causal = some (x.writer, x.seq)) : CausalChain es x 1 y
  | through (hc : c ∈ es) (h : y.causal = some (c.writer, c.seq)) (hchain : CausalChain es x n c) :
      CausalChain es x (n + 1) y

def CausalAncestor (es : List LogEntry) (x y : LogEntry) : Prop := ∃ n, CausalChain es x n y

/-- Every causal pointer of the list names an entry of the list that the log holds. -/
def PointersHeld (lookup : Lookup) (es : List LogEntry) : Prop :=
  ∀ y ∈ es, ∀ c, y.causal = some c →
    ∃ x ∈ es, c = (x.writer, x.seq) ∧ lookup x.writer x.seq = some x

/-- A bounded walk finds the ancestors within its bound. -/
theorem ancestorWalk_eq_true {lookup : Lookup} {es : List LogEntry}
    (hheld : PointersHeld lookup es)
    (hone : ∀ x ∈ es, ∀ y ∈ es, (x.writer, x.seq) = (y.writer, y.seq) → x = y) {x y : LogEntry}
    (hx : x ∈ es) (hy : y ∈ es) (n : Nat) :
    ancestorWalk lookup x.id n (some y) = true ↔ ∃ m ≤ n, CausalChain es x m y := by
  induction n generalizing y with
  | zero =>
    constructor
    · intro h
      cases h
    · rintro ⟨m, hm, hchain⟩
      cases hchain <;> cases hm
  | succ n ih =>
    rw [ancestorWalk]
    cases hc : y.causal with
    | none =>
      constructor
      · intro h
        cases h
      · rintro ⟨m, -, hchain⟩
        cases hchain with
        | direct _ h =>
          rw [hc] at h
          cases h
        | through _ h _ =>
          rw [hc] at h
          cases h
    | some c =>
      obtain ⟨z, hz, rfl, hlookup⟩ := hheld y hy c hc
      dsimp only
      rw [hlookup]
      split
      next hat =>
        obtain rfl := hone z hz x hx (Prod.ext hat.1 hat.2)
        exact ⟨fun _ => ⟨1, by omega, .direct hz hc⟩, fun _ => rfl⟩
      next hat =>
        rw [ih hz]
        constructor
        · rintro ⟨m, hm, hchain⟩
          exact ⟨m + 1, by omega, .through hz hc hchain⟩
        · rintro ⟨m, hm, hchain⟩
          cases hchain with
          | direct _ h =>
            rw [hc] at h
            obtain ⟨hw, hs⟩ := Prod.mk.inj (Option.some.inj h)
            exact absurd ⟨hw, hs⟩ hat
          | @through c' m _ hc' h hchain =>
            rw [hc] at h
            obtain rfl := hone z hz c' hc' (Option.some.inj h)
            exact ⟨m, by omega, hchain⟩

/-- A fold of writes of a key ends when every `resolve` has a readable list. -/
theorem foldList_ends {d : RegisterDeps} {lookup : Lookup} {key : Key} {es : List LogEntry}
    (hkey : ∀ e ∈ es, e.key = some key) (hok : ∀ e ∈ es, PayloadOk d e) (keys : Keys) :
    ∃ keys', foldList d lookup keys es = .ok keys' := by
  induction es generalizing keys with
  | nil => exact ⟨keys, rfl⟩
  | cons e es ih =>
    obtain ⟨⟨ks, events⟩, hr⟩ := foldKey_ok (hok e List.mem_cons_self) lookup (keys.state key) key
    obtain ⟨keys', hfold⟩ := ih (fun e he => hkey e (List.mem_cons_of_mem _ he))
      (fun e he => hok e (List.mem_cons_of_mem _ he)) (keys.upsert (key, ks))
    refine ⟨keys', ?_⟩
    rw [foldList, List.foldlM_cons, foldRegister, hkey e List.mem_cons_self]
    dsimp only
    rw [hr]
    exact hfold

/-- The frontier of a key is the set of the entries that are no causal ancestor of a later one and
that no later `resolve` names. -/
theorem frontier_causal_maxima (d : RegisterDeps) (lookup : Lookup) (topic : Topic) (key : Key)
    (hpolicy : d.conflictPolicyFor key ≠ .owned) (es : List LogEntry)
    (htopic : ∀ e ∈ es, e.topic = topic) (hkey : ∀ e ∈ es, e.key = some key)
    (hkind : ∀ e ∈ es,
      opKind e.kind = .set ∨ opKind e.kind = .del ∨ opKind e.kind = .resolve)
    (hids : (es.map LogEntry.id).Nodup) (hheld : PointersHeld lookup es)
    (hdepth : ∀ x n y, y ∈ es → CausalChain es x n y → n ≤ ANCESTOR_WALK_CAP) :
    ((∀ e ∈ es, PayloadOk d e) → ∃ keys, foldList d lookup .empty es = .ok keys) ∧
    ∀ keys, foldList d lookup .empty es = .ok keys →
      (keys.state key).frontier.Nodup ∧ ∀ i, i ∈ (keys.state key).frontier ↔
        ∃ earlier x later, es = earlier ++ x :: later ∧ x.id = i ∧
          ∀ y ∈ later, ¬ CausalAncestor es x y ∧ namesHead y i = false := by
  refine ⟨fun hok => foldList_ends hkey hok .empty, fun keys hfold => ?_⟩
  have hstart : (Keys.state .empty key).frontier.Nodup := List.nodup_nil
  obtain ⟨hnodup, hfrontier⟩ := frontier_foldList hpolicy hkey hkind hstart hfold
  refine ⟨hnodup, fun i => ?_⟩
  have hone (x : LogEntry) (hx : x ∈ es) (y : LogEntry) (hy : y ∈ es)
      (heq : (x.writer, x.seq) = (y.writer, y.seq)) : x = y := by
    apply List.inj_on_of_nodup_map hids hx hy
    exact Prod.ext ((htopic x hx).trans (htopic y hy).symm) heq
  have hwalk (x y : LogEntry) (hx : x ∈ es) (hy : y ∈ es) :
      isAncestor lookup x.id y = true ↔ CausalAncestor es x y := by
    rw [isAncestor, ancestorWalk_eq_true hheld hone hx hy]
    constructor
    · rintro ⟨m, -, hchain⟩
      exact ⟨m, hchain⟩
    · rintro ⟨m, hchain⟩
      exact ⟨m, hdepth x m y hy hchain, hchain⟩
  rw [hfrontier, show (Keys.state .empty key).frontier = [] from rfl, Heads.mem_foldl_push]
  constructor
  · rintro ⟨earlier, x, later, rfl, rfl, hkept⟩
    refine ⟨earlier, x, later, rfl, rfl, fun y hy => ?_⟩
    have hdrops := hkept y hy
    rw [dropsHead, Bool.or_eq_false_iff, Bool.or_eq_false_iff] at hdrops
    refine ⟨fun hanc => ?_, hdrops.1.1⟩
    rw [(hwalk x y (by simp) (by simp [hy])).2 hanc] at hdrops
    cases hdrops.1.2
  · rintro ⟨earlier, x, later, rfl, rfl, hkept⟩
    refine ⟨earlier, x, later, rfl, rfl, fun y hy => ?_⟩
    obtain ⟨hanc, hnames⟩ := hkept y hy
    have hwalked : isAncestor lookup x.id y = false :=
      Bool.eq_false_iff.2 fun h => hanc ((hwalk x y (by simp) (by simp [hy])).1 h)
    have hne : x.id ≠ y.id := by
      rw [List.map_append, List.map_cons] at hids
      have hx := (List.nodup_cons.1 (List.nodup_append.1 hids).2.1).1
      exact fun heq => hx (heq ▸ List.mem_map_of_mem hy)
    rw [dropsHead, hnames, hwalked, decide_eq_false hne]
    rfl

/-- A `resolve` by `c` that follows the entry of `a` and names the entry of `b`, twice. -/
def branches : List LogEntry :=
  [setEntry "k" "a" 1 1 none, setEntry "k" "b" 1 2 none,
    { setEntry "k" "c" 1 3 (some ("a", 1)) with
      kind := js "resolve"
      payload := .obj [(js "supersedes", .arr [idJson ("t", "b", 1), idJson ("t", "b", 1)])] },
    setEntry "k" "b" 2 4 (some ("b", 1))]

def branchLookup : Lookup := fun writer seq =>
  branches.find? fun e => decide (e.writer = writer ∧ e.seq = seq)

/-- Every pointer raises the clock. -/
theorem CausalChain.le_hlc {es : List LogEntry}
    (h : ∀ y ∈ es, ∀ x ∈ es, y.causal = some (x.writer, x.seq) → x.hlc.l < y.hlc.l)
    (hy : y ∈ es) (hchain : CausalChain es x n y) : n ≤ y.hlc.l := by
  induction hchain with
  | direct hx hc => exact Nat.lt_of_le_of_lt (Nat.zero_le _) (h _ hy _ hx hc)
  | through hc hp _ ih => exact Nat.lt_of_le_of_lt (ih hc) (h _ hy _ hc hp)

theorem frontier_of_branches : ∃ keys, foldList plainDeps branchLookup .empty branches = .ok keys ∧
    (keys.state (js "k")).frontier.Nodup ∧ ∀ i, i ∈ (keys.state (js "k")).frontier ↔
      ∃ earlier x later, branches = earlier ++ x :: later ∧ x.id = i ∧
        ∀ y ∈ later, ¬ CausalAncestor branches x y ∧ namesHead y i = false := by
  have hraises : ∀ y ∈ branches, ∀ x ∈ branches, y.causal = some (x.writer, x.seq) →
      x.hlc.l < y.hlc.l := by decide +kernel
  have hsmall : ∀ y ∈ branches, y.hlc.l ≤ ANCESTOR_WALK_CAP := by decide +kernel
  have hmain := frontier_causal_maxima plainDeps branchLookup "t" (js "k") nofun branches
    (by decide +kernel) (by decide +kernel) (by decide +kernel) (by decide +kernel) ?_
    fun x n y hy hchain => (hchain.le_hlc hraises hy).trans (hsmall y hy)
  · obtain ⟨keys, hfold⟩ : ∃ keys, foldList plainDeps branchLookup .empty branches = .ok keys :=
      ⟨_, rfl⟩
    exact ⟨keys, hfold, hmain.2 keys hfold⟩
  · intro y hy c hc
    rcases (by simpa [branches] using hy : _ ∨ _ ∨ _ ∨ _) with rfl | rfl | rfl | rfl
    · cases hc
    · cases hc
    · obtain rfl := Option.some.inj hc
      exact ⟨setEntry "k" "a" 1 1 none, List.mem_cons_self, rfl, rfl⟩
    · obtain rfl := Option.some.inj hc
      exact ⟨setEntry "k" "b" 1 2 none, List.mem_cons_of_mem _ List.mem_cons_self, rfl, rfl⟩

/-- A fold step leaves what a key holds. -/
structure Inert (ks ks' : KeyState) : Prop where
  value : ks'.value = ks.value
  winner : ks'.winner = ks.winner
  members : ks'.members = ks.members
  resetGen : ks'.resetGen = ks.resetGen

/-- An entry that does not follow the winning write of its key. -/
def Loses (lookup : Lookup) (ks : KeyState) (e : LogEntry) : Prop :=
  ∃ w o, ks.winner = some w ∧ ks.winnerOrder = some o ∧ isAncestor lookup w e = false

instance (lookup : Lookup) (ks : KeyState) (e : LogEntry) : Decidable (Loses lookup ks e) :=
  decidable_of_iff ((∃ w ∈ ks.winner, isAncestor lookup w e = false) ∧ ks.winnerOrder.isSome)
    ⟨fun ⟨⟨w, hw, hlost⟩, ho⟩ => ⟨w, _, hw, (Option.some_get ho).symm, hlost⟩,
      fun ⟨w, _, hw, ho, hlost⟩ => ⟨⟨w, hw, hlost⟩, Option.isSome_of_eq_some ho⟩⟩

theorem Loses.adoptsWrite {lookup : Lookup} {ks : KeyState} {e : LogEntry}
    (h : Loses lookup ks e) : adoptsWrite lookup ks e .fww = false := by
  obtain ⟨w, o, hw, ho, hlost⟩ := h
  rw [Seqscribe.adoptsWrite, hw, ho]
  exact hlost

theorem Loses.foldKeyWrite {lookup : Lookup} {ks : KeyState} {e : LogEntry}
    (h : Loses lookup ks e) (key : Key) (value : Option JsonValue) (isDel : Bool) :
    (foldKeyWrite lookup ks key e .fww value isDel).1 =
      { ks with frontier := newFrontier lookup ks.frontier e } := by
  rw [foldKeyWrite_fst, h.adoptsWrite, if_neg Bool.false_ne_true]

theorem not_inert_of_reset {ks ks' : KeyState} (h : ks'.resetGen = ks.resetGen + 1) :
    ¬ Inert ks ks' :=
  fun hinert => Nat.succ_ne_self _ (h.symm.trans hinert.resetGen)

theorem Loses.foldSet {lookup : Lookup} {ks : KeyState} {key : Key} {e : LogEntry}
    (h : Loses lookup ks e) (hr : foldSet lookup ks key e .fww = .ok (ks', events)) :
    Inert ks ks' ↔ ks.scalar = true := by
  have hreset : Loses lookup (if ks.scalar = true then ks else ks.reset) e := by
    split
    next => exact h
    next => exact h
  rw [Seqscribe.foldSet, if_neg fun h => by cases h.1] at hr
  dsimp only at hr
  rw [hreset.foldKeyWrite] at hr
  obtain ⟨rfl, -⟩ := Prod.mk.inj (Except.ok.inj hr)
  rw [claimOwner, if_neg fun h => by cases h.1]
  by_cases hscalar : ks.scalar = true
  · refine ⟨fun _ => hscalar, fun _ => ?_⟩
    rw [if_pos hscalar]
    cases e.ref <;> exact ⟨rfl, rfl, rfl, rfl⟩
  · refine ⟨fun hinert => absurd hinert (not_inert_of_reset ?_), fun h => absurd h hscalar⟩
    rw [if_neg hscalar]
    cases e.ref <;> rfl

theorem Loses.foldDel {lookup : Lookup} {ks : KeyState} {key : Key} {e : LogEntry}
    (h : Loses lookup ks e) (hr : foldDel lookup ks key e .fww = .ok (ks', events)) :
    ¬ Inert ks ks' := by
  have hreset : Loses lookup ks.reset e := h
  rw [Seqscribe.foldDel, if_neg fun h => by cases h.1] at hr
  dsimp only at hr
  rw [hreset.foldKeyWrite] at hr
  obtain ⟨rfl, -⟩ := Prod.mk.inj (Except.ok.inj hr)
  rw [claimOwner, if_neg fun h => by cases h.1]
  exact not_inert_of_reset rfl

/-- Under `fww` a write that does not win leaves the key alone exactly when it is a `set` of a key
that holds no members. -/
theorem fww_loser_inert (d : RegisterDeps) (lookup : Lookup) (keys : Keys) (key : Key)
    (e : LogEntry) (hpolicy : d.conflictPolicyFor key = .fww) (hkey : e.key = some key)
    (hkind : opKind e.kind = .set ∨ opKind e.kind = .del)
    (hlost : Loses lookup (keys.state key) e) :
    Inert (keys.state key) ((foldKeys d lookup keys e).state key) ↔
      opKind e.kind = .set ∧ (keys.state key).scalar = true := by
  rw [state_foldKeys, if_pos hkey, foldKeyState]
  generalize keys.state key = ks at hlost
  rcases hkind with hk | hk
  · have hok : PayloadOk d e := by
      rw [PayloadOk, hk]
      trivial
    obtain ⟨⟨ks', events⟩, hr⟩ := foldKey_ok hok lookup ks key
    rw [hr]
    rw [foldKey, hk, hpolicy] at hr
    rw [hlost.foldSet hr]
    exact ⟨fun h => ⟨hk, h⟩, fun h => h.2⟩
  · have hok : PayloadOk d e := by
      rw [PayloadOk, hk]
      trivial
    obtain ⟨⟨ks', events⟩, hr⟩ := foldKey_ok hok lookup ks key
    rw [hr]
    rw [foldKey, hk, hpolicy] at hr
    refine ⟨fun hinert => absurd hinert (hlost.foldDel hr), fun h => ?_⟩
    rw [hk] at h
    cases h.1

/-- First writer wins, for every key. -/
def firstDeps : RegisterDeps := ⟨hostEnv "a", fun _ => .fww, fun _ => true⟩

def addEntry (key member : String) (writer : WriterId) (seq l : Nat) : LogEntry :=
  { setEntry key writer seq l none with
    kind := js "add"
    payload := .obj [(js "member", .str (js member))] }

def delEntry (key : String) (writer : WriterId) (seq l : Nat) : LogEntry :=
  { setEntry key writer seq l none with kind := js "del", payload := .obj [] }

/-- A `set` beside the first one. -/
theorem fww_loser_inert_of_set : ∃ keys,
    foldList firstDeps (fun _ _ => none) .empty [setEntry "k" "a" 1 1 none] = .ok keys ∧
    Inert (keys.state (js "k"))
      ((foldKeys firstDeps (fun _ _ => none) keys (setEntry "k" "b" 1 2 none)).state (js "k")) := by
  refine ⟨_, rfl, ?_⟩
  apply (fww_loser_inert firstDeps (fun _ _ => none) _ (js "k") (setEntry "k" "b" 1 2 none) rfl rfl
    (by decide +kernel) (by decide +kernel)).2
  exact ⟨by decide +kernel, by decide +kernel⟩

/-- A `del` beside the `add` that won removes the member. -/
theorem losing_del_removes_member : ∃ keys,
    foldList firstDeps (fun _ _ => none) .empty [addEntry "k" "m" "a" 1 1] = .ok keys ∧
    Loses (fun _ _ => none) (keys.state (js "k")) (delEntry "k" "b" 1 2) ∧
    ((keys.state (js "k")).member (js "m")).isSome = true ∧
    (((foldKeys firstDeps (fun _ _ => none) keys (delEntry "k" "b" 1 2)).state (js "k")).member
      (js "m")).isSome = false ∧
    ¬ Inert (keys.state (js "k"))
      ((foldKeys firstDeps (fun _ _ => none) keys (delEntry "k" "b" 1 2)).state (js "k")) := by
  refine ⟨_, rfl, by decide +kernel, by decide +kernel, by decide +kernel, ?_⟩
  intro hinert
  exact absurd hinert.resetGen (by decide +kernel)

end Seqscribe
