import Seqscribe.Beacon

namespace Seqscribe
set_option autoImplicit true

namespace Beacon

variable {history : List BeaconReport} {token : Option String}
  {store : Option BeaconBoard} {s t u : Beacon}

theorem getElem?_snoc {l : List α} {i : Nat} (h : l[i]? = some x) : (l ++ [y])[i]? = some x := by
  rw [List.getElem?_append_left (List.getElem?_eq_some_iff.1 h).1, h]

/-- A board holds the `i`th report that was taken, or a newer one of its node. -/
def Retains (history : List BeaconReport) (B : BeaconBoard) (i : Nat) : Prop :=
  ∃ r, history[i]? = some r ∧
    ∃ j r', i ≤ j ∧ history[j]? = some r' ∧ r'.node = r.node ∧ B.get r.node = some r'

def stored (s : Beacon) : BeaconBoard := s.store.getD .empty

/-- Every report whose save has succeeded is in the stored board, or a newer one of its node. -/
def Durable (s : Beacon) : Prop := ∀ i ∈ s.kept, Retains s.taken s.stored i

/-- A save takes its turn only when a load of the account has succeeded, or when the stored board
has no report of a node that the board of the isolate lacks. -/
def Covered (s : Beacon) : Action → Prop
  | .saveStarts => s.hydrated = true ∨ ∀ r ∈ s.stored.rows, (s.board.get r.node).isSome = true
  | _ => True

instance (s : Beacon) (a : Action) : Decidable (s.Covered a) :=
  match a with
  | .saveStarts => inferInstanceAs (Decidable (_ ∨ _))
  | .arrive _ | .loadReads | .loadReturns | .loadFails | .resume _ | .saveWrites | .saveReturns
  | .saveFails | .evict => isTrue trivial

theorem get_seed (acct : BeaconBoard) (saved : Option BeaconBoard) (n : WriterId) :
    (seed acct saved).get n = (acct.get n).or ((saved.getD .empty).get n) :=
  Table.get_foldl_insertIgnore _ _ _

theorem Retains.seed (h : Retains history B i) : Retains history (seed B saved) i := by
  obtain ⟨r, hr, j, r', hle, hr', hnode, hget⟩ := h
  have hseed : (Beacon.seed B saved).get r.node = some r' := by rw [get_seed, hget, Option.some_or]
  exact ⟨r, hr, j, r', hle, hr', hnode, hseed⟩

theorem Retains.snoc (h : Retains history B i) (r : BeaconReport) :
    Retains (history ++ [r]) B i := by
  obtain ⟨r₀, hr, j, r', hle, hr', hnode, hget⟩ := h
  exact ⟨r₀, getElem?_snoc hr, j, r', hle, getElem?_snoc hr',
    hnode, hget⟩

/-- A report that is set on the board takes the place of the older ones of its node only. -/
theorem Retains.upsert (h : Retains history B i) (r : BeaconReport) :
    Retains (history ++ [r]) (B.upsert r) i := by
  obtain ⟨r₀, hr, j, r', hle, hr', hnode, hget⟩ := h
  by_cases hn : r.node = r₀.node
  · have hlt := (List.getElem?_eq_some_iff.1 hr).1
    exact ⟨r₀, getElem?_snoc hr, history.length, r, Nat.le_of_lt hlt,
      List.getElem?_concat_length, hn, by rw [Table.get_upsert, if_pos hn]⟩
  · exact ⟨r₀, getElem?_snoc hr, j, r', hle, getElem?_snoc hr',
      hnode, by rw [Table.get_upsert, if_neg hn, hget]⟩

theorem Retains.congr (hget : ∀ n, B.get n = C.get n) (h : Retains history B i) :
    Retains history C i := by
  obtain ⟨r, hr, j, r', hle, hr', hnode, hB⟩ := h
  exact ⟨r, hr, j, r', hle, hr', hnode, (hget _).symm.trans hB⟩

/-- A board seeded from nothing is the stored one. -/
theorem Retains.seed_empty {store : Option BeaconBoard} (h : Retains history (store.getD .empty) i) :
    Retains history (Beacon.seed .empty store) i := by
  apply h.congr
  intro n
  rw [get_seed]
  exact Option.none_or.symm

theorem Retains.seed_upsert (h : Retains history (Beacon.seed B saved) i) (r : BeaconReport) :
    Retains (history ++ [r]) (Beacon.seed (B.upsert r) saved) i := by
  apply (h.upsert r).congr
  intro n
  rw [Table.get_upsert, get_seed, get_seed, Table.get_upsert]
  split
  next => exact Option.some_or.symm
  next => rfl

theorem retains_upsert_self (B : BeaconBoard) (r : BeaconReport) :
    Retains (history ++ [r]) (B.upsert r) history.length :=
  ⟨r, List.getElem?_concat_length, history.length, r, Nat.le_refl _, List.getElem?_concat_length,
    rfl, by rw [Table.get_upsert, if_pos rfl]⟩

/-- A board that has every node of another retains what the other, under it, retains. -/
theorem Retains.of_seed {B : BeaconBoard} {saved : Option BeaconBoard} (h : Retains history (Beacon.seed B saved) i)
    (hnodes : ∀ r ∈ (saved.getD .empty).rows, (B.get r.node).isSome = true) :
    Retains history B i := by
  obtain ⟨r, hr, j, r', hle, hr', hnode, hget⟩ := h
  refine ⟨r, hr, j, r', hle, hr', hnode, ?_⟩
  rw [get_seed] at hget
  cases hB : B.get r.node with
  | some _ => rwa [hB, Option.some_or] at hget
  | none =>
    rw [hB, Option.none_or] at hget
    obtain ⟨hmem, hnode'⟩ := Table.get_eq_some_iff.1 hget
    have hsome := hnodes r' hmem
    rw [hnode', hB] at hsome
    cases hsome

def RetainsAll (history : List BeaconReport) (kept : List Nat) (B : BeaconBoard) : Prop :=
  ∀ i ∈ kept, Retains history B i

/-- What a save in progress has: its report is on the board and in its snapshot, and both retain
every report that is kept. -/
structure SaveSound (history : List BeaconReport) (kept : List Nat) (board : BeaconBoard)
    (store : Option BeaconBoard) (save : BoardSave) : Prop where
  onBoard : Retains history board save.report
  inSnapshot : Retains history save.snapshot save.report
  board : RetainsAll history kept board
  snapshot : RetainsAll history kept save.snapshot
  written : save.written = true → store = some save.snapshot

structure Sound (s : Beacon) : Prop where
  durable : s.Durable
  /-- The nodes that the board has, it has at least as new as the stored board. -/
  board : RetainsAll s.taken s.kept (seed s.board s.store)
  hydrated : s.hydrated = true → RetainsAll s.taken s.kept s.board
  loading : ∀ saved, s.hydrating = some (.read saved) →
    RetainsAll s.taken s.kept (seed s.board saved)
  chain : RetainsAll s.taken s.saveChain s.board
  saving : ∀ save, s.saving = some save → SaveSound s.taken s.kept s.board s.store save

theorem sound_init (token : Option String) (store : Option BeaconBoard) :
    (init token store).Sound := by
  have hstored : ∀ i ∈ (init token store).kept,
      Retains (init token store).taken (init token store).stored i := by
    intro i hi
    have hr := List.getElem?_eq_getElem (List.mem_range.1 hi)
    exact ⟨_, hr, i, _, Nat.le_refl i, hr, rfl, Table.get_of_mem (List.getElem_mem _)⟩
  exact ⟨hstored, fun i hi => (hstored i hi).seed_empty, nofun, nofun, nofun, nofun⟩

/-- A load that ends lets the requests go on, and changes nothing that is kept. -/
theorem Sound.loadEnds (h : Sound s) : s.loadEnds.Sound :=
  ⟨h.durable, h.board, h.hydrated, nofun, h.chain, h.saving⟩

theorem Sound.hydrate (h : Sound s) (r : BeaconRequest) : (s.hydrate r).Sound := by
  rw [Beacon.hydrate]
  split
  next => exact ⟨h.durable, h.board, h.hydrated, h.loading, h.chain, h.saving⟩
  next =>
    have hloading : ∀ saved, some (s.hydrating.getD .asked) = some (.read saved) →
        RetainsAll s.taken s.kept (seed s.board saved) := by
      intro saved hread
      cases hl : s.hydrating with
      | none =>
        rw [hl] at hread
        cases hread
      | some l =>
        rw [hl] at hread
        exact h.loading saved (hl.trans hread)
    exact ⟨h.durable, h.board, h.hydrated, hloading, h.chain, h.saving⟩

theorem Sound.arrive (h : Sound s) (req : FetchRequest) : (s.arrive req).Sound := by
  rw [Beacon.arrive]
  split
  next => exact ⟨h.durable, h.board, h.hydrated, h.loading, h.chain, h.saving⟩
  next r _ => exact h.hydrate r

/-- The seed of a load goes under what the isolate accepted, so nothing older comes up. -/
theorem Sound.seeded (h : Sound s) (hl : s.hydrating = some (.read saved)) :
    Sound ({ s with board := seed s.board saved, hydrated := true }).loadEnds := by
  have hboard := h.loading saved hl
  have hsaving : ∀ save, s.saving = some save →
      SaveSound s.taken s.kept (seed s.board saved) s.store save := by
    intro save hsave
    have hs := h.saving save hsave
    exact ⟨hs.onBoard.seed, hs.inSnapshot, hboard, hs.snapshot, hs.written⟩
  exact ⟨h.durable, fun i hi => (hboard i hi).seed, fun _ => hboard, nofun,
    fun i hi => (h.chain i hi).seed, hsaving⟩

theorem Sound.serve (h : Sound s) (r : BeaconRequest) : (s.serve r).Sound := by
  cases r with
  | get => exact ⟨h.durable, h.board, h.hydrated, h.loading, h.chain, h.saving⟩
  | post report =>
    have hchain : RetainsAll (s.taken ++ [report]) (s.saveChain ++ [s.taken.length])
        (s.board.upsert report) := by
      intro i hi
      rcases List.mem_append.1 hi with hi | hi
      · exact (h.chain i hi).upsert report
      · obtain rfl := List.mem_singleton.1 hi
        exact retains_upsert_self _ _
    have hsaving : ∀ save, s.saving = some save →
        SaveSound (s.taken ++ [report]) s.kept (s.board.upsert report) s.store save := by
      intro save hsave
      have hs := h.saving save hsave
      exact ⟨hs.onBoard.upsert report, hs.inSnapshot.snoc report,
        fun i hi => (hs.board i hi).upsert report, fun i hi => (hs.snapshot i hi).snoc report,
        hs.written⟩
    exact ⟨fun i hi => (h.durable i hi).snoc report, fun i hi => (h.board i hi).seed_upsert report,
      fun hh i hi => (h.hydrated hh i hi).upsert report,
      fun saved hl i hi => (h.loading saved hl i hi).seed_upsert report, hchain, hsaving⟩

/-- A save that takes its turn under the condition has every report that is kept in its snapshot. -/
theorem Sound.saveStarts (h : Sound s) (hc : s.Covered .saveStarts)
    (hchain : s.saveChain = i :: rest) :
    Sound { s with saveChain := rest, saving := some ⟨i, s.board, false⟩ } := by
  have hboard : RetainsAll s.taken s.kept s.board := by
    intro j hj
    rcases hc with hh | hnodes
    · exact h.hydrated hh j hj
    · exact (h.board j hj).of_seed hnodes
  have hi : Retains s.taken s.board i := h.chain i (hchain ▸ List.mem_cons_self)
  have hrest : RetainsAll s.taken rest s.board :=
    fun j hj => h.chain j (hchain ▸ List.mem_cons_of_mem i hj)
  refine ⟨h.durable, h.board, h.hydrated, h.loading, hrest, ?_⟩
  intro save hsave
  obtain rfl := Option.some.inj hsave
  exact ⟨hi, hi, hboard, hboard, nofun⟩

theorem Sound.saveWrites (h : Sound s) (hsave : s.saving = some ⟨i, snapshot, false⟩) :
    Sound { s with store := some snapshot, saving := some ⟨i, snapshot, true⟩ } := by
  have hs := h.saving _ hsave
  refine ⟨hs.snapshot, fun j hj => (hs.board j hj).seed, h.hydrated, h.loading, h.chain, ?_⟩
  intro save hsave'
  obtain rfl := Option.some.inj hsave'
  exact ⟨hs.onBoard, hs.inSnapshot, hs.board, hs.snapshot, fun _ => rfl⟩

theorem Sound.saveEnds (h : Sound s) : s.saveEnds.Sound :=
  ⟨h.durable, h.board, h.hydrated, h.loading, h.chain, nofun⟩

/-- The report of a save that succeeds joins those that are kept. -/
theorem Sound.saveReturns (h : Sound s) (hsave : s.saving = some ⟨i, snapshot, true⟩) :
    Sound ({ s with kept := s.kept ++ [i] }).saveEnds := by
  have hs := h.saving _ hsave
  have hsnoc (B : BeaconBoard) (hB : RetainsAll s.taken s.kept B) (hi : Retains s.taken B i) :
      RetainsAll s.taken (s.kept ++ [i]) B := by
    intro j hj
    rcases List.mem_append.1 hj with hj | hj
    · exact hB j hj
    · exact List.mem_singleton.1 hj ▸ hi
  have hstored : Retains s.taken s.stored i := by
    rw [stored, hs.written rfl]
    exact hs.inSnapshot
  have hboard : RetainsAll s.taken (s.kept ++ [i]) s.board := hsnoc _ hs.board hs.onBoard
  exact ⟨hsnoc _ h.durable hstored, fun j hj => (hboard j hj).seed, fun _ => hboard,
    fun _ _ j hj => (hboard j hj).seed, h.chain, nofun⟩

theorem Sound.evict (h : Sound s) : Sound { s with
    board := .empty, hydrated := false, hydrating := none, waiting := [], resumable := []
    saveChain := [], saving := none } :=
  ⟨h.durable, fun i hi => (h.durable i hi).seed_empty, nofun, nofun, nofun, nofun⟩

theorem Sound.step (h : Sound s) (hc : s.Covered a) (hstep : s.step a = some s') : s'.Sound := by
  cases a with
  | arrive req => exact Option.some.inj hstep ▸ h.arrive req
  | loadReads =>
    simp only [Beacon.step] at hstep
    split at hstep
    next =>
      obtain rfl := Option.some.inj hstep
      refine ⟨h.durable, h.board, h.hydrated, ?_, h.chain, h.saving⟩
      intro saved hsaved
      cases hsaved
      exact h.board
    next => cases hstep
  | loadReturns =>
    simp only [Beacon.step] at hstep
    split at hstep
    next hl => exact Option.some.inj hstep ▸ h.seeded hl
    next => cases hstep
  | loadFails =>
    simp only [Beacon.step] at hstep
    split at hstep
    next => exact Option.some.inj hstep ▸ h.loadEnds
    next => cases hstep
  | resume i =>
    simp only [Beacon.step] at hstep
    split at hstep
    next r _ =>
      have hpop : Sound { s with resumable := s.resumable.eraseIdx i } :=
        ⟨h.durable, h.board, h.hydrated, h.loading, h.chain, h.saving⟩
      exact Option.some.inj hstep ▸ hpop.serve r
    next => cases hstep
  | saveStarts =>
    simp only [Beacon.step] at hstep
    split at hstep
    next hchain => exact Option.some.inj hstep ▸ h.saveStarts hc hchain
    next => cases hstep
  | saveWrites =>
    simp only [Beacon.step] at hstep
    split at hstep
    next hsave => exact Option.some.inj hstep ▸ h.saveWrites hsave
    next => cases hstep
  | saveReturns =>
    simp only [Beacon.step] at hstep
    split at hstep
    next hsave => exact Option.some.inj hstep ▸ h.saveReturns hsave
    next => cases hstep
  | saveFails =>
    simp only [Beacon.step] at hstep
    split at hstep
    next => exact Option.some.inj hstep ▸ h.saveEnds
    next => cases hstep
  | evict => exact Option.some.inj hstep ▸ h.evict

/-- In every run whose saves take their turn under the condition, no report is lost. -/
theorem durable_of_covered (h : Trace step Covered (init token store) as s) : s.Durable :=
  (h.keeps Sound (sound_init token store) fun _ _ _ ht hc hstep => ht.step hc hstep).durable

def sampleReport (node : WriterId) : BeaconReport := ⟨node, "1970-01-01T00:00:00.000Z", .empty, none⟩

def samplePost (node : WriterId) : FetchRequest := ⟨none, true, "POST", some (sampleReport node)⟩

def sampleStore : Option BeaconBoard := some (Table.empty.upsert (sampleReport "b"))

def loadAndPost : List Action :=
  [.arrive (samplePost "a"), .loadReads, .loadReturns, .resume 0, .saveStarts, .saveWrites,
    .saveReturns]

theorem durable_of_load_and_post :
    ((runTrace step Covered (init none sampleStore) loadAndPost).get rfl).Durable :=
  durable_of_covered (Trace.of_runTrace (Option.some_get _).symm)

/-- A save under any other condition loses the report of the node that its snapshot lacks. -/
theorem not_durable_of_uncovered (hkept : i ∈ s.kept) (hr : s.taken[i]? = some r)
    (hmissing : s.board.get r.node = none) (hstart : s.step .saveStarts = some t)
    (hwrite : t.step .saveWrites = some u) : ¬ u.Durable := by
  simp only [step] at hstart
  split at hstart
  next =>
    obtain rfl := Option.some.inj hstart
    obtain rfl := Option.some.inj hwrite
    intro hdurable
    obtain ⟨r', hr', _, _, _, _, _, hget⟩ := hdurable i hkept
    obtain rfl := Option.some.inj (hr'.symm.trans hr)
    rw [stored, Option.getD_some, hmissing] at hget
    cases hget
  next => cases hstart

/-- The load fails, and the save that follows has the report of the POST alone. -/
theorem failed_load_loses : ¬ ∀ token store as s,
    Trace step (fun _ _ => True) (init token store) as s → s.Durable := by
  intro h
  have hrun : Trace step (fun _ _ => True) (init none sampleStore)
      [.arrive (samplePost "a"), .loadFails, .resume 0, .saveStarts, .saveWrites, .saveReturns] _ :=
    Trace.of_runTrace rfl
  obtain ⟨r, hr, _, _, _, _, _, hget⟩ := h _ _ _ _ hrun 0 (List.mem_of_getElem? (i := 0) rfl)
  cases hr
  cases hget

end Beacon
end Seqscribe
