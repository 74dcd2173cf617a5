import Seqscribe.ViewReplay

namespace Seqscribe
set_option autoImplicit true

open Replay

/-! The backing table of a view. -/

/-- What the documentation asks of a definition: at every state that the fold reaches, rows stay
within the limits and the delta, where there is one, agrees with `rows`. -/
structure ViewDef.Lawful (v : ViewDef S R) : Prop where
  rows_valid : ∀ es, ∀ r ∈ v.rows (v.fold es), v.validRow r = true
  upserts_valid : ∀ delta ∈ v.delta, ∀ es e, ∀ r ∈ (delta (v.fold es) e).1, v.validRow r = true
  delta_agrees : ∀ delta ∈ v.delta, ∀ es e k,
    (Table.ofRows v.rowKey (v.rows (v.reduce (v.fold es) e))).get k =
      (((delta (v.fold es) e).1.filter fun r => v.rowKey r = k).getLast?).or
        (if k ∈ (delta (v.fold es) e).2 then none
          else (Table.ofRows v.rowKey (v.rows (v.fold es))).get k)

/-- The table holds the rows of a state: of each key, the last. -/
def Matches (v : ViewDef S R) (T : Table String R v.rowKey) (s : S) : Prop :=
  ∀ k, T.get k = (Table.ofRows v.rowKey (v.rows s)).get k

namespace ViewHub

variable {S R : Type} {v : ViewDef S R} {topic : Topic} {N : Nat}

/-- The state is one that the reducer reaches. -/
def OnFold (h : ViewHub v) : Prop := ∃ es, h.inst.state = v.fold es

/-- The row cache of a delta-less view mirrors its table. -/
def Cached (h : ViewHub v) : Prop :=
  v.delta = none → ∃ c, h.inst.rowCache = some c ∧ ∀ k, c.get k = h.table.get k

structure InSync (h : ViewHub v) : Prop where
  matched : Matches v h.table h.inst.state
  cached : Cached h

theorem OnFold.folds {h h' : ViewHub v} (hon : OnFold h) (hf : Folds h es h') : OnFold h' := by
  obtain ⟨X, hX⟩ := hon
  exact ⟨X ++ es, by rw [hf.state, hX, ViewDef.fold, ViewDef.fold, List.foldl_append]⟩

/-- The state and every checkpoint are folds of entries, whichever these are. -/
structure Grounded (h : ViewHub v) : Prop where
  state : OnFold h
  points : ∀ c ∈ h.checkpoints.rows, ∃ es, c.2 = v.fold es

theorem Grounded.of_tracks {h : ViewHub v} (ht : Tracks seen all h) : Grounded h where
  state := by
    obtain ⟨X, -, hX⟩ := ht.state
    exact ⟨X, hX⟩
  points := by
    intro c hc
    obtain ⟨X, -, hX⟩ := ht.points c hc
    exact ⟨X, hX⟩

theorem Grounded.folds {h h' : ViewHub v} (hg : Grounded h) (hf : Folds h es h') : Grounded h' where
  state := hg.state.folds hf
  points := by
    intro c hc
    rcases hf.checkpoints c hc with hc | ⟨P, e, Q, -, rfl⟩
    · exact hg.points c hc
    · obtain ⟨X, hX⟩ := hg.state
      refine ⟨X ++ (P ++ [e]), ?_⟩
      dsimp only
      rw [hX, ViewDef.fold, ViewDef.fold, List.foldl_append (l := X)]

theorem ViewDef.Lawful.all_valid (hlaw : v.Lawful) {h : ViewHub v} (hon : OnFold h) :
    (v.rows h.inst.state).all v.validRow = true := by
  obtain ⟨X, hX⟩ := hon
  rw [List.all_eq_true, hX]
  exact hlaw.rows_valid X

theorem rewriteTable_ok (hlaw : v.Lawful) {h : ViewHub v} (hon : OnFold h) :
    ∃ h', rewriteTable h = .ok h' ∧ InSync h' := by
  unfold rewriteTable sortedRows
  rw [if_pos (ViewDef.Lawful.all_valid hlaw hon)]
  refine ⟨_, rfl, fun k => Table.get_ofRows_insertionSort _ k, ?_⟩
  intro hd
  simp only [hd]
  exact ⟨_, rfl, fun k => rfl⟩

theorem insertRows_ok {rs : List R} (hv : ∀ r ∈ rs, v.validRow r = true) (h : ViewHub v) :
    rs.foldlM insertRow h = .ok { h with table := rs.foldl Table.upsert h.table } := by
  induction rs generalizing h with
  | nil => rfl
  | cons r rs ih =>
    have hr : insertRow h r = .ok { h with table := h.table.upsert r } := by
      rw [insertRow, if_pos (hv r (by simp))]
    rw [List.foldlM_cons, hr]
    exact ih (fun r' hr' => hv r' (List.mem_cons_of_mem _ hr')) _

variable [DecidableEq R]

theorem verifyDelta_ok (hlaw : v.Lawful) {h : ViewHub v} (hon : OnFold h) :
    ∃ h', verifyDelta h = .ok h' ∧ (Matches v h.table h.inst.state → Matches v h'.table h.inst.state) := by
  have hrows : h.sortedRows.isSome = true := by
    rw [sortedRows, if_pos (ViewDef.Lawful.all_valid hlaw hon)]
    rfl
  obtain ⟨rows, hrows⟩ := Option.isSome_iff_exists.1 hrows
  unfold verifyDelta
  rw [hrows]
  dsimp only
  split
  · exact ⟨h, rfl, fun hm => hm⟩
  · obtain ⟨h', hr, hsync⟩ := rewriteTable_ok hlaw hon
    refine ⟨h', hr, fun _ => ?_⟩
    have hs := (rewriteTable_folds hr).state
    simp only [List.foldl_nil] at hs
    rw [← hs]
    exact hsync.matched

/-- The reducer step never fails on a lawful view; with a delta it keeps a matching table, without
one it leaves the table and its cache alone. -/
theorem foldEntry_ok (hlaw : v.Lawful) {h : ViewHub v} (hon : OnFold h) (e : LogEntry) :
    ∃ h', foldEntry N h e = .ok h' ∧
      (Matches v h.table (v.reduce h.inst.state e) → Matches v h'.table h'.inst.state) ∧
      (v.delta = none → h'.table = h.table ∧ h'.inst.rowCache = h.inst.rowCache) := by
  have hon' : ∀ h₁ : ViewHub v, h₁.inst.state = v.reduce h.inst.state e → OnFold h₁ := by
    intro h₁ hs
    obtain ⟨X, hX⟩ := hon
    exact ⟨X ++ [e], by rw [hs, hX, ViewDef.fold, ViewDef.fold, List.foldl_append]; rfl⟩
  unfold foldEntry
  dsimp only
  split
  · simp only [checkpoint]
    split
    · next hd =>
      obtain ⟨h', hr, hm⟩ := verifyDelta_ok hlaw (h := checkpointPut { h with
        inst.state := v.reduce h.inst.state e
        inst.ord := some (orderOf e)
        inst.sinceCheckpoint := 0 } (orderOf e) (v.reduce h.inst.state e)) (hon' _ rfl)
      refine ⟨h', hr, fun hmatch => ?_, fun hnone => ?_⟩
      · have hs := (verifyDelta_folds hr).state
        rw [hs]
        exact hm hmatch
      · rw [hnone] at hd
        cases hd
    · exact ⟨_, rfl, fun hm => hm, fun _ => ⟨rfl, rfl⟩⟩
  · exact ⟨_, rfl, fun hm => hm, fun _ => ⟨rfl, rfl⟩⟩

theorem applyEntry_ok (hlaw : v.Lawful) {h : ViewHub v} (hon : OnFold h) (e : LogEntry) :
    ∃ h', applyEntry N h e = .ok h' ∧
      (v.delta.isSome = true → Matches v h.table h.inst.state → Matches v h'.table h'.inst.state) ∧
      (v.delta = none → h'.table = h.table ∧ h'.inst.rowCache = h.inst.rowCache) := by
  unfold applyEntry
  cases hd : v.delta with
  | none =>
    obtain ⟨h', hr, -, hframe⟩ := foldEntry_ok (N := N) hlaw hon e
    exact ⟨h', hr, fun hs => absurd hs (by simp), fun _ => hframe hd⟩
  | some delta =>
    obtain ⟨X, hX⟩ := hon
    have hvalid : ∀ r ∈ (delta h.inst.state e).1, v.validRow r = true := by
      rw [hX]
      exact hlaw.upserts_valid delta hd X e
    have happly : applyDelta h (delta h.inst.state e) = _ := insertRows_ok hvalid _
    obtain ⟨h', hr, hm, -⟩ := foldEntry_ok (N := N) hlaw (h := { h with
      table := (delta h.inst.state e).1.foldl Table.upsert
        ((delta h.inst.state e).2.foldl Table.delete h.table) }) ⟨X, hX⟩ e
    refine ⟨h', ?_, fun _ hmatch => hm ?_, fun hn => absurd hn (by simp)⟩
    · dsimp only
      rw [happly]
      exact hr
    · intro k
      dsimp only
      rw [Table.get_foldl_upsert, Table.get_foldl_delete, hmatch k, hX,
        hlaw.delta_agrees delta hd X e k]

theorem applyEntries_ok (hlaw : v.Lawful) {h : ViewHub v} (hon : OnFold h) (es : List LogEntry) :
    ∃ h', es.foldlM (applyEntry N) h = .ok h' ∧ OnFold h' ∧
      (v.delta.isSome = true → Matches v h.table h.inst.state → Matches v h'.table h'.inst.state) ∧
      (v.delta = none → h'.table = h.table ∧ h'.inst.rowCache = h.inst.rowCache) := by
  induction es generalizing h with
  | nil => exact ⟨h, rfl, hon, fun _ hm => hm, fun _ => ⟨rfl, rfl⟩⟩
  | cons e es ih =>
    obtain ⟨h₁, hr₁, hm₁, hf₁⟩ := applyEntry_ok (N := N) hlaw hon e
    obtain ⟨h', hr, hon', hm, hf⟩ := ih (hon.folds (applyEntry_folds hr₁))
    refine ⟨h', ?_, hon', fun hs hmatch => hm hs (hm₁ hs hmatch), fun hn => ?_⟩
    · rw [List.foldlM_cons, hr₁]
      exact hr
    · exact ⟨(hf hn).1.trans (hf₁ hn).1, (hf hn).2.trans (hf₁ hn).2⟩

theorem foldEntries_ok (hlaw : v.Lawful) {h : ViewHub v} (hon : OnFold h) (es : List LogEntry) :
    ∃ h', es.foldlM (foldEntry N) h = .ok h' ∧ OnFold h' := by
  induction es generalizing h with
  | nil => exact ⟨h, rfl, hon⟩
  | cons e es ih =>
    obtain ⟨h₁, hr₁, -⟩ := foldEntry_ok (N := N) hlaw hon e
    obtain ⟨h', hr, hon'⟩ := ih (hon.folds (foldEntry_folds hr₁))
    refine ⟨h', ?_, hon'⟩
    rw [List.foldlM_cons, hr₁]
    exact hr

/-- The rows that differ from the cache bring the table up to date. -/
theorem diffSyncTable_ok (hlaw : v.Lawful) {h : ViewHub v} (hon : OnFold h)
    (hnone : v.delta = none) (hcache : Cached h) :
    ∃ h', diffSyncTable h = .ok h' ∧ InSync h' := by
  obtain ⟨cache, hc, hget⟩ := hcache hnone
  unfold diffSyncTable
  rw [hc]
  dsimp only
  rw [if_pos (ViewDef.Lawful.all_valid hlaw hon)]
  refine ⟨_, rfl, Table.get_diff hget, fun _ => ⟨_, rfl, fun k => ?_⟩⟩
  exact (Table.get_diff hget k).symm

theorem syncTable_ok (hlaw : v.Lawful) {h : ViewHub v} (hon : OnFold h)
    (hdelta : v.delta.isSome = true → Matches v h.table h.inst.state) (hcache : Cached h) :
    ∃ h', syncTable h = .ok h' ∧ InSync h' := by
  unfold syncTable
  split
  · next hd =>
    exact ⟨h, rfl, hdelta hd, hcache⟩
  · next hd =>
    exact diffSyncTable_ok hlaw hon (by simpa using hd) hcache

theorem forwardBatch_ok (hlaw : v.Lawful) {h : ViewHub v} (hon : OnFold h) (hsync : InSync h)
    (batch : List LogEntry) (lastRowid : Nat) :
    ∃ h', forwardBatch N h batch lastRowid = .ok h' ∧ InSync h' := by
  obtain ⟨h₁, hr₁, hon₁, hm, hf⟩ := applyEntries_ok (N := N) hlaw hon batch
  have hcache : Cached h₁ := by
    intro hn
    obtain ⟨c, hc, hget⟩ := hsync.cached hn
    exact ⟨c, (hf hn).2.trans hc, fun k => by rw [hget k, (hf hn).1]⟩
  obtain ⟨h₂, hr₂, hsync₂⟩ := syncTable_ok hlaw hon₁ (fun hd => hm hd hsync.matched) hcache
  refine ⟨{ h₂ with inst.lastRowid := lastRowid }, ?_, hsync₂.matched, hsync₂.cached⟩
  simp only [forwardBatch, hr₁, hr₂, bind, Except.bind]
  rfl

theorem refoldLoop_ok (hlaw : v.Lawful) {h : ViewHub v} (hon : OnFold h) (fuel : Nat)
    (cursor : Option Order) :
    ∃ h', refoldLoop topic N fuel cursor h = .ok h' ∧ OnFold h' := by
  induction fuel generalizing h cursor with
  | zero => exact ⟨h, rfl, hon⟩
  | succ fuel ih =>
    unfold refoldLoop
    cases h.db.entriesAfterOrder topic cursor FOLD_BATCH with
    | nil => exact ⟨h, rfl, hon⟩
    | cons e es =>
      obtain ⟨h₁, hr₁, hon₁⟩ := foldEntries_ok (N := N) hlaw hon (e :: es)
      dsimp only
      rw [hr₁]
      exact ih hon₁ h₁.inst.ord

/-- A refold of a lawful view succeeds and rewrites the table. -/
theorem refoldFrom_lawful (hlaw : v.Lawful) {h : ViewHub v} (hon : OnFold h)
    (hnf : h.inst.faulted = false) (cursor : Option Order) :
    (refoldFrom topic N h cursor).inst.faulted = false ∧
      InSync (refoldFrom topic N h cursor) := by
  obtain ⟨h₁, hr₁, hon₁⟩ := refoldLoop_ok (N := N) hlaw hon
    (h.db.sqLog.rows.length + 1) cursor
  obtain ⟨h₂, hr₂, hsync⟩ := rewriteTable_ok hlaw hon₁
  have hfuel : (after orderOf cursor (h.db.topicEntries topic)).length <
      h.db.sqLog.rows.length + 1 :=
    Nat.lt_succ_of_le ((List.length_filter_le _ _).trans (Db.length_topicEntries_le h.db topic))
  have heq : refoldFrom topic N h cursor = h₂ := by
    unfold refoldFrom
    dsimp only
    rw [hr₁]
    simp only [bind, Except.bind, hr₂]
  rw [heq, (rewriteTable_folds hr₂).faulted, (refoldLoop_folds hfuel hr₁).faulted]
  exact ⟨hnf, hsync⟩

theorem recomputeFrom_lawful (hlaw : v.Lawful) {h : ViewHub v} (hnf : h.inst.faulted = false)
    (hpoints : ∀ c ∈ h.checkpoints.rows, ∃ es, c.2 = v.fold es) (lateOrd : Order) :
    (recomputeFrom topic N h lateOrd).inst.faulted = false ∧
      InSync (recomputeFrom topic N h lateOrd) := by
  unfold recomputeFrom
  cases hc : h.checkpoints.checkpointBefore lateOrd with
  | none =>
    apply refoldFrom_lawful hlaw (h := { h with
      inst.state := v.init
      inst.ord := none
      checkpoints := Table.empty
      inst.sinceCheckpoint := 0 })
    · exact ⟨[], rfl⟩
    · exact hnf
  | some ckpt =>
    apply refoldFrom_lawful hlaw (h := { h with
      inst.state := ckpt.2
      inst.ord := some ckpt.1
      checkpoints := Table.empty.upsert ckpt
      inst.sinceCheckpoint := 0 })
    · exact hpoints ckpt (Checkpoints.mem_checkpointBefore hc).1
    · exact hnf

/-- A turn of the loop on a lawful view succeeds. -/
theorem materializeBatch_lawful (hlaw : v.Lawful) {h : ViewHub v} (hnf : h.inst.faulted = false)
    (hg : Grounded h) (hsync : InSync h) :
    (materializeBatch topic N h).1.inst.faulted = false ∧
      InSync (materializeBatch topic N h).1 := by
  unfold materializeBatch
  dsimp only
  split
  · next first last hfirst hlast =>
    split
    · exact recomputeFrom_lawful hlaw (h := { h with inst.lastRowid := last.rowid }) hnf hg.points _
    · obtain ⟨h', hr, hsync'⟩ := forwardBatch_ok (N := N) hlaw hg.state hsync
        (h.newBatch topic) last.rowid
      obtain ⟨h₁, hf, rfl⟩ := forwardBatch_folds hr
      rw [hr]
      exact ⟨hf.faulted.trans hnf, hsync'⟩
  · exact ⟨hnf, hsync⟩

end ViewHub

end Seqscribe
