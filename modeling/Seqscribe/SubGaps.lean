import Seqscribe.Host
import Seqscribe.SubHub
import Seqscribe.Traces

namespace Seqscribe
set_option autoImplicit true

/-! No subscriber misses a delta. -/

/-- The cursor that an event brings the subscriber to: a SNAP counts at its last chunk. -/
def SubEvent.point : SubEvent → Option CursorVal
  | .resume cursor => some cursor
  | .snap chunk count _ cursor => if chunk = count then some cursor else none
  | .delta _ cursor => some cursor
  | .err _ => none

/-- Every delta comes at most one after a point that the subscriber had reached in its epoch. -/
def Gapless (events : List SubEvent) : Prop :=
  ∀ before changes cursor after, events = before ++ .delta changes cursor :: after →
    ∃ e ∈ before, ∃ c, e.point = some c ∧ c.e = cursor.e ∧ cursor.d ≤ c.d + 1

theorem Gapless.nil : Gapless [] := by
  intro before changes cursor after h
  simp at h

theorem Gapless.snoc (h : Gapless events)
    (hlast : ∀ changes cursor, e = .delta changes cursor →
      ∃ e' ∈ events, ∃ c, e'.point = some c ∧ c.e = cursor.e ∧ cursor.d ≤ c.d + 1) :
    Gapless (events ++ [e]) := by
  intro before changes cursor after heq
  cases after using List.reverseRecOn with
  | nil =>
    obtain ⟨rfl, hd⟩ := List.append_inj' heq rfl
    exact hlast changes cursor (List.cons.inj hd).1
  | append_singleton after e' =>
    have heq' : events ++ [e] = (before ++ .delta changes cursor :: after) ++ [e'] := by
      rw [heq, List.append_assoc, List.cons_append]
    exact h before changes cursor after (List.append_inj' heq' rfl).1

theorem Gapless.other (h : Gapless events) (he : ∀ changes cursor, e ≠ .delta changes cursor) :
    Gapless (events ++ [e]) :=
  h.snoc fun changes cursor hd => absurd hd (he changes cursor)

/-- The last event brought the subscriber to a point. -/
def Reaches (events : List SubEvent) (e : String) (d : Int) : Prop :=
  ∃ before last, events = before ++ [last] ∧ last.point = some ⟨e, d⟩

theorem Reaches.snoc (events : List SubEvent) (h : last.point = some ⟨e, d⟩) :
    Reaches (events ++ [last]) e d := ⟨events, last, rfl, h⟩

/-- The journal ends at `deltaSeq` and skips nothing. -/
structure JournalSound (g : SubGroup) : Prop where
  seqs : g.journal.map SubJournalEntry.seq =
    List.range' (g.deltaSeq + 1 - g.journal.length) g.journal.length
  length : g.journal.length ≤ g.deltaSeq

theorem journalSound_nil (h : g.journal = []) : JournalSound g := by
  refine ⟨?_, ?_⟩
  · rw [h]
    rfl
  · rw [h]
    exact Nat.zero_le _

theorem JournalSound.oldest (h : JournalSound g) : g.oldest = g.deltaSeq + 1 - g.journal.length := by
  rw [SubGroup.oldest, ← List.head?_map, h.seqs]
  cases g.journal with
  | nil => rfl
  | cons j journal => rfl

/-- A serve whose subscriber, unless a resync is owed, is at the point `d` of its group's epoch. -/
structure ServeAt (g : SubGroup) (d : Int) (s : ServeState) : Prop where
  gapless : Gapless s.events
  tip : s.resyncing = false → Reaches s.events g.epoch d
  snap : ∀ o, s.snap = some o → s.pending = false ∧ o.cursor = ⟨g.epoch, o.seq⟩ ∧
    o.epoch = g.epoch ∧ o.seq ≤ g.deltaSeq ∧ 1 ≤ o.next ∧ o.next ≤ o.count

theorem ServeState.resyncing_eq_false {s : ServeState} :
    s.resyncing = false ↔ s.pending = false ∧ s.snap = none := by
  rw [resyncing, Bool.or_eq_false_iff, Option.isSome_eq_false_iff, Option.isNone_iff_eq_none]

theorem ServeAt.of_resyncing (h : ServeAt g d s) (hr : s.resyncing = true) : ServeAt g d' s :=
  ⟨h.gapless, fun hn => absurd (hr.symm.trans hn) Bool.noConfusion, h.snap⟩

namespace Serving

variable {env : SubEnv} {g : SubGroup} {x y : Serving} {frame : SubEvent}

theorem serveAt_enterResync (h : ServeAt g d x.state) : ServeAt g d' x.enterResync.state := by
  rw [enterResync]
  split
  next hr => exact h.of_resyncing hr
  next hr =>
    have hnot := ServeState.resyncing_eq_false.1 (Bool.eq_false_iff.2 hr)
    refine ⟨h.gapless, fun hn => ?_, fun o ho => ?_⟩
    · have := (ServeState.resyncing_eq_false.1 hn).1
      cases this
    · rw [hnot.2] at ho
      cases ho

theorem sendData_ok (h : x.sendData frame = (true, y)) :
    y.state = { x.state with events := x.state.events ++ [frame] } := by
  rw [sendData] at h
  split at h
  · cases h
  · cases h
    rfl
  · cases h

theorem sendData_refused (h : x.sendData frame = (false, y)) : y.state = x.state := by
  rw [sendData] at h
  split at h
  · cases h
    rfl
  · cases h
  · cases h
    rfl

theorem hasRoom_state (h : x.hasRoom = (b, y)) : y.state = x.state := by
  rw [hasRoom] at h
  split at h <;> cases h <;> rfl

/-- A delta that comes next goes out, or leaves the serve in resync. -/
theorem serveAt_deliverDelta (h : ServeAt g d x.state) (hj : (j.seq : Int) ≤ d + 1) :
    ServeAt g j.seq (x.deliverDelta env g j).state := by
  rw [deliverDelta]
  split
  next hr => exact h.of_resyncing hr
  next hr =>
    have hnot := ServeState.resyncing_eq_false.1 (Bool.eq_false_iff.2 hr)
    dsimp only
    split
    next => exact serveAt_enterResync h
    next =>
      split
      next y hsend =>
        rw [sendData_ok hsend]
        obtain ⟨before, last, hevents, hpoint⟩ := h.tip (Bool.eq_false_iff.2 hr)
        refine ⟨h.gapless.snoc ?_, fun _ => .snoc _ rfl, fun o ho => h.snap o ho⟩
        intro changes cursor hd
        cases hd
        have hlast : last ∈ x.state.events := hevents ▸ List.mem_append_right _ List.mem_cons_self
        exact ⟨last, hlast, _, hpoint, rfl, hj⟩
      next y hsend =>
        have hy : ServeAt g d y.state := sendData_refused hsend ▸ h
        exact serveAt_enterResync hy

/-- A replay brings the subscriber to the end of the journal. -/
theorem serveAt_replay {a n : Nat} (h : ServeAt g (max d (a - 1)) x.state) (hd : d ≤ g.deltaSeq)
    (hseqs : journal.map SubJournalEntry.seq = List.range' a n) (ha : a + n = g.deltaSeq + 1) :
    ServeAt g g.deltaSeq (x.replay env g d journal).state := by
  induction journal generalizing a n x with
  | nil =>
    obtain rfl : 0 = n := by simpa using congrArg List.length hseqs
    have hmax : max d ((a : Int) - 1) = g.deltaSeq := by omega
    exact hmax ▸ h
  | cons j journal ih =>
    cases n with
    | zero => simp at hseqs
    | succ n =>
      rw [List.map_cons, List.range'_succ] at hseqs
      obtain ⟨rfl, hrest⟩ := List.cons.inj hseqs
      have hnext : ServeAt g (max d ((j.seq + 1 : Nat) - 1))
          (if d < j.seq then x.deliverDelta env g j else x).state := by
        split
        next hlt =>
          have hmax : max d (((j.seq + 1 : Nat) : Int) - 1) = j.seq := by omega
          rw [hmax]
          exact serveAt_deliverDelta h (by omega)
        next hge =>
          have hmax : max d (((j.seq + 1 : Nat) : Int) - 1) = max d ((j.seq : Int) - 1) := by omega
          exact hmax ▸ h
      rw [replay]
      generalize (if d < j.seq then x.deliverDelta env g j else x) = y at hnext ⊢
      split
      next hr => exact hnext.of_resyncing hr
      next => exact ih hnext hrest (by omega)

/-- After a SNAP has gone out. -/
theorem serveAt_catchUp (hg : JournalSound g) (hgap : Gapless x.state.events)
    (hreach : Reaches x.state.events g.epoch s.seq) (hnone : x.state.resyncing = false)
    (hepoch : s.epoch = g.epoch) (hseq : s.seq ≤ g.deltaSeq) :
    ServeAt g g.deltaSeq (x.catchUp env g s).state := by
  have hsnap := (ServeState.resyncing_eq_false.1 hnone).2
  have hat : ServeAt g s.seq x.state := by
    refine ⟨hgap, fun _ => hreach, fun o ho => ?_⟩
    rw [hsnap] at ho
    cases ho
  rw [catchUp, if_neg (by rw [hepoch]; exact fun hne => hne rfl)]
  split
  next heq => exact heq ▸ hat
  next =>
    split
    next => exact serveAt_enterResync hat
    next hold =>
      rw [hg.oldest] at hold
      have hlen := hg.length
      have hmax : max (s.seq : Int) ((g.deltaSeq + 1 - g.journal.length : Nat) - 1) = s.seq := by
        omega
      exact serveAt_replay (d := s.seq) (hmax.symm ▸ hat) (by omega) hg.seqs (by omega)

/-- What `pumpChunks` makes of a SNAP and its serve. -/
structure Pumped (s : SnapOut) (x : Serving) (s' : SnapOut) (x' : Serving) : Prop where
  same : s' = { s with next := s'.next }
  ge : s.next ≤ s'.next
  le : s'.next ≤ s.count + 1
  state : x'.state = { x.state with events := x'.state.events }
  gapless : Gapless x'.state.events
  /-- The last chunk has gone out. -/
  reaches : s.next < s'.next → s'.next = s.count + 1 →
    Reaches x'.state.events s.cursor.e s.cursor.d

theorem Pumped.stop (hgap : Gapless x.state.events) (hle : s.next ≤ s.count + 1)
    (hy : y.state = x.state) : Pumped s x s y :=
  ⟨rfl, Nat.le_refl _, hle, by rw [hy], hy.symm ▸ hgap, fun hlt => absurd hlt (Nat.lt_irrefl _)⟩

theorem pumped_pumpChunks (hgap : Gapless x.state.events) (hleft : s.next + left = s.count + 1) :
    Pumped s x (pumpChunks env left s x).1 (pumpChunks env left s x).2 := by
  induction left generalizing s x with
  | zero => exact .stop hgap (Nat.le_of_eq hleft) rfl
  | succ left ih =>
    have hle : s.next ≤ s.count + 1 := by omega
    rw [pumpChunks]
    split
    next y hroom => exact .stop hgap hle (hasRoom_state hroom)
    next y hroom =>
      have hy := hasRoom_state hroom
      dsimp only
      split
      next z hsend => exact .stop hgap hle ((sendData_refused hsend).trans hy)
      next z hsend =>
        have hz := sendData_ok hsend
        rw [hy] at hz
        have hgap' : Gapless z.state.events := by
          rw [hz]
          exact hgap.other fun _ _ h => SubEvent.noConfusion h
        have hrest := ih (s := { s with next := s.next + 1 }) hgap' (by simp only; omega)
        have hge := hrest.ge
        refine ⟨hrest.same, by simp only at hge; omega, hrest.le, ?_, hrest.gapless, ?_⟩
        · rw [hrest.state, hz]
        · intro _ heq
          cases left with
          | zero =>
            have hlast : s.next = s.count := by omega
            have hpoint : (SubEvent.snap s.next s.count ((s.body.drop ((s.next - 1) *
                rawChunkBudget env)).take (rawChunkBudget env)) s.cursor).point = some s.cursor :=
              if_pos hlast
            have hevents := congrArg ServeState.events hz
            rw [pumpChunks]
            exact ⟨x.state.events, _, hevents, hpoint⟩
          | succ left => exact hrest.reaches (by simp only; omega) heq

theorem serveAt_pumpSnap (hg : JournalSound g) (h : ServeAt g g.deltaSeq x.state) :
    ServeAt g g.deltaSeq (x.pumpSnap env g).state := by
  rw [pumpSnap]
  split
  next => exact h
  next s hs =>
    obtain ⟨hpending, hcursor, hepoch, hseq, hone, hcount⟩ := h.snap s hs
    have hp : Pumped s x (pumpChunks env (s.count + 1 - s.next) s x).1
        (pumpChunks env (s.count + 1 - s.next) s x).2 := by
      apply pumped_pumpChunks h.gapless
      omega
    generalize pumpChunks env (s.count + 1 - s.next) s x = r at hp
    obtain ⟨s', y⟩ := r
    have hle := hp.le
    have hge := hp.ge
    have hsame := hp.same
    have hy : y.state.pending = x.state.pending := by rw [hp.state]
    dsimp only at hle hge hsame ⊢
    split
    next hmore =>
      refine ⟨hp.gapless, fun hn => ?_, fun o ho => ?_⟩
      · have hnone := (ServeState.resyncing_eq_false.1 hn).2
        cases hnone
      · obtain rfl := Option.some.inj ho
        rw [hsame] at hmore ⊢
        exact ⟨hy.trans hpending, hcursor, hepoch, hseq, hone.trans hge, hmore⟩
    next hdone =>
      rw [hsame] at hdone ⊢
      have hfull : s'.next = s.count + 1 := by simp only at hdone; omega
      have hreach := hp.reaches (by simp only; omega) hfull
      rw [hcursor] at hreach
      have hfree : ({ y with state.snap := none } : Serving).state.resyncing = false := by
        rw [ServeState.resyncing_eq_false]
        exact ⟨hy.trans hpending, rfl⟩
      exact serveAt_catchUp hg hp.gapless hreach hfree hepoch hseq

theorem serveAt_startSnap (hg : JournalSound g) (h : Gapless x.state.events) :
    ServeAt g g.deltaSeq (x.startSnap env g body).state := by
  rw [startSnap]
  apply serveAt_pumpSnap hg
  refine ⟨h, fun hn => ?_, fun o ho => ?_⟩
  · have hnone := (ServeState.resyncing_eq_false.1 hn).2
    cases hnone
  · obtain rfl := Option.some.inj ho
    exact ⟨rfl, rfl, rfl, Nat.le_refl _, Nat.le_refl 1, Nat.le_max_left ..⟩

theorem serveAt_tryStartSnap (hg : JournalSound g) (h : ServeAt g g.deltaSeq x.state)
    (hrows : rows.isSome = true) :
    ServeAt g g.deltaSeq (x.tryStartSnap env rows g).2.state := by
  rw [tryStartSnap]
  split
  next => exact h
  next =>
    split
    next y hroom => exact hasRoom_state hroom ▸ h
    next y hroom =>
      have hy := hasRoom_state hroom
      split
      next hbody =>
        obtain ⟨rs, rfl⟩ := Option.isSome_iff_exists.1 hrows
        rw [snapBody] at hbody
        split at hbody
        · split at hbody <;> cases hbody
        · cases hbody
      next body hbody => exact serveAt_startSnap hg (hy.symm ▸ h.gapless)

end Serving

theorem JournalSound.cache (h : JournalSound g) (c : Option SnapCache) :
    JournalSound { g with snapCache := c } := ⟨h.seqs, h.length⟩

theorem ServeAt.cache (h : ServeAt g d s) (c : Option SnapCache) :
    ServeAt { g with snapCache := c } d s := ⟨h.gapless, h.tip, h.snap⟩

namespace SubHub

/-- A step that changes nothing of the groups but the shared bodies. -/
structure Quiet (h h' : SubHub) : Prop where
  objects : ∀ o, ∃ c, h'.objects o = { h.objects o with snapCache := c }
  allocated : h'.allocated = h.allocated
  groups : h'.groups = h.groups
  groupsByView : h'.groupsByView = h.groupsByView
  ringEpochs : h'.ringEpochs = h.ringEpochs

theorem Quiet.refl (h : SubHub) : Quiet h h := ⟨fun _ => ⟨_, rfl⟩, rfl, rfl, rfl, rfl⟩

theorem Quiet.trans (h₁ : Quiet h h') (h₂ : Quiet h' h'') : Quiet h h'' where
  objects := by
    intro o
    obtain ⟨c, hc⟩ := h₁.objects o
    obtain ⟨c', hc'⟩ := h₂.objects o
    exact ⟨c', by rw [hc', hc]⟩
  allocated := h₂.allocated.trans h₁.allocated
  groups := h₂.groups.trans h₁.groups
  groupsByView := h₂.groupsByView.trans h₁.groupsByView
  ringEpochs := h₂.ringEpochs.trans h₁.ringEpochs

theorem Quiet.foldl {step : SubHub → α → SubHub} (hstep : ∀ h a, Quiet h (step h a))
    (h : SubHub) (as : List α) : Quiet h (as.foldl step h) := by
  induction as generalizing h with
  | nil => exact .refl h
  | cons a as ih => exact (hstep h a).trans (ih _)

variable {f : Nat → SubGroup → Serving → Option SnapCache × Serving} {h h' : SubHub}
  {id : SubSession × Nat}

theorem quiet_visit (h : SubHub) (id : SubSession × Nat) : Quiet h (h.visit f id) := by
  rw [visit]
  split
  next => exact .refl h
  next s _ =>
    split
    next c x _ =>
      refine ⟨fun o => ?_, rfl, rfl, rfl, rfl⟩
      by_cases ho : o = s.group
      · subst ho
        exact ⟨c, Function.update_self ..⟩
      · exact ⟨_, Function.update_of_ne ho ..⟩

theorem quiet_removeServe (h : SubHub) (id : SubSession × Nat) : Quiet h (h.removeServe id) := by
  rw [removeServe]
  split
  next => exact .refl h
  next s _ =>
    dsimp only
    split
    next =>
      refine ⟨fun o => ?_, rfl, rfl, rfl, rfl⟩
      by_cases ho : o = s.group
      · subst ho
        exact ⟨none, Function.update_self ..⟩
      · exact ⟨_, Function.update_of_ne ho ..⟩
    next => exact ⟨fun _ => ⟨_, rfl⟩, rfl, rfl, rfl, rfl⟩

theorem quiet_addSubscriber (h : SubHub) (o : Nat) (id : SubSession × Nat) :
    Quiet h (h.addSubscriber o id) := by
  rw [addSubscriber]
  split
  next s _ =>
    split
    next => exact .refl h
    next =>
      have hq := quiet_removeServe h id
      exact ⟨hq.objects, hq.allocated, hq.groups, hq.groupsByView, hq.ringEpochs⟩
  next => exact ⟨fun _ => ⟨_, rfl⟩, rfl, rfl, rfl, rfl⟩

/-- What a visit leaves: the serve that it visits, as the function changes it, and the others. -/
theorem mem_visit {s' : Serve} (hs : s' ∈ (h.visit f id).serves.rows) :
    ∃ s ∈ h.serves.rows, s'.id = s.id ∧ s'.group = s.group ∧
      if s.id = id then
        s'.state = (f s.group (h.objects s.group) ⟨s.state, h.lane⟩).2.state
      else s' = s := by
  rw [visit] at hs
  split at hs
  next hnone =>
    have hne := Table.get_eq_none_iff.1 hnone s' hs
    exact ⟨s', hs, rfl, rfl, by rw [if_neg hne]⟩
  next s hget =>
    obtain ⟨hmem, hid⟩ := Table.get_eq_some_iff.1 hget
    generalize hr : f s.group (h.objects s.group) ⟨s.state, h.lane⟩ = r at hs
    obtain ⟨c, x⟩ := r
    dsimp only at hs
    rcases Table.mem_upsert.1 hs with rfl | ⟨hs, hne⟩
    · exact ⟨s, hmem, rfl, rfl, by rw [if_pos hid, hr]⟩
    · exact ⟨s', hs, rfl, rfl, by rw [if_neg fun he => hne (he.trans hid.symm)]⟩

theorem mem_removeServe : s ∈ (h.removeServe id).serves.rows ↔ s ∈ h.serves.rows ∧ s.id ≠ id := by
  rw [removeServe]
  split
  next hnone => exact ⟨fun hs => ⟨hs, Table.get_eq_none_iff.1 hnone s hs⟩, fun hs => hs.1⟩
  next =>
    have hdelete : s ∈ (h.serves.delete id).rows ↔ s ∈ h.serves.rows ∧ s.id ≠ id := by
      rw [Table.delete, Table.rows_filter, List.mem_filter, decide_eq_true_iff]
    dsimp only
    split
    next => exact hdelete
    next => exact hdelete

/-- The serves after `addSubscriber`: the subscriber's own, new or as it was, and the others. -/
theorem mem_addSubscriber (hs : s ∈ (h.addSubscriber o id).serves.rows) :
    if s.id = id then s = .fresh o id ∨ s ∈ h.serves.rows ∧ s.group = o else s ∈ h.serves.rows := by
  rw [addSubscriber] at hs
  have hfresh {T : Table (SubSession × Nat) Serve Serve.id} (hT : ∀ s' ∈ T.rows, s' ∈ h.serves.rows)
      (hs : s ∈ (T.upsert (.fresh o id)).rows) :
      if s.id = id then s = .fresh o id ∨ s ∈ h.serves.rows ∧ s.group = o
      else s ∈ h.serves.rows := by
    rcases Table.mem_upsert.1 hs with rfl | ⟨hs, hne⟩
    · rw [if_pos (show (Serve.fresh o id).id = id from rfl)]
      exact .inl rfl
    · rw [if_neg (show s.id ≠ id from hne)]
      exact hT s hs
  split at hs
  next s₀ hget =>
    split at hs
    next hgroup =>
      by_cases hid : s.id = id
      · rw [if_pos hid]
        have hself := Table.get_of_mem hs
        rw [hid, hget] at hself
        obtain rfl := Option.some.inj hself
        exact .inr ⟨hs, hgroup⟩
      · rw [if_neg hid]
        exact hs
    next => exact hfresh (fun s' hs' => (mem_removeServe.1 hs').1) hs
  next => exact hfresh (fun _ hs' => hs') hs

/-- A loop over serves: those that it has not visited yet satisfy one thing, the others another. -/
theorem foldl_visit {P Q : SubGroup → ServeState → Prop}
    (hP : ∀ g s c, P g s → P { g with snapCache := c } s)
    (hQ : ∀ g s c, Q g s → Q { g with snapCache := c } s)
    (hf : ∀ o g x, P g x.state → Q g (f o g x).2.state) (ids : List (SubSession × Nat))
    (hnodup : ids.Nodup)
    (hs : ∀ s ∈ h.serves.rows, if s.id ∈ ids then P (h.objects s.group) s.state
      else Q (h.objects s.group) s.state) :
    ∀ s ∈ (ids.foldl (visit f) h).serves.rows,
      Q ((ids.foldl (visit f) h).objects s.group) s.state := by
  induction ids generalizing h with
  | nil =>
    intro s hmem
    have hq := hs s hmem
    rwa [if_neg List.not_mem_nil] at hq
  | cons id ids ih =>
    obtain ⟨hid, hnodup⟩ := List.nodup_cons.1 hnodup
    apply ih hnodup
    intro s' hs'
    obtain ⟨s, hmem, hsid, hgroup, hcase⟩ := mem_visit hs'
    have hold := hs s hmem
    obtain ⟨c, hc⟩ := (quiet_visit (f := f) h id).objects s.group
    rw [hgroup, hc, hsid]
    by_cases heq : s.id = id
    · rw [if_pos heq] at hcase
      rw [if_pos (heq ▸ List.mem_cons_self)] at hold
      rw [if_neg (heq ▸ hid), hcase]
      exact hQ _ _ _ (hf _ _ ⟨s.state, h.lane⟩ hold)
    · rw [if_neg heq] at hcase
      subst hcase
      by_cases hin : s'.id ∈ ids
      · rw [if_pos (List.mem_cons_of_mem _ hin)] at hold
        rw [if_pos hin]
        exact hP _ _ _ hold
      · rw [if_neg (fun hc => (List.mem_cons.1 hc).elim heq hin)] at hold
        rw [if_neg hin]
        exact hQ _ _ _ hold

structure Framed (h : SubHub) : Prop where
  registered : ∀ r ∈ h.groups.rows, r.2 < h.allocated
  bounded : ∀ s ∈ h.serves.rows, s.group < h.allocated
  journals : ∀ o, JournalSound (h.objects o)

/-- Every serve is sound for its own group object. -/
structure Sound (h : SubHub) : Prop extends Framed h where
  serves : ∀ s ∈ h.serves.rows, ServeAt (h.objects s.group) (h.objects s.group).deltaSeq s.state

theorem objects_setGroup (h : SubHub) (o : Nat) (g : SubGroup) (o' : Nat) :
    (h.setGroup o g).objects o' = if o' = o then g else h.objects o' := by
  rw [setGroup]
  exact Function.update_apply ..

theorem Framed.setGroup (hf : Framed h) (hg : JournalSound g) (o : Nat) :
    Framed (h.setGroup o g) := by
  refine ⟨hf.registered, hf.bounded, fun o' => ?_⟩
  rw [objects_setGroup]
  split
  · exact hg
  · exact hf.journals o'

theorem Sound.of_quiet (hs : Sound h) (hq : Quiet h h')
    (hbounded : ∀ s ∈ h'.serves.rows, s.group < h.allocated)
    (hserves : ∀ s ∈ h'.serves.rows,
      ServeAt (h.objects s.group) (h.objects s.group).deltaSeq s.state) : Sound h' where
  registered := by
    rw [hq.groups, hq.allocated]
    exact hs.registered
  bounded := by
    rw [hq.allocated]
    exact hbounded
  journals := by
    intro o
    obtain ⟨c, hc⟩ := hq.objects o
    rw [hc]
    exact (hs.journals o).cache c
  serves := by
    intro s hmem
    obtain ⟨c, hc⟩ := hq.objects s.group
    rw [hc]
    exact (hserves s hmem).cache c

theorem quiet_foldl_visit (h : SubHub) (ids : List (SubSession × Nat)) :
    Quiet h (ids.foldl (visit f) h) := .foldl quiet_visit h ids

theorem group_foldl_visit {s' : Serve} (ids : List (SubSession × Nat))
    (hs : s' ∈ (ids.foldl (visit f) h).serves.rows) : ∃ s ∈ h.serves.rows, s'.group = s.group := by
  induction ids generalizing h with
  | nil => exact ⟨s', hs, rfl⟩
  | cons id ids ih =>
    obtain ⟨s, hmem, hgroup⟩ := ih hs
    obtain ⟨s₀, hmem₀, -, hgroup₀, -⟩ := mem_visit hmem
    exact ⟨s₀, hmem₀, hgroup.trans hgroup₀⟩

/-- A loop that brings every serve it visits to the end of its group's journal. -/
theorem sound_foldl_visit {P : SubGroup → ServeState → Prop}
    (hP : ∀ g s c, P g s → P { g with snapCache := c } s)
    (hf : ∀ o g x, JournalSound g → P g x.state → ServeAt g g.deltaSeq (f o g x).2.state)
    (ids : List (SubSession × Nat)) (hnodup : ids.Nodup)
    (hframed : Framed h) (hs : ∀ s ∈ h.serves.rows, if s.id ∈ ids then P (h.objects s.group) s.state
      else ServeAt (h.objects s.group) (h.objects s.group).deltaSeq s.state) :
    Sound (ids.foldl (visit f) h) := by
  have hq := quiet_foldl_visit (f := f) h ids
  refine ⟨⟨?_, ?_, ?_⟩, ?_⟩
  · rw [hq.groups, hq.allocated]
    exact hframed.registered
  · intro s hmem
    obtain ⟨s₀, hmem₀, hgroup⟩ := group_foldl_visit ids hmem
    rw [hq.allocated, hgroup]
    exact hframed.bounded s₀ hmem₀
  · intro o
    obtain ⟨c, hc⟩ := hq.objects o
    rw [hc]
    exact (hframed.journals o).cache c
  · apply foldl_visit (P := fun g s => JournalSound g ∧ P g s)
      (Q := fun g s => ServeAt g g.deltaSeq s)
    · exact fun g s c hg => ⟨hg.1.cache c, hP g s c hg.2⟩
    · exact fun g s c hg => hg.cache c
    · exact fun o g x hg => hf o g x hg.1 hg.2
    · exact hnodup
    · intro s hmem
      have hold := hs s hmem
      split at hold
      next hin =>
        rw [if_pos hin]
        exact ⟨hframed.journals _, hold⟩
      next hin =>
        rw [if_neg hin]
        exact hold

theorem nodup_servesOf (h : SubHub) (o : Nat) : (h.servesOf o).Nodup :=
  h.serves.nodup.sublist (List.filter_sublist.map Serve.id)

theorem nodup_servesIn (h : SubHub) (session : SubSession) : (h.servesIn session).Nodup :=
  h.serves.nodup.sublist (List.filter_sublist.map Serve.id)

theorem mem_servesOf (hs : s ∈ h.serves.rows) : s.id ∈ h.servesOf o ↔ s.group = o := by
  constructor
  · intro hid
    obtain ⟨s', hs', hid'⟩ := List.mem_map.1 hid
    obtain ⟨hmem, hgroup⟩ := List.mem_filter.1 hs'
    obtain rfl := List.inj_on_of_nodup_map h.serves.nodup hmem hs hid'
    exact of_decide_eq_true hgroup
  · intro hgroup
    exact List.mem_map.2 ⟨s, List.mem_filter.2 ⟨hs, decide_eq_true hgroup⟩, rfl⟩

theorem sound_init : Sound init where
  registered := fun _ hr => absurd hr List.not_mem_nil
  bounded := fun _ hs => absurd hs List.not_mem_nil
  journals := fun _ => journalSound_nil rfl
  serves := fun _ hs => absurd hs List.not_mem_nil

theorem Sound.withLane (hs : Sound h) (lane : List Bool) : Sound { h with lane := lane } :=
  ⟨⟨hs.registered, hs.bounded, hs.journals⟩, hs.serves⟩

theorem Sound.refuse (hs : Sound h) (id : SubSession × Nat) (code : SubErrCode) :
    Sound (h.refuse id code) :=
  ⟨⟨hs.registered, hs.bounded, hs.journals⟩, hs.serves⟩

theorem Sound.removeServe (hs : Sound h) (id : SubSession × Nat) : Sound (h.removeServe id) :=
  hs.of_quiet (quiet_removeServe h id) (fun s hmem => hs.bounded s (mem_removeServe.1 hmem).1)
    fun s hmem => hs.serves s (mem_removeServe.1 hmem).1

theorem Sound.foldl {step : SubHub → α → SubHub} (hs : Sound h)
    (hstep : ∀ h a, Sound h → Sound (step h a)) (as : List α) : Sound (as.foldl step h) := by
  induction as generalizing h with
  | nil => exact hs
  | cons a as ih => exact ih (hstep h a hs)

/-- The provider of every group answers. -/
def Answers (turn : SubTurn) : Prop := ∀ o, (turn.rows o).isSome = true

theorem Sound.drain (hs : Sound h) (hrows : Answers turn) (ids : List (SubSession × Nat))
    (hnodup : ids.Nodup) : Sound (ids.foldl (drain env turn) h) := by
  apply sound_foldl_visit (P := fun g s => ServeAt g g.deltaSeq s) (fun g s c hg => hg.cache c)
    _ ids hnodup hs.toFramed
  · intro s hmem
    split
    · exact hs.serves s hmem
    · exact hs.serves s hmem
  · intro o g x hg hx
    split
    · exact Serving.serveAt_pumpSnap hg hx
    · exact Serving.serveAt_tryStartSnap hg hx (hrows o)

/-- A serve of which a SNAP is owed. -/
theorem serveAt_owed {s : ServeState} (hgap : Gapless s.events) :
    ServeAt g d { s with snap := none, pending := true } := by
  refine ⟨hgap, fun hn => ?_, fun o ho => ?_⟩
  · have hpending := (ServeState.resyncing_eq_false.1 hn).1
    cases hpending
  · cases ho

theorem Sound.resetGroup (hs : Sound h) (hrows : Answers turn) (o : Nat) (epoch : String) :
    Sound (h.resetGroup env turn o epoch) := by
  rw [SubHub.resetGroup]
  apply sound_foldl_visit (P := fun _ s => Gapless s.events) (fun _ _ _ hg => hg) _ _
    (nodup_servesOf _ o) (hs.toFramed.setGroup (journalSound_nil rfl) o)
  · intro s hmem
    have hold := hs.serves s hmem
    split
    next => exact hold.gapless
    next hout =>
      have hne : s.group ≠ o := fun he => hout ((mem_servesOf hmem).2 he)
      rw [objects_setGroup, if_neg hne]
      exact hold
  · intro o g x hg hx
    exact Serving.serveAt_tryStartSnap hg (serveAt_owed hx) (hrows o)

theorem journalSound_publishTo (hg : JournalSound g) (changes : SubChanges) :
    JournalSound (publishTo env g changes).1 := by
  have hlen := hg.length
  have hseqs : (g.journal.map SubJournalEntry.seq) ++ [g.deltaSeq + 1] =
      List.range' (g.deltaSeq + 1 - g.journal.length) (g.journal.length + 1) := by
    rw [hg.seqs, List.range'_concat]
    congr 2
    omega
  rw [publishTo]
  dsimp only
  split
  next =>
    refine ⟨?_, ?_⟩
    · dsimp only
      rw [List.map_tail, List.map_append, List.map_singleton, hseqs, List.range'_succ,
        List.tail_cons, List.length_tail, List.length_append]
      congr 1
      simp only [List.length_singleton]
      omega
    · simp only [List.length_tail, List.length_append, List.length_singleton]
      omega
  next =>
    refine ⟨?_, ?_⟩
    · dsimp only
      rw [List.map_append, List.map_singleton, hseqs, List.length_append, List.length_singleton]
      congr 1
      omega
    · simp only [List.length_append, List.length_singleton]
      omega

theorem Sound.publish (hs : Sound h) (o : Nat) (changes : SubChanges) :
    Sound (h.publish env o changes) := by
  rw [SubHub.publish]
  have hjournal : JournalSound (publishTo env (h.objects o) changes).1 :=
    journalSound_publishTo (hs.journals o) changes
  apply sound_foldl_visit (P := fun g s => g.deltaSeq = (h.objects o).deltaSeq + 1 ∧
      ServeAt g (h.objects o).deltaSeq s)
    (fun g s c hg => ⟨hg.1, hg.2.cache c⟩) _ _ (nodup_servesOf _ o) (hs.toFramed.setGroup hjournal o)
  · intro s hmem
    have hold := hs.serves s hmem
    split
    next hin =>
      have heq : s.group = o := (mem_servesOf hmem).1 hin
      rw [heq] at hold
      rw [objects_setGroup, if_pos heq]
      refine ⟨rfl, hold.gapless, hold.tip, fun out ho => ?_⟩
      obtain ⟨hpending, hcursor, hepoch, hseq, hnext⟩ := hold.snap out ho
      exact ⟨hpending, hcursor, hepoch, Nat.le_succ_of_le hseq, hnext⟩
    next hout =>
      have hne : s.group ≠ o := fun he => hout ((mem_servesOf hmem).2 he)
      rw [objects_setGroup, if_neg hne]
      exact hold
  · intro o' g x hg hx
    rw [hx.1]
    exact Serving.serveAt_deliverDelta (j := (publishTo env (h.objects o) changes).2) hx.2
      (Int.le_refl _)

/-- A subscriber whose SUB is taken up: its serve is new or not in resync. -/
theorem Sound.subscribed (hs : Sound h) (ho : o < h.allocated)
    (hfree : ∀ s ∈ h.serves.rows, s.id = id → s.group = o → s.state.resyncing = false)
    {P : SubGroup → ServeState → Prop}
    (hP : ∀ g s c, P g s → P { g with snapCache := c } s)
    (hinit : ∀ s c, Gapless s.events → s.resyncing = false → P { h.objects o with snapCache := c } s)
    (hf : ∀ o g x, JournalSound g → P g x.state → ServeAt g g.deltaSeq (f o g x).2.state) :
    Sound ((h.addSubscriber o id).visit f id) := by
  have hq := quiet_addSubscriber h o id
  have hframed : Framed (h.addSubscriber o id) := by
    refine ⟨?_, ?_, ?_⟩
    · rw [hq.groups, hq.allocated]
      exact hs.registered
    · intro s hmem
      rw [hq.allocated]
      have hcase := mem_addSubscriber hmem
      split at hcase
      next =>
        rcases hcase with rfl | ⟨hold, -⟩
        · exact ho
        · exact hs.bounded s hold
      next => exact hs.bounded s hcase
    · intro o'
      obtain ⟨c, hc⟩ := hq.objects o'
      rw [hc]
      exact (hs.journals o').cache c
  apply sound_foldl_visit hP hf [id] (List.nodup_singleton id) hframed
  intro s hmem
  have hcase := mem_addSubscriber hmem
  obtain ⟨c, hc⟩ := hq.objects s.group
  rw [hc]
  by_cases hid : s.id = id
  · rw [if_pos hid] at hcase
    rw [if_pos (hid ▸ List.mem_singleton_self id)]
    rcases hcase with rfl | ⟨hold, hgroup⟩
    · exact hinit _ _ Gapless.nil rfl
    · rw [hgroup]
      exact hinit _ _ (hs.serves s hold).gapless (hfree s hold hid hgroup)
  · rw [if_neg hid] at hcase
    rw [if_neg fun hin => hid (List.mem_singleton.1 hin)]
    exact (hs.serves s hcase).cache c

theorem Sound.owe (hs : Sound h) (hrows : Answers turn) (ho : o < h.allocated)
    (hfree : ∀ s ∈ h.serves.rows, s.id = id → s.group = o → s.state.resyncing = false) :
    Sound ((h.addSubscriber o id).owe env turn id) := by
  apply hs.subscribed ho hfree (P := fun _ s => Gapless s.events ∧ s.resyncing = false)
    (fun _ _ _ hg => hg) (fun _ _ hg hr => ⟨hg, hr⟩)
  intro o g x hg hx
  apply Serving.serveAt_tryStartSnap hg _ (hrows o)
  have hnone := (ServeState.resyncing_eq_false.1 hx.2).2
  have howed := serveAt_owed (g := g) (d := g.deltaSeq) hx.1
  rwa [← hnone] at howed

theorem Sound.resume {cursor : CursorVal} (hs : Sound h) (ho : o < h.allocated)
    (hfree : ∀ s ∈ h.serves.rows, s.id = id → s.group = o → s.state.resyncing = false)
    (hepoch : cursor.e = (h.objects o).epoch) (hle : cursor.d ≤ (h.objects o).deltaSeq)
    (hold : (h.objects o).oldest ≤ cursor.d + 1) :
    Sound ((h.addSubscriber o id).resume env id cursor) := by
  apply hs.subscribed ho hfree (P := fun g s => (Gapless s.events ∧ s.resyncing = false) ∧
      cursor.e = g.epoch ∧ cursor.d ≤ g.deltaSeq ∧ g.oldest ≤ cursor.d + 1)
    (fun _ _ _ hg => hg) (fun _ _ hg hr => ⟨⟨hg, hr⟩, hepoch, hle, hold⟩)
  intro o g x hg hx
  obtain ⟨⟨hgap, hr⟩, hepoch, hle, hold⟩ := hx
  rw [hg.oldest] at hold
  have hlen := hg.length
  have hnone := (ServeState.resyncing_eq_false.1 hr).2
  have hpoint : (SubEvent.resume cursor).point = some ⟨g.epoch, cursor.d⟩ := by
    rw [← hepoch]
    rfl
  have hat : ServeAt g cursor.d (x.note (.resume cursor)).state := by
    refine ⟨hgap.other fun _ _ h => SubEvent.noConfusion h, fun _ => .snoc _ hpoint, ?_⟩
    intro out hout
    rw [Serving.note, hnone] at hout
    cases hout
  have hmax : max cursor.d (((g.deltaSeq + 1 - g.journal.length : Nat) : Int) - 1) = cursor.d := by
    omega
  exact Serving.serveAt_replay (hmax.symm ▸ hat) hle hg.seqs (by omega)

/-- The topic that a request for a built-in group names. -/
def topicFor (env : SubEnv) (m : MsgSub) : Option Topic :=
  (topicOf m.params).bind fun name => (policyOf env name).map Prod.fst

def requestKey (env : SubEnv) (m : MsgSub) : GroupKey := (m.view, env.env.jcs (m.params.getD .null))

/-- The group that `resolveGroup` adds, by the kind of the request. -/
inductive Adds (env : SubEnv) (turn : SubTurn) (h : SubHub) (m : MsgSub) : SubHub × Nat → Prop where
  | register : m.view = "register" → topicFor env m = some topic →
      Adds env turn h m
        (h.addGroup ⟨registerKey env topic, none, some topic, turn.minted, 0, [], none⟩)
  | tail : m.view = "tail" → topicFor env m = some topic →
      epoch = (h.ringEpochs topic).getD turn.minted →
      Adds env turn h m
        (({ h with ringEpochs := Function.update h.ringEpochs topic (some epoch) }).addGroup
          ⟨ringKey env topic, none, some topic, epoch, 0, [], none⟩)
  | view : m.view ≠ "register" → m.view ≠ "tail" → turn.views name = some (topic, epoch) →
      h.addGroup ⟨requestKey env m, some name, none, epoch, 0, [], none⟩ = (added, o) →
      Adds env turn h m ({ added with
        groupsByView := Function.update added.groupsByView name
          (added.groupsByView name ++ [o]) }, o)

/-- `resolveGroup` gives the group that is registered under the key of the request, or adds one. -/
theorem resolveGroup_cases (hr : resolveGroup env turn h m = .ok r) :
    (r.1 = h ∧ ∃ k, h.groups.get (requestKey env m) = some (k, r.2)) ∨
      h.groups.get (requestKey env m) = none ∧ Adds env turn h m r := by
  have htopic (name : JsString) (topic : Topic) (policy : TopicPolicy)
      (hname : topicOf m.params = some name) (hpolicy : policyOf env name = some (topic, policy)) :
      topicFor env m = some topic := by
    rw [topicFor, hname, Option.bind_some, hpolicy]
    rfl
  rw [resolveGroup] at hr
  split at hr
  next k g hget =>
    cases hr
    exact .inl ⟨rfl, k, hget⟩
  next hget =>
    refine .inr ⟨hget, ?_⟩
    split at hr
    next hview =>
      rw [resolveRegister] at hr
      split at hr
      next => cases hr
      next name hname =>
        split at hr
        next => cases hr
        next topic policy hpolicy =>
          split at hr
          · cases hr
          · cases hr
            exact .register hview (htopic name topic policy hname hpolicy)
    next hregister =>
      split at hr
      next hview =>
        rw [resolveTail] at hr
        split at hr
        next => cases hr
        next name hname =>
          split at hr
          next => cases hr
          next topic policy hpolicy =>
            split at hr
            · cases hr
            · split at hr
              · cases hr
              · cases hr
                exact .tail hview (htopic name topic policy hname hpolicy) rfl
      next htail =>
        rw [resolveView] at hr
        split at hr
        · cases hr
        · split at hr
          next => cases hr
          next topic epoch hviews =>
            cases hr
            exact .view hregister htail hviews rfl

/-- What every added group has in common. -/
theorem Adds.frame (ha : Adds env turn h m r) : ∃ g, g.deltaSeq = 0 ∧ g.journal = [] ∧
    r.2 = h.allocated ∧ r.1.serves = h.serves ∧ r.1.objects = Function.update h.objects r.2 g ∧
    r.1.allocated = h.allocated + 1 ∧ r.1.groups = h.groups.upsert (g.key, r.2) := by
  cases ha with
  | register => exact ⟨_, rfl, rfl, rfl, rfl, rfl, rfl, rfl⟩
  | tail => exact ⟨_, rfl, rfl, rfl, rfl, rfl, rfl, rfl⟩
  | view _ _ _ hadd =>
    cases hadd
    exact ⟨_, rfl, rfl, rfl, rfl, rfl, rfl, rfl⟩

theorem Sound.resolveGroup (hs : Sound h) (hr : SubHub.resolveGroup env turn h m = .ok r) :
    Sound r.1 ∧ r.2 < r.1.allocated := by
  rcases resolveGroup_cases hr with ⟨heq, k, hget⟩ | ⟨-, ha⟩
  · rw [heq]
    exact ⟨hs, hs.registered _ (Table.get_eq_some_iff.1 hget).1⟩
  obtain ⟨g, hseq, hjournal, hid, hserves, hobjects, hallocated, hgroups⟩ := ha.frame
  have hobject (o : Nat) : r.1.objects o = if o = r.2 then g else h.objects o := by
    rw [hobjects, Function.update_apply]
  refine ⟨⟨⟨?_, ?_, ?_⟩, ?_⟩, ?_⟩
  · intro k hk
    rw [hgroups] at hk
    rw [hallocated]
    rcases Table.mem_upsert.1 hk with rfl | ⟨hk, -⟩
    · exact Nat.lt_succ_of_le (Nat.le_of_eq hid)
    · exact Nat.lt_succ_of_lt (hs.registered k hk)
  · intro s hmem
    rw [hserves] at hmem
    rw [hallocated]
    exact Nat.lt_succ_of_lt (hs.bounded s hmem)
  · intro o
    rw [hobject]
    split
    · exact journalSound_nil hjournal
    · exact hs.journals o
  · intro s hmem
    rw [hserves] at hmem
    have hne : s.group ≠ r.2 := by
      rw [hid]
      exact Nat.ne_of_lt (hs.bounded s hmem)
    rw [hobject, if_neg hne]
    exact hs.serves s hmem
  · rw [hallocated, hid]
    exact Nat.lt_succ_self _

theorem Sound.handleSub (hs : Sound h) (hrows : Answers turn) (session : SubSession) (m : MsgSub) :
    Sound (h.handleSub env turn session m) := by
  rw [SubHub.handleSub]
  split
  next => exact hs.refuse _ _
  next h' o hr =>
    obtain ⟨hs', ho⟩ := hs.resolveGroup hr
    dsimp only at hs' ho ⊢
    split
    next => exact hs'
    next topic _ =>
      split
      next => exact hs'.refuse _ _
      next =>
        split
        next => exact hs'
        next hfree =>
          have hfree' : ∀ s ∈ h'.serves.rows, s.id = (session, m.subId) → s.group = o →
              s.state.resyncing = false := by
            intro s hmem hid hgroup
            have hget := Table.get_of_mem hmem
            rw [hid] at hget
            rw [hget, Option.any_some, Bool.and_eq_true, decide_eq_true_iff, not_and] at hfree
            exact Bool.eq_false_iff.2 (hfree hgroup)
          split
          next cursor _ =>
            split
            next hepoch =>
              split
              next => exact hs'.refuse _ _
              next hle =>
                split
                next hold => exact hs'.resume ho hfree' hepoch (not_lt.1 hle) hold
                next => exact hs'.owe hrows ho hfree'
            next => exact hs'.owe hrows ho hfree'
          next => exact hs'.owe hrows ho hfree'

theorem Sound.onViewChange (hs : Sound h) (hrows : Answers turn) (view epoch : String)
    (change : Option SubChanges) : Sound (h.onViewChange env turn view epoch change) := by
  apply hs.foldl
  intro h o hs
  cases change with
  | none => exact hs.resetGroup hrows o epoch
  | some changes => exact hs.publish o changes

theorem Sound.perform (hs : Sound h) (hrows : Answers turn) (a : Action) :
    Sound (h.perform env turn a) := by
  cases a with
  | sub session m => exact hs.handleSub hrows session m
  | unsub session subId => exact hs.removeServe _
  | sessionClosed session => exact hs.foldl (fun _ id hs => hs.removeServe id) _
  | capacity session => exact hs.drain hrows _ (nodup_servesIn h session)
  | timer id => exact hs.drain hrows [id] (List.nodup_singleton id)
  | registerChanged topic =>
    rw [SubHub.perform, handleRegisterChanged]
    split
    · exact hs
    · exact hs.resetGroup hrows _ _
  | tailApplied e =>
    rw [SubHub.perform, handleTailApplied]
    split
    · exact hs
    · exact hs.publish _ _
  | viewChange view epoch change => exact hs.onViewChange hrows view epoch change

/-- In every run with providers that answer, in every state: each delta that a serve's lane has
accepted comes at most one after a point that its subscriber had reached in the same epoch, and
a serve that owes no resync has brought its subscriber to the end of its group's journal. -/
theorem subscriptions_gapless
    (hrun : Trace (step env) (fun _ a => Answers a.1) init as h) :
    ∀ s ∈ h.serves.rows, Gapless s.state.events ∧
      (s.state.pending = false → s.state.snap = none →
        Reaches s.state.events (h.objects s.group).epoch (h.objects s.group).deltaSeq) := by
  have hs : Sound h := by
    apply hrun.keeps Sound sound_init
    intro t a u ht hrows hstep
    obtain rfl := Option.some.inj hstep
    exact (ht.withLane a.1.lane).perform hrows a.2
  intro s hmem
  have hat := hs.serves s hmem
  exact ⟨hat.gapless, fun hp hn => hat.tip (ServeState.resyncing_eq_false.2 ⟨hp, hn⟩)⟩

/-- A node that serves the tail of a ring topic. -/
def hostSubs : SubEnv where
  env := { hostEnv "n" with
    topics := fun T => if T = "t" then
      some { fullPolicy with retention := .ring 10, replication := .subscribeOnly } else none }
  stringify := canonicalize
  SUB_DELTA_RETAIN := 256
  registers := true

/-- A turn in which every lane has room for ten frames. -/
def openTurn : SubTurn where
  lane := List.replicate 20 true
  rows _ := some []
  minted := "e"
  families _ := none
  views _ := none
  peerMaySub _ _ := true

def subTail (subId : Nat) (params : List (JsString × JsonValue)) : MsgSub :=
  ⟨subId, "tail", some (.obj params), none⟩

def topicParam : JsString × JsonValue := (js "topic", .str (js "t"))

/-- The hub after the calls, each with open lanes. -/
def hostRun (as : List Action) : SubHub :=
  (as.map fun a => (openTurn, a)).foldl
    (fun h a => { h with lane := a.1.lane }.perform hostSubs a.1 a.2) init

theorem trace_hostRun {ok : SubHub → SubTurn × Action → Prop} {as : List Action}
    (hok : ∀ h, ∀ a ∈ as, ok h (openTurn, a)) :
    Trace (step hostSubs) ok init (as.map fun a => (openTurn, a)) (hostRun as) := by
  apply Trace.foldl (fun _ _ => rfl)
  intro h a ha
  obtain ⟨b, hb, rfl⟩ := List.mem_map.1 ha
  exact hok h b hb

def tailRun : List Action :=
  [.sub 0 (subTail 1 [topicParam]), .tailApplied (hostEntry "w" 1 1 "k" "")]

theorem subscriptions_gapless_of_tail :
    ((hostRun tailRun).serves.rows.map fun s => s.state.events.length) = [2] ∧
      ∀ s ∈ (hostRun tailRun).serves.rows, Gapless s.state.events ∧
        (s.state.pending = false → s.state.snap = none →
          Reaches s.state.events ((hostRun tailRun).objects s.group).epoch
            ((hostRun tailRun).objects s.group).deltaSeq) :=
  ⟨by decide +kernel, subscriptions_gapless (trace_hostRun fun _ _ _ _ => rfl)⟩

end SubHub
end Seqscribe
