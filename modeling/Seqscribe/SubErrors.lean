import Seqscribe.SnapChunks
import Seqscribe.SubGaps

namespace Seqscribe
set_option autoImplicit true

/-! What a subscriber gets after a SUB_ERR that stands for its SNAP. -/

/-- All chunks of one SNAP, one after the other. -/
def FullSnap (env : SubEnv) (events : List SubEvent) : Prop :=
  ∃ (s : SnapOut) (before after : List SubEvent), 1 ≤ s.count ∧
    events = before ++ (List.range' 1 s.count).map (Serving.chunkEvent env s) ++ after

/-- No full SNAP has followed an error. -/
def Bare (env : SubEnv) (events : List SubEvent) : Prop :=
  ∃ before code after, events = before ++ .err code :: after ∧ ¬ FullSnap env after

/-- Between an error and a delta there is a full SNAP. -/
def SnapFirst (env : SubEnv) (events : List SubEvent) : Prop :=
  ∀ before code mid changes cursor after,
    events = before ++ .err code :: mid ++ .delta changes cursor :: after → FullSnap env mid

variable {env : SubEnv} {events : List SubEvent}

theorem FullSnap.append_left (h : FullSnap env events) (first : List SubEvent) :
    FullSnap env (first ++ events) := by
  obtain ⟨s, before, after, hcount, rfl⟩ := h
  refine ⟨s, first ++ before, after, hcount, ?_⟩
  rw [List.append_assoc, List.append_assoc, List.append_assoc]

theorem FullSnap.append_right (h : FullSnap env events) (last : List SubEvent) :
    FullSnap env (events ++ last) := by
  obtain ⟨s, before, after, hcount, rfl⟩ := h
  refine ⟨s, before, after ++ last, hcount, ?_⟩
  rw [List.append_assoc _ after]

theorem not_bare_nil : ¬ Bare env [] := by
  rintro ⟨before, code, after, h, -⟩
  simp at h

/-- What comes last is the whole list or the end of what comes after an error. -/
theorem eq_snoc_cases {before after : List SubEvent} {e mark : SubEvent}
    (h : events ++ [e] = before ++ mark :: after) : (after = [] ∧ before = events ∧ e = mark) ∨
      ∃ rest, after = rest ++ [e] ∧ events = before ++ mark :: rest := by
  cases after using List.reverseRecOn with
  | nil =>
    obtain ⟨hbefore, hlast⟩ := List.append_inj' h rfl
    exact .inl ⟨rfl, hbefore.symm, (List.cons.inj hlast).1⟩
  | append_singleton rest last =>
    have h' : events ++ [e] = (before ++ mark :: rest) ++ [last] := by
      rw [h, List.append_assoc, List.cons_append]
    obtain ⟨hevents, hlast⟩ := List.append_inj' h' rfl
    obtain ⟨rfl, -⟩ := List.cons.inj hlast
    exact .inr ⟨rest, rfl, hevents⟩

/-- Only an error makes a serve bare. -/
theorem not_bare_snoc (h : ¬ Bare env events) (he : ∀ code, e ≠ .err code) :
    ¬ Bare env (events ++ [e]) := by
  rintro ⟨before, code, after, heq, hsnap⟩
  rcases eq_snoc_cases heq with ⟨-, -, rfl⟩ | ⟨rest, rfl, hevents⟩
  · exact he code rfl
  · exact h ⟨before, code, rest, hevents, fun hrest => hsnap (hrest.append_right [e])⟩

theorem SnapFirst.snoc (h : SnapFirst env events)
    (he : ∀ changes cursor, e = .delta changes cursor → ¬ Bare env events) :
    SnapFirst env (events ++ [e]) := by
  intro before code mid changes cursor after heq
  rcases eq_snoc_cases heq with ⟨-, hbefore, rfl⟩ | ⟨rest, rfl, hevents⟩
  · by_contra hsnap
    exact he changes cursor rfl ⟨before, code, mid, hbefore.symm, hsnap⟩
  · exact h before code mid changes cursor rest hevents

theorem SnapFirst.append (h : SnapFirst env events) {last : List SubEvent}
    (hlast : ∀ e ∈ last, ∀ changes cursor, e ≠ .delta changes cursor) :
    SnapFirst env (events ++ last) := by
  induction last generalizing events with
  | nil => rwa [List.append_nil]
  | cons e last ih =>
    have hstep : SnapFirst env (events ++ [e]) :=
      h.snoc fun changes cursor he => absurd he (hlast e List.mem_cons_self changes cursor)
    have hrest := ih hstep fun e' he' => hlast e' (List.mem_cons_of_mem _ he')
    rwa [List.append_assoc, List.singleton_append] at hrest

/-- A full SNAP at the end clears what was before it. -/
theorem not_bare_of_full (env : SubEnv) (before : List SubEvent) {s : SnapOut}
    (hcount : 1 ≤ s.count) :
    ¬ Bare env (before ++ (List.range' 1 s.count).map (Serving.chunkEvent env s)) := by
  rintro ⟨before', code, after, heq, hsnap⟩
  have herr : .err code ∉ (List.range' 1 s.count).map (Serving.chunkEvent env s) := by
    intro hmem
    obtain ⟨i, -, hi⟩ := List.mem_map.1 hmem
    exact SubEvent.noConfusion hi
  rcases List.append_eq_append_iff.1 heq with ⟨c, rfl, hblock⟩ | ⟨c, rfl, hafter⟩
  · rw [hblock] at herr
    exact herr (List.mem_append_right _ List.mem_cons_self)
  · cases c with
    | nil =>
      rw [List.nil_append] at hafter
      rw [← hafter] at herr
      exact herr List.mem_cons_self
    | cons e c =>
      obtain ⟨-, rfl⟩ := List.cons.inj hafter
      apply hsnap
      exact ⟨s, c, [], hcount, by rw [List.append_nil]; rfl⟩

/-- The serve has had no delta too early, and a SNAP that is being paced has its first chunks
behind it. -/
structure Held (env : SubEnv) (s : ServeState) : Prop where
  snapFirst : SnapFirst env s.events
  snap : ∀ o, s.snap = some o → 1 ≤ o.next ∧ o.next ≤ o.count ∧
    ∃ before, s.events = before ++ (List.range' 1 (o.next - 1)).map (Serving.chunkEvent env o)

/-- Deltas may go out, or a resync is owed. -/
def SnapReady (env : SubEnv) (s : ServeState) : Prop := s.resyncing = false → ¬ Bare env s.events

theorem Held.of_not_resyncing {s : ServeState} (h : SnapFirst env s.events)
    (hr : s.resyncing = false) : Held env s := by
  refine ⟨h, fun o ho => ?_⟩
  rw [(ServeState.resyncing_eq_false.1 hr).2] at ho
  cases ho

namespace Serving

variable {g : SubGroup} {x y : Serving}

theorem held_enterResync (h : Held env x.state) : Held env x.enterResync.state := by
  rw [enterResync]
  split
  next => exact h
  next => exact ⟨h.snapFirst, h.snap⟩

theorem resyncing_enterResync (x : Serving) : x.enterResync.state.resyncing = true := by
  rw [enterResync]
  split
  next hr => exact hr
  next => rfl

theorem clear_of_resyncing {s : ServeState} (hr : s.resyncing = true) : SnapReady env s :=
  fun hn => absurd (hr.symm.trans hn) Bool.noConfusion

/-- A delta goes to a serve that is clear. -/
theorem held_deliverDelta (h : Held env x.state) (hclear : SnapReady env x.state) :
    Held env (x.deliverDelta env g j).state ∧ SnapReady env (x.deliverDelta env g j).state := by
  have hresync := held_enterResync h
  rw [deliverDelta]
  split
  next => exact ⟨h, hclear⟩
  next hr =>
    have hnot := Bool.eq_false_iff.2 hr
    have hbare := hclear hnot
    dsimp only
    split
    next => exact ⟨hresync, clear_of_resyncing (resyncing_enterResync x)⟩
    next =>
      split
      next y hsend =>
        have hy := sendData_ok hsend
        have hr' : y.state.resyncing = false := by
          rw [hy]
          exact hnot
        have hbare' : ¬ Bare env y.state.events := by
          rw [hy]
          exact not_bare_snoc hbare fun _ h => SubEvent.noConfusion h
        refine ⟨.of_not_resyncing ?_ hr', fun _ => hbare'⟩
        rw [hy]
        exact h.snapFirst.snoc fun _ _ _ => hbare
      next y hsend =>
        have hy := sendData_refused hsend
        have hyheld : Held env y.state := hy.symm ▸ h
        exact ⟨held_enterResync hyheld, clear_of_resyncing (resyncing_enterResync y)⟩

theorem held_replay (h : Held env x.state) (hclear : SnapReady env x.state) (d : Int)
    (journal : List SubJournalEntry) : Held env (x.replay env g d journal).state ∧
      SnapReady env (x.replay env g d journal).state := by
  induction journal generalizing x with
  | nil => exact ⟨h, hclear⟩
  | cons j journal ih =>
    rw [replay]
    have hstep : Held env (if d < j.seq then x.deliverDelta env g j else x).state ∧
        SnapReady env (if d < j.seq then x.deliverDelta env g j else x).state := by
      split
      · exact held_deliverDelta h hclear
      · exact ⟨h, hclear⟩
    generalize (if d < j.seq then x.deliverDelta env g j else x) = y at hstep ⊢
    split
    · exact hstep
    · exact ih hstep.1 hstep.2

theorem replay_of_le {d : Int} {journal : List SubJournalEntry}
    (h : ∀ j ∈ journal, ¬ d < j.seq) : x.replay env g d journal = x := by
  induction journal with
  | nil => rfl
  | cons j journal ih =>
    have hrest := ih fun j' hj' => h j' (List.mem_cons_of_mem j hj')
    rw [replay, if_neg (h j List.mem_cons_self), hrest, ite_self]

theorem held_catchUp (h : Held env x.state) (hclear : SnapReady env x.state) (s : SnapOut) :
    Held env (x.catchUp env g s).state := by
  rw [catchUp]
  split
  · exact ⟨h.snapFirst, h.snap⟩
  · split
    · exact h
    · split
      · exact held_enterResync h
      · exact (held_replay h hclear _ _).1

theorem held_pumpSnap (h : Held env x.state) : Held env (x.pumpSnap env g).state := by
  rw [pumpSnap]
  split
  next => exact h
  next s hs =>
    obtain ⟨hone, hle, before, hevents⟩ := h.snap s hs
    obtain ⟨k, hk, hnext, hstate⟩ := pumpChunks_events (s.count + 1 - s.next) s x
    generalize pumpChunks env (s.count + 1 - s.next) s x = r at hnext hstate
    obtain ⟨s', y⟩ := r
    dsimp only at hnext hstate ⊢
    subst hnext
    have hblock : y.state.events = before ++
        (List.range' 1 (s.next + k - 1)).map (chunkEvent env s) := by
      have hsplit : List.range' 1 (s.next - 1) ++ List.range' s.next k =
          List.range' 1 (s.next + k - 1) := by
        have hjoin := List.range'_append_1 (s := 1) (m := s.next - 1) (n := k)
        rw [Nat.add_sub_cancel' hone] at hjoin
        rw [hjoin]
        congr 1
        omega
      rw [hstate, hevents, List.append_assoc, ← List.map_append, hsplit]
    have hfirst : SnapFirst env y.state.events := by
      rw [hstate]
      apply h.snapFirst.append
      intro e he changes cursor hdelta
      obtain ⟨i, -, rfl⟩ := List.mem_map.1 he
      exact SubEvent.noConfusion hdelta
    split
    next hmore =>
      refine ⟨hfirst, fun o ho => ?_⟩
      obtain rfl := Option.some.inj ho
      exact ⟨Nat.le_add_right_of_le hone, hmore, before, hblock⟩
    next hdone =>
      have hfull : s.next + k - 1 = s.count := by
        dsimp only at hdone
        omega
      rw [hfull] at hblock
      have hbare : ¬ Bare env y.state.events := by
        rw [hblock]
        exact not_bare_of_full env before (hone.trans hle)
      apply held_catchUp (x := { y with state.snap := none })
      · refine ⟨hfirst, fun o ho => ?_⟩
        cases ho
      · exact fun _ => hbare

theorem held_startSnap (h : SnapFirst env x.state.events) :
    Held env (x.startSnap env g body).state := by
  rw [startSnap]
  apply held_pumpSnap
  refine ⟨h, fun o ho => ?_⟩
  obtain rfl := Option.some.inj ho
  exact ⟨Nat.le_refl 1, Nat.le_max_left .., x.state.events, by simp⟩

theorem held_tryStartSnap (h : Held env x.state) :
    Held env (x.tryStartSnap env rows g).2.state := by
  rw [tryStartSnap]
  split
  next => exact h
  next hgo =>
    rw [not_or] at hgo
    have hnone : x.state.snap = none := by simpa using hgo.2
    split
    next y hroom => exact hasRoom_state hroom ▸ h
    next y hroom =>
      have hy := hasRoom_state hroom
      split
      next =>
        refine ⟨?_, fun o ho => ?_⟩
        · rw [note]
          dsimp only
          rw [hy]
          exact h.snapFirst.snoc fun _ _ he => SubEvent.noConfusion he
        · rw [note] at ho
          dsimp only at ho
          rw [hy, hnone] at ho
          cases ho
      next body _ => exact held_startSnap (hy.symm ▸ h.snapFirst)

end Serving

namespace SubHub

variable {h : SubHub} {f : Nat → SubGroup → Serving → Option SnapCache × Serving}

/-- Visits that keep a fact about the serves of the groups that they go to. -/
theorem keeps_foldl_visit {K : Nat → ServeState → Prop} {V : Nat → Prop}
    (hf : ∀ o g x, V o → K o x.state → K o (f o g x).2.state) (ids : List (SubSession × Nat))
    (hids : ∀ s ∈ h.serves.rows, s.id ∈ ids → V s.group)
    (hK : ∀ s ∈ h.serves.rows, K s.group s.state) :
    ∀ s ∈ (ids.foldl (visit f) h).serves.rows, K s.group s.state := by
  induction ids generalizing h with
  | nil => exact hK
  | cons id ids ih =>
    apply ih
    · intro s' hs' hin
      obtain ⟨s, hmem, hid, hgroup, -⟩ := mem_visit hs'
      rw [hgroup]
      exact hids s hmem (hid ▸ List.mem_cons_of_mem id hin)
    · intro s' hs'
      obtain ⟨s, hmem, -, hgroup, hcase⟩ := mem_visit hs'
      split at hcase
      next hid =>
        rw [hgroup, hcase]
        exact hf _ _ _ (hids s hmem (hid ▸ List.mem_cons_self)) (hK s hmem)
      next =>
        rw [hcase]
        exact hK s hmem

/-- Every serve is held, and those of the groups `os` are clear. -/
def HeldIn (env : SubEnv) (os : List Nat) (h : SubHub) : Prop :=
  ∀ s ∈ h.serves.rows, Held env s.state ∧ (s.group ∈ os → SnapReady env s.state)

theorem HeldIn.mono {os os' : List Nat} (hk : HeldIn env os h) (hsub : ∀ o ∈ os', o ∈ os) :
    HeldIn env os' h := fun s hs => ⟨(hk s hs).1, fun ho => (hk s hs).2 (hsub _ ho)⟩

theorem HeldIn.removeServe (hk : HeldIn env [] h) (id : SubSession × Nat) :
    HeldIn env [] (h.removeServe id) := fun s hs => hk s (mem_removeServe.1 hs).1

theorem HeldIn.foldl {os : List Nat} {step : SubHub → α → SubHub} {as : List α}
    (hk : HeldIn env os h) (hstep : ∀ h, ∀ a ∈ as, HeldIn env os h → HeldIn env os (step h a)) :
    HeldIn env os (as.foldl step h) := by
  induction as generalizing h with
  | nil => exact hk
  | cons a as ih =>
    apply ih (hstep h a List.mem_cons_self hk)
    exact fun h b hb => hstep h b (List.mem_cons_of_mem a hb)

theorem HeldIn.foldl_visit (hk : HeldIn env [] h)
    (hf : ∀ o g x, Held env x.state → Held env (f o g x).2.state)
    (ids : List (SubSession × Nat)) : HeldIn env [] (ids.foldl (visit f) h) := by
  intro s hs
  have hheld := keeps_foldl_visit (K := fun _ s => Held env s) (V := fun _ => True)
    (fun o g x _ hx => hf o g x hx) ids (fun _ _ _ => trivial) (fun s hs => (hk s hs).1) s hs
  exact ⟨hheld, fun hin => absurd hin List.not_mem_nil⟩

theorem HeldIn.drain (hk : HeldIn env [] h) (turn : SubTurn) (ids : List (SubSession × Nat)) :
    HeldIn env [] (ids.foldl (drain env turn) h) := by
  apply hk.foldl_visit
  intro o g x hx
  split
  · exact Serving.held_pumpSnap hx
  · exact Serving.held_tryStartSnap hx

theorem HeldIn.resetGroup (hk : HeldIn env [] h) (turn : SubTurn) (o : Nat) (epoch : String) :
    HeldIn env [] (h.resetGroup env turn o epoch) := by
  rw [SubHub.resetGroup]
  apply HeldIn.foldl_visit (h := h.setGroup o _) hk
  intro o' g x hx
  apply Serving.held_tryStartSnap
  refine ⟨hx.snapFirst, fun out hout => ?_⟩
  cases hout

/-- A publish to a group whose serves are clear. -/
theorem HeldIn.publish {os : List Nat} (hk : HeldIn env os h) {o : Nat} (ho : o ∈ os)
    (changes : SubChanges) : HeldIn env os (h.publish env o changes) := by
  rw [SubHub.publish]
  apply keeps_foldl_visit (h := h.setGroup o _) (V := fun o' => o' = o)
    (K := fun o s => Held env s ∧ (o ∈ os → SnapReady env s))
  · intro o' g x heq hx
    have hsent := Serving.held_deliverDelta (g := g)
      (j := (publishTo env (h.objects o) changes).2) hx.1 (hx.2 (heq ▸ ho))
    exact ⟨hsent.1, fun _ => hsent.2⟩
  · intro s hs hid
    exact (mem_servesOf hs).1 hid
  · exact hk

/-- No event of the step goes out to a serve whose last SNAP could not be read: it publishes to no
group that has one, and resumes none. -/
def SparesFailed (env : SubEnv) (h : SubHub) : SubTurn × Action → Prop
  | (_, .tailApplied e) => ∀ g, h.groups.get (ringKey env e.topic) = some g →
      ∀ s ∈ h.serves.rows, s.group = g.2 → SnapReady env s.state
  | (_, .viewChange view _ (some _)) => ∀ s ∈ h.serves.rows, s.group ∈ h.groupsByView view →
      SnapReady env s.state
  | (_, .sub session m) => ∀ g cursor, h.groups.get (requestKey env m) = some g →
      m.fromCursor = some cursor → cursor.e = (h.objects g.2).epoch →
      (∃ j ∈ (h.objects g.2).journal, cursor.d < j.seq) →
      ∀ s ∈ h.serves.rows, s.id = (session, m.subId) → s.group = g.2 → SnapReady env s.state
  | _ => True

theorem serves_resolveGroup {turn : SubTurn} {m : MsgSub} {r : SubHub × Nat}
    (hr : resolveGroup env turn h m = .ok r) : r.1.serves = h.serves := by
  rcases resolveGroup_cases hr with ⟨heq, -⟩ | ⟨-, ha⟩
  · rw [heq]
  · obtain ⟨-, -, -, -, hserves, -⟩ := ha.frame
    exact hserves

theorem HeldIn.addSubscriber (hk : HeldIn env [] h) (o : Nat) (id : SubSession × Nat) :
    HeldIn env [] (h.addSubscriber o id) := by
  intro s hs
  have hcase := mem_addSubscriber hs
  split at hcase
  next =>
    rcases hcase with rfl | ⟨hold, -⟩
    · refine ⟨⟨?_, fun out hout => nomatch hout⟩, fun hin => absurd hin List.not_mem_nil⟩
      intro before code mid changes cursor after heq
      simp [Serve.fresh] at heq
    · exact hk s hold
  next => exact hk s hcase

theorem HeldIn.owe (hk : HeldIn env [] h) (turn : SubTurn) (id : SubSession × Nat) :
    HeldIn env [] (h.owe env turn id) := by
  apply HeldIn.foldl_visit hk _ [id]
  intro o g x hx
  exact Serving.held_tryStartSnap ⟨hx.snapFirst, hx.snap⟩

/-- A serve that is not in resync resumes: clear, or with nothing to replay. -/
theorem HeldIn.resume (hk : HeldIn env [] h) {o : Nat} {id : SubSession × Nat} {cursor : CursorVal}
    (hfree : ∀ s ∈ h.serves.rows, s.id = id → s.group = o → s.state.resyncing = false)
    (hclear : (∃ j ∈ (h.objects o).journal, cursor.d < j.seq) →
      ∀ s ∈ h.serves.rows, s.id = id → s.group = o → SnapReady env s.state) :
    HeldIn env [] ((h.addSubscriber o id).resume env id cursor) := by
  intro s' hs'
  refine ⟨?_, fun hin => absurd hin List.not_mem_nil⟩
  obtain ⟨s, hmem, -, -, hcase⟩ := mem_visit hs'
  have hheld := (hk.addSubscriber o id s hmem).1
  have hsub := mem_addSubscriber hmem
  split at hcase
  next hid =>
    rw [if_pos hid] at hsub
    have hgroup : s.group = o := by
      rcases hsub with rfl | ⟨-, hgroup⟩
      · rfl
      · exact hgroup
    have hr : s.state.resyncing = false := by
      rcases hsub with rfl | ⟨hold, hgroup⟩
      · rfl
      · exact hfree s hold hid hgroup
    obtain ⟨c, hc⟩ := (quiet_addSubscriber h o id).objects s.group
    rw [hc, hgroup] at hcase
    rw [hcase]
    have hnote : Held env
        ((⟨s.state, (h.addSubscriber o id).lane⟩ : Serving).note (.resume cursor)).state :=
      .of_not_resyncing (hheld.snapFirst.snoc fun _ _ he => SubEvent.noConfusion he) hr
    by_cases hmore : ∃ j ∈ (h.objects o).journal, cursor.d < j.seq
    · have hs : SnapReady env s.state := by
        rcases hsub with rfl | ⟨hold, hgroup⟩
        · exact fun _ => not_bare_nil
        · exact hclear hmore s hold hid hgroup
      exact (Serving.held_replay hnote
        (fun _ => not_bare_snoc (hs hr) fun _ he => SubEvent.noConfusion he) _ _).1
    · rw [not_exists] at hmore
      rw [Serving.replay_of_le fun j hj hlt => hmore j ⟨hj, hlt⟩]
      exact hnote
  next =>
    rw [hcase]
    exact hheld

/-- A group that is new has nothing to replay. -/
theorem clear_of_spares {turn : SubTurn} {session : SubSession} {m : MsgSub} {r : SubHub × Nat}
    {cursor : CursorVal} (hspares : SparesFailed env h (turn, .sub session m))
    (hr : resolveGroup env turn h m = .ok r) (hcursor : m.fromCursor = some cursor)
    (hepoch : cursor.e = (r.1.objects r.2).epoch)
    (hmore : ∃ j ∈ (r.1.objects r.2).journal, cursor.d < j.seq) :
    ∀ s ∈ h.serves.rows, s.id = (session, m.subId) → s.group = r.2 → SnapReady env s.state := by
  rcases resolveGroup_cases hr with ⟨heq, k, hget⟩ | ⟨-, ha⟩
  · rw [heq] at hepoch hmore
    exact hspares _ cursor hget hcursor hepoch hmore
  · obtain ⟨g, -, hjournal, -, -, hobjects, -⟩ := ha.frame
    obtain ⟨j, hj, -⟩ := hmore
    rw [hobjects, Function.update_self, hjournal] at hj
    exact absurd hj List.not_mem_nil

theorem HeldIn.handleSub (hk : HeldIn env [] h) {turn : SubTurn} {session : SubSession} {m : MsgSub}
    (hspares : SparesFailed env h (turn, .sub session m)) :
    HeldIn env [] (h.handleSub env turn session m) := by
  rw [SubHub.handleSub]
  split
  next => exact hk
  next h' o hr =>
    have hserves : h'.serves = h.serves := serves_resolveGroup hr
    have hk' : HeldIn env [] h' := by
      intro s hs
      rw [hserves] at hs
      exact hk s hs
    dsimp only
    split
    next => exact hk'
    next =>
      split
      next => exact hk'
      next =>
        split
        next => exact hk'
        next hfree =>
          have howe := (hk'.addSubscriber o (session, m.subId)).owe turn (session, m.subId)
          split
          next cursor hcursor =>
            split
            next hepoch =>
              split
              next => exact hk'
              next =>
                split
                next =>
                  apply hk'.resume
                  · intro s hmem hid hgroup
                    have hget := Table.get_of_mem hmem
                    rw [hid] at hget
                    rw [hget, Option.any_some, Bool.and_eq_true, decide_eq_true_iff,
                      not_and] at hfree
                    exact Bool.eq_false_iff.2 (hfree hgroup)
                  · intro hmore s hmem
                    rw [hserves] at hmem
                    exact clear_of_spares hspares hr hcursor hepoch hmore s hmem
                next => exact howe
            next => exact howe
          next => exact howe

theorem HeldIn.onViewChange (hk : HeldIn env [] h) {turn : SubTurn} {view epoch : String}
    {change : Option SubChanges}
    (hspares : SparesFailed env h (turn, .viewChange view epoch change)) :
    HeldIn env [] (h.onViewChange env turn view epoch change) := by
  cases change with
  | none => exact hk.foldl fun h o _ hk => hk.resetGroup turn o epoch
  | some changes =>
    have hview : HeldIn env (h.groupsByView view) h := fun s hs => ⟨(hk s hs).1, hspares s hs⟩
    have hsent : HeldIn env (h.groupsByView view)
        (h.onViewChange env turn view epoch (some changes)) := by
      apply hview.foldl
      intro h o ho hk
      exact hk.publish ho changes
    exact hsent.mono fun o ho => absurd ho List.not_mem_nil

theorem HeldIn.perform (hk : HeldIn env [] h) {turn : SubTurn} {a : Action}
    (hspares : SparesFailed env h (turn, a)) : HeldIn env [] (h.perform env turn a) := by
  cases a with
  | sub session m => exact hk.handleSub hspares
  | unsub session subId => exact hk.removeServe _
  | sessionClosed session => exact hk.foldl fun _ id _ hk => hk.removeServe id
  | capacity session => exact hk.drain turn _
  | timer id => exact hk.drain turn [id]
  | registerChanged topic =>
    rw [SubHub.perform, handleRegisterChanged]
    split
    · exact hk
    · exact hk.resetGroup turn _ _
  | tailApplied e =>
    rw [SubHub.perform, handleTailApplied]
    split
    next => exact hk
    next key o hget =>
      have hgroup : HeldIn env [o] h := by
        intro s hs
        refine ⟨(hk s hs).1, fun hin => ?_⟩
        exact hspares _ hget s hs (List.mem_singleton.1 hin)
      apply (hgroup.publish (List.mem_singleton_self o) _).mono
      exact fun o ho => absurd ho List.not_mem_nil
  | viewChange view epoch change => exact hk.onViewChange hspares

/-- In every run, with providers that fail at any time, in which no delta is published or replayed
to a serve whose last SNAP could not be read: no serve has a delta between an error and the next
full SNAP. -/
theorem snap_before_delta (hrun : Trace (step env) (SparesFailed env) init as h) :
    ∀ s ∈ h.serves.rows, SnapFirst env s.state.events := by
  have hk : HeldIn env [] h := by
    apply hrun.keeps (HeldIn env [])
    · intro s hs
      exact absurd hs List.not_mem_nil
    · intro t a u ht hspares hstep
      obtain rfl := Option.some.inj hstep
      have hlane : HeldIn env [] { t with lane := a.1.lane } := ht
      apply hlane.perform
      exact hspares
  intro s hs
  exact (hk s hs).1.snapFirst

/-- A subscriber that got an error, and then a SNAP of an empty body. -/
def oneSnap : List SubEvent → Bool
  | [.err _, .snap 1 1 [91, 93] _] => true
  | _ => false

theorem not_bare_of_oneSnap (h : oneSnap events = true) : ¬ Bare hostSubs events := by
  rw [oneSnap.eq_def] at h
  split at h
  next code cursor =>
    exact not_bare_of_full hostSubs [.err code] (s := ⟨[91, 93], 1, 1, cursor, "", 0⟩)
      (Nat.le_refl 1)
  next => cases h

/-- A turn in which no provider can read its rows. -/
def brokenTurn : SubTurn := { openTurn with rows := fun _ => none }

/-- The hub after the calls. -/
def turnsRun (as : List (SubTurn × Action)) : SubHub :=
  as.foldl (fun h a => { h with lane := a.1.lane }.perform hostSubs a.1 a.2) init

/-- The SNAP of a SUB cannot be read, and the subscriber asks again. -/
def askAgain : List (SubTurn × Action) :=
  [(brokenTurn, .sub 0 (subTail 1 [topicParam])), (openTurn, .sub 0 (subTail 1 [topicParam]))]

def appliedNext : SubTurn × Action := (openTurn, .tailApplied (hostEntry "w" 1 1 "k" ""))

theorem snap_before_delta_of_retry :
    ((turnsRun (askAgain ++ [appliedNext])).serves.rows.map fun s => s.state.events.length) = [3] ∧
      ∀ s ∈ (turnsRun (askAgain ++ [appliedNext])).serves.rows,
        SnapFirst hostSubs s.state.events := by
  have hask : Trace (step hostSubs) (SparesFailed hostSubs) init askAgain (turnsRun askAgain) := by
    apply Trace.foldl (fun _ _ => rfl)
    intro h a ha
    rcases List.mem_cons.1 ha with rfl | ha
    · exact fun _ _ _ hcursor => nomatch hcursor
    · obtain rfl := List.mem_singleton.1 ha
      exact fun _ _ _ hcursor => nomatch hcursor
  have hrun : Trace (step hostSubs) (SparesFailed hostSubs) init (askAgain ++ [appliedNext])
      (turnsRun (askAgain ++ [appliedNext])) := by
    apply hask.snoc _ rfl
    intro g _ s hs _ _
    have hshape : ((turnsRun askAgain).serves.rows.all fun s => oneSnap s.state.events) = true := by
      decide +kernel
    exact not_bare_of_oneSnap (List.all_eq_true.1 hshape s hs)
  exact ⟨by decide +kernel, snap_before_delta hrun⟩

/-- A subscriber that got an error, and then a delta. -/
def errThenDelta : List SubEvent → Bool
  | [.err (.of .ERR_STORAGE), .delta _ _] => true
  | _ => false

theorem not_snapFirst_of_errThenDelta (h : errThenDelta events = true) :
    ¬ SnapFirst env events := by
  rw [errThenDelta.eq_def] at h
  split at h
  next changes cursor =>
    intro hfirst
    obtain ⟨s, before, after, hcount, hmid⟩ := hfirst [] _ [] changes cursor [] rfl
    have hlength := congrArg List.length hmid
    simp only [List.length_append, List.length_map, List.length_range', List.length_nil] at hlength
    omega
  next => cases h

/-- A SUB whose SNAP could not be read, and an entry of its topic: the subscriber has an error and
then a delta. -/
theorem delta_after_error :
    Trace (step hostSubs) (fun _ _ => True) init
      [(brokenTurn, .sub 0 (subTail 1 [topicParam])), appliedNext]
      (turnsRun [(brokenTurn, .sub 0 (subTail 1 [topicParam])), appliedNext]) ∧
    ∃ s ∈ (turnsRun [(brokenTurn, .sub 0 (subTail 1 [topicParam])), appliedNext]).serves.rows,
      ¬ SnapFirst hostSubs s.state.events := by
  have hshape : ((turnsRun [(brokenTurn, .sub 0 (subTail 1 [topicParam])),
      appliedNext]).serves.rows.any fun s => errThenDelta s.state.events) = true := by
    decide +kernel
  obtain ⟨s, hs, hevents⟩ := List.any_eq_true.1 hshape
  exact ⟨.foldl (fun _ _ => rfl) fun _ _ _ => trivial, s, hs, not_snapFirst_of_errThenDelta hevents⟩

end SubHub

end Seqscribe
