import Seqscribe.SubGaps

namespace Seqscribe
set_option autoImplicit true

namespace SubHub

/-! The group registry: `groups`, `groupsByView`, and the group objects that the serves hold. -/

variable {env : SubEnv} {turn : SubTurn} {h h' h'' : SubHub} {mints : String → Prop}
  {joins : Nat → Prop}

/-- The loops over a topic's group, or over a view's groups, reach the serves of the object. -/
structure Registered (env : SubEnv) (h : SubHub) (o : Nat) : Prop where
  row : h.groups.get (h.objects o).key = some ((h.objects o).key, o)
  topic : ∀ topic, (h.objects o).ringTopic = some topic →
    (h.objects o).key = registerKey env topic ∨ (h.objects o).key = ringKey env topic
  view : ∀ view, (h.objects o).viewName = some view → o ∈ h.groupsByView view

/-- The request names the topic of the group object `o` by params other than its own, so that a
new object takes its place in `groups`. -/
def Displaces (env : SubEnv) (h : SubHub) (m : MsgSub) (o : Nat) : Prop :=
  h.groups.get (requestKey env m) = none ∧ ∃ topic, topicFor env m = some topic ∧
    (m.view = "register" ∨ m.view = "tail") ∧
    ∃ key, h.groups.get (m.view, topicParams env topic) = some (key, o)

/-- No SUB displaces a group that still has a serve, or that has handed out a delta of an epoch
which the new object goes on with. -/
def Plain (env : SubEnv) (h : SubHub) (a : SubTurn × Action) : Prop :=
  ∀ session m o, a.2 = .sub session m → Displaces env h m o →
    (∀ s ∈ h.serves.rows, s.group ≠ o) ∧ (m.view = "tail" → (h.objects o).deltaSeq = 0)

/-- The epoch that the step may bring into the hub. -/
def Mints (a : SubTurn × Action) (epoch : String) : Prop :=
  a.1.minted = epoch ∨ ∃ view, a.2 = .viewChange view epoch none

/-- A group object over time. -/
structure Evolves (mints : String → Prop) (g g' : SubGroup) : Prop where
  key : g'.key = g.key
  viewName : g'.viewName = g.viewName
  ringTopic : g'.ringTopic = g.ringTopic
  epoch : g'.epoch = g.epoch ∧ g.deltaSeq ≤ g'.deltaSeq ∨ g.key.1 ≠ "tail" ∧ mints g'.epoch

theorem Evolves.refl (g : SubGroup) : Evolves mints g g := ⟨rfl, rfl, rfl, .inl ⟨rfl, Nat.le_refl _⟩⟩

theorem Evolves.trans (h₁ : Evolves mints g g') (h₂ : Evolves mints g' g'') :
    Evolves mints g g'' where
  key := h₂.key.trans h₁.key
  viewName := h₂.viewName.trans h₁.viewName
  ringTopic := h₂.ringTopic.trans h₁.ringTopic
  epoch := by
    rcases h₂.epoch with ⟨hepoch, hle⟩ | ⟨hkey, hmint⟩
    · rw [hepoch]
      rcases h₁.epoch with ⟨hepoch', hle'⟩ | hmint
      · exact .inl ⟨hepoch', hle'.trans hle⟩
      · exact .inr hmint
    · exact .inr ⟨h₁.key ▸ hkey, hmint⟩

/-- A step that registers no group. -/
structure Follows (mints : String → Prop) (joins : Nat → Prop) (h h' : SubHub) : Prop where
  allocated : h'.allocated = h.allocated
  groups : h'.groups = h.groups
  groupsByView : h'.groupsByView = h.groupsByView
  objects : ∀ o, Evolves mints (h.objects o) (h'.objects o)
  serves : ∀ s' ∈ h'.serves.rows, (∃ s ∈ h.serves.rows, s'.group = s.group) ∨ joins s'.group

theorem Follows.refl (h : SubHub) : Follows mints joins h h :=
  ⟨rfl, rfl, rfl, fun _ => .refl _, fun s hs => .inl ⟨s, hs, rfl⟩⟩

theorem Follows.trans (h₁ : Follows mints joins h h') (h₂ : Follows mints joins h' h'') :
    Follows mints joins h h'' where
  allocated := h₂.allocated.trans h₁.allocated
  groups := h₂.groups.trans h₁.groups
  groupsByView := h₂.groupsByView.trans h₁.groupsByView
  objects := fun o => (h₁.objects o).trans (h₂.objects o)
  serves := by
    intro s'' hs''
    rcases h₂.serves s'' hs'' with ⟨s', hs', hgroup'⟩ | hjoin
    · rcases h₁.serves s' hs' with ⟨s, hs, hgroup⟩ | hjoin
      · exact .inl ⟨s, hs, hgroup'.trans hgroup⟩
      · exact .inr (hgroup' ▸ hjoin)
    · exact .inr hjoin

theorem Follows.of_quiet (hq : Quiet h h')
    (hserves : ∀ s' ∈ h'.serves.rows, (∃ s ∈ h.serves.rows, s'.group = s.group) ∨ joins s'.group) :
    Follows mints joins h h' where
  allocated := hq.allocated
  groups := hq.groups
  groupsByView := hq.groupsByView
  objects := by
    intro o
    obtain ⟨c, hc⟩ := hq.objects o
    rw [hc]
    exact ⟨rfl, rfl, rfl, .inl ⟨rfl, Nat.le_refl _⟩⟩
  serves := hserves

theorem follows_foldl_visit {f : Nat → SubGroup → Serving → Option SnapCache × Serving}
    (h : SubHub) (ids : List (SubSession × Nat)) :
    Follows mints joins h (ids.foldl (visit f) h) :=
  .of_quiet (quiet_foldl_visit h ids) fun _ hs => .inl (group_foldl_visit ids hs)

theorem follows_removeServe (h : SubHub) (id : SubSession × Nat) :
    Follows mints joins h (h.removeServe id) :=
  .of_quiet (quiet_removeServe h id) fun s hs => .inl ⟨s, (mem_removeServe.1 hs).1, rfl⟩

theorem follows_addSubscriber (h : SubHub) (o : Nat) (id : SubSession × Nat) :
    Follows mints (fun o' => o' = o) h (h.addSubscriber o id) := by
  apply Follows.of_quiet (quiet_addSubscriber h o id)
  intro s hs
  have hcase := mem_addSubscriber hs
  split at hcase
  next =>
    rcases hcase with rfl | ⟨-, hgroup⟩
    · exact .inr rfl
    · exact .inr hgroup
  next => exact .inl ⟨s, hcase, rfl⟩

theorem Follows.setGroup (hg : Evolves mints (h.objects o) g) :
    Follows mints joins h (h.setGroup o g) := by
  refine ⟨rfl, rfl, rfl, fun o' => ?_, fun s hs => .inl ⟨s, hs, rfl⟩⟩
  rw [objects_setGroup]
  split
  next heq => exact heq ▸ hg
  next => exact .refl _

theorem follows_publish (h : SubHub) (o : Nat) (changes : SubChanges) :
    Follows mints joins h (h.publish env o changes) := by
  apply Follows.trans (Follows.setGroup (o := o) (g := (publishTo env (h.objects o) changes).1) _)
    (follows_foldl_visit _ _)
  exact ⟨rfl, rfl, rfl, .inl ⟨rfl, Nat.le_succ _⟩⟩

theorem follows_resetGroup (hkey : (h.objects o).key.1 ≠ "tail") (hmint : mints epoch) :
    Follows mints joins h (h.resetGroup env turn o epoch) := by
  rw [resetGroup]
  apply Follows.trans (Follows.setGroup _) (follows_foldl_visit _ _)
  exact ⟨rfl, rfl, rfl, .inr ⟨hkey, hmint⟩⟩

theorem Follows.foldl {step : SubHub → α → SubHub} {P : SubHub → α → Prop} {as : List α}
    (hP : ∀ h h' a, Follows mints joins h h' → P h a → P h' a)
    (hstep : ∀ h a, P h a → Follows mints joins h (step h a)) (has : ∀ a ∈ as, P h a) :
    Follows mints joins h (as.foldl step h) := by
  induction as generalizing h with
  | nil => exact .refl h
  | cons a as ih =>
    have ha := hstep h a (has a List.mem_cons_self)
    exact ha.trans (ih fun b hb => hP _ _ b ha (has b (List.mem_cons_of_mem a hb)))

/-- The registry's invariant: no serve holds an object that `groups` has lost. -/
structure Registry (env : SubEnv) (h : SubHub) : Prop where
  rows : ∀ r ∈ h.groups.rows, (h.objects r.2).key = r.1 ∧ r.2 < h.allocated ∧ Registered env h r.2
  views : ∀ view, ∀ o ∈ h.groupsByView view, o < h.allocated ∧ (h.objects o).key.1 ≠ "tail"
  serves : ∀ s ∈ h.serves.rows, ∃ r ∈ h.groups.rows, s.group = r.2

theorem registry_init : Registry env init where
  rows := fun _ hr => absurd hr List.not_mem_nil
  views := fun _ _ ho => absurd ho List.not_mem_nil
  serves := fun _ hs => absurd hs List.not_mem_nil

theorem Registry.of_get (hr : Registry env h) (hget : h.groups.get k = some (k', o)) :
    k' = k ∧ (h.objects o).key = k ∧ o < h.allocated ∧ Registered env h o := by
  obtain ⟨hmem, rfl⟩ := Table.get_eq_some_iff.1 hget
  exact ⟨rfl, hr.rows _ hmem⟩

theorem Registry.registered (hr : Registry env h) (hs : s ∈ h.serves.rows) :
    Registered env h s.group := by
  obtain ⟨r, hmem, hgroup⟩ := hr.serves s hs
  exact hgroup ▸ (hr.rows r hmem).2.2

theorem Registry.follows (hr : Registry env h) (hf : Follows mints joins h h')
    (hjoins : ∀ o, joins o → ∃ r ∈ h.groups.rows, o = r.2) : Registry env h' where
  rows := by
    intro r hmem
    rw [hf.groups] at hmem
    obtain ⟨hkey, hlt, hold⟩ := hr.rows r hmem
    have he := hf.objects r.2
    rw [he.key, hf.allocated]
    refine ⟨hkey, hlt, ?_, ?_, ?_⟩
    · rw [he.key, hf.groups]
      exact hold.row
    · rw [he.key, he.ringTopic]
      exact hold.topic
    · rw [he.viewName, hf.groupsByView]
      exact hold.view
  views := by
    intro view o ho
    rw [hf.groupsByView] at ho
    rw [hf.allocated, (hf.objects o).key]
    exact hr.views view o ho
  serves := by
    intro s' hs'
    rw [hf.groups]
    rcases hf.serves s' hs' with ⟨s, hs, hgroup⟩ | hjoin
    · rw [hgroup]
      exact hr.serves s hs
    · exact hjoins _ hjoin

theorem follows_drain (h : SubHub) (ids : List (SubSession × Nat)) :
    Follows mints joins h (ids.foldl (drain env turn) h) := follows_foldl_visit h ids

theorem follows_onViewChange (hr : Registry env h)
    (hmint : change = none → mints epoch) :
    Follows mints joins h (h.onViewChange env turn view epoch change) := by
  apply Follows.foldl (P := fun h o => (h.objects o).key.1 ≠ "tail")
  · intro h h' o hf hkey
    rwa [(hf.objects o).key]
  · intro h o hkey
    cases change with
    | none => exact follows_resetGroup hkey (hmint rfl)
    | some changes => exact follows_publish h o changes
  · exact fun o ho => (hr.views view o ho).2

/-- Every step but a SUB. -/
theorem Registry.follows_perform (hr : Registry env h) (a : SubTurn × Action)
    (hsub : ∀ session m, a.2 ≠ .sub session m) :
    Follows (Mints a) joins h (h.perform env a.1 a.2) := by
  obtain ⟨turn, action⟩ := a
  cases action with
  | sub session m => exact absurd rfl (hsub session m)
  | unsub session subId => exact follows_removeServe h _
  | sessionClosed session =>
    exact Follows.foldl (P := fun _ _ => True) (fun _ _ _ _ _ => trivial)
      (fun h id _ => follows_removeServe h id) (fun _ _ => trivial)
  | capacity session => exact follows_drain h _
  | timer id => exact follows_drain h [id]
  | registerChanged topic =>
    rw [perform, handleRegisterChanged]
    split
    next => exact .refl h
    next k o hget =>
      apply follows_resetGroup _ (.inl rfl)
      rw [(hr.of_get hget).2.1]
      exact (by decide : "register" ≠ "tail")
  | tailApplied e =>
    rw [perform, handleTailApplied]
    split
    next => exact .refl h
    next => exact follows_publish h _ _
  | viewChange view epoch change =>
    apply follows_onViewChange hr
    intro hnone
    exact .inr ⟨view, by rw [hnone]⟩

/-- After `resolveGroup`, a SUB only lets the subscriber join the object. -/
theorem handleSub_cases (h : SubHub) (session : SubSession) (m : MsgSub) :
    Follows mints joins h (h.handleSub env turn session m) ∨
      ∃ r, resolveGroup env turn h m = .ok r ∧
        Follows mints (fun o => o = r.2) r.1 (h.handleSub env turn session m) := by
  have hjoin {h : SubHub} {o : Nat} {id : SubSession × Nat}
      {f : Nat → SubGroup → Serving → Option SnapCache × Serving} :
      Follows mints (fun o' => o' = o) h ((h.addSubscriber o id).visit f id) :=
    (follows_addSubscriber h o id).trans (follows_foldl_visit _ [id])
  have hrefuse {joins : Nat → Prop} {h : SubHub} {id : SubSession × Nat} {code : SubErrCode} :
      Follows mints joins h (h.refuse id code) :=
    ⟨rfl, rfl, rfl, fun _ => .refl _, fun s hs => .inl ⟨s, hs, rfl⟩⟩
  rw [handleSub]
  split
  next => exact .inl hrefuse
  next h' o hres =>
    refine .inr ⟨_, hres, ?_⟩
    dsimp only
    split
    next => exact .refl _
    next =>
      split
      next => exact hrefuse
      next =>
        split
        next => exact .refl _
        next =>
          split
          next =>
            split
            next =>
              split
              next => exact hrefuse
              next =>
                split
                next => exact hjoin
                next => exact hjoin
            next => exact hjoin
          next => exact hjoin

/-- The group that a SUB adds. -/
structure Added (env : SubEnv) (turn : SubTurn) (h : SubHub) (m : MsgSub) (r : SubHub × Nat)
    (g : SubGroup) : Prop where
  fresh : r.2 = h.allocated
  allocated : r.1.allocated = h.allocated + 1
  groups : r.1.groups = h.groups.upsert (g.key, r.2)
  objects : r.1.objects = Function.update h.objects r.2 g
  serves : r.1.serves = h.serves
  byView : ∀ view, r.1.groupsByView view =
    if g.viewName = some view then h.groupsByView view ++ [r.2] else h.groupsByView view
  /-- The key is the request's, or the one that the topic has. -/
  kind : g.ringTopic = none ∧ g.key = requestKey env m ∧ m.view ≠ "tail" ∨
    g.viewName = none ∧ ∃ topic, topicFor env m = some topic ∧ g.ringTopic = some topic ∧
      g.key = (m.view, topicParams env topic) ∧
      (m.view = "register" ∧ g.epoch = turn.minted ∨ m.view = "tail")

theorem Adds.added (ha : Adds env turn h m r) : ∃ g, Added env turn h m r g := by
  cases ha with
  | register hview htopic =>
    exact ⟨_, rfl, rfl, rfl, rfl, rfl, fun _ => rfl,
      .inr ⟨rfl, _, htopic, rfl, by rw [hview]; rfl, .inl ⟨hview, rfl⟩⟩⟩
  | tail hview htopic hepoch =>
    exact ⟨_, rfl, rfl, rfl, rfl, rfl, fun _ => rfl,
      .inr ⟨rfl, _, htopic, rfl, by rw [hview]; rfl, .inr hview⟩⟩
  | view hregister htail hviews hadd =>
    cases hadd
    refine ⟨_, rfl, rfl, rfl, rfl, rfl, fun view => ?_, .inl ⟨rfl, rfl, htail⟩⟩
    dsimp only
    rw [Function.update_apply]
    split
    next heq => rw [heq, if_pos rfl]
    next hne => rw [if_neg fun he => hne (Option.some.inj he).symm]

section

variable {r : SubHub × Nat} {g : SubGroup}

theorem Added.object (ha : Added env turn h m r g) (o : Nat) :
    r.1.objects o = if o = h.allocated then g else h.objects o := by
  rw [ha.objects, Function.update_apply, ha.fresh]

theorem Added.get (ha : Added env turn h m r g) (k : GroupKey) :
    r.1.groups.get k = if g.key = k then some (g.key, h.allocated) else h.groups.get k := by
  rw [ha.groups, Table.get_upsert, ha.fresh]

/-- What the new object takes the place of. -/
theorem Added.displaces (ha : Added env turn h m r g) (hnew : h.groups.get (requestKey env m) = none)
    (hget : h.groups.get g.key = some (k, o)) : Displaces env h m o := by
  rcases ha.kind with ⟨-, hkey, -⟩ | ⟨-, topic, htopic, -, hkey, hview⟩
  · rw [hkey, hnew] at hget
    cases hget
  · exact ⟨hnew, topic, htopic, hview.imp_left And.left, k, hkey ▸ hget⟩

theorem Registry.added (hr : Registry env h) (hnew : h.groups.get (requestKey env m) = none)
    (ha : Added env turn h m r g)
    (hplain : ∀ o, Displaces env h m o → ∀ s ∈ h.serves.rows, s.group ≠ o) :
    Registry env r.1 where
  rows := by
    intro row hmem
    rw [ha.groups, Table.mem_upsert] at hmem
    rcases hmem with rfl | ⟨hmem, hne⟩
    · have hobject : r.1.objects r.2 = g := by rw [ha.object, if_pos ha.fresh]
      rw [ha.allocated, hobject, ha.fresh]
      refine ⟨rfl, Nat.lt_succ_self _, ?_, ?_, ?_⟩
      · rw [← ha.fresh, hobject, ha.get, if_pos rfl, ha.fresh]
      · intro topic htopic
        rw [← ha.fresh, hobject] at htopic ⊢
        rcases ha.kind with ⟨hnone, -⟩ | ⟨-, topic', -, htopic', hkey, hview⟩
        · rw [hnone] at htopic
          cases htopic
        · obtain rfl := Option.some.inj (htopic'.symm.trans htopic)
          rcases hview with ⟨hview, -⟩ | hview
          · exact .inl (by rw [hkey, hview]; rfl)
          · exact .inr (by rw [hkey, hview]; rfl)
      · intro view hview
        rw [← ha.fresh, hobject] at hview
        rw [ha.byView, if_pos hview, ha.fresh]
        exact List.mem_append_right _ (List.mem_singleton_self _)
    · obtain ⟨hkey, hlt, hold⟩ := hr.rows row hmem
      have hobject : r.1.objects row.2 = h.objects row.2 := by
        rw [ha.object, if_neg (Nat.ne_of_lt hlt)]
      rw [hobject, ha.allocated]
      refine ⟨hkey, Nat.lt_succ_of_lt hlt, ?_, ?_, ?_⟩
      · rw [hobject, ha.get, if_neg fun he => hne (hkey.symm.trans he.symm)]
        exact hold.row
      · rw [hobject]
        exact hold.topic
      · intro view hview
        rw [hobject] at hview
        rw [ha.byView]
        split
        · exact List.mem_append_left _ (hold.view view hview)
        · exact hold.view view hview
  views := by
    intro view o ho
    rw [ha.byView] at ho
    have hold (ho : o ∈ h.groupsByView view) :
        o < r.1.allocated ∧ (r.1.objects o).key.1 ≠ "tail" := by
      obtain ⟨hlt, hkey⟩ := hr.views view o ho
      rw [ha.allocated, ha.object, if_neg (Nat.ne_of_lt hlt)]
      exact ⟨Nat.lt_succ_of_lt hlt, hkey⟩
    split at ho
    next hview =>
      rcases List.mem_append.1 ho with ho | ho
      · exact hold ho
      · obtain rfl := List.mem_singleton.1 ho
        rw [ha.object, if_pos ha.fresh, ha.allocated, ha.fresh]
        refine ⟨Nat.lt_succ_self _, ?_⟩
        rcases ha.kind with ⟨-, hkey, htail⟩ | ⟨hnone, -⟩
        · rw [hkey]
          exact htail
        · rw [hnone] at hview
          cases hview
    next => exact hold ho
  serves := by
    intro s hs
    rw [ha.serves] at hs
    obtain ⟨row, hmem, hgroup⟩ := hr.serves s hs
    refine ⟨row, ?_, hgroup⟩
    rw [ha.groups, Table.mem_upsert]
    refine .inr ⟨hmem, fun hkey => ?_⟩
    have hget : h.groups.get g.key = some (row.1, s.group) := by
      rw [hgroup, ← show row.1 = g.key from hkey]
      exact Table.get_of_mem hmem
    exact hplain _ (ha.displaces hnew hget) s hs rfl

end

/-- The object that is registered later, after one: within an epoch no delta is numbered again. -/
structure Heir (mints : String → Prop) (k : GroupKey) (g g' : SubGroup) : Prop where
  tail : k.1 = "tail" → g.deltaSeq ≤ g'.deltaSeq
  other : k.1 ≠ "tail" → ¬ mints g'.epoch → g'.epoch = g.epoch ∧ g.deltaSeq ≤ g'.deltaSeq

theorem Evolves.heir (he : Evolves mints g g') : Heir mints g.key g g' := by
  rcases he.epoch with ⟨hepoch, hle⟩ | ⟨hkey, hmint⟩
  · exact ⟨fun _ => hle, fun _ _ => ⟨hepoch, hle⟩⟩
  · exact ⟨fun ht => absurd ht hkey, fun _ hn => absurd hmint hn⟩

/-- Every key that is registered stays so, with an heir of its object. -/
def Succeeds (mints : String → Prop) (h h' : SubHub) : Prop :=
  ∀ k o, h.groups.get k = some (k, o) →
    ∃ o', h'.groups.get k = some (k, o') ∧ Heir mints k (h.objects o) (h'.objects o')

theorem Registry.succeeds (hr : Registry env h) (hf : Follows mints joins h h') :
    Succeeds mints h h' := by
  intro k o hget
  have hheir := (hf.objects o).heir
  rw [(hr.of_get hget).2.1] at hheir
  exact ⟨o, hf.groups ▸ hget, hheir⟩

/-- The new object inherits from the one that it displaces. -/
theorem Added.heir {g' : SubGroup} (ha : Added env turn h m r g)
    (hnew : h.groups.get (requestKey env m) = none)
    (hplain : ∀ o, Displaces env h m o → m.view = "tail" → (h.objects o).deltaSeq = 0)
    (hmint : mints turn.minted) (hget : h.groups.get g.key = some (k, o))
    (he : Evolves mints g g') : Heir mints g.key (h.objects o) g' := by
  have hd := hplain o (ha.displaces hnew hget)
  rcases ha.kind with ⟨-, hkey, -⟩ | ⟨-, topic, -, -, hkey, hview⟩
  · rw [hkey, hnew] at hget
    cases hget
  rw [hkey]
  rcases hview with ⟨hview, hepoch⟩ | hview
  · have hne : m.view ≠ "tail" := by
      rw [hview]
      decide
    refine ⟨fun ht => absurd ht hne, fun _ hn => absurd ?_ hn⟩
    rcases he.epoch with ⟨hsame, -⟩ | ⟨-, hmint'⟩
    · rw [hsame, hepoch]
      exact hmint
    · exact hmint'
  · refine ⟨fun _ => ?_, fun hne => absurd hview hne⟩
    rw [hd hview]
    exact Nat.zero_le _

theorem Registry.handleSub (hr : Registry env h) (hmint : mints turn.minted)
    (hplain : ∀ o, Displaces env h m o →
      (∀ s ∈ h.serves.rows, s.group ≠ o) ∧ (m.view = "tail" → (h.objects o).deltaSeq = 0)) :
    Registry env (h.handleSub env turn session m) ∧
      Succeeds mints h (h.handleSub env turn session m) := by
  rcases handleSub_cases h session m with hf | ⟨r, hres, hf⟩
  · replace hf : Follows mints (fun _ => False) h (h.handleSub env turn session m) := hf
    exact ⟨hr.follows hf nofun, hr.succeeds hf⟩
  rcases resolveGroup_cases hres with ⟨heq, k', hget'⟩ | ⟨hnew, ha⟩
  · rw [heq] at hf
    exact ⟨hr.follows hf fun o ho => ⟨_, (Table.get_eq_some_iff.1 hget').1, ho⟩, hr.succeeds hf⟩
  obtain ⟨g, ha⟩ := ha.added
  have hr' := hr.added hnew ha fun o ho => (hplain o ho).1
  refine ⟨hr'.follows hf fun o ho => ⟨(g.key, r.2), ?_, ho⟩, fun k o hget => ?_⟩
  · rw [ha.groups]
    exact Table.mem_upsert_self ..
  · by_cases hk : g.key = k
    · subst hk
      have he := hf.objects h.allocated
      rw [ha.object, if_pos rfl] at he
      exact ⟨h.allocated, by rw [hf.groups, ha.get, if_pos rfl],
        ha.heir hnew (fun o ho => (hplain o ho).2) hmint hget he⟩
    · have he := (hf.objects o).heir
      obtain ⟨-, hkey, hlt, -⟩ := hr.of_get hget
      rw [ha.object, if_neg (Nat.ne_of_lt hlt), hkey] at he
      exact ⟨o, by rw [hf.groups, ha.get, if_neg hk, hget], he⟩

theorem Registry.perform (hr : Registry env h) {a : SubTurn × Action} (hplain : Plain env h a) :
    Registry env (h.perform env a.1 a.2) ∧ Succeeds (Mints a) h (h.perform env a.1 a.2) := by
  by_cases hsub : ∃ session m, a.2 = .sub session m
  · obtain ⟨session, m, heq⟩ := hsub
    rw [heq]
    exact hr.handleSub (.inl rfl) (hplain session m · heq)
  · have hf : Follows (Mints a) (fun _ => False) h (h.perform env a.1 a.2) :=
      hr.follows_perform a fun session m heq => hsub ⟨session, m, heq⟩
    exact ⟨hr.follows hf nofun, hr.succeeds hf⟩

theorem Registry.step (hr : Registry env h) {a : SubTurn × Action} (hplain : Plain env h a)
    (hstep : SubHub.step env h a = some h') : Registry env h' ∧ Succeeds (Mints a) h h' := by
  obtain rfl := Option.some.inj hstep
  have hf : Follows (fun _ => False) (fun _ => False) h { h with lane := a.1.lane } :=
    ⟨rfl, rfl, rfl, fun _ => .refl _, fun s hs => .inl ⟨s, hs, rfl⟩⟩
  have hlane : Registry env { h with lane := a.1.lane } := hr.follows hf nofun
  exact hlane.perform hplain

theorem Registry.run (hrun : Trace (SubHub.step env) (Plain env) init as h) : Registry env h :=
  hrun.keeps (Registry env) registry_init fun _ _ _ hr hplain hstep => (hr.step hplain hstep).1

/-- As long as no step mints the epoch again. -/
theorem Registry.succeeds_run (hr : Registry env h)
    (hrun : Trace (SubHub.step env) (fun t a => Plain env t a ∧ ¬ Mints a e) h as h')
    (hget : h.groups.get k = some (k, o)) :
    Registry env h' ∧ ∃ o', h'.groups.get k = some (k, o') ∧
      ((h'.objects o').epoch = e ∨ k.1 = "tail" →
        (h.objects o).deltaSeq ≤ (h'.objects o').deltaSeq) := by
  apply hrun.keeps (fun h' => Registry env h' ∧ ∃ o', h'.groups.get k = some (k, o') ∧
    ((h'.objects o').epoch = e ∨ k.1 = "tail" →
      (h.objects o).deltaSeq ≤ (h'.objects o').deltaSeq))
  · exact ⟨hr, o, hget, fun _ => Nat.le_refl _⟩
  · intro t a u ht hok hstep
    obtain ⟨hr', o₁, hget₁, hle₁⟩ := ht
    obtain ⟨hu, hsucc⟩ := hr'.step hok.1 hstep
    obtain ⟨o₂, hget₂, hheir⟩ := hsucc k o₁ hget₁
    refine ⟨hu, o₂, hget₂, fun hcase => ?_⟩
    by_cases ht : k.1 = "tail"
    · exact (hle₁ (.inr ht)).trans (hheir.tail ht)
    · have he := hcase.resolve_right ht
      obtain ⟨hepoch, hle⟩ := hheir.other ht (he ▸ hok.2)
      exact (hle₁ (.inl (hepoch.symm.trans he))).trans hle

theorem hasActiveSubscribersFor_iff (hr : Registry env h) :
    h.hasActiveSubscribersFor topic = true ↔
      ∃ s ∈ h.serves.rows, (h.objects s.group).ringTopic = some topic := by
  rw [hasActiveSubscribersFor, List.any_eq_true]
  constructor
  · rintro ⟨r, hmem, hr⟩
    rw [Bool.and_eq_true, decide_eq_true_iff, Bool.not_eq_true', List.isEmpty_eq_false_iff] at hr
    obtain ⟨htopic, hne⟩ := hr
    obtain ⟨id, hid⟩ := List.exists_mem_of_ne_nil _ hne
    obtain ⟨s, hs, rfl⟩ := List.mem_map.1 hid
    obtain ⟨hs, hgroup⟩ := List.mem_filter.1 hs
    exact ⟨s, hs, by rw [of_decide_eq_true hgroup, htopic]⟩
  · rintro ⟨s, hs, htopic⟩
    obtain ⟨r, hmem, hgroup⟩ := hr.serves s hs
    refine ⟨r, hmem, ?_⟩
    rw [Bool.and_eq_true, decide_eq_true_iff, Bool.not_eq_true', List.isEmpty_eq_false_iff,
      ← hgroup]
    exact ⟨htopic, List.ne_nil_of_mem ((mem_servesOf hs).2 rfl)⟩

/-- In every run whose SUBs displace no group in use: each serve's object is the one registered
under its key, where the loops over its topic or its view find it; a topic has an active subscriber
if and only if there is a serve for it; and until a step mints the epoch of a registered object
again, no delta under its key has a number that the epoch has used. -/
theorem registry_consistent (hrun : Trace (step env) (Plain env) init as h) :
    (∀ s ∈ h.serves.rows, Registered env h s.group ∧ s.id ∈ h.servesOf s.group) ∧
      (∀ topic, h.hasActiveSubscribersFor topic = true ↔
        ∃ s ∈ h.serves.rows, (h.objects s.group).ringTopic = some topic) ∧
      ∀ k o, h.groups.get k = some (k, o) → ∀ bs h',
        Trace (step env) (fun t b => Plain env t b ∧ ¬ Mints b (h.objects o).epoch) h bs h' →
        ∃ o', h'.groups.get k = some (k, o') ∧
          ((h'.objects o').epoch = (h.objects o).epoch →
            (h.objects o).deltaSeq ≤ (h'.objects o').deltaSeq) := by
  have hr := Registry.run hrun
  refine ⟨fun s hs => ⟨hr.registered hs, (mem_servesOf hs).2 rfl⟩,
    fun topic => hasActiveSubscribersFor_iff hr, fun k o hget bs h' hrun' => ?_⟩
  obtain ⟨-, o', hget', hle⟩ := hr.succeeds_run hrun' hget
  exact ⟨o', hget', fun he => hle (.inl he)⟩

/-- Params whose canonical text is that of `{topic}` displace nothing. -/
theorem plain_of_own_params (htopic : topicFor env m = some topic)
    (hkey : requestKey env m = (m.view, topicParams env topic)) (h : SubHub) (turn : SubTurn)
    (session : SubSession) : Plain env h (turn, .sub session m) := by
  intro session' m' o heq hd
  obtain ⟨-, rfl⟩ := Action.sub.inj heq
  obtain ⟨hnone, topic', htopic', -, key, hget⟩ := hd
  obtain rfl := Option.some.inj (htopic.symm.trans htopic')
  rw [hkey, hget] at hnone
  cases hnone

theorem plain_of_ne_sub (hsub : ∀ session m, a.2 ≠ .sub session m) (h : SubHub) : Plain env h a :=
  fun session m _ heq => absurd heq (hsub session m)

theorem trace_tailRun : Trace (step hostSubs) (Plain hostSubs) init
    (tailRun.map fun a => (openTurn, a)) (hostRun tailRun) := by
  apply trace_hostRun
  intro h a ha
  rcases List.mem_pair.1 ha with rfl | rfl
  · apply plain_of_own_params (show topicFor _ _ = some "t" by decide +kernel)
    decide +kernel
  · exact plain_of_ne_sub (fun _ _ heq => Action.noConfusion heq) h

theorem registry_consistent_of_tail :
    (∀ s ∈ (hostRun tailRun).serves.rows, Registered hostSubs (hostRun tailRun) s.group ∧
        s.id ∈ (hostRun tailRun).servesOf s.group) ∧
      (∀ topic, (hostRun tailRun).hasActiveSubscribersFor topic = true ↔
        ∃ s ∈ (hostRun tailRun).serves.rows,
          ((hostRun tailRun).objects s.group).ringTopic = some topic) ∧
      ∃ o', (hostRun tailRun).groups.get (ringKey hostSubs "t") = some (ringKey hostSubs "t", o') ∧
        (((hostRun tailRun).objects o').epoch = ((hostRun tailRun).objects 0).epoch →
          ((hostRun tailRun).objects 0).deltaSeq ≤ ((hostRun tailRun).objects o').deltaSeq) := by
  obtain ⟨hserves, hactive, hepochs⟩ := registry_consistent trace_tailRun
  exact ⟨hserves, hactive, hepochs _ 0 (by decide +kernel) [] _ .done⟩

/-- The second subscriber's params name the topic and something else. -/
def splitRun : List Action :=
  [.sub 0 (subTail 1 [topicParam]), .tailApplied (hostEntry "w" 1 1 "k" ""),
    .sub 1 (subTail 1 [topicParam, (js "x", .null)]), .unsub 1 1]

/-- The first subscriber's serve lives on in an object that no loop reaches: the topic has no active
subscriber, and the deltas of its epoch start again. -/
theorem params_split_group : ∃ as h, Trace (step hostSubs) (fun _ _ => True) init as h ∧
    ∃ s ∈ h.serves.rows, (h.objects s.group).ringTopic = some "t" ∧
      h.hasActiveSubscribersFor "t" = false ∧
      ∃ k o, h.groups.get (h.objects s.group).key = some (k, o) ∧ o ≠ s.group ∧
        (h.objects o).epoch = (h.objects s.group).epoch ∧
        (h.objects o).deltaSeq < (h.objects s.group).deltaSeq := by
  refine ⟨_, hostRun splitRun, trace_hostRun fun _ _ _ => trivial, ?_⟩
  have hserve : ((hostRun splitRun).serves.get (0, 1)).map Serve.group = some 0 := by
    decide +kernel
  obtain ⟨s, hget, hgroup⟩ := Option.map_eq_some_iff.1 hserve
  refine ⟨s, (Table.get_eq_some_iff.1 hget).1, ?_⟩
  rw [hgroup]
  exact ⟨by decide +kernel, by decide +kernel, ringKey hostSubs "t", 1, by decide +kernel,
    by decide, by decide +kernel, by decide +kernel⟩

end SubHub
end Seqscribe
