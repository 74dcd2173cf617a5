import Seqscribe.LifecycleRefinement

namespace Seqscribe
set_option autoImplicit true

variable {env : Env} {E : SeqscribeError → Prop} {t : Txn} {v : View} {L : Local} {k : StreamId}

/-- The cached number of log rows of a topic, if there is one, is right. -/
def Core.CountExact (core : Core) (T : Topic) : Prop :=
  ∀ n, core.logCounts T = some n → n = core.db.sqLog.count fun r => r.entry.topic = T

instance (core : Core) (T : Topic) : Decidable (core.CountExact T) :=
  decidable_of_iff ((core.logCounts T).all fun n =>
    decide (n = core.db.sqLog.count fun r => r.entry.topic = T)) <| by
      cases hn : core.logCounts T <;> simp [Core.CountExact, hn]

/-- No row of a topic is held. -/
def View.Vacant (v : View) (T : Topic) : Prop := ∀ w s, (v.streams (T, w)).rows s = none

/-- The streams of a topic lose their heads. -/
def View.retireTopic (env : Env) (T : Topic) (v : View) : View :=
  { v with
    streams := fun k =>
      if k.1 = T then { v.streams k with head := freshHead env k.1 k.2, listed := false }
      else v.streams k }

theorem vacant_of_count {core : Core} (h : (core.db.sqLog.count fun r => r.entry.topic = T) = 0)
    (w : WriterId) (s : Nat) : (core.stream env (T, w)).rows s = none := by
  refine Option.map_eq_none_iff.2 (Table.get_eq_none_iff.2 fun r hr hid => ?_)
  have hnil := List.eq_nil_of_length_eq_zero h
  rw [List.filter_eq_nil_iff] at hnil
  exact hnil r hr (decide_eq_true (congrArg (fun id : EntryId => id.1) hid))

theorem logCount_spec (ht : Ready env t)
    (hQ : ∀ n t', Ready env t' → t'.view env = t.view env →
      (t.core.CountExact T → n = 0 → (t.view env).Vacant T) → Q n t') :
    Returns E (Store.logCount T) t Q := by
  refine .bind (.get ?_)
  cases hc : t.core.logCounts T with
  | some n =>
    refine .pure (hQ n t ht rfl fun hexact hn => ?_)
    exact vacant_of_count ((hexact n hc).symm.trans hn)
  | none =>
    refine .bind (query_spec fun fault _ => .bind (.modify rfl (.pure (hQ _ _ ⟨?_⟩ rfl fun _ hn => ?_))))
    · obtain ⟨h₁, h₂, h₃, h₄, h₅⟩ := ht.coherent
      exact ⟨h₁, h₂, h₃, h₄, h₅⟩
    · exact vacant_of_count hn

/-- The core without the heads of some writers of a topic. -/
def Core.forget (core : Core) (T : Topic) (writers : List WriterId) : Core :=
  { core with
    heads := fun k => if k.1 = T ∧ k.2 ∈ writers then none else core.heads k
    db.sqWriters := core.db.sqWriters.filter fun r => !decide (r.topic = T ∧ r.writer ∈ writers) }

theorem Core.forget_nil (core : Core) (T : Topic) : core.forget T [] = core := by
  have hw : (core.db.sqWriters.filter fun r =>
      !decide (r.topic = T ∧ r.writer ∈ ([] : List WriterId))) = core.db.sqWriters :=
    Table.ext (by simp)
  unfold forget
  rw [hw]
  simp

theorem Core.forget_snoc (core : Core) (T : Topic) (writers : List WriterId) (w : WriterId) :
    core.forget T (writers ++ [w]) = { core.forget T writers with
      heads := Function.update (core.forget T writers).heads (T, w) none
      db.sqWriters := (core.forget T writers).db.sqWriters.delete (T, w) } := by
  have hw : (core.db.sqWriters.filter fun r => !decide (r.topic = T ∧ r.writer ∈ writers ++ [w])) =
      (core.db.sqWriters.filter fun r => !decide (r.topic = T ∧ r.writer ∈ writers)).delete
        (T, w) := by
    apply Table.ext
    simp only [Table.delete, Table.rows_filter, List.filter_filter]
    apply List.filter_congr
    intro r _
    rw [Bool.eq_iff_iff]
    simp only [Bool.not_eq_true', decide_eq_false_iff_not, Bool.and_eq_true, decide_eq_true_eq,
      List.mem_append, List.mem_singleton, WriterRow.stream, ne_eq, Prod.mk.injEq]
    tauto
  have hh : (fun k : StreamId => if k.1 = T ∧ k.2 ∈ writers ++ [w] then none else core.heads k) =
      Function.update (fun k => if k.1 = T ∧ k.2 ∈ writers then none else core.heads k)
        (T, w) none := by
    funext k
    by_cases hk : k = (T, w)
    · subst hk
      simp
    · rw [Function.update_of_ne hk]
      refine if_congr ?_ rfl rfl
      have : ¬ (k.1 = T ∧ k.2 = w) := fun h => hk (Prod.ext h.1 h.2)
      simp only [List.mem_append, List.mem_singleton]
      tauto
  unfold forget
  rw [hw, hh]

theorem Core.get_forget (core : Core) (T : Topic) (writers : List WriterId) (k : StreamId) :
    (core.forget T writers).db.sqWriters.get k =
      if k.1 = T ∧ k.2 ∈ writers then none else core.db.sqWriters.get k := by
  refine (Table.get_filter ..).trans ?_
  cases hg : core.db.sqWriters.get k with
  | none => simp
  | some r =>
    have hk : r.stream = k := Table.key_of_get hg
    subst hk
    by_cases hr : r.topic = T ∧ r.writer ∈ writers
    · simp [Option.filter, WriterRow.stream, hr]
    · simp [Option.filter, WriterRow.stream, hr]

theorem Core.get_forget_all (core : Core)
    (hall : ∀ w, w ∈ writers ↔ (core.db.sqWriters.get (T, w)).isSome = true) (k : StreamId) :
    (core.forget T writers).db.sqWriters.get k =
      if k.1 = T then none else core.db.sqWriters.get k := by
  rw [core.get_forget]
  by_cases hk : k.1 = T
  · subst hk
    by_cases hw : k.2 ∈ writers
    · simp [hw]
    · simp [hw, Option.not_isSome_iff_eq_none.1 (mt (hall k.2).2 hw)]
  · simp [hk]

/-- A coherent core stays so when all heads of a topic are forgotten. -/
theorem Core.Coherent.forget {core : Core} (h : core.Coherent env)
    (hall : ∀ w, w ∈ writers ↔ (core.db.sqWriters.get (T, w)).isSome = true)
    (rings : Topic → Option (List LogEntry)) :
    Core.Coherent env { core.forget T writers with
      rings := rings
      vectorsCache := core.vectorsCache.map fun vec => vec.delete T } := by
  have hget := core.get_forget_all hall
  have hvec : ∀ (vec : HaveVectors) k, writerVec (vec.delete T) k =
      if k.1 = T then none else writerVec vec k := by
    intro vec k
    unfold writerVec
    rw [Table.get_delete]
    by_cases hk : T = k.1
    · simp [hk]
    · simp [hk, Ne.symm hk]
  obtain ⟨h₁, h₂, h₃, h₄, h₅⟩ := h
  refine ⟨?_, h₂, h₃, ?_, ?_⟩
  · intro k head hk
    change (if k.1 = T ∧ k.2 ∈ writers then none else core.heads k) = some head at hk
    change head = ((core.forget T writers).db.sqWriters.get k).getD _
    rw [hget]
    by_cases hT : k.1 = T
    · subst hT
      by_cases hw : k.2 ∈ writers
      · simp [hw] at hk
      · rw [if_neg fun hc => hw hc.2] at hk
        rw [if_pos rfl, h₁ k head hk, Core.head,
          Option.not_isSome_iff_eq_none.1 (mt (hall k.2).2 hw)]
    · rw [if_neg fun hc => hT hc.1] at hk
      rw [if_neg hT]
      exact h₁ k head hk
  · rintro vec hv k w hw
    obtain ⟨vec₀, hvec₀, rfl⟩ := Option.map_eq_some_iff.1 hv
    rw [hvec] at hw
    change ((core.forget T writers).db.sqWriters.get k).map WriterRow.vec = some w
    rw [hget]
    by_cases hT : k.1 = T
    · rw [if_pos hT] at hw
      cases hw
    · rw [if_neg hT] at hw ⊢
      exact h₄ vec₀ hvec₀ k w hw
  · rintro vec hv k head hk
    obtain ⟨vec₀, hvec₀, rfl⟩ := Option.map_eq_some_iff.1 hv
    change (core.forget T writers).db.sqWriters.get k = some head at hk
    rw [hget] at hk
    rw [hvec]
    by_cases hT : k.1 = T
    · rw [if_pos hT] at hk
      cases hk
    · rw [if_neg hT] at hk ⊢
      exact h₅ vec₀ hvec₀ k head hk

theorem Core.stream_forget (core : Core)
    (hall : ∀ w, w ∈ writers ↔ (core.db.sqWriters.get (T, w)).isSome = true) (k : StreamId) :
    (core.forget T writers).stream env k =
      if k.1 = T then { core.stream env k with head := freshHead env k.1 k.2, listed := false }
      else core.stream env k := by
  unfold stream head
  rw [core.get_forget_all hall]
  split <;> rfl

/-- The journal only changes what an abort puts back. -/
theorem journalRing_undo (hQ : ∀ undo, Q () { t with ringUndo := undo }) :
    Returns E (journalRing T) t Q := by
  refine .modify ?_ ?_
  · split <;> rfl
  · split
    · exact hQ t.ringUndo
    · exact hQ _

theorem processRetireTopic_spec (ht : Ready env t) (hknown : (env.topics T).isSome)
    (hrejected : ∀ e t', Ready env t' → t'.view env = (t.view env).done (.rejected e) → Q () t')
    (hretired : ∀ n t', Ready env t' →
      t'.view env = ((t.view env).retireTopic env T).done (.retired n) →
      (t.core.CountExact T → (t.view env).Vacant T) → Q () t') :
    Returns E (processRetireTopic env T) t Q := by
  obtain ⟨p, hp⟩ := Option.isSome_iff_exists.1 hknown
  refine .bind (topicPolicy_spec hp ?_)
  refine .ite (fun _ => ht.done_spec (hrejected _)) fun _ => ?_
  refine .ite (fun _ => ht.done_spec (hrejected _)) fun _ => ?_
  refine .bind (logCount_spec ht fun n t₁ ht₁ hv₁ hvacant => ?_)
  rw [← hv₁] at hrejected hretired
  refine .ite (fun _ => ht₁.done_spec (hrejected _)) fun hzero => ?_
  refine .bind (.get ?_)
  refine .ite (fun _ => ht₁.done_spec (hrejected _)) fun _ => .bind (.get ?_)
  refine .ite (fun _ => ht₁.done_spec (hrejected _)) fun _ => ?_
  refine .bind (listWriters_spec ht₁ fun rows t₂ hlists ht₂ hv₂ => ?_)
  rw [← hv₂] at hretired hlists
  -- the loop has forgotten the writers it passed
  refine .bind (.mono (.forM (fun rest t' => ∃ passed fault, passed ++ rest = rows ∧
    t' = { t₂ with core := t₂.core.forget T (passed.map WriterRow.writer), fault := fault })
    ⟨[], t₂.fault, rfl, ?_⟩ ?_) ?_)
  · rw [List.map_nil, Core.forget_nil]
  · rintro row rest _ ⟨passed, fault, hpassed, rfl⟩
    refine .bind (execute_spec fun fault => .modify rfl ⟨passed ++ [row], fault, by simpa using hpassed, ?_⟩)
    rw [List.map_append, List.map_singleton, Core.forget_snoc]
  · rintro _ _ ⟨passed, fault, hpassed, rfl⟩
    rw [List.append_nil] at hpassed
    subst hpassed
    have hall : ∀ w, w ∈ passed.map WriterRow.writer ↔
        (t₂.core.db.sqWriters.get (T, w)).isSome = true := hlists.mem
    refine .bind (journalRing_undo fun undo => .bind (.modify rfl (.bind (.modify rfl ?_))))
    refine Ready.done_spec ⟨ht₂.coherent.forget hall _⟩ fun t₃ ht₃ hv₃ => ?_
    refine hretired _ t₃ ht₃ (hv₃.trans (congrArg (View.done _) ?_))
      fun hexact => hv₂ ▸ hv₁ ▸ hvacant hexact (Nat.eq_zero_of_not_pos hzero)
    unfold Txn.view View.retireTopic
    congr 1
    funext k
    exact t₂.core.stream_forget hall k

end Seqscribe
