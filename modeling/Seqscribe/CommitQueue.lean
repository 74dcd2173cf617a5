import Seqscribe.Run
import Seqscribe.Settlement

namespace Seqscribe
set_option autoImplicit true

/-! The commit queue of a log core: calls, scheduled flushes, and the close. -/

structure GroupCommit where
  GROUP_COMMIT_MS : Nat := 20
  GROUP_COMMIT_N : Nat := 64

def nodeClosed : SeqscribeError := misuse "node is closed"

/-- What happens to the core between the flushes of one process. -/
def Input.between : Input env → Bool
  | .flush .. | .restart => false
  | _ => true

/-- Promises are numbered in the order of the calls. -/
structure CommitQueue (env : Env) where
  core : Core
  queue : List (Nat × QueueItem env)
  flushTimer : Option Nat
  closed : Bool
  /-- The calls of `close` that have flushed and are still to resume. -/
  closing : Nat
  /-- The scheduled flushes, each with its handle and its delay. -/
  timers : List (Nat × Nat)
  handles : Nat
  issued : Nat
  /-- The calls of `resolve` and `reject`, each with the number of its promise. -/
  settled : List (Nat × Settled)

/-- A new log core over the store that an earlier one has left. -/
def CommitQueue.start (env : Env) (core : Core) : CommitQueue env where
  core := core.restart
  queue := []
  flushTimer := none
  closed := false
  closing := 0
  timers := []
  handles := 0
  issued := 0
  settled := []

variable (env : Env)

/-- What the items of a batch settle, each with the number of its promise. -/
def settledBy : List (Nat × Queued env) → Txn → List (Nat × Settled)
  | [], _ => []
  | (n, q) :: rest, t =>
    match processQueued env q t with
    | .ok _ t' => (t'.settle.drop t.settle.length).map (Prod.mk n) ++ settledBy rest t'
    | .error _ _ => []

/-- The settlements of a flush: those of its items after the commit, or one rejection for each
item of an aborted batch. -/
def settlements (batch : List (Nat × Queued env)) (fault : Option Nat) (core : Core) :
    List (Nat × Settled) :=
  match transaction (flushBody env (batch.map Prod.snd)) (Txn.start core fault) with
  | .ok _ _ => settledBy env batch (Txn.start core fault)
  | .error e _ => batch.map fun item => (item.1, .rejected e)

variable {env} (constants : GroupCommit)

namespace CommitQueue

def clearTimeout (s : CommitQueue env) : CommitQueue env :=
  match s.flushTimer with
  | none => s
  | some handle => { s with timers := s.timers.filter fun timer => timer.1 ≠ handle }

def setTimeout (s : CommitQueue env) (delay : Nat) : CommitQueue env :=
  { s with flushTimer := some s.handles, timers := s.timers ++ [(s.handles, delay)],
           handles := s.handles + 1 }

def rejectQueueClosed (s : CommitQueue env) : CommitQueue env :=
  { s with queue := [],
           settled := s.settled ++ s.queue.map fun item => (item.1, .rejected nodeClosed) }

def push (s : CommitQueue env) (item : QueueItem env) : CommitQueue env :=
  let s := { s with queue := s.queue ++ [(s.issued, item)], issued := s.issued + 1 }
  if constants.GROUP_COMMIT_N ≤ s.queue.length then s.clearTimeout.setTimeout 0
  else if s.flushTimer = none then s.setTimeout constants.GROUP_COMMIT_MS
  else s

/-- The batch of a flush, each item with its surroundings at the time it is processed. -/
def batch (s : CommitQueue env) (ambients : Nat → Ambient) : List (Nat × Queued env) :=
  s.queue.map fun item => (item.1, ambients item.1, item.2)

def flush (s : CommitQueue env) (ambients : Nat → Ambient) (fault : Option Nat) :
    CommitQueue env :=
  let s := { s with flushTimer := none }
  if s.closed then s.rejectQueueClosed
  else
    let batch := s.batch ambients
    { s with queue := [],
             core := (Seqscribe.flush env (batch.map Prod.snd) fault s.core).core,
             settled := s.settled ++ settlements env batch fault s.core }

def flushNow (s : CommitQueue env) (ambients : Nat → Ambient) (fault : Option Nat) :
    CommitQueue env :=
  ({ s.clearTimeout with flushTimer := none }).flush ambients fault

/-- A public method: what its checks make of its arguments is pushed, or its promise rejected. -/
def call (s : CommitQueue env) (checked : Except SeqscribeError (QueueItem env)) :
    CommitQueue env :=
  match if s.closed then .error nodeClosed else checked with
  | .ok item => s.push constants item
  | .error e => { s with issued := s.issued + 1, settled := s.settled ++ [(s.issued, .rejected e)] }

/-- The first part of `close`, up to its `await`. -/
def close (s : CommitQueue env) (ambients : Nat → Ambient) (fault : Option Nat) :
    CommitQueue env :=
  { s.flushNow ambients fault with closing := s.closing + 1 }

/-- The rest of `close`. -/
def closeResumed (s : CommitQueue env) : CommitQueue env :=
  if s.closing = 0 then s
  else
    let s := { s with closing := s.closing - 1, closed := true }
    ({ s.clearTimeout with flushTimer := none }).rejectQueueClosed

/-- A scheduled flush that is due. -/
def fire (s : CommitQueue env) (handle : Nat) (ambients : Nat → Ambient) (fault : Option Nat) :
    CommitQueue env :=
  if handle ∈ s.timers.map Prod.fst then
    ({ s with timers := s.timers.filter fun timer => timer.1 ≠ handle }).flush ambients fault
  else s

end CommitQueue

/-- What can happen to a commit queue. A `push` skips the check that every public method makes. -/
inductive QueueEvent (env : Env) where
  | call (checked : Except SeqscribeError (QueueItem env))
  | push (item : QueueItem env)
  | fire (handle : Nat) (ambients : Nat → Ambient) (fault : Option Nat)
  | flushNow (ambients : Nat → Ambient) (fault : Option Nat)
  | close (ambients : Nat → Ambient) (fault : Option Nat)
  | closeResumed
  | core (i : Input env) (h : i.between = true)

def QueueEvent.isPush : QueueEvent env → Bool
  | .push _ => true
  | _ => false

def CommitQueue.step (s : CommitQueue env) : QueueEvent env → CommitQueue env
  | .call checked => s.call constants checked
  | .push item => s.push constants item
  | .fire handle ambients fault => s.fire handle ambients fault
  | .flushNow ambients fault => s.flushNow ambients fault
  | .close ambients fault => s.close ambients fault
  | .closeResumed => s.closeResumed
  | .core i _ => { s with core := (Seqscribe.step env s.core i).core }

def CommitQueue.run (s : CommitQueue env) (events : List (QueueEvent env)) : CommitQueue env :=
  events.foldl (CommitQueue.step constants) s

/-! What a flush settles. -/

/-- An item of a batch settles one promise, its own. -/
theorem settledBy_spec {t : Txn} (batch : List (Nat × Queued env)) (ht : Ready env t) :
    Returns (Aborts False True) (forM (batch.map Prod.snd) (processQueued env)) t fun _ t' =>
      Ready env t' ∧ (settledBy env batch t).map Prod.fst = batch.map Prod.fst ∧
        (t'.view env).settle = t.settle ++ (settledBy env batch t).map Prod.snd := by
  induction batch generalizing t with
  | nil => exact .pure ⟨ht, rfl, (List.append_nil _).symm⟩
  | cons item rest ih =>
    obtain ⟨n, q⟩ := item
    rw [List.map_cons, List.forM_cons]
    have hone := processQueued_spec False True q ht False.elim fun _ => trivial
    refine .bind (hone.with_eq.mono ?_)
    rintro _ t₁ ⟨hrun, ht₁, hstep⟩
    obtain ⟨r, hr, -⟩ := hstep.settles
    have hsettle : t₁.settle = t.settle ++ [r] := hr
    have hcons : settledBy env ((n, q) :: rest) t = (n, r) :: settledBy env rest t₁ := by
      rw [settledBy, hrun]
      dsimp only
      rw [hsettle, List.drop_left]
      rfl
    apply (ih ht₁).mono
    rintro _ t' ⟨ht', hpromises, hsettled⟩
    rw [hcons, List.map_cons, List.map_cons, List.map_cons, hpromises, hsettled, hsettle,
      List.append_assoc]
    exact ⟨ht', rfl, rfl⟩

theorem settledBy_commit {core : Core} (hcoh : core.Coherent env)
    {batch : List (Nat × Queued env)} (hcommit : transaction (flushBody env (batch.map Prod.snd))
      (Txn.start core fault) = .ok u t) :
    (settledBy env batch (Txn.start core fault)).map Prod.fst = batch.map Prod.fst ∧
      (settledBy env batch (Txn.start core fault)).map Prod.snd = t.settle := by
  have hbody := flushBody_ends
    (R := fun v => (settledBy env batch (Txn.start core fault)).map Prod.fst =
      batch.map Prod.fst ∧
      v.settle = (settledBy env batch (Txn.start core fault)).map Prod.snd)
    (settledBy_spec batch ⟨hcoh⟩)
  rw [transaction] at hcommit
  cases hrun : flushBody env (batch.map Prod.snd) (Txn.start core fault) with
  | error e t' =>
    rw [hrun] at hcommit
    exact nomatch hcommit
  | ok u' t' =>
    rw [hrun] at hcommit
    cases hcommit
    obtain ⟨-, hpromises, hsettled⟩ := hbody.of_ok hrun
    exact ⟨hpromises, hsettled.symm⟩

/-- Committed or aborted, a flush settles each promise of its batch once. -/
theorem settlements_promises {core : Core} (hcoh : core.Coherent env)
    (batch : List (Nat × Queued env)) (fault : Option Nat) :
    (settlements env batch fault core).map Prod.fst = batch.map Prod.fst := by
  rw [settlements]
  split
  next hcommit => exact (settledBy_commit hcoh hcommit).1
  next => exact List.map_map

namespace CommitQueue

/-- What a step does with the promises: it settles none; or it rejects some, and the store is as
it was; or the queue is committed, and each of its items settles with its own result. -/
inductive Effect (s s' : CommitQueue env) : Prop where
  | silent (h : s'.settled = s.settled)
  | rejected (promises : List Nat) (e : SeqscribeError) (hdb : s'.core.db = s.core.db)
      (h : s'.settled = s.settled ++ promises.map fun n => (n, .rejected e))
  | committed (ambients : Nat → Ambient) (fault : Option Nat) (t : Txn)
      (hcommit : transaction (flushBody env ((s.batch ambients).map Prod.snd))
        (Txn.start s.core fault) = .ok () t)
      (hcore : s'.core = t.core)
      (h : s'.settled = s.settled ++ settledBy env (s.batch ambients) (Txn.start s.core fault))
      (hpromises : (settledBy env (s.batch ambients) (Txn.start s.core fault)).map Prod.fst =
        s.queue.map Prod.fst)
      (hresults : (settledBy env (s.batch ambients) (Txn.start s.core fault)).map Prod.snd =
        t.settle)

theorem batch_promises (s : CommitQueue env) (ambients : Nat → Ambient) :
    (s.batch ambients).map Prod.fst = s.queue.map Prod.fst := List.map_map

theorem flush_closed {s : CommitQueue env} (hclosed : s.closed = true) :
    s.flush ambients fault = ({ s with flushTimer := none }).rejectQueueClosed :=
  if_pos hclosed

theorem flush_open {s : CommitQueue env} (hopen : s.closed = false) :
    s.flush ambients fault =
      { s with flushTimer := none, queue := [],
               core := (Seqscribe.flush env ((s.batch ambients).map Prod.snd) fault s.core).core,
               settled := s.settled ++ settlements env (s.batch ambients) fault s.core } :=
  if_neg (Bool.eq_false_iff.1 hopen)

theorem transaction_db {body : LogM α} (h : transaction body t = .error e t') :
    t'.core.db = t.core.db := by
  rw [transaction] at h
  split at h
  next => exact nomatch h
  next =>
    cases h
    rfl

theorem Effect.rejectQueueClosed {s s' : CommitQueue env} (hqueue : s'.queue = s.queue)
    (hdb : s'.core.db = s.core.db) (hsettled : s'.settled = s.settled) :
    Effect s s'.rejectQueueClosed := by
  refine .rejected (s.queue.map Prod.fst) nodeClosed hdb ?_
  rw [CommitQueue.rejectQueueClosed, hqueue, hsettled, List.map_map]
  rfl

theorem Effect.flush {s : CommitQueue env} (hcoh : s.core.Coherent env)
    (ambients : Nat → Ambient) (fault : Option Nat) : Effect s (s.flush ambients fault) := by
  cases hclosed : s.closed with
  | true =>
    rw [flush_closed hclosed]
    exact .rejectQueueClosed rfl rfl rfl
  | false =>
    rw [flush_open hclosed]
    by_cases hq : s.queue = []
    · have hnone : settlements env (s.batch ambients) fault s.core = [] := by
        apply List.map_eq_nil_iff.1
        rw [settlements_promises hcoh, batch_promises, hq]
        rfl
      exact .silent ((congrArg (s.settled ++ ·) hnone).trans (List.append_nil _))
    · have hne : ((s.batch ambients).map Prod.snd).isEmpty = false := by
        rw [List.isEmpty_eq_false_iff, CommitQueue.batch, List.map_map]
        exact fun h => hq (List.map_eq_nil_iff.1 h)
      cases hrun : transaction (flushBody env ((s.batch ambients).map Prod.snd))
          (Txn.start s.core fault) with
      | ok u t =>
        obtain ⟨hpromises, hresults⟩ := settledBy_commit hcoh hrun
        apply Effect.committed ambients fault t hrun
        · dsimp only
          rw [Seqscribe.flush, hne, if_neg Bool.false_ne_true, hrun]
        · dsimp only
          rw [settlements, hrun]
        · exact hpromises.trans (batch_promises s ambients)
        · exact hresults
      | error e t =>
        apply Effect.rejected (s.queue.map Prod.fst) e
        · dsimp only
          rw [Seqscribe.flush, hne, if_neg Bool.false_ne_true, hrun]
          exact transaction_db hrun
        · dsimp only
          rw [settlements, hrun, ← batch_promises s ambients, List.map_map]
          rfl

/-! What every step keeps. -/

/-- The promises handed out: settled, or still in the queue. -/
def promises (s : CommitQueue env) : List Nat := s.settled.map Prod.fst ++ s.queue.map Prod.fst

structure Kept (s : CommitQueue env) : Prop where
  coherent : s.core.Coherent env
  once : s.promises.Perm (List.range s.issued)
  /-- At most one flush is scheduled, the one whose handle is kept. -/
  scheduled : s.timers.map Prod.fst = s.flushTimer.toList
  waiting : s.queue ≠ [] → s.flushTimer ≠ none

theorem Kept.start (core : Core) : Kept (CommitQueue.start env core) :=
  ⟨Core.coherent_restart core, .refl _, rfl, fun h => absurd rfl h⟩

theorem Kept.timers_clear {s : CommitQueue env} (h : s.Kept) : s.clearTimeout.timers = [] := by
  have hscheduled := h.scheduled
  rw [clearTimeout]
  cases htimer : s.flushTimer with
  | none =>
    rw [htimer] at hscheduled
    exact List.map_eq_nil_iff.1 hscheduled
  | some handle =>
    rw [htimer] at hscheduled
    apply List.filter_eq_nil_iff.2
    intro timer hin
    have hone := List.mem_map_of_mem (f := Prod.fst) hin
    rw [hscheduled] at hone
    simpa using hone

/-- Clearing the timer touches nothing but the host's list. -/
theorem clearTimeout_eq (s : CommitQueue env) :
    s.clearTimeout = { s with timers := s.clearTimeout.timers } := by
  rw [clearTimeout]
  split <;> rfl

theorem Kept.setTimeout {s : CommitQueue env} (hcoh : s.core.Coherent env)
    (honce : s.promises.Perm (List.range s.issued)) (hnone : s.timers = []) (delay : Nat) :
    (s.setTimeout delay).Kept where
  coherent := hcoh
  once := honce
  scheduled := by
    rw [CommitQueue.setTimeout, hnone]
    rfl
  waiting := fun _ => Option.some_ne_none _

theorem Kept.push {s : CommitQueue env} (h : s.Kept) (item : QueueItem env) :
    (s.push constants item).Kept := by
  have honce : (s.settled.map Prod.fst ++ (s.queue ++ [(s.issued, item)]).map Prod.fst).Perm
      (List.range (s.issued + 1)) := by
    rw [List.map_append, ← List.append_assoc, List.range_succ]
    exact h.once.append_right _
  rw [CommitQueue.push]
  dsimp only
  split
  · have hclear : ({ s with queue := s.queue ++ [(s.issued, item)],
                            issued := s.issued + 1 } : CommitQueue env).clearTimeout.timers =
        s.clearTimeout.timers := by
      rw [clearTimeout, clearTimeout]
      cases s.flushTimer <;> rfl
    rw [clearTimeout_eq, hclear, h.timers_clear]
    apply Kept.setTimeout
    · exact h.coherent
    · exact honce
    · rfl
  split
  next hnone =>
    have hscheduled := h.scheduled
    rw [hnone] at hscheduled
    apply Kept.setTimeout
    · exact h.coherent
    · exact honce
    · exact List.map_eq_nil_iff.1 hscheduled
  next hsome => exact ⟨h.coherent, honce, h.scheduled, fun _ => hsome⟩

theorem Kept.rejectQueueClosed {s : CommitQueue env} (hcoh : s.core.Coherent env)
    (honce : s.promises.Perm (List.range s.issued)) (hnone : s.timers = [])
    (htimer : s.flushTimer = none) : s.rejectQueueClosed.Kept where
  coherent := hcoh
  once := by
    rw [promises, CommitQueue.rejectQueueClosed, List.map_append, List.map_map, List.map_nil,
      List.append_nil]
    exact honce
  scheduled := by
    rw [CommitQueue.rejectQueueClosed, hnone, htimer]
    rfl
  waiting := fun h => absurd rfl h

theorem Kept.flush {s : CommitQueue env} (hcoh : s.core.Coherent env)
    (honce : s.promises.Perm (List.range s.issued)) (hnone : s.timers = [])
    (ambients : Nat → Ambient) (fault : Option Nat) : (s.flush ambients fault).Kept := by
  cases hclosed : s.closed with
  | true =>
    rw [flush_closed hclosed]
    exact .rejectQueueClosed hcoh honce hnone rfl
  | false =>
    rw [flush_open hclosed]
    have hflush := flush_spec False (fun _ _ => True) ((s.batch ambients).map Prod.snd) fault hcoh
      False.elim (.of_forall fun _ _ _ => trivial)
    refine ⟨hflush.1, ?_, ?_, fun h => absurd rfl h⟩
    · rw [promises, List.map_append, settlements_promises hcoh, batch_promises, List.map_nil,
        List.append_nil]
      exact honce
    · rw [hnone]
      rfl

theorem Kept.flushNow {s : CommitQueue env} (h : s.Kept) (ambients : Nat → Ambient)
    (fault : Option Nat) : (s.flushNow ambients fault).Kept := by
  rw [CommitQueue.flushNow, clearTimeout_eq, h.timers_clear]
  apply Kept.flush
  · exact h.coherent
  · exact h.once
  · rfl

theorem Kept.call {s : CommitQueue env} (h : s.Kept)
    (checked : Except SeqscribeError (QueueItem env)) : (s.call constants checked).Kept := by
  rw [CommitQueue.call]
  split
  next item _ => exact h.push constants item
  next e _ =>
    refine ⟨h.coherent, ?_, h.scheduled, h.waiting⟩
    rw [promises, List.map_append, List.append_assoc, List.range_succ]
    exact (List.perm_append_comm.append_left _).trans
      (List.append_assoc .. ▸ h.once.append_right [s.issued])

theorem Kept.fire {s : CommitQueue env} (h : s.Kept) (handle : Nat) (ambients : Nat → Ambient)
    (fault : Option Nat) : (s.fire handle ambients fault).Kept := by
  rw [CommitQueue.fire]
  split
  next hin =>
    have hnone : (s.timers.filter fun timer => timer.1 ≠ handle) = [] := by
      apply List.filter_eq_nil_iff.2
      intro timer htimer
      have hone := List.mem_map_of_mem (f := Prod.fst) htimer
      rw [h.scheduled, Option.mem_toList] at hin hone
      simp [Option.some.inj (hone.symm.trans hin)]
    rw [hnone]
    apply Kept.flush
    · exact h.coherent
    · exact h.once
    · rfl
  next => exact h

theorem Kept.closeResumed {s : CommitQueue env} (h : s.Kept) : s.closeResumed.Kept := by
  rw [CommitQueue.closeResumed]
  split
  next => exact h
  next =>
    have hclear : ({ s with closing := s.closing - 1, closed := true } :
        CommitQueue env).clearTimeout.timers = s.clearTimeout.timers := by
      rw [clearTimeout, clearTimeout]
      cases s.flushTimer <;> rfl
    dsimp only
    rw [clearTimeout_eq, hclear, h.timers_clear]
    exact .rejectQueueClosed h.coherent h.once rfl rfl

theorem Kept.step {s : CommitQueue env} (h : s.Kept) (e : QueueEvent env) :
    (s.step constants e).Kept := by
  cases e with
  | call checked => exact h.call constants checked
  | push item => exact h.push constants item
  | fire handle ambients fault => exact h.fire handle ambients fault
  | flushNow ambients fault => exact h.flushNow ambients fault
  | close ambients fault =>
    have hflush := h.flushNow ambients fault
    exact ⟨hflush.coherent, hflush.once, hflush.scheduled, hflush.waiting⟩
  | closeResumed => exact h.closeResumed
  | core i hi => exact ⟨step_coherent i h.coherent, h.once, h.scheduled, h.waiting⟩

theorem Kept.run {s : CommitQueue env} (h : s.Kept) (events : List (QueueEvent env)) :
    (s.run constants events).Kept := by
  induction events generalizing s with
  | nil => exact h
  | cons e events ih => exact ih (h.step constants e)

theorem Effect.flushNow {s : CommitQueue env} (hcoh : s.core.Coherent env)
    (ambients : Nat → Ambient) (fault : Option Nat) : Effect s (s.flushNow ambients fault) := by
  rw [CommitQueue.flushNow, clearTimeout_eq]
  cases Effect.flush (s := { s with timers := s.clearTimeout.timers, flushTimer := none }) hcoh
      ambients fault with
  | silent h => exact .silent h
  | rejected promises e hdb h => exact .rejected promises e hdb h
  | committed ambients fault t hcommit hcore h hpromises hresults =>
    exact .committed ambients fault t hcommit hcore h hpromises hresults

theorem Effect.push {s : CommitQueue env} (item : QueueItem env) :
    Effect s (s.push constants item) := by
  refine .silent ?_
  rw [CommitQueue.push]
  dsimp only
  split
  · rw [clearTimeout_eq]
    rfl
  · split <;> rfl

theorem Effect.step {s : CommitQueue env} (hcoh : s.core.Coherent env) (e : QueueEvent env) :
    Effect s (s.step constants e) := by
  cases e with
  | call checked =>
    rw [CommitQueue.step, CommitQueue.call]
    split
    next item _ => exact .push constants item
    next e _ => exact .rejected [s.issued] e rfl rfl
  | push item => exact .push constants item
  | fire handle ambients fault =>
    rw [CommitQueue.step, CommitQueue.fire]
    split
    next =>
      cases Effect.flush (s := { s with timers := s.timers.filter fun timer => timer.1 ≠ handle })
          hcoh ambients fault with
      | silent h => exact .silent h
      | rejected promises e hdb h => exact .rejected promises e hdb h
      | committed ambients fault t hcommit hcore h hpromises hresults =>
        exact .committed ambients fault t hcommit hcore h hpromises hresults
    next => exact .silent rfl
  | flushNow ambients fault => exact .flushNow hcoh ambients fault
  | close ambients fault =>
    cases Effect.flushNow hcoh ambients fault with
    | silent h => exact .silent h
    | rejected promises e hdb h => exact .rejected promises e hdb h
    | committed ambients fault t hcommit hcore h hpromises hresults =>
      exact .committed ambients fault t hcommit hcore h hpromises hresults
  | closeResumed =>
    rw [CommitQueue.step, CommitQueue.closeResumed]
    split
    next => exact .silent rfl
    next =>
      dsimp only
      rw [clearTimeout_eq]
      exact .rejectQueueClosed rfl rfl rfl
  | core i hi => exact .silent rfl

/-! A closed core. -/

theorem flush_queue (s : CommitQueue env) (ambients : Nat → Ambient) (fault : Option Nat) :
    (s.flush ambients fault).queue = [] := by
  cases hclosed : s.closed with
  | true =>
    rw [flush_closed hclosed]
    rfl
  | false => rw [flush_open hclosed]

theorem flushNow_queue (s : CommitQueue env) (ambients : Nat → Ambient) (fault : Option Nat) :
    (s.flushNow ambients fault).queue = [] := flush_queue ..

/-- Public methods leave the queue of a closed core empty. -/
theorem closed_step {s : CommitQueue env} (h : s.closed = true → s.queue = [])
    (e : QueueEvent env) (hcall : e.isPush = false) :
    (s.step constants e).closed = true → (s.step constants e).queue = [] := by
  cases e with
  | push item => exact nomatch hcall
  | call checked =>
    rw [CommitQueue.step, CommitQueue.call]
    cases hclosed : s.closed with
    | true => exact fun _ => h hclosed
    | false =>
      rw [if_neg Bool.false_ne_true]
      cases checked with
      | error e => exact fun hc => absurd hc Bool.false_ne_true
      | ok item =>
        have hpush : (s.push constants item).closed = s.closed := by
          rw [CommitQueue.push]
          dsimp only
          split
          · rw [clearTimeout_eq]
            rfl
          · split <;> rfl
        exact fun hc => nomatch hclosed.symm.trans (hpush.symm.trans hc)
  | fire handle ambients fault =>
    rw [CommitQueue.step, CommitQueue.fire]
    split
    next => exact fun _ => flush_queue ..
    next => exact h
  | flushNow ambients fault => exact fun _ => flushNow_queue ..
  | close ambients fault => exact fun _ => flushNow_queue s ambients fault
  | closeResumed =>
    rw [CommitQueue.step, CommitQueue.closeResumed]
    split
    next => exact h
    next => exact fun _ => rfl
  | core i hi => exact h

theorem closed_run {s : CommitQueue env} (h : s.closed = true → s.queue = [])
    (events : List (QueueEvent env)) (hcalls : ∀ e ∈ events, e.isPush = false) :
    (s.run constants events).closed = true → (s.run constants events).queue = [] := by
  induction events generalizing s with
  | nil => exact h
  | cons e events ih =>
    exact ih (closed_step constants h e (hcalls e List.mem_cons_self)) fun e' he' =>
      hcalls e' (List.mem_cons_of_mem _ he')

/-- How often the promise has been resolved or rejected. -/
def settledTimes (s : CommitQueue env) (n : Nat) : Nat := (s.settled.map Prod.fst).count n

def queuedTimes (s : CommitQueue env) (n : Nat) : Nat := (s.queue.map Prod.fst).count n

theorem Kept.times {s : CommitQueue env} (h : s.Kept) (hn : n < s.issued) :
    s.settledTimes n + s.queuedTimes n = 1 := by
  rw [settledTimes, queuedTimes, ← List.count_append]
  exact (h.once.count_eq n).trans
    (List.count_eq_one_of_mem List.nodup_range (List.mem_range.2 hn))

theorem Kept.idle {s : CommitQueue env} (h : s.Kept) (hidle : s.queue = [] ∨ s.timers = []) :
    s.queue = [] := by
  rcases hidle with hqueue | htimers
  · exact hqueue
  · by_contra hne
    have hscheduled := h.scheduled
    rw [htimers] at hscheduled
    cases htimer : s.flushTimer with
    | none => exact h.waiting hne htimer
    | some handle =>
      rw [htimer] at hscheduled
      exact nomatch hscheduled

theorem Kept.settled_of_empty {s : CommitQueue env} (h : s.Kept) (hqueue : s.queue = [])
    (hn : n < s.issued) : s.settledTimes n = 1 := by
  have htimes := h.times hn
  rw [queuedTimes, hqueue] at htimes
  exact htimes

/-- Over every run from a new core: each promise is settled at most once, and not settled only
while its item is queued; none is left when the queue is idle or closed; and each step settles
promises only by committing the queue, each with its own item's result, or by rejecting them over
an unchanged store. -/
theorem settles_exactly_once (core : Core) (events : List (QueueEvent env)) :
    let s := (CommitQueue.start env core).run constants events
    (∀ n < s.issued, s.settledTimes n + s.queuedTimes n = 1) ∧
      (∀ n, s.issued ≤ n → s.settledTimes n = 0) ∧
      (s.queue = [] ∨ s.timers = [] → ∀ n < s.issued, s.settledTimes n = 1) ∧
      (s.closed = true → (∀ e ∈ events, e.isPush = false) →
        ∀ n < s.issued, s.settledTimes n = 1) ∧
      ∀ e, Effect s (s.step constants e) := by
  intro s
  have h : s.Kept := (Kept.start core).run constants events
  refine ⟨fun n hn => h.times hn, fun n hn => ?_, fun hidle n hn => ?_,
    fun hclosed hcalls n hn => ?_, fun e => .step constants h.coherent e⟩
  · apply List.count_eq_zero.2
    intro hmem
    have hrange := h.once.subset (List.mem_append_left _ hmem)
    exact absurd (List.mem_range.1 hrange) (Nat.not_lt_of_le hn)
  · exact h.settled_of_empty (h.idle hidle) hn
  · exact h.settled_of_empty (closed_run constants (fun _ => rfl) events hcalls hclosed) hn

end CommitQueue

end Seqscribe
