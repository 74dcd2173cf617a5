import Mathlib.Data.List.Induction
import Seqscribe.CausalStamping
import Seqscribe.RegisterHistory

namespace Seqscribe
set_option autoImplicit true

/-! The requests of a register topic: the end of a pass asks the host of the owner, and a request
that is approved becomes a set of the owner. -/

def DEDUPE_CAP : Nat := 8192

/-- A set in the order of insertion, whose oldest strings go. -/
def capSet (s : List JsString) : List JsString := s.drop (s.length - DEDUPE_CAP)

/-- `maybeAskOwner` of a request, to be called at the end of a pass. -/
structure AskEvent where
  key : Key
  req : RequestState
  /-- The state of the key that was folded, when a refold has replaced it since. -/
  former : Option KeyState

/-- What a topic's pass has to do after its fold. -/
structure AskState where
  events : List AskEvent
  /-- The request that the host's callbacks are asked about. -/
  asked : Option (Key × RequestState)
  /-- The append of a set is awaited. -/
  appending : Bool

def AskState.idle : AskState := ⟨[], none, false⟩

def askEvents (events : List FoldEvent) : List AskEvent :=
  events.filterMap fun
    | .askOwner key req => some ⟨key, req, none⟩
    | _ => none

namespace RegisterHub

variable (d : RegisterDeps) (topic : Topic)

/-- The head of the loop finds a late arrival. -/
def late (h : RegisterHub) : Bool :=
  match (h.newBatch topic).head?, (h.newRows topic).getLast? with
  | some first, some _ => h.ord.any fun ord => decide (orderCompare (orderOf first) ord ≤ 0)
  | _, _ => false

/-- A refold replaces the key states; events keep those that they were pushed with. -/
def keepStates (h : RegisterHub) (events : List AskEvent) : List AskEvent :=
  if h.late topic then
    events.map fun ev =>
      { ev with former := ev.former.orElse fun _ => some (h.keys.state ev.key) }
  else events

/-- The events after `resume`; they are gone with a pass that throws. -/
def resumeEvents (h : RegisterHub) (events : List AskEvent) : List AskEvent :=
  match h.pass with
  | .idle | .refold [] => events
  | .forward [] last => keepStates topic { h with lastRowid := last } events
  | .forward (e :: todo) last =>
    match foldRegister d (h.db.lookup topic) h.keys e with
    | .error _ => []
    | .ok (keys, folded) =>
      if todo.isEmpty then
        keepStates topic { h with keys := keys, ord := some (orderOf e), lastRowid := last }
          (events ++ askEvents folded)
      else events ++ askEvents folded
  | .refold (e :: _) =>
    match foldRegister d (h.db.lookup topic) h.keys e with
    | .error _ => []
    | .ok (_, folded) => events ++ askEvents folded

end RegisterHub

/-- A node with register topics that its host answers requests for. -/
structure OwnerNode (env : Env) where
  node : RegisterNode env
  asks : Topic → AskState
  handledRequests : List JsString

/-- Not the start or the end of anything, and no set with a ref. -/
def RegisterInput.plain {env : Env} : RegisterInput env → Bool
  | .write _ _ op _ => op.ref.isNone
  | .enqueue (.append item) _ => !env.registers item.topic
  | .enqueue _ _ | .flush .. | .rebaseAtCut .. | .core .. => true
  | .start _ | .resume _ | .restart => false

inductive OwnerInput (env : Env) where
  | register (i : RegisterInput env) (plain : i.plain = true)
  | start (topic : Topic)
  | resume (topic : Topic)
  /-- The next event of a pass that has folded everything. -/
  | event (topic : Topic)
  /-- The host's callbacks have answered. -/
  | verdict (topic : Topic) (approve : Bool)
  /-- The append of a set resolves. -/
  | appended (topic : Topic)
  /-- A callback throws, or the append rejects. -/
  | fails (topic : Topic)
  | restart

namespace OwnerNode

variable {env : Env} (P : RegisterPolicies)

def init : OwnerNode env := ⟨.init, fun _ => .idle, []⟩

def signature (env : Env) (topic : Topic) (entry : EntryId) : JsString :=
  js topic ++ 0 :: env.jcs (idJson entry)

def busy (n : OwnerNode env) (topic : Topic) : Bool :=
  let asks := n.asks topic
  !asks.events.isEmpty || asks.asked.isSome || asks.appending

def withAsks (n : OwnerNode env) (topic : Topic) (asks : AskState) : OwnerNode env :=
  { n with asks := Function.update n.asks topic asks }

/-- The event that is processed next, once the fold of the pass is through. -/
def nextEvent (n : OwnerNode env) (topic : Topic) : Option AskEvent :=
  match (n.node.hubs topic).pass, (n.asks topic).asked, (n.asks topic).appending with
  | .idle, none, false => (n.asks topic).events.head?
  | _, _, _ => none

/-- The request of an event goes to the host: approval runs on the owner node, and a request that
was handled is not asked about again. -/
def asksAbout (n : OwnerNode env) (topic : Topic) (ev : AskEvent) : Bool :=
  let ks := ev.former.getD ((n.node.hubs topic).keys.state ev.key)
  decide (ks.owner = some (js env.writerId)) &&
    decide (signature env topic ev.req.entry ∉ n.handledRequests)

def maybeAskOwner (n : OwnerNode env) (topic : Topic) (ev : AskEvent) : OwnerNode env :=
  let rest := (n.asks topic).events.tail
  if n.asksAbout topic ev then
    { n.withAsks topic ⟨rest, some (ev.key, ev.req), false⟩ with
      handledRequests := capSet (n.handledRequests ++ [signature env topic ev.req.entry]) }
  else n.withAsks topic ⟨rest, none, false⟩

def step (n : OwnerNode env) : OwnerInput env → OwnerNode env
  | .register i _ => { n with node := n.node.step P i }
  | .start topic => if n.busy topic then n else { n with node := n.node.step P (.start topic) }
  | .resume topic =>
    let events := (n.node.hub topic).resumeEvents (P.deps env topic) topic (n.asks topic).events
    { n.withAsks topic { n.asks topic with events := events } with
      node := n.node.step P (.resume topic) }
  | .event topic =>
    match n.nextEvent topic with
    | some ev => n.maybeAskOwner topic ev
    | none => n
  | .verdict topic approve =>
    match (n.asks topic).asked with
    | some (key, req) =>
      let asks := n.asks topic
      if register : approve = true ∧ env.registers topic = true then
        { n.withAsks topic { asks with asked := none, appending := true } with
          node := n.node.step P (.write topic key (.approve req.value req.entry) register.2) }
      else n.withAsks topic { asks with asked := none }
    | none => n
  | .appended topic => n.withAsks topic { n.asks topic with appending := false }
  | .fails topic =>
    match (n.node.hubs topic).pass with
    | .idle => n.withAsks topic .idle
    | _ => n
  | .restart => ⟨n.node.step P .restart, fun _ => .idle, []⟩

def run (n : OwnerNode env) (is : List (OwnerInput env)) : OwnerNode env := is.foldl (step P) n

end OwnerNode

/-- A set of the node itself on a register topic, with a ref. -/
structure OwnSet (env : Env) (ref : EntryId) (e : LogEntry) : Prop where
  register : env.registers e.topic = true
  own : e.writer = env.writerId
  set : opKind e.kind = .set
  names : e.ref = some ref

def RegisterItem.ref {env : Env} : RegisterItem env → Option EntryId
  | .write w => w.op.ref
  | .other _ _ => none

/-- What a transaction has applied, or holds. -/
def Txn.Holds (t : Txn) (e : LogEntry) : Prop :=
  e ∈ t.applied.map AppliedEntry.entry ∨ ∃ r ∈ t.core.db.sqLog.rows, r.entry = e

namespace OwnerNode

variable {env : Env}

/-- The node has held or committed a set for the request. -/
def Granted (n : OwnerNode env) (ref : EntryId) : Prop := ∃ e ∈ n.node.seen, OwnSet env ref e

def Asked (n : OwnerNode env) (ref : EntryId) : Prop :=
  ∃ topic q, (n.asks topic).asked = some q ∧ q.2.entry = ref

/-- The requests whose approvals wait in the queue. -/
def approved (n : OwnerNode env) : List EntryId := n.node.queue.filterMap RegisterItem.ref

def InFlight (n : OwnerNode env) (ref : EntryId) : Prop := n.Asked ref ∨ ref ∈ n.approved

/-- The sets that a flush appends are the first for their requests. -/
def GrantsOnce (n : OwnerNode env) (ambient : Nat → Ambient) (fault : Option Nat) : Prop :=
  ∀ before w after ref t t' a, n.node.queue = before ++ .write w :: after → w.op.ref = some ref →
    forM (n.node.batch ambient before) (processQueued env) (Txn.start n.node.core fault) =
      .ok () t →
    processQueued env (n.node.queued (ambient before.length) (.write w)) t = .ok () t' →
    t'.applied = t.applied ++ [a] →
    ∀ e ∈ n.node.seen ++ t.applied.map AppliedEntry.entry, ¬ OwnSet env ref e

end OwnerNode

/-- The owner is asked about a request only when the node has held no set of its own for it, and no
question or approval of it is in flight; and while one is, no such set comes from elsewhere. -/
def OwnerInput.Fine {env : Env} (n : OwnerNode env) : OwnerInput env → Prop
  | .event topic => ∀ ev, n.nextEvent topic = some ev → n.asksAbout topic ev = true →
      ¬ n.Granted ev.req.entry ∧ ¬ n.InFlight ev.req.entry
  | .register (.flush ambient fault) _ => ∀ before item unscoped after t t',
      n.node.queue = before ++ .other item unscoped :: after →
      forM (n.node.batch ambient before) (processQueued env) (Txn.start n.node.core fault) =
        .ok () t →
      processQueued env (n.node.queued (ambient before.length) (.other item unscoped)) t =
        .ok () t' →
      ∀ e, t'.Holds e → ¬ t.Holds e → ∀ ref, OwnSet env ref e → ¬ n.InFlight ref
  | .register (.core i _) _ => ∀ e ∈ (n.node.after (step env n.node.core i)).seen, e ∉ n.node.seen →
      ∀ ref, OwnSet env ref e → ¬ n.InFlight ref
  | _ => True

def OwnerNode.Fine {env : Env} (P : RegisterPolicies) : OwnerNode env → List (OwnerInput env) → Prop
  | _, [] => True
  | n, i :: is => i.Fine n ∧ OwnerNode.Fine P (n.step P i) is

/-! What an item of a flush brings. -/

section
variable {env : Env} {t t' : Txn}

theorem Txn.holds_iff (env : Env) (t : Txn) : t.Holds e ↔
    (∃ via, (e, via) ∈ (t.view env).applied) ∨
      ∃ k s, ((t.view env).streams k).rows s = some e := by
  apply or_congr
  · rw [Txn.view, List.mem_map]
    simp only [List.mem_map, Prod.mk.injEq]
    constructor
    · rintro ⟨a, ha, rfl⟩
      exact ⟨a.via, a, ha, rfl, rfl⟩
    · rintro ⟨via, a, ha, rfl, -⟩
      exact ⟨a, ha, rfl⟩
  · constructor
    · rintro ⟨r, hr, rfl⟩
      exact ⟨_, _, Core.row_of_mem env hr⟩
    · rintro ⟨k, s, hrow⟩
      obtain ⟨r, hr, rfl⟩ := Option.map_eq_some_iff.1 hrow
      exact ⟨r, (Table.get_eq_some_iff.1 hr).1, rfl⟩

/-- An append brings its entry at most. -/
theorem Stamped.brings {item : AppendItem env} (h : Stamped env item scope causal now L tails L' tails') :
    (∀ p ∈ L'.applied, p ∈ L.applied ∨ p.1.ref = item.ref) ∧
      ∀ s e, L'.stream.rows s = some e → L.stream.rows s = some e ∨ e.ref = item.ref := by
  cases h with
  | «sealed» => exact ⟨fun _ hp => .inl hp, fun _ _ he => .inl he⟩
  | overflow => exact ⟨fun _ hp => .inl hp, fun _ _ he => .inl he⟩
  | invalid => exact ⟨fun _ hp => .inl hp, fun _ _ he => .inl he⟩
  | appended =>
    constructor
    · intro p hp
      rcases List.mem_append.1 hp with hp | hp
      · exact .inl hp
      · rw [List.mem_singleton.1 hp]
        exact .inr rfl
    · intro s e he
      change (Stream.put env _ L.stream).rows s = some e at he
      rw [Stream.rows_put] at he
      split at he
      · rw [← Option.some.inj he]
        exact .inr rfl
      · exact .inl he

theorem RegisterWrite.brings {w : RegisterWrite env} (ht : Ready env t)
    (hrun : processQueued env (ambient, .append w.item) t = .ok () t') (he : t'.Holds e) :
    t.Holds e ∨ e.ref = w.op.ref := by
  have hscope : w.item.causalProvider = some (unitText w.scope.scopeKey) := rfl
  obtain ⟨-, L, hstamped, hview⟩ := (processQueued_stamps hscope ht ambient).of_ok hrun
  obtain ⟨happlied, hrows⟩ := hstamped.brings
  rw [t'.holds_iff env, hview] at he
  rw [t.holds_iff env]
  rcases he with ⟨via, hin⟩ | ⟨k, s, hrow⟩
  · exact (happlied _ hin).imp_left fun hin => .inl ⟨via, hin⟩
  · rw [View.withLocal_streams] at hrow
    split at hrow
    · exact (hrows s e hrow).imp_left fun hrow => .inr ⟨_, s, hrow⟩
    · exact .inl (.inr ⟨k, s, hrow⟩)

theorem processQueued_ready {q : Queued env} (ht : Ready env t)
    (hrun : processQueued env q t = .ok () t') : Ready env t' := by
  have hitem := processQueued_spec False True q ht False.elim fun _ => trivial
  exact (hitem.of_ok hrun).2.1

end

/-! Why nothing is granted twice. -/

/-- What is in flight is in flight once, and has not been granted. -/
structure OwnerNode.Once {env : Env} (n : OwnerNode env) : Prop where
  coherent : n.node.core.Coherent env
  rows : ∀ r ∈ n.node.core.db.sqLog.rows, r.entry ∈ n.node.seen
  fresh : ∀ ref, n.InFlight ref → ¬ n.Granted ref
  asked : ∀ topic topic' q q', (n.asks topic).asked = some q → (n.asks topic').asked = some q' →
    q.2.entry = q'.2.entry → topic = topic'
  approved : n.approved.Nodup
  apart : ∀ ref ∈ n.approved, ¬ n.Asked ref

theorem forM_snoc_ok {α : Type} {f : α → LogM PUnit} {xs : List α} {x : α} {t t' : Txn}
    (h : forM (xs ++ [x]) f t = .ok () t') :
    ∃ t₁, forM xs f t = .ok () t₁ ∧ f x t₁ = .ok () t' := by
  induction xs generalizing t with
  | nil =>
    rw [List.nil_append, List.forM_cons] at h
    change EStateM.bind (f x) (fun _ => forM [] f) t = _ at h
    rw [EStateM.bind] at h
    cases hx : f x t with
    | error e t₁ =>
      rw [hx] at h
      cases h
    | ok _ t₁ =>
      rw [hx] at h
      cases h
      exact ⟨t, rfl, hx⟩
  | cons y ys ih =>
    rw [List.cons_append, List.forM_cons] at h
    change EStateM.bind (f y) (fun _ => forM (ys ++ [x]) f) t = _ at h
    rw [EStateM.bind] at h
    cases hy : f y t with
    | error e t₁ =>
      rw [hy] at h
      cases h
    | ok _ t₁ =>
      rw [hy] at h
      obtain ⟨t₂, hys, hx⟩ := ih h
      refine ⟨t₂, ?_, hx⟩
      rw [List.forM_cons]
      change EStateM.bind (f y) (fun _ => forM ys f) t = _
      rw [EStateM.bind, hy]
      exact hys

namespace OwnerNode.Once

variable {env : Env} {n : OwnerNode env} {ambient : Nat → Ambient} {fault : Option Nat}

/-- In the middle of a flush, what is still in flight has not been granted. -/
theorem batch (h : n.Once) (hfine : OwnerInput.Fine n (.register (.flush ambient fault) rfl))
    (before after : List (RegisterItem env)) (t : Txn) (hqueue : n.node.queue = before ++ after)
    (hrun : forM (n.node.batch ambient before) (processQueued env) (Txn.start n.node.core fault) =
      .ok () t) : Ready env t ∧ ∀ ref, n.InFlight ref → ref ∉ before.filterMap RegisterItem.ref →
        ∀ e, e ∈ n.node.seen ∨ t.Holds e → ¬ OwnSet env ref e := by
  induction before using List.reverseRecOn generalizing after t with
  | nil =>
    cases hrun
    refine ⟨⟨h.coherent⟩, fun ref hflight _ e he hset => ?_⟩
    apply h.fresh ref hflight
    rcases he with he | he | ⟨r, hr, rfl⟩
    · exact ⟨e, he, hset⟩
    · cases he
    · exact ⟨_, h.rows r hr, hset⟩
  | append_singleton before p ih =>
    have hsplit : n.node.batch ambient (before ++ [p]) =
        n.node.batch ambient before ++ [n.node.queued (ambient before.length) p] := by
      rw [RegisterNode.batch, List.mapIdx_append, List.mapIdx_cons, Nat.zero_add]
      rfl
    rw [hsplit] at hrun
    obtain ⟨t₁, hbefore, hone⟩ := forM_snoc_ok hrun
    have hqueue' : n.node.queue = before ++ p :: after := by
      rw [hqueue, List.append_assoc]
      rfl
    obtain ⟨hready, hfresh⟩ := ih (p :: after) t₁ hqueue' hbefore
    refine ⟨processQueued_ready hready hone, fun ref hflight hout e he hset => ?_⟩
    rw [List.filterMap_append, List.mem_append, not_or] at hout
    by_cases hheld : e ∈ n.node.seen ∨ t₁.Holds e
    · exact hfresh ref hflight hout.1 e hheld hset
    rw [not_or] at hheld
    have hnew := he.resolve_left hheld.1
    cases p with
    | write w =>
      have href := (RegisterWrite.brings hready hone hnew).resolve_left hheld.2
      apply hout.2
      rw [hset.names] at href
      exact List.mem_filterMap.2 ⟨_, List.mem_singleton.2 rfl, href.symm⟩
    | other item unscoped =>
      exact hfine before item unscoped after t₁ t hqueue' hbefore hone e hnew hheld.2 ref hset
        hflight

end OwnerNode.Once

/-- What a flush leaves was there before, or its items have brought it. -/
theorem flush_brings (env : Env) (batch : List (Queued env)) (fault : Option Nat) (core : Core) :
    let o := flush env batch fault core
    ∃ t, (t = Txn.start core fault ∨
        forM batch (processQueued env) (Txn.start core fault) = .ok () t) ∧
      ∀ e, e ∈ o.applied.map AppliedEntry.entry ++ o.core.db.sqLog.rows.map LogRow.entry →
        t.Holds e := by
  intro o
  have hrows : ∀ {rows : List LogRow} {e : LogEntry}, e ∈ rows.map LogRow.entry →
      ∃ r ∈ rows, r.entry = e := List.mem_map.1
  by_cases hempty : batch.isEmpty = true
  · have ho : o = { core := core } := if_pos hempty
    refine ⟨_, .inl rfl, fun e he => ?_⟩
    rw [ho] at he
    exact .inr (hrows he)
  cases hrun : flushBody env batch (Txn.start core fault) with
  | error err t =>
    have ho : o = { core := restoreAborted core { t with core.db := core.db }
                    settle := batch.map fun _ => .rejected err } := by
      change flush env batch fault core = _
      rw [flush, if_neg hempty, transaction, hrun]
      rfl
    refine ⟨_, .inl rfl, fun e he => ?_⟩
    rw [ho] at he
    exact .inr (hrows he)
  | ok _ u =>
    have ho : o = { core := u.core, settle := u.settle, applied := u.applied,
                    anomalies := u.anomalies } := by
      change flush env batch fault core = _
      rw [flush, if_neg hempty, transaction, hrun]
    rw [flushBody_eq] at hrun
    change EStateM.bind (forM batch (processQueued env)) (fun _ => finishFlush)
      (Txn.start core fault) = _ at hrun
    rw [EStateM.bind] at hrun
    cases hbatch : forM batch (processQueued env) (Txn.start core fault) with
    | error err t =>
      rw [hbatch] at hrun
      cases hrun
    | ok _ t =>
      rw [hbatch] at hrun
      obtain ⟨fault', rfl⟩ := (finishFlush_runs t).of_ok hrun
      refine ⟨t, .inr rfl, fun e he => ?_⟩
      rw [ho] at he
      exact (List.mem_append.1 he).imp_right hrows

namespace OwnerNode

variable {env : Env} {P : RegisterPolicies} {n : OwnerNode env}

theorem Once.init : (OwnerNode.init : OwnerNode env).Once := by
  have hasked : ∀ ref, ¬ (OwnerNode.init : OwnerNode env).Asked ref := by
    rintro ref ⟨topic, q, hq, -⟩
    cases hq
  refine ⟨Core.coherent_init, (fun r hr => nomatch hr), fun ref hflight => ?_,
    (fun topic topic' q q' hq => nomatch hq), List.nodup_nil, fun ref href => nomatch href⟩
  rcases hflight with h | h
  · exact absurd h (hasked ref)
  · cases h

/-- With no more in flight, and no set of what is in flight new. -/
theorem Once.fewer (h : n.Once) {n' : OwnerNode env} (hcoherent : n'.node.core.Coherent env)
    (hrows : ∀ r ∈ n'.node.core.db.sqLog.rows, r.entry ∈ n'.node.seen)
    (hasked : ∀ topic q, (n'.asks topic).asked = some q → (n.asks topic).asked = some q)
    (happroved : n'.approved.Sublist n.approved)
    (hseen : ∀ e ∈ n'.node.seen, e ∉ n.node.seen →
      ∀ ref, OwnSet env ref e → ¬ n'.InFlight ref) : n'.Once := by
  have hask : ∀ ref, n'.Asked ref → n.Asked ref := by
    rintro ref ⟨topic, q, hq, href⟩
    exact ⟨topic, q, hasked topic q hq, href⟩
  refine ⟨hcoherent, hrows, ?_, ?_, h.approved.sublist happroved, ?_⟩
  · rintro ref hflight ⟨e, he, hset⟩
    by_cases hold : e ∈ n.node.seen
    · apply h.fresh ref (hflight.imp (hask ref) fun hin => happroved.subset hin)
      exact ⟨e, hold, hset⟩
    · exact hseen e he hold ref hset hflight
  · intro topic topic' q q' hq hq' heq
    exact h.asked topic topic' q q' (hasked topic q hq) (hasked topic' q' hq') heq
  · exact fun ref href hin => h.apart ref (happroved.subset href) (hask ref hin)

/-- The state of the store and what was seen are the same. -/
theorem Once.beside (h : n.Once) {n' : OwnerNode env} (hcore : n'.node.core = n.node.core)
    (hseen : n'.node.seen = n.node.seen)
    (hasked : ∀ topic q, (n'.asks topic).asked = some q → (n.asks topic).asked = some q)
    (happroved : n'.approved.Sublist n.approved) : n'.Once := by
  apply h.fewer _ _ hasked happroved
  · rw [hseen]
    exact fun e he hout => absurd he hout
  · rw [hcore]
    exact h.coherent
  · rw [hcore, hseen]
    exact h.rows

theorem asked_withAsks {asks : AskState} (hasks : ∀ q, asks.asked = some q →
    (n.asks topic).asked = some q) (name : Topic) (q : Key × RequestState)
    (hq : ((n.withAsks topic asks).asks name).asked = some q) : (n.asks name).asked = some q := by
  rw [withAsks] at hq
  dsimp only at hq
  by_cases hname : name = topic
  · subst hname
    rw [Function.update_self] at hq
    exact hasks q hq
  · rwa [Function.update_of_ne hname] at hq

theorem Once.flush (h : n.Once) {ambient : Nat → Ambient} {fault : Option Nat}
    (hfine : OwnerInput.Fine n (.register (.flush ambient fault) rfl)) :
    (n.step P (.register (.flush ambient fault) rfl)).Once := by
  obtain ⟨t, hend, hbrings⟩ := flush_brings env (n.node.batch ambient n.node.queue) fault n.node.core
  obtain ⟨hcoherent, -⟩ := flush_spec False (fun _ _ => True) (n.node.batch ambient n.node.queue)
    fault h.coherent False.elim (.of_forall fun _ _ _ => trivial)
  apply h.fewer hcoherent
  · intro r hr
    exact List.mem_append_right _ (List.mem_map_of_mem hr)
  · exact fun _ _ hq => hq
  · exact List.nil_sublist _
  · intro e he hnew ref hset hflight
    have hask : n.Asked ref := hflight.resolve_right (fun hin => nomatch hin)
    have hheld : t.Holds e := by
      apply hbrings e
      rcases List.mem_append.1 he with he | he
      · exact List.mem_append_left _ ((List.mem_append.1 he).resolve_left hnew)
      · exact List.mem_append_right _ he
    rcases hend with rfl | hrun
    · rcases hheld with hin | ⟨r, hr, rfl⟩
      · cases hin
      · exact hnew (h.rows r hr)
    · have hmid := h.batch hfine n.node.queue [] t (List.append_nil _).symm hrun
      exact hmid.2 ref (.inl hask) (fun hin => h.apart ref hin hask) e (.inr hheld) hset

theorem Once.register (h : n.Once) {i : RegisterInput env} (hplain : i.plain = true)
    (hfine : OwnerInput.Fine n (.register i hplain)) : (n.step P (.register i hplain)).Once := by
  cases i with
  | write topic key op register =>
    refine h.beside rfl rfl (fun _ _ hq => hq) ?_
    have href : op.ref = none := Option.isNone_iff_eq_none.1 hplain
    change List.Sublist (List.filterMap RegisterItem.ref (n.node.queue ++ [_])) _
    have hnone : RegisterItem.ref (.write ⟨topic, key, op,
        ((n.node.hubs topic).keys.state key).resetGen, register⟩) = none := href
    rw [List.filterMap_append, List.filterMap_cons_none hnone, List.filterMap_nil, List.append_nil]
    exact List.Sublist.refl _
  | enqueue item unscoped =>
    refine h.beside rfl rfl (fun _ _ hq => hq) ?_
    change List.Sublist (List.filterMap RegisterItem.ref (n.node.queue ++ [_])) _
    rw [List.filterMap_append, List.filterMap_cons_none rfl, List.filterMap_nil, List.append_nil]
    exact List.Sublist.refl _
  | flush ambient fault => exact h.flush hfine
  | rebaseAtCut topic ord =>
    exact h.beside rfl rfl (fun _ _ hq => hq) (List.Sublist.refl _)
  | core i hi =>
    have hcoherent : (Seqscribe.step env n.node.core i).core.Coherent env :=
      (step_spec False (fun _ _ => True) i h.coherent False.elim (.of_forall i fun _ _ => trivial)).1
    apply h.fewer hcoherent
    · intro r hr
      exact List.mem_append_right _ (List.mem_map_of_mem hr)
    · exact fun _ _ hq => hq
    · exact List.Sublist.refl _
    · exact hfine
  | start => cases hplain
  | resume => cases hplain
  | restart => cases hplain

/-- A question is new. -/
theorem Once.ask (h : n.Once) {topic : Topic} {ev : AskEvent} {rest : List AskEvent}
    (hgranted : ¬ n.Granted ev.req.entry) (hflight : ¬ n.InFlight ev.req.entry) (handled : List JsString) :
    ({ n.withAsks topic ⟨rest, some (ev.key, ev.req), false⟩ with
      handledRequests := handled } : OwnerNode env).Once := by
  let n' : OwnerNode env := { n.withAsks topic ⟨rest, some (ev.key, ev.req), false⟩ with
    handledRequests := handled }
  have hself : (n'.asks topic).asked = some (ev.key, ev.req) :=
    congrArg AskState.asked (Function.update_self topic _ n.asks)
  have hother : ∀ name, name ≠ topic → (n'.asks name).asked = (n.asks name).asked := fun name hne =>
    congrArg AskState.asked (Function.update_of_ne hne _ n.asks)
  have hcases : ∀ name q, (n'.asks name).asked = some q →
      name = topic ∧ q = (ev.key, ev.req) ∨ name ≠ topic ∧ (n.asks name).asked = some q := by
    intro name q hq
    by_cases hname : name = topic
    · rw [hname, hself] at hq
      exact .inl ⟨hname, (Option.some.inj hq).symm⟩
    · rw [hother name hname] at hq
      exact .inr ⟨hname, hq⟩
  have hask : ∀ ref, n'.Asked ref → ref = ev.req.entry ∨ n.Asked ref := by
    rintro ref ⟨name, q, hq, rfl⟩
    rcases hcases name q hq with ⟨-, rfl⟩ | ⟨-, hq⟩
    · exact .inl rfl
    · exact .inr ⟨name, q, hq, rfl⟩
  refine ⟨h.coherent, h.rows, ?_, ?_, h.approved, ?_⟩
  · rintro ref (hin | hin)
    · rcases hask ref hin with rfl | hin
      · exact hgranted
      · exact h.fresh ref (.inl hin)
    · exact h.fresh ref (.inr hin)
  · intro name name' q q' hq hq' heq
    rcases hcases name q hq with ⟨hname, hreq⟩ | ⟨-, hold⟩
    · rcases hcases name' q' hq' with ⟨hname', -⟩ | ⟨-, hold'⟩
      · exact hname.trans hname'.symm
      · rw [hreq] at heq
        exact absurd (.inl ⟨name', q', hold', heq.symm⟩) hflight
    · rcases hcases name' q' hq' with ⟨-, hreq'⟩ | ⟨-, hold'⟩
      · rw [hreq'] at heq
        exact absurd (.inl ⟨name, q, hold, heq⟩) hflight
      · exact h.asked name name' q q' hold hold' heq
  · intro ref href hin
    rcases hask ref hin with rfl | hin
    · exact hflight (.inr href)
    · exact h.apart ref href hin

/-- An approval takes the place of its question. -/
theorem Once.approve (h : n.Once) {topic : Topic} {key : Key} {req : RequestState}
    (hasked : (n.asks topic).asked = some (key, req)) (register : env.registers topic = true)
    (events : List AskEvent) :
    ({ n.withAsks topic ⟨events, none, true⟩ with
      node := n.node.step P (.write topic key (.approve req.value req.entry) register) } :
        OwnerNode env).Once := by
  let n' : OwnerNode env := { n.withAsks topic ⟨events, none, true⟩ with
    node := n.node.step P (.write topic key (.approve req.value req.entry) register) }
  have happroved : n'.approved = n.approved ++ [req.entry] := by
    change List.filterMap RegisterItem.ref (n.node.queue ++ [_]) = _
    rw [List.filterMap_append]
    rfl
  have hfewer : ∀ name q, (n'.asks name).asked = some q →
      name ≠ topic ∧ (n.asks name).asked = some q := by
    intro name q hq
    change ((Function.update n.asks topic _) name).asked = some q at hq
    by_cases hname : name = topic
    · rw [hname, Function.update_self] at hq
      cases hq
    · rw [Function.update_of_ne hname] at hq
      exact ⟨hname, hq⟩
  have hask : ∀ ref, n'.Asked ref → ref ≠ req.entry ∧ n.Asked ref := by
    rintro ref ⟨name, q, hq, rfl⟩
    obtain ⟨hne, hq⟩ := hfewer name q hq
    exact ⟨fun heq => hne (h.asked name topic q _ hq hasked heq), name, q, hq, rfl⟩
  have hreq : n.Asked req.entry := ⟨topic, _, hasked, rfl⟩
  refine ⟨h.coherent, h.rows, ?_, ?_, ?_, ?_⟩
  · rintro ref (hin | hin)
    · exact h.fresh ref (.inl (hask ref hin).2)
    · rw [happroved, List.mem_append, List.mem_singleton] at hin
      rcases hin with hin | rfl
      · exact h.fresh ref (.inr hin)
      · exact h.fresh _ (.inl hreq)
  · exact fun name name' q q' hq hq' heq =>
      h.asked name name' q q' (hfewer name q hq).2 (hfewer name' q' hq').2 heq
  · rw [happroved, List.nodup_append]
    refine ⟨h.approved, List.nodup_singleton _, ?_⟩
    rintro ref hin _ hmem rfl
    rw [List.mem_singleton.1 hmem] at hin
    exact h.apart _ hin hreq
  · intro ref href hin
    rw [happroved, List.mem_append, List.mem_singleton] at href
    rcases href with href | href
    · exact h.apart ref href (hask ref hin).2
    · exact (hask ref hin).1 href

/-- Shrinking the tails touches nothing else. -/
theorem shrink_keeps (hcoherent : n.node.core.Coherent env) (topic : Topic) :
    (n.node.shrink topic).core.Coherent env ∧ (n.node.shrink topic).core.db = n.node.core.db ∧
      (n.node.shrink topic).seen = n.node.seen ∧ (n.node.shrink topic).queue = n.node.queue := by
  rw [RegisterNode.shrink]
  split
  · split
    · exact ⟨⟨hcoherent.heads, hcoherent.certs, hcoherent.floors, hcoherent.exposed,
        hcoherent.covered⟩, rfl, rfl, rfl⟩
    · exact ⟨hcoherent, rfl, rfl, rfl⟩
  · exact ⟨hcoherent, rfl, rfl, rfl⟩

theorem Once.step (h : n.Once) {i : OwnerInput env} (hfine : i.Fine n) : (n.step P i).Once := by
  cases i with
  | register i plain => exact h.register plain hfine
  | start topic =>
    rw [OwnerNode.step]
    split
    · exact h
    · exact h.beside rfl rfl (fun _ _ hq => hq) (List.Sublist.refl _)
  | resume topic =>
    obtain ⟨hcoherent, hdb, hseen, hqueue⟩ := shrink_keeps h.coherent topic
    apply h.fewer hcoherent
    · change ∀ r ∈ (n.node.shrink topic).core.db.sqLog.rows, r.entry ∈ (n.node.shrink topic).seen
      rw [hdb, hseen]
      exact h.rows
    · exact asked_withAsks fun _ hq => hq
    · change List.Sublist ((n.node.shrink topic).queue.filterMap RegisterItem.ref) _
      rw [hqueue]
      exact List.Sublist.refl _
    · change ∀ e ∈ (n.node.shrink topic).seen, _
      rw [hseen]
      exact fun e he hout => absurd he hout
  | event topic =>
    rw [OwnerNode.step]
    split
    · next ev hev =>
      rw [maybeAskOwner]
      dsimp only
      split
      · next hasks =>
        obtain ⟨hgranted, hflight⟩ := hfine ev hev hasks
        exact h.ask hgranted hflight _
      · exact h.beside rfl rfl (asked_withAsks fun _ hq => (nomatch hq)) (List.Sublist.refl _)
    · exact h
  | verdict topic approve =>
    rw [OwnerNode.step]
    split
    · next key req hasked =>
      dsimp only
      split
      · next register => exact h.approve hasked register.2 _
      · exact h.beside rfl rfl (asked_withAsks fun _ hq => (nomatch hq)) (List.Sublist.refl _)
    · exact h
  | appended topic =>
    exact h.beside rfl rfl (asked_withAsks fun _ hq => hq) (List.Sublist.refl _)
  | fails topic =>
    rw [OwnerNode.step]
    split
    · exact h.beside rfl rfl (asked_withAsks fun _ hq => (nomatch hq)) (List.Sublist.refl _)
    · exact h
  | restart =>
    have hcoherent : (Seqscribe.step env n.node.core .restart).core.Coherent env :=
      (step_spec False (fun _ _ => True) .restart h.coherent False.elim
        (.of_forall .restart fun _ _ => trivial)).1
    apply h.fewer hcoherent
    · intro r hr
      exact List.mem_append_right _ (List.mem_map_of_mem hr)
    · exact fun _ _ hq => nomatch hq
    · exact List.nil_sublist _
    · rintro e - - ref - (⟨topic, q, hq, -⟩ | hin)
      · cases hq
      · cases hin

theorem fine_append {is is' : List (OwnerInput env)} :
    n.Fine P (is ++ is') ↔ n.Fine P is ∧ (n.run P is).Fine P is' := by
  induction is generalizing n with
  | nil => exact (and_iff_right trivial).symm
  | cons i is ih => exact (and_congr_right fun _ => ih).trans and_assoc.symm

theorem Once.run (h : n.Once) {is : List (OwnerInput env)} (hfine : n.Fine P is) :
    (n.run P is).Once := by
  induction is generalizing n with
  | nil => exact h
  | cons i is ih => exact ih (h.step hfine.1) hfine.2

end OwnerNode

/-- In a run that asks about no request which is granted or in flight, and in which no set of a
request in flight comes from elsewhere, no set for a request is appended after another. -/
theorem request_granted_once (env : Env) (P : RegisterPolicies) (is : List (OwnerInput env))
    (ambient : Nat → Ambient) (fault : Option Nat)
    (hfine : OwnerNode.init.Fine P (is ++ [.register (.flush ambient fault) rfl])) :
    (OwnerNode.init.run P is).GrantsOnce ambient fault := by
  obtain ⟨hruns, hlast, -⟩ := OwnerNode.fine_append.1 hfine
  have honce : (OwnerNode.init.run P is).Once := OwnerNode.Once.init.run hruns
  generalize OwnerNode.init.run P is = n at hlast honce
  intro before w after ref t t' a hqueue href hbefore _ _ e he
  have happroved : n.approved = before.filterMap RegisterItem.ref ++
      (.write w :: after).filterMap RegisterItem.ref := by
    rw [OwnerNode.approved, hqueue, List.filterMap_append]
  have hw : ref ∈ (.write w :: after).filterMap RegisterItem.ref :=
    List.mem_filterMap.2 ⟨_, List.mem_cons_self, href⟩
  have hnew : ref ∉ before.filterMap RegisterItem.ref := by
    have hnodup := honce.approved
    rw [happroved, List.nodup_append] at hnodup
    exact fun hin => hnodup.2.2 ref hin ref hw rfl
  have hflight : n.InFlight ref := .inr (by rw [happroved]; exact List.mem_append_right _ hw)
  obtain ⟨-, hfresh⟩ := honce.batch hlast before (.write w :: after) t hqueue hbefore
  apply hfresh ref hflight hnew e
  exact (List.mem_append.1 he).imp_right .inl

/-! A request for a key of the node. -/

def ownedKeys : RegisterPolicies := ⟨fun _ _ => .owned, fun _ => false⟩

/-- A request of another node, for the key that the owner has set. -/
def requestEntry : LogEntry where
  topic := "t"
  writer := "b"
  seq := 1
  hlc := ⟨5, 0⟩
  kind := js "request"
  key := some (js "k")
  causal := none
  ref := none
  payload := .obj [(js "value", .str (js "v"))]
  chain := "e6470c20cc20244904f07fb910d4dd1feff337c59871e544127c8dc8fa5b8f87"

theorem valid_request : (validateEntry (registerEnv 65536) requestEntry).isOk := by decide +kernel

def requestItem : QueueItem (registerEnv 65536) :=
  .external { entry := requestEntry, via := none, valid := validateEntry_self valid_request,
              known := rfl }

/-- The owner sets the key, and the request arrives. -/
def arrivedRun : List (OwnerInput (registerEnv 65536)) :=
  [.register (setKey 65536 (js "a")) rfl, .register (flushAt 65536 1) rfl,
    .register (.enqueue requestItem fun _ h => nomatch h) rfl, .register (flushAt 65536 10) rfl]

/-- A pass folds both, and the host approves the request. -/
def approvedRun : List (OwnerInput (registerEnv 65536)) :=
  [.start "t", .resume "t", .resume "t", .event "t", .verdict "t" true]

namespace OwnerNode

variable {env : Env} {P : RegisterPolicies} {n : OwnerNode env}

/-- A pass puts nothing in flight. -/
theorem still_start (h : ∀ ref, ¬ n.InFlight ref) (topic : Topic) :
    ∀ ref, ¬ (n.step P (.start topic)).InFlight ref := by
  rw [step]
  split
  · exact h
  · exact h

theorem still_resume (hcoherent : n.node.core.Coherent env) (h : ∀ ref, ¬ n.InFlight ref)
    (topic : Topic) : ∀ ref, ¬ (n.step P (.resume topic)).InFlight ref := by
  obtain ⟨-, -, -, hqueue⟩ := shrink_keeps hcoherent topic
  rintro ref (⟨name, q, hq, href⟩ | hin)
  · have hsame : ∀ name q, ((n.step P (.resume topic)).asks name).asked = some q →
        (n.asks name).asked = some q := asked_withAsks fun _ hq => hq
    exact h ref (.inl ⟨name, q, hsame name q hq, href⟩)
  · change ref ∈ (n.node.shrink topic).queue.filterMap RegisterItem.ref at hin
    rw [hqueue] at hin
    exact h ref (.inr hin)

theorem not_granted (h : n.node.seen.all (fun e => e.ref.isNone) = true) (ref : EntryId) :
    ¬ n.Granted ref := by
  rintro ⟨e, he, hset⟩
  have hnone := List.all_eq_true.1 h e he
  rw [hset.names] at hnone
  cases hnone

/-- A flush of writes only. -/
theorem fine_writes (h : ∀ item unscoped, .other item unscoped ∉ n.node.queue)
    (ambient : Nat → Ambient) (fault : Option Nat) :
    OwnerInput.Fine n (.register (.flush ambient fault) rfl) := by
  intro before item unscoped after _ _ hqueue
  apply absurd _ (h item unscoped)
  rw [hqueue]
  exact List.mem_append_right _ List.mem_cons_self

end OwnerNode

theorem arrivedRun_fine :
    (OwnerNode.init : OwnerNode (registerEnv 65536)).Fine ownedKeys arrivedRun := by
  refine ⟨trivial, OwnerNode.fine_writes ?_ _ _, trivial, ?_, trivial⟩
  · intro item unscoped hin
    cases List.mem_singleton.1 hin
  · rintro before item unscoped after t t' - - - e - - ref - (⟨topic, q, hq, -⟩ | hin)
    · cases hq
    · cases hin

theorem approvedRun_fine : (OwnerNode.init : OwnerNode (registerEnv 65536)).Fine ownedKeys
    (arrivedRun ++ approvedRun ++ [.register (.flush (fun i => { now := 20 + i }) none) rfl]) := by
  have hquiet : ∀ ref, ¬ (OwnerNode.run ownedKeys .init arrivedRun).InFlight ref := by
    rintro ref (⟨topic, q, hq, -⟩ | hin)
    · cases hq
    · cases hin
  obtain ⟨hseen, hwrites⟩ : ((OwnerNode.run ownedKeys .init arrivedRun).run ownedKeys
        (approvedRun.take 3)).node.seen.all (fun e => e.ref.isNone) = true ∧
      ((OwnerNode.run ownedKeys .init arrivedRun).run ownedKeys approvedRun).node.queue.all (fun
        | .write _ => true
        | .other .. => false) = true := by decide +kernel
  have honce := OwnerNode.Once.init.run arrivedRun_fine
  rw [List.append_assoc, OwnerNode.fine_append]
  refine ⟨arrivedRun_fine, ?_⟩
  generalize OwnerNode.run ownedKeys .init arrivedRun = n at hquiet hseen hwrites honce ⊢
  have hstarted : (n.step ownedKeys (.start "t")).Once := honce.step trivial
  have hresumed : ((n.step ownedKeys (.start "t")).step ownedKeys (.resume "t")).Once :=
    hstarted.step trivial
  have hstill : ∀ ref, ¬ (n.run ownedKeys (approvedRun.take 3)).InFlight ref :=
    OwnerNode.still_resume hresumed.coherent
      (OwnerNode.still_resume hstarted.coherent (OwnerNode.still_start hquiet "t") "t") "t"
  refine ⟨trivial, trivial, trivial, ?_, trivial, OwnerNode.fine_writes ?_ _ _, trivial⟩
  · exact fun ev _ _ => ⟨OwnerNode.not_granted hseen _, hstill _⟩
  · intro item unscoped hin
    cases List.all_eq_true.1 hwrites _ hin

/-- The first approval of a request is the first set for it. -/
theorem request_granted_once_of_asked :
    (OwnerNode.run ownedKeys .init (arrivedRun ++ approvedRun)).GrantsOnce
      (fun i => { now := 20 + i }) none :=
  request_granted_once (registerEnv 65536) ownedKeys (arrivedRun ++ approvedRun) _ none
    approvedRun_fine

/-- The set is committed, the owner sets the key to something else, and restarts. -/
def replayedRun : List (OwnerInput (registerEnv 65536)) :=
  arrivedRun ++ approvedRun ++ [.register (flushAt 65536 20) rfl, .appended "t",
    .register (setKey 65536 (js "b")) rfl, .register (flushAt 65536 30) rfl, .restart,
    .start "t", .resume "t", .resume "t", .resume "t", .resume "t", .event "t", .verdict "t" true]

/-- The node is about to write a set for the request, which stores an entry. -/
def writesGrant (n : OwnerNode (registerEnv 65536)) : Bool :=
  match n.node.queue with
  | [.write w] => decide (w.op.ref = some ("t", "b", 1)) &&
    decide ((endState (processQueued (registerEnv 65536) (n.node.queued { now := 40 } (.write w))
      (Txn.start n.node.core none))).map (·.applied.length) = some 1)
  | _ => false

/-- After a restart the request is asked about again, and its value is set a second time. -/
theorem request_granted_twice : ¬ ∀ (is : List (OwnerInput (registerEnv 65536)))
    (ambient : Nat → Ambient) (fault : Option Nat),
    (OwnerNode.run ownedKeys .init is).GrantsOnce ambient fault := by
  intro hall
  have honce := hall replayedRun (fun i => { now := 40 + i }) none
  obtain ⟨hruns, hgranted⟩ : writesGrant (OwnerNode.run ownedKeys .init replayedRun) = true ∧
      (OwnerNode.run ownedKeys .init replayedRun).node.seen.any (fun e =>
        decide ((registerEnv 65536).registers e.topic = true ∧ e.writer = "w" ∧
          opKind e.kind = .set ∧ e.ref = some ("t", "b", 1))) = true := by decide +kernel
  generalize OwnerNode.run ownedKeys .init replayedRun = n at honce hruns hgranted
  rw [writesGrant] at hruns
  split at hruns
  · next w hqueue =>
    rw [Bool.and_eq_true, decide_eq_true_iff] at hruns
    obtain ⟨href, hrun⟩ := hruns
    cases hone : processQueued (registerEnv 65536) (n.node.queued { now := 40 } (.write w))
        (Txn.start n.node.core none) with
    | ok _ t =>
      rw [hone] at hrun
      obtain ⟨a, happlied⟩ := List.length_eq_one_iff.1 (Option.some.inj (of_decide_eq_true hrun))
      obtain ⟨e, he, hset⟩ := List.any_eq_true.1 hgranted
      obtain ⟨hregister, hwriter, hkind, hnames⟩ := of_decide_eq_true hset
      exact honce [] w [] _ _ t a hqueue href rfl hone happlied e (List.mem_append_left _ he)
        ⟨hregister, hwriter, hkind, hnames⟩
    | error e t =>
      rw [hone] at hrun
      cases hrun
  · cases hruns

end Seqscribe
