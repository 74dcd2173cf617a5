import Seqscribe.AuthorClock
import Seqscribe.CausalScopes
import Seqscribe.Host
import Seqscribe.Provenance
import Seqscribe.RegisterObserved
import Seqscribe.ScopeTails

namespace Seqscribe
set_option autoImplicit true

/-! A node with register topics: writes wait in the commit queue and are stamped in the flush that
processes them, between passes of the fold, restarts and whatever else happens to the log. -/

def Env.registers (env : Env) (topic : Topic) : Bool :=
  (env.topics topic).any fun p => decide (p.kind = .register)

theorem Env.registers_known {env : Env} (h : env.registers topic = true) :
    (env.topics topic).isSome := by
  obtain ⟨p, hp, -⟩ := Option.any_eq_true _ _ |>.1 h
  rw [hp]
  rfl

/-- What a handle writes, and what the approval of a request writes. -/
inductive RegisterOp where
  | operation (op : Operation)
  | chown (newOwner : JsString)
  | takeover (newOwner hostSig : JsString)
  | request (value : JsonValue)
  | approve (value : JsonValue) (ref : EntryId)

namespace RegisterOp

def kind : RegisterOp → JsString
  | .operation op => op.kind
  | .chown _ => js "chown"
  | .takeover _ _ => js "chown-takeover"
  | .request _ => js "request"
  | .approve _ _ => js "set"

def payload : RegisterOp → JsonValue
  | .operation op => op.payload
  | .chown newOwner => .obj [(js "newOwner", .str newOwner)]
  | .takeover newOwner hostSig =>
    .obj [(js "newOwner", .str newOwner), (js "hostSig", .str hostSig)]
  | .request value | .approve value _ => .obj [(js "value", value)]

def member : RegisterOp → Option JsString
  | .operation op => op.member
  | .chown _ | .takeover _ _ | .request _ | .approve _ _ => none

def ref : RegisterOp → Option EntryId
  | .approve _ ref => some ref
  | .operation _ | .chown _ | .takeover _ _ | .request _ => none

end RegisterOp

/-- A write of a register topic, in the scope that its call found. -/
structure RegisterWrite (env : Env) where
  topic : Topic
  key : Key
  op : RegisterOp
  gen : Nat
  register : env.registers topic = true

namespace RegisterWrite

variable {env : Env}

def scope (w : RegisterWrite env) : CausalScope := ⟨w.topic, w.key, w.op.member, w.gen⟩

def item (w : RegisterWrite env) : AppendItem env where
  topic := w.topic
  kind := w.op.kind
  payload := w.op.payload
  key := some w.key
  causalProvider := some (unitText w.scope.scopeKey)
  ref := w.op.ref
  known := Env.registers_known w.register

end RegisterWrite

/-- What other hubs and peers enqueue is in no causal scope. -/
def QueueItem.Unscoped {env : Env} (item : QueueItem env) : Prop :=
  ∀ a, item = .append a → a.causalProvider = none

inductive RegisterItem (env : Env) where
  | write (w : RegisterWrite env)
  | other (item : QueueItem env) (unscoped : item.Unscoped)

/-- The policies of the keys, and the authority's verdicts. -/
structure RegisterPolicies where
  conflictPolicyFor : Topic → Key → ConflictPolicy
  verifyTakeover : LogEntry → Bool

def RegisterPolicies.deps (P : RegisterPolicies) (env : Env) (topic : Topic) : RegisterDeps where
  env := env
  conflictPolicyFor := P.conflictPolicyFor topic
  verifyTakeover := P.verifyTakeover

structure RegisterNode (env : Env) where
  core : Core
  hubs : Topic → RegisterHub
  queue : List (RegisterItem env)
  /-- For the record: what the node has held or committed so far. -/
  seen : List LogEntry

inductive RegisterInput (env : Env) where
  | write (topic : Topic) (key : Key) (op : RegisterOp) (register : env.registers topic = true)
  | enqueue (item : QueueItem env) (unscoped : item.Unscoped)
  /-- A group commit of the queue, whose items find their surroundings. -/
  | flush (ambient : Nat → Ambient) (fault : Option Nat)
  /-- A pass of a hub starts. -/
  | start (topic : Topic)
  /-- The promise that a pass awaits settles. -/
  | resume (topic : Topic)
  | rebaseAtCut (topic : Topic) (ord : Order)
  /-- What else can happen to the log. -/
  | core (i : Input env) (beside : i.beside = true)
  | restart

/-- The entry that a pass folds next. -/
def Pass.next (pass : Pass) : Option LogEntry := pass.todo.head?

/-- The own tails that the fold of an own entry shrinks. -/
def shrinkTails (self : WriterId) (topic : Topic) (seq : Nat) (tails : ScopeTails) : ScopeTails :=
  fun scope => (tails scope).filter fun tail => !decide (tail.1 = self ∧ tail.2 ≤ seq ∧
    (unitText (js topic ++ [0])).toList <+: scope.toList)

/-- A new process: the key states start from the persisted base. -/
def RegisterHub.reopen (h : RegisterHub) : RegisterHub :=
  { h with
    keys := (h.base.map RegisterBase.keys).getD .empty
    ord := h.base.map RegisterBase.ord
    lastRowid := 0
    pass := .idle }

namespace RegisterNode

variable {env : Env} (P : RegisterPolicies)

def init : RegisterNode env := ⟨Core.init, fun _ => .empty, [], []⟩

/-- A hub over the store. -/
def hub (n : RegisterNode env) (topic : Topic) : RegisterHub :=
  { n.hubs topic with db := n.core.db }

def lastObserved (n : RegisterNode env) (w : RegisterWrite env) : Option (WriterId × Nat) :=
  materializedLastObserved ((n.hubs w.topic).keys.state w.key) w.op.member

def queued (n : RegisterNode env) (ambient : Ambient) : RegisterItem env → Queued env
  | .write w => ({ ambient with lastObserved := n.lastObserved w }, .append w.item)
  | .other item _ => (ambient, item)

/-- The batch of a flush. No pass runs in the middle of it. -/
def batch (n : RegisterNode env) (ambient : Nat → Ambient) (queue : List (RegisterItem env)) :
    List (Queued env) := queue.mapIdx fun i p => n.queued (ambient i) p

/-- The node after an operation of its log. -/
def after (n : RegisterNode env) (o : Outcome) : RegisterNode env :=
  { n with
    core := o.core
    seen := n.seen ++ o.applied.map AppliedEntry.entry ++ o.core.db.sqLog.rows.map LogRow.entry }

def withHub (n : RegisterNode env) (topic : Topic) (h : RegisterHub) : RegisterNode env :=
  { n with hubs := Function.update n.hubs topic h }

/-- The node when a pass is about to fold its next entry. -/
def shrink (n : RegisterNode env) (topic : Topic) : RegisterNode env :=
  match (n.hubs topic).pass.next with
  | some e =>
    if e.writer = env.writerId then
      { n with core.scopeTails := shrinkTails env.writerId topic e.seq n.core.scopeTails }
    else n
  | none => n

def step (n : RegisterNode env) : RegisterInput env → RegisterNode env
  | .write topic key op register =>
    let gen := ((n.hubs topic).keys.state key).resetGen
    { n with queue := n.queue ++ [.write ⟨topic, key, op, gen, register⟩] }
  | .enqueue item unscoped => { n with queue := n.queue ++ [.other item unscoped] }
  | .flush ambient fault =>
    { n.after (flush env (n.batch ambient n.queue) fault n.core) with queue := [] }
  | .start topic => n.withHub topic ((n.hub topic).step (P.deps env topic) topic .start)
  | .resume topic =>
    (n.shrink topic).withHub topic ((n.hub topic).step (P.deps env topic) topic .resume)
  | .rebaseAtCut topic ord =>
    n.withHub topic ((n.hub topic).step (P.deps env topic) topic (.rebaseAtCut ord))
  | .core i _ => n.after (Seqscribe.step env n.core i)
  | .restart =>
    { n.after (Seqscribe.step env n.core .restart) with
      hubs := fun topic => (n.hubs topic).reopen
      queue := [] }

def run (n : RegisterNode env) (is : List (RegisterInput env)) : RegisterNode env :=
  is.foldl (step P) n

end RegisterNode

/-! When the pointers are right. -/

section
variable {env : Env}

/-- A write that is stamped is a valid entry. -/
def Queued.admitted (q : Queued env) (t : Txn) : Bool :=
  match q.2 with
  | .append item =>
    match item.causalProvider, stamp t.core.hlcState q.1.now with
    | some scope, .ok (_, hlc) =>
      decide ((t.core.head env (item.topic, env.writerId)).sealReason ≠ none) ||
        (validateEntry env (Local.appendEntry env item hlc
          ((t.core.scopeTails scope).orElse fun _ => q.1.lastObserved)
          (t.core.stream env (item.topic, env.writerId)))).isOk
    | _, _ => true
  | _ => true

/-- The node's own streams of register topics are not taken back. -/
def Queued.Onward (q : Queued env) (t : Txn) : Prop :=
  ∀ t', processQueued env q t = .ok () t' → ∀ topic, env.registers topic = true →
    (t.core.head env (topic, env.writerId)).contigSeq ≤
      (t'.core.head env (topic, env.writerId)).contigSeq

/-- Only external entries of sealed streams, certificates, directives and the retirement of a topic
can take a stream back. -/
theorem Queued.onward_of {item : QueueItem env} (hitem : match item with
    | .external item => (t.core.head env item.entry.stream).sealReason = none
    | .cert _ | .directive _ | .retireTopic .. => False
    | _ => True) (ht : Ready env t) (ambient : Ambient) :
    Queued.Onward (ambient, item) t := by
  intro t' hrun topic _
  have hitems := processQueued_spec False True (ambient, item) ht False.elim fun _ => trivial
  obtain ⟨-, -, hstep⟩ := hitems.of_ok hrun
  cases item with
  | cert => exact hitem.elim
  | directive => exact hitem.elim
  | retireTopic => exact hitem.elim
  | _ => exact hstep.contigSeq_le (t.core.head_stream env) hitem (topic, env.writerId)

end

/-- Writes in scopes of `S`; and where a flush commits, the writes that it stamps are valid, and
nothing takes the node's own streams back. -/
def RegisterInput.Fine {env : Env} (S : CausalScope → Prop) (n : RegisterNode env) :
    RegisterInput env → Prop
  | .write topic key op _ => S ⟨topic, key, op.member, ((n.hubs topic).keys.state key).resetGen⟩
  | .flush ambient fault =>
    let batch := n.batch ambient n.queue
    ∀ t, flushBody env batch (Txn.start n.core fault) = .ok () t →
      BatchEvery env (fun q t => q.admitted t = true) batch (Txn.start n.core fault) ∧
        BatchEvery env Queued.Onward batch (Txn.start n.core fault)
  | _ => True

def RegisterNode.Fine {env : Env} (P : RegisterPolicies) (S : CausalScope → Prop) :
    RegisterNode env → List (RegisterInput env) → Prop
  | _, [] => True
  | n, i :: is => i.Fine S n ∧ RegisterNode.Fine P S (n.step P i) is

/-! Where the pointers come from. -/

/-- An entry that was seen, and that the node's own stream has passed if it is on it. -/
structure Sourced (env : Env) (seen : List LogEntry) (core : Core) (e : LogEntry) : Prop where
  seen : e ∈ seen
  own : env.registers e.topic = true → e.writer = env.writerId →
    e.seq ≤ (core.head env (e.topic, env.writerId)).contigSeq

/-- Every tail is the last write of a scope. -/
def ScopeTails.Grounded (env : Env) (P : RegisterPolicies) (S : CausalScope → Prop)
    (K : LogEntry → Prop) (tails : ScopeTails) : Prop :=
  ∀ scope p, tails scope = some p → ∃ s, S s ∧ unitText s.scopeKey = scope ∧
    ∃ e, K e ∧ Names (P.deps env s.topic) s.topic s.key s.member p e

/-- The node's own streams of register topics are sound. -/
def Core.OwnSound (env : Env) (core : Core) : Prop :=
  ∀ topic, env.registers topic = true →
    (core.stream env (topic, env.writerId)).Sound (topic, env.writerId)

/-- What an item of a flush finds, after what was seen before the flush. -/
structure MidFlush (env : Env) (P : RegisterPolicies) (S : CausalScope → Prop)
    (seen : List LogEntry) (t : Txn) : Prop where
  ready : Ready env t
  sound : t.core.OwnSound env
  tails : ScopeTails.Grounded env P S
    (Sourced env (seen ++ t.applied.map AppliedEntry.entry) t.core) t.core.scopeTails

/-- A write in a scope of `S` that has observed an entry of its scope, if any; or no write. -/
inductive Fits (env : Env) (P : RegisterPolicies) (S : CausalScope → Prop) (K : LogEntry → Prop) :
    Queued env → Prop
  | write (w : RegisterWrite env) (hscope : S w.scope)
      (hobserved : ∀ p, ambient.lastObserved = some p →
        ∃ e, K e ∧ Names (P.deps env w.topic) w.topic w.key w.op.member p e) :
      Fits env P S K (ambient, .append w.item)
  | other (item : QueueItem env) (unscoped : item.Unscoped) : Fits env P S K (ambient, item)

section
variable {env : Env} {P : RegisterPolicies} {S : CausalScope → Prop} {K K' : LogEntry → Prop}
  {seen seen' : List LogEntry} {core core' : Core} {tails : ScopeTails} {t t' : Txn}

theorem Sourced.mono (h : Sourced env seen core e) (hseen : ∀ x ∈ seen, x ∈ seen')
    (hheads : ∀ topic, env.registers topic = true →
      (core.head env (topic, env.writerId)).contigSeq ≤
        (core'.head env (topic, env.writerId)).contigSeq) : Sourced env seen' core' e :=
  ⟨hseen e h.seen, fun hregister hown => (h.own hregister hown).trans (hheads e.topic hregister)⟩

theorem ScopeTails.Grounded.mono (h : tails.Grounded env P S K) (hK : ∀ e, K e → K' e) :
    tails.Grounded env P S K' := by
  intro scope p hp
  obtain ⟨s, hs, hkey, e, he, hnames⟩ := h scope p hp
  exact ⟨s, hs, hkey, e, hK e he, hnames⟩

theorem Fits.mono {q : Queued env} (h : Fits env P S K q) (hK : ∀ e, K e → K' e) :
    Fits env P S K' q := by
  cases h with
  | write w hscope hobserved =>
    apply Fits.write w hscope
    intro p hp
    obtain ⟨e, he, hnames⟩ := hobserved p hp
    exact ⟨e, hK e he, hnames⟩
  | other item unscoped => exact .other item unscoped

/-- A member op carries its member. -/
theorem RegisterOp.memberOp {op : RegisterOp} {m : JsString} (hm : op.member = some m)
    (hkind : e.kind = op.kind) (hpayload : e.payload = op.payload) (d : RegisterDeps) :
    MemberOp d m e := by
  have hkinds : opKind (js "add") = .add ∧ opKind (js "remove") = .remove ∧
      opKind (js "resolve-member") = .resolveMember := by decide
  rw [MemberOp, payloadString, hkind, hpayload]
  cases op with
  | operation op =>
    cases op with
    | add member =>
      obtain rfl : member = m := Option.some.inj hm
      refine ⟨?_, rfl⟩
      rw [RegisterOp.kind, Operation.kind, hkinds.1]
      decide
    | remove member =>
      obtain rfl : member = m := Option.some.inj hm
      refine ⟨?_, rfl⟩
      rw [RegisterOp.kind, Operation.kind, hkinds.2.1]
      decide
    | resolveMember member supersedes present =>
      obtain rfl : member = m := Option.some.inj hm
      refine ⟨?_, rfl⟩
      rw [RegisterOp.kind, Operation.kind, hkinds.2.2]
      decide
    | _ => cases hm
  | _ => cases hm

/-- The entry of a write names its scope. -/
theorem RegisterWrite.names (w : RegisterWrite env) (hlc : Hlc) (causal : Option (WriterId × Nat))
    (L : Stream) (d : RegisterDeps) : Names d w.topic w.key w.op.member
      (env.writerId, L.head.contigSeq + 1) (Local.appendEntry env w.item hlc causal L) :=
  ⟨rfl, rfl, rfl, fun _ hm => RegisterOp.memberOp hm rfl rfl d⟩

/-- The pointer that a write is stamped with names an earlier entry of its scope. -/
theorem MidFlush.stamped (h : MidFlush env P S seen t) (hS : CausalScope.Distinct S)
    {w : RegisterWrite env} (hscope : S w.scope)
    (hobserved : ∀ p, ambient.lastObserved = some p →
      ∃ e, Sourced env (seen ++ t.applied.map AppliedEntry.entry) t.core e ∧
        Names (P.deps env w.topic) w.topic w.key w.op.member p e)
    (hp : ((t.core.scopeTails (unitText w.scope.scopeKey)).orElse fun _ =>
      Ambient.lastObserved ambient) = some p) :
    ∃ e, Sourced env (seen ++ t.applied.map AppliedEntry.entry) t.core e ∧
      Names (P.deps env w.topic) w.topic w.key w.op.member p e := by
  cases htail : t.core.scopeTails (unitText w.scope.scopeKey) with
  | none =>
    rw [htail] at hp
    exact hobserved p hp
  | some tail =>
    rw [htail] at hp
    obtain rfl : tail = p := Option.some.inj hp
    obtain ⟨s, hs, hkey, e, he, hnames⟩ := h.tails _ _ htail
    obtain ⟨htopic, hk, hmember⟩ := hS s w.scope hs hscope (unitText_injective hkey)
    rw [htopic, hk, hmember] at hnames
    exact ⟨e, he, hnames⟩

/-- What the append of a write leaves. -/
theorem MidFlush.write (h : MidFlush env P S seen t) {w : RegisterWrite env}
    (hadmitted : Queued.admitted (ambient, QueueItem.append w.item) t = true)
    (hrun : processQueued env (ambient, .append w.item) t = .ok () t') :
    (t'.core.scopeTails = t.core.scopeTails ∧ (t'.view env).applied = (t.view env).applied) ∨
      ∃ hlc e, e = Local.appendEntry env w.item hlc
          ((t.core.scopeTails (unitText w.scope.scopeKey)).orElse fun _ => ambient.lastObserved)
          (t.core.stream env (w.topic, env.writerId)) ∧
        t'.core.scopeTails = Function.update t.core.scopeTails (unitText w.scope.scopeKey)
          (some (env.writerId, e.seq)) ∧
        (t'.view env).applied = (t.view env).applied ++ [(e, none)] ∧
        (t'.core.head env (w.topic, env.writerId)).contigSeq = e.seq := by
  have hscope : w.item.causalProvider = some (unitText w.scope.scopeKey) := rfl
  have hstamps := processQueued_stamps hscope h.ready ambient
  obtain ⟨-, L, hstamped, hview⟩ := hstamps.of_ok hrun
  generalize t'.core.scopeTails = tails at hstamped ⊢
  cases hstamped with
  | «sealed» hseal =>
    rw [hview]
    exact .inl ⟨rfl, rfl⟩
  | overflow hopen hstamp =>
    rw [hview]
    exact .inl ⟨rfl, rfl⟩
  | @invalid state hlc err hopen hstamp hinvalid =>
    have hclock : stamp t.core.hlcState ambient.now = .ok (state, hlc) := hstamp
    have hhead : (t.core.head env (w.topic, env.writerId)).sealReason = none := hopen
    have hvalid : (validateEntry env (Local.appendEntry env w.item hlc
        ((t.core.scopeTails (unitText w.scope.scopeKey)).orElse fun _ => ambient.lastObserved)
        (t.core.stream env (w.topic, env.writerId)))).isOk = true := by
      simpa [Queued.admitted, RegisterWrite.item, hclock, hhead] using hadmitted
    have hfails : validateEntry env (Local.appendEntry env w.item hlc
        ((t.core.scopeTails (unitText w.scope.scopeKey)).orElse fun _ => ambient.lastObserved)
        (t.core.stream env (w.topic, env.writerId))) = .error err := hinvalid
    rw [hfails] at hvalid
    cases hvalid
  | @appended state hlc hopen hstamp hvalid =>
    refine .inr ⟨hlc, _, rfl, rfl, ?_, ?_⟩
    · rw [hview]
      rfl
    · have hstreams := congrArg (fun v => (View.streams v (w.item.topic, env.writerId)).head) hview
      dsimp only at hstreams
      rw [View.withLocal_streams_self] at hstreams
      exact congrArg WriterRow.contigSeq hstreams

/-- The retirement of a register topic is rejected. -/
theorem processRetireTopic_register (hregister : env.registers topic = true) (ht : Ready env t) :
    Returns (fun _ => True) (processRetireTopic env topic) t fun _ t' =>
      t'.core.stream env = t.core.stream env := by
  obtain ⟨policy, hpolicy, hkind⟩ := Option.any_eq_true _ _ |>.1 hregister
  apply Returns.bind
  apply topicPolicy_spec hpolicy
  rw [if_pos (of_decide_eq_true hkind)]
  apply ht.done_spec
  intro t' _ hview
  exact congrArg View.streams hview

/-- Own streams stay sound, whatever counts are cached. -/
theorem MidFlush.sound_item (h : MidFlush env P S seen t) {q : Queued env}
    (hrun : processQueued env q t = .ok () t') : t'.core.OwnSound env := by
  intro topic hregister
  have hitem := processQueued_spec False True q h.ready False.elim fun _ => trivial
  obtain ⟨-, -, hstep⟩ := hitem.of_ok hrun
  by_cases hretires : ∃ known, q.2 = .retireTopic topic known
  · obtain ⟨known, hq⟩ := hretires
    have hbody : processRetireTopic env topic { t with ambient := q.1 } = .ok () t' := by
      rw [← hrun, processQueued, hq]
      rfl
    have hrejected := processRetireTopic_register hregister
      (t := { t with ambient := q.1 }) ⟨h.ready.coherent⟩
    obtain ⟨-, hsame⟩ := hrejected.of_ok hbody
    rw [hsame]
    exact h.sound topic hregister
  · have hsound := h.sound topic hregister
    have hmoves := ItemStep.moves_at (k := (topic, env.writerId)) hstep (t.core.head_stream env)
      (fun known hq => hretires ⟨known, hq⟩) hsound
    exact hsound.moves hmoves

/-- An item leaves what the next one finds, and forgets nothing. -/
theorem MidFlush.item (h : MidFlush env P S seen t) {q : Queued env}
    (hfits : Fits env P S (Sourced env (seen ++ t.applied.map AppliedEntry.entry) t.core) q)
    (hadmitted : q.admitted t = true) (honward : q.Onward t)
    (hrun : processQueued env q t = .ok () t') : MidFlush env P S seen t' ∧
      ∀ e, Sourced env (seen ++ t.applied.map AppliedEntry.entry) t.core e →
        Sourced env (seen ++ t'.applied.map AppliedEntry.entry) t'.core e := by
  have hitem := processQueued_spec False True q h.ready False.elim fun _ => trivial
  obtain ⟨-, hready, hstep⟩ := hitem.of_ok hrun
  have hentries (t : Txn) :
      (t.view env).applied.map Prod.fst = t.applied.map AppliedEntry.entry := by
    rw [Txn.view, List.map_map]
    rfl
  have hmono (e : LogEntry)
      (he : Sourced env (seen ++ t.applied.map AppliedEntry.entry) t.core e) :
      Sourced env (seen ++ t'.applied.map AppliedEntry.entry) t'.core e := by
    obtain ⟨new, hnew, -⟩ := (hstep.passes (k := ("", ""))).applied (t.core.head_stream env)
    have hgrown : t'.applied.map AppliedEntry.entry =
        t.applied.map AppliedEntry.entry ++ new.map Prod.fst := by
      rw [← hentries, ← hentries, hnew, List.map_append]
    apply he.mono _ (honward t' hrun)
    rw [hgrown, ← List.append_assoc]
    exact fun x => List.mem_append_left _
  refine ⟨⟨hready, h.sound_item hrun, ?_⟩, hmono⟩
  have hkept := h.tails.mono hmono
  cases hfits with
  | other item unscoped =>
    rwa [processQueued_tails (q := (_, item)) unscoped hrun]
  | write w hscope hobserved =>
    rcases h.write hadmitted hrun with ⟨hsame, -⟩ | ⟨hlc, e, he, htails, happlied, hseq⟩
    · rwa [hsame]
    · rw [htails]
      intro scope p hp
      by_cases hkey : scope = unitText w.scope.scopeKey
      · rw [hkey, Function.update_self] at hp
        obtain rfl := Option.some.inj hp
        refine ⟨w.scope, hscope, hkey.symm, e, ⟨?_, ?_⟩, ?_⟩
        · apply List.mem_append_right
          rw [← hentries, happlied, List.map_append]
          exact List.mem_append_right _ List.mem_cons_self
        · intro _ _
          rw [← hseq, he]
          exact Nat.le_refl _
        · rw [he]
          exact w.names ..
      · rw [Function.update_of_ne hkey] at hp
        exact hkept scope p hp

/-- So does a batch. -/
theorem MidFlush.batch {batch : List (Queued env)} (h : MidFlush env P S seen t)
    (hfits : ∀ q ∈ batch,
      Fits env P S (Sourced env (seen ++ t.applied.map AppliedEntry.entry) t.core) q)
    (hadmitted : BatchEvery env (fun q t => q.admitted t = true) batch t)
    (honward : BatchEvery env Queued.Onward batch t)
    (hrun : forM batch (processQueued env) t = .ok () t') : MidFlush env P S seen t' ∧
      ∀ e, Sourced env (seen ++ t.applied.map AppliedEntry.entry) t.core e →
        Sourced env (seen ++ t'.applied.map AppliedEntry.entry) t'.core e := by
  -- the items still to come fit what the ones before have left
  let I (rest : List (Queued env)) (t₁ : Txn) : Prop := (MidFlush env P S seen t₁ ∧
    ∀ e, Sourced env (seen ++ t.applied.map AppliedEntry.entry) t.core e →
      Sourced env (seen ++ t₁.applied.map AppliedEntry.entry) t₁.core e) ∧
    (∀ q ∈ rest, q ∈ batch) ∧ BatchEvery env (fun q t => q.admitted t = true) rest t₁ ∧
    BatchEvery env Queued.Onward rest t₁
  have hstart : I batch t := ⟨⟨h, fun _ he => he⟩, fun _ hq => hq, hadmitted, honward⟩
  have hitem (q : Queued env) (rest : List (Queued env)) (t₁ : Txn) (hI : I (q :: rest) t₁) :
      Runs (processQueued env q) t₁ (fun _ => I rest) fun _ _ => True := by
    obtain ⟨⟨h₁, hmono⟩, hrest, ⟨hq, hadmitted⟩, hon, honward⟩ := hI
    rw [Runs]
    cases hone : processQueued env q t₁ with
    | error => trivial
    | ok _ t₂ =>
      rw [hone] at hadmitted honward
      have hfit := (hfits q (hrest q List.mem_cons_self)).mono hmono
      obtain ⟨h₂, hmono'⟩ := h₁.item hfit hq hon hone
      exact ⟨⟨h₂, fun e he => hmono' e (hmono e he)⟩,
        fun q' hq' => hrest q' (List.mem_cons_of_mem q hq'), hadmitted, honward⟩
  exact ((Runs.forM I hstart hitem).of_ok hrun).1

end

theorem RegisterHub.Grounded.reopen {d : RegisterDeps} {topic : Topic} {h : RegisterHub}
    (hg : RegisterHub.Grounded d K topic h) : RegisterHub.Grounded d K topic h.reopen := by
  refine ⟨?_, hg.base, fun _ he => nomatch he⟩
  rw [RegisterHub.reopen]
  dsimp only
  cases hbase : h.base with
  | none => exact .empty
  | some base => exact hg.base base hbase

/-! What a node keeps. -/

/-- Everything a node remembers of its scopes names entries that it has seen. -/
structure RegisterNode.Rooted {env : Env} (P : RegisterPolicies) (S : CausalScope → Prop)
    (n : RegisterNode env) : Prop where
  coherent : n.core.Coherent env
  sound : n.core.OwnSound env
  rows : ∀ r ∈ n.core.db.sqLog.rows, r.entry ∈ n.seen
  tails : ScopeTails.Grounded env P S (Sourced env n.seen n.core) n.core.scopeTails
  hubs : ∀ topic, (n.hubs topic).Grounded (P.deps env topic) (Sourced env n.seen n.core) topic
  queue : ∀ w, .write w ∈ n.queue → S w.scope

namespace RegisterNode

section
variable {env : Env} {P : RegisterPolicies} {S : CausalScope → Prop} {n : RegisterNode env}
  {o : Outcome} {i : RegisterInput env} {is : List (RegisterInput env)}

theorem Rooted.init : (RegisterNode.init : RegisterNode env).Rooted P S :=
  ⟨Core.coherent_init, fun topic _ => Core.sound_init (topic, env.writerId),
    (fun _ hr => nomatch hr), (fun _ _ hp => nomatch hp), fun _ => .empty, fun _ hw => nomatch hw⟩

/-- What the store holds was seen. -/
theorem Rooted.held (h : n.Rooted P S) (hheld : n.core.db.Holds topic e) :
    Sourced env n.seen n.core e := by
  obtain ⟨-, r, hr, rfl⟩ := hheld
  refine ⟨h.rows r hr, fun hregister hown => ?_⟩
  have hrow : (n.core.stream env r.entry.stream).rows r.entry.seq = some r.entry :=
    Core.row_of_mem env hr
  have hstream : r.entry.stream = (r.entry.topic, env.writerId) := congrArg (Prod.mk _) hown
  rw [hstream] at hrow
  exact (h.sound r.entry.topic hregister).row_le hrow

/-- Operations of the log that take no own stream back. -/
theorem Rooted.after (h : n.Rooted P S) (hcoherent : o.core.Coherent env)
    (hsound : o.core.OwnSound env)
    (hmono : ∀ e, Sourced env n.seen n.core e → Sourced env (n.after o).seen o.core e)
    (htails : ScopeTails.Grounded env P S (Sourced env (n.after o).seen o.core)
      o.core.scopeTails) : (n.after o).Rooted P S := by
  refine ⟨hcoherent, hsound, ?_, htails, fun topic => (h.hubs topic).mono hmono, h.queue⟩
  exact fun r hr => List.mem_append_right _ (List.mem_map_of_mem hr)

/-- Operations that leave the own streams where they are. -/
theorem sourced_after (hheads : ∀ topic, env.registers topic = true →
    (n.core.head env (topic, env.writerId)).contigSeq ≤
      (o.core.head env (topic, env.writerId)).contigSeq)
    (he : Sourced env n.seen n.core e) : Sourced env (n.after o).seen o.core e :=
  he.mono (fun _ hx => List.mem_append_left _ (List.mem_append_left _ hx)) hheads

/-- A queue in the scopes of `S` makes a batch that fits. -/
theorem Rooted.fits (h : n.Rooted P S) (ambient : Nat → Ambient) {queue : List (RegisterItem env)}
    (hqueue : ∀ w, .write w ∈ queue → S w.scope) :
    ∀ q ∈ n.batch ambient queue, Fits env P S (Sourced env n.seen n.core) q := by
  intro q hq
  obtain ⟨i, hi, rfl⟩ := List.mem_mapIdx.1 hq
  cases hitem : queue[i] with
  | write w =>
    apply Fits.write w (hqueue w (hitem ▸ List.getElem_mem hi))
    exact fun p hp => (h.hubs w.topic).keys w.key w.op.member p hp
  | other item unscoped => exact .other item unscoped

theorem Rooted.start (h : n.Rooted P S) (fault : Option Nat) :
    MidFlush env P S n.seen (Txn.start n.core fault) := by
  refine ⟨⟨h.coherent⟩, h.sound, h.tails.mono fun e he => ?_⟩
  exact he.mono (fun x hx => List.mem_append_left _ hx) fun _ _ => Nat.le_refl _

theorem Rooted.flushBody (h : n.Rooted P S) {ambient : Nat → Ambient} {fault : Option Nat}
    (hfine : RegisterInput.Fine S n (.flush ambient fault))
    (hrun : Seqscribe.flushBody env (n.batch ambient n.queue) (Txn.start n.core fault) = .ok () t) :
    MidFlush env P S n.seen t ∧ ∀ e, Sourced env n.seen n.core e →
      Sourced env (n.seen ++ t.applied.map AppliedEntry.entry) t.core e := by
  obtain ⟨hadmitted, honward⟩ := hfine t hrun
  have hstart := h.start fault
  have hsame (e : LogEntry) (he : Sourced env n.seen n.core e) : Sourced env
      (n.seen ++ (Txn.start n.core fault).applied.map AppliedEntry.entry) n.core e :=
    he.mono (fun _ hx => List.mem_append_left [] hx) fun _ _ => Nat.le_refl _
  have hfits (q : Queued env) (hq : q ∈ n.batch ambient n.queue) :=
    (h.fits ambient h.queue q hq).mono hsame
  have hbody : Runs (Seqscribe.flushBody env (n.batch ambient n.queue)) (Txn.start n.core fault)
      (fun _ t => MidFlush env P S n.seen t ∧ ∀ e, Sourced env n.seen n.core e →
        Sourced env (n.seen ++ t.applied.map AppliedEntry.entry) t.core e) fun _ _ => True := by
    rw [flushBody_eq]
    apply Runs.bind
    rw [Runs]
    cases hbatch : forM (n.batch ambient n.queue) (processQueued env) (Txn.start n.core fault) with
    | error => trivial
    | ok _ t₁ =>
      obtain ⟨h₁, hmono⟩ := hstart.batch hfits hadmitted honward hbatch
      apply (finishFlush_runs t₁).mono _ fun _ _ h => h
      rintro _ _ ⟨fault, rfl⟩
      have hclock (e : LogEntry)
          (he : Sourced env (n.seen ++ t₁.applied.map AppliedEntry.entry) t₁.core e) : Sourced env
            (n.seen ++ t₁.applied.map AppliedEntry.entry)
            { t₁.core with db.metaHlc := some t₁.core.hlcState } e :=
        he.mono (fun _ hx => hx) fun _ _ => Nat.le_refl _
      have hready := h₁.ready.of_db (fun db => { db with metaHlc := some t₁.core.hlcState }) rfl rfl
        rfl
      exact ⟨⟨⟨hready.coherent⟩, h₁.sound, h₁.tails.mono hclock⟩,
        fun e he => hclock e (hmono e (hsame e he))⟩
  exact hbody.of_ok hrun

theorem Rooted.flush (h : n.Rooted P S) {ambient : Nat → Ambient} {fault : Option Nat}
    (hfine : RegisterInput.Fine S n (.flush ambient fault)) :
    (n.step P (.flush ambient fault)).Rooted P S := by
  have hafter : (n.after (Seqscribe.flush env (n.batch ambient n.queue) fault n.core)).Rooted P S := by
    obtain ⟨hcoherent, -⟩ := flush_spec False (fun _ _ => True) (n.batch ambient n.queue) fault
      h.coherent False.elim (.of_forall fun _ _ _ => trivial)
    rw [Seqscribe.flush] at hcoherent ⊢
    split at hcoherent
    next hempty =>
      rw [if_pos hempty]
      have hmono (e : LogEntry) (he : Sourced env n.seen n.core e) :=
        sourced_after (o := { core := n.core }) (fun _ _ => Nat.le_refl _) he
      exact h.after hcoherent h.sound hmono (h.tails.mono hmono)
    next hempty =>
      rw [if_neg hempty]
      rw [transaction] at hcoherent ⊢
      cases hrun : Seqscribe.flushBody env (n.batch ambient n.queue) (Txn.start n.core fault) with
      | ok _ t =>
        obtain ⟨hmid, hmono⟩ := h.flushBody hfine hrun
        have hrecord (e : LogEntry)
            (he : Sourced env (n.seen ++ t.applied.map AppliedEntry.entry) t.core e) : Sourced env
              (n.seen ++ t.applied.map AppliedEntry.entry ++ t.core.db.sqLog.rows.map LogRow.entry)
              t.core e :=
          he.mono (fun _ hx => List.mem_append_left _ hx) fun _ _ => Nat.le_refl _
        exact h.after hmid.ready.coherent hmid.sound (fun e he => hrecord e (hmono e he))
          (hmid.tails.mono hrecord)
      | error err t =>
        -- the tails are put back, and no stream has changed
        rw [hrun] at hcoherent
        apply h.after hcoherent h.sound
        · exact fun e he => sourced_after (fun _ _ => Nat.le_refl _) he
        · exact h.tails.mono fun e he => sourced_after (fun _ _ => Nat.le_refl _) he
  exact ⟨hafter.coherent, hafter.sound, hafter.rows, hafter.tails, hafter.hubs,
    fun _ hw => by cases hw⟩

/-- Only flushes change own streams, but for what leaves them and for lost recoveries. -/
theorem Rooted.stays (h : n.Rooted P S) (i : Input env) (hi : ∀ batch fault, i ≠ .flush batch fault) :
    (Seqscribe.step env n.core i).core.Coherent env ∧
      (Seqscribe.step env n.core i).core.OwnSound env ∧
      ∀ topic, env.registers topic = true →
        (n.core.head env (topic, env.writerId)).contigSeq ≤
          ((Seqscribe.step env n.core i).core.head env (topic, env.writerId)).contigSeq := by
  obtain ⟨hcoherent, hstep⟩ := step_spec False (fun _ _ => True) i h.coherent False.elim
    (.of_forall i fun _ _ => trivial)
  let I (v : View) : Prop := ∀ topic, env.registers topic = true →
    (v.streams (topic, env.writerId)).Sound (topic, env.writerId) ∧
      (n.core.head env (topic, env.writerId)).contigSeq ≤
        (v.streams (topic, env.writerId)).head.contigSeq
  have hI : I (n.core.view env) := fun topic hregister => ⟨h.sound topic hregister, Nat.le_refl _⟩
  have hend : I ((Seqscribe.step env n.core i).core.view env) := by
    apply (hstep.preserves False.elim hI _ _ _ _).2
    · intro v v' hsame hv
      dsimp only [I]
      rwa [hsame.1]
    · exact fun batch fault heq => absurd heq (hi batch fault)
    · intro v v' hthin hv topic hregister
      have hmove : (v.streams (topic, env.writerId)).Move env .thin
        (v'.streams (topic, env.writerId)) := .thin _ _ (hthin.streams _)
      refine ⟨(hv topic hregister).1.move hmove, ?_⟩
      rw [(hthin.streams _).head]
      exact (hv topic hregister).2
    · intro v v' _ _ hseek hv topic hregister
      obtain ⟨hsound, hle⟩ := hv topic hregister
      rcases hseek (topic, env.writerId) with heq | heq | heq
      · rw [heq]
        exact ⟨hsound.move (Stream.move_seek env _ _), hle⟩
      · rw [heq]
        exact ⟨hsound, hle⟩
      · rw [heq]
        exact ⟨hsound.move (Stream.move_seek env _ _), hle⟩
  exact ⟨hcoherent, fun topic hregister => (hend topic hregister).1,
    fun topic hregister => (hend topic hregister).2⟩

theorem Rooted.hub (h : n.Rooted P S) (topic : Topic) :
    (n.hub topic).Grounded (P.deps env topic) (Sourced env n.seen n.core) topic :=
  ⟨(h.hubs topic).keys, (h.hubs topic).base, (h.hubs topic).todo⟩

theorem Rooted.withHub (h : n.Rooted P S) {hub : RegisterHub}
    (hhub : hub.Grounded (P.deps env topic) (Sourced env n.seen n.core) topic) :
    (n.withHub topic hub).Rooted P S := by
  refine ⟨h.coherent, h.sound, h.rows, h.tails, fun name => ?_, h.queue⟩
  rw [RegisterNode.withHub]
  dsimp only
  by_cases hname : name = topic
  · subst hname
    rwa [Function.update_self]
  · rw [Function.update_of_ne hname]
    exact h.hubs name

/-- Tails only go. -/
theorem Rooted.shrink (h : n.Rooted P S) (topic : Topic) : (n.shrink topic).Rooted P S := by
  rw [RegisterNode.shrink]
  split
  next e _ =>
    split
    next =>
      have hmono (x : LogEntry) (hx : Sourced env n.seen n.core x) :
          Sourced env n.seen { n.core with
            scopeTails := shrinkTails env.writerId topic e.seq n.core.scopeTails } x :=
        hx.mono (fun _ h => h) fun _ _ => Nat.le_refl _
      refine ⟨⟨h.coherent.heads, h.coherent.certs, h.coherent.floors, h.coherent.exposed,
        h.coherent.covered⟩, h.sound, h.rows, ?_, fun name => (h.hubs name).mono hmono, h.queue⟩
      intro scope p hp
      exact h.tails.mono hmono scope p (Option.filter_eq_some_iff.1 hp).1
    next => exact h
  next => exact h

theorem Rooted.step (h : n.Rooted P S) (hfine : i.Fine S n) : (n.step P i).Rooted P S := by
  have hheld (topic : Topic) (e : LogEntry) (he : (n.hub topic).db.Holds topic e) :
      Sourced env n.seen n.core e := h.held he
  cases i with
  | write topic key op register =>
    refine ⟨h.coherent, h.sound, h.rows, h.tails, h.hubs, fun w hw => ?_⟩
    rcases List.mem_append.1 hw with hw | hw
    · exact h.queue w hw
    · obtain rfl := RegisterItem.write.inj (List.mem_singleton.1 hw)
      exact hfine
  | enqueue item unscoped =>
    refine ⟨h.coherent, h.sound, h.rows, h.tails, h.hubs, fun w hw => ?_⟩
    rcases List.mem_append.1 hw with hw | hw
    · exact h.queue w hw
    · cases List.mem_singleton.1 hw
  | flush ambient fault => exact h.flush hfine
  | start topic => exact h.withHub ((h.hub topic).start (hheld topic))
  | resume topic =>
    have hhub := h.hub topic
    have hresumed : (RegisterHub.step (P.deps env topic) topic (n.hub topic) .resume).Grounded
        (P.deps env topic) (Sourced env n.seen n.core) topic := by
      rw [RegisterHub.step]
      split
      next hr => exact hhub.resume (hheld topic) (.inl hr)
      next hr => exact hhub.resume (hheld topic) (.inr hr)
    apply (h.shrink topic).withHub
    apply hresumed.mono
    intro e he
    rw [RegisterNode.shrink]
    split
    next =>
      split
      next => exact he.mono (fun _ h => h) fun _ _ => Nat.le_refl _
      next => exact he
    next => exact he
  | rebaseAtCut topic ord => exact h.withHub ((h.hub topic).rebaseAtCut (hheld topic) ord)
  | core i hi =>
    have hflush (batch : List (Queued env)) (fault : Option Nat) : i ≠ .flush batch fault := by
      rintro rfl
      cases hi
    obtain ⟨hcoherent, hsound, hheads⟩ := h.stays i hflush
    apply h.after hcoherent hsound fun e he => sourced_after hheads he
    rw [step_tails i hi]
    exact h.tails.mono fun e he => sourced_after hheads he
  | restart =>
    obtain ⟨hcoherent, hsound, hheads⟩ := h.stays .restart (by simp)
    have hafter := h.after hcoherent hsound (fun e he => sourced_after hheads he)
      fun _ _ hp => by cases hp
    exact ⟨hafter.coherent, hafter.sound, hafter.rows, hafter.tails,
      fun topic => (hafter.hubs topic).reopen, fun _ hw => by cases hw⟩

theorem Rooted.run (h : n.Rooted P S) (hfine : n.Fine P S is) : (n.run P is).Rooted P S := by
  induction is generalizing n with
  | nil => exact h
  | cons i is ih => exact ih (h.step hfine.1) hfine.2

/-- A node at the end of a run whose writes are in the scopes of `S` and whose flushes are fine. -/
def Reached (P : RegisterPolicies) (S : CausalScope → Prop) (n : RegisterNode env) : Prop :=
  ∃ is : List (RegisterInput env), RegisterNode.init.Fine P S is ∧ RegisterNode.init.run P is = n

theorem Reached.rooted (h : n.Reached P S) : n.Rooted P S := by
  obtain ⟨is, hfine, rfl⟩ := h
  exact Rooted.init.run hfine

/-- The batch at one of its items. -/
theorem batch_split (n : RegisterNode env) (ambient : Nat → Ambient)
    (before after : List (RegisterItem env)) (p : RegisterItem env) :
    ∃ rest, n.batch ambient (before ++ p :: after) =
      n.batch ambient before ++ n.queued (ambient before.length) p :: rest := by
  refine ⟨after.mapIdx fun i p => n.queued (ambient (i + 1 + before.length)) p, ?_⟩
  rw [batch, List.mapIdx_append, List.mapIdx_cons, Nat.zero_add]
  rfl

end

end RegisterNode

section
variable {env : Env} {P : RegisterPolicies} {S : CausalScope → Prop} {n : RegisterNode env}
  {w : RegisterWrite env} {t t' u : Txn}

/-- The items of a batch up to one of them, and from it on. -/
theorem BatchEvery.split {P : Queued env → Txn → Prop} {before rest : List (Queued env)}
    (h : BatchEvery env P (before ++ rest) t)
    (hbefore : forM before (processQueued env) t = .ok () t') :
    BatchEvery env P before t ∧ BatchEvery env P rest t' := by
  induction before generalizing t with
  | nil =>
    cases hbefore
    exact ⟨trivial, h⟩
  | cons q before ih =>
    obtain ⟨hq, hrest⟩ := h
    rw [List.forM_cons] at hbefore
    change EStateM.bind (processQueued env q) (fun _ => forM before (processQueued env)) t = _
      at hbefore
    rw [EStateM.bind] at hbefore
    cases hone : processQueued env q t with
    | error e t₁ =>
      rw [hone] at hbefore
      cases hbefore
    | ok _ t₁ =>
      rw [hone] at hbefore hrest
      obtain ⟨hbefore', hrest'⟩ := ih hrest hbefore
      refine ⟨⟨hq, ?_⟩, hrest'⟩
      rw [hone]
      exact hbefore'

/-- The causal pointer of a committed write names an entry of its scope that the node had held or
committed before, and never the entry itself. -/
theorem causal_names_earlier (hS : CausalScope.Distinct S) (hn : n.Reached P S)
    (hfine : RegisterInput.Fine S n (.flush ambient fault))
    (hqueue : n.queue = before ++ .write w :: after)
    (hcommit : flushBody env (n.batch ambient n.queue) (Txn.start n.core fault) = .ok () u)
    (hbefore : forM (n.batch ambient before) (processQueued env) (Txn.start n.core fault) =
      .ok () t)
    (hrun : processQueued env (n.queued (ambient before.length) (.write w)) t = .ok () t')
    (happlied : t'.applied = t.applied ++ [a]) (hcausal : a.entry.causal = some p) :
    p ≠ (env.writerId, a.entry.seq) ∧
      ∃ e ∈ n.seen ++ t.applied.map AppliedEntry.entry,
        Names (P.deps env w.topic) w.topic w.key w.op.member p e := by
  have hrooted := hn.rooted
  have hscope : S w.scope := by
    apply hrooted.queue w
    rw [hqueue]
    exact List.mem_append_right _ List.mem_cons_self
  obtain ⟨rest, hsplit⟩ := n.batch_split ambient before after (.write w)
  obtain ⟨hadmitted, honward⟩ := hfine u hcommit
  rw [hqueue, hsplit] at hadmitted honward
  obtain ⟨hadmitted, hadmit, -⟩ := hadmitted.split hbefore
  obtain ⟨honward, -⟩ := honward.split hbefore
  have hsame (e : LogEntry) (he : Sourced env n.seen n.core e) : Sourced env
      (n.seen ++ (Txn.start n.core fault).applied.map AppliedEntry.entry) n.core e :=
    he.mono (fun _ hx => List.mem_append_left [] hx) fun _ _ => Nat.le_refl _
  have hfits (q : Queued env) (hq : q ∈ n.batch ambient before) :=
    (hrooted.fits ambient (fun w' hw' => hrooted.queue w' (by
      rw [hqueue]
      exact List.mem_append_left _ hw')) q hq).mono hsame
  obtain ⟨hmid, hmono⟩ := (hrooted.start fault).batch hfits hadmitted honward hbefore
  have hviews : (t'.view env).applied = (t.view env).applied ++ [(a.entry, a.via)] := by
    rw [Txn.view, happlied, List.map_append]
    rfl
  rcases hmid.write hadmit hrun with ⟨-, hidle⟩ | ⟨hlc, e, he, -, hentry, -⟩
  · have hlength := congrArg List.length (hidle.symm.trans hviews)
    rw [List.length_append] at hlength
    exact absurd hlength (Nat.ne_of_lt (Nat.lt_succ_self _))
  · have hlast := List.append_cancel_left (hviews.symm.trans hentry)
    have ha : a.entry = e := congrArg Prod.fst (List.cons.inj hlast).1
    rw [ha, he] at hcausal ⊢
    have hobserved (p : WriterId × Nat) (hp : n.lastObserved w = some p) :
        ∃ e, Sourced env (n.seen ++ t.applied.map AppliedEntry.entry) t.core e ∧
          Names (P.deps env w.topic) w.topic w.key w.op.member p e := by
      obtain ⟨x, hx, hnames⟩ := (hrooted.hubs w.topic).keys w.key w.op.member p hp
      exact ⟨x, hmono x (hsame x hx), hnames⟩
    obtain ⟨x, hx, hnames⟩ := hmid.stamped hS hscope hobserved hcausal
    refine ⟨?_, x, hx.seen, hnames⟩
    rintro rfl
    obtain ⟨hwriter, hseq⟩ := Prod.mk.inj hnames.id
    have hle := hx.own (hnames.topic ▸ w.register) hwriter
    rw [hseq, hnames.topic] at hle
    exact absurd hle (Nat.not_succ_le_self _)

end

/-- A node that knows one register topic. -/
def registerEnv (bytes : Nat) : Env :=
  { hostEnv "w" with
    constants := { MAX_ENTRY_BYTES := bytes }
    topics := fun T => if T = "t" then some { fullPolicy with kind := .register } else none }

def latestWins : RegisterPolicies := ⟨fun _ _ => .lww, fun _ => false⟩

def setKey (bytes : Nat) (value : JsString) : RegisterInput (registerEnv bytes) :=
  .write "t" (js "k") (.operation (.set (.str value))) rfl

def flushAt (bytes now : Nat) : RegisterInput (registerEnv bytes) :=
  .flush (fun i => { now := now + i }) none

/-- One write that waits. -/
theorem RegisterNode.fine_one {env : Env} {n : RegisterNode env} {w : RegisterWrite env}
    (hcoherent : n.core.Coherent env) (hqueue : n.queue = [.write w])
    (hadmitted : (n.queued (ambient 0) (.write w)).admitted (Txn.start n.core fault) = true) :
    RegisterInput.Fine S n (.flush ambient fault) := by
  intro t _
  rw [hqueue, batch, List.mapIdx_cons, List.mapIdx_nil]
  refine ⟨⟨hadmitted, ?_⟩, Queued.onward_of trivial ⟨hcoherent⟩ _, ?_⟩
  · split <;> trivial
  · split <;> trivial

/-- A key that was written once, and a second write that waits. -/
def writtenTwice : RegisterNode (registerEnv 65536) :=
  RegisterNode.init.run latestWins [setKey 65536 (js "a"), flushAt 65536 1, setKey 65536 (js "b")]

theorem writtenTwice_reached : writtenTwice.Reached latestWins CausalScope.Plain := by
  have hplain : CausalScope.Plain ⟨"t", js "k", none, 0⟩ := ⟨by decide, by decide⟩
  refine ⟨[setKey 65536 (js "a"), flushAt 65536 1, setKey 65536 (js "b")],
    ⟨hplain, ?_, hplain, trivial⟩, rfl⟩
  exact RegisterNode.fine_one Core.coherent_init rfl (by decide +kernel)

/-- The second write of a key names the first one. -/
theorem causal_names_earlier_of_second :
    ∃ a : AppliedEntry, a.entry.causal = some ("w", 1) ∧ ("w", 1) ≠ ("w", a.entry.seq) ∧
      ∃ e ∈ writtenTwice.seen ++ [],
        Names (latestWins.deps (registerEnv 65536) "t") "t" (js "k") none ("w", 1) e := by
  have hreached := writtenTwice_reached
  have hrooted := hreached.rooted
  let w : RegisterWrite (registerEnv 65536) := ⟨"t", js "k", .operation (.set (.str (js "b"))), 0, rfl⟩
  let ambient (i : Nat) : Ambient := { now := 2 + i }
  have hqueue : writtenTwice.queue = [.write w] := rfl
  obtain ⟨hadmitted, hcommit, hpointers⟩ :
      (writtenTwice.queued (ambient 0) (.write w)).admitted (Txn.start writtenTwice.core none) = true ∧
      (endState (flushBody (registerEnv 65536) (writtenTwice.batch ambient [.write w])
        (Txn.start writtenTwice.core none))).isSome = true ∧
      (endState (processQueued (registerEnv 65536) (writtenTwice.queued (ambient 0) (.write w))
        (Txn.start writtenTwice.core none))).map (fun t => t.applied.map fun a => a.entry.causal) =
          some [some ("w", 1)] := by
    decide +kernel
  generalize writtenTwice = n at *
  have hfine : RegisterInput.Fine CausalScope.Plain n (.flush ambient none) :=
    RegisterNode.fine_one hrooted.coherent hqueue hadmitted
  cases hbody : flushBody (registerEnv 65536) (n.batch ambient [.write w]) (Txn.start n.core none) with
  | error e u =>
    rw [hbody] at hcommit
    cases hcommit
  | ok _ u =>
    cases hrun : processQueued (registerEnv 65536) (n.queued (ambient 0) (.write w))
        (Txn.start n.core none) with
    | error e t' =>
      rw [hrun] at hpointers
      cases hpointers
    | ok _ t' =>
      rw [hrun] at hpointers
      obtain ⟨a, happlied, hcausal⟩ := List.map_eq_singleton_iff.1 (Option.some.inj hpointers)
      have hfirst : n.queue = [] ++ .write w :: [] := hqueue
      have hnames := causal_names_earlier CausalScope.distinct_plain hreached hfine hfirst
        (hqueue ▸ hbody) rfl hrun happlied hcausal
      exact ⟨a, hcausal, hnames⟩

/-- An oversize value is rejected, and the next write of the key names itself. -/
theorem causal_names_itself :
    let n := (RegisterNode.init : RegisterNode (registerEnv 400)).run latestWins
      [setKey 400 (List.replicate 300 97), setKey 400 (js "v")]
    let o := flush (registerEnv 400) (n.batch (fun i => { now := i + 1 }) n.queue) none n.core
    o.applied.map (fun a => (a.entry.seq, a.entry.causal)) = [(1, some ("w", 1))] := by
  decide +kernel

end Seqscribe
