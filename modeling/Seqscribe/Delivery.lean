import Mathlib.Tactic.IntervalCases
import Seqscribe.Authored
import Seqscribe.Host
import Seqscribe.Run

namespace Seqscribe
set_option autoImplicit true

variable {env : Env} {k : StreamId} {n : Nat} {A : Nat → LogEntry} {v v' : View} {core : Core}

/-- An external entry that, if it belongs to the stream, is one of the author's. -/
def ExternalOf (k : StreamId) (n : Nat) (A : Nat → LogEntry) (q : Queued env) : Prop :=
  ∃ item : ExternalItem env, q.2 = .external item ∧
    (item.entry.stream = k → ∃ s, 1 ≤ s ∧ s ≤ n ∧ item.entry = A s)

def Delivers (A : Nat → LogEntry) (q : Queued env) (s : Nat) : Prop :=
  ∃ item : ExternalItem env, q.2 = .external item ∧ item.entry = A s

/-- The number of entries that wait for a stream, as the store counts them. -/
def Core.pendingCount (core : Core) (k : StreamId) : Nat :=
  core.db.sqPending.count fun e => e.topic = k.1 ∧ e.writer = k.2

/-- Below the cap before an item. -/
def Roomy (env : Env) (k : StreamId) (_ : Queued env) (v : View) : Prop :=
  (v.streams k).pending.rows.length < env.constants.PENDING_CAP

/-- The stream holds a prefix of the author's chain; what it does not have is still to come. -/
structure View.Delivering (env : Env) (k : StreamId) (n : Nat) (A : Nat → LogEntry)
    (toCome : Nat → Prop) (v : View) : Prop where
  uncertified : v.certs k.1 = none
  authored : (v.streams k).Authored env k n A
  complete : (v.streams k).Complete A
  drained : (v.streams k).pendingAt ((v.streams k).head.contigSeq + 1) = none
  has : ∀ s, 1 ≤ s → s ≤ n → (v.streams k).Has A s ∨ toCome s

theorem View.Delivering.item (hA : AuthorChain env k n A) (hfull : env.isFull k.1)
    (h : v.Delivering env k n A fun s => Delivers A q s ∨ toCome s) (hq : ExternalOf k n A q)
    (hroom : Roomy env k q v) (hstep : ItemStep env True q.2 { v with now := q.1.now } v') :
    v'.Delivering env k n A toCome := by
  obtain ⟨item, hitem, hof⟩ := hq
  obtain ⟨ambient, _⟩ := q
  subst hitem
  obtain rfl := hstep
  by_cases hk : item.entry.stream = k
  · obtain ⟨s, h1, hn, he⟩ := hof hk
    have hcert : v.certs item.entry.topic = none := by
      rw [show item.entry.topic = k.1 from congrArg Prod.fst hk]
      exact h.uncertified
    unfold View.onStream
    rw [hk, hcert, he]
    generalize hL : (View.localAt { v with now := ambient.now } k) = L
    have hstream : v.streams k = L.stream := by rw [← hL]; rfl
    obtain ⟨hcerts, hauth, hcomplete, hdrained, hhas⟩ := h
    rw [Roomy] at hroom
    rw [hstream] at hauth hcomplete hdrained hhas hroom
    generalize hL' : L.ingest env none (A s) item.via ambient.now = L'
    have hauth' : L'.stream.Authored env k n A := hL' ▸ Local.ingest_authored hA hauth h1 hn
    obtain ⟨hkeeps, hnew, hdrained'⟩ := Local.ingest_keeps hA hauth hdrained h1 hn hroom hL'
    refine ⟨hcerts, ?_, ?_, ?_, fun s' h1' hn' => ?_⟩ <;> rw [View.withLocal_streams_self]
    · exact hauth'
    · exact hkeeps.complete hfull hcomplete
    · exact hdrained'
    · rcases hhas s' h1' hn' with hold | ⟨item', hitem', he'⟩ | hcome
      · exact .inl (hkeeps.has s' hold)
      · obtain rfl := QueueItem.external.inj hitem'
        rw [he] at he'
        have hs : s = s' := by rw [← hA.seq h1 hn, he', hA.seq h1' hn']
        exact .inl (hs ▸ hnew)
      · exact .inr hcome
  · have hsame : (View.onStream item.entry.stream
        (Local.ingest env (v.certs item.entry.topic) item.entry item.via ambient.now)
        { v with now := ambient.now }).streams k = v.streams k :=
      View.withLocal_streams_of_ne _ (Ne.symm hk)
    refine ⟨h.uncertified, ?_, ?_, ?_, fun s h1 hn => ?_⟩ <;> rw [hsame]
    · exact h.authored
    · exact h.complete
    · exact h.drained
    · rcases h.has s h1 hn with hold | ⟨item', hitem', he'⟩ | hcome
      · exact .inl hold
      · obtain rfl := QueueItem.external.inj hitem'
        exact absurd ((congrArg LogEntry.stream he').trans (hA.stream h1 hn)) hk
      · exact .inr hcome

theorem BatchSteps.delivering (toCome : Nat → Prop) {batch : List (Queued env)} (hA : AuthorChain env k n A)
    (hfull : env.isFull k.1) (hbatch : ∀ q ∈ batch, ExternalOf k n A q)
    (h : v.Delivering env k n A fun s => (∃ q ∈ batch, Delivers A q s) ∨ toCome s)
    (hsteps : BatchSteps env True (Roomy env k) batch v v') :
    v'.Delivering env k n A toCome := by
  induction batch generalizing v with
  | nil =>
    rw [show v' = v from hsteps]
    exact { h with has := fun s h1 hn => (h.has s h1 hn).imp_right fun hc => hc.resolve_left (by simp) }
  | cons q rest ih =>
    obtain ⟨hroom, v₁, hstep, hrest⟩ := hsteps
    refine ih (fun q' hq' => hbatch q' (List.mem_cons_of_mem _ hq')) ?_ hrest
    refine View.Delivering.item hA hfull { h with has := fun s h1 hn => ?_ }
      (hbatch q List.mem_cons_self) hroom hstep
    refine (h.has s h1 hn).imp_right ?_
    rintro (⟨q', hq', hd⟩ | hcome)
    · rcases List.mem_cons.1 hq' with rfl | hq'
      · exact .inl hd
      · exact .inr (.inl ⟨q', hq', hd⟩)
    · exact .inr (.inr hcome)

/-- Flushes of external entries commit, and bring in what they contain. -/
theorem delivering_of_run {flushes : List (List (Queued env))} (hA : AuthorChain env k n A)
    (hfull : env.isFull k.1) (hcoh : core.Coherent env) (hsound : (core.view env).Sound)
    (hof : ∀ batch ∈ flushes, ∀ q ∈ batch, ExternalOf k n A q)
    (hroom : RunEvery env (fun q t => Roomy env k q (t.view env)) core
      (flushes.map fun batch => .flush batch none))
    (h : (core.view env).Delivering env k n A fun s =>
      ∃ batch ∈ flushes, ∃ q ∈ batch, Delivers A q s) :
    ((runCore env core (flushes.map fun batch => .flush batch none)).view env).Delivering env k n A
      fun _ => False := by
  induction flushes generalizing core with
  | nil => exact { h with has := fun s h1 hn => (h.has s h1 hn).imp_right (by simp) }
  | cons batch rest ih =>
    have hext := hof batch List.mem_cons_self
    have hcounts : CountsExact env batch (Txn.start core none) := .of_forall fun q hq t => by
      obtain ⟨item, hitem, -⟩ := hext q hq
      rw [hitem]
      trivial
    obtain ⟨hcoh', ⟨v, hsteps, hv, -⟩ | ⟨-, -, -, e, -, hfault | happ | hexact⟩⟩ :=
      flush_spec True (Roomy env k) batch none hcoh
        (fun _ => ⟨hsound, hcounts⟩) hroom.1
    · have hsound' : v.Sound := (hsteps.preserves (I := fun _ => True) (fun _ => hsound) trivial
        fun _ _ _ _ _ _ _ _ => trivial).1 trivial
      refine ih hcoh' ?_ (fun b hb => hof b (List.mem_cons_of_mem _ hb)) hroom.2 ?_
      · rw [show (step env core (.flush batch none)).core.view env = v.settled from hv]
        exact hsound'
      · rw [show (step env core (.flush batch none)).core.view env = v.settled from hv]
        have hd := BatchSteps.delivering (fun s => ∃ b ∈ rest, ∃ q ∈ b, Delivers A q s)
          hA hfull hext { h with has := fun s h1 hn => (h.has s h1 hn).imp_right ?_ } hsteps
        · exact ⟨hd.uncertified, hd.authored, hd.complete, hd.drained, hd.has⟩
        · rintro ⟨b, hb, hd⟩
          rcases List.mem_cons.1 hb with rfl | hb
          · exact .inl hd
          · exact .inr ⟨b, hb, hd⟩
    · cases hfault.1
    · obtain ⟨⟨q, hq, hi⟩, -⟩ := happ
      obtain ⟨item, hitem, -⟩ := hext q hq
      rw [hitem] at hi
      cases hi
    · exact absurd trivial hexact.1

/-- A stream that was delivered: its head is the author's last entry, its log the author's chain,
nothing waits and nothing is sealed. -/
structure Core.Delivered (env : Env) (k : StreamId) (n : Nat) (A : Nat → LogEntry) (core : Core) :
    Prop where
  contigSeq : (core.head env k).contigSeq = n
  contigChain : (core.head env k).contigChain = chainAt env k A n
  log : ∀ s, (core.db.sqLog.get (k.1, k.2, s)).map LogRow.entry =
    if 1 ≤ s ∧ s ≤ n then some (A s) else none
  pending : ∀ e ∈ core.db.sqPending.rows, e.stream ≠ k
  isOpen : (core.head env k).sealReason = none

/-- A run of flushes that brings every entry in delivers the stream. -/
theorem delivered_of_run (hA : AuthorChain env k n A) (hfull : env.isFull k.1)
    (flushes : List (List (Queued env)))
    (hof : ∀ batch ∈ flushes, ∀ q ∈ batch, ExternalOf k n A q)
    (hall : ∀ s, 1 ≤ s → s ≤ n → ∃ batch ∈ flushes, ∃ q ∈ batch, Delivers A q s)
    (hcap : RunEvery env (fun _ t => t.core.pendingCount k < env.constants.PENDING_CAP) Core.init
      (flushes.map fun batch => .flush batch none)) :
    (runCore env Core.init (flushes.map fun batch => .flush batch none)).Delivered env k n A := by
  have hinit : (Core.init.view env).Delivering env k n A fun s =>
      ∃ batch ∈ flushes, ∃ q ∈ batch, Delivers A q s :=
    ⟨rfl, ⟨rfl, rfl, Nat.zero_le n, rfl, nofun, nofun⟩,
      ⟨fun s h1 hs => absurd h1 (Nat.not_le_of_lt (Nat.lt_succ_of_le hs)), nofun⟩, rfl,
      fun s h1 hn => .inr (hall s h1 hn)⟩
  have hend := delivering_of_run hA hfull Core.coherent_init Core.sound_init hof hcap hinit
  generalize runCore env Core.init _ = core at hend
  obtain ⟨-, hauth, hcomplete, hdrained, hhas⟩ := hend
  have hhead : ((core.view env).streams k).head = core.head env k := rfl
  have hn : (core.head env k).contigSeq = n := by
    refine Nat.le_antisymm hauth.le (Nat.le_of_not_lt fun hlt => ?_)
    rcases (hhas ((core.head env k).contigSeq + 1) (Nat.succ_pos _) hlt).resolve_right id with h | h
    · exact Nat.not_succ_le_self _ h
    · exact Option.some_ne_none _ (h.symm.trans hdrained)
  refine ⟨hn, hauth.chain.trans (by rw [hhead, hn]), fun s => ?_, fun e he hk => ?_, hauth.isOpen⟩
  · change ((core.view env).streams k).rows s = _
    split
    · next hs => exact hcomplete.rows s hs.1 (hs.2.trans hn.ge)
    · next hs =>
      cases hrow : ((core.view env).streams k).rows s with
      | none => rfl
      | some e =>
        obtain ⟨h1, hle, -⟩ := hauth.rows s e hrow
        exact absurd ⟨h1, hle.trans hauth.le⟩ hs
  · have hmem : e ∈ ((core.view env).streams k).pending.rows :=
      List.mem_filter.2 ⟨he, ofStream_iff.2 ⟨congrArg Prod.fst hk, congrArg Prod.snd hk⟩⟩
    obtain ⟨s, h1, hs, rfl⟩ := hauth.pending e hmem
    have hget : ((core.view env).streams k).pendingAt s = some (A s) := by
      have hget := Table.get_of_mem hmem
      rw [hA.id s h1 hs] at hget
      rw [Stream.pendingAt, hauth.topic, hauth.writer]
      exact hget
    have hlt := hcomplete.ahead s _ hget
    rw [hhead, hn] at hlt
    omega

/-- However an author's chain is permuted, repeated and split into flushes, as long as every entry
comes in and the pending buffer stays below its cap, the stream is delivered. -/
theorem delivery_order_independent (hA : AuthorChain env k n A) (hfull : env.isFull k.1)
    (flushes : List (List (Queued env)))
    (hof : ∀ batch ∈ flushes, ∀ q ∈ batch, ExternalOf k n A q)
    (hall : ∀ s, 1 ≤ s → s ≤ n → ∃ batch ∈ flushes, ∃ q ∈ batch, Delivers A q s)
    (hcap : RunEvery env (fun _ t => t.core.pendingCount k < env.constants.PENDING_CAP) Core.init
      (flushes.map fun batch => .flush batch none)) :
    (runCore env Core.init (flushes.map fun batch => .flush batch none)).Delivered env k n A :=
  delivered_of_run hA hfull flushes hof hall hcap

/-- Two entries of the writer `w`. -/
def twoEntries (s : Nat) : LogEntry :=
  if s = 1 then
    hostEntry "w" 1 1 "k" "2b9b9a7838c39f166c0015237d70501dc4ea31d32bf5c34ee8c0d5d8bdf67e27"
  else hostEntry "w" 2 2 "k" "33219e2f97e466593b7541683f5ca1825c48d9083647f3ef644bf447606e5ec1"

theorem twoEntries_chain : AuthorChain (hostEnv "b") ("t", "w") 2 twoEntries := by
  refine ⟨fun s h1 hs => ?_, fun s hs => ?_, fun s h1 hs => ?_⟩
  · interval_cases s <;> rfl
  · interval_cases s <;> decide +kernel
  · interval_cases s
    decide

/-- The two entries as items: the second one first, and then again after the first. -/
def twoSwapped : List (List (Queued (hostEnv "b"))) :=
  let first := hostExternal "b" "w" 1 1 "k"
    "2b9b9a7838c39f166c0015237d70501dc4ea31d32bf5c34ee8c0d5d8bdf67e27" valid_first
  let second := hostExternal "b" "w" 2 2 "k"
    "33219e2f97e466593b7541683f5ca1825c48d9083647f3ef644bf447606e5ec1" valid_second
  [[({ now := 5 }, second)], [({ now := 6 }, first), ({ now := 6 }, second)]]

theorem twoSwapped_externalOf :
    ∀ batch ∈ twoSwapped, ∀ q ∈ batch, ExternalOf ("t", "w") 2 twoEntries q := by
  intro batch hbatch q hq
  rcases List.mem_cons.1 hbatch with rfl | hbatch
  · rcases List.mem_singleton.1 hq with rfl
    exact ⟨_, rfl, fun _ => ⟨2, by decide, by decide, rfl⟩⟩
  · rcases List.mem_singleton.1 hbatch with rfl
    rcases List.mem_cons.1 hq with rfl | hq
    · exact ⟨_, rfl, fun _ => ⟨1, by decide, by decide, rfl⟩⟩
    · rcases List.mem_singleton.1 hq with rfl
      exact ⟨_, rfl, fun _ => ⟨2, by decide, by decide, rfl⟩⟩

theorem twoSwapped_delivers :
    ∀ s, 1 ≤ s → s ≤ 2 → ∃ batch ∈ twoSwapped, ∃ q ∈ batch, Delivers twoEntries q s := by
  intro s h1 hs
  interval_cases s
  · exact ⟨_, List.mem_cons_of_mem _ List.mem_cons_self, _, List.mem_cons_self, _, rfl, rfl⟩
  · exact ⟨_, List.mem_cons_self, _, List.mem_cons_self, _, rfl, rfl⟩

theorem delivery_of_two_swapped :
    AuthorChain (hostEnv "b") ("t", "w") 2 twoEntries ∧
      (runCore (hostEnv "b") Core.init (twoSwapped.map fun batch => .flush batch none)).Delivered
        (hostEnv "b") ("t", "w") 2 twoEntries :=
  ⟨twoEntries_chain, delivery_order_independent twoEntries_chain rfl twoSwapped
    twoSwapped_externalOf twoSwapped_delivers (by decide +kernel)⟩

end Seqscribe
