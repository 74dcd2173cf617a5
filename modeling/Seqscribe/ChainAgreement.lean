import Seqscribe.AuthorClock
import Seqscribe.EntryValidity
import Seqscribe.HaveShape
import Seqscribe.Integrity
import Seqscribe.JsonRead

namespace Seqscribe
set_option autoImplicit true

/-! Nodes with the same head of a stream hold the same entries. -/

section
variable {env env' : Env} {e e' : LogEntry} {prev prev' : Chain} (num : NumberSyntax)

/-! Canonical JSON keeps the promises that the chain rests on. -/

theorem textBytes_member {num : NumberText} {members : List (JsString × JsonValue)}
    (hm : m ∈ members) : textBytes num m.2 ≤ textBytes num (.obj members) := by
  have hle : textBytes num m.2 + 1 ≤ ((memberBytes num members).map (· + 1)).sum := by
    induction members with
    | nil => cases hm
    | cons m' members ih =>
      rw [memberBytes, List.map_cons, List.sum_cons]
      rcases List.mem_cons.1 hm with rfl | hm
      · omega
      · have hrest := ih hm
        omega
  rw [textBytes, bracketed]
  omega

theorem canonicalizes_canonicalText {num : NumberText} (hjcs : env.jcs = canonicalText num)
    (e : LogEntry) : Canonicalizes env e := by
  have hbytes : ∀ v, utf8ByteLength (env.jcs v) = textBytes num v := by
    intro v
    rw [hjcs]
    exact (canonicalText_bytes num v).2
  constructor
  · intro v _
    rw [hjcs]
    exact wellFormed_canonicalText num v
  · intro members hobj m hm
    rw [hbytes, hbytes, hobj]
    exact textBytes_member hm
  · rw [hbytes]
    exact bytes_le_quote e.kind

/-- An entry that passed the validator and whose payload has numbers of the language. -/
structure LogEntry.Sane (env : Env) (num : NumberSyntax) (e : LogEntry) : Prop where
  valid : validateEntry env e = .ok e
  numbers : e.payload.Numbers num

theorem LogEntry.Sane.hashed {num : NumberSyntax} (h : e.Sane env num) :
    ∀ v ∈ e.hashed, v.Numbers num := by
  obtain ⟨_, hcheck, -⟩ := Except.bind_eq_ok h.valid
  iterate 9 obtain ⟨_, -, hcheck⟩ := Except.bind_eq_ok hcheck
  obtain ⟨_, hcausal, hcheck⟩ := Except.bind_eq_ok hcheck
  obtain ⟨_, href, hcheck⟩ := Except.bind_eq_ok hcheck
  have hnat : ∀ {n : Nat} {name : String} {u : Unit}, assertNonNegSafeInt n name = .ok u →
      JsonValue.Numbers num (.num n) := fun hn => num.safe (_ : Nat) (ensure_ok hn)
  intro v hv
  rw [LogEntry.hashed, List.mem_append, List.mem_append, List.mem_singleton] at hv
  rcases hv with (hv | hv) | rfl
  · obtain ⟨c, hc, rfl⟩ := Option.map_eq_some_iff.1 (Option.mem_toList.1 hv)
    obtain ⟨_, -, hseq⟩ := Except.bind_eq_ok (ifPresent_eq_ok.1 hcausal c hc)
    exact ⟨trivial, hnat hseq, trivial⟩
  · obtain ⟨r, hr, rfl⟩ := Option.map_eq_some_iff.1 (Option.mem_toList.1 hv)
    obtain ⟨_, -, hrest⟩ := Except.bind_eq_ok (ifPresent_eq_ok.1 href r hr)
    obtain ⟨_, -, hseq⟩ := Except.bind_eq_ok hrest
    exact ⟨trivial, trivial, hnat hseq, trivial⟩
  · exact h.numbers

theorem chain_small (h : CHAIN_RE c = true) : utf8ByteLength (js c) < 2 ^ 32 := by
  rw [CHAIN_RE, matchesAll, Bool.and_eq_true, decide_eq_true_eq] at h
  have hunits := length_js_le c
  have hbytes := utf8ByteLength_le (js c)
  omega

theorem chain_of_valid (h : validateEntry env e = .ok e') : CHAIN_RE e.chain = true := by
  obtain ⟨_, hcheck, -⟩ := Except.bind_eq_ok h
  iterate 11 obtain ⟨_, -, hcheck⟩ := Except.bind_eq_ok hcheck
  obtain ⟨_, hchain, -⟩ := Except.bind_eq_ok hcheck
  exact ensure_ok hchain

/-- Two entries that the hash or UTF-8 makes look alike. -/
inductive Confused (env : Env) (prev prev' : Chain) (e e' : LogEntry) : Prop
  | collide (h : Collide env (chainPreimage env prev e) (chainPreimage env prev' e'))
  | blurred (h : e.Blurred env e')

/-- Equal chains come from equal entries on equal chains, or from entries that look alike. -/
theorem agrees_of_chain {num : NumberSyntax} (hchains : env.SameChains env')
    (hjcs : env.jcs = canonicalText num.toNumberText)
    (hsize : env.constants.MAX_ENTRY_BYTES < 2 ^ 32) (hsize' : env'.constants.MAX_ENTRY_BYTES < 2 ^ 32)
    (he : e.Sane env num) (he' : e'.Sane env' num)
    (hprev : prev = prev' ∨ CHAIN_RE prev = true ∧ CHAIN_RE prev' = true)
    (h : chainOf env prev e = chainOf env' prev' e') :
    prev = prev' ∧ e.Agrees e' ∨ Confused env prev prev' e e' := by
  rw [hchains.chainOf_eq, chainOf_eq, chainOf_eq] at h
  by_cases hsame : chainPreimage env prev e = chainPreimage env prev' e'
  · have hsmall : ∀ s ∈ chainParts env e, utf8ByteLength s < 2 ^ 32 :=
      chainParts_small hsize (canonicalizes_canonicalText hjcs e)
        (checked_of_valid (by rw [he.valid]; rfl))
    have hsmall' : ∀ s ∈ chainParts env e', utf8ByteLength s < 2 ^ 32 := by
      have hparts : chainParts env' e' = chainParts env e' := by
        rw [chainParts, chainParts, hchains.jcs]
      rw [← hparts]
      exact chainParts_small hsize' (canonicalizes_canonicalText (hchains.jcs.trans hjcs) e')
        (checked_of_valid (by rw [he'.valid]; rfl))
    have hinj : ∀ v ∈ e.hashed, ∀ v' ∈ e'.hashed, env.jcs v = env.jcs v' → v.sorted = v'.sorted := by
      intro v hv v' hv' htext
      rw [hjcs] at htext
      exact (canonicalText_inj num (he.hashed v hv) (he'.hashed v' hv')).1 htext
    have hframes : prev = prev' ∧ (chainParts env e).map utf8 = (chainParts env e').map utf8 := by
      rcases hprev with rfl | ⟨hc, hc'⟩
      · exact ⟨rfl, utf8_chainParts hsmall hsmall' hsame⟩
      · have hlength : (js prev :: chainParts env e).length =
            (js prev' :: chainParts env e').length := rfl
        obtain ⟨hprev, hparts⟩ := List.cons.inj (flatMap_frame_inj hlength
          (List.forall_mem_cons.2 ⟨chain_small hc, hsmall⟩)
          (List.forall_mem_cons.2 ⟨chain_small hc', hsmall'⟩) hsame)
        exact ⟨utf8_js_inj hprev, hparts⟩
    rcases agrees_or_blurred hinj (canonicalizes_canonicalText hjcs e)
      (canonicalizes_canonicalText hjcs e') hframes.2 with hagrees | hblurred
    · exact .inl ⟨hframes.1, hagrees⟩
    · exact .inr (.blurred hblurred)
  · exact .inr (.collide ⟨hsame, h⟩)

end

/-! Streams with one head. -/

section
variable {env env' : Env} {S S' : Stream} {num : NumberSyntax}

/-- Every row from a position up to the head is there. -/
def Stream.HoldsFrom (s : Nat) (S : Stream) : Prop :=
  ∀ q, s ≤ q → q ≤ S.head.contigSeq → (S.rows q).isSome = true

/-- A row hashes onto the chain that is held before it. -/
theorem Stream.Intact.chained (h : S.Intact env) (hrow : S.rows q = some e)
    (hprev : S.chainHeldAt env (q - 1) = some prev) : chainOf env prev e = e.chain := by
  cases q with
  | zero => cases h.zero.symm.trans hrow
  | succ q =>
    rw [Nat.add_sub_cancel, Stream.chainHeldAt] at hprev
    split at hprev
    · next hzero =>
      subst hzero
      cases hprev
      exact h.first e hrow
    · obtain ⟨p, hp, rfl⟩ := Option.map_eq_some_iff.1 hprev
      exact h.linked q p e hp hrow

/-- What the two streams have at a position looks alike and is not the same. -/
def ConfusedAt (env env' : Env) (S S' : Stream) (q : Nat) : Prop :=
  ∃ e e' prev prev', S.rows q = some e ∧ S'.rows q = some e' ∧
    S.chainHeldAt env (q - 1) = some prev ∧ S'.chainHeldAt env' (q - 1) = some prev' ∧
      Confused env prev prev' e e'

/-- Two intact streams of one id whose entries are sane. -/
structure Comparable (env env' : Env) (num : NumberSyntax) (S S' : Stream) : Prop where
  chains : env.SameChains env'
  jcs : env.jcs = canonicalText num.toNumberText
  size : env.constants.MAX_ENTRY_BYTES < 2 ^ 32
  size' : env'.constants.MAX_ENTRY_BYTES < 2 ^ 32
  id : S.head.stream = S'.head.stream
  intact : S.Intact env
  intact' : S'.Intact env'
  sane : S.Stores (LogEntry.Sane env num)
  sane' : S'.Stores (LogEntry.Sane env' num)

namespace Comparable

theorem chainHeldAt (h : Comparable env env' num S S') (hprev : S.chainHeldAt env q = some prev)
    (hprev' : S'.chainHeldAt env' q = some prev') :
    prev = prev' ∨ CHAIN_RE prev = true ∧ CHAIN_RE prev' = true := by
  rw [Stream.chainHeldAt] at hprev hprev'
  split at hprev
  · next hzero =>
    rw [if_pos hzero] at hprev'
    left
    have htopic : S.head.topic = S'.head.topic := congrArg Prod.fst h.id
    have hwriter : S.head.writer = S'.head.writer := congrArg Prod.snd h.id
    have hseed : seedOf env S.head.topic S.head.writer = seedOf env' S'.head.topic S'.head.writer := by
      rw [seedOf, seedOf, h.chains.sha256Hex, htopic, hwriter]
    exact ((Option.some.inj hprev).symm.trans hseed).trans (Option.some.inj hprev')
  · next hpos =>
    rw [if_neg hpos] at hprev'
    obtain ⟨p, hp, rfl⟩ := Option.map_eq_some_iff.1 hprev
    obtain ⟨p', hp', rfl⟩ := Option.map_eq_some_iff.1 hprev'
    exact .inr ⟨chain_of_valid (h.sane.rows q p hp).valid, chain_of_valid (h.sane'.rows q p' hp').valid⟩

/-- Rows with one chain agree, and so do the chains before them. -/
theorem step (h : Comparable env env' num S S') (hrow : S.rows q = some e)
    (hrow' : S'.rows q = some e') (hprev : S.chainHeldAt env (q - 1) = some prev)
    (hprev' : S'.chainHeldAt env' (q - 1) = some prev') (hchain : e.chain = e'.chain)
    (hclear : ¬ ConfusedAt env env' S S' q) : prev = prev' ∧ e.Agrees e' := by
  have heq : chainOf env prev e = chainOf env' prev' e' :=
    ((h.intact.chained hrow hprev).trans hchain).trans (h.intact'.chained hrow' hprev').symm
  rcases agrees_of_chain h.chains h.jcs h.size h.size' (h.sane.rows q e hrow)
    (h.sane'.rows q e' hrow') (h.chainHeldAt hprev hprev') heq with hagrees | hconfused
  · exact hagrees
  · exact absurd ⟨e, e', prev, prev', hrow, hrow', hprev, hprev', hconfused⟩ hclear

variable (h : Comparable env env' num S S') (hseq : S.head.contigSeq = S'.head.contigSeq)
  (hchain : S.head.contigChain = S'.head.contigChain) (hheld : S.HoldsFrom s) (hheld' : S'.HoldsFrom s)
  (hclear : ∀ q, s ≤ q → ¬ ConfusedAt env env' S S' q)

include h hseq hchain hheld hheld' hclear

/-- From the head down, the chains are the same. -/
theorem same_chain (d : Nat) : ∀ q, q + d = S.head.contigSeq → s ≤ q → ∀ e e',
    S.rows q = some e → S'.rows q = some e' → e.chain = e'.chain := by
  induction d with
  | zero =>
    intro q hq _ e e' hrow hrow'
    rw [Nat.add_zero] at hq
    rw [hq] at hrow hrow'
    rw [h.intact.top e hrow, hchain]
    rw [hseq] at hrow'
    exact (h.intact'.top e' hrow').symm
  | succ d ih =>
    intro q hq hs p p' hp hp'
    obtain ⟨e, hrow⟩ := Option.isSome_iff_exists.1 (hheld (q + 1) (by omega) (by omega))
    obtain ⟨e', hrow'⟩ := Option.isSome_iff_exists.1 (hheld' (q + 1) (by omega) (by omega))
    have hnext := ih (q + 1) (by omega) (by omega) e e' hrow hrow'
    have hpos : q ≠ 0 := by
      rintro rfl
      cases h.intact.zero.symm.trans hp
    have hprev : S.chainHeldAt env (q + 1 - 1) = some p.chain := by
      rw [Nat.add_sub_cancel, Stream.chainHeldAt, if_neg hpos, hp]
      rfl
    have hprev' : S'.chainHeldAt env' (q + 1 - 1) = some p'.chain := by
      rw [Nat.add_sub_cancel, Stream.chainHeldAt, if_neg hpos, hp']
      rfl
    exact (h.step hrow hrow' hprev hprev' hnext (hclear (q + 1) (by omega))).1

theorem agree (hq : s < q ∨ q = 1) (hle : s ≤ q) (htop : q ≤ S.head.contigSeq)
    (hrow : S.rows q = some e) (hrow' : S'.rows q = some e') : e.Agrees e' := by
  have hsame := h.same_chain hseq hchain hheld hheld' hclear (S.head.contigSeq - q) q (by omega)
    hle e e' hrow hrow'
  have hprev : ∃ prev prev', S.chainHeldAt env (q - 1) = some prev ∧
      S'.chainHeldAt env' (q - 1) = some prev' := by
    by_cases hone : q = 1
    · subst hone
      exact ⟨_, _, rfl, rfl⟩
    · have hpos : q - 1 ≠ 0 := by
        intro hzero
        have : q = 0 := by omega
        subst this
        cases h.intact.zero.symm.trans hrow
      obtain ⟨p, hp⟩ := Option.isSome_iff_exists.1 (hheld (q - 1) (by omega) (by omega))
      obtain ⟨p', hp'⟩ := Option.isSome_iff_exists.1 (hheld' (q - 1) (by omega) (by omega))
      refine ⟨p.chain, p'.chain, ?_, ?_⟩
      · rw [Stream.chainHeldAt, if_neg hpos, hp]
        rfl
      · rw [Stream.chainHeldAt, if_neg hpos, hp']
        rfl
  obtain ⟨prev, prev', hprev, hprev'⟩ := hprev
  exact (h.step hrow hrow' hprev hprev' hsame (hclear q hle)).2

end Comparable

end

/-! Nodes. -/

/-- The payloads that an item brings have numbers of the language. -/
def QueueItem.Numbers (num : NumberSyntax) (item : QueueItem env) : Prop :=
  match item with
  | .append item => item.payload.Numbers num
  | .external item => item.entry.payload.Numbers num
  | _ => True

theorem QueueItem.Numbers.brings {num : NumberSyntax} {item : QueueItem env}
    (h : item.Numbers num) : item.Brings (LogEntry.Sane env num) := by
  cases item with
  | append item =>
    intro hlc causal S hvalid
    exact ⟨validateEntry_self hvalid, h⟩
  | external item => exact ⟨item.valid, h⟩
  | _ => trivial

def Input.Numbers (num : NumberSyntax) (i : Input env) : Prop :=
  match i with
  | .flush batch _ => ∀ q ∈ batch, q.2.Numbers num
  | _ => True

theorem sane_of_run {num : NumberSyntax} {is : List (Input env)} (h : ∀ i ∈ is, i.Numbers num) :
    ((runCore env Core.init is).view env).Stores (LogEntry.Sane env num) := by
  apply stores_of_run
  apply RunEvery.of_forall
  intro batch fault hi q hq _
  exact QueueItem.Numbers.brings (h _ hi q hq)

def writtenEntry : LogEntry :=
  hostEntry "w" 1 1 "k" "2b9b9a7838c39f166c0015237d70501dc4ea31d32bf5c34ee8c0d5d8bdf67e27"

theorem valid_written : (validateEntry (decimalEnv "b") writtenEntry).isOk = true := by
  decide +kernel

/-- The author's own append. -/
def authorRun : List (Input (decimalEnv "w")) :=
  [.flush [({ now := 1 }, .append { topic := "t", kind := js "k", payload := .null, known := rfl })]
    none]

/-- The entry reaches another node. -/
def replicaRun : List (Input (decimalEnv "b")) :=
  [.flush [({ now := 5 }, .external
    { entry := writtenEntry, via := none, valid := validateEntry_self valid_written, known := rfl })]
    none]

end Seqscribe
