import Seqscribe.RegisterConverge

namespace Seqscribe
set_option autoImplicit true

/-! Operations on one key that nodes issue one after the other, each after it has materialized the
earlier ones. -/

/-- What `RegisterHandle` writes to the log. -/
inductive Operation where
  | set (value : JsonValue)
  | del
  | resolve (supersedes : List EntryId) (value : JsonValue)
  | add (member : JsString)
  | remove (member : JsString)
  | resolveMember (member : JsString) (supersedes : List EntryId) (present : Bool)

def idJson (h : EntryId) : JsonValue := .arr [.str (js h.1), .str (js h.2.1), .num h.2.2]

namespace Operation

def kind : Operation → JsString
  | .set _ => js "set"
  | .del => js "del"
  | .resolve _ _ => js "resolve"
  | .add _ => js "add"
  | .remove _ => js "remove"
  | .resolveMember _ _ _ => js "resolve-member"

def payload : Operation → JsonValue
  | .set value => .obj [(js "value", value)]
  | .del => .null
  | .resolve supersedes value =>
    .obj [(js "supersedes", .arr (supersedes.map idJson)), (js "value", value)]
  | .add member | .remove member => .obj [(js "member", .str member)]
  | .resolveMember member supersedes present =>
    .obj [(js "member", .str member), (js "supersedes", .arr (supersedes.map idJson)),
      (js "present", .bool present)]

/-- The fold reads the kind back. -/
theorem opKind_kind (op : Operation) : opKind op.kind = match op with
    | .set _ => .set
    | .del => .del
    | .resolve _ _ => .resolve
    | .add _ => .add
    | .remove _ => .remove
    | .resolveMember _ _ _ => .resolveMember := by
  have hnames : opKind (js "set") = .set ∧ opKind (js "del") = .del ∧
      opKind (js "resolve") = .resolve ∧ opKind (js "add") = .add ∧
      opKind (js "remove") = .remove ∧ opKind (js "resolve-member") = .resolveMember := by
    decide +kernel
  obtain ⟨hset, hdel, hresolve, hadd, hremove, hresolveMember⟩ := hnames
  cases op with
  | set => exact hset
  | del => exact hdel
  | resolve => exact hresolve
  | add => exact hadd
  | remove => exact hremove
  | resolveMember => exact hresolveMember

theorem payload_names : js "supersedes" ≠ js "value" ∧ js "member" ≠ js "supersedes" ∧
    js "member" ≠ js "present" ∧ js "supersedes" ≠ js "present" := by decide +kernel

/-- The member whose scope stamps the causal pointer. -/
def member : Operation → Option JsString
  | .set _ | .del | .resolve _ _ => none
  | .add member | .remove member | .resolveMember member _ _ => some member

def supersedes : Operation → List EntryId
  | .resolve supersedes _ | .resolveMember _ supersedes _ => supersedes
  | .set _ | .del | .add _ | .remove _ => []

end Operation

/-- The causal pointer that `write` stamps. The tail of the node's own writes is empty once they
are materialized. -/
def materializedLastObserved (ks : KeyState) : Option JsString → Option (WriterId × Nat)
  | some member => (ks.member member).map fun ms => (ms.entry.2.1, ms.entry.2.2)
  | none => ks.winner.map fun w => (w.2.1, w.2.2)

/-- `conflicted` in the table of the topic. -/
def KeyState.conflicted (ks : KeyState) : Bool :=
  decide (ks.frontier.length > 1) || ks.members.rows.any fun m => decide (m.2.frontier.length > 1)

/-- One operation of a history: who issues it, with which stamp, and the log when it is folded. -/
structure Issued where
  writer : WriterId
  seq : Nat
  hlc : Hlc
  op : Operation
  log : Lookup

structure History where
  ks : KeyState
  events : List FoldEvent
  top : Option Order

def History.empty : History := ⟨.fresh, [], none⟩

section
variable (d : RegisterDeps) (topic : Topic) (key : Key)

def Issued.entry (ks : KeyState) (i : Issued) : LogEntry where
  topic := topic
  writer := i.writer
  seq := i.seq
  hlc := i.hlc
  kind := i.op.kind
  key := some key
  causal := materializedLastObserved ks i.op.member
  ref := none
  payload := i.op.payload
  chain := ""

def History.issue (H : History) (i : Issued) : History :=
  let e := i.entry topic key H.ks
  match foldKey d i.log H.ks key e with
  | .ok (ks, events) => ⟨ks, H.events ++ events, some (orderOf e)⟩
  | .error ks => ⟨ks, H.events, some (orderOf e)⟩

/-- The stamp is later than the earlier ones, whose clocks the node has merged; an owned key is
written by its owner; a key-level operation finds no head but the winner, or names it; and a
`resolve` finds no member set. -/
structure Clear (H : History) (i : Issued) : Prop where
  later : ∀ o ∈ H.top, o < orderOf (i.entry topic key H.ks)
  owned : d.conflictPolicyFor key = .owned → ownedWriteAllowed H.ks (i.entry topic key H.ks) = true
  heads : i.op.member = none → ∀ h ∈ H.ks.frontier,
    H.ks.winner = some h ∨ ∃ s ∈ i.op.supersedes, sameIdJson h (idJson s) = true
  scalar : ∀ supersedes value, i.op = .resolve supersedes value → H.ks.scalar = true

/-- Every operation is clear when it is issued. -/
def Sequential : History → List Issued → Prop
  | _, [] => True
  | H, i :: is => Clear d topic key H i ∧ Sequential (H.issue d topic key i) is

end

/-- The effect of an operation is what the key state shows. -/
def Materialized (ks : KeyState) (id : EntryId) : Operation → Prop
  | .set value | .resolve _ value =>
    ks.scalar = true ∧ ks.value = some value ∧ ks.winner = some id
  | .del => ks.value = none ∧ ks.members.rows = [] ∧ ks.winner = some id
  | .add member =>
    ks.scalar = false ∧ ∃ ms, ks.member member = some ms ∧ ms.present = true ∧ ms.entry = id
  | .remove member =>
    ks.scalar = false ∧ ∃ ms, ks.member member = some ms ∧ ms.present = false ∧ ms.entry = id
  | .resolveMember member _ present =>
    ∃ ms, ks.member member = some ms ∧ ms.present = present ∧ ms.entry = id

/-- What holds between the operations. -/
structure Uncontested (H : History) : Prop where
  quiet : H.events = []
  frontier : H.ks.frontier.length ≤ 1
  members : ∀ m ∈ H.ks.members.rows, m.2.frontier = [m.2.entry]
  winner : ∀ o ∈ H.ks.winnerOrder, ∃ t ∈ H.top, o ≤ t
  orders : ∀ m ∈ H.ks.members.rows, ∃ t ∈ H.top, m.2.order ≤ t

section
variable {d : RegisterDeps} {topic : Topic} {key : Key}

theorem isAncestor_direct {e : LogEntry} {w : EntryId} (hc : e.causal = some (w.2.1, w.2.2))
    (lookup : Lookup) : isAncestor lookup w e = true := by
  rw [isAncestor, ANCESTOR_WALK_CAP, ancestorWalk, hc]
  simp

/-- A write whose causal pointer is the only head takes its place. -/
theorem foldKeyWrite_clear {ks : KeyState} {e : LogEntry} {lookup : Lookup}
    (hcausal : e.causal = ks.winner.map fun w => (w.2.1, w.2.2))
    (hheads : ∀ h ∈ ks.frontier, ks.winner = some h)
    (hlater : ∀ o ∈ ks.winnerOrder, o < orderOf e) (policy : ConflictPolicy)
    (value : Option JsonValue) (isDel : Bool) :
    foldKeyWrite lookup ks key e policy value isDel =
      ({ ks with
        frontier := [e.id]
        winner := some e.id
        winnerOrder := some (orderOf e)
        value := if isDel then none else value.orElse fun _ => ks.value }, []) := by
  have hanc : ∀ w, ks.winner = some w → isAncestor lookup w e = true := by
    intro w hw
    apply isAncestor_direct
    rw [hcausal, hw]
    rfl
  have hfrontier : newFrontier lookup ks.frontier e = [e.id] := by
    have hnil : (ks.frontier.filter fun h => !isAncestor lookup h e && !decide (h = e.id)) = [] := by
      rw [List.filter_eq_nil_iff]
      intro h hh
      rw [hanc h (hheads h hh)]
      simp
    rw [newFrontier, hnil]
    rfl
  have hafter : ∀ o, ks.winnerOrder = some o → orderCompare (orderOf e) o > 0 := by
    intro o ho
    have hlt := hlater o ho
    by_contra hle
    exact absurd (orderCompare_le_zero.1 (not_lt.1 hle)) (not_le.2 hlt)
  unfold foldKeyWrite
  simp only [hfrontier]
  cases hw : ks.winner with
  | none => simp
  | some w =>
    cases ho : ks.winnerOrder with
    | none => simp
    | some o => simp [hanc w hw, hafter o ho]

theorem applySupersedes_heads {ids : List JsonValue} {frontier superseded : List EntryId}
    (hone : frontier.length ≤ 1)
    (hr : applySupersedes frontier superseded ids = .ok (frontier', superseded')) :
    ∀ h ∈ frontier', h ∈ frontier ∧ ∀ s ∈ ids, sameIdJson h s = false := by
  induction ids generalizing frontier superseded with
  | nil =>
    cases hr
    exact fun h hh => ⟨hh, by simp⟩
  | cons s ids ih =>
    rw [applySupersedes] at hr
    split at hr
    · cases hr
    · split at hr
      · next idx hidx =>
        have hlt := (List.findIdx?_eq_some_iff_findIdx_eq.1 hidx).1
        intro h hh
        have hlen : (frontier.eraseIdx idx).length ≤ 1 := by
          rw [List.length_eraseIdx_of_lt hlt]
          omega
        have hnil : frontier.eraseIdx idx = [] := by
          rw [← List.length_eq_zero_iff, List.length_eraseIdx_of_lt hlt]
          omega
        have hin := (ih hlen hr h hh).1
        rw [hnil] at hin
        cases hin
      · next hnone =>
        intro h hh
        obtain ⟨hin, hids⟩ := ih hone hr h hh
        refine ⟨hin, fun s' hs' => ?_⟩
        rcases List.mem_cons.1 hs' with rfl | hs'
        · exact List.findIdx?_eq_none_iff.1 hnone h hin
        · exact hids s' hs'

/-- The same for a member, whose head is its latest operation. -/
theorem foldMemberOp_clear (lookup : Lookup) (key : Key) {ks : KeyState} {e : LogEntry}
    {member : JsString}
    (hcausal : e.causal = materializedLastObserved ks (some member))
    (hheads : ∀ ms, ks.member member = some ms → ∀ h ∈ ms.frontier, h = ms.entry)
    (horder : ∀ ms, ks.member member = some ms → ms.order < orderOf e)
    (hwinner : ∀ o ∈ ks.winnerOrder, o < orderOf e) (policy : ConflictPolicy) (present : Bool) :
    ∃ ms, ms.present = present ∧ ms.entry = e.id ∧ ms.order = orderOf e ∧ ms.frontier = [e.id] ∧
      foldMemberOp lookup ks key e policy member present =
        (({ ks with winner := some e.id, winnerOrder := some (orderOf e) } : KeyState).setMember
          member ms, []) := by
  have hafter : ∀ o, o < orderOf e → orderCompare (orderOf e) o > 0 := by
    intro o hlt
    by_contra hle
    exact absurd (orderCompare_le_zero.1 (not_lt.1 hle)) (not_le.2 hlt)
  have hall : (ks.winnerOrder.all fun o => decide (orderCompare (orderOf e) o > 0)) = true := by
    cases ho : ks.winnerOrder with
    | none => rfl
    | some o => simpa using hafter o (hwinner o ho)
  unfold foldMemberOp
  simp only [hall, if_true]
  have hsame : KeyState.member { ks with winner := some e.id, winnerOrder := some (orderOf e) }
      member = ks.member member := rfl
  rw [hsame]
  cases hm : ks.member member with
  | none => exact ⟨⟨present, e.id, orderOf e, [e.id], []⟩, rfl, rfl, rfl, rfl, rfl⟩
  | some ms =>
    have hanc : isAncestor lookup ms.entry e = true := by
      apply isAncestor_direct
      rw [hcausal, materializedLastObserved, hm]
      rfl
    have hfrontier : newFrontier lookup ms.frontier e = [e.id] := by
      have hnil : (ms.frontier.filter fun h =>
          !isAncestor lookup h e && !decide (h = e.id)) = [] := by
        rw [List.filter_eq_nil_iff]
        intro h hh
        rw [hheads ms hm h hh, hanc]
        simp
      rw [newFrontier, hnil]
      rfl
    refine ⟨⟨present, e.id, orderOf e, [e.id], ms.superseded⟩, rfl, rfl, rfl, rfl, ?_⟩
    simp [hfrontier, hanc, hafter ms.order (horder ms hm)]

/-- What one clear operation leaves behind. -/
structure Leaves (H : History) (e : LogEntry) (op : Operation) (ks : KeyState) : Prop where
  frontier : ks.frontier.length ≤ 1
  members : ∀ m ∈ ks.members.rows, m ∈ H.ks.members.rows ∨
    m.2.frontier = [m.2.entry] ∧ m.2.order = orderOf e
  winner : ks.winnerOrder = some (orderOf e)
  effect : Materialized ks e.id op

theorem Uncontested.le {H : History} (hu : Uncontested H) {i : Issued}
    (hc : Clear d topic key H i) :
    (∀ o ∈ H.ks.winnerOrder, o < orderOf (i.entry topic key H.ks)) ∧
      ∀ m ∈ H.ks.members.rows, m.2.order < orderOf (i.entry topic key H.ks) := by
  constructor
  · intro o ho
    obtain ⟨t, ht, hle⟩ := hu.winner o ho
    exact lt_of_le_of_lt hle (hc.later t ht)
  · intro m hm
    obtain ⟨t, ht, hle⟩ := hu.orders m hm
    exact lt_of_le_of_lt hle (hc.later t ht)

theorem Uncontested.next {H : History} (hu : Uncontested H) {i : Issued}
    (hc : Clear d topic key H i) {ks : KeyState}
    (hf : foldKey d i.log H.ks key (i.entry topic key H.ks) = .ok (ks, []))
    (hl : Leaves H (i.entry topic key H.ks) i.op ks) :
    Uncontested (H.issue d topic key i) ∧
      Materialized (H.issue d topic key i).ks (topic, i.writer, i.seq) i.op := by
  have hissue : H.issue d topic key i =
      ⟨ks, H.events ++ [], some (orderOf (i.entry topic key H.ks))⟩ := by
    rw [History.issue, hf]
  rw [hissue]
  refine ⟨⟨?_, hl.frontier, ?_, ?_, ?_⟩, hl.effect⟩
  · rw [List.append_nil]
    exact hu.quiet
  · intro m hm
    rcases hl.members m hm with hold | ⟨hnew, -⟩
    · exact hu.members m hold
    · exact hnew
  · intro o ho
    rw [hl.winner] at ho
    exact ⟨_, rfl, le_of_eq (Option.some.inj ho).symm⟩
  · intro m hm
    rcases hl.members m hm with hold | ⟨-, hnew⟩
    · exact ⟨_, rfl, le_of_lt ((hu.le hc).2 m hold)⟩
    · exact ⟨_, rfl, le_of_eq hnew⟩

theorem Clear.allowed {H : History} {i : Issued} (hc : Clear d topic key H i) :
    ¬ (d.conflictPolicyFor key = .owned ∧
      ¬ ownedWriteAllowed H.ks (i.entry topic key H.ks) = true) :=
  fun hn => hn.2 (hc.owned hn.1)

theorem Clear.heads_winner {H : History} {i : Issued} (hc : Clear d topic key H i)
    (hmember : i.op.member = none) (hnone : i.op.supersedes = []) :
    ∀ h ∈ H.ks.frontier, H.ks.winner = some h := by
  intro h hh
  rcases hc.heads hmember h hh with hw | ⟨s, hs, -⟩
  · exact hw
  · rw [hnone] at hs
    cases hs

/-- A key-level write over a state with the same head and no new members. -/
theorem write_leaves {H : History} (hu : Uncontested H) {i : Issued} (hc : Clear d topic key H i)
    (hmember : i.op.member = none) (ks : KeyState) (hwinner : ks.winner = H.ks.winner)
    (horder : ks.winnerOrder = H.ks.winnerOrder) (hheads : ∀ h ∈ ks.frontier, ks.winner = some h)
    (hrows : ∀ m ∈ ks.members.rows, m ∈ H.ks.members.rows) (policy : ConflictPolicy)
    (value : Option JsonValue) (isDel : Bool)
    (heffect : ∀ owner, Materialized { ks with
      frontier := [(i.entry topic key H.ks).id]
      winner := some (i.entry topic key H.ks).id
      winnerOrder := some (orderOf (i.entry topic key H.ks))
      value := if isDel then none else value.orElse fun _ => ks.value
      owner := owner } (i.entry topic key H.ks).id i.op) :
    ∃ ks', foldKeyWrite i.log ks key (i.entry topic key H.ks) policy value isDel = (ks', []) ∧
      ∀ owner, Leaves H (i.entry topic key H.ks) i.op { ks' with owner := owner } := by
  have hcausal : (i.entry topic key H.ks).causal = ks.winner.map fun w => (w.2.1, w.2.2) := by
    rw [hwinner, Issued.entry, hmember]
    rfl
  have hlater : ∀ o ∈ ks.winnerOrder, o < orderOf (i.entry topic key H.ks) := by
    rw [horder]
    exact (hu.le hc).1
  refine ⟨_, foldKeyWrite_clear hcausal hheads hlater policy value isDel, fun owner => ?_⟩
  exact ⟨le_refl _, fun m hm => .inl (hrows m hm), rfl, heffect owner⟩

theorem set_clear {H : History} (hu : Uncontested H) {i : Issued} (hop : i.op = .set value)
    (hc : Clear d topic key H i) :
    ∃ ks, foldKey d i.log H.ks key (i.entry topic key H.ks) = .ok (ks, []) ∧
      Leaves H (i.entry topic key H.ks) i.op ks := by
  have hkind : opKind (i.entry topic key H.ks).kind = .set := by
    rw [Issued.entry, hop]
    exact Operation.opKind_kind (.set value)
  have hvalue : (i.entry topic key H.ks).payload.member "value" = some value := by
    rw [Issued.entry, hop]
    simp [Operation.payload, JsonValue.member]
  have hmember : i.op.member = none := by rw [hop]; rfl
  have hheads := hc.heads_winner hmember (by rw [hop]; rfl)
  have href : (i.entry topic key H.ks).ref = none := rfl
  have hwrite : ∃ ks', foldKeyWrite i.log (if H.ks.scalar then H.ks else H.ks.reset) key
      (i.entry topic key H.ks) (d.conflictPolicyFor key) (some value) false = (ks', []) ∧
      ∀ owner, Leaves H (i.entry topic key H.ks) i.op { ks' with owner := owner } := by
    split
    · next hscalar =>
      apply write_leaves hu hc hmember H.ks rfl rfl hheads fun m hm => hm
      intro owner
      rw [hop]
      exact ⟨hscalar, rfl, rfl⟩
    · apply write_leaves hu hc hmember H.ks.reset rfl rfl hheads fun m hm => by cases hm
      intro owner
      rw [hop]
      exact ⟨rfl, rfl, rfl⟩
  obtain ⟨ks', hw, hleaves⟩ := hwrite
  obtain ⟨owner, howner⟩ := claimOwner_eq ks' (i.entry topic key H.ks) (d.conflictPolicyFor key)
  refine ⟨_, ?_, hleaves owner⟩
  simp only [foldKey, hkind, foldSet, if_neg hc.allowed, hvalue, href, hw, howner]

theorem del_clear {H : History} (hu : Uncontested H) {i : Issued} (hop : i.op = .del)
    (hc : Clear d topic key H i) :
    ∃ ks, foldKey d i.log H.ks key (i.entry topic key H.ks) = .ok (ks, []) ∧
      Leaves H (i.entry topic key H.ks) i.op ks := by
  have hkind : opKind (i.entry topic key H.ks).kind = .del := by
    rw [Issued.entry, hop]
    exact Operation.opKind_kind .del
  have hmember : i.op.member = none := by rw [hop]; rfl
  have hheads := hc.heads_winner hmember (by rw [hop]; rfl)
  obtain ⟨ks', hw, hleaves⟩ := write_leaves hu hc hmember H.ks.reset rfl rfl hheads
    (fun m hm => by cases hm) (d.conflictPolicyFor key) none true (by
      intro owner
      rw [hop]
      exact ⟨rfl, rfl, rfl⟩)
  obtain ⟨owner, howner⟩ := claimOwner_eq ks' (i.entry topic key H.ks) (d.conflictPolicyFor key)
  refine ⟨_, ?_, hleaves owner⟩
  simp only [foldKey, hkind, foldDel, if_neg hc.allowed, hw, howner]

/-- The ids of an operation are taken, and the heads that they name go. -/
theorem supersedes_clear (ids : List EntryId) {frontier : List EntryId}
    (hone : frontier.length ≤ 1) (superseded : List EntryId) :
    ∃ frontier' superseded', applySupersedes frontier superseded (ids.map idJson) =
      .ok (frontier', superseded') ∧
      ∀ h ∈ frontier', h ∈ frontier ∧ ∀ s ∈ ids, sameIdJson h (idJson s) = false := by
  have hnull : ∀ s ∈ ids.map idJson, s.isNull = false := by
    intro s hs
    obtain ⟨h, -, rfl⟩ := List.mem_map.1 hs
    rfl
  obtain ⟨⟨frontier', superseded'⟩, hr⟩ := applySupersedes_ok hnull frontier superseded
  refine ⟨frontier', superseded', hr, fun h hh => ?_⟩
  obtain ⟨hin, hids⟩ := applySupersedes_heads hone hr h hh
  exact ⟨hin, fun s hs => hids _ (List.mem_map.2 ⟨s, hs, rfl⟩)⟩

theorem resolve_clear {H : History} (hu : Uncontested H) {i : Issued}
    (hop : i.op = .resolve ids value) (hc : Clear d topic key H i) :
    ∃ ks, foldKey d i.log H.ks key (i.entry topic key H.ks) = .ok (ks, []) ∧
      Leaves H (i.entry topic key H.ks) i.op ks := by
  have hkind : opKind (i.entry topic key H.ks).kind = .resolve := by
    rw [Issued.entry, hop]
    exact Operation.opKind_kind (.resolve ids value)
  have hne := Operation.payload_names.1
  have hvalue : (i.entry topic key H.ks).payload.member "value" = some value := by
    rw [Issued.entry, hop]
    simp [Operation.payload, JsonValue.member, hne]
  have hids : payloadSupersedes (i.entry topic key H.ks) = some (ids.map idJson) := by
    rw [payloadSupersedes, Issued.entry, hop]
    simp [Operation.payload, JsonValue.member, JsonValue.orElse, JsonValue.iterate]
  have hmember : i.op.member = none := by rw [hop]; rfl
  obtain ⟨frontier, superseded, hr, hleft⟩ := supersedes_clear ids hu.frontier H.ks.superseded
  have hheads : ∀ h ∈ frontier, H.ks.winner = some h := by
    intro h hh
    obtain ⟨hin, hnot⟩ := hleft h hh
    rcases hc.heads hmember h hin with hw | ⟨s, hs, hsame⟩
    · exact hw
    · rw [hop] at hs
      rw [hnot s hs] at hsame
      cases hsame
  obtain ⟨ks', hw, hleaves⟩ := write_leaves hu hc hmember
    { H.ks with frontier := frontier, superseded := superseded } rfl rfl
    hheads (fun m hm => hm) (d.conflictPolicyFor key) (some value) false (by
      intro owner
      rw [hop]
      exact ⟨hc.scalar ids value hop, rfl, rfl⟩)
  refine ⟨_, ?_, hleaves ks'.owner⟩
  simp only [foldKey, hkind, foldResolve, hids, hr, hvalue, hw]

/-- An operation on a member over a state whose member is as the operation has seen it. -/
theorem member_leaves {H : History} (hu : Uncontested H) {i : Issued}
    (hc : Clear d topic key H i) (hmember : i.op.member = some member) (ks : KeyState)
    (horder : ks.winnerOrder = H.ks.winnerOrder) (hfrontier : ks.frontier = H.ks.frontier)
    (hentry : (ks.member member).map MemberState.entry =
      (H.ks.member member).map MemberState.entry)
    (hheads : ∀ ms, ks.member member = some ms →
      (∀ h ∈ ms.frontier, h = ms.entry) ∧ ms.order < orderOf (i.entry topic key H.ks))
    (hrows : ∀ m ∈ ks.members.rows, m ∈ H.ks.members.rows ∨ m.1 = member)
    (policy : ConflictPolicy) (present : Bool)
    (heffect : ∀ ks' : KeyState, ks'.scalar = ks.scalar → (∃ ms, ks'.member member = some ms ∧
      ms.present = present ∧ ms.entry = (i.entry topic key H.ks).id) →
        Materialized ks' (i.entry topic key H.ks).id i.op) :
    ∃ ks', foldMemberOp i.log ks key (i.entry topic key H.ks) policy member present = (ks', []) ∧
      ∀ owner, Leaves H (i.entry topic key H.ks) i.op { ks' with owner := owner } := by
  have hcausal : (i.entry topic key H.ks).causal = materializedLastObserved ks (some member) := by
    have hobserved : ∀ ks : KeyState, materializedLastObserved ks (some member) =
        ((ks.member member).map MemberState.entry).map fun id => (id.2.1, id.2.2) := by
      intro ks
      rw [materializedLastObserved, Option.map_map]
      rfl
    rw [Issued.entry, hmember, hobserved, hobserved, hentry]
  have hwinner : ∀ o ∈ ks.winnerOrder, o < orderOf (i.entry topic key H.ks) := by
    rw [horder]
    exact (hu.le hc).1
  obtain ⟨ms, hpresent, hid, hord, hfront, hfold⟩ := foldMemberOp_clear i.log key
    hcausal (fun ms hm => (hheads ms hm).1) (fun ms hm => (hheads ms hm).2)
    hwinner policy present
  refine ⟨_, hfold, fun owner => ⟨?_, ?_, rfl, ?_⟩⟩
  · exact hfrontier ▸ hu.frontier
  · intro m hm
    by_cases hkey : m.1 = member
    · right
      have hget := Table.get_of_mem hm
      rw [hkey] at hget
      have hms := member_setMember { ks with
        winner := some (i.entry topic key H.ks).id
        winnerOrder := some (orderOf (i.entry topic key H.ks)) } member ms
      obtain ⟨m', hm', heq⟩ := Option.map_eq_some_iff.1 hms
      have hsame : m' = m := Option.some.inj (hm'.symm.trans hget)
      rw [← hsame, heq, hfront, hid, hord]
      exact ⟨rfl, rfl⟩
    · left
      rcases mem_setMember hm with rfl | hold
      · exact absurd rfl hkey
      · exact (hrows m hold).resolve_right hkey
  · have hset := member_setMember { ks with
      winner := some (i.entry topic key H.ks).id
      winnerOrder := some (orderOf (i.entry topic key H.ks)) } member ms
    refine heffect _ ?_ ⟨ms, hset, hpresent, hid⟩
    rfl

theorem Uncontested.of_member {H : History} (hu : Uncontested H) {i : Issued}
    (hc : Clear d topic key H i) {ms : MemberState} (hm : H.ks.member member = some ms) :
    (∀ h ∈ ms.frontier, h = ms.entry) ∧ ms.order < orderOf (i.entry topic key H.ks) := by
  have hmem := mem_of_member hm
  refine ⟨fun h hh => ?_, (hu.le hc).2 _ hmem⟩
  rw [hu.members _ hmem] at hh
  exact List.mem_singleton.1 hh

/-- `add` and `remove`. -/
theorem foldMember_clear {H : History} (hu : Uncontested H) {i : Issued}
    (hc : Clear d topic key H i) (hmember : i.op.member = some member) (present : Bool)
    (hpayload : payloadString d (i.entry topic key H.ks) "member" = some member)
    (heffect : ∀ ks' : KeyState, ks'.scalar = false → (∃ ms, ks'.member member = some ms ∧
      ms.present = present ∧ ms.entry = (i.entry topic key H.ks).id) →
        Materialized ks' (i.entry topic key H.ks).id i.op) :
    ∃ ks, foldMember d i.log H.ks key (i.entry topic key H.ks) (d.conflictPolicyFor key) present =
        .ok (ks, []) ∧ Leaves H (i.entry topic key H.ks) i.op ks := by
  obtain ⟨hord, hfront, hmembers, hscalar⟩ : H.ks.mirror.winnerOrder = H.ks.winnerOrder ∧
      H.ks.mirror.frontier = H.ks.frontier ∧ H.ks.mirror.members = H.ks.members ∧
      H.ks.mirror.scalar = false := by
    unfold KeyState.mirror
    split <;> exact ⟨rfl, rfl, rfl, rfl⟩
  have hsame : H.ks.mirror.member member = H.ks.member member := by
    rw [KeyState.member, KeyState.member, hmembers]
  obtain ⟨ks', hfold, hleaves⟩ := member_leaves hu hc hmember H.ks.mirror hord hfront
    (by rw [hsame]) (fun ms hm => hu.of_member hc (hsame ▸ hm)) (fun m hm => .inl (hmembers ▸ hm))
    (d.conflictPolicyFor key) present fun ks' hs => heffect ks' (hs.trans hscalar)
  obtain ⟨owner, howner⟩ := claimOwner_eq ks' (i.entry topic key H.ks) (d.conflictPolicyFor key)
  refine ⟨_, ?_, hleaves owner⟩
  simp only [foldMember, if_neg hc.allowed, hpayload, hfold, howner]

theorem add_clear {H : History} (hu : Uncontested H) {i : Issued} (hop : i.op = .add member)
    (hc : Clear d topic key H i) :
    ∃ ks, foldKey d i.log H.ks key (i.entry topic key H.ks) = .ok (ks, []) ∧
      Leaves H (i.entry topic key H.ks) i.op ks := by
  have hkind : opKind (i.entry topic key H.ks).kind = .add := by
    rw [Issued.entry, hop]
    exact Operation.opKind_kind (.add member)
  have hpayload : payloadString d (i.entry topic key H.ks) "member" = some member := by
    rw [payloadString, Issued.entry, hop]
    simp [Operation.payload, JsonValue.member, JsonValue.orElse, JsonValue.toJsString]
  obtain ⟨ks, hfold, hleaves⟩ := foldMember_clear hu hc (by rw [hop]; rfl) true hpayload (by
    rw [hop]
    exact fun ks' hs hm => ⟨hs, hm⟩)
  refine ⟨ks, ?_, hleaves⟩
  simp only [foldKey, hkind, hfold]

theorem remove_clear {H : History} (hu : Uncontested H) {i : Issued} (hop : i.op = .remove member)
    (hc : Clear d topic key H i) :
    ∃ ks, foldKey d i.log H.ks key (i.entry topic key H.ks) = .ok (ks, []) ∧
      Leaves H (i.entry topic key H.ks) i.op ks := by
  have hkind : opKind (i.entry topic key H.ks).kind = .remove := by
    rw [Issued.entry, hop]
    exact Operation.opKind_kind (.remove member)
  have hpayload : payloadString d (i.entry topic key H.ks) "member" = some member := by
    rw [payloadString, Issued.entry, hop]
    simp [Operation.payload, JsonValue.member, JsonValue.orElse, JsonValue.toJsString]
  obtain ⟨ks, hfold, hleaves⟩ := foldMember_clear hu hc (by rw [hop]; rfl) false hpayload (by
    rw [hop]
    exact fun ks' hs hm => ⟨hs, hm⟩)
  refine ⟨ks, ?_, hleaves⟩
  simp only [foldKey, hkind, hfold]

theorem resolveMember_clear {H : History} (hu : Uncontested H) {i : Issued}
    (hop : i.op = .resolveMember member ids present) (hc : Clear d topic key H i) :
    ∃ ks, foldKey d i.log H.ks key (i.entry topic key H.ks) = .ok (ks, []) ∧
      Leaves H (i.entry topic key H.ks) i.op ks := by
  have hkind : opKind (i.entry topic key H.ks).kind = .resolveMember := by
    rw [Issued.entry, hop]
    exact Operation.opKind_kind (.resolveMember member ids present)
  obtain ⟨hne₁, hne₂, hne₃⟩ := Operation.payload_names.2
  have hpayload : payloadString d (i.entry topic key H.ks) "member" = some member := by
    rw [payloadString, Issued.entry, hop]
    simp [Operation.payload, JsonValue.member, JsonValue.orElse, JsonValue.toJsString]
  have hids : payloadSupersedes (i.entry topic key H.ks) = some (ids.map idJson) := by
    rw [payloadSupersedes, Issued.entry, hop]
    simp [Operation.payload, JsonValue.member, JsonValue.orElse, JsonValue.iterate, hne₁]
  have hpresent : JsonValue.truthy ((i.entry topic key H.ks).payload.member "present") =
      present := by
    rw [Issued.entry, hop]
    simp [Operation.payload, JsonValue.member, JsonValue.truthy, hne₂, hne₃]
  have hmember : i.op.member = some member := by rw [hop]; rfl
  have heffect : ∀ ks' : KeyState, (∃ ms, ks'.member member = some ms ∧
      ms.present = present ∧ ms.entry = (i.entry topic key H.ks).id) →
        Materialized ks' (i.entry topic key H.ks).id i.op := by
    rw [hop]
    exact fun ks' hm => hm
  cases hms : H.ks.member member with
  | none =>
    obtain ⟨ks', hfold, hleaves⟩ := member_leaves hu hc hmember H.ks rfl rfl rfl
      (fun ms hm => hu.of_member hc hm) (fun m hm => .inl hm) (d.conflictPolicyFor key) present
      fun ks' _ => heffect ks'
    refine ⟨_, ?_, hleaves ks'.owner⟩
    simp only [foldKey, hkind, foldResolveMember, hpayload, hpresent, hms, hfold]
  | some ms =>
    have hold := hu.of_member hc hms
    have hone : ms.frontier.length ≤ 1 := by
      rw [hu.members _ (mem_of_member hms)]
      exact le_refl _
    obtain ⟨frontier, superseded, hr, hleft⟩ := supersedes_clear ids hone ms.superseded
    have hset := member_setMember H.ks member
      { ms with frontier := frontier, superseded := superseded }
    obtain ⟨ks', hfold, hleaves⟩ := member_leaves hu hc hmember (H.ks.setMember member
      { ms with frontier := frontier, superseded := superseded }) rfl rfl
      (by rw [hset, hms]; rfl) (by
        intro ms' hm'
        rw [hset] at hm'
        obtain rfl := Option.some.inj hm'
        exact ⟨fun h hh => hold.1 h (hleft h hh).1, hold.2⟩)
      (fun m hm => (mem_setMember hm).symm.imp id fun h => by rw [h])
      (d.conflictPolicyFor key) present fun ks' _ => heffect ks'
    refine ⟨_, ?_, hleaves ks'.owner⟩
    simp only [foldKey, hkind, foldResolveMember, hpayload, hpresent, hms, hids, hr, hfold]

/-- One clear operation. -/
theorem Uncontested.issue {H : History} (hu : Uncontested H) {i : Issued}
    (hc : Clear d topic key H i) :
    Uncontested (H.issue d topic key i) ∧
      Materialized (H.issue d topic key i).ks (topic, i.writer, i.seq) i.op := by
  have hclear : ∃ ks, foldKey d i.log H.ks key (i.entry topic key H.ks) = .ok (ks, []) ∧
      Leaves H (i.entry topic key H.ks) i.op ks := by
    cases hop : i.op with
    | set value => exact hop ▸ set_clear hu hop hc
    | del => exact hop ▸ del_clear hu hop hc
    | resolve ids value => exact hop ▸ resolve_clear hu hop hc
    | add member => exact hop ▸ add_clear hu hop hc
    | remove member => exact hop ▸ remove_clear hu hop hc
    | resolveMember member ids present => exact hop ▸ resolveMember_clear hu hop hc
  obtain ⟨ks, hf, hl⟩ := hclear
  exact hu.next hc hf hl

theorem Uncontested.run {H : History} (hu : Uncontested H) {is : List Issued}
    (hseq : Sequential d topic key H is) :
    Uncontested (is.foldl (History.issue d topic key) H) ∧ ∀ last ∈ is.getLast?,
      Materialized (is.foldl (History.issue d topic key) H).ks (topic, last.writer, last.seq)
        last.op := by
  induction is generalizing H with
  | nil => exact ⟨hu, fun _ h => by cases h⟩
  | cons i is ih =>
    obtain ⟨hu', heffect⟩ := hu.issue hseq.1
    obtain ⟨hrun, hlast⟩ := ih hu' hseq.2
    refine ⟨hrun, fun last hl => ?_⟩
    cases is with
    | nil =>
      obtain rfl : i = last := by simpa using hl
      exact heffect
    | cons j js => exact hlast last (by simpa [List.getLast?_cons_cons] using hl)

theorem Uncontested.empty : Uncontested .empty where
  quiet := rfl
  frontier := Nat.zero_le _
  members := fun m hm => by cases hm
  winner := fun o ho => by cases ho
  orders := fun m hm => by cases hm

end

/-- Two writers overwrite each other's value, and then the key holds a set. -/
def overwrites : List Issued :=
  [⟨"a", 1, ⟨1, 0⟩, .set (.str (js "x")), fun _ _ => none⟩,
    ⟨"b", 1, ⟨2, 0⟩, .set (.str (js "y")), fun _ _ => none⟩,
    ⟨"a", 2, ⟨3, 0⟩, .add (js "m"), fun _ _ => none⟩]

/-- A member operation is the winner that the next `set` points to; the `set` before it is not on
the chain. -/
def memberBetweenSets : List Issued :=
  [⟨"a", 1, ⟨1, 0⟩, .set (.str (js "x")), fun _ _ => none⟩,
    ⟨"a", 2, ⟨2, 0⟩, .add (js "m"), fun _ _ => none⟩,
    ⟨"a", 3, ⟨3, 0⟩, .set (.str (js "y")), fun writer seq =>
      if writer = "a" ∧ seq = 2 then
        some (Issued.entry "t" (js "k") .fresh
          ⟨"a", 2, ⟨2, 0⟩, .add (js "m"), fun _ _ => none⟩)
      else none⟩]

end Seqscribe
