import Seqscribe.HavePages

/-- A row that replaces another stands in its place. -/
theorem Table.rows_upsert_split {κ ρ : Type} {key : ρ → κ} [DecidableEq κ] {T : Table κ ρ key}
    {r r₀ : ρ} (h : T.get (key r) = some r₀) :
    ∃ before after, T.rows = before ++ r₀ :: after ∧
      (T.upsert r).rows = before ++ r :: after := by
  obtain ⟨hin, hkey⟩ := Table.get_eq_some_iff.1 h
  obtain ⟨before, after, hrows⟩ := List.append_of_mem hin
  have hnodup := T.nodup
  rw [hrows, List.map_append, List.map_cons, List.nodup_append, List.nodup_cons] at hnodup
  obtain ⟨-, ⟨hafter, -⟩, hbefore⟩ := hnodup
  have hsame : ∀ rows : List ρ, (∀ r' ∈ rows, key r' ≠ key r) →
      (rows.map fun r' => if key r' = key r then r else r') = rows := by
    intro rows hrows
    apply (List.map_congr_left _).trans (List.map_id _)
    exact fun r' hr' => if_neg (hrows r' hr')
  refine ⟨before, after, hrows, ?_⟩
  rw [Table.rows_upsert_of_get_ne_none (by rw [h]; exact Option.some_ne_none _), hrows,
    List.map_append, List.map_cons, if_pos hkey, hsame before, hsame after]
  · intro r' hr' heq
    exact hafter (hkey ▸ heq ▸ List.mem_map_of_mem hr')
  · intro r' hr' heq
    exact hbefore _ (List.mem_map_of_mem hr') _ List.mem_cons_self (heq.trans hkey.symm)

namespace Seqscribe
set_option autoImplicit true

/-! What the decoder of HAVE pages accepts. -/

section
variable (t : String)

def vInt (v : Int) (name : String) : Except SeqscribeError Unit :=
  ensure (-(MAX_SAFE_INTEGER : Int) ≤ v ∧ v ≤ MAX_SAFE_INTEGER) .ERR_ENTRY_ENCODING
    s!"{t}: {name} must be a safe integer"

def vNonNeg (v : Nat) (name : String) : Except SeqscribeError Unit :=
  ensure (v ≤ MAX_SAFE_INTEGER) .ERR_ENTRY_ENCODING
    s!"{t}: {name} must be a non-negative safe integer"

def vPos (v : Nat) (name : String) : Except SeqscribeError Unit :=
  ensure (1 ≤ v ∧ v ≤ MAX_SAFE_INTEGER) .ERR_ENTRY_ENCODING
    s!"{t}: {name} must be a positive safe integer"

def vTopic (v name : String) : Except SeqscribeError Unit :=
  ensure (TOPIC_RE v) .ERR_ENTRY_ENCODING s!"{t}: {name} is not a valid topic"

def vWriter (v name : String) : Except SeqscribeError Unit :=
  ensure (WRITER_RE v) .ERR_ENTRY_ENCODING s!"{t}: {name} is not a valid writer id"

def vChain (v name : String) : Except SeqscribeError Unit :=
  ensure (CHAIN_RE v) .ERR_ENTRY_ENCODING s!"{t}: {name} is not a 64-hex hash"

/-- The keys of a record map. -/
def vMap (keys : List String) (name : String) : Except SeqscribeError Unit :=
  ensure (RESERVED_NAME ∉ keys) .ERR_ENTRY_ENCODING s!"{t}: {name} key __proto__ forbidden"

def vHaveWriter (w : WriterVec) (name : String) : Except SeqscribeError Unit :=
  match w with
  | .retired v => do
    vNonNeg t v.finalSeq s!"{name}.finalSeq"
    vChain t v.finalChain s!"{name}.finalChain"
    vNonNeg t v.rgen s!"{name}.rgen"
  | .live v => do
    vNonNeg t v.contig s!"{name}.contig"
    vChain t v.chain s!"{name}.chain"
    ifPresent (fun rgen => vNonNeg t rgen s!"{name}.rgen") v.rgen

def vHaveTopic (v : TopicVec) : Except SeqscribeError Unit := do
  vTopic t v.topic "vectors key"
  ifPresent (fun fgen => vNonNeg t fgen s!"vectors[{v.topic}].fgen") v.fgen
  vMap t (v.writers.rows.map Prod.fst) s!"vectors[{v.topic}].writers"
  v.writers.rows.forM fun w => do
    vWriter t w.1 s!"vectors[{v.topic}] writer key"
    vHaveWriter t w.2 s!"vectors[{v.topic}].writers[{w.1}]"

end

/-- The HAVE case of `validateShape`. -/
def validateHave (m : MsgHave) : Except SeqscribeError Unit := do
  vInt "HAVE" m.req "req"
  vPos "HAVE" m.of "of"
  vPos "HAVE" m.page "page"
  ensure (m.page ≤ m.of) .ERR_ENTRY_ENCODING "HAVE: page exceeds of"
  vMap "HAVE" (m.vectors.rows.map TopicVec.topic) "vectors"
  m.vectors.rows.forM (vHaveTopic "HAVE")

def serializeHave (constants : Constants) (m : MsgHave) : Except SeqscribeError JsString := do
  ensure (m.bytes ≤ constants.MAX_FRAME_BYTES) .ERR_ENTRY_ENCODING
    "frame exceeds MAX_FRAME_BYTES (HAVE)"
  return stringify m.json

/-- `parseMsg` of the text of a page; `JSON.parse` gives the page back. -/
def parseHave (constants : Constants) (m : MsgHave) : Except SeqscribeError MsgHave := do
  ensure (m.bytes ≤ constants.MAX_FRAME_BYTES) .ERR_ENTRY_ENCODING "frame exceeds MAX_FRAME_BYTES"
  validateHave m
  return m

/-! The checks as one condition. -/

theorem ensure_eq_ok {p : Prop} [Decidable p] : ensure p code message = .ok () ↔ p :=
  ⟨ensure_ok, fun h => if_pos h⟩

theorem forM_eq_ok {f : α → Except ε Unit} {xs : List α} :
    xs.forM f = .ok () ↔ ∀ x ∈ xs, f x = .ok () := by
  induction xs with
  | nil => exact iff_of_true rfl fun _ h => nomatch h
  | cons x xs ih =>
    have hcons : (x :: xs).forM f = f x >>= fun _ => xs.forM f := rfl
    rw [hcons, List.forall_mem_cons, ← ih]
    exact andThen_eq_ok

theorem ifPresent_eq_ok {check : α → Except SeqscribeError Unit} {x : Option α} :
    ifPresent check x = .ok () ↔ ∀ a, x = some a → check a = .ok () := by
  cases x with
  | none => exact iff_of_true rfl fun _ h => nomatch h
  | some a =>
    constructor
    · rintro h _ ⟨⟩
      exact h
    · exact fun h => h a rfl

def SafeNat (n : Nat) : Prop := n ≤ MAX_SAFE_INTEGER

def WriterVec.WellShaped : WriterVec → Prop
  | .live v => SafeNat v.contig ∧ CHAIN_RE v.chain = true ∧ ∀ rgen, v.rgen = some rgen → SafeNat rgen
  | .retired v => SafeNat v.finalSeq ∧ CHAIN_RE v.finalChain = true ∧ SafeNat v.rgen

/-- The numbers and chains of a topic are those that the decoder takes. -/
structure TopicVec.WellShaped (v : TopicVec) : Prop where
  fgen : ∀ fgen, v.fgen = some fgen → SafeNat fgen
  writers : ∀ w ∈ v.writers.rows, w.2.WellShaped

/-- The names of a topic are those that the charter admits. -/
structure TopicVec.Named (v : TopicVec) : Prop where
  topic : TOPIC_RE v.topic = true ∧ v.topic ≠ RESERVED_NAME
  writers : ∀ w ∈ v.writers.rows, WRITER_RE w.1 = true ∧ w.1 ≠ RESERVED_NAME

theorem vHaveWriter_ok {w : WriterVec} : vHaveWriter t w name = .ok () ↔ w.WellShaped := by
  cases w with
  | live v =>
    rw [vHaveWriter, andThen_eq_ok, andThen_eq_ok, ifPresent_eq_ok, vNonNeg, vChain, ensure_eq_ok,
      ensure_eq_ok]
    simp only [vNonNeg, ensure_eq_ok]
    rfl
  | retired v =>
    rw [vHaveWriter, andThen_eq_ok, andThen_eq_ok, vNonNeg, vChain, vNonNeg, ensure_eq_ok,
      ensure_eq_ok, ensure_eq_ok]
    rfl

theorem TopicVec.Named.vHaveTopic_ok {v : TopicVec} (h : v.Named) :
    vHaveTopic t v = .ok () ↔ v.WellShaped := by
  rw [vHaveTopic, andThen_eq_ok, andThen_eq_ok, andThen_eq_ok, ifPresent_eq_ok, forM_eq_ok, vTopic,
    vMap, ensure_eq_ok, ensure_eq_ok]
  simp only [andThen_eq_ok, vNonNeg, vWriter, ensure_eq_ok, vHaveWriter_ok]
  constructor
  · exact fun hok => ⟨hok.2.1, fun w hw => (hok.2.2.2 w hw).2⟩
  · intro hshaped
    refine ⟨h.topic.1, hshaped.fgen, ?_, fun w hw => ⟨(h.writers w hw).1, hshaped.writers w hw⟩⟩
    intro hreserved
    obtain ⟨w, hw, heq⟩ := List.mem_map.1 hreserved
    exact (h.writers w hw).2 heq

/-- A page with names of the charter is accepted when its numbers and chains are, and it fits. -/
theorem accepted_iff {constants : Constants} {m : MsgHave}
    (hreq : -(MAX_SAFE_INTEGER : Int) ≤ m.req ∧ m.req ≤ MAX_SAFE_INTEGER)
    (hpage : 1 ≤ m.page ∧ m.page ≤ m.of) (hof : SafeNat m.of)
    (hnamed : ∀ v ∈ m.vectors.rows, v.Named) :
    serializeHave constants m = .ok (stringify m.json) ∧ parseHave constants m = .ok m ↔
      m.bytes ≤ constants.MAX_FRAME_BYTES ∧ ∀ v ∈ m.vectors.rows, v.WellShaped := by
  have hvalid : validateHave m = .ok () ↔ ∀ v ∈ m.vectors.rows, v.WellShaped := by
    rw [validateHave, andThen_eq_ok, andThen_eq_ok, andThen_eq_ok, andThen_eq_ok, andThen_eq_ok,
      forM_eq_ok, vInt, vPos, vPos, vMap, ensure_eq_ok, ensure_eq_ok, ensure_eq_ok, ensure_eq_ok,
      ensure_eq_ok]
    constructor
    · intro hok v hv
      exact (hnamed v hv).vHaveTopic_ok.1 (hok.2.2.2.2.2 v hv)
    · intro hshaped
      refine ⟨hreq, ⟨hpage.1.trans hpage.2, hof⟩, ⟨hpage.1, hpage.2.trans hof⟩, hpage.2, ?_,
        fun v hv => (hnamed v hv).vHaveTopic_ok.2 (hshaped v hv)⟩
      intro hreserved
      obtain ⟨v, hv, heq⟩ := List.mem_map.1 hreserved
      exact (hnamed v hv).topic.2 heq
  rw [← hvalid]
  constructor
  · rintro ⟨hserialized, hparsed⟩
    obtain ⟨_, hsize, hrest⟩ := Except.bind_eq_ok hparsed
    obtain ⟨_, hok, -⟩ := Except.bind_eq_ok hrest
    exact ⟨ensure_ok hsize, hok⟩
  · rintro ⟨hsize, hok⟩
    rw [serializeHave, parseHave, ensure_eq_ok.2 hsize, ensure_eq_ok.2 hsize, hok]
    exact ⟨rfl, rfl⟩

end Seqscribe
