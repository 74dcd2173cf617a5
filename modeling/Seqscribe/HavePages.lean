import Mathlib.Algebra.Order.BigOperators.Group.List
import Mathlib.Data.List.Induction
import Seqscribe.JsonText
import Seqscribe.Primitives

namespace Seqscribe
set_option autoImplicit true

/-! The pages of a HAVE round. -/

def rgenJson : Option Nat → List (JsString × JsonValue)
  | none => []
  | some rgen => [(js "rgen", .num rgen)]

def writerVecJson : WriterVec → JsonValue
  | .live v => .obj ([(js "contig", .num v.contig), (js "chain", .str (js v.chain))] ++ rgenJson v.rgen)
  | .retired v => .obj [(js "retired", .bool true), (js "finalSeq", .num v.finalSeq),
      (js "finalChain", .str (js v.finalChain)), (js "rgen", .num v.rgen)]

def writersJson (writers : List (WriterId × WriterVec)) : JsonValue :=
  .obj (writers.map fun w => (js w.1, writerVecJson w.2))

def fgenJson : Option Nat → List (JsString × JsonValue)
  | none => []
  | some fgen => [(js "fgen", .num fgen)]

def topicVecJson (v : TopicVec) : JsonValue :=
  .obj ((js "writers", writersJson v.writers.rows) :: fgenJson v.fgen)

def vectorsJson (vectors : HaveVectors) : JsonValue :=
  .obj (vectors.rows.map fun v => (js v.topic, topicVecJson v))

structure MsgHave where
  req : Int
  page : Nat
  of : Nat
  vectors : HaveVectors

def MsgHave.json (m : MsgHave) : JsonValue :=
  .obj [(js "t", .str (js "HAVE")), (js "req", .num m.req), (js "page", .num m.page),
    (js "of", .num m.of), (js "vectors", vectorsJson m.vectors)]

/-- `utf8ByteLength(JSON.stringify(m))` -/
def MsgHave.bytes (m : MsgHave) : Nat := utf8ByteLength (stringify m.json)

/-- `t = (vec[topic] ??= { writers: {} })`, its `fgen` when there is one, and its writers. -/
def assignTopic (vec : HaveVectors) (topic : Topic) (fgen : Option Nat)
    (writers : List (WriterId × WriterVec)) : HaveVectors :=
  let t := topicVecOf vec topic
  vec.upsert { t with fgen := fgen.or t.fgen, writers := writers.foldl .upsert t.writers }

/-! The responder. -/

structure Pagination where
  pages : List HaveVectors
  current : HaveVectors
  bytes : Nat

/-- `utf8ByteLength(JSON.stringify({ [topic]: { [writer]: w } }))` -/
def haveCost (topic : Topic) (w : WriterId × WriterVec) : Nat :=
  utf8ByteLength (stringify (.obj [(js topic, .obj [(js w.1, writerVecJson w.2)])]))

namespace Pagination

def init : Pagination := ⟨[], .empty, 0⟩

def turn (p : Pagination) : Pagination := ⟨p.pages ++ [p.current], .empty, 0⟩

def addWriter (budget : Nat) (v : TopicVec) (p : Pagination) (w : WriterId × WriterVec) :
    Pagination :=
  let cost := haveCost v.topic w
  let p := if p.bytes + cost > budget ∧ p.current.rows.length > 0 then p.turn else p
  { p with current := assignTopic p.current v.topic v.fgen [w], bytes := p.bytes + cost }

def addTopic (budget : Nat) (p : Pagination) (v : TopicVec) : Pagination :=
  let p := v.writers.rows.foldl (addWriter budget v) p
  if v.writers.rows.length = 0 then { p with current := assignTopic p.current v.topic v.fgen [] }
  else p

def all (p : Pagination) : List HaveVectors := p.pages ++ [p.current]

end Pagination

def havePages (budget : Nat) (vectors : HaveVectors) : List HaveVectors :=
  (vectors.rows.foldl (Pagination.addTopic budget) .init).all

def paginateHave (constants : Constants) (req : Int) (vectors : HaveVectors) : List MsgHave :=
  let pages := havePages (constants.MAX_FRAME_BYTES / 2) vectors
  pages.mapIdx fun i p => ⟨req, i + 1, pages.length, p⟩

/-! The requester. -/

/-- The side of a HAVE round that collects its pages; `rounds` has what was merged. -/
structure HaveRound where
  expectedHaveReq : Option Int
  havePages : Table Nat MsgHave MsgHave.page
  haveBytes : Nat
  closed : Bool
  rounds : List HaveVectors

namespace HaveRound

def start (req : Int) : HaveRound := ⟨some req, .empty, 0, false, []⟩

def mergePage (merged : HaveVectors) (m : MsgHave) : HaveVectors :=
  m.vectors.rows.foldl (fun merged v => assignTopic merged v.topic v.fgen v.writers.rows) merged

def onHavePage (MAX_REASSEMBLY_BYTES : Nat) (σ : HaveRound) (m : MsgHave) : HaveRound :=
  if σ.expectedHaveReq ≠ some m.req then σ
  else
    let prev := ((σ.havePages.get m.page).map MsgHave.bytes).getD 0
    let haveBytes := σ.haveBytes + m.bytes - prev
    if haveBytes > MAX_REASSEMBLY_BYTES then
      { σ with havePages := .empty, haveBytes := 0, expectedHaveReq := none, closed := true }
    else
      let havePages := σ.havePages.upsert m
      if havePages.rows.length < m.of then
        { σ with havePages := havePages, haveBytes := haveBytes }
      else
        { σ with
          expectedHaveReq := none
          havePages := .empty
          haveBytes := 0
          rounds := σ.rounds ++ [havePages.rows.foldl mergePage .empty] }

end HaveRound

/-! Vectors as finite maps. -/

/-- A place of HAVE vectors: a topic, which has its `fgen`, or a stream. -/
abbrev HaveSlot := Topic ⊕ StreamId

def haveAt (vec : HaveVectors) : HaveSlot → Option (Option Nat ⊕ WriterVec)
  | .inl topic => (vec.get topic).map fun v => .inl v.fgen
  | .inr k => (writerVec vec k).map .inr

/-- What one says the other says too. -/
def Below (p V : HaveVectors) : Prop := ∀ s x, haveAt p s = some x → haveAt V s = some x

/-- Vectors that say no less than those they are below say the same. -/
theorem Below.eq (h : Below p V) (hall : ∀ s, (haveAt V s).isSome → (haveAt p s).isSome) :
    haveAt p = haveAt V := by
  funext s
  cases hp : haveAt p s with
  | some x => exact (h s x hp).symm
  | none =>
    cases hV : haveAt V s with
    | none => rfl
    | some x =>
      have hsome := hall s (by rw [hV]; rfl)
      rw [hp] at hsome
      cases hsome

theorem below_empty (V : HaveVectors) : Below .empty V := by
  intro s x hx
  cases s with
  | inl topic => cases hx
  | inr k => cases hx

theorem haveAt_topic {V : HaveVectors} (h : V.get topic = some v) :
    haveAt V (.inl topic) = some (.inl v.fgen) := by
  rw [haveAt, h]
  rfl

theorem haveAt_writer {V : HaveVectors} (h : V.get topic = some v) (hw : w ∈ v.writers.rows) :
    haveAt V (.inr (topic, w.1)) = some (.inr w.2) := by
  rw [haveAt, writerVec, h, Option.bind_some, Table.get_of_mem hw]
  rfl

theorem topicVecOf_of_get {vec : HaveVectors} (h : vec.get topic = some v) :
    topicVecOf vec topic = v := by
  rw [topicVecOf, h]
  rfl

theorem haveAt_assignTopic (vec : HaveVectors) (topic : Topic) (fgen : Option Nat)
    (writers : List (WriterId × WriterVec)) (s : HaveSlot) :
    haveAt (assignTopic vec topic fgen writers) s =
      match s with
      | .inl T => if topic = T then some (.inl (fgen.or (topicVecOf vec topic).fgen))
        else haveAt vec s
      | .inr k => if topic = k.1 then
          (((writers.filter fun w => w.1 = k.2).getLast?).map fun w => .inr w.2).or (haveAt vec s)
        else haveAt vec s := by
  have hget : ∀ T, (assignTopic vec topic fgen writers).get T = if topic = T then
      some { topicVecOf vec topic with
        fgen := fgen.or (topicVecOf vec topic).fgen
        writers := writers.foldl .upsert (topicVecOf vec topic).writers }
      else vec.get T := by
    intro T
    rw [assignTopic, Table.get_upsert]
    dsimp only
    rw [topicVecOf_topic]
  cases s with
  | inl T =>
    rw [haveAt, hget]
    dsimp only
    split
    · rfl
    · rfl
  | inr k =>
    rw [haveAt, writerVec, hget]
    dsimp only
    split
    · next htopic =>
      rw [Option.bind_some, Table.get_foldl_upsert, haveAt]
      have hold : ((topicVecOf vec topic).writers.get k.2).map Prod.snd = writerVec vec k := by
        rw [writers_topicVecOf, htopic]
      rw [← hold]
      cases ((writers.filter fun w => w.1 = k.2).getLast?) with
      | none => rfl
      | some w => rfl
    · rfl

/-- A part of one topic of the vectors is assigned: the result is below them, and has what it had
before, the topic and the part. -/
theorem Below.assignTopic {V : HaveVectors} (h : Below p V) (hV : V.get topic = some v)
    (hws : ∀ w ∈ writers, w ∈ v.writers.rows) :
    Below (assignTopic p topic v.fgen writers) V ∧
      ∀ s, (haveAt (assignTopic p topic v.fgen writers) s).isSome ↔
        (haveAt p s).isSome ∨ s = .inl topic ∨ ∃ w ∈ writers, s = .inr (topic, w.1) := by
  have hfgen : v.fgen.or (topicVecOf p topic).fgen = v.fgen := by
    cases hp : p.get topic with
    | none =>
      rw [topicVecOf, hp]
      exact Option.or_none
    | some v' =>
      have heq := (h _ _ (haveAt_topic hp)).symm.trans (haveAt_topic hV)
      rw [topicVecOf_of_get hp, Sum.inl.inj (Option.some.inj heq)]
      exact Option.or_self
  constructor
  · intro s x hx
    rw [haveAt_assignTopic] at hx
    cases s with
    | inl T =>
      dsimp only at hx
      split at hx
      · next htopic =>
        rw [hfgen] at hx
        rw [← htopic, haveAt_topic hV]
        exact hx
      · exact h _ x hx
    | inr k =>
      dsimp only at hx
      split at hx
      · next htopic =>
        cases hlast : (writers.filter fun w => w.1 = k.2).getLast? with
        | none =>
          rw [hlast] at hx
          exact h _ x hx
        | some w =>
          rw [hlast] at hx
          obtain ⟨hw, hk⟩ := List.mem_filter.1 (List.mem_of_getLast? hlast)
          have hat := haveAt_writer hV (hws w hw)
          rw [htopic, of_decide_eq_true hk] at hat
          exact hat.trans hx
      · exact h _ x hx
  · intro s
    rw [haveAt_assignTopic]
    cases s with
    | inl T =>
      dsimp only
      split
      · next htopic => simp [htopic]
      · next htopic => simp [Ne.symm htopic]
    | inr k =>
      dsimp only
      split
      · next htopic =>
        cases hlast : (writers.filter fun w => w.1 = k.2).getLast? with
        | none =>
          have hnone := List.filter_eq_nil_iff.1 (List.getLast?_eq_none_iff.1 hlast)
          have hno : ¬ ∃ w ∈ writers, (Sum.inr k : HaveSlot) = .inr (topic, w.1) := by
            rintro ⟨w, hw, hk⟩
            apply hnone w hw
            rw [Sum.inr.inj hk]
            exact decide_eq_true rfl
          refine (or_iff_left ?_).symm
          rintro (htop | hstream)
          · cases htop
          · exact hno hstream
        | some w =>
          obtain ⟨hw, hk⟩ := List.mem_filter.1 (List.mem_of_getLast? hlast)
          apply iff_of_true rfl
          refine .inr (.inr ⟨w, hw, ?_⟩)
          rw [htopic, of_decide_eq_true hk]
      · next htopic =>
        have hno : ¬ ∃ w ∈ writers, (Sum.inr k : HaveSlot) = .inr (topic, w.1) := by
          rintro ⟨w, -, hk⟩
          rw [Sum.inr.inj hk] at htopic
          exact htopic rfl
        refine (or_iff_left ?_).symm
        rintro (htop | hstream)
        · cases htop
        · exact hno hstream

namespace Pagination

variable {V : HaveVectors} {had : HaveSlot → Prop}

/-- Pages of the vectors that together have what they had to take up so far. -/
structure Cuts (V : HaveVectors) (p : Pagination) (had : HaveSlot → Prop) : Prop where
  below : ∀ q ∈ p.all, Below q V
  covers : ∀ s, had s → ∃ q ∈ p.all, (haveAt q s).isSome

theorem mem_all {p : Pagination} : q ∈ p.all ↔ q ∈ p.pages ∨ q = p.current := by
  rw [all, List.mem_append, List.mem_singleton]

theorem Cuts.mono (h : Cuts V p had) (hsub : ∀ s, had' s → had s) : Cuts V p had' :=
  ⟨h.below, fun s hs => h.covers s (hsub s hs)⟩

theorem Cuts.turn (h : Cuts V p had) : Cuts V p.turn had := by
  constructor
  · intro q hq
    rcases mem_all.1 hq with hq | rfl
    · exact h.below q hq
    · exact below_empty V
  · intro s hs
    obtain ⟨q, hq, hsome⟩ := h.covers s hs
    exact ⟨q, mem_all.2 (.inl hq), hsome⟩

/-- The current page takes up a part of a topic. -/
theorem Cuts.assign (h : Cuts V p had) (hv : v ∈ V.rows) (hws : ∀ w ∈ writers, w ∈ v.writers.rows)
    (bytes : Nat) :
    Cuts V { p with current := assignTopic p.current v.topic v.fgen writers, bytes := bytes }
      fun s => had s ∨ s = .inl v.topic ∨ ∃ w ∈ writers, s = .inr (v.topic, w.1) := by
  obtain ⟨hbelow, hsome⟩ := (h.below _ (mem_all.2 (.inr rfl))).assignTopic (Table.get_of_mem hv) hws
  constructor
  · intro q hq
    rcases mem_all.1 hq with hq | rfl
    · exact h.below q (mem_all.2 (.inl hq))
    · exact hbelow
  · intro s hs
    rcases hs with hs | hs
    · obtain ⟨q, hq, hat⟩ := h.covers s hs
      rcases mem_all.1 hq with hq | rfl
      · exact ⟨q, mem_all.2 (.inl hq), hat⟩
      · exact ⟨_, mem_all.2 (.inr rfl), (hsome s).2 (.inl hat)⟩
    · exact ⟨_, mem_all.2 (.inr rfl), (hsome s).2 (.inr hs)⟩

theorem Cuts.addWriter (h : Cuts V p had) (hv : v ∈ V.rows) (hw : w ∈ v.writers.rows)
    (budget : Nat) :
    Cuts V (p.addWriter budget v w)
      fun s => had s ∨ s = .inl v.topic ∨ s = .inr (v.topic, w.1) := by
  have hturn : Cuts V (if p.bytes + haveCost v.topic w > budget ∧ p.current.rows.length > 0
      then p.turn else p) had := by
    split
    · exact h.turn
    · exact h
  have hone : ∀ w' ∈ [w], w' ∈ v.writers.rows := fun w' hw' => List.mem_singleton.1 hw' ▸ hw
  apply (hturn.assign hv hone _).mono
  intro s hs
  rcases hs with hs | hs | hs
  · exact .inl hs
  · exact .inr (.inl hs)
  · exact .inr (.inr ⟨w, List.mem_singleton.2 rfl, hs⟩)

theorem Cuts.addWriters (h : Cuts V p had) (hv : v ∈ V.rows) (budget : Nat)
    (writers : List (WriterId × WriterVec)) (hws : ∀ w ∈ writers, w ∈ v.writers.rows) :
    Cuts V (writers.foldl (Pagination.addWriter budget v) p)
      fun s => had s ∨ ∃ w ∈ writers, s = .inl v.topic ∨ s = .inr (v.topic, w.1) := by
  induction writers generalizing p had with
  | nil =>
    apply h.mono
    rintro s (hs | ⟨w, hw, -⟩)
    · exact hs
    · cases hw
  | cons w writers ih =>
    apply (ih (h.addWriter hv (hws w List.mem_cons_self) budget)
      fun w' hw' => hws w' (List.mem_cons_of_mem _ hw')).mono
    rintro s (hs | ⟨w', hw', hs⟩)
    · exact .inl (.inl hs)
    · rcases List.mem_cons.1 hw' with rfl | hw'
      · exact .inl (.inr hs)
      · exact .inr ⟨w', hw', hs⟩

/-- A topic is taken up with all of its writers, also when it has none. -/
theorem Cuts.addTopic (h : Cuts V p had) (hv : v ∈ V.rows) (budget : Nat) :
    Cuts V (p.addTopic budget v)
      fun s => had s ∨ s = .inl v.topic ∨ ∃ w ∈ v.writers.rows, s = .inr (v.topic, w.1) := by
  have hwriters := h.addWriters hv budget v.writers.rows fun _ hw => hw
  rw [Pagination.addTopic]
  split
  · next hnil =>
    have hnil := List.length_eq_zero_iff.1 hnil
    have hnone : ∀ w ∈ ([] : List (WriterId × WriterVec)), w ∈ v.writers.rows :=
      fun _ hw => nomatch hw
    apply (hwriters.assign hv hnone _).mono
    rintro s (hs | hs | ⟨w, hw, -⟩)
    · exact .inl (.inl hs)
    · exact .inr (.inl hs)
    · rw [hnil] at hw
      cases hw
  · next hne =>
    obtain ⟨w₀, hw₀⟩ := List.exists_mem_of_length_pos (Nat.pos_of_ne_zero hne)
    apply hwriters.mono
    rintro s (hs | hs | ⟨w, hw, hs⟩)
    · exact .inl hs
    · exact .inr ⟨w₀, hw₀, .inl hs⟩
    · exact .inr ⟨w, hw, .inr hs⟩

theorem Cuts.addTopics (h : Cuts V p had) (budget : Nat) (vs : List TopicVec)
    (hvs : ∀ v ∈ vs, v ∈ V.rows) :
    Cuts V (vs.foldl (Pagination.addTopic budget) p) fun s => had s ∨
      ∃ v ∈ vs, s = .inl v.topic ∨ ∃ w ∈ v.writers.rows, s = .inr (v.topic, w.1) := by
  induction vs generalizing p had with
  | nil =>
    apply h.mono
    rintro s (hs | ⟨v, hv, -⟩)
    · exact hs
    · cases hv
  | cons v vs ih =>
    apply (ih (h.addTopic (hvs v List.mem_cons_self) budget)
      fun v' hv' => hvs v' (List.mem_cons_of_mem _ hv')).mono
    rintro s (hs | ⟨v', hv', hs⟩)
    · exact .inl (.inl hs)
    · rcases List.mem_cons.1 hv' with rfl | hv'
      · exact .inl (.inr hs)
      · exact .inr ⟨v', hv', hs⟩

theorem cuts_init (V : HaveVectors) : Cuts V .init fun _ => False := by
  constructor
  · intro q hq
    rcases mem_all.1 hq with hq | rfl
    · cases hq
    · exact below_empty V
  · exact fun _ hs => hs.elim

end Pagination

/-- A place of the vectors is a topic or one of its writers. -/
theorem slot_of_haveAt {V : HaveVectors} (h : (haveAt V s).isSome) :
    ∃ v ∈ V.rows, s = .inl v.topic ∨ ∃ w ∈ v.writers.rows, s = .inr (v.topic, w.1) := by
  cases s with
  | inl topic =>
    cases hv : V.get topic with
    | none =>
      rw [haveAt, hv] at h
      cases h
    | some v =>
      obtain ⟨hin, htopic⟩ := Table.get_eq_some_iff.1 hv
      exact ⟨v, hin, .inl (congrArg Sum.inl htopic.symm)⟩
  | inr k =>
    cases hv : V.get k.1 with
    | none =>
      rw [haveAt, writerVec, hv] at h
      cases h
    | some v =>
      obtain ⟨hin, htopic⟩ := Table.get_eq_some_iff.1 hv
      cases hw : v.writers.get k.2 with
      | none =>
        rw [haveAt, writerVec, hv, Option.bind_some, hw] at h
        cases h
      | some w =>
        obtain ⟨hin', hwriter⟩ := Table.get_eq_some_iff.1 hw
        refine ⟨v, hin, .inr ⟨w, hin', ?_⟩⟩
        rw [htopic, hwriter]

/-- The pages are parts of the vectors, and leave nothing out. -/
theorem havePages_cut (budget : Nat) (V : HaveVectors) :
    (∀ q ∈ havePages budget V, Below q V) ∧
      ∀ s, (haveAt V s).isSome → ∃ q ∈ havePages budget V, (haveAt q s).isSome := by
  have hcut := (Pagination.cuts_init V).addTopics budget V.rows fun _ hv => hv
  exact ⟨hcut.below, fun s hs => hcut.covers s (.inr (slot_of_haveAt hs))⟩

namespace HaveRound

/-- Merging a part of the vectors adds it. -/
theorem below_mergePage {V : HaveVectors} (h : Below merged V) (hm : Below m.vectors V) :
    Below (mergePage merged m) V ∧ ∀ s, (haveAt (mergePage merged m) s).isSome ↔
      (haveAt merged s).isSome ∨ (haveAt m.vectors s).isSome := by
  have hfold : ∀ vs : List TopicVec, (∀ v ∈ vs, v ∈ m.vectors.rows) → ∀ merged, Below merged V →
      Below (vs.foldl (fun merged v => assignTopic merged v.topic v.fgen v.writers.rows) merged) V ∧
      ∀ s, (haveAt (vs.foldl (fun merged v =>
          assignTopic merged v.topic v.fgen v.writers.rows) merged) s).isSome ↔
        (haveAt merged s).isSome ∨
          ∃ v ∈ vs, s = .inl v.topic ∨ ∃ w ∈ v.writers.rows, s = .inr (v.topic, w.1) := by
    intro vs hvs
    induction vs with
    | nil =>
      intro merged h
      refine ⟨h, fun s => (or_iff_left ?_).symm⟩
      rintro ⟨v, hv, -⟩
      cases hv
    | cons v vs ih =>
      intro merged h
      have hv := Table.get_of_mem (hvs v List.mem_cons_self)
      have hfgen := hm _ _ (haveAt_topic hv)
      obtain ⟨v', hv', htopic⟩ := Option.map_eq_some_iff.1 hfgen
      have hpart : ∀ w ∈ v.writers.rows, w ∈ v'.writers.rows := by
        intro w hw
        have hat := hm _ _ (haveAt_writer hv hw)
        rw [haveAt, writerVec, hv', Option.bind_some] at hat
        obtain ⟨x, hx, hw'⟩ := Option.map_eq_some_iff.1 hat
        obtain ⟨w', hget, rfl⟩ := Option.map_eq_some_iff.1 hx
        obtain ⟨hin, hkey⟩ := Table.get_eq_some_iff.1 hget
        have heq : w' = w := Prod.ext hkey (Sum.inr.inj hw')
        exact heq ▸ hin
      obtain ⟨hbelow, hsome⟩ := h.assignTopic hv' hpart
      rw [Sum.inl.inj htopic] at hbelow hsome
      obtain ⟨hbelow', hsome'⟩ := ih (fun v hv => hvs v (List.mem_cons_of_mem _ hv)) _ hbelow
      refine ⟨hbelow', fun s => (hsome' s).trans ?_⟩
      rw [hsome s]
      simp only [List.mem_cons, exists_eq_or_imp, or_assoc]
  obtain ⟨hbelow, hsome⟩ := hfold m.vectors.rows (fun _ hv => hv) merged h
  refine ⟨hbelow, fun s => (hsome s).trans (or_congr_right ?_)⟩
  constructor
  · rintro ⟨v, hv, rfl | ⟨w, hw, rfl⟩⟩
    · rw [haveAt_topic (Table.get_of_mem hv)]
      rfl
    · rw [haveAt_writer (Table.get_of_mem hv) hw]
      rfl
  · exact slot_of_haveAt

/-- Pages merged in any order are below the vectors, and have what each of them has. -/
theorem below_mergePages {V : HaveVectors} (ms : List MsgHave) (hms : ∀ m ∈ ms, Below m.vectors V)
    (h : Below merged V) :
    Below (ms.foldl mergePage merged) V ∧ ∀ s, (haveAt (ms.foldl mergePage merged) s).isSome ↔
      (haveAt merged s).isSome ∨ ∃ m ∈ ms, (haveAt m.vectors s).isSome := by
  induction ms generalizing merged with
  | nil =>
    refine ⟨h, fun s => (or_iff_left ?_).symm⟩
    rintro ⟨m, hm, -⟩
    cases hm
  | cons m ms ih =>
    obtain ⟨hbelow, hsome⟩ := below_mergePage h (hms m List.mem_cons_self)
    obtain ⟨hbelow', hsome'⟩ := ih (fun m hm => hms m (List.mem_cons_of_mem _ hm)) hbelow
    refine ⟨hbelow', fun s => (hsome' s).trans ?_⟩
    rw [hsome s]
    simp only [List.mem_cons, exists_eq_or_imp, or_assoc]

end HaveRound

theorem mem_paginateHave {constants : Constants} {req : Int} {V : HaveVectors} :
    m ∈ paginateHave constants req V ↔ ∃ i, ∃ h : i < (havePages (constants.MAX_FRAME_BYTES / 2)
      V).length, m = ⟨req, i + 1, (havePages (constants.MAX_FRAME_BYTES / 2) V).length,
        (havePages (constants.MAX_FRAME_BYTES / 2) V)[i]⟩ := by
  rw [paginateHave, List.mem_mapIdx]
  simp only [eq_comm]

/-- All of the pages, merged in any order, are the vectors. -/
theorem haveAt_merged {constants : Constants} {V : HaveVectors} {ms : List MsgHave}
    (hin : ∀ m ∈ ms, m ∈ paginateHave constants req V)
    (hall : ∀ m ∈ paginateHave constants req V, m ∈ ms) :
    haveAt (ms.foldl HaveRound.mergePage .empty) = haveAt V := by
  obtain ⟨hparts, hcover⟩ := havePages_cut (constants.MAX_FRAME_BYTES / 2) V
  have hms : ∀ m ∈ ms, Below m.vectors V := by
    intro m hm
    obtain ⟨i, hi, rfl⟩ := mem_paginateHave.1 (hin m hm)
    exact hparts _ (List.getElem_mem hi)
  obtain ⟨hbelow, hsome⟩ := HaveRound.below_mergePages ms hms (below_empty V)
  apply hbelow.eq
  intro s hs
  obtain ⟨q, hq, hat⟩ := hcover s hs
  obtain ⟨i, hi, rfl⟩ := List.mem_iff_getElem.1 hq
  exact (hsome s).2 (.inr ⟨_, hall _ (mem_paginateHave.2 ⟨i, hi, rfl⟩), hat⟩)

/-! A round. -/

theorem page_inj {constants : Constants} (hm : m ∈ paginateHave constants req V)
    (hm' : m' ∈ paginateHave constants req V) (hpage : m.page = m'.page) : m = m' := by
  obtain ⟨i, hi, rfl⟩ := mem_paginateHave.1 hm
  obtain ⟨i', hi', rfl⟩ := mem_paginateHave.1 hm'
  obtain rfl : i = i' := Nat.succ.inj hpage
  rfl

theorem of_eq_length {constants : Constants} (hm : m ∈ paginateHave constants req V) :
    m.of = (paginateHave constants req V).length := by
  obtain ⟨i, hi, rfl⟩ := mem_paginateHave.1 hm
  rw [paginateHave, List.length_mapIdx]

theorem req_eq {constants : Constants} (hm : m ∈ paginateHave constants req V) : m.req = req := by
  obtain ⟨i, hi, rfl⟩ := mem_paginateHave.1 hm
  rfl

theorem pages_paginateHave (constants : Constants) (req : Int) (V : HaveVectors) :
    (paginateHave constants req V).map MsgHave.page =
      List.range' 1 (paginateHave constants req V).length := by
  apply List.ext_getElem
  · rw [List.length_map, List.length_range']
  · intro i hi hi'
    rw [List.getElem_map, List.getElem_range']
    simp only [paginateHave, List.getElem_mapIdx]
    omega

theorem nodup_paginateHave (constants : Constants) (req : Int) (V : HaveVectors) :
    (paginateHave constants req V).Nodup := by
  apply List.Nodup.of_map MsgHave.page
  rw [pages_paginateHave]
  exact List.nodup_range' 1

theorem paginateHave_pos (constants : Constants) (req : Int) (V : HaveVectors) :
    0 < (paginateHave constants req V).length := by
  rw [paginateHave, List.length_mapIdx, havePages, Pagination.all, List.length_append]
  exact Nat.succ_pos _

namespace HaveRound

variable {MAX_REASSEMBLY_BYTES : Nat} {ms : List MsgHave} {seen : List MsgHave} {σ : HaveRound}

def pageBytes (ms : List MsgHave) : Nat := (ms.map MsgHave.bytes).sum

/-- The round is under way: it has just the pages that have come. -/
structure Collecting (req : Int) (ms seen : List MsgHave) (σ : HaveRound) : Prop where
  expected : σ.expectedHaveReq = some req
  opened : σ.closed = false
  rounds : σ.rounds = []
  pages : ∀ m ∈ σ.havePages.rows, m ∈ ms ∧ m ∈ seen
  kept : ∀ m ∈ seen, m.req = req → m ∈ σ.havePages.rows
  bytes : σ.haveBytes = pageBytes σ.havePages.rows
  short : σ.havePages.rows.length < ms.length

/-- The round is complete, which takes all of its pages. -/
structure Complete (ms seen : List MsgHave) (V : HaveVectors) (σ : HaveRound) : Prop where
  expected : σ.expectedHaveReq = none
  opened : σ.closed = false
  rounds : ∃ merged, σ.rounds = [merged] ∧ haveAt merged = haveAt V
  seen : ∀ m ∈ ms, m ∈ seen

/-- The pages were too large for the round. -/
structure Overflown (MAX_REASSEMBLY_BYTES : Nat) (ms : List MsgHave) (σ : HaveRound) : Prop where
  expected : σ.expectedHaveReq = none
  rounds : σ.rounds = []
  large : MAX_REASSEMBLY_BYTES < pageBytes ms

theorem onHavePage_stale (MAX_REASSEMBLY_BYTES : Nat) (h : σ.expectedHaveReq ≠ some m.req) :
    σ.onHavePage MAX_REASSEMBLY_BYTES m = σ := if_pos h

theorem pageBytes_le (hnodup : rows.Nodup) (hsub : ∀ m ∈ rows, m ∈ ms) :
    pageBytes rows ≤ pageBytes ms := by
  obtain ⟨part, hperm, hpart⟩ := List.subperm_of_subset hnodup hsub
  rw [pageBytes, pageBytes, ← (hperm.map MsgHave.bytes).sum_eq]
  exact (hpart.map MsgHave.bytes).sum_le_sum fun _ _ => Nat.zero_le _

theorem nodup_rows (T : Table Nat MsgHave MsgHave.page) : T.rows.Nodup := T.nodup.of_map _

/-- The pages once `m` is among them, and their size. -/
theorem upsert_page {constants : Constants}
    (h : Collecting req (paginateHave constants req V) seen σ)
    (hm : m ∈ paginateHave constants req V) :
    (∀ m', m' ∈ (σ.havePages.upsert m).rows ↔ m' ∈ σ.havePages.rows ∨ m' = m) ∧
      σ.haveBytes + m.bytes - ((σ.havePages.get m.page).map MsgHave.bytes).getD 0 =
        pageBytes (σ.havePages.upsert m).rows := by
  cases hget : σ.havePages.get m.page with
  | none =>
    have hrows := Table.rows_upsert_of_get_eq_none hget
    rw [hrows]
    constructor
    · intro m'
      rw [List.mem_append, List.mem_singleton]
    · rw [h.bytes, pageBytes, pageBytes, List.map_append, List.sum_append]
      simp
  | some m₀ =>
    obtain ⟨hin, hpage⟩ := Table.get_eq_some_iff.1 hget
    obtain rfl := page_inj (h.pages _ hin).1 hm hpage
    have hsame : (σ.havePages.upsert m₀).rows = σ.havePages.rows := by
      rw [Table.rows_upsert_of_get_ne_none (by rw [hget]; exact Option.some_ne_none _)]
      apply (List.map_congr_left _).trans (List.map_id _)
      intro m' hm'
      split
      · next heq => exact (page_inj (h.pages _ hm').1 hm heq).symm
      · rfl
    rw [hsame]
    constructor
    · intro m'
      refine (or_iff_left_of_imp ?_).symm
      rintro rfl
      exact hin
    · rw [h.bytes]
      exact Nat.add_sub_cancel _ _

/-- A page of the round arrives. -/
theorem Collecting.page {constants : Constants}
    (h : Collecting req (paginateHave constants req V) seen σ)
    (hm : m ∈ paginateHave constants req V) :
    Collecting req (paginateHave constants req V) (seen ++ [m])
        (σ.onHavePage MAX_REASSEMBLY_BYTES m) ∨
      Complete (paginateHave constants req V) (seen ++ [m]) V
        (σ.onHavePage MAX_REASSEMBLY_BYTES m) ∨
      Overflown MAX_REASSEMBLY_BYTES (paginateHave constants req V)
        (σ.onHavePage MAX_REASSEMBLY_BYTES m) := by
  obtain ⟨hrows, hbytes⟩ := upsert_page h hm
  have hin : ∀ m' ∈ (σ.havePages.upsert m).rows, m' ∈ paginateHave constants req V := by
    intro m' hm'
    rcases (hrows m').1 hm' with hm' | rfl
    · exact (h.pages m' hm').1
    · exact hm
  have hseen : ∀ m' ∈ (σ.havePages.upsert m).rows, m' ∈ seen ++ [m] := by
    intro m' hm'
    rcases (hrows m').1 hm' with hm' | rfl
    · exact List.mem_append_left _ (h.pages m' hm').2
    · exact List.mem_append_right _ (List.mem_singleton.2 rfl)
  rw [onHavePage, if_neg (by rw [h.expected, req_eq hm]; exact fun hne => hne rfl)]
  dsimp only
  rw [hbytes]
  split
  · next hover =>
    right
    right
    exact ⟨rfl, h.rounds, Nat.lt_of_lt_of_le hover (pageBytes_le (nodup_rows _) hin)⟩
  · split
    · next hshort =>
      left
      refine ⟨h.expected, h.opened, h.rounds, fun m' hm' => ⟨hin m' hm', hseen m' hm'⟩, ?_, rfl, ?_⟩
      · intro m' hm' hreq
        apply (hrows m').2
        rcases List.mem_append.1 hm' with hm' | hm'
        · exact .inl (h.kept m' hm' hreq)
        · exact .inr (List.mem_singleton.1 hm')
      · rw [← of_eq_length hm]
        exact hshort
    · next hfull =>
      right
      left
      rw [of_eq_length hm, not_lt] at hfull
      -- as many pages as there are, and no two the same
      have hall := (List.subperm_of_subset (nodup_rows _) hin).perm_of_length_le hfull
      refine ⟨rfl, h.opened, ⟨_, ?_, haveAt_merged hin fun m' hm' => hall.mem_iff.2 hm'⟩,
        fun m' hm' => hseen m' (hall.mem_iff.2 hm')⟩
      rw [h.rounds]
      rfl

/-- The states of a round. -/
inductive Outcome (MAX_REASSEMBLY_BYTES : Nat) (req : Int) (ms seen : List MsgHave) (V : HaveVectors)
    (σ : HaveRound) : Prop where
  | collecting (h : Collecting req ms seen σ)
  | complete (h : Complete ms seen V σ)
  | overflown (h : Overflown MAX_REASSEMBLY_BYTES ms σ)

theorem Outcome.step {constants : Constants}
    (h : Outcome MAX_REASSEMBLY_BYTES req (paginateHave constants req V) seen V σ)
    (hm : m.req = req → m ∈ paginateHave constants req V) :
    Outcome MAX_REASSEMBLY_BYTES req (paginateHave constants req V) (seen ++ [m]) V
      (σ.onHavePage MAX_REASSEMBLY_BYTES m) := by
  cases h with
  | collecting h =>
    by_cases hreq : m.req = req
    · rcases h.page (hm hreq) with hmore | hdone | hover
      · exact .collecting hmore
      · exact .complete hdone
      · exact .overflown hover
    · rw [onHavePage_stale]
      · refine .collecting { h with pages := ?_, kept := ?_ }
        · exact fun m' hm' => ⟨(h.pages m' hm').1, List.mem_append_left _ (h.pages m' hm').2⟩
        · intro m' hm' hreq'
          rcases List.mem_append.1 hm' with hm' | hm'
          · exact h.kept m' hm' hreq'
          · exact absurd (List.mem_singleton.1 hm' ▸ hreq') hreq
      · rw [h.expected]
        exact fun heq => hreq (Option.some.inj heq).symm
  | complete h =>
    rw [onHavePage_stale]
    · exact .complete { h with seen := fun m' hm' => List.mem_append_left _ (h.seen m' hm') }
    · rw [h.expected]
      exact fun heq => nomatch heq
  | overflown h =>
    rw [onHavePage_stale]
    · exact .overflown h
    · rw [h.expected]
      exact fun heq => nomatch heq

theorem outcome_run {constants : Constants} (MAX_REASSEMBLY_BYTES : Nat) {delivered : List MsgHave}
    (hdelivered : ∀ m ∈ delivered, m.req = req → m ∈ paginateHave constants req V) :
    Outcome MAX_REASSEMBLY_BYTES req (paginateHave constants req V) delivered V
      (delivered.foldl (onHavePage MAX_REASSEMBLY_BYTES) (start req)) := by
  induction delivered using List.reverseRecOn with
  | nil =>
    refine .collecting ⟨rfl, rfl, rfl, ?_, ?_, rfl, paginateHave_pos constants req V⟩
    · exact fun _ hm => nomatch hm
    · exact fun _ hm => nomatch hm
  | append_singleton delivered m ih =>
    rw [List.foldl_append]
    exact (ih fun m' hm' => hdelivered m' (List.mem_append_left _ hm')).step
      (hdelivered m (List.mem_append_right _ (List.mem_singleton.2 rfl)))

end HaveRound

/-- Pages that arrive in any order, with duplicates and among stale ones: what is merged from them
is the vectors, it takes every page, and when the pages go into the reassembly buffer the round is
complete as soon as all are there. -/
theorem have_pagination_lossless (constants : Constants) (MAX_REASSEMBLY_BYTES : Nat) (req : Int)
    (V : HaveVectors) (delivered : List MsgHave)
    (hdelivered : ∀ m ∈ delivered, m.req = req → m ∈ paginateHave constants req V) :
    let σ := delivered.foldl (HaveRound.onHavePage MAX_REASSEMBLY_BYTES) (.start req)
    (∀ merged ∈ σ.rounds, haveAt merged = haveAt V) ∧
      (σ.rounds ≠ [] → ∀ m ∈ paginateHave constants req V, m ∈ delivered) ∧
      (((paginateHave constants req V).map MsgHave.bytes).sum ≤ MAX_REASSEMBLY_BYTES →
        σ.closed = false ∧
          ((∀ m ∈ paginateHave constants req V, m ∈ delivered) → ∃ merged, σ.rounds = [merged])) := by
  intro σ
  cases HaveRound.outcome_run MAX_REASSEMBLY_BYTES hdelivered with
  | collecting h =>
    have hrounds : σ.rounds = [] := h.rounds
    rw [hrounds]
    refine ⟨fun _ hm => (nomatch hm), fun hne => (hne rfl).elim, fun _ => ⟨h.opened, fun hall => ?_⟩⟩
    exfalso
    have hsub : ∀ m ∈ paginateHave constants req V, m ∈ σ.havePages.rows :=
      fun m hm => h.kept m (hall m hm) (req_eq hm)
    exact absurd (List.subperm_of_subset (nodup_paginateHave constants req V) hsub).length_le
      (not_le.2 h.short)
  | complete h =>
    obtain ⟨merged, hmerged, hsame⟩ := h.rounds
    have hrounds : σ.rounds = [merged] := hmerged
    rw [hrounds]
    refine ⟨fun m hm => ?_, fun _ => h.seen, fun _ => ⟨h.opened, fun _ => ⟨merged, rfl⟩⟩⟩
    rw [List.mem_singleton.1 hm]
    exact hsame
  | overflown h =>
    have hrounds : σ.rounds = [] := h.rounds
    rw [hrounds]
    refine ⟨fun _ hm => (nomatch hm), fun hne => (hne rfl).elim, fun hfits => ?_⟩
    exact absurd hfits (not_le.2 h.large)

/-- Vectors of two topics, one of them without writers. -/
def twoTopics : HaveVectors :=
  .ofRows TopicVec.topic [⟨"t", some 3, .upsert .empty ("w", .live ⟨1, "c", none⟩)⟩, ⟨"u", none, .empty⟩]

/-- Every page arrives twice. -/
theorem have_pagination_lossless_of_twice :
    let pages := paginateHave {} 7 twoTopics
    let σ := (pages ++ pages).foldl (HaveRound.onHavePage 67108864) (.start 7)
    (∀ merged ∈ σ.rounds, haveAt merged = haveAt twoTopics) ∧
      (σ.rounds ≠ [] → ∀ m ∈ pages, m ∈ pages ++ pages) ∧
      ((pages.map MsgHave.bytes).sum ≤ 67108864 →
        σ.closed = false ∧ ((∀ m ∈ pages, m ∈ pages ++ pages) → ∃ merged, σ.rounds = [merged])) :=
  have_pagination_lossless {} 67108864 7 twoTopics _
    fun _ hm _ => (List.mem_append.1 hm).elim id id

end Seqscribe
