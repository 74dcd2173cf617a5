import Seqscribe.HaveShape
import Seqscribe.RetentionRefinement
import Seqscribe.FlushAbort

namespace Seqscribe
set_option autoImplicit true

/-! The size of HAVE pages. -/

/-! Names, chains and numbers need no escapes. -/

theorem plain_of_matchesAll {charter : Char → Bool}
    (hcharter : ∀ ch, charter ch = true → 32 ≤ ch.toNat ∧ ch.toNat < 128 ∧ ch.toNat ≠ 34 ∧ ch.toNat ≠ 92)
    (h : matchesAll s charter lo hi = true) :
    PlainText (js s) ∧ lo ≤ (js s).length ∧ (js s).length ≤ hi := by
  rw [matchesAll, Bool.and_eq_true, Bool.and_eq_true, List.all_eq_true, decide_eq_true_iff,
    decide_eq_true_iff] at h
  obtain ⟨⟨hall, hlo⟩, hhi⟩ := h
  have hascii : ∀ ch ∈ s.toList, ch.toNat < 128 := fun ch hch => (hcharter ch (hall ch hch)).2.1
  rw [String.length_toList] at hlo hhi
  rw [length_js hascii]
  refine ⟨fun u hu => ?_, hlo, hhi⟩
  obtain ⟨ch, hch, heq⟩ := toNat_js hascii hu
  rw [heq]
  exact hcharter ch (hall ch hch)

theorem char_le {a b : Char} (h : decide (a ≤ b) = true) : a.toNat ≤ b.toNat := of_decide_eq_true h

theorem isLower_range (h : isLower ch = true) : 97 ≤ ch.toNat ∧ ch.toNat ≤ 122 := by
  rw [isLower, decide_eq_true_iff] at h
  exact ⟨h.1, h.2⟩

theorem isUpper_range (h : isUpper ch = true) : 65 ≤ ch.toNat ∧ ch.toNat ≤ 90 := by
  rw [isUpper, decide_eq_true_iff] at h
  exact ⟨h.1, h.2⟩

theorem isDigit_range (h : isDigit ch = true) : 48 ≤ ch.toNat ∧ ch.toNat ≤ 57 := by
  rw [isDigit, decide_eq_true_iff] at h
  exact ⟨h.1, h.2⟩

theorem plain_topic (h : TOPIC_RE s = true) :
    PlainText (js s) ∧ 1 ≤ (js s).length ∧ (js s).length ≤ 128 := by
  apply plain_of_matchesAll _ h
  intro ch hch
  simp only [Bool.or_eq_true] at hch
  rcases hch with (hch | hch) | hch
  · have := isLower_range hch
    omega
  · have := isDigit_range hch
    omega
  · have hin : ch ∈ ['_', '.', '-'] := List.contains_iff_mem.1 hch
    simp only [List.mem_cons, List.not_mem_nil, or_false] at hin
    rcases hin with rfl | rfl | rfl
    all_goals decide

theorem plain_writer (h : WRITER_RE s = true) :
    PlainText (js s) ∧ 1 ≤ (js s).length ∧ (js s).length ≤ 128 := by
  apply plain_of_matchesAll _ h
  intro ch hch
  simp only [Bool.or_eq_true] at hch
  rcases hch with ((hch | hch) | hch) | hch
  · have := isUpper_range hch
    omega
  · have := isLower_range hch
    omega
  · have := isDigit_range hch
    omega
  · have hin : ch ∈ ['_', '.', ':', '-'] := List.contains_iff_mem.1 hch
    simp only [List.mem_cons, List.not_mem_nil, or_false] at hin
    rcases hin with rfl | rfl | rfl | rfl
    all_goals decide

theorem plain_chain (h : CHAIN_RE s = true) : PlainText (js s) ∧ (js s).length = 64 := by
  have hcharter : ∀ ch, (isDigit ch || ('a' ≤ ch && ch ≤ 'f')) = true →
      32 ≤ ch.toNat ∧ ch.toNat < 128 ∧ ch.toNat ≠ 34 ∧ ch.toNat ≠ 92 := by
    intro ch hch
    rw [Bool.or_eq_true] at hch
    rcases hch with hch | hch
    · have := isDigit_range hch
      omega
    · rw [Bool.and_eq_true] at hch
      have hlow : 97 ≤ ch.toNat := char_le hch.1
      have hhigh : ch.toNat ≤ 102 := char_le hch.2
      omega
  obtain ⟨hplain, hlo, hhi⟩ := plain_of_matchesAll hcharter h
  exact ⟨hplain, Nat.le_antisymm hhi hlo⟩

/-- A number below a power of ten has as many digits at most. -/
theorem digits_le (hpos : 0 < k) (h : n < 10 ^ k) : textLength (.num (n : Nat)) ≤ k := by
  have hrepr : (toString ((n : Rat)).num) = n.repr := by
    rw [Rat.num_natCast, Int.toString_eq_repr, Int.repr_eq_if, if_pos (Int.natCast_nonneg n)]
    rfl
  rw [textLength, hrepr]
  exact (Nat.length_repr_le_iff hpos).2 h

theorem digits_pos (n : Nat) : 0 < textLength (.num (n : Nat)) := by
  have hrepr : (toString ((n : Rat)).num) = n.repr := by
    rw [Rat.num_natCast, Int.toString_eq_repr, Int.repr_eq_if, if_pos (Int.natCast_nonneg n)]
    rfl
  rw [textLength, hrepr]
  exact Nat.length_repr_pos

theorem SafeNat.digits (h : SafeNat n) : textLength (.num (n : Nat)) ≤ 16 :=
  digits_le (by decide) (Nat.lt_of_le_of_lt h (by decide))

/-! Lengths of the parts of a page. -/

theorem plain_member (hkey : PlainText key) (hx : x.Plain) : PlainMembers [(key, x)] :=
  ⟨⟨hkey, hx⟩, trivial⟩

theorem plainText_js {s : String} (h : s.toList.all fun ch => 32 ≤ ch.toNat ∧ ch.toNat < 128 ∧
    ch.toNat ≠ 34 ∧ ch.toNat ≠ 92) : PlainText (js s) := by
  have hplain := List.all_iff_forall_prop.1 h
  intro u hu
  obtain ⟨ch, hch, heq⟩ := toNat_js (fun ch hch => (hplain ch hch).2.1) hu
  rw [heq]
  exact hplain ch hch

theorem bracketed_cons (n : Nat) (lengths : List Nat) :
    bracketed (n :: lengths) = n + 2 + (lengths.map (· + 1)).sum := by
  rw [bracketed, List.map_cons, List.sum_cons]
  omega

/-- A stream of a topic in a page: its text has at least 87 characters and at most 148. -/
theorem WriterVec.WellShaped.length {w : WriterVec} (h : w.WellShaped) :
    (writerVecJson w).Plain ∧ 87 ≤ textLength (writerVecJson w) ∧
      textLength (writerVecJson w) ≤ 148 := by
  cases w with
  | live v =>
    obtain ⟨hcontig, hchain, hrgen⟩ := h
    obtain ⟨hplain, hlength⟩ := plain_chain hchain
    have hdigits := hcontig.digits
    have hpos := digits_pos v.contig
    cases hr : v.rgen with
    | none =>
      rw [writerVecJson, hr]
      refine ⟨⟨⟨plainText_js (by decide), trivial⟩, ⟨plainText_js (by decide), hplain⟩, trivial⟩, ?_⟩
      change 87 ≤ bracketed [6 + 3 + textLength (.num (v.contig : Nat)),
        5 + 3 + ((js v.chain).length + 2)] ∧ bracketed [6 + 3 + textLength (.num (v.contig : Nat)),
        5 + 3 + ((js v.chain).length + 2)] ≤ 148
      simp only [bracketed_cons, List.map_cons, List.map_nil, List.sum_cons, List.sum_nil]
      omega
    | some rgen =>
      have hgen := (hrgen rgen hr).digits
      rw [writerVecJson, hr]
      refine ⟨⟨⟨plainText_js (by decide), trivial⟩, ⟨plainText_js (by decide), hplain⟩,
        ⟨plainText_js (by decide), trivial⟩, trivial⟩, ?_⟩
      change 87 ≤ bracketed [6 + 3 + textLength (.num (v.contig : Nat)),
        5 + 3 + ((js v.chain).length + 2), 4 + 3 + textLength (.num (rgen : Nat))] ∧
        bracketed [6 + 3 + textLength (.num (v.contig : Nat)), 5 + 3 + ((js v.chain).length + 2),
          4 + 3 + textLength (.num (rgen : Nat))] ≤ 148
      simp only [bracketed_cons, List.map_cons, List.map_nil, List.sum_cons, List.sum_nil]
      omega
  | retired v =>
    obtain ⟨hfinal, hchain, hrgen⟩ := h
    obtain ⟨hplain, hlength⟩ := plain_chain hchain
    have hdigits := hfinal.digits
    have hgen := hrgen.digits
    refine ⟨⟨⟨plainText_js (by decide), trivial⟩, ⟨plainText_js (by decide), trivial⟩,
      ⟨plainText_js (by decide), hplain⟩, ⟨plainText_js (by decide), trivial⟩, trivial⟩, ?_⟩
    change 87 ≤ bracketed [7 + 3 + 4, 8 + 3 + textLength (.num (v.finalSeq : Nat)),
        10 + 3 + ((js v.finalChain).length + 2), 4 + 3 + textLength (.num (v.rgen : Nat))] ∧
      bracketed [7 + 3 + 4, 8 + 3 + textLength (.num (v.finalSeq : Nat)),
        10 + 3 + ((js v.finalChain).length + 2), 4 + 3 + textLength (.num (v.rgen : Nat))] ≤ 148
    simp only [bracketed_cons, List.map_cons, List.map_nil, List.sum_cons, List.sum_nil]
    omega

/-- What a stream adds to the text of its topic. -/
def writerLength (w : WriterId × WriterVec) : Nat :=
  (js w.1).length + 4 + textLength (writerVecJson w.2)

/-- The cost of a stream names its topic again. -/
theorem haveCost_eq {topic : Topic} (htopic : TOPIC_RE topic = true)
    (hwriter : WRITER_RE w.1 = true) (hw : w.2.WellShaped) :
    haveCost topic w = writerLength w + (js topic).length + 6 := by
  obtain ⟨hplain, -, -⟩ := hw.length
  have hall : (JsonValue.obj [(js topic, .obj [(js w.1, writerVecJson w.2)])]).Plain :=
    ⟨⟨(plain_topic htopic).1, ⟨(plain_writer hwriter).1, hplain⟩, trivial⟩, trivial⟩
  rw [haveCost, utf8ByteLength_stringify hall]
  change bracketed [(js topic).length + 3 + bracketed [(js w.1).length + 3 +
    textLength (writerVecJson w.2)]] = _
  simp only [bracketed_cons, List.map_nil, List.sum_nil, writerLength]
  omega

theorem haveCost_le {topic : Topic} (htopic : TOPIC_RE topic = true)
    (hwriter : WRITER_RE w.1 = true) (hw : w.2.WellShaped) : haveCost topic w ≤ 512 := by
  obtain ⟨-, -, ht⟩ := plain_topic htopic
  obtain ⟨-, -, hwr⟩ := plain_writer hwriter
  obtain ⟨-, -, hle⟩ := hw.length
  rw [haveCost_eq htopic hwriter hw, writerLength]
  omega

def fgenLength (fgen : Option Nat) : Nat :=
  match fgen with
  | none => 0
  | some fgen => 8 + textLength (.num (fgen : Nat))

/-- What a topic adds to the text of a page, its comma aside. -/
def entryLength (v : TopicVec) : Nat :=
  (js v.topic).length + 3 + textLength (topicVecJson v)

theorem length_writersJson (writers : List (WriterId × WriterVec)) :
    textLength (writersJson writers) = 1 + max 1 (writers.map writerLength).sum := by
  rw [writersJson, textLength, bracketed, memberLengths_eq, List.map_map, List.map_map]
  congr 3
  apply List.map_congr_left
  intro w _
  simp only [Function.comp_apply, writerLength]
  omega

theorem entryLength_eq (v : TopicVec) :
    entryLength v = (js v.topic).length + 16 + max 1 (v.writers.rows.map writerLength).sum +
      fgenLength v.fgen := by
  have hwriters := length_writersJson v.writers.rows
  rw [entryLength, topicVecJson]
  cases v.fgen with
  | none =>
    change (js v.topic).length + 3 + bracketed [7 + 3 + textLength (writersJson v.writers.rows)] = _
    simp only [bracketed_cons, List.map_nil, List.sum_nil, fgenLength]
    omega
  | some fgen =>
    change (js v.topic).length + 3 + bracketed [7 + 3 + textLength (writersJson v.writers.rows),
      4 + 3 + textLength (.num (fgen : Nat))] = _
    simp only [bracketed_cons, List.map_cons, List.map_nil, List.sum_cons, List.sum_nil, fgenLength]
    omega

/-- The costs of the streams of a topic. -/
def topicCost (v : TopicVec) : Nat := (v.writers.rows.map (haveCost v.topic)).sum

/-- A topic with streams takes at most half as much again as they cost. -/
theorem entryLength_le {v : TopicVec} (hnamed : v.Named) (hshaped : v.WellShaped)
    (hsome : v.writers.rows ≠ []) : 2 * (entryLength v + 1) ≤ 3 * topicCost v := by
  have hcost : ∀ w ∈ v.writers.rows,
      haveCost v.topic w = writerLength w + (js v.topic).length + 6 ∧ 92 ≤ writerLength w := by
    intro w hw
    obtain ⟨-, hlow, -⟩ := (hshaped.writers w hw).length
    obtain ⟨-, hname, -⟩ := plain_writer (hnamed.writers w hw).1
    refine ⟨haveCost_eq hnamed.topic.1 (hnamed.writers w hw).1 (hshaped.writers w hw), ?_⟩
    rw [writerLength]
    omega
  have hfgen : fgenLength v.fgen ≤ 24 := by
    cases hf : v.fgen with
    | none => exact Nat.zero_le _
    | some fgen =>
      have := (hshaped.fgen fgen hf).digits
      simp only [fgenLength]
      omega
  have hle : ∀ ws : List (WriterId × WriterVec), (∀ w ∈ ws, w ∈ v.writers.rows) →
      (ws.map writerLength).sum ≤ (ws.map (haveCost v.topic)).sum := by
    intro ws hws
    apply List.sum_le_sum
    intro w hw
    have := (hcost w (hws w hw)).1
    omega
  rw [entryLength_eq, topicCost]
  cases hrows : v.writers.rows with
  | nil => exact absurd hrows hsome
  | cons w ws =>
    obtain ⟨hone, hlow⟩ := hcost w (hrows ▸ List.mem_cons_self)
    have hrest := hle ws fun w' hw' => hrows ▸ List.mem_cons_of_mem _ hw'
    rw [List.map_cons, List.map_cons, List.sum_cons, List.sum_cons]
    omega

theorem plain_topicVecJson {v : TopicVec} (hnamed : v.Named) (hshaped : v.WellShaped) :
    (topicVecJson v).Plain := by
  have hwriters : (writersJson v.writers.rows).Plain := by
    apply plainMembers_iff.2
    intro m hm
    obtain ⟨w, hw, rfl⟩ := List.mem_map.1 hm
    exact ⟨(plain_writer (hnamed.writers w hw).1).1, (hshaped.writers w hw).length.1⟩
  have hfgen : PlainMembers (fgenJson v.fgen) := by
    cases v.fgen with
    | none => trivial
    | some fgen => exact ⟨⟨plainText_js (by decide), trivial⟩, trivial⟩
  exact ⟨⟨plainText_js (by decide), hwriters⟩, hfgen⟩

/-- The bytes of a page besides its topics. -/
def MsgHave.frameLength (m : MsgHave) : Nat :=
  45 + (toString m.req).length + textLength (.num (m.page : Nat)) + textLength (.num (m.of : Nat))

/-- The bytes of a page are those of its topics. -/
theorem MsgHave.bytes_eq {m : MsgHave} (h : ∀ v ∈ m.vectors.rows, v.Named ∧ v.WellShaped) :
    m.bytes = m.frameLength + max 1 (m.vectors.rows.map fun v => entryLength v + 1).sum := by
  have hvectors : (vectorsJson m.vectors).Plain := by
    apply plainMembers_iff.2
    intro x hx
    obtain ⟨v, hv, rfl⟩ := List.mem_map.1 hx
    exact ⟨(plain_topic (h v hv).1.topic.1).1, plain_topicVecJson (h v hv).1 (h v hv).2⟩
  have hplain : m.json.Plain :=
    ⟨⟨plainText_js (by decide), plainText_js (by decide)⟩, ⟨plainText_js (by decide), trivial⟩,
      ⟨plainText_js (by decide), trivial⟩, ⟨plainText_js (by decide), trivial⟩,
      ⟨plainText_js (by decide), hvectors⟩, trivial⟩
  have hlength : textLength (vectorsJson m.vectors) =
      1 + max 1 (m.vectors.rows.map fun v => entryLength v + 1).sum := by
    rw [vectorsJson, textLength, bracketed, memberLengths_eq, List.map_map, List.map_map]
    rfl
  have hreq : textLength (.num (m.req : Int)) = (toString m.req).length := by
    rw [textLength, Rat.num_intCast]
  rw [bytes, utf8ByteLength_stringify hplain]
  change bracketed [1 + 3 + (4 + 2), 3 + 3 + textLength (.num (m.req : Int)),
    4 + 3 + textLength (.num (m.page : Nat)), 2 + 3 + textLength (.num (m.of : Nat)),
    7 + 3 + textLength (vectorsJson m.vectors)] = _
  rw [hlength, hreq, frameLength]
  simp only [bracketed_cons, List.map_cons, List.map_nil, List.sum_cons, List.sum_nil]
  omega

/-- The topics of a page that have streams. -/
def MsgHave.bare (m : MsgHave) : MsgHave :=
  { m with vectors := m.vectors.filter fun v => !v.writers.rows.isEmpty }

/-- What the topics without streams add to the text of a page. -/
def MsgHave.emptyLength (m : MsgHave) : Nat :=
  ((m.vectors.rows.filter fun v => v.writers.rows.isEmpty).map fun v => entryLength v + 1).sum

/-- Topics with streams first: the bytes of a page are those of the bare one and of the others. -/
theorem MsgHave.bytes_bare {m : MsgHave} (h : ∀ v ∈ m.vectors.rows, v.Named ∧ v.WellShaped) :
    m.bytes = m.frameLength +
      max 1 ((m.bare.vectors.rows.map fun v => entryLength v + 1).sum + m.emptyLength) := by
  have hsplit : ∀ rows : List TopicVec, (rows.map fun v => entryLength v + 1).sum =
      ((rows.filter fun v => !v.writers.rows.isEmpty).map fun v => entryLength v + 1).sum +
        ((rows.filter fun v => v.writers.rows.isEmpty).map fun v => entryLength v + 1).sum := by
    intro rows
    induction rows with
    | nil => rfl
    | cons v rows ih =>
      cases hv : v.writers.rows.isEmpty with
      | true =>
        simp only [List.filter_cons, hv, Bool.not_true, Bool.false_eq_true, if_false, if_true,
          List.map_cons, List.sum_cons, ih]
        omega
      | false =>
        simp only [List.filter_cons, hv, Bool.not_false, Bool.false_eq_true, if_false, if_true,
          List.map_cons, List.sum_cons, ih]
        omega
  rw [bytes_eq h, hsplit]
  rfl

/-! The pages stay within the budget. -/

/-- The costs of the streams of a page. -/
def pageCost (q : HaveVectors) : Nat := (q.rows.map topicCost).sum

/-- A stream costs at most once, and a topic without streams nothing. -/
theorem pageCost_assignTopic {V : HaveVectors} (h : Below q V) (hV : V.get topic = some v)
    (fgen : Option Nat) (hws : ∀ w ∈ writers, w ∈ v.writers.rows) (hlen : writers.length ≤ 1) :
    pageCost (assignTopic q topic fgen writers) ≤
      pageCost q + (writers.map (haveCost topic)).sum := by
  have htopicCost : topicCost { topicVecOf q topic with
      fgen := fgen.or (topicVecOf q topic).fgen
      writers := writers.foldl .upsert (topicVecOf q topic).writers } ≤
        topicCost (topicVecOf q topic) + (writers.map (haveCost topic)).sum := by
    have hname := topicVecOf_topic q topic
    rw [topicCost, topicCost, hname]
    dsimp only
    cases writers with
    | nil => exact Nat.le_refl _
    | cons w rest =>
      obtain rfl : rest = [] := List.length_eq_zero_iff.1 (by simpa using hlen)
      rw [List.foldl_cons, List.foldl_nil, List.map_singleton, List.sum_singleton]
      cases hold : (topicVecOf q topic).writers.get w.1 with
      | none =>
        rw [Table.rows_upsert_of_get_eq_none hold, List.map_append, List.sum_append,
          List.map_singleton, List.sum_singleton]
      | some w' =>
        -- the stream is in the page already, as the vectors have it
        obtain ⟨hin, hkey⟩ := Table.get_eq_some_iff.1 hold
        have hat : haveAt q (.inr (topic, w.1)) = some (.inr w'.2) := by
          rw [haveAt, ← writers_topicVecOf, hold]
          rfl
        have heq := (h _ _ hat).symm.trans (haveAt_writer hV (hws w List.mem_cons_self))
        obtain rfl : w' = w := Prod.ext hkey (Sum.inr.inj (Option.some.inj heq))
        obtain ⟨before, after, hrows, hupsert⟩ := Table.rows_upsert_split hold
        rw [hupsert, ← hrows]
        exact Nat.le_add_right _ _
  rw [pageCost, pageCost, assignTopic]
  cases hold : q.get topic with
  | none =>
    have hnone : topicVecOf q topic = ⟨topic, none, .empty⟩ := by
      rw [topicVecOf, hold]
      rfl
    rw [hnone] at htopicCost ⊢
    rw [Table.rows_upsert_of_get_eq_none hold, List.map_append, List.sum_append,
      List.map_singleton, List.sum_singleton]
    have hzero : topicCost ⟨topic, none, .empty⟩ = 0 := rfl
    rw [hzero, Nat.zero_add] at htopicCost
    exact Nat.add_le_add_left htopicCost _
  | some v' =>
    have hname := topicVecOf_topic q topic
    rw [topicVecOf_of_get hold] at htopicCost hname ⊢
    have hold' : q.get ({ v' with
      fgen := fgen.or v'.fgen
      writers := writers.foldl .upsert v'.writers } : TopicVec).topic = some v' := by
      rw [← hold]
      exact congrArg q.get hname
    obtain ⟨before, after, hrows, hupsert⟩ := Table.rows_upsert_split hold'
    rw [hupsert, hrows, List.map_append, List.map_append, List.map_cons, List.map_cons,
      List.sum_append, List.sum_append, List.sum_cons, List.sum_cons, Nat.add_assoc, Nat.add_assoc]
    apply Nat.add_le_add_left
    rw [Nat.add_comm (after.map topicCost).sum, ← Nat.add_assoc]
    exact Nat.add_le_add_right htopicCost _

namespace Pagination

/-- No page costs more than the budget, and `bytes` is no less than the current one costs. -/
structure Costs (budget : Nat) (p : Pagination) : Prop where
  pages : ∀ q ∈ p.pages, pageCost q ≤ budget
  current : pageCost p.current ≤ p.bytes
  bytes : p.bytes ≤ budget
  start : p.current.rows = [] → p.bytes = 0

variable {V : HaveVectors} {had : HaveSlot → Prop}

theorem Costs.turn (h : Costs budget p) : Costs budget p.turn where
  pages := by
    intro q hq
    rcases List.mem_append.1 hq with hq | hq
    · exact h.pages q hq
    · rw [List.mem_singleton.1 hq]
      exact h.current.trans h.bytes
  current := Nat.le_refl 0
  bytes := Nat.zero_le _
  start := fun _ => rfl

theorem rows_assignTopic_ne_nil (q : HaveVectors) (topic : Topic) (fgen : Option Nat)
    (writers : List (WriterId × WriterVec)) : (assignTopic q topic fgen writers).rows ≠ [] :=
  List.ne_nil_of_mem (Table.mem_upsert_self _ _)

theorem Costs.addWriter (h : Costs budget p) (hcut : Cuts V p had) (hv : v ∈ V.rows)
    (hw : w ∈ v.writers.rows) (hcost : haveCost v.topic w ≤ budget) :
    Costs budget (p.addWriter budget v w) := by
  have hone : ∀ w' ∈ [w], w' ∈ v.writers.rows := fun w' hw' => List.mem_singleton.1 hw' ▸ hw
  have hput : ∀ p : Pagination, Costs budget p → Cuts V p had →
      p.bytes + haveCost v.topic w ≤ budget →
      Costs budget { p with
        current := assignTopic p.current v.topic v.fgen [w]
        bytes := p.bytes + haveCost v.topic w } := by
    intro p h hcut hfits
    have hle := pageCost_assignTopic (hcut.below _ (mem_all.2 (.inr rfl))) (Table.get_of_mem hv)
      v.fgen hone (Nat.le_refl 1)
    rw [List.map_singleton, List.sum_singleton] at hle
    exact ⟨h.pages, hle.trans (Nat.add_le_add_right h.current _), hfits,
      fun hnil => absurd hnil (rows_assignTopic_ne_nil _ _ _ _)⟩
  rw [Pagination.addWriter]
  split
  · exact hput _ h.turn hcut.turn (by rw [Pagination.turn, Nat.zero_add]; exact hcost)
  · next hfits =>
    apply hput _ h hcut
    by_contra hover
    apply hfits
    refine ⟨Nat.not_le.1 hover, List.length_pos_of_ne_nil fun hnil => ?_⟩
    rw [h.start hnil, Nat.zero_add] at hover
    exact hover hcost

theorem Costs.addTopic (h : Costs budget p) (hcut : Cuts V p had) (hv : v ∈ V.rows)
    (hcost : ∀ w ∈ v.writers.rows, haveCost v.topic w ≤ budget) :
    Costs budget (p.addTopic budget v) := by
  have hloop : ∀ writers : List (WriterId × WriterVec), (∀ w ∈ writers, w ∈ v.writers.rows) →
      ∀ (p : Pagination) (had : HaveSlot → Prop), Costs budget p → Cuts V p had →
        Costs budget (writers.foldl (Pagination.addWriter budget v) p) := by
    intro writers hws
    induction writers with
    | nil => exact fun _ _ h _ => h
    | cons w writers ih =>
      intro p had h hcut
      have hw := hws w List.mem_cons_self
      exact ih (fun w hw => hws w (List.mem_cons_of_mem _ hw)) _ _
        (h.addWriter hcut hv hw (hcost w hw)) (hcut.addWriter hv hw budget)
  have hwriters := hloop v.writers.rows (fun _ hw => hw) p had h hcut
  have hcut' := hcut.addWriters hv budget v.writers.rows fun _ hw => hw
  rw [Pagination.addTopic]
  split
  · have hnone : ∀ w ∈ ([] : List (WriterId × WriterVec)), w ∈ v.writers.rows :=
      fun _ hw => by cases hw
    have hle := pageCost_assignTopic (hcut'.below _ (mem_all.2 (.inr rfl))) (Table.get_of_mem hv)
      v.fgen hnone (Nat.zero_le 1)
    exact ⟨hwriters.pages, hle.trans hwriters.current, hwriters.bytes,
      fun hnil => absurd hnil (rows_assignTopic_ne_nil _ _ _ _)⟩
  · exact hwriters

end Pagination

/-- No page costs more than the budget when no stream does. -/
theorem pageCost_le {budget : Nat} {V : HaveVectors}
    (hcost : ∀ v ∈ V.rows, ∀ w ∈ v.writers.rows, haveCost v.topic w ≤ budget) :
    ∀ q ∈ havePages budget V, pageCost q ≤ budget := by
  have hloop : ∀ vs : List TopicVec, (∀ v ∈ vs, v ∈ V.rows) →
      ∀ (p : Pagination) (had : HaveSlot → Prop), p.Costs budget → Pagination.Cuts V p had →
        (vs.foldl (Pagination.addTopic budget) p).Costs budget := by
    intro vs hvs
    induction vs with
    | nil => exact fun _ _ h _ => h
    | cons v vs ih =>
      intro p had h hcut
      have hv := hvs v List.mem_cons_self
      exact ih (fun v hv => hvs v (List.mem_cons_of_mem _ hv)) _ _
        (h.addTopic hcut hv (hcost v hv)) (hcut.addTopic hv budget)
  have hinit : Pagination.init.Costs budget :=
    ⟨fun _ hq => (nomatch hq), Nat.le_refl 0, Nat.zero_le _, fun _ => rfl⟩
  have hcosts := hloop V.rows (fun _ hv => hv) _ _ hinit (Pagination.cuts_init V)
  intro q hq
  rcases Pagination.mem_all.1 hq with hq | rfl
  · exact hcosts.pages q hq
  · exact hcosts.current.trans hcosts.bytes

/-! Topics without streams. -/

/-- A topic that has no streams on a page has none at all. -/
def Unstreamed (V q : HaveVectors) : Prop :=
  ∀ v ∈ q.rows, v.writers.rows = [] → ∀ v', V.get v.topic = some v' → v'.writers.rows = []

theorem Unstreamed.assignTopic {V : HaveVectors} (h : Unstreamed V q) (hV : V.get topic = some v)
    (hws : writers = [] → v.writers.rows = []) (fgen : Option Nat) :
    Unstreamed V (assignTopic q topic fgen writers) := by
  intro u hu hnone u' hu'
  rcases Table.mem_upsert.1 hu with rfl | ⟨hu, -⟩
  · have htopic : (topicVecOf q topic).topic = topic := topicVecOf_topic q topic
    have hget : V.get topic = some u' := by
      rw [← htopic]
      exact hu'
    rw [hV] at hget
    rw [← Option.some.inj hget]
    apply hws
    cases writers with
    | nil => rfl
    | cons w writers =>
      exfalso
      have hin : (((w :: writers).foldl Table.upsert (topicVecOf q topic).writers).get w.1).isSome := by
        rw [Table.get_foldl_upsert]
        have hlast : ((w :: writers).filter fun w' => w'.1 = w.1).getLast?.isSome := by
          rw [List.getLast?_isSome]
          exact List.ne_nil_of_mem (List.mem_filter.2 ⟨List.mem_cons_self, decide_eq_true rfl⟩)
        rw [Option.isSome_or, hlast]
        rfl
      obtain ⟨w', hw'⟩ := Option.isSome_iff_exists.1 hin
      have hmem := (Table.get_eq_some_iff.1 hw').1
      have hrows : ((w :: writers).foldl Table.upsert (topicVecOf q topic).writers).rows = [] := hnone
      rw [hrows] at hmem
      cases hmem
  · exact h u hu hnone u' hu'

theorem unstreamed_pages (budget : Nat) (V : HaveVectors) :
    ∀ q ∈ havePages budget V, Unstreamed V q := by
  have hempty : Unstreamed V .empty := fun _ hv => nomatch hv
  have hturn : ∀ p : Pagination, (∀ q ∈ p.all, Unstreamed V q) →
      ∀ q ∈ p.turn.all, Unstreamed V q := by
    intro p h q hq
    rcases Pagination.mem_all.1 hq with hq | rfl
    · exact h q hq
    · exact hempty
  have hput : ∀ (p : Pagination) (v : TopicVec) (writers : List (WriterId × WriterVec)) (bytes : Nat),
      v ∈ V.rows → (writers = [] → v.writers.rows = []) → (∀ q ∈ p.all, Unstreamed V q) →
      ∀ q ∈ ({ p with
        current := assignTopic p.current v.topic v.fgen writers
        bytes := bytes } : Pagination).all, Unstreamed V q := by
    intro p v writers bytes hv hws h q hq
    rcases Pagination.mem_all.1 hq with hq | rfl
    · exact h q (Pagination.mem_all.2 (.inl hq))
    · exact (h _ (Pagination.mem_all.2 (.inr rfl))).assignTopic (Table.get_of_mem hv) hws _
  have hwriters : ∀ v ∈ V.rows, ∀ (writers : List (WriterId × WriterVec)) (p : Pagination),
      (∀ q ∈ p.all, Unstreamed V q) →
      ∀ q ∈ (writers.foldl (Pagination.addWriter budget v) p).all, Unstreamed V q := by
    intro v hv writers
    induction writers with
    | nil => exact fun _ h => h
    | cons w writers ih =>
      intro p h
      apply ih
      rw [Pagination.addWriter]
      apply hput _ v [w] _ hv (fun hnil => nomatch hnil)
      split
      · exact hturn p h
      · exact h
  have htopics : ∀ vs : List TopicVec, (∀ v ∈ vs, v ∈ V.rows) → ∀ p : Pagination,
      (∀ q ∈ p.all, Unstreamed V q) →
      ∀ q ∈ (vs.foldl (Pagination.addTopic budget) p).all, Unstreamed V q := by
    intro vs hvs
    induction vs with
    | nil => exact fun _ h => h
    | cons v vs ih =>
      intro p h
      have hv := hvs v List.mem_cons_self
      apply ih fun v hv => hvs v (List.mem_cons_of_mem _ hv)
      have hall := hwriters v hv v.writers.rows p h
      rw [Pagination.addTopic]
      split
      · next hnil => exact hput _ v [] _ hv (fun _ => List.length_eq_zero_iff.1 hnil) hall
      · exact hall
  apply htopics V.rows (fun _ hv => hv)
  intro q hq
  rcases Pagination.mem_all.1 hq with hq | rfl
  · cases hq
  · exact hempty

/-! The pages of a node. -/

def NamedAt : HaveSlot → Prop
  | .inl topic => TOPIC_RE topic = true ∧ topic ≠ RESERVED_NAME
  | .inr k => WRITER_RE k.2 = true ∧ k.2 ≠ RESERVED_NAME

def ShapedAt : Option Nat ⊕ WriterVec → Prop
  | .inl fgen => ∀ n, fgen = some n → SafeNat n
  | .inr w => w.WellShaped

/-- What is at a place of the vectors stands in a row of theirs. -/
theorem row_of_haveAt {V : HaveVectors} (h : haveAt V s = some x) :
    ∃ v ∈ V.rows, (s = .inl v.topic ∧ x = .inl v.fgen) ∨
      ∃ w ∈ v.writers.rows, s = .inr (v.topic, w.1) ∧ x = .inr w.2 := by
  obtain ⟨v, hv, hs⟩ := slot_of_haveAt (by rw [h]; rfl)
  have hget := Table.get_of_mem hv
  rcases hs with rfl | ⟨w, hw, rfl⟩
  · exact ⟨v, hv, .inl ⟨rfl, Option.some.inj (h.symm.trans (haveAt_topic hget))⟩⟩
  · exact ⟨v, hv, .inr ⟨w, hw, rfl, Option.some.inj (h.symm.trans (haveAt_writer hget hw))⟩⟩

theorem named_iff {V : HaveVectors} :
    (∀ v ∈ V.rows, v.Named) ↔ ∀ s x, haveAt V s = some x → NamedAt s := by
  constructor
  · intro h s x hx
    obtain ⟨v, hv, ⟨rfl, -⟩ | ⟨w, hw, rfl, -⟩⟩ := row_of_haveAt hx
    · exact (h v hv).topic
    · exact (h v hv).writers w hw
  · intro h v hv
    have hget := Table.get_of_mem hv
    exact ⟨h _ _ (haveAt_topic hget), fun w hw => h _ _ (haveAt_writer hget hw)⟩

theorem wellShaped_iff {V : HaveVectors} :
    (∀ v ∈ V.rows, v.WellShaped) ↔ ∀ s x, haveAt V s = some x → ShapedAt x := by
  constructor
  · intro h s x hx
    obtain ⟨v, hv, ⟨-, rfl⟩ | ⟨w, hw, -, rfl⟩⟩ := row_of_haveAt hx
    · exact (h v hv).fgen
    · exact (h v hv).writers w hw
  · intro h v hv
    have hget := Table.get_of_mem hv
    exact ⟨h _ _ (haveAt_topic hget), fun w hw => h _ _ (haveAt_writer hget hw)⟩

/-- Pages have the names of the vectors. -/
theorem named_pages {V : HaveVectors} (h : ∀ v ∈ V.rows, v.Named) (budget : Nat) :
    ∀ q ∈ havePages budget V, ∀ v ∈ q.rows, v.Named := by
  intro q hq
  apply named_iff.2
  exact fun s x hx => named_iff.1 h s x ((havePages_cut budget V).1 q hq s x hx)

/-- The pages have the shape of the vectors, since each place is on one. -/
theorem wellShaped_pages {V : HaveVectors} (budget : Nat) :
    (∀ q ∈ havePages budget V, ∀ v ∈ q.rows, v.WellShaped) ↔ ∀ v ∈ V.rows, v.WellShaped := by
  obtain ⟨hbelow, hcovers⟩ := havePages_cut budget V
  constructor
  · intro h
    apply wellShaped_iff.2
    intro s x hx
    obtain ⟨q, hq, hsome⟩ := hcovers s (by rw [hx]; rfl)
    obtain ⟨y, hy⟩ := Option.isSome_iff_exists.1 hsome
    have heq : y = x := Option.some.inj ((hbelow q hq s y hy).symm.trans hx)
    exact heq ▸ wellShaped_iff.1 (h q hq) s y hy
  · intro h q hq
    apply wellShaped_iff.2
    exact fun s x hx => wellShaped_iff.1 h s x (hbelow q hq s x hx)

theorem length_toString_le {req : Int}
    (h : -(MAX_SAFE_INTEGER : Int) ≤ req ∧ req ≤ MAX_SAFE_INTEGER) : (toString req).length ≤ 17 := by
  have hdigits : req.natAbs.repr.length ≤ 16 := by
    apply (Nat.length_repr_le_iff (by decide)).2
    have hbig : (MAX_SAFE_INTEGER : Int) < 10 ^ 16 := by decide
    omega
  rw [Int.toString_eq_repr, Int.repr_eq_if]
  split
  · next hpos =>
    have heq : req.toNat = req.natAbs := by omega
    rw [heq]
    omega
  · next hneg =>
    have heq : (-req).toNat = req.natAbs := by omega
    rw [heq, String.length_append]
    have hsign : "-".length = 1 := rfl
    omega

/-- The streams of a page fit into a frame, however long their names are. -/
theorem bare_bytes_le {constants : Constants} {m : MsgHave} (hmax : 1024 ≤ constants.MAX_FRAME_BYTES)
    (hreq : -(MAX_SAFE_INTEGER : Int) ≤ m.req ∧ m.req ≤ MAX_SAFE_INTEGER)
    (hpage : m.page ≤ m.of) (hof : SafeNat m.of) (hrows : ∀ v ∈ m.vectors.rows, v.Named ∧ v.WellShaped)
    (hcost : pageCost m.vectors ≤ constants.MAX_FRAME_BYTES / 2) :
    m.bare.bytes ≤ constants.MAX_FRAME_BYTES := by
  have hbare : m.bare.vectors.rows = m.vectors.rows.filter fun v => !v.writers.rows.isEmpty := rfl
  have hrows' : ∀ v ∈ m.bare.vectors.rows, v.Named ∧ v.WellShaped := by
    intro v hv
    rw [hbare] at hv
    exact hrows v (List.mem_filter.1 hv).1
  have hcosts : (m.bare.vectors.rows.map topicCost).sum ≤ pageCost m.vectors := by
    rw [pageCost, hbare]
    exact (List.filter_sublist.map topicCost).sum_le_sum fun _ _ => Nat.zero_le _
  have hentries : ∀ rows : List TopicVec, (∀ v ∈ rows, v ∈ m.bare.vectors.rows) →
      2 * (rows.map fun v => entryLength v + 1).sum ≤ 3 * (rows.map topicCost).sum := by
    intro rows hin
    induction rows with
    | nil => exact Nat.le_refl 0
    | cons v rows ih =>
      have hv := hin v List.mem_cons_self
      have hrest := ih fun v hv => hin v (List.mem_cons_of_mem _ hv)
      have hone := entryLength_le (hrows' v hv).1 (hrows' v hv).2 fun hnil => by
        have hne := (List.mem_filter.1 (hbare ▸ hv)).2
        rw [hnil] at hne
        cases hne
      rw [List.map_cons, List.map_cons, List.sum_cons, List.sum_cons]
      omega
  have hsum := hentries m.bare.vectors.rows fun _ hv => hv
  have hframe : m.bare.frameLength ≤ 94 := by
    have hdigits := length_toString_le hreq
    have hpages : textLength (.num (m.page : Nat)) ≤ 16 := SafeNat.digits (hpage.trans hof)
    have hlast := hof.digits
    change 45 + (toString m.req).length + textLength (.num (m.page : Nat)) +
      textLength (.num (m.of : Nat)) ≤ 94
    omega
  rw [MsgHave.bytes_eq hrows']
  omega

/-- A page is sent and taken. -/
def MsgHave.Emitted (constants : Constants) (m : MsgHave) : Prop :=
  serializeHave constants m = .ok (stringify m.json) ∧ parseHave constants m = .ok m

/-- The streams of a page and the topics without streams on it fit into a frame. -/
def MsgHave.Fits (constants : Constants) (m : MsgHave) : Prop :=
  m.bare.bytes + m.emptyLength ≤
    constants.MAX_FRAME_BYTES + if m.bare.vectors.rows = [] ∧ m.emptyLength ≠ 0 then 1 else 0

theorem MsgHave.bytes_le_iff {constants : Constants} {m : MsgHave}
    (h : ∀ v ∈ m.vectors.rows, v.Named ∧ v.WellShaped) :
    m.bytes ≤ constants.MAX_FRAME_BYTES ↔ m.Fits constants := by
  have hrows' : ∀ v ∈ m.bare.vectors.rows, v.Named ∧ v.WellShaped := fun v hv =>
    h v (List.mem_filter.1 (show v ∈ m.vectors.rows.filter _ from hv)).1
  have hframe : m.bare.frameLength = m.frameLength := rfl
  rw [Fits, bytes_bare h, bytes_eq hrows', hframe]
  cases hbare : m.bare.vectors.rows with
  | nil =>
    rw [List.map_nil, List.sum_nil]
    split
    · omega
    · next hzero =>
      have hzero : m.emptyLength = 0 := by
        by_contra hne
        exact hzero ⟨rfl, hne⟩
      omega
  | cons v rows =>
    rw [List.map_cons, List.sum_cons, if_neg (fun hnil => nomatch hnil.1)]
    omega

/-- Vectors of two topics, one of them without streams. -/
def shapedTopics : HaveVectors :=
  .ofRows TopicVec.topic [
    ⟨"t", some 3, .upsert .empty ("w", .live ⟨1, Sha256.hexDigest [], none⟩)⟩, ⟨"u", none, .empty⟩]

/-- The floors that the header of an export stream brings. -/
def importFloors (topic : Topic) (known : (env.topics topic).isSome = true)
    (floors : List (WriterId × Floor)) : List (QueueItem env) :=
  floors.filterMap fun f =>
    if f.2.seq ≤ MAX_SAFE_INTEGER ∧ 1 ≤ f.2.seq ∧ (assertWriter f.1).isOk then
      some (.adoptFloor topic f.1 f.2.seq f.2.chain known)
    else none

/-- A node that imported a floor whose chain is no hash. -/
def importedFloor : Core :=
  runCore (hostEnv "b") Core.init
    [hostFlush "b" 20 (importFloors "t" (hostEnv_known "b") [("w", ⟨5, "x"⟩)])]

end Seqscribe
