import Seqscribe.RegisterFold

namespace Seqscribe
set_option autoImplicit true

open Replay

/-! What the key states of a register topic cover, over any interleaving of a pass with commits. -/

namespace Db

/-- An entry of the topic by its id, wherever it is. -/
def lookupAll (db : Db) (topic : Topic) : Lookup := fun writer seq =>
  ((db.sqLog.get (topic, writer, seq)).map LogRow.entry).or
    ((db.sqArchive.get (topic, writer, seq)).map ArchiveRow.entry)

theorem known_of_lookupAll {db : Db} (h : db.lookupAll topic writer seq = some e) :
    db.Known topic e ∧ e.writer = writer ∧ e.seq = seq := by
  have hid : ∀ {e : LogEntry}, e.id = (topic, writer, seq) →
      e.topic = topic ∧ e.writer = writer ∧ e.seq = seq := by
    intro e he
    simpa [LogEntry.id] using he
  unfold lookupAll at h
  rcases Option.or_eq_some_iff.1 h with hlog | ⟨-, harch⟩
  · obtain ⟨r, hr, rfl⟩ := Option.map_eq_some_iff.1 hlog
    obtain ⟨hmem, hk⟩ := Table.get_eq_some_iff.1 hr
    obtain ⟨ht, hws⟩ := hid hk
    exact ⟨.inr ⟨ht, r, hmem, rfl⟩, hws⟩
  · obtain ⟨a, ha, rfl⟩ := Option.map_eq_some_iff.1 harch
    obtain ⟨hmem, hk⟩ := Table.get_eq_some_iff.1 ha
    obtain ⟨ht, hws⟩ := hid hk
    exact ⟨.inl ⟨ht, a, hmem, rfl⟩, hws⟩

theorem Disjoint.lookupAll {db : Db} (hd : db.Disjoint) (h : db.Known topic e) :
    db.lookupAll topic e.writer e.seq = some e := by
  unfold Db.lookupAll
  rcases h with ⟨rfl, a, ha, rfl⟩ | ⟨rfl, r, hr, rfl⟩
  · have hga := Table.get_of_mem ha
    have hnone : db.sqLog.get a.entry.id = none := by
      rw [Table.get_eq_none_iff]
      intro r hr heq
      have := hd r hr
      rw [heq, hga] at this
      cases this
    have hga' : db.sqArchive.get (a.entry.topic, a.entry.writer, a.entry.seq) = some a := hga
    have hnone' : db.sqLog.get (a.entry.topic, a.entry.writer, a.entry.seq) = none := hnone
    rw [hga', hnone']
    rfl
  · have hgr : db.sqLog.get (r.entry.topic, r.entry.writer, r.entry.seq) = some r :=
      Table.get_of_mem hr
    rw [hgr]
    rfl

/-- Causal pointers go backward in the total order. -/
def Backward (db : Db) (topic : Topic) : Prop :=
  ∀ e e', db.Known topic e → db.Known topic e' → e.causal = some (e'.writer, e'.seq) →
    orderOf e' < orderOf e

/-- Two stores hold the same entries at or below an order. -/
def AgreeTo (db db' : Db) (topic : Topic) (o : Order) : Prop :=
  ∀ e, orderOf e ≤ o → (db.Known topic e ↔ db'.Known topic e)

/-- A causal walk stays below its start. -/
theorem AgreeTo.walk {db db' : Db} (hag : AgreeTo db db' topic o) (hd : db.Disjoint)
    (hd' : db'.Disjoint) (hb : db.Backward topic) (hb' : db'.Backward topic) {cur : LogEntry}
    (hcur : db.Known topic cur) (hle : orderOf cur ≤ o) (a : EntryId) (hops : Nat) :
    ancestorWalk (db.lookupAll topic) a hops (some cur) =
      ancestorWalk (db'.lookupAll topic) a hops (some cur) := by
  induction hops generalizing cur with
  | zero => rfl
  | succ hops ih =>
    unfold ancestorWalk
    cases hc : cur.causal with
    | none => rfl
    | some c =>
      dsimp only
      split
      · rfl
      · cases hl : db.lookupAll topic c.1 c.2 with
        | some x =>
          obtain ⟨hx, hw, hs⟩ := known_of_lookupAll hl
          have hlt := hb cur x hcur hx (by rw [hc, hw, hs])
          have hxle := (le_of_lt hlt).trans hle
          have hx' := (hag x hxle).1 hx
          have hl' := hd'.lookupAll hx'
          rw [hw, hs] at hl'
          rw [hl']
          exact ih hx hxle
        | none =>
          cases hl' : db'.lookupAll topic c.1 c.2 with
          | none => cases hops <;> rfl
          | some x =>
            obtain ⟨hx, hw, hs⟩ := known_of_lookupAll hl'
            have hcur' := (hag cur hle).1 hcur
            have hlt := hb' cur x hcur' hx (by rw [hc, hw, hs])
            have hx' := (hag x ((le_of_lt hlt).trans hle)).2 hx
            have hsome := hd.lookupAll hx'
            rw [hw, hs, hl] at hsome
            cases hsome

theorem AgreeTo.isAncestor {db db' : Db} (hag : AgreeTo db db' topic o) (hd : db.Disjoint)
    (hd' : db'.Disjoint) (hb : db.Backward topic) (hb' : db'.Backward topic) {e : LogEntry}
    (he : db.Known topic e) (hle : orderOf e ≤ o) (a : EntryId) :
    isAncestor (db.lookupAll topic) a e = isAncestor (db'.lookupAll topic) a e :=
  hag.walk hd hd' hb hb' he hle a _

/-- Without an archive the log is all there is. -/
theorem lookupAll_of_unarchived {db : Db} (h : db.sqArchive.rows = []) :
    db.lookupAll topic = db.lookup topic := by
  funext writer seq
  have hnone : db.sqArchive.get (topic, writer, seq) = none := by
    rw [Table.get_eq_none_iff, h]
    exact fun r hr => by cases hr
  rw [lookupAll, hnone, lookup, Option.map_none, Option.or_none]

end Db

/-- The key states of the fold over everything known up to a cursor. -/
def Exact (d : RegisterDeps) (db : Db) (topic : Topic) (cursor : Option Order) (keys : Keys) :
    Prop :=
  ∃ X, Covers orderOf (fun e => db.Known topic e ∧ Upto cursor e)
      (fun e => db.Known topic e ∧ Upto cursor e) X ∧
    ∀ key, keys.state key = (foldAll d (db.lookupAll topic) X).state key

section
variable {d : RegisterDeps} {topic : Topic}

theorem Exact.init {db : Db} : Exact d db topic none .empty := by
  refine ⟨[], Covers.nil ?_, fun _ => rfl⟩
  rintro e ⟨-, o, ho, -⟩
  cases ho

theorem Exact.congr {db db' : Db} (h : Exact d db topic cursor keys) (hd : db.Disjoint)
    (hd' : db'.Disjoint) (hb : db.Backward topic) (hb' : db'.Backward topic)
    (hag : ∀ o ∈ cursor, db.AgreeTo db' topic o) : Exact d db' topic cursor keys := by
  obtain ⟨X, hX, hk⟩ := h
  have hiff : ∀ e, db'.Known topic e ∧ Upto cursor e ↔ db.Known topic e ∧ Upto cursor e := by
    rintro e
    constructor
    · rintro ⟨he, o, ho, hle⟩
      exact ⟨(hag o ho e hle).2 he, o, ho, hle⟩
    · rintro ⟨he, o, ho, hle⟩
      exact ⟨(hag o ho e hle).1 he, o, ho, hle⟩
  refine ⟨X, hX.mono (fun e => (hiff e).1) fun e => (hiff e).2, fun key => ?_⟩
  rw [hk key]
  congr 1
  apply foldAll_congr
  intro e he a
  obtain ⟨hknown, o, ho, hle⟩ := hX.sound e he
  exact (hag o ho).isAncestor hd hd' hb hb' hknown hle a

/-- Folding the known entries up to an order. -/
theorem Exact.foldTo {db : Db} (h : Exact d db topic cursor keys) {Y : List LogEntry} {ord : Order}
    (hsorted : Y.Pairwise fun a b => orderOf a < orderOf b) (hle : ∀ o ∈ cursor, o ≤ ord)
    (hY : ∀ y ∈ Y, db.Known topic y ∧ ¬ Upto cursor y ∧ orderOf y ≤ ord)
    (hall : ∀ x, db.Known topic x → orderOf x ≤ ord → Upto cursor x ∨ x ∈ Y) :
    Exact d db topic (some ord) (Y.foldl (foldKeys d (db.lookupAll topic)) keys) := by
  obtain ⟨X, hX, hk⟩ := h
  refine ⟨X ++ Y, ?_, fun key => ?_⟩
  · apply hX.append hsorted
    · intro x hx y hy
      obtain ⟨-, o, ho, hxo⟩ := hX.sound x hx
      exact lt_of_le_of_lt hxo (not_upto.1 (hY y hy).2.1 o ho)
    · intro x hx
      obtain ⟨hknown, o, ho, hxo⟩ := hX.sound x hx
      exact ⟨hknown, ord, rfl, hxo.trans (hle o ho)⟩
    · exact fun y hy => ⟨(hY y hy).1, ord, rfl, (hY y hy).2.2⟩
    · rintro x ⟨hx, o, ⟨⟩, hxo⟩
      exact (hall x hx hxo).imp (fun hu => ⟨hx, hu⟩) id
  · rw [foldAll, List.foldl_append, state_foldl, state_foldl, hk key]
    rfl

/-- Folding the next known entry. -/
theorem Exact.fold {db : Db} (h : Exact d db topic cursor keys) (he : db.Known topic e)
    (hgt : ¬ Upto cursor e)
    (hnext : ∀ x, db.Known topic x → orderOf x ≤ orderOf e → Upto cursor x ∨ x = e) :
    Exact d db topic (some (orderOf e)) (foldKeys d (db.lookupAll topic) keys e) := by
  have hto : Exact d db topic (some (orderOf e))
      ([e].foldl (foldKeys d (db.lookupAll topic)) keys) := h.foldTo (List.pairwise_singleton _ _)
    (fun o ho => le_of_lt (not_upto.1 hgt o ho)) (fun y hy => ?_)
    fun x hx hle => (hnext x hx hle).imp id fun h => by simpa using h
  · exact hto
  · rw [List.mem_singleton.1 hy]
    exact ⟨he, hgt, le_refl _⟩

/-- Two exact states up to the same cursor agree on every key. -/
theorem Exact.unique {db : Db} (h : Exact d db topic cursor keys)
    (h' : Exact d db topic cursor keys') (key : Key) : keys.state key = keys'.state key := by
  obtain ⟨X, hX, hk⟩ := h
  obtain ⟨X', hX', hk'⟩ := h'
  rw [hk key, hk' key, hX.eq hX']

end

namespace RegisterHub

variable (d : RegisterDeps) (topic : Topic)

/-- What the passes rely on of the store and the base. -/
structure Ground (h : RegisterHub) : Prop where
  numbered : h.db.Numbered
  disjoint : h.db.Disjoint
  backward : h.db.Backward topic
  payloads : ∀ e, h.db.Known topic e → PayloadOk d e
  based : ∀ base ∈ h.base, Exact d h.db topic (some base.ord) base.keys
  archived : ∀ e, h.db.Archived topic e → Upto (h.base.map RegisterBase.ord) e

/-- A row past a watermark that sorts at or below the topic's position: a refold is due. -/
def Pending (h : RegisterHub) (rowid : Nat) : Prop :=
  ∃ r ∈ h.db.sqLog.rows, r.entry.topic = topic ∧ rowid < r.rowid ∧ Upto h.ord r.entry

/-- The entries of a running batch, in order, past the topic's position. -/
structure Todo (h : RegisterHub) (todo : List LogEntry) : Prop where
  ne : todo ≠ []
  sorted : todo.Pairwise fun a b => orderOf a < orderOf b
  holds : ∀ e ∈ todo, h.db.Known topic e
  fresh : ∀ e ∈ todo, ¬ Upto h.ord e

/-- What holds at every await: a refold is due, or the key states are exact. -/
inductive Core : RegisterHub → Prop
  | idle {h : RegisterHub} (hpass : h.pass = .idle) (hwater : h.lastRowid ≤ h.db.logSequence)
      (hseen : ∀ e, h.db.KnownTo topic h.lastRowid e → Upto h.ord e)
      (hkeys : Pending topic h h.lastRowid ∨ Exact d h.db topic h.ord h.keys) : Core h
  | forward {h : RegisterHub} (hpass : h.pass = .forward todo last)
      (hlow : h.lastRowid ≤ last) (hwater : last ≤ h.db.logSequence) (htodo : Todo topic h todo)
      (hseen : ∀ e, h.db.KnownTo topic last e → Upto h.ord e ∨ e ∈ todo)
      (hkeys : Pending topic h last ∨ Exact d h.db topic h.ord h.keys) : Core h
  | refold {h : RegisterHub} (hpass : h.pass = .refold todo) (htodo : Todo topic h todo)
      (harch : ∀ e, h.db.Archived topic e → Upto h.ord e)
      (hrest : ∀ e, h.db.Known topic e → Upto h.ord e ∨ e ∈ todo ∨
        ∀ x ∈ todo, orderOf x < orderOf e)
      (hkeys : Exact d h.db topic h.ord h.keys) : Core h

section
variable {d : RegisterDeps} {topic : Topic}

theorem readOn_core {h : RegisterHub} (hn : h.db.Numbered)
    (hkeys : Exact d h.db topic h.ord h.keys)
    (harch : ∀ e, h.db.Archived topic e → Upto h.ord e) : Core d topic (readOn topic h) := by
  unfold readOn
  have hafter : ∀ e, e ∈ after orderOf h.ord (h.db.topicEntries topic) ↔
      h.db.Holds topic e ∧ ¬ Upto h.ord e := by
    intro e
    rw [mem_after, Db.mem_topicEntries, not_upto]
  have hsorted : (after orderOf h.ord (h.db.topicEntries topic)).Pairwise
      fun a b => orderOf a < orderOf b := (Db.sorted_topicEntries h.db topic).filter _
  cases hes : h.db.entriesAfterOrder topic h.ord FOLD_BATCH with
  | nil =>
    have hnil : after orderOf h.ord (h.db.topicEntries topic) = [] := by
      simpa [Db.entriesAfterOrder, FOLD_BATCH] using hes
    refine .idle rfl (Db.maxRowid_le hn topic) ?_ (.inr hkeys)
    rintro e (ha | hto)
    · exact harch e ha
    · by_contra hu
      have hin := (hafter e).2 ⟨hto.holds, hu⟩
      rw [hnil] at hin
      cases hin
  | cons e es =>
    have htake : (after orderOf h.ord (h.db.topicEntries topic)).take FOLD_BATCH = e :: es := hes
    have hsplit := List.take_append_drop FOLD_BATCH
      (after orderOf h.ord (h.db.topicEntries topic))
    rw [htake] at hsplit
    have hsub : ∀ x ∈ e :: es, h.db.Holds topic x ∧ ¬ Upto h.ord x := by
      intro x hx
      apply (hafter x).1
      rw [← hsplit]
      exact List.mem_append_left _ hx
    rw [← hsplit] at hsorted
    obtain ⟨hpre, -, hlt⟩ := List.pairwise_append.1 hsorted
    refine .refold rfl ⟨by simp, hpre, fun x hx => .inr (hsub x hx).1, fun x hx => (hsub x hx).2⟩
      harch ?_ hkeys
    intro x hx
    by_cases hu : Upto h.ord x
    · exact .inl hu
    rcases hx with ha | hh
    · exact .inl (harch x ha)
    · have hin := (hafter x).2 ⟨hh, hu⟩
      rw [← hsplit] at hin
      rcases List.mem_append.1 hin with hin | hin
      · exact .inr (.inl hin)
      · exact .inr (.inr fun y hy => hlt y hy x hin)

theorem readOn_db (h : RegisterHub) : (readOn topic h).db = h.db := by
  unfold readOn
  split <;> rfl

theorem readOn_base (h : RegisterHub) : (readOn topic h).base = h.base := by
  unfold readOn
  split <;> rfl

theorem startRefold_db (h : RegisterHub) : (startRefold topic h).db = h.db := by
  unfold startRefold
  split <;> rw [readOn_db]

theorem startRefold_base (h : RegisterHub) : (startRefold topic h).base = h.base := by
  unfold startRefold
  split <;> rw [readOn_base]

theorem loopHead_db (h : RegisterHub) : (loopHead topic h).db = h.db := by
  unfold loopHead
  split
  · split
    · exact startRefold_db h
    · rfl
  · rfl

theorem loopHead_base (h : RegisterHub) : (loopHead topic h).base = h.base := by
  unfold loopHead
  split
  · split
    · exact startRefold_base h
    · rfl
  · rfl

theorem start_db (h : RegisterHub) : (start topic h).db = h.db := by
  unfold start
  split
  · exact loopHead_db h
  · rfl

theorem start_base (h : RegisterHub) : (start topic h).base = h.base := by
  unfold start
  split
  · exact loopHead_base h
  · rfl

theorem startRefold_core {h : RegisterHub} (hg : Ground d topic h) :
    Core d topic (startRefold topic h) := by
  unfold startRefold
  split
  · next base hb =>
    apply readOn_core (h := { h with keys := base.keys, ord := some base.ord }) hg.numbered
      (hg.based base hb)
    intro e he
    have := hg.archived e he
    rw [hb] at this
    exact this
  · next hb =>
    apply readOn_core (h := { h with keys := .empty, ord := none }) hg.numbered Exact.init
    intro e he
    have := hg.archived e he
    rw [hb] at this
    exact this

theorem upto_of_any {ord : Option Order} {first : LogEntry}
    (h : (ord.any fun o => decide (orderCompare (orderOf first) o ≤ 0)) = true) :
    Upto ord first := by
  obtain ⟨o, ho, hle⟩ := (Option.any_eq_true _ _).1 h
  exact ⟨o, ho, orderCompare_le_zero.1 (by simpa using hle)⟩

theorem not_upto_of_any {ord : Option Order} {first : LogEntry}
    (h : ¬ (ord.any fun o => decide (orderCompare (orderOf first) o ≤ 0)) = true) :
    ¬ Upto ord first := by
  rintro ⟨o, ho, hle⟩
  apply h
  rw [Option.any_eq_true]
  exact ⟨o, ho, by simpa using orderCompare_le_zero.2 hle⟩

theorem loopHead_core {h : RegisterHub} (hg : Ground d topic h)
    (hwater : h.lastRowid ≤ h.db.logSequence)
    (hseen : ∀ e, h.db.KnownTo topic h.lastRowid e → Upto h.ord e)
    (hkeys : Pending topic h h.lastRowid ∨ Exact d h.db topic h.ord h.keys) :
    Core d topic (loopHead topic h) := by
  unfold loopHead
  split
  · next first last hfirst hlast =>
    split
    · exact startRefold_core hg
    · next hlate =>
      have hfresh : ∀ e ∈ h.newBatch topic, ¬ Upto h.ord e := by
        intro e he
        have hnot := not_upto_of_any hlate
        rw [not_upto] at hnot ⊢
        intro o ho
        exact lt_of_lt_of_le (hnot o ho) (Db.head_le_batchFrom hfirst he)
      have hlastmem := Db.mem_entriesForTopicFromRowid (List.mem_of_getLast? hlast)
      have hbatch : ∀ e, h.db.HoldsTo topic last.rowid e →
          h.db.HoldsTo topic h.lastRowid e ∨ e ∈ h.newBatch topic := by
        intro e hto
        rcases hg.numbered.mem_batch hlast hto with hold | hrow
        · exact .inl hold
        · exact .inr (by simpa [newBatch, Db.batchFrom] using hrow)
      refine .forward rfl hlastmem.2.2.le (hg.numbered.bounded last hlastmem.1) ⟨?_, Db.sorted_batchFrom .., ?_,
        hfresh⟩ ?_ ?_
      · intro hnil
        rw [hnil] at hfirst
        cases hfirst
      · exact fun e he => .inr (Db.holds_of_mem_batchFrom he)
      · rintro e (ha | hto)
        · exact .inl (hseen e (.inl ha))
        · exact (hbatch e hto).imp (fun hold => hseen e (.inr hold)) id
      · rcases hkeys with ⟨r, hr, ht, hlt, hu⟩ | hex
        · left
          refine ⟨r, hr, ht, ?_, hu⟩
          by_contra hle
          rcases hbatch r.entry ⟨ht, r, hr, rfl, not_lt.1 hle⟩ with ⟨-, r', hr', he, hle'⟩ | hin
          · have hid := List.inj_on_of_nodup_map h.db.sqLog.nodup hr' hr (by rw [he])
            rw [hid] at hle'
            omega
          · exact hfresh _ hin hu
        · exact .inr hex
  · exact .idle rfl hwater hseen hkeys

/-- The walks of the next entry find in the log what they would find in the archive too. -/
def WalksHot (topic : Topic) (h : RegisterHub) : Prop :=
  ∀ e, (∃ last todo, h.pass = .forward (e :: todo) last) ∨ (∃ todo, h.pass = .refold (e :: todo)) →
    ∀ a, isAncestor (h.db.lookup topic) a e = isAncestor (h.db.lookupAll topic) a e

/-- One entry of a running pass is folded without throwing. -/
theorem foldOne_hot {h : RegisterHub} (hg : Ground d topic h) {e : LogEntry}
    (he : h.db.Known topic e)
    (hhot : ∀ a, isAncestor (h.db.lookup topic) a e = isAncestor (h.db.lookupAll topic) a e) :
    h.foldOne d topic e = .ok { h with
      keys := foldKeys d (h.db.lookupAll topic) h.keys e
      ord := some (orderOf e) } := by
  rw [foldOne_ok (hg.payloads e he), foldKeys_congr hhot]

theorem Todo.upto {h : RegisterHub} {todo : List LogEntry} (ht : Todo topic h (e :: todo))
    (hx : Upto h.ord x) : orderOf x ≤ orderOf e := by
  obtain ⟨o, ho, hle⟩ := hx
  exact hle.trans (le_of_lt (not_upto.1 (ht.fresh e (by simp)) o ho))

theorem Todo.tail {h : RegisterHub} {todo : List LogEntry} (ht : Todo topic h (e :: todo))
    (hne : todo ≠ []) {h' : RegisterHub} (hdb : h'.db = h.db) (hord : h'.ord = some (orderOf e)) :
    Todo topic h' todo where
  ne := hne
  sorted := (List.pairwise_cons.1 ht.sorted).2
  holds := fun x hx => hdb ▸ ht.holds x (List.mem_cons_of_mem _ hx)
  fresh := by
    intro x hx
    rw [not_upto, hord]
    rintro o ⟨⟩
    exact (List.pairwise_cons.1 ht.sorted).1 x hx

theorem Ground.of_eq {h h' : RegisterHub} (hg : Ground d topic h) (hdb : h'.db = h.db)
    (hbase : h'.base = h.base) : Ground d topic h' where
  numbered := hdb ▸ hg.numbered
  disjoint := hdb ▸ hg.disjoint
  backward := hdb ▸ hg.backward
  payloads := hdb ▸ hg.payloads
  based := by
    rw [hdb, hbase]
    exact hg.based
  archived := by
    rw [hdb, hbase]
    exact hg.archived

/-- Folding the head of a batch keeps the key states exact, unless a refold is due. -/
theorem fold_head {h : RegisterHub} {todo : List LogEntry} (ht : Todo topic h (e :: todo))
    (hseen : ∀ x, h.db.KnownTo topic last x → Upto h.ord x ∨ x ∈ e :: todo)
    (hkeys : Pending topic h last ∨ Exact d h.db topic h.ord h.keys) :
    (∃ r ∈ h.db.sqLog.rows, r.entry.topic = topic ∧ last < r.rowid ∧
        Upto (some (orderOf e)) r.entry) ∨
      Exact d h.db topic (some (orderOf e)) (foldKeys d (h.db.lookupAll topic) h.keys e) := by
  rcases hkeys with ⟨r, hr, hrt, hlt, hu⟩ | hex
  · exact .inl ⟨r, hr, hrt, hlt, orderOf e, rfl, ht.upto hu⟩
  by_cases hnext : ∀ x, h.db.Known topic x → orderOf x ≤ orderOf e → Upto h.ord x ∨ x = e
  · exact .inr (hex.fold (ht.holds e (by simp)) (ht.fresh e (by simp)) hnext)
  left
  push Not at hnext
  obtain ⟨x, hx, hle, hnot, hne⟩ := hnext
  -- the batch has every entry up to its last rowid, and the head is the least
  have hunseen : ¬ h.db.KnownTo topic last x := by
    intro hto
    rcases (hseen x hto).resolve_left hnot |> List.mem_cons.1 with rfl | hin
    · exact hne rfl
    · exact absurd ((List.pairwise_cons.1 ht.sorted).1 x hin) (not_lt.2 hle)
  rcases hx with ha | ⟨hxt, r, hr, rfl⟩
  · exact absurd (.inl ha) hunseen
  · refine ⟨r, hr, hxt, ?_, orderOf e, rfl, hle⟩
    by_contra hle'
    exact hunseen (.inr ⟨hxt, r, hr, rfl, not_lt.1 hle'⟩)

/-- Every resumption succeeds and leaves the pass at an await, or ended. -/
theorem resume_core {h : RegisterHub} (hg : Ground d topic h) (hc : Core d topic h)
    (hhot : WalksHot topic h) :
    ∃ h', resume d topic h = .ok h' ∧ h'.db = h.db ∧ h'.base = h.base ∧ Core d topic h' := by
  cases hc with
  | idle hpass hwater hseen hkeys =>
    refine ⟨h, ?_, rfl, rfl, .idle hpass hwater hseen hkeys⟩
    rw [resume, hpass]
  | @forward todo last _ hpass hlow hwater htodo hseen hkeys =>
    cases todo with
    | nil => exact absurd rfl htodo.ne
    | cons e todo =>
      have hwalks := hhot e (.inl ⟨last, todo, hpass⟩)
      have hone := foldOne_hot hg (htodo.holds e (by simp)) hwalks
      have hkeys' := fold_head htodo hseen hkeys
      have hseen' : ∀ x, h.db.KnownTo topic last x → Upto (some (orderOf e)) x ∨ x ∈ todo := by
        intro x hx
        rcases hseen x hx with hu | hin
        · exact .inl ⟨orderOf e, rfl, htodo.upto hu⟩
        · rcases List.mem_cons.1 hin with rfl | hin
          · exact .inl ⟨orderOf x, rfl, le_refl _⟩
          · exact .inr hin
      simp only [resume, hpass, hone, bind, Except.bind, pure, Except.pure]
      refine ⟨_, rfl, ?_⟩
      cases todo with
      | nil =>
        rw [List.isEmpty_nil, if_pos rfl]
        refine ⟨loopHead_db .., loopHead_base .., ?_⟩
        exact loopHead_core (hg.of_eq rfl rfl) hwater
          (fun x hx => (hseen' x hx).resolve_right (by simp)) hkeys'
      | cons e' todo =>
        rw [List.isEmpty_cons, if_neg Bool.false_ne_true]
        exact ⟨rfl, rfl, .forward rfl hlow hwater (htodo.tail (by simp) rfl rfl) hseen' hkeys'⟩
  | @refold todo _ hpass htodo harch hrest hkeys =>
    cases todo with
    | nil => exact absurd rfl htodo.ne
    | cons e todo =>
      have hwalks := hhot e (.inr ⟨todo, hpass⟩)
      have hone := foldOne_hot hg (htodo.holds e (by simp)) hwalks
      have hlt := (List.pairwise_cons.1 htodo.sorted).1
      have hkeys' : Exact d h.db topic (some (orderOf e))
          (foldKeys d (h.db.lookupAll topic) h.keys e) := by
        apply hkeys.fold (htodo.holds e (by simp)) (htodo.fresh e (by simp))
        intro x hx hle
        rcases hrest x hx with hu | hin | hbeyond
        · exact .inl hu
        · rcases List.mem_cons.1 hin with rfl | hin
          · exact .inr rfl
          · exact absurd (hlt x hin) (not_lt.2 hle)
        · exact absurd (hbeyond e (by simp)) (not_lt.2 hle)
      have harch' : ∀ x, h.db.Archived topic x → Upto (some (orderOf e)) x :=
        fun x hx => ⟨orderOf e, rfl, htodo.upto (harch x hx)⟩
      simp only [resume, hpass, hone, bind, Except.bind, pure, Except.pure]
      refine ⟨_, rfl, ?_⟩
      cases todo with
      | nil =>
        rw [List.isEmpty_nil, if_pos rfl]
        refine ⟨readOn_db .., readOn_base .., ?_⟩
        exact readOn_core hg.numbered hkeys' harch'
      | cons e' todo =>
        rw [List.isEmpty_cons, if_neg Bool.false_ne_true]
        refine ⟨rfl, rfl, .refold rfl (htodo.tail (by simp) rfl rfl) harch' ?_ hkeys'⟩
        intro x hx
        rcases hrest x hx with hu | hin | hbeyond
        · exact .inl ⟨orderOf e, rfl, htodo.upto hu⟩
        · rcases List.mem_cons.1 hin with rfl | hin
          · exact .inl ⟨orderOf x, rfl, le_refl _⟩
          · exact .inr (.inl hin)
        · exact .inr (.inr fun y hy => hbeyond y (List.mem_cons_of_mem _ hy))

theorem start_core {h : RegisterHub} (hg : Ground d topic h) (hc : Core d topic h) :
    Core d topic (start topic h) := by
  cases hc with
  | idle hpass hwater hseen hkeys =>
    rw [start, hpass]
    exact loopHead_core hg hwater hseen hkeys
  | forward hpass hlow hwater htodo hseen hkeys =>
    rw [start, hpass]
    exact .forward hpass hlow hwater htodo hseen hkeys
  | refold hpass htodo harch hrest hkeys =>
    rw [start, hpass]
    exact .refold hpass htodo harch hrest hkeys

end

end RegisterHub

end Seqscribe
