import Seqscribe.LagExclusion
import Seqscribe.Paging

/-! Lists of which a part has gone. -/

section
variable {α κ : Type} [DecidableEq κ] {key : α → κ} {xs : List α}

/-- What is left of a list whose first elements have gone. -/
theorem List.filter_outside_take (hnodup : (xs.map key).Nodup) (n : Nat) :
    xs.filter (fun x => decide (key x ∉ (xs.take n).map key)) = xs.drop n := by
  have hsplit := List.take_append_drop n xs
  have hdisjoint : ∀ x ∈ xs.drop n, key x ∉ (xs.take n).map key := by
    intro x hx hin
    rw [← hsplit, List.map_append, List.nodup_append] at hnodup
    exact hnodup.2.2 _ hin _ (List.mem_map_of_mem hx) rfl
  have hnone : (xs.take n).filter (fun x => decide (key x ∉ (xs.take n).map key)) = [] := by
    apply List.filter_eq_nil_iff.2
    intro x hx hout
    exact of_decide_eq_true hout (List.mem_map_of_mem hx)
  have hall : (xs.drop n).filter (fun x => decide (key x ∉ (xs.take n).map key)) = xs.drop n :=
    List.filter_eq_self.2 fun x hx => decide_eq_true (hdisjoint x hx)
  calc xs.filter (fun x => decide (key x ∉ (xs.take n).map key))
      = (xs.take n ++ xs.drop n).filter fun x => decide (key x ∉ (xs.take n).map key) := by
        rw [hsplit]
    _ = xs.drop n := by rw [List.filter_append, hnone, hall, List.nil_append]

/-- A walk over what is left, when only elements of the walk have gone. -/
theorem List.takeWhile_filter_of_within {p q : α → Bool} (hnodup : xs.Nodup)
    (hwithin : ∀ x ∈ xs, q x = false → x ∈ xs.takeWhile p) :
    (xs.filter q).takeWhile p = (xs.takeWhile p).filter q := by
  induction xs with
  | nil => rfl
  | cons x xs ih =>
    rw [List.nodup_cons] at hnodup
    cases hp : p x with
    | false =>
      have hall : (x :: xs).filter q = x :: xs := by
        apply List.filter_eq_self.2
        intro y hy
        by_contra hgone
        have hin := hwithin y hy (Bool.eq_false_of_not_eq_true hgone)
        rw [List.takeWhile_cons_of_neg (by rw [hp]; exact Bool.false_ne_true)] at hin
        cases hin
      rw [hall, List.takeWhile_cons_of_neg (by rw [hp]; exact Bool.false_ne_true)]
      rfl
    | true =>
      rw [List.takeWhile_cons_of_pos hp] at hwithin ⊢
      have hrest := ih hnodup.2 fun y hy hgone => by
        rcases List.mem_cons.1 (hwithin y (List.mem_cons_of_mem _ hy) hgone) with rfl | hin
        · exact absurd hy hnodup.1
        · exact hin
      cases hq : q x with
      | false =>
        rw [List.filter_cons_of_neg (by rw [hq]; exact Bool.false_ne_true),
          List.filter_cons_of_neg (by rw [hq]; exact Bool.false_ne_true), hrest]
      | true =>
        rw [List.filter_cons_of_pos hq, List.filter_cons_of_pos hq, List.takeWhile_cons_of_pos hp,
          hrest]

end

namespace Seqscribe
set_option autoImplicit true

/-! Rows that have gone from the log, and the floors that they leave. -/

/-- The row is none of those that have gone. -/
def outside (gone : List LogRow) (r : LogRow) : Bool :=
  decide (r.entry.id ∉ gone.map fun g => g.entry.id)

theorem outside_append (gone gone' : List LogRow) (r : LogRow) :
    outside (gone ++ gone') r = (outside gone' r && outside gone r) := by
  rw [outside, outside, outside, List.map_append, ← Bool.decide_and]
  apply decide_eq_decide.2
  rw [List.mem_append, not_or, and_comm]

/-- A floor is raised to the last row that goes. -/
def raisedFloor (now : Nat) (f : Option FloorRow) (last : Option LogRow) : Option FloorRow :=
  match last with
  | none => f
  | some r =>
    if r.entry.seq > (f.map (·.floor.seq)).getD 0 then
      some ⟨r.entry.topic, r.entry.writer, ⟨r.entry.seq, r.entry.chain⟩, now⟩
    else f

theorem raisedFloor_le (now : Nat) (f : Option FloorRow) (last : Option LogRow) :
    (f.map (·.floor.seq)).getD 0 ≤ ((raisedFloor now f last).map (·.floor.seq)).getD 0 := by
  cases last with
  | none => exact Nat.le_refl _
  | some r =>
    rw [raisedFloor]
    split
    · next h => exact Nat.le_of_lt h
    · exact Nat.le_refl _

theorem raisedFloor_raisedFloor {r r' : LogRow} (now : Nat) (f : Option FloorRow)
    (h : r.entry.seq < r'.entry.seq) :
    raisedFloor now (raisedFloor now f (some r)) (some r') = raisedFloor now f (some r') := by
  by_cases habove : r.entry.seq > (f.map (·.floor.seq)).getD 0
  · have hraised : raisedFloor now f (some r) =
        some ⟨r.entry.topic, r.entry.writer, ⟨r.entry.seq, r.entry.chain⟩, now⟩ := if_pos habove
    rw [hraised, raisedFloor, raisedFloor, if_pos (habove.trans h)]
    exact if_pos h
  · have hkept : raisedFloor now f (some r) = f := if_neg habove
    rw [hkept]

/-- The rows of one writer. -/
def ofWriter (w : WriterId) (gone : List LogRow) : List LogRow :=
  gone.filter fun r => r.entry.writer = w

/-- A store from which rows of a topic have gone, with the floors raised to the last of them. -/
structure Struck (T : Topic) (now : Nat) (db : Db) (gone : List LogRow) (db' : Db) : Prop where
  log : db'.sqLog.rows = db.sqLog.rows.filter (outside gone)
  floors : ∀ w, db'.sqFloors.get (T, w) =
    raisedFloor now (db.sqFloors.get (T, w)) (ofWriter w gone).getLast?
  others : ∀ k, k.1 ≠ T → db'.sqFloors.get k = db.sqFloors.get k

namespace Struck

variable {db : Db}

theorem refl (T : Topic) (now : Nat) (db : Db) : Struck T now db [] db := by
  refine ⟨?_, fun w => rfl, fun _ _ => rfl⟩
  exact (List.filter_eq_self.2 fun r _ => rfl).symm

theorem trans (h : Struck T now db gone db') (h' : Struck T now db' gone' db'')
    (hafter : ∀ r ∈ gone, ∀ r' ∈ gone', r.entry.writer = r'.entry.writer →
      r.entry.seq < r'.entry.seq) :
    Struck T now db (gone ++ gone') db'' := by
  refine ⟨?_, fun w => ?_, fun k hk => (h'.others k hk).trans (h.others k hk)⟩
  · rw [h'.log, h.log, List.filter_filter]
    exact List.filter_congr fun r _ => (outside_append gone gone' r).symm
  · rw [h'.floors, h.floors, ofWriter, ofWriter, ofWriter, List.filter_append,
      List.getLast?_append]
    cases hlast' : (gone'.filter fun r => r.entry.writer = w).getLast? with
    | none => rfl
    | some r' =>
      cases hlast : (gone.filter fun r => r.entry.writer = w).getLast? with
      | none => rfl
      | some r =>
        obtain ⟨hin, hw⟩ := List.mem_filter.1 (List.mem_of_getLast? hlast)
        obtain ⟨hin', hw'⟩ := List.mem_filter.1 (List.mem_of_getLast? hlast')
        exact raisedFloor_raisedFloor now _ (hafter r hin r' hin'
          ((of_decide_eq_true hw).trans (of_decide_eq_true hw').symm))

theorem mem_log (h : Struck T now db gone db') : r ∈ db'.sqLog.rows ↔
    r ∈ db.sqLog.rows ∧ outside gone r = true := by
  rw [h.log, List.mem_filter]

theorem floorSeq_le (h : Struck T now db gone db') (w : WriterId) :
    db.floorSeq T w ≤ db'.floorSeq T w := by
  rw [Db.floorSeq, Db.floorSeq, h.floors]
  exact raisedFloor_le ..

end Struck

namespace Db

variable {db : Db}

theorem mem_held : r ∈ db.held T w ↔ r ∈ db.sqLog.rows ∧ r.entry.topic = T ∧ r.entry.writer = w := by
  rw [held, Table.mem_selectBy, Store.inStream, decide_eq_true_iff]

/-- The held rows of a stream are in order. -/
theorem pairwise_held (db : Db) (T : Topic) (w : WriterId) :
    (db.held T w).Pairwise fun r r' => r.entry.seq < r'.entry.seq := by
  have hrows : (db.held T w).Nodup := by
    have hperm := List.perm_insertionSort (fun r r' : LogRow => r.entry.seq ≤ r'.entry.seq)
      (db.sqLog.rows.filter (Store.inStream T w))
    exact hperm.nodup_iff.2 ((db.sqLog.nodup.of_map _).filter _)
  refine ((db.sqLog.pairwise_selectBy (Store.inStream T w) (·.entry.seq)).and hrows).imp_of_mem ?_
  rintro r r' hr hr' ⟨hle, hne⟩
  apply Nat.lt_of_le_of_ne hle
  intro heq
  obtain ⟨hin, htopic, hwriter⟩ := mem_held.1 hr
  obtain ⟨hin', htopic', hwriter'⟩ := mem_held.1 hr'
  apply hne
  apply List.inj_on_of_nodup_map db.sqLog.nodup hin hin'
  exact Prod.ext (htopic.trans htopic'.symm) (Prod.ext (hwriter.trans hwriter'.symm) heq)

theorem held_nodup_ids (db : Db) (T : Topic) (w : WriterId) :
    ((db.held T w).map fun r => r.entry.id).Nodup := by
  apply List.Nodup.map_on
  · intro r hr r' hr' hid
    exact List.inj_on_of_nodup_map db.sqLog.nodup (mem_held.1 hr).1 (mem_held.1 hr').1 hid
  · apply (db.pairwise_held T w).imp
    rintro r r' hlt rfl
    exact Nat.lt_irrefl _ hlt

end Db

/-- The held rows of a stream are those that have not gone. -/
theorem Struck.held {db : Db} (h : Struck T now db gone db') (w : WriterId) :
    db'.held T w = (db.held T w).filter (outside gone) := by
  apply Sorting.eq_of_sorted (db'.pairwise_held T w) ((db.pairwise_held T w).filter _)
  intro r
  rw [Db.mem_held, List.mem_filter, Db.mem_held, h.mem_log]
  exact and_right_comm

namespace Db

variable {db : Db} {o : AckedPruneOptions} {cf : Nat}

/-- Of held rows those of a list are known by their names. -/
theorem outside_eq_false_iff (hgone : ∀ g ∈ gone, g ∈ db.sqLog.rows) (hr : r ∈ db.sqLog.rows) :
    outside gone r = false ↔ r ∈ gone := by
  rw [outside, decide_eq_false_iff_not, not_not, List.mem_map]
  constructor
  · rintro ⟨g, hg, hid⟩
    exact List.inj_on_of_nodup_map db.sqLog.nodup (hgone g hg) hr hid ▸ hg
  · exact fun hin => ⟨r, hin, rfl⟩

theorem mem_deletable_held (h : r ∈ db.deletable T o now acks included cf s) :
    r ∈ db.held T s.writer :=
  List.takeWhile_subset _ h

/-- What may go is where the stream begins. -/
theorem take_deletable (db : Db) (T : Topic) (o : AckedPruneOptions) (now : Nat)
    (acks : List AckRow) (included : List WriterId) (cf : Nat) (s : StreamView) (n : Nat) :
    (db.deletable T o now acks included cf s).take n =
      (db.held T s.writer).take (min n (db.deletable T o now acks included cf s).length) := by
  have hprefix : db.deletable T o now acks included cf s <+: db.held T s.writer :=
    List.takeWhile_prefix _
  rw [← List.take_take, ← List.prefix_iff_eq_take.1 hprefix]

theorem get_floors_strikeTo (htopic : last.entry.topic = T) (hwriter : last.entry.writer = w)
    (k : StreamId) : (db.strikeTo now last).sqFloors.get k =
      if k = (T, w) then raisedFloor now (db.sqFloors.get (T, w)) (some last)
      else db.sqFloors.get k := by
  subst htopic hwriter
  rw [strikeTo, raisedFloor]
  dsimp only
  rw [floorSeq]
  split
  · next habove =>
    rw [Table.get_upsertWhere]
    by_cases hk : k = (last.entry.topic, last.entry.writer)
    · subst hk
      rw [if_pos rfl, if_pos]
      refine ⟨rfl, ?_⟩
      cases hf : db.sqFloors.get (last.entry.topic, last.entry.writer) with
      | none => rfl
      | some f =>
        rw [hf] at habove
        exact decide_eq_true habove
    · rw [if_neg hk, if_neg fun h => hk h.1.symm]
  · split
    · next hk => rw [hk]
    · rfl

/-- Deleting a stream up to a row strikes its rows so far. -/
theorem struck_strikeTo (hlast : ((db.held T w).take n).getLast? = some last) :
    Struck T now db ((db.held T w).take n) (db.strikeTo now last) := by
  have hin : last ∈ (db.held T w).take n := List.mem_of_getLast? hlast
  obtain ⟨hlog, htopic, hwriter⟩ := mem_held.1 (List.mem_of_mem_take hin)
  have hgone : ∀ g ∈ (db.held T w).take n, g ∈ db.sqLog.rows := fun g hg =>
    (mem_held.1 (List.mem_of_mem_take hg)).1
  have hle : ∀ r ∈ (db.held T w).take n, r.entry.seq ≤ last.entry.seq := by
    intro r hr
    obtain ⟨init, hinit⟩ := List.getLast?_eq_some_iff.1 hlast
    have hsorted := (db.pairwise_held T w).sublist (List.take_sublist n _)
    rw [hinit] at hr hsorted
    rcases List.mem_append.1 hr with hr | hr
    · exact Nat.le_of_lt ((List.pairwise_append.1 hsorted).2.2 r hr last (List.mem_singleton.2 rfl))
    · rw [List.mem_singleton.1 hr]
  refine ⟨?_, fun w' => ?_, fun k hk => ?_⟩
  · apply List.filter_congr
    intro r hr
    cases hout : outside ((db.held T w).take n) r with
    | false =>
      have hmem := (outside_eq_false_iff hgone hr).1 hout
      obtain ⟨-, htopic', hwriter'⟩ := mem_held.1 (List.mem_of_mem_take hmem)
      rw [Bool.not_eq_false', Bool.and_eq_true, Store.inStream, decide_eq_true_iff,
        decide_eq_true_iff, htopic, hwriter]
      exact ⟨⟨htopic', hwriter'⟩, hle r hmem⟩
    | true =>
      rw [Bool.not_eq_true', Bool.and_eq_false_iff]
      by_contra hboth
      rw [not_or, Bool.not_eq_false, Bool.not_eq_false, Store.inStream, decide_eq_true_iff,
        decide_eq_true_iff, htopic, hwriter] at hboth
      have hmem := Paging.mem_take_of_le (db.pairwise_held T w) hin (mem_held.2 ⟨hr, hboth.1⟩) hboth.2
      rw [(outside_eq_false_iff hgone hr).2 hmem] at hout
      cases hout
  · by_cases hw : w' = w
    · have hall : ofWriter w' ((db.held T w).take n) = (db.held T w).take n := by
        apply List.filter_eq_self.2
        intro r hr
        exact decide_eq_true ((mem_held.1 (List.mem_of_mem_take hr)).2.2.trans hw.symm)
      rw [hall, hlast, hw, get_floors_strikeTo htopic hwriter, if_pos rfl]
    · have hnone : ofWriter w' ((db.held T w).take n) = [] := by
        apply List.filter_eq_nil_iff.2
        intro r hr heq
        exact hw ((of_decide_eq_true heq).symm.trans (mem_held.1 (List.mem_of_mem_take hr)).2.2)
      rw [hnone, get_floors_strikeTo htopic hwriter, if_neg fun h => hw (congrArg Prod.snd h)]
      rfl
  · rw [get_floors_strikeTo htopic hwriter, if_neg fun h => hk (congrArg Prod.fst h)]

end Db

/-- What may go is what may have gone and has not, as long as the acknowledged floor is the same. -/
theorem Struck.deletable {db : Db} {o : AckedPruneOptions} {cf : Nat}
    (h : Struck T now db gone db')
    (hfloor : (ackFloorOf acks' included' s).ackFloor = (ackFloorOf acks included s).ackFloor)
    (hgone : ∀ g ∈ gone, g ∈ db.sqLog.rows)
    (hwithin : ∀ g ∈ gone, g.entry.writer = s.writer →
      g ∈ db.deletable T o now acks included cf s) :
    db'.deletable T o now acks' included' cf s =
      (db.deletable T o now acks included cf s).filter (outside gone) := by
  have htarget : max (min (ackFloorOf acks included s).ackFloor
      (if s.sealReason = some .retired then s.finalSeq.getD s.contigSeq else s.contigSeq - 1))
        (db'.floorSeq T s.writer) = max (min (ackFloorOf acks included s).ackFloor
      (if s.sealReason = some .retired then s.finalSeq.getD s.contigSeq else s.contigSeq - 1))
        (db.floorSeq T s.writer) := by
    rw [Db.floorSeq, h.floors]
    cases hlast : (ofWriter s.writer gone).getLast? with
    | none => rfl
    | some r =>
      obtain ⟨hin, hwriter⟩ := List.mem_filter.1 (List.mem_of_getLast? hlast)
      have hle := prunablePrefix_le (hwithin r hin (of_decide_eq_true hwriter))
      rw [Db.floorSeq] at hle ⊢
      generalize min (ackFloorOf acks included s).ackFloor
        (if s.sealReason = some .retired then s.finalSeq.getD s.contigSeq else s.contigSeq - 1) =
          m at hle ⊢
      rw [raisedFloor]
      split
      · next habove =>
        change max m r.entry.seq = _
        omega
      · rfl
  rw [Db.deletable, Db.deletable, hfloor, htarget, h.held]
  apply List.takeWhile_filter_of_within
  · apply (db.pairwise_held T s.writer).imp
    rintro r r' hlt rfl
    exact Nat.lt_irrefl _ hlt
  · intro r hr hout
    obtain ⟨hlog, -, hwriter⟩ := Db.mem_held.1 hr
    exact hwithin r ((Db.outside_eq_false_iff hgone hlog).1 hout) hwriter

/-! One call. -/

/-- Streams that are neither forked nor recovering. -/
def StreamView.prunable (s : StreamView) : Bool :=
  decide (s.sealReason ≠ some .fork) && !s.recovering

section
variable (T : Topic) (o : AckedPruneOptions) (now : Nat)

/-- The rows that a plan lets go, stream after stream. -/
def Db.deletables (db : Db) (acks : List AckRow) (included : List WriterId) (cf : Nat)
    (streams : List StreamView) : List LogRow :=
  (streams.filter StreamView.prunable).flatMap (db.deletable T o now acks included cf)

end

/-- What pruning streams does to the store and to the totals. -/
structure PrunedTo (T : Topic) (o : AckedPruneOptions) (now : Nat) (db : Db) (gone rows : List LogRow)
    (acc : AckedPrune) (out : Db × AckedPrune) : Prop where
  struck : Struck T now db (gone ++ if o.dryRun then [] else rows.take acc.budget) out.1
  pruned : out.2.pruned = acc.pruned + (rows.take acc.budget).length
  finished : out.2.more = false → acc.more = false ∧ rows.length ≤ acc.budget
  more : out.2.more = true → acc.more = true ∨ acc.budget ≤ rows.length

/-- One stream: it gives its rows as far as the budget goes. -/
theorem prunedTo_pruneStream {db : Db} {o : AckedPruneOptions} {cf : Nat} {cur : Db}
    (h : Struck T now db gone cur) (hother : ∀ g ∈ gone, g.entry.writer ≠ s.writer)
    (hgone : ∀ g ∈ gone, g ∈ db.sqLog.rows) (acc : AckedPrune) :
    let rows := db.deletables T o now acks included cf [s]
    let out := Db.pruneStream T o now acks included cf (cur, acc) s
    PrunedTo T o now db gone rows acc out ∧
      out.2.budget = acc.budget - (rows.take acc.budget).length := by
  intro rows out
  have hcur : cur.deletable T o now acks included cf s = db.deletable T o now acks included cf s := by
    rw [h.deletable rfl hgone fun g hg hw => absurd hw (hother g hg)]
    apply List.filter_eq_self.2
    intro r hr
    have hheld := Db.mem_held.1 (Db.mem_deletable_held hr)
    by_contra hout
    have hin := (Db.outside_eq_false_iff hgone hheld.1).1 (Bool.eq_false_of_not_eq_true hout)
    exact hother r hin hheld.2.2
  have hskip : s.prunable = false → rows = [] := by
    intro hp
    change (List.filter StreamView.prunable [s]).flatMap _ = []
    rw [List.filter_cons_of_neg (by rw [hp]; exact Bool.false_ne_true)]
    rfl
  have hrows : s.prunable = true → rows = db.deletable T o now acks included cf s := by
    intro hp
    change (List.filter StreamView.prunable [s]).flatMap _ = _
    rw [List.filter_cons_of_pos hp]
    exact List.append_nil _
  have hnone : ∀ more writers, rows.take acc.budget = [] →
      (more = false → acc.more = false ∧ rows.length ≤ acc.budget) →
      (more = true → acc.more = true ∨ acc.budget ≤ rows.length) →
      PrunedTo T o now db gone rows acc (cur, ⟨acc.budget, acc.pruned, more, writers⟩) ∧
        acc.budget = acc.budget - (rows.take acc.budget).length := by
    intro more writers hnil hfinished hmore
    refine ⟨⟨?_, ?_, hfinished, hmore⟩, ?_⟩
    · rw [hnil, ite_self, List.append_nil]
      exact h
    · rw [hnil]
      rfl
    · rw [hnil]
      rfl
  have htake : rows = [] → rows.take acc.budget = [] := fun h => by rw [h, List.take_nil]
  change PrunedTo T o now db gone rows acc (Db.pruneStream T o now acks included cf (cur, acc) s) ∧
    (Db.pruneStream T o now acks included cf (cur, acc) s).2.budget = _
  rw [Db.pruneStream, hcur]
  dsimp only
  split
  · next hfork =>
    have hnil := hskip (by simp [StreamView.prunable, hfork])
    exact hnone _ _ (htake hnil) (fun h => ⟨h, by simp [hnil]⟩) .inl
  next hfork =>
  split
  · next hrec =>
    have hnil := hskip (by simp [StreamView.prunable, hrec])
    exact hnone _ _ (htake hnil) (fun h => ⟨h, by simp [hnil]⟩) .inl
  next hrec =>
  rw [hrows (by simp [StreamView.prunable, hfork, hrec])] at hnone htake ⊢
  split
  · next hspent =>
    apply hnone true _ (by rw [hspent, List.take_zero]) (fun h => by cases h)
    exact fun _ => .inr (by rw [hspent]; exact Nat.zero_le _)
  next hleft =>
  have hfinished : (acc.more || decide (acc.budget <
      (db.deletable T o now acks included cf s).length)) = false → acc.more = false ∧
        (db.deletable T o now acks included cf s).length ≤ acc.budget := by
    rw [Bool.or_eq_false_iff, decide_eq_false_iff_not, Nat.not_lt]
    exact id
  have hmore : (acc.more || decide (acc.budget <
      (db.deletable T o now acks included cf s).length)) = true → acc.more = true ∨
        acc.budget ≤ (db.deletable T o now acks included cf s).length := by
    rw [Bool.or_eq_true, decide_eq_true_iff]
    exact Or.imp_right Nat.le_of_lt
  split
  · next hlast => exact hnone _ _ (List.getLast?_eq_none_iff.1 hlast) hfinished hmore
  next last hlast =>
  refine ⟨⟨?_, rfl, hfinished, hmore⟩, rfl⟩
  dsimp only
  split
  · rw [List.append_nil]
    exact h
  · have hheld : (db.deletable T o now acks included cf s).take acc.budget =
        (cur.held T s.writer).take (min acc.budget
          (db.deletable T o now acks included cf s).length) := by
      rw [← hcur]
      exact Db.take_deletable ..
    rw [hheld] at hlast ⊢
    apply h.trans (Db.struck_strikeTo hlast)
    intro r hr r' hr' hw
    have hheld' := Db.mem_held.1 (List.mem_of_mem_take hr')
    exact absurd (hw.trans hheld'.2.2) (hother r hr)

namespace Db

variable {db : Db} {o : AckedPruneOptions} {cf : Nat}

theorem deletables_cons (db : Db) (T : Topic) (o : AckedPruneOptions) (now : Nat)
    (acks : List AckRow) (included : List WriterId) (cf : Nat) (s : StreamView)
    (streams : List StreamView) : db.deletables T o now acks included cf (s :: streams) =
      db.deletables T o now acks included cf [s] ++ db.deletables T o now acks included cf streams := by
  rw [deletables, deletables, deletables, ← List.flatMap_append, ← List.filter_append]
  rfl

/-- The rows that may go are held rows of the streams. -/
theorem mem_deletables (h : r ∈ db.deletables T o now acks included cf streams) :
    ∃ s ∈ streams, r ∈ db.deletable T o now acks included cf s := by
  obtain ⟨s, hs, hr⟩ := List.mem_flatMap.1 h
  exact ⟨s, List.mem_of_mem_filter hs, hr⟩

theorem mem_log_of_deletables (h : r ∈ db.deletables T o now acks included cf streams) :
    r ∈ db.sqLog.rows ∧ r.entry.topic = T := by
  obtain ⟨s, -, hr⟩ := mem_deletables h
  obtain ⟨hlog, htopic, -⟩ := mem_held.1 (mem_deletable_held hr)
  exact ⟨hlog, htopic⟩

end Db

/-- The streams of a call give their rows in turn, as far as the budget goes. -/
theorem prunedTo_pruneStreams {db : Db} {o : AckedPruneOptions} {cf : Nat} {gone : List LogRow}
    {cur : Db} {acc : AckedPrune} {streams : List StreamView}
    (hnodup : (streams.map StreamView.writer).Nodup) (h : Struck T now db gone cur)
    (hother : ∀ g ∈ gone, ∀ s ∈ streams, g.entry.writer ≠ s.writer)
    (hgone : ∀ g ∈ gone, g ∈ db.sqLog.rows) :
    PrunedTo T o now db gone (db.deletables T o now acks included cf streams) acc
      (streams.foldl (Db.pruneStream T o now acks included cf) (cur, acc)) := by
  induction streams generalizing gone cur acc with
  | nil =>
    refine ⟨?_, ?_, fun hmore => ⟨hmore, Nat.zero_le _⟩, .inl⟩
    · change Struck T now db (gone ++ if o.dryRun then [] else ([] : List LogRow).take acc.budget) cur
      rw [List.take_nil, ite_self, List.append_nil]
      exact h
    · change acc.pruned = acc.pruned + (([] : List LogRow).take acc.budget).length
      rw [List.take_nil]
      rfl
  | cons s streams ih =>
    rw [List.map_cons, List.nodup_cons] at hnodup
    have hstream : PrunedTo T o now db gone (db.deletables T o now acks included cf [s]) acc
        (Db.pruneStream T o now acks included cf (cur, acc) s) ∧ _ :=
      prunedTo_pruneStream h (fun g hg => hother g hg s List.mem_cons_self) hgone acc
    obtain ⟨hfirst, hbudget⟩ := hstream
    have hwriter : ∀ r ∈ db.deletables T o now acks included cf [s],
        r ∈ db.sqLog.rows ∧ r.entry.writer = s.writer := by
      intro r hr
      obtain ⟨s', hs', hr'⟩ := Db.mem_deletables hr
      rw [List.mem_singleton] at hs'
      obtain ⟨hlog, -, hw⟩ := Db.mem_held.1 (Db.mem_deletable_held hr')
      exact ⟨hlog, hs' ▸ hw⟩
    rw [Db.deletables_cons, List.foldl_cons]
    generalize db.deletables T o now acks included cf [s] = rows at hfirst hbudget hwriter ⊢
    generalize Db.pruneStream T o now acks included cf (cur, acc) s = out at hfirst hbudget ⊢
    have htaken : ∀ r ∈ (if o.dryRun then [] else rows.take acc.budget),
        r ∈ db.sqLog.rows ∧ r.entry.writer = s.writer := by
      intro r hr
      split at hr
      · cases hr
      · exact hwriter r (List.mem_of_mem_take hr)
    obtain ⟨hstruck, hpruned, hfinished, hmore⟩ := @ih _ _ out.2 hnodup.2 hfirst.struck
      (fun g hg s' hs' => by
        rcases List.mem_append.1 hg with hg | hg
        · exact hother g hg s' (List.mem_cons_of_mem _ hs')
        · rw [(htaken g hg).2]
          exact fun heq => hnodup.1 (heq ▸ List.mem_map_of_mem hs'))
      (fun g hg => by
        rcases List.mem_append.1 hg with hg | hg
        · exact hgone g hg
        · exact (htaken g hg).1)
    generalize db.deletables T o now acks included cf streams = rest
      at hstruck hpruned hfinished hmore ⊢
    have hspent : out.2.budget = acc.budget - rows.length := by
      rw [hbudget, List.length_take]
      omega
    have htake : (rows ++ rest).take acc.budget =
        rows.take acc.budget ++ rest.take out.2.budget := by
      rw [List.take_append, hspent]
    refine ⟨?_, ?_, fun hlast => ?_, fun hlast => ?_⟩
    · rw [htake]
      rw [List.append_assoc] at hstruck
      split at hstruck
      · next hdry =>
        rw [if_pos hdry]
        exact hstruck
      · next hreal =>
        rw [if_neg hreal]
        exact hstruck
    · rw [htake, List.length_append, ← Nat.add_assoc, ← hfirst.pruned]
      exact hpruned
    · obtain ⟨hall, hrest⟩ := hfinished hlast
      obtain ⟨hacc, hrows⟩ := hfirst.finished hall
      refine ⟨hacc, ?_⟩
      rw [List.length_append]
      omega
    · rw [List.length_append]
      rcases hmore hlast with hall | hrest
      · exact (hfirst.more hall).imp_right fun hrows => hrows.trans (Nat.le_add_right ..)
      · right
        omega

/-! A call of its own. -/

namespace Db

variable {db : Db} {o : AckedPruneOptions} {cf : Nat} {R : StreamId → Option RecoveryTarget}

/-- Rows that may go are in the order of their streams. -/
theorem pairwise_deletables {streams : List StreamView}
    (hnodup : (streams.map StreamView.writer).Nodup) :
    (db.deletables T o now acks included cf streams).Pairwise fun r r' =>
      r.entry.writer = r'.entry.writer → r.entry.seq < r'.entry.seq := by
  have hdistinct : (streams.filter StreamView.prunable).Pairwise fun s s' => s.writer ≠ s'.writer :=
    (List.pairwise_map.1 hnodup).filter _
  apply List.pairwise_flatMap.2
  constructor
  · intro s _
    have hsub : (db.deletable T o now acks included cf s).Sublist (db.held T s.writer) :=
      List.takeWhile_sublist _
    apply ((db.pairwise_held T s.writer).sublist hsub).imp
    exact fun hlt _ => hlt
  · apply hdistinct.imp
    intro s s' hne r hr r' hr' hw
    have hwriter := (mem_held.1 (mem_deletable_held hr)).2.2
    have hwriter' := (mem_held.1 (mem_deletable_held hr')).2.2
    exact absurd (hwriter.symm.trans (hw.trans hwriter')) hne

section
variable (T : Topic) (o : AckedPruneOptions) (now : Nat)

/-- The rows that a call would take with room for all of them. -/
def prunableRows (db : Db) (R : StreamId → Option RecoveryTarget) (self : WriterId) : List LogRow :=
  let streams := db.ackStreams T R
  db.deletables T o now (db.sqAcks.rows.filter fun r => r.topic = T)
    (db.memberPlan T o now streams self).included (db.cursorFloor T) streams

end

theorem map_writer_ackStreams (db : Db) (T : Topic) (R : StreamId → Option RecoveryTarget) :
    (db.ackStreams T R).map StreamView.writer = (db.writersOf T).map WriterRow.writer := by
  rw [ackStreams, List.map_map]
  rfl

theorem pairwise_prunableRows (db : Db) (T : Topic) (o : AckedPruneOptions) (now : Nat)
    (R : StreamId → Option RecoveryTarget) (self : WriterId) :
    (db.prunableRows T o now R self).Pairwise fun r r' =>
      r.entry.writer = r'.entry.writer → r.entry.seq < r'.entry.seq := by
  apply pairwise_deletables
  rw [map_writer_ackStreams]
  exact db.nodup_writersOf T

theorem nodup_prunableRows (db : Db) (T : Topic) (o : AckedPruneOptions) (now : Nat)
    (R : StreamId → Option RecoveryTarget) (self : WriterId) :
    ((db.prunableRows T o now R self).map fun r => r.entry.id).Nodup := by
  apply List.pairwise_map.2
  apply (db.pairwise_prunableRows T o now R self).imp
  intro r r' hafter hid
  have hlt := hafter (congrArg (fun id => id.2.1) hid)
  have heq : r.entry.seq = r'.entry.seq := congrArg (fun id => id.2.2) hid
  omega

theorem mem_prunableRows (h : r ∈ db.prunableRows T o now R self) : r ∈ db.sqLog.rows :=
  (mem_log_of_deletables h).1

/-- A call takes the first of the rows that may go, as many as it has room for. -/
theorem prunedTo_pruneAcked (db : Db) (T : Topic) (o : AckedPruneOptions) (now : Nat)
    (R : StreamId → Option RecoveryTarget) (self : WriterId) (maxRows : Nat) :
    let rows := db.prunableRows T o now R self
    let out := db.pruneAcked T o now R self maxRows
    Struck T now db (if o.dryRun then [] else rows.take maxRows) out.1 ∧
      out.2.prunedRows = (rows.take maxRows).length ∧
      (out.2.more = false → rows.length ≤ maxRows) ∧ (out.2.more = true → maxRows ≤ rows.length) := by
  intro rows out
  obtain ⟨nodes, hnamed⟩ := db.nameMembers_eq T o now (db.memberNames T o (db.ackStreams T R) self)
  have hstart : Struck T now db [] (db.nameMembers T o now
      (db.memberNames T o (db.ackStreams T R) self)) := by
    rw [hnamed]
    exact ⟨(Struck.refl T now db).log, fun _ => rfl, fun _ _ => rfl⟩
  have hnodup : ((db.ackStreams T R).map StreamView.writer).Nodup := by
    rw [map_writer_ackStreams]
    exact db.nodup_writersOf T
  have hstreams : PrunedTo T o now db [] rows ⟨maxRows, 0, false, []⟩
      ((db.ackStreams T R).foldl (pruneStream T o now (db.sqAcks.rows.filter fun r => r.topic = T)
        (db.memberPlan T o now (db.ackStreams T R) self).included (db.cursorFloor T))
        (_, ⟨maxRows, 0, false, []⟩)) :=
    prunedTo_pruneStreams hnodup hstart (fun g hg => nomatch hg) (fun g hg => nomatch hg)
  obtain ⟨hstruck, hpruned, hfinished, hmore⟩ := hstreams
  refine ⟨?_, hpruned.trans (Nat.zero_add _), fun h => (hfinished h).2,
    fun h => (hmore h).resolve_left Bool.false_ne_true⟩
  change Struck T now db _ (if o.dryRun then _ else _)
  rw [List.nil_append] at hstruck
  split
  · next hdry =>
    rw [if_pos hdry] at hstruck
    exact hstruck
  · next hreal =>
    rw [if_neg hreal] at hstruck
    exact ⟨hstruck.log, hstruck.floors, hstruck.others⟩

end Db

end Seqscribe
