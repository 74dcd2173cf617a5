import Seqscribe.ArchiveHistory
import Seqscribe.WantServe

namespace Seqscribe
set_option autoImplicit true

/-! Whether a WANT gets an answer that ends it. -/

/-- Frames that cover the sequence numbers from `start` on without a gap; exactly the last is the
`done` one. -/
inductive Tiles : Nat → List MsgEntries → Prop where
  | last {f : MsgEntries} : f.fromSeq = start → f.entries.map LogEntry.seq = List.range' start f.entries.length →
      f.done = true → Tiles start [f]
  | cons {f : MsgEntries} : f.fromSeq = start → f.entries.map LogEntry.seq = List.range' start f.entries.length →
      f.done = false → Tiles (start + f.entries.length) fs → Tiles start (f :: fs)

/-- The entries of the frames come one after another. -/
theorem Tiles.seqs (h : Tiles start fs) : ∃ n, (fs.flatMap MsgEntries.entries).map LogEntry.seq =
    List.range' start n := by
  induction h with
  | @last start f _ hseqs _ =>
    refine ⟨f.entries.length, ?_⟩
    rw [List.flatMap_cons, List.flatMap_nil, List.append_nil]
    exact hseqs
  | @cons start fs f _ hseqs _ _ ih =>
    obtain ⟨n, hn⟩ := ih
    refine ⟨f.entries.length + n, ?_⟩
    rw [List.flatMap_cons, List.map_append, hseqs, hn, List.range'_append_1]

theorem Tiles.done (h : Tiles start fs) :
    ∃ init last, fs = init ++ [last] ∧ last.done = true ∧ ∀ f ∈ init, f.done = false := by
  induction h with
  | @last _ f _ _ hdone => exact ⟨[], f, rfl, hdone, fun _ hf => nomatch hf⟩
  | @cons _ fs f _ _ hmore _ ih =>
    obtain ⟨init, last, hfs, hdone, hinit⟩ := ih
    exact ⟨f :: init, last, congrArg (f :: ·) hfs, hdone, List.forall_mem_cons.2 ⟨hmore, hinit⟩⟩

/-- The answer ends the WANT: a TRUNCATED, or frames from the requested entry on. -/
def WantAnswer.Ends (m : MsgWant) : WantAnswer → Prop
  | .entries fs => Tiles m.fromSeq fs
  | .truncated _ => True

namespace Responder

variable (env : Env)

theorem tiles_completion (m : MsgWant) (toSeq : Nat) : Tiles m.fromSeq [completion m toSeq] :=
  .last rfl rfl rfl

/-- The frames of a range that is held. -/
theorem tiles_frames (r : Responder) (m : MsgWant) (budget : Nat) {toSeq : Nat}
    (h : Holds (r.core.stream env (m.topic, m.writer)) first toSeq row) (n start : Nat)
    (hfirst : first ≤ start) (hstart : start ≤ toSeq) (hn : toSeq + 1 - start ≤ n) :
    Tiles start (r.frames env m budget toSeq n start) := by
  induction n generalizing start with
  | zero => omega
  | succ n ih =>
    obtain ⟨len, hpos, hend, hframes, -, -⟩ := frames_succ env r m budget n h hfirst hstart
    have hseqs : ((List.range' start len).map row).map LogEntry.seq =
        List.range' start ((List.range' start len).map row).length := by
      rw [List.length_map, List.length_range', List.map_map]
      apply (List.map_congr_left _).trans (List.map_id _)
      intro s hs
      rw [List.mem_range'_1] at hs
      exact (h s (hfirst.trans hs.1) (by omega)).2
    rw [hframes]
    rcases Nat.lt_or_ge toSeq (start + len) with hafter | hmore
    · have hnone : r.frames env m budget toSeq n (start + len) = [] := by
        cases n with
        | zero => rfl
        | succ n => rw [frames, if_neg (not_le.2 hafter)]
      rw [hnone]
      exact .last rfl hseqs (decide_eq_true (by omega))
    · refine .cons rfl hseqs (decide_eq_false (by omega)) ?_
      rw [List.length_map, List.length_range']
      exact ih (start + len) (by omega) hmore (by omega)

theorem mem_nextBatch (r : Responder) (m : MsgWant) (budget toSeq start : Nat)
    (he : e ∈ r.nextBatch env m budget toSeq start) :
    (r.core.stream env (m.topic, m.writer)).rows e.seq = some e := by
  obtain ⟨p, q, hsplit, htake, -⟩ := takeBatch_eq r.cost budget
    ((r.core.stream env (m.topic, m.writer)).range start
      (min toSeq (start + ENTRIES_BATCH_MAX - 1))) [] (.inl (Nat.zero_le _))
  have hbatch : r.nextBatch env m budget toSeq start = p := htake
  rw [hbatch] at he
  have hrange := hsplit ▸ List.mem_append_left q he
  obtain ⟨s, -, hs⟩ := List.mem_filterMap.1 hrange
  obtain ⟨row, hget, rfl⟩ := Option.map_eq_some_iff.1 hs
  have hseq : row.entry.seq = s := congrArg (fun id : EntryId => id.2.2) (log_id_of_get hget)
  rw [hseq]
  exact hs

/-- A row is held for every sequence number that the frames of an answer cover. -/
theorem rows_of_tiles (r : Responder) (m : MsgWant) (budget toSeq n start : Nat)
    (h : Tiles start (r.frames env m budget toSeq n start)) (hs : start ≤ s) (hto : s ≤ toSeq) :
    ((r.core.stream env (m.topic, m.writer)).rows s).isSome = true := by
  induction n generalizing start with
  | zero => cases h
  | succ n ih =>
    rw [frames, if_pos (hs.trans hto)] at h
    dsimp only at h
    split at h
    · cases h
    · next last hlast =>
      have hcovered : ∀ {len}, (r.nextBatch env m budget toSeq start).map LogEntry.seq =
          List.range' start len → start + len = last.seq + 1 ∧ (s ≤ last.seq →
            ((r.core.stream env (m.topic, m.writer)).rows s).isSome = true) := by
        intro len hseqs
        have hend := congrArg List.getLast? hseqs
        rw [List.getLast?_map, hlast, List.getLast?_range'] at hend
        split at hend
        · cases hend
        · have hend := Option.some.inj hend
          refine ⟨by omega, fun hle => ?_⟩
          have hin : s ∈ (r.nextBatch env m budget toSeq start).map LogEntry.seq := by
            rw [hseqs, List.mem_range'_1]
            omega
          obtain ⟨e, he, rfl⟩ := List.mem_map.1 hin
          rw [mem_nextBatch env r m budget toSeq start he]
          rfl
      generalize hrest : r.frames env m budget toSeq n (last.seq + 1) = rest at h
      cases h with
      | last _ hseqs hdone => exact (hcovered hseqs).2 (hto.trans (of_decide_eq_true hdone))
      | cons _ hseqs _ hfs =>
        obtain ⟨hnext, hheld⟩ := hcovered hseqs
        rcases Nat.lt_or_ge last.seq s with hafter | hin
        · rw [hnext, ← hrest] at hfs
          exact ih _ hfs hafter
        · exact hheld hin

/-- The answer to a WANT; a topic that is not shared in full gets an error. -/
def reply (r : Responder) (s : Session MsgEntries) (m : MsgWant) : Option WantAnswer :=
  if s.mutualFull m.topic = true then
    some (r.wantAnswer env s.proto (s.o.constants.MAX_FRAME_BYTES / 2) m)
  else none

def sendReply (now : Nat) (m : MsgWant) (s : Session MsgEntries) :
    Option WantAnswer → Session MsgEntries
  | some answer => answer.send now s
  | none => s.sendControl (.err .ERR_ACL_DENIED (some m.topic) none)

/-- Where a row is missing, of those that a WANT is owed from the log. -/
def Owes (r : Responder) (m : MsgWant) (s : Nat) : Prop :=
  let stream := r.core.stream env (m.topic, m.writer)
  r.maybeOffer m = false ∧ (∀ floor, stream.floor = some floor → floor.seq < m.fromSeq) ∧
    m.fromSeq ≤ s ∧ s ≤ stream.head.contigSeq ∧ stream.rows s = none

/-- An answer ends the WANT when no row of it is missing. -/
theorem wantAnswer_ends (r : Responder) (proto budget : Nat) (m : MsgWant) :
    (r.wantAnswer env proto budget m).Ends m ↔ ¬ ∃ s, r.Owes env m s := by
  rw [wantAnswer]
  split
  · next hoffer =>
    apply iff_of_true (tiles_completion m _)
    rintro ⟨s, hno, -⟩
    rw [hno] at hoffer
    cases hoffer
  · next hoffer =>
    have hoffer := Bool.eq_false_of_not_eq_true hoffer
    split
    · next floor hfloor =>
      obtain ⟨hsome, hbelow⟩ := Option.filter_eq_some_iff.1 hfloor
      have hbelow := of_decide_eq_true hbelow
      apply iff_of_true
      · split
        · trivial
        · exact tiles_completion m _
      · rintro ⟨s, -, habove, -⟩
        exact absurd (habove floor hsome) (not_lt.2 hbelow)
    · next hnone =>
      have habove : ∀ floor, (r.core.stream env (m.topic, m.writer)).floor = some floor →
          floor.seq < m.fromSeq := by
        intro floor hfloor
        rw [hfloor, Option.filter_some] at hnone
        by_contra hbelow
        rw [if_pos (decide_eq_true (not_lt.1 hbelow))] at hnone
        cases hnone
      split
      · next hbeyond =>
        apply iff_of_true (tiles_completion m _)
        rintro ⟨s, -, -, hfrom, hto, -⟩
        omega
      · next hdeficit =>
        have hdeficit := not_lt.1 hdeficit
        constructor
        · rintro hends ⟨s, -, -, hfrom, hto, hmissing⟩
          have hheld := rows_of_tiles env r m budget _ _ _ hends hfrom hto
          rw [hmissing] at hheld
          cases hheld
        · intro hno
          have hserves : r.Serves env m := by
            refine ⟨hdeficit, fun s hfrom hto => ?_, habove⟩
            rw [← Option.ne_none_iff_isSome]
            exact fun hmissing => hno ⟨s, hoffer, habove, hfrom, hto, hmissing⟩
          obtain ⟨row, hrow⟩ := hserves.holds
          exact tiles_frames env r m budget hrow _ m.fromSeq (Nat.le_refl _) hdeficit (Nat.le_refl _)

/-- With no row of the first window in the log nothing is sent at all. -/
theorem serveWant_silent (r : Responder) (now : Nat) (m : MsgWant) {s : Session MsgEntries}
    (hmutual : s.mutualFull m.topic = true) (hoffer : r.maybeOffer m = false)
    (hfloor : (r.core.stream env (m.topic, m.writer)).floor = none)
    (hdeficit : m.fromSeq ≤ (r.core.stream env (m.topic, m.writer)).head.contigSeq)
    (hmissing : ∀ seq, m.fromSeq ≤ seq →
      seq ≤ min (r.core.stream env (m.topic, m.writer)).head.contigSeq
        (m.fromSeq + ENTRIES_BATCH_MAX - 1) →
      (r.core.stream env (m.topic, m.writer)).rows seq = none) :
    r.serveWant env now m s = s := by
  have hrange : (r.core.stream env (m.topic, m.writer)).range m.fromSeq
      (min (r.core.stream env (m.topic, m.writer)).head.contigSeq
        (m.fromSeq + ENTRIES_BATCH_MAX - 1)) = [] := by
    rw [Stream.range, List.filterMap_eq_nil_iff]
    intro seq hseq
    rw [List.mem_range'_1] at hseq
    exact hmissing seq hseq.1 (by omega)
  have hbatch : ∀ budget, r.nextBatch env m budget
      (r.core.stream env (m.topic, m.writer)).head.contigSeq m.fromSeq = [] := by
    intro budget
    rw [nextBatch, hrange]
    rfl
  have hfuel : (r.core.stream env (m.topic, m.writer)).head.contigSeq + 1 - m.fromSeq =
      (r.core.stream env (m.topic, m.writer)).head.contigSeq - m.fromSeq + 1 := by omega
  rw [serveWant_eq env r now m hmutual, wantAnswer, hoffer, hfloor, Option.filter_none,
    if_neg Bool.false_ne_true]
  dsimp only
  rw [if_neg (not_lt.2 hdeficit), hfuel, frames, if_pos hdeficit, hbatch]
  rfl

end Responder

open Responder

/-- `serveWant` sends its reply as far as the lane takes it, and the reply ends the WANT exactly
when the topic is shared in full and no row that it is served from the log is missing. -/
theorem serveWant_ends (env : Env) (r : Responder) (now : Nat) (m : MsgWant)
    (s : Session MsgEntries) :
    r.serveWant env now m s = sendReply now m s (r.reply env s m) ∧
      ((∃ answer, r.reply env s m = some answer ∧ answer.Ends m) ↔
        s.mutualFull m.topic = true ∧ ¬ ∃ seq, r.Owes env m seq) := by
  cases hmutual : s.mutualFull m.topic with
  | true =>
    have hreply : r.reply env s m =
        some (r.wantAnswer env s.proto (s.o.constants.MAX_FRAME_BYTES / 2) m) := if_pos hmutual
    rw [hreply, ← wantAnswer_ends env r s.proto (s.o.constants.MAX_FRAME_BYTES / 2) m]
    refine ⟨serveWant_eq env r now m hmutual, ?_⟩
    simp
  | false =>
    have hreply : r.reply env s m = none := if_neg (by rw [hmutual]; exact Bool.noConfusion)
    rw [hreply]
    refine ⟨?_, by simp⟩
    rw [serveWant, if_pos hmutual]
    rfl

/-- A later certificate, which says nothing of the archived stream. -/
def barrenCert : FinalityCert :=
  { firstCut with order := ⟨11, 0, "y", 1⟩, cut := .empty, generation := 2 }

/-- The first entry is archived under a certificate that is then replaced. -/
def barrenResponder : Responder where
  core := runCore (hostEnv "b") Core.init (archivedFirst ++ [hostFlush "b" 23 [.cert barrenCert]])
  snapshotHub := true
  cost e := utf8ByteLength ((hostEnv "b").jcs (entryJson e))

/-- The head has the entry, and the log has not: the WANT of a ready peer ends in silence. -/
theorem archived_want_unanswered :
    readySession.mutualFull longWant.topic = true ∧
      (barrenResponder.core.stream (hostEnv "b") ("t", "w")).head.contigSeq = 1 ∧
      barrenResponder.serveWant (hostEnv "b") 0 longWant readySession = readySession ∧
      ¬ ∃ answer, barrenResponder.reply (hostEnv "b") readySession longWant = some answer ∧
        answer.Ends longWant := by
  have hcontig : (barrenResponder.core.stream (hostEnv "b") ("t", "w")).head.contigSeq = 1 := by
    decide +kernel
  have hoffer : barrenResponder.maybeOffer longWant = false := by decide +kernel
  have hfloor : (barrenResponder.core.stream (hostEnv "b") ("t", "w")).floor.isNone = true := by
    decide +kernel
  have hrow : ((barrenResponder.core.stream (hostEnv "b") ("t", "w")).rows 1).isNone = true := by
    decide +kernel
  have hfloor := Option.isNone_iff_eq_none.1 hfloor
  have hrow := Option.isNone_iff_eq_none.1 hrow
  generalize barrenResponder = r at hcontig hoffer hfloor hrow ⊢
  have hmutual : readySession.mutualFull longWant.topic = true := rfl
  refine ⟨hmutual, hcontig, ?_, ?_⟩
  · apply serveWant_silent (hostEnv "b") r 0 longWant hmutual hoffer hfloor
    · exact Nat.le_of_eq hcontig.symm
    · intro seq hfrom hto
      have hfrom : 1 ≤ seq := hfrom
      have hto : seq ≤ (r.core.stream (hostEnv "b") ("t", "w")).head.contigSeq :=
        hto.trans (Nat.min_le_left _ _)
      obtain rfl : seq = 1 := by omega
      exact hrow
  · rintro ⟨answer, hreply, hends⟩
    rw [reply, if_pos hmutual] at hreply
    cases Option.some.inj hreply
    have hno := (wantAnswer_ends (hostEnv "b") r _ _ longWant).1 hends
    apply hno
    refine ⟨1, hoffer, ?_, Nat.le_refl 1, Nat.le_of_eq hcontig.symm, hrow⟩
    intro floor hsome
    cases hfloor.symm.trans hsome

end Seqscribe
