import Seqscribe.Cluster
import Seqscribe.FailedBuilds
import Seqscribe.HaveSize
import Seqscribe.JsonBytes
import Seqscribe.SnapChunks

namespace Seqscribe
set_option autoImplicit true

/-! The frames of the data lane, and their bytes. -/

/-- What a builder of the data lane gives, but for its mid. -/
inductive DataBody where
  | entries (req : Option Int) (topic : Topic) (writer : WriterId) (fromSeq toSeq : Nat)
      (rows : List LogEntry) (last : Bool)
  | snapshot (topic : Topic) (snapshotId : String) (chunk count : Nat) (data : JsString)
      (totalHash : String)
  | snap (subId : Int) (chunk count : Nat) (data cursor : JsString)
  | delta (subId : Int) (changes : SubChanges) (cursor : JsString)

namespace DataBody

def t : DataBody → String
  | .entries .. => "ENTRIES"
  | .snapshot .. => "SNAPSHOT"
  | .snap .. => "SNAP"
  | .delta .. => "DELTA"

/-- The members that follow the type and the mid. -/
def members : DataBody → List (JsString × JsonValue)
  | .entries req topic writer fromSeq toSeq rows last =>
    (req.map fun r : Int => (js "req", JsonValue.num (r : Rat))).toList ++
      [(js "topic", .str (js topic)), (js "writer", .str (js writer)), (js "fromSeq", .num fromSeq),
        (js "toSeq", .num toSeq), (js "entries", .arr (rows.map entryJson)),
        (js "done", .bool last)]
  | .snapshot topic snapshotId chunk count data totalHash =>
    [(js "topic", .str (js topic)), (js "snapshotId", .str (js snapshotId)),
      (js "chunk", .num chunk), (js "of", .num count), (js "data", .str data),
      (js "totalHash", .str (js totalHash))]
  | .snap subId chunk count data cursor =>
    [(js "subId", .num subId), (js "chunk", .num chunk), (js "of", .num count),
      (js "data", .str data), (js "cursor", .str cursor), (js "reset", .bool true)]
  | .delta subId changes cursor =>
    [(js "subId", .num subId), (js "changes", SubHub.changesJson changes),
      (js "cursor", .str cursor)]

def json (mid : Nat) (body : DataBody) : JsonValue :=
  .obj ((js "t", .str (js body.t)) :: (js "mid", .num mid) :: body.members)

end DataBody

/-- The lane's view of the frames: `JSON.stringify` and its bytes. -/
def dataWire (num : NumberText) : Wire DataBody where
  t := DataBody.t
  byteLength m := utf8ByteLength (jsonText num (m.body.json m.mid))

/-- `utf8ByteLength(JSON.stringify(entry))` -/
def entryCost (num : NumberText) (e : LogEntry) : Nat :=
  utf8ByteLength (jsonText num (entryJson e))

/-- Four draws of sixteen bits in hexadecimal. -/
def mintEpoch (draws : UInt16 × UInt16 × UInt16 × UInt16) : String :=
  String.ofList <| [draws.1, draws.2.1, draws.2.2.1, draws.2.2.2].flatMap fun n =>
    [Sha256.hexDigit (n.toNat / 0x1000), Sha256.hexDigit (n.toNat / 0x100 % 16),
      Sha256.hexDigit (n.toNat / 0x10 % 16), Sha256.hexDigit (n.toNat % 16)]

def SafeInt (n : Int) : Prop := n.natAbs ≤ MAX_SAFE_INTEGER

/-- What the builders form: the batches of `serveWant` and `pumpDirty`, the empty completions
among them, the chunks of `handleGet` and of `pumpSnap`, and the deltas that `deliverDelta`
admits. -/
inductive DataBody.Formed (num : NumberText) (env : SubEnv) : DataBody → Prop
  | entries {req : Option Int} {topic : Topic} {writer : WriterId} {fromSeq toSeq : Nat}
      {rows : List LogEntry} {last : Bool} (hreq : ∀ r ∈ req, SafeInt r)
      (htopic : TOPIC_RE topic = true)
      (hwriter : WRITER_RE writer = true) (hfrom : SafeNat fromSeq) (hto : SafeNat toSeq)
      (hlength : rows.length ≤ ENTRIES_BATCH_MAX)
      (hvalid : ∀ e ∈ rows, validateEntry env.env e = .ok e) :
      Formed num env (.entries req topic writer fromSeq toSeq
        (Responder.takeBatch (entryCost num) (env.env.constants.MAX_FRAME_BYTES / 2) 0 [] rows)
        last)
  | snapshot {topic : Topic} {snapshotId totalHash : String} {chunk : Nat} {body : List UInt8}
      (htopic : TOPIC_RE topic = true) (hid : CHAIN_RE snapshotId = true)
      (htotal : CHAIN_RE totalHash = true) (hbody : SafeNat body.length)
      (hchunk : chunk ≤ snapCount (Serving.rawChunkBudget env) body) :
      Formed num env (.snapshot topic snapshotId chunk
        (snapCount (Serving.rawChunkBudget env) body)
        (b64encode (snapChunk (Serving.rawChunkBudget env) body chunk)) totalHash)
  | snap {subId d : Int} {chunk : Nat} {body : List UInt8}
      {draws : UInt16 × UInt16 × UInt16 × UInt16} (hsub : SafeInt subId)
      (hbody : SafeNat body.length)
      (hchunk : chunk ≤ snapCount (Serving.rawChunkBudget env) body) (hseq : SafeInt d) :
      Formed num env (.snap subId chunk (snapCount (Serving.rawChunkBudget env) body)
        (b64encode (snapChunk (Serving.rawChunkBudget env) body chunk))
        (encodeCursor env ⟨mintEpoch draws, d⟩))
  | delta {subId d : Int} {seq : Nat} {changes : SubChanges}
      {draws : UInt16 × UInt16 × UInt16 × UInt16} (hsub : SafeInt subId) (hseq : SafeInt d)
      (hfits : ¬ env.env.constants.MAX_FRAME_BYTES < Serving.deltaFrameBytes env
        ⟨seq, changes, utf8ByteLength (env.stringify (SubHub.changesJson changes))⟩
        ⟨mintEpoch draws, d⟩) :
      Formed num env (.delta subId changes (encodeCursor env ⟨mintEpoch draws, d⟩))

/-! The bytes of the parts. -/

section
variable (num : NumberText)

theorem memberBytes_eq (members : List (JsString × JsonValue)) :
    memberBytes num members =
      members.map fun m => utf8ByteLength (quote m.1) + 1 + textBytes num m.2 := by
  induction members with
  | nil => rfl
  | cons m members ih => exact congrArg _ ih

theorem valueBytes_eq (xs : List JsonValue) : valueBytes num xs = xs.map (textBytes num) := by
  induction xs with
  | nil => rfl
  | cons x xs ih => exact congrArg _ ih

theorem bytes_integer {n : Int} (h : SafeInt n) :
    textBytes num (.num n) = (toString n).length := by
  rw [textBytes, num.integer n h, utf8ByteLength_ascii (ascii_js (ascii_toString n)),
    length_js (ascii_toString n)]

theorem bytes_safeInt {n : Int} (h : SafeInt n) : textBytes num (.num n) ≤ 17 := by
  rw [bytes_integer num h]
  rw [SafeInt] at h
  exact length_toString_le (by omega)

theorem bytes_safeNat {n : Nat} (h : SafeNat n) : textBytes num (.num n) ≤ 16 := by
  have hcast : ((n : Int) : Rat) = (n : Rat) := Int.cast_natCast n
  have hsafe : SafeInt n := (Int.natAbs_natCast n).le.trans h
  have hdigits := h.digits
  rw [textLength, Rat.num_natCast] at hdigits
  rw [← hcast, bytes_integer num hsafe]
  exact hdigits

theorem bytes_topic (h : TOPIC_RE s = true) : textBytes num (.str (js s)) ≤ 130 := by
  obtain ⟨hplain, -, hlength⟩ := plain_topic h
  rw [textBytes, bytes_quote_plain hplain]
  omega

theorem bytes_writer (h : WRITER_RE s = true) : textBytes num (.str (js s)) ≤ 130 := by
  obtain ⟨hplain, -, hlength⟩ := plain_writer h
  rw [textBytes, bytes_quote_plain hplain]
  omega

theorem bytes_chain (h : CHAIN_RE s = true) : textBytes num (.str (js s)) = 66 := by
  obtain ⟨hplain, hlength⟩ := plain_chain h
  rw [textBytes, bytes_quote_plain hplain, hlength]

end

/-! Base64, minted epochs and cursors. -/

theorem B64_CODES_plain : ∀ n < 64, 32 ≤ (B64_CODES n).toNat ∧ (B64_CODES n).toNat < 128 ∧
    (B64_CODES n).toNat ≠ 34 ∧ (B64_CODES n).toNat ≠ 92 := by decide +kernel

theorem plain_b64encode (bytes : List UInt8) : PlainText (b64encode bytes) := by
  obtain ⟨n, heq⟩ := b64encode_eq bytes
  rw [heq]
  intro u hu
  rcases List.mem_append.1 hu with hu | hu
  · obtain ⟨m, hm, rfl⟩ := List.mem_map.1 hu
    exact B64_CODES_plain m (sextets_lt bytes m hm)
  · obtain rfl := List.eq_of_mem_replicate hu
    decide

theorem hexDigit_plain (hn : n < 16) : 32 ≤ (Sha256.hexDigit n).toNat ∧
    (Sha256.hexDigit n).toNat < 128 ∧ (Sha256.hexDigit n).toNat ≠ 34 ∧
    (Sha256.hexDigit n).toNat ≠ 92 := by
  have hall : ∀ n < 16, 32 ≤ (Sha256.hexDigit n).toNat ∧ (Sha256.hexDigit n).toNat < 128 ∧
      (Sha256.hexDigit n).toNat ≠ 34 ∧ (Sha256.hexDigit n).toNat ≠ 92 := by decide
  exact hall n hn

theorem plain_mintEpoch (draws : UInt16 × UInt16 × UInt16 × UInt16) :
    PlainText (js (mintEpoch draws)) := by
  have hchars : ∀ ch ∈ (mintEpoch draws).toList, 32 ≤ ch.toNat ∧ ch.toNat < 128 ∧
      ch.toNat ≠ 34 ∧ ch.toNat ≠ 92 := by
    intro ch hch
    rw [mintEpoch, String.toList_ofList] at hch
    obtain ⟨n, -, hdigit⟩ := List.mem_flatMap.1 hch
    have hn := n.toNat_lt
    simp only [List.mem_cons, List.not_mem_nil, or_false] at hdigit
    rcases hdigit with rfl | rfl | rfl | rfl <;> exact hexDigit_plain (by omega)
  intro u hu
  obtain ⟨ch, hch, heq⟩ := toNat_js (fun ch hch => (hchars ch hch).2.1) hu
  rw [heq]
  exact hchars ch hch

/-- ASCII without control characters. -/
def Printable (s : JsString) : Prop := ∀ u ∈ s, 32 ≤ u.toNat ∧ u.toNat < 128

/-- The quotes and backslashes of a text, each of which takes an escape. -/
def escapes (s : JsString) : Nat := s.countP fun u => u.toNat = 34 ∨ u.toNat = 92

theorem PlainText.printable (h : PlainText s) : Printable s :=
  fun u hu => ⟨(h u hu).1, (h u hu).2.1⟩

theorem PlainText.escapes (h : PlainText s) : escapes s = 0 := by
  apply List.countP_eq_zero.2
  intro u hu
  obtain ⟨-, -, hquote, hslash⟩ := h u hu
  simp [hquote, hslash]

theorem escapes_append (s s' : JsString) : escapes (s ++ s') = escapes s + escapes s' :=
  List.countP_append

theorem Printable.append (h : Printable s) (h' : Printable s') : Printable (s ++ s') := by
  intro u hu
  rcases List.mem_append.1 hu with hu | hu
  · exact h u hu
  · exact h' u hu

theorem jsonChar_printable {u : UInt16} (h : 32 ≤ u.toNat ∧ u.toNat < 128) :
    AsciiText (jsonChar u) ∧ (jsonChar u).length = 1 + escapes [u] := by
  by_cases hquote : u.toNat = 34
  · obtain rfl : u = 34 := UInt16.toNat_inj.1 hquote
    exact ⟨ascii_literal (s := "\\\"") (by decide), rfl⟩
  by_cases hslash : u.toNat = 92
  · obtain rfl : u = 92 := UInt16.toNat_inj.1 hslash
    exact ⟨ascii_literal (s := "\\\\") (by decide), rfl⟩
  have hone : jsonChar u = [u] := by
    rw [jsonChar]
    split <;> first | omega | skip
    exact if_neg (by omega)
  have hplain : PlainText [u] := by
    intro v hv
    rw [List.mem_singleton.1 hv]
    exact ⟨h.1, h.2, hquote, hslash⟩
  rw [hone, hplain.escapes]
  exact ⟨fun v hv => (hplain.printable v hv).2, rfl⟩

theorem bytes_quote_printable (h : Printable s) :
    utf8ByteLength (quote s) = s.length + escapes s + 2 := by
  have hchars : AsciiText (s.flatMap jsonChar) ∧
      (s.flatMap jsonChar).length = s.length + escapes s := by
    induction s with
    | nil => exact ⟨fun _ hu => (nomatch hu), rfl⟩
    | cons u s ih =>
      obtain ⟨hascii, hlength⟩ := jsonChar_printable (h u List.mem_cons_self)
      obtain ⟨hasciis, hlengths⟩ := ih fun v hv => h v (List.mem_cons_of_mem _ hv)
      have hcons : escapes (u :: s) = escapes [u] + escapes s := escapes_append [u] s
      rw [List.flatMap_cons]
      refine ⟨hascii.append hasciis, ?_⟩
      rw [List.length_append, hlength, hlengths, hcons, List.length_cons]
      omega
  have hquote : AsciiText (js "\"") := ascii_literal (by decide)
  have hall : AsciiText (jsonString s) := (hquote.append hchars.1).append hquote
  have hone : (js "\"").length = 1 := rfl
  rw [quote, escapeUnpaired_ascii hall, utf8ByteLength_ascii hall, jsonString, List.length_append,
    List.length_append, hchars.2, hone]
  omega

theorem quote_plain (h : PlainText s) : quote s = js "\"" ++ s ++ js "\"" := by
  rw [quote, escapeUnpaired_ascii h.jsonString.1, jsonString_plain h]

theorem length_mintEpoch (draws : UInt16 × UInt16 × UInt16 × UInt16) :
    (js (mintEpoch draws)).length = 16 := by
  have hchars : ∀ ch ∈ (mintEpoch draws).toList, ch.toNat < 128 := by
    intro ch hch
    rw [mintEpoch, String.toList_ofList] at hch
    obtain ⟨n, -, hdigit⟩ := List.mem_flatMap.1 hch
    have hn := n.toNat_lt
    simp only [List.mem_cons, List.not_mem_nil, or_false] at hdigit
    rcases hdigit with rfl | rfl | rfl | rfl <;> exact hexDigit_lt (by omega)
  rw [js_ascii hchars, List.length_map, mintEpoch, String.toList_ofList]
  rfl

theorem plain_toString (n : Int) : ∀ ch ∈ (toString n).toList, 32 ≤ ch.toNat ∧
    ch.toNat < 128 ∧ ch.toNat ≠ 34 ∧ ch.toNat ≠ 92 := by
  have hnat : ∀ n : Nat, ∀ ch ∈ n.repr.toList, 48 ≤ ch.toNat ∧ ch.toNat ≤ 57 := by
    intro n ch hch
    rw [Nat.toList_repr] at hch
    have hdigit := Nat.isDigit_of_mem_toDigits (by decide) (by decide) hch
    exact ⟨of_decide_eq_true (Bool.and_eq_true_iff.1 hdigit).1,
      of_decide_eq_true (Bool.and_eq_true_iff.1 hdigit).2⟩
  intro ch hch
  rw [Int.toString_eq_repr, Int.repr_eq_if] at hch
  split at hch
  · have := hnat _ ch hch
    omega
  · rw [String.toList_append] at hch
    rcases List.mem_append.1 hch with hch | hch
    · obtain rfl := List.mem_singleton.1 hch
      decide
    · have := hnat _ ch hch
      omega

section
variable (num : NumberText) {env : SubEnv}

theorem plain_integer {d : Int} (h : SafeInt d) : PlainText (num.text d) := by
  rw [num.integer d h]
  intro u hu
  obtain ⟨ch, hch, heq⟩ := toNat_js (ascii_toString d) hu
  rw [heq]
  exact plain_toString d ch hch

/-- The text of a cursor: six quotes, an epoch and a number. -/
theorem cursor_text (hstringify : env.stringify = jsonText num) (hd : SafeInt d)
    (draws : UInt16 × UInt16 × UInt16 × UInt16) :
    Printable (encodeCursor env ⟨mintEpoch draws, d⟩) ∧
      escapes (encodeCursor env ⟨mintEpoch draws, d⟩) = 6 ∧
      (encodeCursor env ⟨mintEpoch draws, d⟩).length ≤ 46 := by
  have hepoch := plain_mintEpoch draws
  have hnumber := plain_integer num hd
  have hquote : Printable (js "\"") := by
    intro u hu
    obtain rfl := List.mem_singleton.1 hu
    decide
  have hkey : PlainText (js "e") ∧ PlainText (js "d") ∧ PlainText (js ":") ∧ PlainText (js ",") ∧
      PlainText (js "\x7b") ∧ PlainText (js "\x7d") :=
    ⟨plainText_js (by decide), plainText_js (by decide), plainText_js (by decide),
      plainText_js (by decide), plainText_js (by decide), plainText_js (by decide)⟩
  obtain ⟨he, hd', hcolon, hcomma, hopen, hclose⟩ := hkey
  have hlength : (num.text d).length ≤ 17 := by
    have hbytes := bytes_safeInt num hd
    rwa [textBytes, utf8ByteLength_ascii (num.ascii d)] at hbytes
  have htext : encodeCursor env ⟨mintEpoch draws, d⟩ =
      js "\x7b" ++ (js "\"" ++ js "e" ++ js "\"" ++ js ":" ++
          (js "\"" ++ js (mintEpoch draws) ++ js "\"") ++ js "," ++
        (js "\"" ++ js "d" ++ js "\"" ++ js ":" ++ num.text d)) ++ js "\x7d" := by
    rw [encodeCursor, hstringify, jsonText, jsonMembers, jsonMembers, jsonMembers, joined,
      intercalate_cons_cons, jsonText, jsonText, quote_plain he, quote_plain hd',
      quote_plain hepoch]
    simp [List.intercalate]
  rw [htext]
  refine ⟨?_, ?_, ?_⟩
  · have hname := hquote.append (hepoch.printable.append hquote)
    simp only [List.append_assoc]
    exact hopen.printable.append <| hquote.append <| he.printable.append <| hquote.append <|
      hcolon.printable.append <| hquote.append <| hepoch.printable.append <| hquote.append <|
      hcomma.printable.append <| hquote.append <| hd'.printable.append <| hquote.append <|
      hcolon.printable.append <| hnumber.printable.append hclose.printable
  · have hone : escapes (js "\"") = 1 := rfl
    simp only [escapes_append, hone, he.escapes, hd'.escapes, hcolon.escapes, hcomma.escapes,
      hopen.escapes, hclose.escapes, hepoch.escapes, hnumber.escapes]
  · have hone : (js "\"").length = 1 ∧ (js "e").length = 1 ∧ (js "d").length = 1 ∧
        (js ":").length = 1 ∧ (js ",").length = 1 ∧ (js "\x7b").length = 1 ∧
        (js "\x7d").length = 1 := ⟨rfl, rfl, rfl, rfl, rfl, rfl, rfl⟩
    simp only [List.length_append, hone, length_mintEpoch]
    omega

/-- A cursor in a frame: the escapes of its quotes and the quotes around it. -/
theorem bytes_cursor (hstringify : env.stringify = jsonText num) (hd : SafeInt d)
    (draws : UInt16 × UInt16 × UInt16 × UInt16) :
    textBytes num (.str (encodeCursor env ⟨mintEpoch draws, d⟩)) =
        utf8ByteLength (encodeCursor env ⟨mintEpoch draws, d⟩) + 8 ∧
      utf8ByteLength (encodeCursor env ⟨mintEpoch draws, d⟩) ≤ 46 := by
  obtain ⟨hprint, hescapes, hlength⟩ := cursor_text num hstringify hd draws
  have hascii : AsciiText (encodeCursor env ⟨mintEpoch draws, d⟩) := fun u hu => (hprint u hu).2
  rw [textBytes, bytes_quote_printable hprint, hescapes, utf8ByteLength_ascii hascii]
  exact ⟨rfl, hlength⟩

end

/-! The bytes of a batch. -/

/-- What the validator admits costs at most `MAX_ENTRY_BYTES`, in whatever order its members
are written. -/
theorem entryCost_le {env : Env} (num : NumberText) (hjcs : env.jcs = canonicalText num)
    (h : validateEntry env e = .ok e') : entryCost num e ≤ env.constants.MAX_ENTRY_BYTES := by
  obtain ⟨_, hcheck, -⟩ := Except.bind_eq_ok h
  iterate 12 replace hcheck := (Except.bind_eq_ok hcheck).choose_spec.2
  have hbytes := ensure_ok hcheck
  rw [hjcs, bytes_canonicalText] at hbytes
  exact hbytes

theorem batch_bytes (num : NumberText) (budget : Nat) {limit : Nat} {rows : List LogEntry}
    (hcost : ∀ e ∈ rows, entryCost num e ≤ limit) (hlimit : limit ≤ budget)
    (hlength : rows.length ≤ ENTRIES_BATCH_MAX) :
    textBytes num (.arr ((Responder.takeBatch (entryCost num) budget 0 [] rows).map entryJson)) ≤
      budget + 102 := by
  obtain ⟨p, q, rfl, htake, hfits, -, -⟩ :=
    Responder.takeBatch_eq (entryCost num) budget rows [] (.inl (Nat.zero_le _))
  have hsum : (p.map (entryCost num)).sum ≤ budget := by
    rcases hfits with hone | hsum
    · match p, hone, hcost with
      | [], _, _ => exact Nat.zero_le _
      | [e], _, hcost =>
        have := hcost e List.mem_cons_self
        rw [List.map_singleton, List.sum_singleton]
        omega
    · exact hsum
  have hcosts : (valueBytes num (p.map entryJson)) = p.map (entryCost num) := by
    rw [valueBytes_eq, List.map_map]
    exact List.map_congr_left fun e _ => ((jsonText_bytes num (entryJson e)).2).symm
  have hcommas : ((p.map (entryCost num)).map (· + 1)).sum =
      (p.map (entryCost num)).sum + p.length := by
    rw [List.sum_map_add, List.map_id', List.map_const', List.sum_replicate, List.length_map,
      nsmul_eq_mul, Nat.mul_one, Nat.cast_id]
  have hbatch : Responder.takeBatch (entryCost num) budget 0 [] (p ++ q) = p := htake
  have hp : p.length ≤ 100 := by
    rw [List.length_append] at hlength
    exact Nat.le_trans (Nat.le_add_right _ _) hlength
  rw [hbatch, textBytes, hcosts, bracketed, hcommas]
  omega

/-! The bytes of a frame. -/

theorem key_bytes :
    utf8ByteLength (quote (js "t")) = 3 ∧ utf8ByteLength (quote (js "mid")) = 5 ∧
    utf8ByteLength (quote (js "req")) = 5 ∧ utf8ByteLength (quote (js "topic")) = 7 ∧
    utf8ByteLength (quote (js "writer")) = 8 ∧ utf8ByteLength (quote (js "fromSeq")) = 9 ∧
    utf8ByteLength (quote (js "toSeq")) = 7 ∧ utf8ByteLength (quote (js "entries")) = 9 ∧
    utf8ByteLength (quote (js "done")) = 6 ∧ utf8ByteLength (quote (js "snapshotId")) = 12 ∧
    utf8ByteLength (quote (js "chunk")) = 7 ∧ utf8ByteLength (quote (js "of")) = 4 ∧
    utf8ByteLength (quote (js "data")) = 6 ∧ utf8ByteLength (quote (js "totalHash")) = 11 ∧
    utf8ByteLength (quote (js "subId")) = 7 ∧ utf8ByteLength (quote (js "cursor")) = 8 ∧
    utf8ByteLength (quote (js "reset")) = 7 ∧ utf8ByteLength (quote (js "changes")) = 9 := by
  decide +kernel

theorem type_bytes : (∀ body : DataBody, utf8ByteLength (quote (js body.t)) ≤ 10) ∧
    utf8ByteLength (quote (js "DELTA")) = 7 := by
  have hall : utf8ByteLength (quote (js "ENTRIES")) = 9 ∧
      utf8ByteLength (quote (js "SNAPSHOT")) = 10 ∧ utf8ByteLength (quote (js "SNAP")) = 6 ∧
      utf8ByteLength (quote (js "DELTA")) = 7 := by decide +kernel
  refine ⟨?_, hall.2.2.2⟩
  intro body
  cases body with
  | entries => exact hall.1.le.trans (by decide)
  | snapshot => exact hall.2.1.le
  | snap => exact hall.2.2.1.le.trans (by decide)
  | delta => exact hall.2.2.2.le.trans (by decide)

section
variable (num : NumberText) {env : SubEnv}

theorem frame_bytes (body : DataBody) (mid : Nat) :
    textBytes num (body.json mid) =
      13 + utf8ByteLength (quote (js body.t)) + textBytes num (.num mid) +
        ((memberBytes num body.members).map (· + 1)).sum := by
  obtain ⟨ht, hmid, -⟩ := key_bytes
  have hobj : ∀ members, textBytes num (.obj members) = bracketed (memberBytes num members) :=
    fun members => by rw [textBytes]
  have hcons : ∀ key x members, memberBytes num ((key, x) :: members) =
      (utf8ByteLength (quote key) + 1 + textBytes num x) :: memberBytes num members :=
    fun key x members => by rw [memberBytes]
  have htype : textBytes num (.str (js body.t)) = utf8ByteLength (quote (js body.t)) := by
    rw [textBytes]
  rw [DataBody.json, hobj, hcons, hcons, bracketed, List.map_cons, List.map_cons, List.sum_cons,
    List.sum_cons, ht, hmid, htype]
  omega

theorem bytes_chunk (hconstants : env.env.constants = {}) (body : List UInt8) (chunk : Nat) :
    textBytes num (.str (b64encode (snapChunk (Serving.rawChunkBudget env) body chunk))) ≤
      131074 := by
  have hbudget : Serving.rawChunkBudget env = 98304 := by
    rw [Serving.rawChunkBudget, hconstants]
    rfl
  have hlength : (snapChunk (Serving.rawChunkBudget env) body chunk).length ≤ 98304 := by
    rw [snapChunk, hbudget]
    exact List.length_take_le _ _
  rw [textBytes, bytes_quote_plain (plain_b64encode _), length_b64encode]
  omega

theorem safe_snapCount (hconstants : env.env.constants = {}) {body : List UInt8}
    (hbody : SafeNat body.length) : SafeNat (snapCount (Serving.rawChunkBudget env) body) := by
  have hbudget : Serving.rawChunkBudget env = 98304 := by
    rw [Serving.rawChunkBudget, hconstants]
    rfl
  have hmax : (1 : Nat) ≤ MAX_SAFE_INTEGER := by decide
  rw [SafeNat] at hbody ⊢
  rw [snapCount, hbudget]
  omega

/-- Under the default constants, every frame that a builder forms fits. -/
theorem DataBody.Formed.bytes_le {body : DataBody} (h : body.Formed num env)
    (hconstants : env.env.constants = {}) (hstringify : env.stringify = jsonText num)
    (hjcs : env.env.jcs = canonicalText num) (hmid : SafeNat mid) :
    utf8ByteLength (jsonText num (body.json mid)) ≤ 262144 := by
  have hmidBytes := bytes_safeNat num hmid
  have htype := type_bytes.1 body
  rw [(jsonText_bytes num _).2, frame_bytes]
  obtain ⟨-, -, hreq, htopic, hwriter, hfromSeq, htoSeq, hentries, hdone, hsnapshotId, hchunk, hof,
    hdata, htotalHash, hsubId, hcursor, hreset, hchanges⟩ := key_bytes
  cases h with
  | @entries req topic writer fromSeq toSeq rows last hreqs htopics hwriters hfrom hto hlength
      hvalid =>
    have hcost : ∀ e ∈ rows, entryCost num e ≤ 65536 := by
      intro e he
      have hle := entryCost_le num hjcs (hvalid e he)
      rwa [hconstants] at hle
    have hbatch := batch_bytes num (env.env.constants.MAX_FRAME_BYTES / 2) hcost
      (by rw [hconstants]; decide) hlength
    have htopicBytes := bytes_topic num htopics
    have hwriterBytes := bytes_writer num hwriters
    have hfromBytes := bytes_safeNat num hfrom
    have htoBytes := bytes_safeNat num hto
    have hlastBytes : textBytes num (.bool last) ≤ 5 := by
      cases last <;> exact Nat.le_of_ble_eq_true rfl
    have hreqBytes : ∀ r ∈ req, textBytes num (.num r) ≤ 17 :=
      fun r hr => bytes_safeInt num (hreqs r hr)
    have hmax : env.env.constants.MAX_FRAME_BYTES = 262144 := by rw [hconstants]
    cases req with
    | none =>
      simp only [DataBody.members, memberBytes_eq, Option.map_none, Option.toList, List.nil_append,
        List.map_cons, List.map_nil, List.sum_cons, List.sum_nil]
      omega
    | some r =>
      have := hreqBytes r rfl
      simp only [DataBody.members, memberBytes_eq, Option.map_some, Option.toList, List.cons_append,
        List.nil_append, List.map_cons, List.map_nil, List.sum_cons, List.sum_nil]
      omega
  | @snapshot topic snapshotId totalHash chunk body htopics hid htotal hbody hle =>
    have htopicBytes := bytes_topic num htopics
    have hidBytes := bytes_chain num hid
    have htotalBytes := bytes_chain num htotal
    have hcount := safe_snapCount hconstants hbody
    have hcountBytes := bytes_safeNat num hcount
    have hchunkBytes := bytes_safeNat num (Nat.le_trans hle hcount : SafeNat chunk)
    have hdataBytes := bytes_chunk num hconstants body chunk
    simp only [DataBody.members, memberBytes_eq, List.map_cons, List.map_nil, List.sum_cons,
      List.sum_nil]
    omega
  | @snap subId d chunk body draws hsub hbody hle hseq =>
    have hsubBytes := bytes_safeInt num hsub
    have hcount := safe_snapCount hconstants hbody
    have hcountBytes := bytes_safeNat num hcount
    have hchunkBytes := bytes_safeNat num (Nat.le_trans hle hcount : SafeNat chunk)
    have hdataBytes := bytes_chunk num hconstants body chunk
    obtain ⟨hcursorBytes, hcursorLength⟩ := bytes_cursor num hstringify hseq draws
    have hresetBytes : textBytes num (.bool true) = 4 := rfl
    simp only [DataBody.members, memberBytes_eq, List.map_cons, List.map_nil, List.sum_cons,
      List.sum_nil]
    omega
  | @delta subId d seq changes draws hsub hseq hfits =>
    have hsubBytes := bytes_safeInt num hsub
    obtain ⟨hcursorBytes, hcursorLength⟩ := bytes_cursor num hstringify hseq draws
    have hdelta : utf8ByteLength (quote (js (DataBody.delta subId changes
        (encodeCursor env ⟨mintEpoch draws, d⟩)).t)) = 7 := type_bytes.2
    rw [Serving.deltaFrameBytes, hconstants, hstringify, (jsonText_bytes num _).2] at hfits
    have hestimate : ¬ 262144 < textBytes num (SubHub.changesJson changes) +
        utf8ByteLength (encodeCursor env ⟨mintEpoch draws, d⟩) + 96 := hfits
    simp only [DataBody.members, memberBytes_eq, List.map_cons, List.map_nil, List.sum_cons,
      List.sum_nil]
    omega

end

/-! What the builders give. -/

def MsgEntries.body (m : MsgEntries) : DataBody :=
  .entries (m.req.map fun r => (r : Int)) m.topic m.writer m.fromSeq m.toSeq m.entries m.done

/-- The frames that a serve puts on the lane. -/
def SubEvent.body (env : SubEnv) (subId : Int) : SubEvent → Option DataBody
  | .snap chunk count data cursor =>
    some (.snap subId chunk count (b64encode data) (encodeCursor env cursor))
  | .delta changes cursor => some (.delta subId changes (encodeCursor env cursor))
  | .resume _ => none
  | .err _ => none

/-- The frames of `handleGet`, for a snapshot that is stored as `raw`. -/
def snapshotFrames (env : SubEnv) (topic : Topic) (raw : JsString) : List DataBody :=
  let bytes := utf8 raw
  let hash := env.env.sha256Hex bytes
  (List.range' 1 (snapCount (Serving.rawChunkBudget env) bytes)).map fun chunk =>
    .snapshot topic hash chunk (snapCount (Serving.rawChunkBudget env) bytes)
      (b64encode (snapChunk (Serving.rawChunkBudget env) bytes chunk)) hash

/-- The validator admits every row of a stream. -/
structure Stream.Admitted (env : Env) (S : Stream) : Prop where
  contig : SafeNat S.head.contigSeq
  rows : ∀ s e, S.rows s = some e → validateEntry env e = .ok e

theorem Stream.length_range (S : Stream) (fromSeq toSeq : Nat) :
    (S.range fromSeq toSeq).length ≤ toSeq + 1 - fromSeq := by
  have hle := List.length_filterMap_le S.rows (List.range' fromSeq (toSeq + 1 - fromSeq))
  rw [List.length_range'] at hle
  exact hle

theorem Stream.Admitted.range {S : Stream} (h : S.Admitted env) {fromSeq toSeq : Nat} :
    ∀ e ∈ S.range fromSeq toSeq, validateEntry env e = .ok e := by
  intro e he
  obtain ⟨s, -, hrow⟩ := List.mem_filterMap.1 he
  exact h.rows s e hrow

theorem safeNat_seq (h : validateEntry env e = .ok e') : SafeNat e.seq := by
  obtain ⟨_, hcheck, -⟩ := Except.bind_eq_ok h
  obtain ⟨_, -, hcheck⟩ := Except.bind_eq_ok hcheck
  obtain ⟨_, -, hcheck⟩ := Except.bind_eq_ok hcheck
  obtain ⟨_, hseq, -⟩ := Except.bind_eq_ok hcheck
  have hle : e.seq ≤ MAX_SAFE_INTEGER := ensure_ok hseq
  exact hle

section
variable {num : NumberText} {env : SubEnv} {r : Responder}

/-- What a WANT may carry. -/
structure MsgWant.WellShaped (m : MsgWant) : Prop where
  req : SafeNat m.req
  topic : TOPIC_RE m.topic = true
  writer : WRITER_RE m.writer = true
  fromSeq : SafeNat m.fromSeq

theorem MsgWant.WellShaped.safeInt {m : MsgWant} (h : m.WellShaped) :
    ∀ r ∈ (some m.req).map fun r : Nat => (r : Int), SafeInt r := by
  intro r hr
  obtain rfl := Option.mem_some_iff.1 hr
  exact (Int.natAbs_natCast m.req).le.trans h.req

theorem completion_formed {m : MsgWant} (hm : m.WellShaped) (hto : SafeNat toSeq) :
    (Responder.completion m toSeq).body.Formed num env := by
  have hrows : ∀ e ∈ ([] : List LogEntry), validateEntry env.env e = .ok e :=
    fun _ he => (nomatch he)
  exact .entries hm.safeInt hm.topic hm.writer hm.fromSeq hto (Nat.zero_le _) hrows

theorem frames_formed {m : MsgWant} (hm : m.WellShaped) (hcost : r.cost = entryCost num)
    (hstream : (r.core.stream env.env (m.topic, m.writer)).Admitted env.env)
    (hto : SafeNat toSeq) (n start : Nat) :
    ∀ f ∈ r.frames env.env m (env.env.constants.MAX_FRAME_BYTES / 2) toSeq n start,
      f.body.Formed num env := by
  have hmax : ENTRIES_BATCH_MAX = 100 := rfl
  induction n generalizing start with
  | zero => exact fun f hf => by cases hf
  | succ n ih =>
    rw [Responder.frames]
    split
    · next hle =>
      dsimp only
      split
      · exact fun f hf => by cases hf
      · intro f hf
        rcases List.mem_cons.1 hf with rfl | hf
        · have hlength := (r.core.stream env.env (m.topic, m.writer)).length_range start
            (min toSeq (start + ENTRIES_BATCH_MAX - 1))
          rw [MsgEntries.body, Responder.nextBatch, hcost]
          apply DataBody.Formed.entries hm.safeInt hm.topic hm.writer (Nat.le_trans hle hto) hto
          · omega
          · exact hstream.range
        · exact ih _ f hf
    · exact fun f hf => by cases hf

/-- Every frame of an answer to a WANT. -/
theorem wantAnswer_formed {m : MsgWant} (hm : m.WellShaped) (hcost : r.cost = entryCost num)
    (hstream : (r.core.stream env.env (m.topic, m.writer)).Admitted env.env)
    (hanswer : r.wantAnswer env.env proto (env.env.constants.MAX_FRAME_BYTES / 2) m =
      .entries fs) : ∀ f ∈ fs, f.body.Formed num env := by
  have hdone : (Responder.completion m
      (r.core.stream env.env (m.topic, m.writer)).head.contigSeq).body.Formed num env :=
    completion_formed hm hstream.contig
  have hone : ∀ f ∈ [Responder.completion m
      (r.core.stream env.env (m.topic, m.writer)).head.contigSeq], f.body.Formed num env := by
    intro f hf
    obtain rfl := List.mem_singleton.1 hf
    exact hdone
  rw [Responder.wantAnswer] at hanswer
  split at hanswer
  · obtain rfl := WantAnswer.entries.inj hanswer
    exact hone
  · split at hanswer
    · split at hanswer
      · cases hanswer
      · obtain rfl := WantAnswer.entries.inj hanswer
        exact hone
    · split at hanswer
      · obtain rfl := WantAnswer.entries.inj hanswer
        exact hone
      · obtain rfl := WantAnswer.entries.inj hanswer
        exact frames_formed hm hcost hstream hstream.contig _ _

theorem pushEntries_formed {topic : Topic} {writer : WriterId} (htopic : TOPIC_RE topic = true)
    (hwriter : WRITER_RE writer = true) (hcost : r.cost = entryCost num)
    (hstream : (r.core.stream env.env (topic, writer)).Admitted env.env)
    (hpush : r.pushEntries env.env topic writer (env.env.constants.MAX_FRAME_BYTES / 2) known =
      some m) : m.body.Formed num env := by
  have hmax : ENTRIES_BATCH_MAX = 100 := rfl
  rw [Responder.pushEntries] at hpush
  dsimp only at hpush
  split at hpush
  · cases hpush
  split at hpush
  · cases hpush
  split at hpush
  · next first last hfirst hlast =>
    obtain rfl := Option.some.inj hpush
    obtain ⟨p, q, hrows, htake, -, -, -⟩ := Responder.takeBatch_eq r.cost
      (env.env.constants.MAX_FRAME_BYTES / 2)
      ((r.core.stream env.env (topic, writer)).range (known + 1)
        (min (r.core.stream env.env (topic, writer)).head.contigSeq (known + ENTRIES_BATCH_MAX)))
      [] (.inl (Nat.zero_le _))
    have hmem : first ∈ p := List.mem_of_mem_head? ((congrArg List.head? htake).symm.trans hfirst)
    have hvalid := hstream.range first (hrows ▸ List.mem_append_left q hmem)
    have hlength := (r.core.stream env.env (topic, writer)).length_range (known + 1)
      (min (r.core.stream env.env (topic, writer)).head.contigSeq (known + ENTRIES_BATCH_MAX))
    rw [MsgEntries.body, hcost]
    have hreq : ∀ r ∈ (none : Option Nat).map fun r => (r : Int), SafeInt r := by
      intro r hr
      cases hr
    apply DataBody.Formed.entries hreq htopic hwriter (safeNat_seq hvalid)
      hstream.contig
    · omega
    · exact hstream.range
  · cases hpush

theorem deliverDelta_formed {x : Serving} {g : SubGroup} {j : SubJournalEntry}
    (hsub : SafeInt subId) (hepoch : g.epoch = mintEpoch draws) (hseq : SafeNat j.seq)
    (hbytes : j.bytes = utf8ByteLength (env.stringify (SubHub.changesJson j.changes))) :
    ∃ events, (x.deliverDelta env g j).state.events = x.state.events ++ events ∧
      ∀ e ∈ events, ∀ body ∈ e.body env subId, body.Formed num env := by
  have hnone : ∃ events, x.state.events = x.state.events ++ events ∧
      ∀ e ∈ events, ∀ body ∈ e.body env subId, body.Formed num env :=
    ⟨[], (List.append_nil _).symm, fun _ he => (nomatch he)⟩
  have hresync : ∀ y : Serving, y.enterResync.state.events = y.state.events := by
    intro y
    rw [Serving.enterResync]
    split <;> rfl
  rw [Serving.deliverDelta]
  split
  · exact hnone
  dsimp only
  split
  · rw [hresync]
    exact hnone
  · next hfits =>
    split
    · next y hsend =>
      rw [Serving.sendData_ok hsend]
      refine ⟨_, rfl, ?_⟩
      intro e he body hbody
      obtain rfl := List.mem_singleton.1 he
      obtain rfl := Option.mem_some_iff.1 hbody
      obtain ⟨seq, changes, bytes⟩ := j
      rw [hepoch] at hfits ⊢
      obtain rfl : bytes = utf8ByteLength (env.stringify (SubHub.changesJson changes)) := hbytes
      exact .delta hsub ((Int.natAbs_natCast seq).le.trans hseq) hfits
    · next y hsend =>
      rw [hresync, Serving.sendData_refused hsend]
      exact hnone

/-- The chunks that one call of `pumpSnap` enqueues. -/
theorem pumpChunks_formed {x : Serving} {out : SnapOut} (hsub : SafeInt subId)
    (hcursor : out.cursor = ⟨mintEpoch draws, d⟩) (hd : SafeInt d)
    (hbody : SafeNat out.body.length)
    (hcount : out.count = snapCount (Serving.rawChunkBudget env) out.body) :
    ∃ events,
      (Serving.pumpChunks env (out.count + 1 - out.next) out x).2.state.events =
        x.state.events ++ events ∧
      ∀ e ∈ events, ∀ body ∈ e.body env subId, body.Formed num env := by
  obtain ⟨k, hk, -, hstate⟩ := @Serving.pumpChunks_events env (out.count + 1 - out.next) out x
  rw [hstate]
  refine ⟨_, rfl, ?_⟩
  intro e he body hmem
  obtain ⟨chunk, hchunk, rfl⟩ := List.mem_map.1 he
  obtain rfl := Option.mem_some_iff.1 hmem
  rw [List.mem_range'_1] at hchunk
  rw [hcount, hcursor]
  apply DataBody.Formed.snap hsub hbody _ hd
  omega

theorem snapshotFrames_formed {topic : Topic} (htopic : TOPIC_RE topic = true)
    (hsha : CHAIN_RE (env.env.sha256Hex (utf8 raw)) = true) (hraw : SafeNat (utf8 raw).length) :
    ∀ body ∈ snapshotFrames env topic raw, body.Formed num env := by
  intro body hbody
  obtain ⟨chunk, hchunk, rfl⟩ := List.mem_map.1 hbody
  rw [List.mem_range'_1] at hchunk
  apply DataBody.Formed.snapshot htopic hsha hsha hraw
  omega

/-! The lane. -/

/-- Whatever its mid, the frame is not too large. -/
def FrameFits (num : NumberText) (body : DataBody) : Prop :=
  ∀ mid, SafeNat mid → serializeMsg (dataWire num) {} ⟨mid, body⟩ = .ok ⟨mid, body⟩

theorem DataBody.Formed.frameFits {body : DataBody} (h : body.Formed num env)
    (hconstants : env.env.constants = {}) (hstringify : env.stringify = jsonText num)
    (hjcs : env.env.jcs = canonicalText num) : FrameFits num body := by
  intro mid hmid
  have hle := h.bytes_le num hconstants hstringify hjcs hmid
  rw [serializeMsg]
  exact if_neg (Nat.not_lt.2 hle)

/-- A builder of such a frame. -/
def Builds (num : NumberText) (make : Nat → Built DataBody) : Prop :=
  ∃ body : DataBody, FrameFits num body ∧ ∀ mid, make mid = .ok body

theorem pumpBuilt_fits (now n : Nat) {s : Session (Built DataBody)} (hlane : s.o.constants = {})
    (hqueue : ∀ make ∈ s.outQueue, Builds num make)
    (hmids : s.nextMid + s.outQueue.length ≤ MAX_SAFE_INTEGER + 1) :
    (s.pumpBuilt (dataWire num) now n).2 = none := by
  induction n generalizing s with
  | zero => rfl
  | succ n ih =>
    rw [Session.pumpBuilt]
    split
    · rfl
    · next make rest hcons =>
      rw [hcons, List.length_cons] at hmids
      rw [hcons] at hqueue
      obtain ⟨body, hfits, hmake⟩ := hqueue make List.mem_cons_self
      have hmid : SafeNat s.nextMid := by
        rw [SafeNat]
        omega
      have hframe : Session.frameFor (dataWire num) s.o.constants make s.nextMid =
          .ok ⟨s.nextMid, body⟩ := by
        have hbind : ∀ f : DataBody → Built (DataMsg DataBody), (.ok body >>= f) = f body :=
          fun _ => rfl
        rw [Session.frameFor, hmake, hlane, hbind]
        exact hfits _ hmid
      split
      · dsimp only
        rw [hframe]
        have hrest : s.nextMid + 1 + rest.length ≤ MAX_SAFE_INTEGER + 1 := by omega
        apply ih
        · exact hlane
        · exact fun make hmem => hqueue make (List.mem_cons_of_mem _ hmem)
        · exact hrest
      · rfl

end

/-- Under the default constants no frame of the data lane is too large: not the answers to a WANT,
not the pushes, not the deltas that `deliverDelta` admits, not the chunks of a snapshot. So
`pumpData` never throws over them. -/
theorem data_frames_fit (num : NumberText) (env : SubEnv) (hconstants : env.env.constants = {})
    (hstringify : env.stringify = jsonText num) (hjcs : env.env.jcs = canonicalText num) :
    (∀ (r : Responder) (proto : Nat) (m : MsgWant) (fs : List MsgEntries), m.WellShaped →
      r.cost = entryCost num → (r.core.stream env.env (m.topic, m.writer)).Admitted env.env →
      r.wantAnswer env.env proto (env.env.constants.MAX_FRAME_BYTES / 2) m = .entries fs →
      ∀ f ∈ fs, FrameFits num f.body) ∧
    (∀ (r : Responder) (topic : Topic) (writer : WriterId) (known : Nat) (m : MsgEntries),
      TOPIC_RE topic = true → WRITER_RE writer = true → r.cost = entryCost num →
      (r.core.stream env.env (topic, writer)).Admitted env.env →
      r.pushEntries env.env topic writer (env.env.constants.MAX_FRAME_BYTES / 2) known = some m →
      FrameFits num m.body) ∧
    (∀ (x : Serving) (g : SubGroup) (j : SubJournalEntry) (subId : Int)
      (draws : UInt16 × UInt16 × UInt16 × UInt16), SafeInt subId → g.epoch = mintEpoch draws →
      SafeNat j.seq → j.bytes = utf8ByteLength (env.stringify (SubHub.changesJson j.changes)) →
      ∃ events, (x.deliverDelta env g j).state.events = x.state.events ++ events ∧
        ∀ e ∈ events, ∀ body ∈ e.body env subId, FrameFits num body) ∧
    (∀ (x : Serving) (out : SnapOut) (subId d : Int) (draws : UInt16 × UInt16 × UInt16 × UInt16),
      SafeInt subId → out.cursor = ⟨mintEpoch draws, d⟩ → SafeInt d →
      SafeNat out.body.length →
      out.count = snapCount (Serving.rawChunkBudget env) out.body →
      ∃ events,
        (Serving.pumpChunks env (out.count + 1 - out.next) out x).2.state.events =
          x.state.events ++ events ∧
        ∀ e ∈ events, ∀ body ∈ e.body env subId, FrameFits num body) ∧
    (∀ (topic : Topic) (raw : JsString), TOPIC_RE topic = true →
      CHAIN_RE (env.env.sha256Hex (utf8 raw)) = true → SafeNat (utf8 raw).length →
      ∀ body ∈ snapshotFrames env topic raw, FrameFits num body) ∧
    ∀ (s : Session (Built DataBody)) (now n : Nat), s.o.constants = {} →
      (∀ make ∈ s.outQueue, Builds num make) →
      s.nextMid + s.outQueue.length ≤ MAX_SAFE_INTEGER + 1 →
      (s.pumpBuilt (dataWire num) now n).2 = none := by
  have hfits : ∀ body : DataBody, body.Formed num env → FrameFits num body :=
    fun body h => h.frameFits hconstants hstringify hjcs
  have hevents : ∀ {before after : List SubEvent} {subId : Int},
      (∃ events, after = before ++ events ∧
        ∀ e ∈ events, ∀ body ∈ e.body env subId, body.Formed num env) →
      ∃ events, after = before ++ events ∧ ∀ e ∈ events, ∀ body ∈ e.body env subId,
        FrameFits num body := by
    intro before after subId ⟨events, hadded, hformed⟩
    exact ⟨events, hadded, fun e he body hbody => hfits body (hformed e he body hbody)⟩
  refine ⟨?_, ?_, ?_, ?_, ?_, ?_⟩
  · intro r proto m fs hm hcost hstream hanswer f hf
    exact hfits f.body (wantAnswer_formed hm hcost hstream hanswer f hf)
  · intro r topic writer known m htopic hwriter hcost hstream hpush
    exact hfits m.body (pushEntries_formed htopic hwriter hcost hstream hpush)
  · intro x g j subId draws hsub hepoch hseq hbytes
    exact hevents (deliverDelta_formed hsub hepoch hseq hbytes)
  · intro x out subId d draws hsub hcursor hd hbody hcount
    exact hevents (pumpChunks_formed hsub hcursor hd hbody hcount)
  · intro topic raw htopic hsha hraw body hbody
    exact hfits body (snapshotFrames_formed htopic hsha hraw body hbody)
  · intro s now n hlane hqueue hmids
    exact pumpBuilt_fits now n hlane hqueue hmids

def decimalText : NumberText where
  text x := js (toString x.num)
  ascii x := ascii_js (ascii_toString x.num)
  integer _ _ := rfl

def hostFrames : SubEnv where
  env := { hostEnv "a" with jcs := canonicalText decimalText }
  stringify := jsonText decimalText
  SUB_DELTA_RETAIN := 256
  registers := false

def emptyResponder : Responder := ⟨Core.init, false, entryCost decimalText⟩

/-- A WANT that an empty node completes, and a delta of an empty publish. -/
theorem data_frames_fit_host :
    (∃ fs, emptyResponder.wantAnswer hostFrames.env 3
        (hostFrames.env.constants.MAX_FRAME_BYTES / 2) ⟨1, "t", "w", 1⟩ = .entries fs ∧
      fs.length = 1 ∧ ∀ f ∈ fs, FrameFits decimalText f.body) ∧
    (∃ events,
      ((Serving.mk ⟨false, none, []⟩ [true]).deliverDelta hostFrames
        ⟨("v", []), none, none, mintEpoch (1, 2, 3, 4), 1, [], none⟩
        (SubHub.publishTo hostFrames
          ⟨("v", []), none, none, mintEpoch (1, 2, 3, 4), 0, [], none⟩ ⟨[], []⟩).2).state.events =
        [] ++ events ∧
      ∀ e ∈ events, ∀ body ∈ e.body hostFrames 1, FrameFits decimalText body) := by
  have h := data_frames_fit decimalText hostFrames rfl rfl rfl
  have hsafe : SafeNat 0 ∧ SafeNat 1 := ⟨Nat.zero_le _, Nat.le_of_ble_eq_true rfl⟩
  have hempty : ((Core.init).stream hostFrames.env ("t", "w")).Admitted hostFrames.env := by
    refine ⟨hsafe.1, ?_⟩
    intro s e he
    cases he
  refine ⟨⟨_, rfl, rfl, ?_⟩, ?_⟩
  · exact h.1 emptyResponder 3 ⟨1, "t", "w", 1⟩ _ ⟨hsafe.2, by decide, by decide, hsafe.2⟩ rfl
      hempty rfl
  · exact h.2.2.1 _ _ _ 1 (1, 2, 3, 4) hsafe.2 rfl hsafe.2 rfl

end Seqscribe
