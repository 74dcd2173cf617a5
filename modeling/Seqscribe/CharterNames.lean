import Seqscribe.FlushAbort
import Seqscribe.HavePages

namespace Seqscribe
set_option autoImplicit true

/-! HAVE vectors as plain objects: what an index finds that is no member of theirs. -/

/-- The names that every plain object inherits. -/
def OBJECT_PROTOTYPE : List String :=
  ["constructor", "__defineGetter__", "__defineSetter__", "hasOwnProperty", "__lookupGetter__",
    "__lookupSetter__", "isPrototypeOf", "propertyIsEnumerable", "toString", "valueOf",
    "__proto__", "toLocaleString"]

/-- The `fgen` that an inherited object has got; every object of the process shares it. -/
abbrev SharedObjects := String → Option Nat

inductive JsError where
  | typeError
  | thrown (e : SeqscribeError)

abbrev JsM := EStateM JsError SharedObjects

/-- What `vec[topic] ??= { writers: {} }` evaluates to. -/
inductive TopicRef where
  | own (v : TopicVec)
  | inherited

def orCreate (vec : HaveVectors) (topic : Topic) : TopicRef :=
  match vec.get topic with
  | some v => .own v
  | none => if topic ∈ OBJECT_PROTOTYPE then .inherited else .own ⟨topic, none, .empty⟩

def setSharedFgen (topic : Topic) (fgen : Option Nat) : JsM Unit :=
  match fgen with
  | none => return
  | some fgen => modify fun shared => Function.update shared topic (some fgen)

/-- An inherited object has no `writers`. -/
def patchHeadJs (vec : HaveVectors) (w : WriterRow) (floor : Int) : JsM HaveVectors :=
  match orCreate vec w.topic with
  | .own v => return vec.upsert (applyHeadToVec v w floor)
  | .inherited => throw .typeError

def showTopicJs (env : Env) (certs : Topic → Option FinalityCert) (out : HaveVectors)
    (topic : Topic) : JsM HaveVectors :=
  match env.topics topic with
  | none => throw (.thrown ⟨.ERR_UNKNOWN_TOPIC, topic⟩)
  | some policy =>
    if policy.replication ≠ .fullSync then return out
    else
      match orCreate out topic with
      | .own v =>
        match certs topic with
        | some cert => return out.upsert { v with fgen := some cert.generation }
        | none => return out.upsert v
      | .inherited => do
        setSharedFgen topic ((certs topic).map FinalityCert.generation)
        return out

def vectorsJs (env : Env) (db : Db) (defined : List Topic) (now : Nat) : JsM HaveVectors := do
  let floor : Int := now - env.constants.TOMBSTONE_RETAIN_MS
  let heads ← db.sqWriters.rows.foldlM (fun out w => patchHeadJs out w floor) .empty
  defined.foldlM (showTopicJs env db.sqFinality.get) heads

/-- A part of a topic is put into a page or a merge; `touches` when its writers are. -/
def assignTopicJs (vec : HaveVectors) (topic : Topic) (fgen : Option Nat)
    (writers : List (WriterId × WriterVec)) (touches : Bool) : JsM HaveVectors :=
  match orCreate vec topic with
  | .own _ => return assignTopic vec topic fgen writers
  | .inherited => do
    setSharedFgen topic fgen
    if touches then throw .typeError else return vec

namespace Pagination

def addWriterJs (budget : Nat) (v : TopicVec) (p : Pagination) (w : WriterId × WriterVec) :
    JsM Pagination := do
  let cost := haveCost v.topic w
  let p := if p.bytes + cost > budget ∧ p.current.rows.length > 0 then p.turn else p
  let current ← assignTopicJs p.current v.topic v.fgen [w] true
  return { p with current := current, bytes := p.bytes + cost }

def addTopicJs (budget : Nat) (p : Pagination) (v : TopicVec) : JsM Pagination := do
  let p ← v.writers.rows.foldlM (addWriterJs budget v) p
  if v.writers.rows.length = 0 then
    let current ← assignTopicJs p.current v.topic v.fgen [] false
    return { p with current := current }
  else return p

end Pagination

def paginateHaveJs (constants : Constants) (req : Int) (vectors : HaveVectors) :
    JsM (List MsgHave) := do
  let p ← vectors.rows.foldlM (Pagination.addTopicJs (constants.MAX_FRAME_BYTES / 2)) .init
  return p.all.mapIdx fun i q => ⟨req, i + 1, p.all.length, q⟩

/-- The merge of the pages of a round. -/
def mergePagesJs (ms : List MsgHave) : JsM HaveVectors :=
  ms.foldlM (fun merged m => m.vectors.rows.foldlM (fun merged v =>
    assignTopicJs merged v.topic v.fgen v.writers.rows true) merged) .empty

/-! The charter leaves one inherited name to topics. -/

/-- A name that the charter admits for a topic. -/
def TopicName (topic : Topic) : Prop := assertTopic topic = .ok ()

theorem topicName_of (h : TOPIC_RE topic = true) (hne : topic ≠ RESERVED_NAME) : TopicName topic :=
  if_pos ⟨h, hne⟩

theorem eq_constructor_of_topicName (h : TopicName topic) (hin : topic ∈ OBJECT_PROTOTYPE) :
    topic = "constructor" := by
  have hok := ensure_ok h
  simp only [OBJECT_PROTOTYPE, List.mem_cons, List.not_mem_nil, or_false] at hin
  rcases hin with rfl | rfl | rfl | rfl | rfl | rfl | rfl | rfl | rfl | rfl | rfl | rfl
  · rfl
  all_goals exact absurd hok (by decide)

theorem orCreate_own (vec : HaveVectors) (h : topic ∉ OBJECT_PROTOTYPE) :
    orCreate vec topic = .own (topicVecOf vec topic) := by
  rw [orCreate, topicVecOf]
  cases vec.get topic with
  | some v => rfl
  | none => exact if_neg h

theorem orCreate_constructor {vec : HaveVectors} (h : vec.get "constructor" = none) :
    orCreate vec "constructor" = .inherited := by
  rw [orCreate, h]
  rfl

/-- A loop whose steps all return leaves the shared objects alone. -/
theorem foldlM_eq_ok {f : β → α → JsM β} {g : β → α → β} {xs : List α} {shared : SharedObjects}
    (h : ∀ b, ∀ x ∈ xs, f b x shared = .ok (g b x) shared) (b : β) :
    xs.foldlM f b shared = .ok (xs.foldl g b) shared := by
  induction xs generalizing b with
  | nil => rfl
  | cons x xs ih =>
    rw [List.foldlM_cons, List.foldl_cons]
    change EStateM.bind (f b x) _ shared = _
    rw [EStateM.bind, h b x List.mem_cons_self]
    exact ih (fun b x hx => h b x (List.mem_cons_of_mem _ hx)) (g b x)

/-! Names that are no inherited ones. -/

section

variable {env : Env} {db : Db} {defined : List Topic} {shared : SharedObjects}

theorem patchHeadJs_own (vec : HaveVectors) (floor : Int) (h : w.topic ∉ OBJECT_PROTOTYPE) :
    patchHeadJs vec w floor shared =
      .ok (vec.upsert (applyHeadToVec (topicVecOf vec w.topic) w floor)) shared := by
  rw [patchHeadJs, orCreate_own vec h]
  rfl

theorem assignTopicJs_own (vec : HaveVectors) (fgen : Option Nat)
    (writers : List (WriterId × WriterVec)) (touches : Bool) (h : topic ∉ OBJECT_PROTOTYPE) :
    assignTopicJs vec topic fgen writers touches shared =
      .ok (assignTopic vec topic fgen writers) shared := by
  rw [assignTopicJs, orCreate_own vec h]
  rfl

/-- A defined topic in the HAVE vectors, when the topic is known. -/
def shownTopic (env : Env) (certs : Topic → Option FinalityCert) (out : HaveVectors)
    (topic : Topic) : HaveVectors :=
  if (env.topics topic).map TopicPolicy.replication = some .fullSync then
    match certs topic with
    | some cert => out.upsert { topicVecOf out topic with fgen := some cert.generation }
    | none => out.upsert (topicVecOf out topic)
  else out

theorem showTopic_known (certs : Topic → Option FinalityCert) (out : HaveVectors)
    (h : (env.topics topic).isSome) :
    showTopic env certs out topic = .ok (shownTopic env certs out topic) := by
  obtain ⟨policy, hp⟩ := Option.isSome_iff_exists.1 h
  rw [showTopic, shownTopic, hp, Option.map_some]
  dsimp only
  by_cases hfull : policy.replication = .fullSync
  · rw [if_neg (not_not.2 hfull), if_pos (congrArg some hfull)]
    cases certs topic with
    | some cert => rfl
    | none => rfl
  · rw [if_pos hfull, if_neg fun heq => hfull (Option.some.inj heq)]

theorem showTopicJs_own (certs : Topic → Option FinalityCert) (out : HaveVectors)
    (hknown : (env.topics topic).isSome)
    (h : (env.topics topic).map TopicPolicy.replication = some .fullSync →
      topic ∉ OBJECT_PROTOTYPE) :
    showTopicJs env certs out topic shared = .ok (shownTopic env certs out topic) shared := by
  obtain ⟨policy, hp⟩ := Option.isSome_iff_exists.1 hknown
  rw [hp, Option.map_some] at h
  rw [showTopicJs, shownTopic, hp, Option.map_some]
  dsimp only
  by_cases hfull : policy.replication = .fullSync
  · rw [if_neg (not_not.2 hfull), if_pos (congrArg some hfull),
      orCreate_own out (h (congrArg some hfull))]
    cases certs topic with
    | some cert => rfl
    | none => rfl
  · rw [if_pos hfull, if_neg fun heq => hfull (Option.some.inj heq)]
    rfl

/-- The topics that the HAVE vectors of a store are about. -/
def InPlay (env : Env) (db : Db) (defined : List Topic) (topic : Topic) : Prop :=
  (∃ w ∈ db.sqWriters.rows, w.topic = topic) ∨
    topic ∈ defined ∧ (env.topics topic).map TopicPolicy.replication = some .fullSync

/-- The heads of a store in HAVE vectors. -/
def headVectors (env : Env) (db : Db) (now : Nat) : HaveVectors :=
  db.sqWriters.rows.foldl (fun out w => out.upsert
    (applyHeadToVec (topicVecOf out w.topic) w (now - env.constants.TOMBSTONE_RETAIN_MS))) .empty

def shownVectors (env : Env) (db : Db) (defined : List Topic) (now : Nat) : HaveVectors :=
  defined.foldl (shownTopic env db.sqFinality.get) (headVectors env db now)

theorem haveVectorsOf_known (hdefined : ∀ topic ∈ defined, (env.topics topic).isSome) (now : Nat) :
    haveVectorsOf env db defined now = .ok (shownVectors env db defined now) := by
  have hfold : ∀ out, defined.foldlM (showTopic env db.sqFinality.get) out =
      .ok (defined.foldl (shownTopic env db.sqFinality.get) out) := by
    induction defined with
    | nil => exact fun _ => rfl
    | cons topic defined ih =>
      intro out
      rw [List.foldlM_cons, showTopic_known _ _ (hdefined topic List.mem_cons_self)]
      exact ih (fun topic htopic => hdefined topic (List.mem_cons_of_mem _ htopic)) _
  exact hfold _

theorem vectorsJs_own (hdefined : ∀ topic ∈ defined, (env.topics topic).isSome)
    (h : ∀ topic, InPlay env db defined topic → topic ∉ OBJECT_PROTOTYPE) (now : Nat) :
    vectorsJs env db defined now shared = .ok (shownVectors env db defined now) shared := by
  have hheads : db.sqWriters.rows.foldlM
      (fun out w => patchHeadJs out w (now - env.constants.TOMBSTONE_RETAIN_MS)) .empty shared =
        .ok (headVectors env db now) shared :=
    foldlM_eq_ok (fun out w hw => patchHeadJs_own out _ (h w.topic (.inl ⟨w, hw, rfl⟩))) _
  rw [vectorsJs]
  change EStateM.bind _ _ shared = _
  rw [EStateM.bind, hheads]
  exact foldlM_eq_ok (fun out topic htopic => showTopicJs_own _ out (hdefined topic htopic)
    fun hfull => h topic (.inr ⟨htopic, hfull⟩)) _

theorem get_shownTopic (certs : Topic → Option FinalityCert) (out : HaveVectors)
    (topic T : Topic) : ((shownTopic env certs out topic).get T).isSome ↔ (out.get T).isSome ∨
      topic = T ∧ (env.topics topic).map TopicPolicy.replication = some .fullSync := by
  have hupsert : ∀ v : TopicVec, v.topic = topic →
      (((out.upsert v).get T).isSome ↔ (out.get T).isSome ∨ topic = T) := by
    intro v hv
    rw [Table.get_upsert, hv]
    by_cases heq : topic = T
    · simp [heq]
    · simp [heq]
  rw [shownTopic]
  split
  · next hfull =>
    rw [and_iff_left hfull]
    split
    · exact hupsert _ (topicVecOf_topic out topic)
    · exact hupsert _ (topicVecOf_topic out topic)
  · next hfull => rw [or_iff_left fun hnot => hfull hnot.2]

/-- They have just the topics in play. -/
theorem get_shownVectors (now : Nat) (T : Topic) :
    ((shownVectors env db defined now).get T).isSome ↔ InPlay env db defined T := by
  have hheads : ∀ (rows : List WriterRow) (out : HaveVectors) (floor : Int),
      ((rows.foldl (fun out w => out.upsert (applyHeadToVec (topicVecOf out w.topic) w floor))
        out).get T).isSome ↔ (out.get T).isSome ∨ ∃ w ∈ rows, w.topic = T := by
    intro rows
    induction rows with
    | nil => simp
    | cons w rows ih =>
      intro out floor
      rw [List.foldl_cons, ih, Table.get_upsert, applyHeadToVec_topic, topicVecOf_topic]
      by_cases heq : w.topic = T
      · simp [heq]
      · simp [heq]
  have hdefined : ∀ (topics : List Topic) (out : HaveVectors),
      ((topics.foldl (shownTopic env db.sqFinality.get) out).get T).isSome ↔ (out.get T).isSome ∨
        T ∈ topics ∧ (env.topics T).map TopicPolicy.replication = some .fullSync := by
    intro topics
    induction topics with
    | nil => simp
    | cons topic topics ih =>
      intro out
      rw [List.foldl_cons, ih, get_shownTopic, List.mem_cons]
      constructor
      · rintro ((hout | ⟨rfl, hfull⟩) | ⟨hin, hfull⟩)
        · exact .inl hout
        · exact .inr ⟨.inl rfl, hfull⟩
        · exact .inr ⟨.inr hin, hfull⟩
      · rintro (hout | ⟨rfl | hin, hfull⟩)
        · exact .inl (.inl hout)
        · exact .inl (.inr ⟨rfl, hfull⟩)
        · exact .inr ⟨hin, hfull⟩
  rw [shownVectors, hdefined, headVectors, hheads, InPlay]
  exact or_congr_left (or_iff_right fun hempty => Bool.false_ne_true hempty)

theorem shows_shownVectors (now : Nat) :
    Shows (shownVectors env db defined now) db.sqWriters.get := by
  have hheads : Shows (headVectors env db now) db.sqWriters.get := by
    have hfold := Shows.empty.foldl db.sqWriters.rows (now - env.constants.TOMBSTONE_RETAIN_MS)
    rw [foldl_heads_eq_get] at hfold
    exact hfold
  rw [shownVectors]
  generalize headVectors env db now = out at hheads ⊢
  induction defined generalizing out with
  | nil => exact hheads
  | cons topic defined ih =>
    apply ih
    rw [shownTopic]
    split
    · split
      · exact hheads.fgen topic _
      · exact hheads.fgen topic (topicVecOf out topic).fgen
    · exact hheads

namespace Pagination

theorem addWriterJs_own (budget : Nat) (p : Pagination) (w : WriterId × WriterVec)
    (h : v.topic ∉ OBJECT_PROTOTYPE) :
    addWriterJs budget v p w shared = .ok (addWriter budget v p w) shared := by
  rw [addWriterJs]
  change EStateM.bind (assignTopicJs _ _ _ _ _) _ shared = _
  rw [EStateM.bind, assignTopicJs_own _ _ _ _ h]
  rfl

theorem addTopicJs_own (budget : Nat) (p : Pagination) (h : v.topic ∉ OBJECT_PROTOTYPE) :
    addTopicJs budget p v shared = .ok (addTopic budget p v) shared := by
  have hwriters : v.writers.rows.foldlM (addWriterJs budget v) p shared =
      .ok (v.writers.rows.foldl (addWriter budget v) p) shared :=
    foldlM_eq_ok (fun p w _ => addWriterJs_own budget p w h) p
  rw [addTopicJs, addTopic]
  change EStateM.bind _ _ shared = _
  rw [EStateM.bind, hwriters]
  dsimp only
  split
  · change EStateM.bind (assignTopicJs _ _ _ _ _) _ shared = _
    rw [EStateM.bind, assignTopicJs_own _ _ _ _ h]
    rfl
  · rfl

end Pagination

theorem paginateHaveJs_own (constants : Constants) (req : Int) {V : HaveVectors}
    (h : ∀ v ∈ V.rows, v.topic ∉ OBJECT_PROTOTYPE) :
    paginateHaveJs constants req V shared = .ok (paginateHave constants req V) shared := by
  have htopics : V.rows.foldlM (Pagination.addTopicJs (constants.MAX_FRAME_BYTES / 2)) .init shared =
      .ok (V.rows.foldl (Pagination.addTopic (constants.MAX_FRAME_BYTES / 2)) .init) shared :=
    foldlM_eq_ok (fun p v hv => Pagination.addTopicJs_own _ p (h v hv)) _
  rw [paginateHaveJs]
  change EStateM.bind _ _ shared = _
  rw [EStateM.bind, htopics]
  rfl

theorem mergePagesJs_own {ms : List MsgHave}
    (h : ∀ m ∈ ms, ∀ v ∈ m.vectors.rows, v.topic ∉ OBJECT_PROTOTYPE) :
    mergePagesJs ms shared = .ok (ms.foldl HaveRound.mergePage .empty) shared :=
  foldlM_eq_ok (fun merged m hm => foldlM_eq_ok (fun merged v hv =>
    assignTopicJs_own merged v.fgen v.writers.rows true (h m hm v hv)) merged) _

/-- No object gets a member for an inherited name. -/
theorem vectorsJs_constructor (now : Nat) (hrun : vectorsJs env db defined now shared = .ok V s) :
    V.get "constructor" = none := by
  have hskip : ∀ {vec : HaveVectors} {v : TopicVec}, vec.get "constructor" = none →
      v.topic ≠ "constructor" → (vec.upsert v).get "constructor" = none := by
    intro vec v hvec hne
    rw [Table.get_upsert, if_neg hne]
    exact hvec
  have htopic : ∀ {vec : HaveVectors} {topic : Topic} {v : TopicVec},
      vec.get "constructor" = none → orCreate vec topic = .own v →
        v.topic = topic ∧ topic ≠ "constructor" := by
    intro vec topic v hvec hown
    constructor
    · rw [orCreate] at hown
      split at hown
      · next hget =>
        cases hown
        exact Table.key_of_get hget
      · split at hown
        · cases hown
        · cases hown
          rfl
    · rintro rfl
      rw [orCreate_constructor hvec] at hown
      cases hown
  have hspec : Runs (vectorsJs env db defined now) shared
      (fun V _ => V.get "constructor" = none) fun _ _ => True := by
    refine .bind ((Runs.foldlM (E := fun _ _ => True)
      (fun _ (out : HaveVectors) _ => out.get "constructor" = none) rfl ?_).mono ?_ ?_)
    · intro w rest out s' hout
      rw [patchHeadJs]
      split
      · next v hown =>
        obtain ⟨hv, hne⟩ := htopic hout hown
        refine .pure (hskip hout ?_)
        rw [applyHeadToVec_topic, hv]
        exact hne
      · exact .throw trivial
    · intro out s' hout
      refine Runs.foldlM (fun _ (out : HaveVectors) _ => out.get "constructor" = none) hout ?_
      intro topic rest out s' hout
      rw [showTopicJs]
      split
      · exact .throw trivial
      · split
        · exact .pure hout
        · split
          · next v hown =>
            obtain ⟨hv, hne⟩ := htopic hout hown
            split
            · exact .pure (hskip hout (hv ▸ hne))
            · exact .pure (hskip hout (hv ▸ hne))
          · cases (db.sqFinality.get topic).map FinalityCert.generation with
            | none => exact .bind (.pure (.pure hout))
            | some fgen => exact .bind (.modify (.pure hout))
    · exact fun _ _ h => h
  exact hspec.of_ok hrun

end

/-- Every name in the path of the HAVE vectors is an ordinary key: `vectors`, the patch that
`saveHead` makes, the pages and their merge are those of finite maps, no shared object changes, and
the peer gets the stored heads. -/
structure OrdinaryNames (env : Env) (db : Db) (defined : List Topic) (now : Nat)
    (V : HaveVectors) : Prop where
  stored : haveVectorsOf env db defined now = .ok V
  vectors : ∀ shared, vectorsJs env db defined now shared = .ok V shared
  patch : ∀ w floor shared, InPlay env db defined w.topic → patchHeadJs V w floor shared =
    .ok (V.upsert (applyHeadToVec (topicVecOf V w.topic) w floor)) shared
  paginate : ∀ req shared, paginateHaveJs env.constants req V shared =
    .ok (paginateHave env.constants req V) shared
  merge : ∀ req (ms : List MsgHave), (∀ m ∈ ms, m ∈ paginateHave env.constants req V) → ∀ shared,
    mergePagesJs ms shared = .ok (ms.foldl HaveRound.mergePage .empty) shared
  heads : ∀ req (ms : List MsgHave), (∀ m ∈ ms, m ∈ paginateHave env.constants req V) →
    (∀ m ∈ paginateHave env.constants req V, m ∈ ms) →
      haveAt (ms.foldl HaveRound.mergePage .empty) = haveAt V ∧
        Shows (ms.foldl HaveRound.mergePage .empty) db.sqWriters.get

/-- A node with one full-sync topic of that name. -/
def constructorEnv : Env :=
  { hostEnv "w" with topics := fun T => if T = "constructor" then some fullPolicy else none }

/-- It has a stream on it. -/
def constructorDb : Db :=
  { Db.empty with sqWriters := .upsert .empty (freshHead constructorEnv "constructor" "w") }

end Seqscribe
