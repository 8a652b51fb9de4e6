import Mq.Group.Protocol
import Mq.Lib.Decimal
import Mq.Lib.Quote
import Mq.Server.Dispatch
import Mq.Wire.Responses

/-!
# Responses that a client can read

The handlers of `internal/server/handlers.go` for `JoinGroup`, `CreateTopics` and
`CreatePartitions`, as far as their responses go.  A member that joins without an id gets one
that is made of the group's name and of seventeen more bytes.  A topic that cannot be created or
extended is answered with a message that quotes its name.  Both are longer than the name, which
can have as many bytes as a string of the wire protocol can.

## Main definitions

* `Answers` — the response that a join is answered with.
* `createTopicsResponse`, `createPartitionsResponse` — the responses of the handlers.
* `CreateShort`, `GrowShort` — a topic whose message can be written.
* `FromWire` — a join comes from a request that a frame can contain.

## Main results

* `fits_of_answers` — the response to a join in a group of short names fits.
* `responses_decode_iff` — **when the responses can be read.**
* `long_names_unreadable` — a response of each kind that cannot.
-/

namespace Mq
namespace Server

open Word Wire Transition Consumer

/-! ### Joining -/

/-- The response that the result of a join is sent as.  A group does not tell metadata that is
missing from metadata that is empty, the response does. -/
structure Answers (res : JoinResult) (resp : JoinGroupResponse) : Prop where
  throttleTime : resp.throttleTime = 0
  errorCode : resp.errorCode = res.errorCode.code
  generationID : resp.generationID = res.generationID
  protocolName : resp.protocolName = res.protocolName
  leader : resp.leader = res.leaderID
  memberID : resp.memberID = res.memberID
  members : resp.members.map (fun m => ⟨m.memberID, m.metadata.getD []⟩) = res.members

/-- The response of a broker that does not coordinate the group. -/
def notCoordinatorResponse : JoinGroupResponse :=
  ⟨0, ErrorCode.notCoordinator.code, 0, [], [], [], []⟩

/-- A join comes from a request for the group that can be decoded, and the random part of a new
id has sixteen digits. -/
def FromWire (groupID : Bytes) : Op → Prop
  | .join args random _ _ => random.length = 16 ∧
      ∃ version r, ((JoinGroupRequest.decode version r).1).groupID = groupID ∧
        args = joinArgs (JoinGroupRequest.decode version r).1
  | _ => True

/-- A member's name and what it supports can be written into a response. -/
def ShortMember (id : Bytes) (ps : List Protocol) : Prop :=
  id.length ≤ 32767 ∧ ∀ p ∈ ps, p.name.length ≤ 32767 ∧ p.metadata.length < 2147483648

/-! ### Creating topics and partitions -/

/-- What the texts of the errors depend on. -/
structure Texts where
  /-- The characters outside ASCII that can be printed. -/
  isPrint : ℕ → Bool
  /-- The error of a log that cannot be opened, or of the controller. -/
  createFailed : Holdings → CreateTopicsTopic → Bytes
  growFailed : Holdings → CreatePartitionsTopic → Bytes

/-- The bytes of a text. -/
def text (s : String) : Bytes := s.toUTF8.data.toList

variable (texts : Texts)

/-- `topic %q already exists` -/
def alreadyExists (name : Bytes) : Bytes :=
  text "topic " ++ Quote.quote texts.isPrint name ++ text " already exists"

/-- `topic %q does not exist` -/
def doesNotExist (name : Bytes) : Bytes :=
  text "topic " ++ Quote.quote texts.isPrint name ++ text " does not exist"

/-- `topic %q already has %d partitions` -/
def alreadyHas (name : Bytes) (cur : ℤ) : Bytes :=
  text "topic " ++ Quote.quote texts.isPrint name ++ text " already has " ++ itoa cur
    ++ text " partitions"

variable (env : Env)

/-- The error of `CreateTopic`. -/
def createTopicError (b : Holdings) (t : CreateTopicsTopic) : Option Bytes :=
  if b.knows t.name then some (alreadyExists texts t.name)
  else if (b.createTopic env.toSetting t.name t.numPartitions).2 then none
  else some (texts.createFailed b t)

/-- The recorded number of partitions of a topic. -/
def recordedPartitions (b : Holdings) (name : Bytes) : Option ℤ :=
  match b.ctrl with
  | some m => (m.topics.lookup name).map (·.partitions)
  | none => b.catalog.lookup name

/-- The error of `CreatePartitions`. -/
def createPartitionsError (b : Holdings) (t : CreatePartitionsTopic) : Option Bytes :=
  match recordedPartitions b t.name with
  | none => some (doesNotExist texts t.name)
  | some cur =>
    if t.count ≤ cur then some (alreadyHas texts t.name cur)
    else if (b.createPartitions env.toSetting t.name t.count).2 then none
    else some (texts.growFailed b t)

/-- The result for one topic of a request. -/
def topicResp {α : Type} (step : Holdings → α → Holdings) (error : Holdings → α → Option Bytes)
    (name : α → Bytes) (code : ErrorCode) (b : Holdings) (t : α) : Holdings × TopicResp :=
  (step b t, ⟨name t, if error b t = none then ErrorCode.none.code else code.code, error b t⟩)

def createTopicsResponse (b : Holdings) (req : CreateTopicsRequest) : CreateTopicsResponse :=
  ⟨0, replies (topicResp (createOne env) (createTopicError texts env) (·.name)
    .topicAlreadyExists) b req.topics⟩

def createPartitionsResponse (b : Holdings) (req : CreatePartitionsRequest) :
    CreatePartitionsResponse :=
  ⟨0, replies (topicResp (growOne env) (createPartitionsError texts env) (·.name)
    .invalidPartitions) b req.topics⟩

/-- The topic is there already and its quoted name leaves room for the words around it, or it
is created, or the error from below is short. -/
def CreateShort (b : Holdings) (t : CreateTopicsTopic) : Prop :=
  if b.knows t.name then (Quote.quote texts.isPrint t.name).length ≤ 32746
  else (b.createTopic env.toSetting t.name t.numPartitions).2 = true ∨
    (texts.createFailed b t).length ≤ 32767

/-- The topic is not there, or has as many partitions, and its quoted name leaves room for the
words around it; or it is extended, or the error from below is short. -/
def GrowShort (b : Holdings) (t : CreatePartitionsTopic) : Prop :=
  match recordedPartitions b t.name with
  | none => (Quote.quote texts.isPrint t.name).length ≤ 32746
  | some cur =>
    if t.count ≤ cur then
      (Quote.quote texts.isPrint t.name).length + (itoa cur).length ≤ 32737
    else (b.createPartitions env.toSetting t.name t.count).2 = true ∨
      (texts.growFailed b t).length ≤ 32767

variable {texts env}
variable {b : Holdings} {t : CreatePartitionsTopic} {name groupID : Bytes}

/-- There is an error exactly if the call fails. -/
theorem createTopicError_eq_none_iff {t : CreateTopicsTopic} :
    createTopicError texts env b t = none ↔
      (b.createTopic env.toSetting t.name t.numPartitions).2 = true := by
  unfold createTopicError
  split
  · next hknows => simp [Holdings.createTopic, hknows]
  · split <;> simp_all

theorem createPartitionsError_eq_none_iff :
    createPartitionsError texts env b t = none ↔
      (b.createPartitions env.toSetting t.name t.count).2 = true := by
  unfold createPartitionsError recordedPartitions
  cases hctrl : b.ctrl with
  | some m =>
    cases ht : m.topics.lookup t.name with
    | none => simp [Holdings.createPartitions, hctrl, ht]
    | some tm =>
      by_cases hle : t.count ≤ tm.partitions
      · simp [Holdings.createPartitions, hctrl, ht, hle]
      · simp [ht, hle]
  | none =>
    cases ht : b.catalog.lookup t.name with
    | none => simp [Holdings.createPartitions, hctrl, ht]
    | some cur =>
      by_cases hle : t.count ≤ cur
      · simp [Holdings.createPartitions, hctrl, ht, hle]
      · simp [hle]

/-! ### How long the messages are -/

theorem length_alreadyExists (name : Bytes) :
    (alreadyExists texts name).length = (Quote.quote texts.isPrint name).length + 21 := by
  have h₁ : (text "topic ").length = 6 := by decide +kernel
  have h₂ : (text " already exists").length = 15 := by decide +kernel
  simp only [alreadyExists, List.length_append, h₁, h₂]
  omega

theorem length_doesNotExist (name : Bytes) :
    (doesNotExist texts name).length = (Quote.quote texts.isPrint name).length + 21 := by
  have h₁ : (text "topic ").length = 6 := by decide +kernel
  have h₂ : (text " does not exist").length = 15 := by decide +kernel
  simp only [doesNotExist, List.length_append, h₁, h₂]
  omega

theorem length_alreadyHas (name : Bytes) (cur : ℤ) :
    (alreadyHas texts name cur).length
      = (Quote.quote texts.isPrint name).length + (itoa cur).length + 30 := by
  have h₁ : (text "topic ").length = 6 := by decide +kernel
  have h₂ : (text " already has ").length = 13 := by decide +kernel
  have h₃ : (text " partitions").length = 11 := by decide +kernel
  simp only [alreadyHas, List.length_append, h₁, h₂, h₃]
  omega

/-- A plain name gets two quotes. -/
theorem length_quote (h : ∀ x ∈ name, Quote.Plain x) :
    (Quote.quote texts.isPrint name).length = name.length + 2 := by
  rw [Quote.quote_plain _ h]
  simp

/-- The message of `CreateTopic`, if there is one, can be written. -/
theorem createTopicError_le_iff {t : CreateTopicsTopic} :
    (∀ s ∈ createTopicError texts env b t, s.length ≤ 32767) ↔ CreateShort texts env b t := by
  unfold createTopicError CreateShort
  split
  · simp only [Option.mem_some_iff, forall_eq', length_alreadyExists]
    omega
  · split
    · next hok => simp [hok]
    · next hfail => simp [hfail]

theorem createPartitionsError_le_iff :
    (∀ s ∈ createPartitionsError texts env b t, s.length ≤ 32767) ↔ GrowShort texts env b t := by
  unfold createPartitionsError GrowShort
  cases recordedPartitions b t.name with
  | none =>
    simp only [Option.mem_some_iff, forall_eq', length_doesNotExist]
    omega
  | some cur =>
    dsimp only
    split
    · simp only [Option.mem_some_iff, forall_eq', length_alreadyHas]
      omega
    · split
      · next hok => simp [hok]
      · next hfail => simp [hfail]

/-- **A plain name** of a topic that is there fits exactly up to 32744 bytes. -/
theorem createShort_plain_iff {t : CreateTopicsTopic} (hplain : ∀ x ∈ t.name, Quote.Plain x)
    (hknows : b.knows t.name = true) : CreateShort texts env b t ↔ t.name.length ≤ 32744 := by
  rw [CreateShort, if_pos hknows, length_quote hplain]
  omega

theorem growShort_plain_iff (hplain : ∀ x ∈ t.name, Quote.Plain x)
    (hnone : recordedPartitions b t.name = none) :
    GrowShort texts env b t ↔ t.name.length ≤ 32744 := by
  rw [GrowShort, hnone]
  dsimp only
  rw [length_quote hplain]
  omega

/-! ### What a response to topics consists of -/

theorem isInt16_code (c : ErrorCode) : IsInt16 c.code := by
  cases c <;> exact ⟨by decide, by decide⟩

section TopicResps

variable {α : Type} {step : Holdings → α → Holdings} {error : Holdings → α → Option Bytes}
  {name : α → Bytes} {code : ErrorCode} {b : Holdings} {ts : List α}

/-- The names are those of the request, and the code is that of the API or none. -/
theorem fits_of_mem_topicResps (hnames : ∀ t ∈ ts, (name t).length ≤ 32767) {x : TopicResp}
    (hx : x ∈ replies (topicResp step error name code) b ts) :
    x.name.length ≤ 32767 ∧ IsInt16 x.errorCode := by
  obtain ⟨b', t, ht, rfl⟩ := exists_of_mem_replies hx
  refine ⟨hnames t ht, ?_⟩
  unfold topicResp
  dsimp only
  split <;> exact isInt16_code _

/-- The messages of a response are those of the topics, each in the state that the ones before
have left. -/
theorem messages_iff {Short : Holdings → α → Prop}
    (hshort : ∀ b t, (∀ s ∈ error b t, s.length ≤ 32767) ↔ Short b t) :
    (∀ x ∈ replies (topicResp step error name code) b ts, ∀ s ∈ x.errorMessage,
      s.length ≤ 32767) ↔ Along step Short b ts :=
  forall_mem_replies_iff.trans (along_congr hshort)

end TopicResps

theorem isInt32_zero : IsInt32 0 := ⟨by decide, by decide⟩

/-- **A `CreateTopics` response can be read** at the first version, which has no messages, and
later if its messages have at most 32767 bytes. -/
theorem createTopics_decodes_iff {req : CreateTopicsRequest}
    (hreq : ∃ v r, (CreateTopicsRequest.decode v r).1 = req) (b : Holdings) (version : ℤ) :
    Decodes (CreateTopicsResponse.read version)
        ((createTopicsResponse texts env b req).encode version)
        ((createTopicsResponse texts env b req).carried version) ↔
      (1 ≤ version → Along (createOne env) (CreateShort texts env) b req.topics) := by
  obtain ⟨v, r, rfl⟩ := hreq
  obtain ⟨hnames, hcount⟩ := yields_createTopicsRequest v r
  have hfits : ∀ t ∈ (createTopicsResponse texts env b (CreateTopicsRequest.decode v r).1).topics,
      t.name.length ≤ 32767 ∧ IsInt16 t.errorCode := fun t ht => fits_of_mem_topicResps hnames ht
  have htopics := TopicResp.fits_carried_iff hfits (1 ≤ version)
  rw [CreateTopicsResponse.decodes_iff, ← messages_iff fun _ _ => createTopicError_le_iff]
  constructor
  · intro h hv
    exact htopics.mp h.topics (by simpa using hv)
  · intro h
    refine ⟨?_, htopics.mpr fun hv => h (by simpa using hv), ?_⟩
    · show IsInt32 (carriedSince version 2 0)
      unfold carriedSince
      split <;> exact isInt32_zero
    · rw [CreateTopicsResponse.carried, List.length_map, createTopicsResponse, length_replies]
      exact hcount

/-- **A `CreatePartitions` response can be read** if its messages have at most 32767 bytes. -/
theorem createPartitions_decodes_iff {req : CreatePartitionsRequest}
    (hreq : ∃ r, (CreatePartitionsRequest.decode r).1 = req) (b : Holdings) :
    Decodes CreatePartitionsResponse.read (createPartitionsResponse texts env b req).encode
        (createPartitionsResponse texts env b req) ↔
      Along (growOne env) (GrowShort texts env) b req.topics := by
  obtain ⟨r, rfl⟩ := hreq
  obtain ⟨hnames, hcount⟩ := yields_createPartitionsRequest r
  rw [CreatePartitionsResponse.decodes_iff, ← messages_iff fun _ _ => createPartitionsError_le_iff]
  constructor
  · intro h t ht
    exact (h.topics t ht).errorMessage
  · intro h
    refine ⟨isInt32_zero, fun t ht => ?_, ?_⟩
    · obtain ⟨hname, hcode⟩ := fits_of_mem_topicResps hnames ht
      exact ⟨hname, hcode, h t ht⟩
    · rw [createPartitionsResponse, length_replies]
      exact hcount

/-! ### What a response to a join consists of -/

/-- The chosen protocol is one of a member's, or nothing. -/
theorem chooseProtocol_of_each {P : Bytes → Prop} (hnil : P []) {g : Group}
    (h : g.Each fun _ ps => ∀ p ∈ ps, P p.name) (order : List Bytes) :
    P (g.chooseProtocol order) := by
  have hfirst : ∀ id m name, g.members.lookup id = some m → m.firstProtocol = some name →
      P name := by
    intro id m name hm hname
    obtain ⟨p, hp, rfl⟩ := Option.map_eq_some_iff.mp hname
    exact h id m hm p (List.mem_of_mem_head? hp)
  unfold Group.chooseProtocol
  split
  · next name hname =>
    obtain ⟨m, hm, hname⟩ := Option.bind_eq_some_iff.mp hname
    exact hfirst _ m name hm hname
  · generalize hfind : List.findSome? GroupMember.firstProtocol _ = o
    cases o with
    | none => exact hnil
    | some name =>
      obtain ⟨m, hm, hname⟩ := List.exists_of_findSome?_eq_some hfind
      obtain ⟨id, -, hid⟩ := List.mem_filterMap.mp hm
      exact hfirst id m name hid hname

/-- The metadata for a protocol is that of one of the member's, or nothing. -/
theorem metadataFor_of {P : Bytes → Prop} (hnil : P []) {m : GroupMember}
    (h : ∀ p ∈ m.protocols, P p.metadata) (name : Bytes) : P (m.metadataFor name) := by
  unfold GroupMember.metadataFor
  split
  · next p hp => exact h p (List.mem_of_find?_eq_some hp)
  · cases hps : m.protocols with
    | nil => exact hnil
    | cons p ps => exact h p (by simp [hps])

theorem length_members_joinResult (g : Group) (id : Bytes) (order : List Bytes) :
    (g.joinResult id order).members.length ≤ g.members.keys.length := by
  rw [Group.joinResult]
  dsimp only
  split
  · exact (List.length_filterMap_le _ _).trans (g.perm_ids order).length_eq.le
  · exact Nat.zero_le _

/-- **The response to a join in a group of short names fits.** -/
theorem fits_of_answers {g : Group} {args : JoinArgs} {random : Bytes} {now : ℤ}
    {order : List Bytes} (hok : g.Ok)
    (hshort : (g.join args random now order).1.Each ShortMember)
    (hgeneration : IsInt32 (g.join args random now order).1.generation)
    (hfew : (g.join args random now order).1.members.keys.length < 2147483648)
    {resp : JoinGroupResponse} (h : Answers (g.join args random now order).2 resp) (version : ℤ) :
    (resp.carried version).Fits := by
  have hret := returned_join g args random now order
  obtain ⟨hok', hstate, -⟩ := Group.change_join hok args random now order
  have hmember : ∀ id, (g.join args random now order).1.members.lookup id ≠ none →
      id.length ≤ 32767 := by
    intro id hid
    obtain ⟨m, hm⟩ := Option.ne_none_iff_exists'.mp hid
    exact (hshort id m hm).1
  obtain ⟨order', hname⟩ := hret.protocolName
  refine ⟨?_, ?_, ?_, ?_, ?_, ?_, ?_, ?_⟩
  · show IsInt32 (carriedSince version 2 resp.throttleTime)
    rw [h.throttleTime, carriedSince, ite_self]
    exact isInt32_zero
  · show IsInt16 resp.errorCode
    rw [h.errorCode]
    exact isInt16_code _
  · show IsInt32 resp.generationID
    rw [h.generationID, hret.generation]
    exact hgeneration
  · show resp.protocolName.length ≤ 32767
    rw [h.protocolName, hname]
    exact chooseProtocol_of_each (P := fun s => s.length ≤ 32767) (by simp)
      (fun id m hm p hp => ((hshort id m hm).2 p hp).1) order'
  · show resp.leader.length ≤ 32767
    rw [h.leader, hret.leader]
    exact hmember _ (hok'.leader (by simp [hstate]))
  · show resp.memberID.length ≤ 32767
    rw [h.memberID]
    exact hmember _ hret.member
  · intro m hm
    have hmem : (⟨m.memberID, m.metadata.getD []⟩ : Member)
        ∈ (g.join args random now order).2.members :=
      h.members ▸ List.mem_map_of_mem (f := fun m : JoinGroupMember =>
        (⟨m.memberID, m.metadata.getD []⟩ : Member)) hm
    obtain ⟨gm, hgm, hmeta⟩ := Group.exists_of_mem_joinResult hmem
    refine ⟨(hshort _ gm hgm).1, fun b hb => ?_⟩
    obtain rfl : m.metadata.getD [] = b := by rw [Option.mem_def.mp hb, Option.getD_some]
    rw [show m.metadata.getD [] = _ from hmeta]
    exact metadataFor_of (P := fun s => s.length < 2147483648) (by simp)
      (fun p hp => ((hshort _ gm hgm).2 p hp).2) _
  · show resp.members.length < 2147483648
    have hlen := congrArg List.length h.members
    rw [List.length_map] at hlen
    rw [hlen]
    exact lt_of_le_of_lt (length_members_joinResult _ _ _) hfew

/-! ### Runs -/

/-- Who joins has an id, or gets one that fits. -/
def MintsShort (groupID : Bytes) : Op → Prop
  | .join args _ _ _ => args.memberID ≠ [] ∨ groupID.length ≤ 32750
  | _ => True

/-- The members that a request brings have short names. -/
theorem brings_of_fromWire {op : Op} (hwire : FromWire groupID op) (hop : MintsShort groupID op) :
    op.Brings ShortMember := by
  cases op with
  | join args random now order =>
    obtain ⟨hrandom, version, r, rfl, rfl⟩ := hwire
    obtain ⟨hmember, hprotocols⟩ := yields_joinGroupRequest version r
    refine ⟨?_, fun p hp => ?_⟩
    · unfold Group.memberIDFor
      split
      · next hnil =>
        have hgroup := hop.resolve_left (fun h => h hnil)
        simp only [joinArgs, List.length_append, List.length_singleton]
        omega
      · exact hmember
    · obtain ⟨q, hq, rfl⟩ := List.mem_map.mp hp
      refine ⟨(hprotocols q hq).1, ?_⟩
      dsimp only
      cases hmeta : q.metadata with
      | none => simp
      | some b => exact (hprotocols q hq).2 b hmeta
  | _ => trivial

/-- The number of a generation has 32 bits. -/
theorem isInt32_generation (ops : List Op) :
    (run Room.step Room.new ops).Ok ∧ IsInt32 (run Room.step Room.new ops).group.generation := by
  have halong : Along Room.step (fun _ _ => True) Room.new ops := along_of_forall fun _ _ => trivial
  refine (halong.always (P := fun r => r.Ok ∧ IsInt32 r.group.generation)
    ⟨Room.ok_new, isInt32_zero⟩ fun r op hr _ => ?_).final
  obtain ⟨hok, hchange⟩ := Room.change_step hr.1 op
  refine ⟨hok, ?_⟩
  rcases hchange with ⟨hgen, -⟩ | ⟨hgen, -⟩ <;> rw [hgen]
  · exact wrap32_bounds _
  · exact hr.2

/-- The responses to the joins of a run, at any version, can be read. -/
def JoinsDecode (ops : List Op) : Prop :=
  ∀ early args random now order late, ops = early ++ .join args random now order :: late →
    ∀ resp, Answers ((run Room.step Room.new early).group.join args random now order).2 resp →
      ∀ version, Decodes (JoinGroupResponse.read version) (resp.encode version)
        (resp.carried version)

/-- An id that is too long is minted, and then the response cannot be read. -/
theorem mintsShort_of_joinsDecode {ops : List Op} (hwire : ∀ op ∈ ops, FromWire groupID op)
    (h : JoinsDecode ops) : ∀ op ∈ ops, MintsShort groupID op := by
  intro op hop
  cases op with
  | join args random now order =>
    obtain ⟨early, late, heq⟩ := List.append_of_mem hop
    by_cases hid : args.memberID = []
    · refine .inr ?_
      let res := ((run Room.step Room.new early).group.join args random now order).2
      let resp : JoinGroupResponse := ⟨0, res.errorCode.code, res.generationID,
        res.protocolName, res.leaderID, res.memberID,
        res.members.map fun m => ⟨m.id, some m.metadata⟩⟩
      have hanswers : Answers res resp :=
        ⟨rfl, rfl, rfl, rfl, rfl, rfl, by rw [List.map_map]; exact List.map_id _⟩
      have hfits := (JoinGroupResponse.decodes_iff resp 0).mp
        (h early args random now order late heq resp hanswers 0)
      have hlen : (Group.memberIDFor args random).length ≤ 32767 := hfits.memberID
      obtain ⟨hrandom, version, r, rfl, rfl⟩ := hwire _ hop
      rw [Group.memberIDFor, if_pos hid] at hlen
      simp only [joinArgs, List.length_append, List.length_singleton] at hlen
      omega
    · exact .inl hid
  | _ => trivial

/-- If all ids that are minted fit, the responses can be read. -/
theorem joinsDecode_of_mintsShort {ops : List Op} (hwire : ∀ op ∈ ops, FromWire groupID op)
    (hfew : Always Room.step (fun r => r.group.members.keys.length < 2147483648) Room.new ops)
    (h : ∀ op ∈ ops, MintsShort groupID op) : JoinsDecode ops := by
  intro early args random now order late heq resp hanswers version
  have hpre : early ++ [.join args random now order] <+: ops := by simp [heq]
  have hbrings : ∀ op ∈ early ++ [.join args random now order], op.Brings ShortMember :=
    fun op hop => brings_of_fromWire (hwire op (hpre.subset hop)) (h op (hpre.subset hop))
  have hrun : (run Room.step Room.new (early ++ [.join args random now order])).group
      = ((run Room.step Room.new early).group.join args random now order).1 := by
    rw [run_snoc]
    rfl
  have hgeneration := (isInt32_generation (early ++ [.join args random now order])).2
  have hshort := each_run hbrings
  have hcount := (hfew.of_prefix hpre).final
  rw [hrun] at hgeneration hshort hcount
  rw [JoinGroupResponse.decodes_iff]
  exact fits_of_answers (isInt32_generation early).1.group hshort hgeneration hcount hanswers
    version

/-- The refusal of a broker that does not coordinate the group can always be read. -/
theorem notCoordinator_decodes (version : ℤ) :
    Decodes (JoinGroupResponse.read version) (notCoordinatorResponse.encode version)
      (notCoordinatorResponse.carried version) := by
  rw [JoinGroupResponse.decodes_iff]
  have hthrottle : IsInt32 (carriedSince version 2 0) := by
    rw [carriedSince, ite_self]
    exact isInt32_zero
  refine ⟨hthrottle, isInt16_code .notCoordinator, isInt32_zero, ?_, ?_, ?_, ?_, ?_⟩ <;>
    simp [notCoordinatorResponse, JoinGroupResponse.carried]

/-- **When the responses can be read.**  The joins are those of a run of the group in which
everything comes from the wire and there are never `2 ^ 31` members, and the topics those of a
request that can be decoded, on any broker.  Of a plain name, the messages that the topic is
there already and that it is not there fit exactly up to 32744 bytes. -/
theorem responses_decode_iff (texts : Texts) (env : Env) (b : Holdings) (groupID : Bytes)
    (ops : List Op) (hwire : ∀ op ∈ ops, FromWire groupID op)
    (hfew : Always Room.step (fun r => r.group.members.keys.length < 2147483648) Room.new ops)
    (topics : CreateTopicsRequest) (htopics : ∃ v r, (CreateTopicsRequest.decode v r).1 = topics)
    (growth : CreatePartitionsRequest)
    (hgrowth : ∃ r, (CreatePartitionsRequest.decode r).1 = growth)
    (version : ℤ) :
    (JoinsDecode ops ↔ ∀ op ∈ ops, MintsShort groupID op) ∧
    Decodes (JoinGroupResponse.read version) (notCoordinatorResponse.encode version)
      (notCoordinatorResponse.carried version) ∧
    (Decodes (CreateTopicsResponse.read version)
        ((createTopicsResponse texts env b topics).encode version)
        ((createTopicsResponse texts env b topics).carried version) ↔
      (1 ≤ version → Along (createOne env) (CreateShort texts env) b topics.topics)) ∧
    (Decodes CreatePartitionsResponse.read (createPartitionsResponse texts env b growth).encode
        (createPartitionsResponse texts env b growth) ↔
      Along (growOne env) (GrowShort texts env) b growth.topics) ∧
    (∀ b t, (∀ x ∈ t.name, Quote.Plain x) → b.knows t.name = true →
      (CreateShort texts env b t ↔ t.name.length ≤ 32744)) ∧
    ∀ b t, (∀ x ∈ t.name, Quote.Plain x) → recordedPartitions b t.name = none →
      (GrowShort texts env b t ↔ t.name.length ≤ 32744) :=
  ⟨⟨mintsShort_of_joinsDecode hwire, joinsDecode_of_mintsShort hwire hfew⟩,
    notCoordinator_decodes version,
    createTopics_decodes_iff htopics b version, createPartitions_decodes_iff hgrowth b,
    fun _ _ => createShort_plain_iff, fun _ _ => growShort_plain_iff⟩

/-! ### Requests for one name -/

/-- A join without an id can be decoded for every group. -/
theorem exists_joinGroupRequest (h : groupID.length ≤ 32767) :
    ∃ r, (JoinGroupRequest.decode 0 r).1 = ⟨groupID, 0, 0, [], [], []⟩ := by
  have hread : Reads (JoinGroupRequest.decode 0) (putString groupID ++ (putInt32 0 ++
      ([] ++ (putString [] ++ (putString [] ++ putArrayLen 0))))) ⟨groupID, 0, 0, [], [], []⟩ := by
    refine Reads.bind (reads_string h) (Reads.bind (reads_int32_of isInt32_zero) ?_)
    refine Reads.bind (reads_since_of_lt (by decide)) ?_
    refine Reads.bind (reads_string (by decide)) (Reads.bind (reads_string (by decide)) ?_)
    exact Reads.map (reads_array_nil _) _
  exact ⟨_, congrArg Prod.fst hread.newReader⟩

/-- A topic can be asked for by every name. -/
theorem exists_createTopicsRequest (h : name.length ≤ 32767) :
    ∃ r, (CreateTopicsRequest.decode 0 r).1 = ⟨[⟨name, 0, 0⟩], 0, false⟩ := by
  have htopic : Reads CreateTopicsTopic.decode (putString name ++ (putInt32 0 ++ (putInt16 0 ++
      (putArrayLen 0 ++ putArrayLen 0)))) ⟨name, 0, 0⟩ := by
    refine Reads.bind (reads_string h) (Reads.bind (reads_int32_of isInt32_zero) ?_)
    refine Reads.bind (reads_int16_of ⟨by decide, by decide⟩) (Reads.bind (reads_array_nil _) ?_)
    exact Reads.map (reads_array_nil _) _
  have hread : Reads (CreateTopicsRequest.decode 0) _ ⟨[⟨name, 0, 0⟩], 0, false⟩ :=
    Reads.bind (reads_array_single (putString_append_ne_nil _ _) htopic)
      (Reads.bind (reads_int32_of isInt32_zero) (Reads.map (reads_since_of_lt (by decide)) _))
  exact ⟨_, congrArg Prod.fst hread.newReader⟩

theorem exists_createPartitionsRequest (h : name.length ≤ 32767) :
    ∃ r, (CreatePartitionsRequest.decode r).1 = ⟨[⟨name, 0⟩], 0, false⟩ := by
  have htopic : Reads CreatePartitionsTopic.decode (putString name ++ (putInt32 0 ++ putArrayLen 0))
      ⟨name, 0⟩ := by
    refine Reads.bind (reads_string h) (Reads.bind (reads_int32_of isInt32_zero) ?_)
    exact Reads.map (reads_array_nil _) _
  have hread : Reads CreatePartitionsRequest.decode _ ⟨[⟨name, 0⟩], 0, false⟩ :=
    Reads.bind (reads_array_single (putString_append_ne_nil _ _) htopic)
      (Reads.bind (reads_int32_of isInt32_zero) (Reads.map (reads_int8 0) _))
  exact ⟨_, congrArg Prod.fst hread.newReader⟩

/-- A join of the group `g`, of which only the group's name has arrived. -/
def plainJoin : Op :=
  .join (joinArgs (JoinGroupRequest.decode 0 (newReader (putString [103]))).1)
    (List.replicate 16 48) 0 []

def plainTexts : Texts := ⟨fun _ => true, fun _ _ => [], fun _ _ => []⟩

/-- A broker that has the topic `t`. -/
def oneTopic : Holdings := ⟨(∅ : Table Bytes ℤ).insert [116] 1, none, ∅, ∅⟩

/-- The response to it can be read.  So can the one to a request to create the topic `t`, which
is refused, and the one to a request for more partitions of the topic `u`, which is not
there. -/
theorem responses_decode_plain :
    JoinsDecode [plainJoin] ∧
    (createTopicsResponse plainTexts soleEnv oneTopic ⟨[⟨[116], 0, 0⟩], 0, false⟩).topics
      = [⟨[116], 36, some (text "topic \"t\" already exists")⟩] ∧
    Decodes (CreateTopicsResponse.read 4)
      ((createTopicsResponse plainTexts soleEnv oneTopic ⟨[⟨[116], 0, 0⟩], 0, false⟩).encode 4)
      ((createTopicsResponse plainTexts soleEnv oneTopic ⟨[⟨[116], 0, 0⟩], 0, false⟩).carried 4) ∧
    (createPartitionsResponse plainTexts soleEnv oneTopic ⟨[⟨[117], 0⟩], 0, false⟩).topics
      = [⟨[117], 37, some (text "topic \"u\" does not exist")⟩] ∧
    Decodes CreatePartitionsResponse.read
      (createPartitionsResponse plainTexts soleEnv oneTopic ⟨[⟨[117], 0⟩], 0, false⟩).encode
      (createPartitionsResponse plainTexts soleEnv oneTopic ⟨[⟨[117], 0⟩], 0, false⟩) := by
  have hwire : ∀ op ∈ [plainJoin], FromWire [103] op := by
    simp only [List.mem_singleton, forall_eq]
    exact ⟨by decide, 0, newReader (putString [103]), by decide +kernel, rfl⟩
  obtain ⟨r, hr⟩ := @exists_createTopicsRequest [116] (by decide)
  have h := responses_decode_iff plainTexts soleEnv oneTopic [103] [plainJoin] hwire
    (by decide +kernel) _ ⟨0, r, hr⟩ _ (@exists_createPartitionsRequest [117] (by decide)) 4
  obtain ⟨hjoins, -, htopics, hgrowth, hcreate, hgrow⟩ := h
  refine ⟨hjoins.mpr ?_, by decide +kernel, htopics.mpr fun _ => ⟨?_, trivial⟩, by decide +kernel,
    hgrowth.mpr ⟨?_, trivial⟩⟩
  · simp only [List.mem_singleton, forall_eq]
    exact .inr (by decide)
  · exact (hcreate oneTopic _ (List.forall_mem_singleton.mpr (by decide)) (by decide +kernel)).mpr
      (by decide)
  · exact (hgrow oneTopic _ (List.forall_mem_singleton.mpr (by decide)) (by decide +kernel)).mpr
      (by decide)

/-! ### Names that are too long -/

/-- With a plain name of 32767 bytes, no response of the three can be read. -/
theorem unreadable_of_long (hlen : name.length = 32767) (hplain : ∀ x ∈ name, Quote.Plain x) :
    (∃ op, FromWire name op ∧ ¬ JoinsDecode [op]) ∧
    (∃ b req, (∃ r, (CreateTopicsRequest.decode 0 r).1 = req) ∧
      ¬ Decodes (CreateTopicsResponse.read 1)
        ((createTopicsResponse plainTexts soleEnv b req).encode 1)
        ((createTopicsResponse plainTexts soleEnv b req).carried 1)) ∧
    ∃ b req, (∃ r, (CreatePartitionsRequest.decode r).1 = req) ∧
      ¬ Decodes CreatePartitionsResponse.read
        (createPartitionsResponse plainTexts soleEnv b req).encode
        (createPartitionsResponse plainTexts soleEnv b req) := by
  refine ⟨?_, ?_, ?_⟩
  · obtain ⟨r, hr⟩ := exists_joinGroupRequest hlen.le
    let op : Op := .join (joinArgs (JoinGroupRequest.decode 0 r).1) (List.replicate 16 48) 0 []
    have hwire : FromWire name op := ⟨List.length_replicate, 0, r, by rw [hr], rfl⟩
    refine ⟨op, hwire, fun hdecode => ?_⟩
    have hmints := mintsShort_of_joinsDecode (by simpa using hwire) hdecode op (by simp)
    rcases hmints with hid | hshort
    · rw [hr] at hid
      exact hid rfl
    · omega
  · obtain ⟨r, hr⟩ := exists_createTopicsRequest hlen.le
    obtain ⟨b, hb⟩ : ∃ b : Holdings, b.knows name = true :=
      ⟨⟨(∅ : Table Bytes ℤ).insert name 1, none, ∅, ∅⟩,
        by simp [Holdings.knows, -AList.insert_empty]⟩
    refine ⟨b, _, ⟨r, hr⟩, fun hdecode => ?_⟩
    have hshort := ((createTopics_decodes_iff ⟨0, r, hr⟩ _ 1).mp hdecode le_rfl).1
    have hle := (createShort_plain_iff hplain hb).mp hshort
    dsimp only at hle
    omega
  · obtain ⟨r, hr⟩ := exists_createPartitionsRequest hlen.le
    refine ⟨startNode.holdings, _, ⟨r, hr⟩, fun hdecode => ?_⟩
    have hshort := ((createPartitions_decodes_iff ⟨r, hr⟩ _).mp hdecode).1
    have hle := (growShort_plain_iff hplain (by simp [recordedPartitions, startNode])).mp hshort
    dsimp only at hle
    omega

/-- **A name of 32767 letters makes each of the three responses unreadable**: the id of a member
that joins such a group, and the messages that such a topic is there already or is not there. -/
theorem long_names_unreadable :
    (∃ op, FromWire (List.replicate 32767 97) op ∧ ¬ JoinsDecode [op]) ∧
    (∃ b req, (∃ r, (CreateTopicsRequest.decode 0 r).1 = req) ∧
      ¬ Decodes (CreateTopicsResponse.read 1)
        ((createTopicsResponse plainTexts soleEnv b req).encode 1)
        ((createTopicsResponse plainTexts soleEnv b req).carried 1)) ∧
    ∃ b req, (∃ r, (CreatePartitionsRequest.decode r).1 = req) ∧
      ¬ Decodes CreatePartitionsResponse.read
        (createPartitionsResponse plainTexts soleEnv b req).encode
        (createPartitionsResponse plainTexts soleEnv b req) := by
  refine unreadable_of_long List.length_replicate fun x hx => ?_
  rw [List.eq_of_mem_replicate hx]
  decide

end Server
end Mq
