import Mq.Wire.Requests

/-!
# Responses with text that the broker makes up

The responses of `internal/protocol` to `JoinGroup`, `CreateTopics` and `CreatePartitions`.
Their strings are not only those that a client has sent: member ids and error messages are made
from them and can be longer.  `Writer.String` narrows a length to 16 bits without a word, so
whether a response can be read at all is a question to the lengths of its strings.

## Main definitions

* `JoinGroupResponse`, `CreateTopicsResponse`, `CreatePartitionsResponse` — the responses, with
  `encode` as in the source and `read` for the same fields in the same order.
* `Decodes` — a body is read completely, without an error, and gives the fields back.

## Main results

* `JoinGroupResponse.decodes_iff`, `CreateTopicsResponse.decodes_iff`,
  `CreatePartitionsResponse.decodes_iff` — **a response can be read exactly if everything in it
  fits.**
* `yields_joinGroupRequest`, `yields_createTopicsRequest`, `yields_createPartitionsRequest` —
  what a client can send.
-/

namespace Mq
namespace Wire

open Word

/-! ### Reading a whole body -/

/-- The reader returns `a`, without an error and without unread bytes. -/
def Decodes {α : Type} (m : Read α) (bs : Bytes) (a : α) : Prop :=
  m (newReader bs) = (a, ⟨bs, bs.length, false⟩)

/-- **A value is read back exactly if it fits**, when the reader returns nothing else. -/
theorem decodes_iff {α : Type} {m : Read α} {bs : Bytes} {a : α} {P : α → Prop}
    (hyields : Yields m P) (hreads : P a → Reads m bs a) : Decodes m bs a ↔ P a := by
  constructor
  · intro h
    have hP := hyields (newReader bs)
    rwa [h] at hP
  · intro hP
    exact (hreads hP).newReader

/-- The value of a field that is there from a version on. -/
def carriedSince (version v x : ℤ) : ℤ := if v ≤ version then x else 0

theorem reads_int16_of {x : ℤ} (h : IsInt16 x) : Reads int16 (putInt16 x) x :=
  (reads_int16 x).of_eq rfl (wrap16_eq h.1 h.2)

theorem reads_int32_of {x : ℤ} (h : IsInt32 x) : Reads int32 (putInt32 x) x :=
  (reads_int32 x).of_eq rfl (wrap32_eq h.1 h.2)

theorem reads_since32 {version v x : ℤ} (h : IsInt32 (carriedSince version v x)) :
    Reads (since version v int32) (putSince version v (putInt32 x)) (carriedSince version v x) := by
  unfold carriedSince putSince at *
  split at h
  · next hv => simpa [hv] using reads_since_of_le hv (reads_int32_of h)
  · next hv => simpa [hv] using reads_since_of_lt (by omega)

theorem yields_since32 (version v : ℤ) : Yields (since version v int32) IsInt32 := by
  unfold since
  split
  · exact yields_int32
  · exact yields_pure ⟨by decide, by decide⟩

/-- What begins with a string is not empty. -/
theorem putString_append_ne_nil (s rest : Bytes) : putString s ++ rest ≠ [] := by
  intro hnil
  have hlen := congrArg List.length hnil
  simp [putString] at hlen

/-! ### JoinGroup -/

structure JoinGroupMember where
  memberID : Bytes
  metadata : Option Bytes
  deriving DecidableEq, Repr

structure JoinGroupResponse where
  throttleTime : ℤ
  errorCode : ℤ
  generationID : ℤ
  protocolName : Bytes
  leader : Bytes
  memberID : Bytes
  members : List JoinGroupMember
  deriving DecidableEq, Repr

def JoinGroupMember.put (m : JoinGroupMember) : Bytes := putString m.memberID ++ putBytes m.metadata

def JoinGroupMember.read : Read JoinGroupMember := do
  let memberID ← string
  let metadata ← bytes
  pure ⟨memberID, metadata⟩

def JoinGroupMember.Fits (m : JoinGroupMember) : Prop :=
  m.memberID.length ≤ 32767 ∧ ∀ b ∈ m.metadata, b.length < 2147483648

namespace JoinGroupResponse

def encode (version : ℤ) (resp : JoinGroupResponse) : Bytes :=
  putSince version 2 (putInt32 resp.throttleTime) ++
    (putInt16 resp.errorCode ++ (putInt32 resp.generationID ++ (putString resp.protocolName ++
      (putString resp.leader ++ (putString resp.memberID ++
        putArray JoinGroupMember.put resp.members)))))

/-- The fields, in the order in which `encode` writes them. -/
def read (version : ℤ) : Read JoinGroupResponse := do
  let throttleTime ← since version 2 int32
  let errorCode ← int16
  let generationID ← int32
  let protocolName ← string
  let leader ← string
  let memberID ← string
  let members ← array JoinGroupMember.read
  pure ⟨throttleTime, errorCode, generationID, protocolName, leader, memberID, members⟩

/-- The fields that a version carries. -/
def carried (version : ℤ) (resp : JoinGroupResponse) : JoinGroupResponse :=
  { resp with throttleTime := carriedSince version 2 resp.throttleTime }

/-- Every field can hold its value. -/
structure Fits (resp : JoinGroupResponse) : Prop where
  throttleTime : IsInt32 resp.throttleTime
  errorCode : IsInt16 resp.errorCode
  generationID : IsInt32 resp.generationID
  protocolName : resp.protocolName.length ≤ 32767
  leader : resp.leader.length ≤ 32767
  memberID : resp.memberID.length ≤ 32767
  members : ∀ m ∈ resp.members, m.Fits
  count : resp.members.length < 2147483648

theorem reads_encode {resp : JoinGroupResponse} {version : ℤ} (h : (resp.carried version).Fits) :
    Reads (read version) (resp.encode version) (resp.carried version) := by
  have hmember : ∀ m ∈ resp.members, m.put ≠ [] ∧ Reads JoinGroupMember.read m.put m := by
    intro m hm
    have hfits := h.members m hm
    exact ⟨putString_append_ne_nil _ _,
      Reads.bind (reads_string hfits.1) (Reads.map (reads_bytes hfits.2) _)⟩
  have hmembers : Reads (array JoinGroupMember.read) (putArray JoinGroupMember.put resp.members)
      resp.members := (reads_array h.count hmember).of_eq rfl (List.map_id _)
  refine Reads.bind (reads_since32 h.throttleTime) ?_
  refine Reads.bind (reads_int16_of h.errorCode) ?_
  refine Reads.bind (reads_int32_of h.generationID) ?_
  refine Reads.bind (reads_string h.protocolName) ?_
  refine Reads.bind (reads_string h.leader) ?_
  refine Reads.bind (reads_string h.memberID) ?_
  exact Reads.map hmembers _

theorem yields_read (version : ℤ) : Yields (read version) Fits := by
  have hmember : Yields JoinGroupMember.read JoinGroupMember.Fits :=
    yields_string.bind fun id hid => yields_bytes.bind fun b hb => yields_pure ⟨hid, hb⟩
  refine (yields_since32 version 2).bind fun throttle hthrottle => ?_
  refine yields_int16.bind fun code hcode => yields_int32.bind fun generation hgeneration => ?_
  refine yields_string.bind fun name hname => yields_string.bind fun leader hleader => ?_
  refine yields_string.bind fun id hid => ?_
  refine ((yields_array hmember).and (yields_array_length _)).bind fun ms hms => ?_
  exact yields_pure ⟨hthrottle, hcode, hgeneration, hname, hleader, hid, hms.1, hms.2⟩

/-- **A response can be read exactly if everything in it fits.** -/
theorem decodes_iff (resp : JoinGroupResponse) (version : ℤ) :
    Decodes (read version) (resp.encode version) (resp.carried version) ↔
      (resp.carried version).Fits :=
  Wire.decodes_iff (yields_read version) reads_encode

end JoinGroupResponse

/-! ### CreateTopics and CreatePartitions -/

/-- The result for one topic, in both responses. -/
structure TopicResp where
  name : Bytes
  errorCode : ℤ
  errorMessage : Option Bytes
  deriving DecidableEq, Repr

namespace TopicResp

/-- The message is left out by old versions. -/
def put (withMessage : Bool) (t : TopicResp) : Bytes :=
  putString t.name ++ (putInt16 t.errorCode ++
    (if withMessage then putNullableString t.errorMessage else []))

def read (withMessage : Bool) : Read TopicResp := do
  let name ← string
  let errorCode ← int16
  let errorMessage ← (if withMessage then nullableString else pure none)
  pure ⟨name, errorCode, errorMessage⟩

def carried (withMessage : Bool) (t : TopicResp) : TopicResp :=
  { t with errorMessage := if withMessage then t.errorMessage else none }

structure Fits (t : TopicResp) : Prop where
  name : t.name.length ≤ 32767
  errorCode : IsInt16 t.errorCode
  errorMessage : ∀ s ∈ t.errorMessage, s.length ≤ 32767

/-- With names and codes that fit, only the messages are in question. -/
theorem fits_carried_iff {ts : List TopicResp}
    (hts : ∀ t ∈ ts, t.name.length ≤ 32767 ∧ IsInt16 t.errorCode) (withMessage : Bool) :
    (∀ t ∈ ts.map (carried withMessage), t.Fits) ↔
      (withMessage = true → ∀ t ∈ ts, ∀ s ∈ t.errorMessage, s.length ≤ 32767) := by
  rw [List.forall_mem_map]
  constructor
  · rintro h rfl t ht
    exact (h t ht).errorMessage
  · intro h t ht
    refine ⟨(hts t ht).1, (hts t ht).2, ?_⟩
    cases withMessage with
    | true => exact h rfl t ht
    | false => simp [carried]

theorem reads_put {withMessage : Bool} {t : TopicResp} (h : (t.carried withMessage).Fits) :
    Reads (read withMessage) (t.put withMessage) (t.carried withMessage) := by
  refine Reads.bind (reads_string h.name) (Reads.bind (reads_int16_of h.errorCode) ?_)
  cases withMessage with
  | true => exact Reads.map (reads_nullableString h.errorMessage) _
  | false => exact reads_pure _

theorem yields_read (withMessage : Bool) : Yields (read withMessage) Fits := by
  refine yields_string.bind fun name hname => yields_int16.bind fun code hcode => ?_
  cases withMessage with
  | true => exact yields_nullableString.bind fun msg hmsg => yields_pure ⟨hname, hcode, hmsg⟩
  | false => exact yields_pure ⟨hname, hcode, by simp⟩

/-- The results of a whole response. -/
theorem reads_array {withMessage : Bool} {ts : List TopicResp}
    (h : ∀ t ∈ ts.map (carried withMessage), t.Fits) (hlen : ts.length < 2147483648) :
    Reads (array (read withMessage)) (putArray (put withMessage) ts)
      (ts.map (carried withMessage)) :=
  Wire.reads_array hlen fun _ ht =>
    ⟨putString_append_ne_nil _ _, reads_put (h _ (List.mem_map_of_mem ht))⟩

theorem yields_array (withMessage : Bool) : Yields (array (read withMessage)) fun ts =>
    (∀ t ∈ ts, t.Fits) ∧ ts.length < 2147483648 :=
  (Wire.yields_array (yields_read withMessage)).and (yields_array_length _)

end TopicResp

structure CreateTopicsResponse where
  throttleTime : ℤ
  topics : List TopicResp
  deriving DecidableEq, Repr

structure CreatePartitionsResponse where
  throttleTime : ℤ
  topics : List TopicResp
  deriving DecidableEq, Repr

namespace CreateTopicsResponse

def encode (version : ℤ) (resp : CreateTopicsResponse) : Bytes :=
  putSince version 2 (putInt32 resp.throttleTime) ++
    putArray (TopicResp.put (1 ≤ version)) resp.topics

def read (version : ℤ) : Read CreateTopicsResponse := do
  let throttleTime ← since version 2 int32
  let topics ← array (TopicResp.read (1 ≤ version))
  pure ⟨throttleTime, topics⟩

/-- The fields that a version carries. -/
def carried (version : ℤ) (resp : CreateTopicsResponse) : CreateTopicsResponse :=
  ⟨carriedSince version 2 resp.throttleTime, resp.topics.map (TopicResp.carried (1 ≤ version))⟩

structure Fits (resp : CreateTopicsResponse) : Prop where
  throttleTime : IsInt32 resp.throttleTime
  topics : ∀ t ∈ resp.topics, t.Fits
  count : resp.topics.length < 2147483648

/-- **A response can be read exactly if everything in it fits.** -/
theorem decodes_iff (resp : CreateTopicsResponse) (version : ℤ) :
    Decodes (read version) (resp.encode version) (resp.carried version) ↔
      (resp.carried version).Fits := by
  refine Wire.decodes_iff ?_ fun h => ?_
  · refine (yields_since32 version 2).bind fun throttle hthrottle => ?_
    exact (TopicResp.yields_array _).bind fun ts hts => yields_pure ⟨hthrottle, hts.1, hts.2⟩
  · have hcount : resp.topics.length < 2147483648 := by simpa [carried] using h.count
    exact Reads.bind (reads_since32 h.throttleTime)
      (Reads.map (TopicResp.reads_array h.topics hcount) _)

end CreateTopicsResponse

namespace CreatePartitionsResponse

def encode (resp : CreatePartitionsResponse) : Bytes :=
  putInt32 resp.throttleTime ++ putArray (TopicResp.put true) resp.topics

def read : Read CreatePartitionsResponse := do
  let throttleTime ← int32
  let topics ← array (TopicResp.read true)
  pure ⟨throttleTime, topics⟩

structure Fits (resp : CreatePartitionsResponse) : Prop where
  throttleTime : IsInt32 resp.throttleTime
  topics : ∀ t ∈ resp.topics, t.Fits
  count : resp.topics.length < 2147483648

/-- **A response can be read exactly if everything in it fits.** -/
theorem decodes_iff (resp : CreatePartitionsResponse) :
    Decodes read resp.encode resp ↔ resp.Fits := by
  refine Wire.decodes_iff ?_ fun h => ?_
  · refine yields_int32.bind fun throttle hthrottle => ?_
    exact (TopicResp.yields_array _).bind fun ts hts => yields_pure ⟨hthrottle, hts.1, hts.2⟩
  · have hid : resp.topics.map (TopicResp.carried true) = resp.topics := List.map_id _
    have htopics : Reads (array (TopicResp.read true)) (putArray (TopicResp.put true) resp.topics)
        resp.topics := by
      have := TopicResp.reads_array (by rw [hid]; exact h.topics) h.count
      rwa [hid] at this
    exact Reads.bind (reads_int32_of h.throttleTime) (Reads.map htopics _)

end CreatePartitionsResponse

/-! ### What a client can send -/

/-- The strings of a join request have at most 32767 bytes, and its metadata is shorter than
`2 ^ 31`. -/
structure JoinGroupRequest.Bounded (req : JoinGroupRequest) : Prop where
  memberID : req.memberID.length ≤ 32767
  protocols : ∀ p ∈ req.protocols, p.name.length ≤ 32767 ∧ ∀ b ∈ p.metadata, b.length < 2147483648

theorem yields_joinGroupRequest (version : ℤ) :
    Yields (JoinGroupRequest.decode version) JoinGroupRequest.Bounded := by
  have hproto : Yields JoinGroupProtocol.decode
      fun p => p.name.length ≤ 32767 ∧ ∀ b ∈ p.metadata, b.length < 2147483648 :=
    yields_string.bind fun name hname => yields_bytes.bind fun b hb => yields_pure ⟨hname, hb⟩
  refine Yields.after fun groupID => Yields.after fun session => Yields.after fun rebalance => ?_
  refine yields_string.bind fun memberID hmember => Yields.after fun type => ?_
  exact (yields_array hproto).bind fun ps hps => yields_pure ⟨hmember, hps⟩

theorem yields_createTopicsRequest (version : ℤ) : Yields (CreateTopicsRequest.decode version)
    fun req => (∀ t ∈ req.topics, t.name.length ≤ 32767) ∧ req.topics.length < 2147483648 := by
  have htopic : Yields CreateTopicsTopic.decode fun t => t.name.length ≤ 32767 :=
    yields_string.bind fun name hname => Yields.after fun _ => Yields.after fun _ =>
      Yields.after fun _ => Yields.after fun _ => yields_pure hname
  refine ((yields_array htopic).and (yields_array_length _)).bind fun ts hts => ?_
  exact Yields.after fun _ => Yields.after fun _ => yields_pure hts

theorem yields_createPartitionsRequest : Yields CreatePartitionsRequest.decode
    fun req => (∀ t ∈ req.topics, t.name.length ≤ 32767) ∧ req.topics.length < 2147483648 := by
  have htopic : Yields CreatePartitionsTopic.decode fun t => t.name.length ≤ 32767 :=
    yields_string.bind fun name hname => Yields.after fun _ => Yields.after fun _ =>
      yields_pure hname
  refine ((yields_array htopic).and (yields_array_length _)).bind fun ts hts => ?_
  exact Yields.after fun _ => Yields.after fun _ => yields_pure hts

end Wire
end Mq
