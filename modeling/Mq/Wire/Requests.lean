import Mq.Wire.ApiKeys
import Mq.Wire.Fetch

/-!
# The requests that a broker serves

The request decoders of `internal/protocol`, one for each of the sixteen APIs.  A decoder
reads a whole message and returns it; a read that fails sets the reader's error and yields
zero values from there on, so a decoder always returns a request, and whether it is the one
that was sent is a question to the reader's error.

## Main definitions

* `ProduceRequest.decode`, `MetadataRequest.decode`, … — the decoders.
* `Request`, `decodeBody` — the request of a frame, after its header.

## Main results

* `recordsFit_decodeFrame` — the record sets of a produce request are shorter than
  `2 ^ 31` bytes, however the frame is cut.
-/

namespace Mq
namespace Wire

open Word

/-! ### Topics and partitions -/

structure MetadataRequest where
  topics : List Bytes
  allTopics : Bool
  deriving DecidableEq, Repr

/-- An empty array asks for all topics. -/
def MetadataRequest.decode : Read MetadataRequest := do
  let n ← arrayLen
  if n = 0 then pure ⟨[], true⟩
  else
    let topics ← repeated string n
    pure ⟨topics, false⟩

structure ProducePartition where
  index : ℤ
  records : Bytes
  deriving DecidableEq, Repr

structure ProduceTopic where
  name : Bytes
  partitions : List ProducePartition
  deriving DecidableEq, Repr

structure ProduceRequest where
  transactionalID : Option Bytes
  acks : ℤ
  timeoutMs : ℤ
  topics : List ProduceTopic
  deriving DecidableEq, Repr

/-- A record set that is missing is walked through like an empty one. -/
def ProducePartition.decode : Read ProducePartition := do
  let index ← int32
  let records ← bytes
  pure ⟨index, records.getD []⟩

def ProduceTopic.decode : Read ProduceTopic := do
  let name ← string
  let partitions ← array ProducePartition.decode
  pure ⟨name, partitions⟩

def ProduceRequest.decode (version : ℤ) : Read ProduceRequest := do
  let transactionalID ← (if 3 ≤ version then nullableString else pure none)
  let acks ← int16
  let timeoutMs ← int32
  let topics ← array ProduceTopic.decode
  pure ⟨transactionalID, acks, timeoutMs, topics⟩

structure ListOffsetsPartition where
  index : ℤ
  timestamp : ℤ
  maxNumOffsets : ℤ
  deriving DecidableEq, Repr

structure ListOffsetsTopic where
  name : Bytes
  partitions : List ListOffsetsPartition
  deriving DecidableEq, Repr

structure ListOffsetsRequest where
  replicaID : ℤ
  isolationLevel : ℤ
  topics : List ListOffsetsTopic
  deriving DecidableEq, Repr

def ListOffsetsPartition.decode (version : ℤ) : Read ListOffsetsPartition := do
  let index ← int32
  -- current_leader_epoch
  let _ ← since version 4 int32
  let timestamp ← int64
  let maxNumOffsets ← (if version = 0 then int32 else pure 0)
  pure ⟨index, timestamp, maxNumOffsets⟩

def ListOffsetsTopic.decode (version : ℤ) : Read ListOffsetsTopic := do
  let name ← string
  let partitions ← array (ListOffsetsPartition.decode version)
  pure ⟨name, partitions⟩

def ListOffsetsRequest.decode (version : ℤ) : Read ListOffsetsRequest := do
  let replicaID ← int32
  let isolationLevel ← since version 2 int8
  let topics ← array (ListOffsetsTopic.decode version)
  pure ⟨replicaID, isolationLevel, topics⟩

structure CreateTopicsTopic where
  name : Bytes
  numPartitions : ℤ
  replicationFactor : ℤ
  deriving DecidableEq, Repr

structure CreateTopicsRequest where
  topics : List CreateTopicsTopic
  timeoutMs : ℤ
  validateOnly : Bool
  deriving DecidableEq, Repr

/-- The assignments and the configs are read and dropped. -/
def CreateTopicsTopic.decode : Read CreateTopicsTopic := do
  let name ← string
  let numPartitions ← int32
  let replicationFactor ← int16
  let _ ← array do
    let _ ← int32
    array int32
  let _ ← array do
    let _ ← string
    nullableString
  pure ⟨name, numPartitions, replicationFactor⟩

def CreateTopicsRequest.decode (version : ℤ) : Read CreateTopicsRequest := do
  let topics ← array CreateTopicsTopic.decode
  let timeoutMs ← int32
  let validateOnly ← since version 1 int8
  pure ⟨topics, timeoutMs, validateOnly ≠ 0⟩

structure CreatePartitionsTopic where
  name : Bytes
  count : ℤ
  deriving DecidableEq, Repr

structure CreatePartitionsRequest where
  topics : List CreatePartitionsTopic
  timeoutMs : ℤ
  validateOnly : Bool
  deriving DecidableEq, Repr

/-- The assignment is read and dropped. -/
def CreatePartitionsTopic.decode : Read CreatePartitionsTopic := do
  let name ← string
  let count ← int32
  let _ ← array (array int32)
  pure ⟨name, count⟩

def CreatePartitionsRequest.decode : Read CreatePartitionsRequest := do
  let topics ← array CreatePartitionsTopic.decode
  let timeoutMs ← int32
  let validateOnly ← int8
  pure ⟨topics, timeoutMs, validateOnly ≠ 0⟩

/-! ### Groups -/

structure FindCoordinatorRequest where
  key : Bytes
  keyType : ℤ
  deriving DecidableEq, Repr

def FindCoordinatorRequest.decode (version : ℤ) : Read FindCoordinatorRequest := do
  let key ← string
  let keyType ← since version 1 int8
  pure ⟨key, keyType⟩

structure JoinGroupProtocol where
  name : Bytes
  metadata : Option Bytes
  deriving DecidableEq, Repr

structure JoinGroupRequest where
  groupID : Bytes
  sessionTimeout : ℤ
  rebalanceTimeout : ℤ
  memberID : Bytes
  protocolType : Bytes
  protocols : List JoinGroupProtocol
  deriving DecidableEq, Repr

def JoinGroupProtocol.decode : Read JoinGroupProtocol := do
  let name ← string
  let metadata ← bytes
  pure ⟨name, metadata⟩

def JoinGroupRequest.decode (version : ℤ) : Read JoinGroupRequest := do
  let groupID ← string
  let sessionTimeout ← int32
  let rebalanceTimeout ← since version 1 int32
  let memberID ← string
  let protocolType ← string
  let protocols ← array JoinGroupProtocol.decode
  pure ⟨groupID, sessionTimeout, rebalanceTimeout, memberID, protocolType, protocols⟩

structure SyncGroupAssignment where
  memberID : Bytes
  assignment : Option Bytes
  deriving DecidableEq, Repr

structure SyncGroupRequest where
  groupID : Bytes
  generationID : ℤ
  memberID : Bytes
  assignments : List SyncGroupAssignment
  deriving DecidableEq, Repr

def SyncGroupAssignment.decode : Read SyncGroupAssignment := do
  let memberID ← string
  let assignment ← bytes
  pure ⟨memberID, assignment⟩

def SyncGroupRequest.decode : Read SyncGroupRequest := do
  let groupID ← string
  let generationID ← int32
  let memberID ← string
  let assignments ← array SyncGroupAssignment.decode
  pure ⟨groupID, generationID, memberID, assignments⟩

structure HeartbeatRequest where
  groupID : Bytes
  generationID : ℤ
  memberID : Bytes
  deriving DecidableEq, Repr

def HeartbeatRequest.decode : Read HeartbeatRequest := do
  let groupID ← string
  let generationID ← int32
  let memberID ← string
  pure ⟨groupID, generationID, memberID⟩

structure LeaveGroupRequest where
  groupID : Bytes
  memberID : Bytes
  deriving DecidableEq, Repr

def LeaveGroupRequest.decode : Read LeaveGroupRequest := do
  let groupID ← string
  let memberID ← string
  pure ⟨groupID, memberID⟩

structure DescribeGroupsRequest where
  groups : List Bytes
  deriving DecidableEq, Repr

def DescribeGroupsRequest.decode : Read DescribeGroupsRequest := do
  let groups ← array string
  pure ⟨groups⟩

/-! ### Committed offsets -/

structure OffsetCommitPartition where
  index : ℤ
  offset : ℤ
  leaderEpoch : ℤ
  metadata : Option Bytes
  deriving DecidableEq, Repr

structure OffsetCommitTopic where
  name : Bytes
  partitions : List OffsetCommitPartition
  deriving DecidableEq, Repr

structure OffsetCommitRequest where
  groupID : Bytes
  generationID : ℤ
  memberID : Bytes
  topics : List OffsetCommitTopic
  deriving DecidableEq, Repr

def OffsetCommitPartition.decode (version : ℤ) : Read OffsetCommitPartition := do
  let index ← int32
  let offset ← int64
  -- commit_timestamp
  let _ ← (if version = 1 then int64 else pure 0)
  let leaderEpoch ← since version 6 int32
  let metadata ← nullableString
  pure ⟨index, offset, leaderEpoch, metadata⟩

def OffsetCommitTopic.decode (version : ℤ) : Read OffsetCommitTopic := do
  let name ← string
  let partitions ← array (OffsetCommitPartition.decode version)
  pure ⟨name, partitions⟩

def OffsetCommitRequest.decode (version : ℤ) : Read OffsetCommitRequest := do
  let groupID ← string
  let generationID ← since version 1 int32
  let memberID ← (if 1 ≤ version then string else pure [])
  -- retention_time_ms
  let _ ← (if 2 ≤ version ∧ version ≤ 4 then int64 else pure 0)
  let topics ← array (OffsetCommitTopic.decode version)
  pure ⟨groupID, generationID, memberID, topics⟩

structure OffsetFetchTopic where
  name : Bytes
  partitions : List ℤ
  deriving DecidableEq, Repr

structure OffsetFetchRequest where
  groupID : Bytes
  allTopics : Bool
  topics : List OffsetFetchTopic
  deriving DecidableEq, Repr

def OffsetFetchTopic.decode : Read OffsetFetchTopic := do
  let name ← string
  let partitions ← array int32
  pure ⟨name, partitions⟩

/-- The number of bytes that are left, none after a failed read. -/
def remaining : Read ℕ := fun r => (if r.err then 0 else r.buf.length - r.pos, r)

/-- A null array asks for all topics.  One that is too long for the buffer is passed over
without setting the error. -/
def OffsetFetchRequest.decode : Read OffsetFetchRequest := do
  let groupID ← string
  let n ← int32
  if n < 0 then pure ⟨groupID, true, []⟩
  else
    let left ← remaining
    if left < n then pure ⟨groupID, false, []⟩
    else
      let topics ← repeated OffsetFetchTopic.decode n.toNat
      pure ⟨groupID, false, topics⟩

/-! ### Any request -/

/-- A decoded request body.  The requests without a body are those of `ApiVersions`, which
is not decoded, and of `ListGroups`. -/
inductive Request
  | apiVersions
  | metadata (req : MetadataRequest)
  | produce (req : ProduceRequest)
  | fetch (req : FetchRequest)
  | listOffsets (req : ListOffsetsRequest)
  | findCoordinator (req : FindCoordinatorRequest)
  | joinGroup (req : JoinGroupRequest)
  | syncGroup (req : SyncGroupRequest)
  | heartbeat (req : HeartbeatRequest)
  | leaveGroup (req : LeaveGroupRequest)
  | listGroups
  | describeGroups (req : DescribeGroupsRequest)
  | offsetCommit (req : OffsetCommitRequest)
  | offsetFetch (req : OffsetFetchRequest)
  | createTopics (req : CreateTopicsRequest)
  | createPartitions (req : CreatePartitionsRequest)
  deriving DecidableEq, Repr

/-- The body of a request, at the version that its header declares. -/
def decodeBody (api : ApiKey) (version : ℤ) : Read Request :=
  match api with
  | .produce => .produce <$> ProduceRequest.decode version
  | .fetch => .fetch <$> FetchRequest.decode version
  | .listOffsets => .listOffsets <$> ListOffsetsRequest.decode version
  | .metadata => .metadata <$> MetadataRequest.decode
  | .offsetCommit => .offsetCommit <$> OffsetCommitRequest.decode version
  | .offsetFetch => .offsetFetch <$> OffsetFetchRequest.decode
  | .findCoordinator => .findCoordinator <$> FindCoordinatorRequest.decode version
  | .joinGroup => .joinGroup <$> JoinGroupRequest.decode version
  | .heartbeat => .heartbeat <$> HeartbeatRequest.decode
  | .leaveGroup => .leaveGroup <$> LeaveGroupRequest.decode
  | .syncGroup => .syncGroup <$> SyncGroupRequest.decode
  | .describeGroups => .describeGroups <$> DescribeGroupsRequest.decode
  | .listGroups => pure .listGroups
  | .apiVersions => pure .apiVersions
  | .createTopics => .createTopics <$> CreateTopicsRequest.decode version
  | .createPartitions => .createPartitions <$> CreatePartitionsRequest.decode

/-- What is read from a frame. -/
structure Frame where
  header : RequestHeader
  /-- The request, if the API is implemented. -/
  request : Option Request
  /-- The reader's error at the end. -/
  err : Bool
  deriving DecidableEq, Repr

/-- A frame without its length: a header, and a body that is decoded if the API is
implemented. -/
def decodeFrame (frame : Bytes) : Frame :=
  let (hdr, r) := decodeRequestHeader (newReader frame)
  match ApiKey.ofCode hdr.apiKey with
  | none => ⟨hdr, none, r.err⟩
  | some api =>
    let (req, r') := decodeBody api hdr.apiVersion r
    ⟨hdr, some req, r'.err⟩

/-! ### The size of a record set -/

theorem yields_produceRequest (version : ℤ) :
    Yields (ProduceRequest.decode version) fun req =>
      ∀ t ∈ req.topics, ∀ p ∈ t.partitions, p.records.length < 2147483648 := by
  have hpart : Yields ProducePartition.decode fun p => p.records.length < 2147483648 := by
    refine Yields.after fun index => yields_bytes.bind fun records hrecords => yields_pure ?_
    cases records with
    | none => simp
    | some b => exact hrecords b rfl
  have htopic : Yields ProduceTopic.decode
      fun t => ∀ p ∈ t.partitions, p.records.length < 2147483648 :=
    Yields.after fun name => (yields_array hpart).bind fun ps hps => yields_pure hps
  refine Yields.after fun id => Yields.after fun acks => Yields.after fun timeout => ?_
  exact (yields_array htopic).bind fun ts hts => yields_pure hts

/-- The record sets of a produce request are shorter than `2 ^ 31` bytes. -/
def Request.RecordsFit : Request → Prop
  | .produce req => ∀ t ∈ req.topics, ∀ p ∈ t.partitions, p.records.length < 2147483648
  | _ => True

/-- **Every request that is decoded has record sets that fit**, also one that was decoded
from a frame that is cut off. -/
theorem recordsFit_decodeFrame {frame : Bytes} {req : Request}
    (h : (decodeFrame frame).request = some req) : req.RecordsFit := by
  have hbody : ∀ api version, Yields (decodeBody api version) Request.RecordsFit := by
    intro api version
    cases api with
    | produce => exact fun r => yields_produceRequest version r
    | _ => exact fun r => trivial
  rw [decodeFrame] at h
  rcases hhdr : decodeRequestHeader (newReader frame) with ⟨hdr, r⟩
  rw [hhdr] at h
  dsimp only at h
  cases hapi : ApiKey.ofCode hdr.apiKey with
  | none => rw [hapi] at h; cases h
  | some api =>
    rw [hapi] at h
    cases h
    exact hbody api hdr.apiVersion r

end Wire
end Mq
