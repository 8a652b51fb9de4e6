import Mathlib.Data.Int.Notation

/-!
# Keys, versions and error codes of the protocol

The tables of `internal/protocol/apikeys.go`.

## Main definitions

* `ApiKey`, `supportedVersions`, `inRange` — the APIs and their versions.
* `ErrorCode` — the error codes that the broker answers with.
-/

namespace Mq

/-- The error codes that are used. -/
inductive ErrorCode
  | none
  | offsetOutOfRange
  | unknownTopicOrPart
  | notLeader
  | requestTimedOut
  | notCoordinator
  | illegalGeneration
  | unknownMemberID
  | rebalanceInProgress
  | unsupportedVersion
  | topicAlreadyExists
  | invalidPartitions
  deriving DecidableEq, Repr

/-- The code on the wire. -/
def ErrorCode.code : ErrorCode → ℤ
  | none => 0
  | offsetOutOfRange => 1
  | unknownTopicOrPart => 3
  | notLeader => 6
  | requestTimedOut => 7
  | notCoordinator => 16
  | illegalGeneration => 22
  | unknownMemberID => 25
  | rebalanceInProgress => 27
  | unsupportedVersion => 35
  | topicAlreadyExists => 36
  | invalidPartitions => 37

namespace Wire

/-- The APIs that are implemented. -/
inductive ApiKey
  | produce
  | fetch
  | listOffsets
  | metadata
  | offsetCommit
  | offsetFetch
  | findCoordinator
  | joinGroup
  | heartbeat
  | leaveGroup
  | syncGroup
  | describeGroups
  | listGroups
  | apiVersions
  | createTopics
  | createPartitions
  deriving DecidableEq, Repr

/-- The inclusive range of versions of an API. -/
structure VersionRange where
  apiKey : ApiKey
  min : ℤ
  max : ℤ
  deriving DecidableEq, Repr

/-- The table that `ApiVersions` responses advertise. -/
def supportedVersions : List VersionRange :=
  [⟨.produce, 0, 7⟩, ⟨.fetch, 0, 11⟩, ⟨.listOffsets, 0, 5⟩, ⟨.metadata, 0, 8⟩,
    ⟨.offsetCommit, 0, 6⟩, ⟨.offsetFetch, 0, 5⟩, ⟨.findCoordinator, 0, 2⟩, ⟨.joinGroup, 0, 4⟩,
    ⟨.heartbeat, 0, 2⟩, ⟨.leaveGroup, 0, 2⟩, ⟨.syncGroup, 0, 2⟩, ⟨.describeGroups, 0, 2⟩,
    ⟨.listGroups, 0, 2⟩, ⟨.apiVersions, 0, 2⟩, ⟨.createTopics, 0, 4⟩, ⟨.createPartitions, 0, 1⟩]

namespace ApiKey

/-- The key on the wire. -/
def code : ApiKey → ℤ
  | produce => 0
  | fetch => 1
  | listOffsets => 2
  | metadata => 3
  | offsetCommit => 8
  | offsetFetch => 9
  | findCoordinator => 10
  | joinGroup => 11
  | heartbeat => 12
  | leaveGroup => 13
  | syncGroup => 14
  | describeGroups => 15
  | listGroups => 16
  | apiVersions => 18
  | createTopics => 19
  | createPartitions => 37

/-- The API of a key, if it is implemented. -/
def ofCode (key : ℤ) : Option ApiKey :=
  (supportedVersions.find? fun v => v.apiKey.code = key).map (·.apiKey)

end ApiKey

/-- The range of an API. -/
def supported (api : ApiKey) : Option VersionRange :=
  supportedVersions.find? fun v => v.apiKey = api

/-- The check that `apiVersions` makes of its own version. -/
def inRange (api : ApiKey) (version : ℤ) : Bool :=
  (supported api).any fun v => v.min ≤ version ∧ version ≤ v.max

end Wire
end Mq
