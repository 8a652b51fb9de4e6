import Mq.Server.Dispatch

/-!
# Offset commits and the members of a group

The `OffsetCommit` and `OffsetFetch` handlers of `internal/server/handlers.go`, next to the
group operations of the coordinator.  A commit carries the member and the generation that
it comes from, but the handler does not compare them with the group: it hands every
partition to the offset store.

## Main definitions

* `offsetCommit`, `offsetFetch` — the handlers.
* `CommitAction`, `commitStep` — group operations and commits, in any order.
* `Stale` — the request does not come from a current member of the current generation.
* `Fenced` — a stale request changes no committed offset, and all its partitions are
  answered with an error that says why.

## Main results

* `offsets_run` — **the committed offsets of a run do not depend on the groups.**
* `stale_commits` — **stale requests are fenced exactly if they name no partition.**
* `evicted_member_rewinds` — a member that has been evicted moves a committed offset back.
* `offsetFetch_run` — **a fetch answers with the last commit that was accepted.**
-/

namespace Mq
namespace Server

open Word Wire Transition Consumer

/-! ### The handler -/

structure OffsetCommitPartitionResp where
  index : ℤ
  errorCode : ErrorCode
  deriving DecidableEq, Repr

structure OffsetCommitTopicResp where
  name : Bytes
  partitions : List OffsetCommitPartitionResp
  deriving DecidableEq, Repr

/-- One partition of a commit request, with its error code. -/
def commitPartition (notCoord : Bool) (groupID topic : Bytes) (h : Mq.Group.Host)
    (p : OffsetCommitPartition) : Mq.Group.Host × OffsetCommitPartitionResp :=
  if notCoord then (h, ⟨p.index, .notCoordinator⟩)
  else
    match h.commit (⟨groupID, topic, p.index⟩, ⟨p.offset, p.metadata.getD []⟩) with
    | (h', true) => (h', ⟨p.index, .none⟩)
    | (h', false) => (h', ⟨p.index, .unknownTopicOrPart⟩)

/-- One topic of a commit request. -/
def commitTopic (notCoord : Bool) (groupID : Bytes) (h : Mq.Group.Host) (t : OffsetCommitTopic) :
    Mq.Group.Host × OffsetCommitTopicResp :=
  (run (effect (commitPartition notCoord groupID t.name)) h t.partitions,
    ⟨t.name, replies (commitPartition notCoord groupID t.name) h t.partitions⟩)

/-- The `OffsetCommit` handler.  The generation and the member of the request are not
looked at. -/
def offsetCommit (notCoord : Bool) (h : Mq.Group.Host) (req : OffsetCommitRequest) :
    Mq.Group.Host × List OffsetCommitTopicResp :=
  (run (effect (commitTopic notCoord req.groupID)) h req.topics,
    replies (commitTopic notCoord req.groupID) h req.topics)

/-- **The handler makes the commits of the request**, if the group is coordinated here. -/
theorem offsetCommit_eq (notCoord : Bool) (h : Mq.Group.Host) (req : OffsetCommitRequest) :
    (offsetCommit notCoord h req).1
      = if notCoord then h else run Mq.Group.Host.step h (commitsOf req) := by
  have hpart : ∀ topic, effect (commitPartition notCoord req.groupID topic) = fun h p =>
      if notCoord then h
      else h.step (⟨req.groupID, topic, p.index⟩, ⟨p.offset, p.metadata.getD []⟩) := by
    intro topic
    funext h p
    unfold effect commitPartition Mq.Group.Host.step
    split
    · rfl
    · rcases h.commit (⟨req.groupID, topic, p.index⟩, ⟨p.offset, p.metadata.getD []⟩) with
        ⟨h', _ | _⟩ <;> rfl
  have htopic : effect (commitTopic notCoord req.groupID) = fun h t =>
      run (effect (commitPartition notCoord req.groupID t.name)) h t.partitions := rfl
  unfold offsetCommit
  dsimp only
  rw [htopic]
  simp only [hpart]
  cases notCoord with
  | true =>
    have hstay : ∀ {α : Type} (h : Mq.Group.Host) (as : List α), run (fun h _ => h) h as = h := by
      intro α h as
      induction as with
      | nil => rfl
      | cons a as ih => exact ih
    simp only [if_true, hstay]
  | false =>
    simp only [Bool.false_eq_true, if_false]
    simp only [run_map (fun p : OffsetCommitPartition => _), run_flatMap]
    rfl

/-- The codes that a coordinator answers with. -/
theorem errorCode_offsetCommit {h : Mq.Group.Host} {req : OffsetCommitRequest}
    {t : OffsetCommitTopicResp} (ht : t ∈ (offsetCommit false h req).2)
    {p : OffsetCommitPartitionResp} (hp : p ∈ t.partitions) :
    p.errorCode = .none ∨ p.errorCode = .unknownTopicOrPart := by
  obtain ⟨h', t', -, rfl⟩ := exists_of_mem_replies ht
  obtain ⟨h'', p', -, rfl⟩ := exists_of_mem_replies hp
  unfold commitPartition
  rw [if_neg (by simp)]
  split
  · exact .inl rfl
  · exact .inr rfl

/-! ### Groups and commits -/

/-- The groups and the committed offsets of a coordinator. -/
structure GroupNode where
  groups : Coordinator
  offsets : Mq.Group.Host

/-- A group operation (a join, a sync, a leave, an eviction and so on), or a commit. -/
inductive CommitAction
  | group (groupID : Bytes) (op : Op)
  | commit (req : OffsetCommitRequest)

def commitStep (s : GroupNode) : CommitAction → GroupNode
  | .group groupID op => { s with groups := s.groups.step (groupID, op) }
  | .commit req => { s with offsets := (offsetCommit false s.offsets req).1 }

/-- The commits of an action. -/
def CommitAction.commits : CommitAction → List (Mq.Group.OffsetKey × Mq.Group.Committed)
  | .group _ _ => []
  | .commit req => commitsOf req

/-- **The committed offsets of a run do not depend on the groups**: they are what the
commits make them, whoever sent them. -/
theorem offsets_run (s : GroupNode) (as : List CommitAction) :
    (run commitStep s as).offsets
      = run Mq.Group.Host.step s.offsets (as.flatMap CommitAction.commits) := by
  induction as generalizing s with
  | nil => rfl
  | cons a as ih =>
    rw [run_cons, ih, List.flatMap_cons, run_append]
    cases a with
    | group groupID op => rfl
    | commit req =>
      have hstep : (commitStep s (.commit req)).offsets
          = run Mq.Group.Host.step s.offsets (commitsOf req) := by
        rw [commitStep, offsetCommit_eq]
        rfl
      rw [hstep]
      rfl

/-! ### Reading commits back -/

structure OffsetFetchPartitionResp where
  index : ℤ
  offset : ℤ
  leaderEpoch : ℤ
  metadata : Option Bytes
  errorCode : ErrorCode
  deriving DecidableEq, Repr

/-- The topics and the partitions that a request asks for; `known` are those of the broker. -/
def wanted (known : List (Bytes × ℤ)) (req : OffsetFetchRequest) : List (Bytes × List ℤ) :=
  if req.allTopics then known.map fun t => (t.1, (List.range t.2.toNat).map Int.ofNat)
  else req.topics.map fun t => (t.name, t.partitions)

/-- The `OffsetFetch` handler: the partitions of each topic, and the error code. -/
def offsetFetch (notCoord : Bool) (known : List (Bytes × ℤ)) (store : Mq.Group.OffsetStore)
    (req : OffsetFetchRequest) : List (Bytes × List OffsetFetchPartitionResp) × ErrorCode :=
  if notCoord then ([], .notCoordinator)
  else
    ((wanted known req).map fun w => (w.1, w.2.map fun p =>
      match store.fetch ⟨req.groupID, w.1, p⟩ with
      | (offset, metadata, found) => ⟨p, if found then offset else -1, -1,
          if metadata = [] then none else some metadata, .none⟩), .none)

/-- The answer for a partition with this commit. -/
def committedResp (p : ℤ) : Option Mq.Group.Committed → OffsetFetchPartitionResp
  | none => ⟨p, -1, -1, none, .none⟩
  | some c => ⟨p, c.offset, -1, if c.metadata = [] then none else some c.metadata, .none⟩

/-- **A fetch answers with the last commit that was accepted**, for each partition that it asks
for, whatever the groups have done. -/
theorem offsetFetch_run (s : GroupNode) (as : List CommitAction) (known : List (Bytes × ℤ))
    (req : OffsetFetchRequest) :
    offsetFetch false known (run commitStep s as).offsets.store req
      = ((wanted known req).map fun w => (w.1, w.2.map fun p => committedResp p <|
          (Mq.Group.lastCommit ⟨req.groupID, w.1, p⟩
            (Mq.Group.accepted s.offsets (as.flatMap CommitAction.commits))).or
              (s.offsets.store.cache.lookup ⟨req.groupID, w.1, p⟩)), .none) := by
  unfold offsetFetch Mq.Group.OffsetStore.fetch
  simp only [offsets_run, Mq.Group.lookup_run_accepted, Bool.false_eq_true, if_false]
  congr! 5 with w
  funext p
  cases (Mq.Group.lastCommit ⟨req.groupID, w.1, p⟩ _).or _ <;> rfl

/-- The request carries a generation and a member, and the group does not have that member
or is at another generation. -/
def Stale (c : Coordinator) (req : OffsetCommitRequest) : Prop :=
  0 ≤ req.generationID ∧ req.memberID ≠ [] ∧
    ∀ r ∈ c.lookup req.groupID,
      r.group.members.lookup req.memberID = none ∨ req.generationID ≠ r.group.generation

instance (c : Coordinator) (req : OffsetCommitRequest) : Decidable (Stale c req) :=
  inferInstanceAs (Decidable (_ ∧ _ ∧ ∀ r ∈ c.lookup req.groupID, _))

/-- No committed offset changes, and the partitions are answered with an error that says
why. -/
def Fenced (h : Mq.Group.Host) (req : OffsetCommitRequest) : Prop :=
  (∀ k, (offsetCommit false h req).1.store.cache.lookup k = h.store.cache.lookup k) ∧
    ∀ t ∈ (offsetCommit false h req).2, ∀ p ∈ t.partitions,
      p.errorCode = .unknownMemberID ∨ p.errorCode = .illegalGeneration

/-- The request names no partition. -/
def NamesNone (req : OffsetCommitRequest) : Prop := ∀ t ∈ req.topics, t.partitions = []

/-- Only a request that names no partition is fenced. -/
theorem fenced_iff (h : Mq.Group.Host) (req : OffsetCommitRequest) :
    Fenced h req ↔ NamesNone req := by
  constructor
  · rintro ⟨-, hcodes⟩ t ht
    by_contra hne
    obtain ⟨p, hp⟩ := List.exists_mem_of_ne_nil _ hne
    -- the response has an entry for the topic, and in it one for the partition
    obtain ⟨h', ht'⟩ : ∃ h', (commitTopic false req.groupID h' t).2 ∈ (offsetCommit false h req).2 :=
      exists_mem_replies h ht
    obtain ⟨h'', hp'⟩ : ∃ h'', (commitPartition false req.groupID t.name h'' p).2
        ∈ (commitTopic false req.groupID h' t).2.partitions :=
      exists_mem_replies h' hp
    have hcode := hcodes _ ht' _ hp'
    rcases errorCode_offsetCommit ht' hp' with heq | heq <;> rw [heq] at hcode <;>
      exact absurd hcode (by decide)
  · intro hnone
    have hcommits : commitsOf req = [] := by
      refine List.flatMap_eq_nil_iff.mpr fun t ht => ?_
      rw [hnone t ht]
      rfl
    refine ⟨fun k => ?_, fun t ht p hp => ?_⟩
    · rw [offsetCommit_eq, if_neg (by simp), hcommits]
      rfl
    · obtain ⟨h', t', ht', rfl⟩ := exists_of_mem_replies ht
      rw [commitTopic, hnone t' ht'] at hp
      cases hp

/-- **Stale requests are fenced exactly if they name no partition**, in any interleaving of
group operations and commits. -/
theorem stale_commits (h : Mq.Group.Host) (as : List CommitAction) :
    Along commitStep
        (fun s a => ∀ req, a = .commit req → Stale s.groups req → Fenced s.offsets req)
        ⟨∅, h⟩ as ↔
      Along commitStep
        (fun s a => ∀ req, a = .commit req → Stale s.groups req → NamesNone req) ⟨∅, h⟩ as :=
  along_congr fun (s : GroupNode) _ => forall_congr' fun req =>
    forall₂_congr fun _ _ => fenced_iff s.offsets req

/-! ### A late commit -/

/-- A commit of a member of the group `g` for the partition 0 of the topic `t`. -/
def commitOf (member : Bytes) (generation offset : ℤ) : OffsetCommitRequest :=
  ⟨[103], generation, member, [⟨[116], [⟨0, offset, -1, none⟩]⟩]⟩

/-- The member `c-1` of the group `g` is evicted after its session has expired, and `c-2`
joins and commits 12. -/
def takenOver : List CommitAction :=
  [.group [103] (.join ⟨[], [99], [], 1000⟩ [49] 0 []),
    .group [103] (.reap 2000000000 []),
    .group [103] (.join ⟨[], [99], [], 1000⟩ [50] 2000000000 []),
    .commit (commitOf [99, 45, 50] 3 12)]

/-- **A member that has been evicted moves the committed offset back.**  Its commit of 9,
from generation 1, is stored over the 12 that the current member has committed at
generation 3, and is answered without an error. -/
theorem evicted_member_rewinds :
    let s := run commitStep ⟨∅, Mq.Group.emptyHost⟩ takenOver
    let late := commitOf [99, 45, 49] 1 9
    Stale s.groups late ∧ ¬ Stale s.groups (commitOf [99, 45, 50] 3 12) ∧
      ¬ Fenced s.offsets late ∧
      s.offsets.store.fetch ⟨[103], [116], 0⟩ = (12, [], true) ∧
      (offsetCommit false s.offsets late).1.store.fetch ⟨[103], [116], 0⟩ = (9, [], true) ∧
      (offsetCommit false s.offsets late).2 = [⟨[116], [⟨0, .none⟩]⟩] := by
  refine ⟨by decide +kernel, by decide +kernel, fun h => ?_, by decide +kernel, by decide +kernel,
    by decide +kernel⟩
  rw [fenced_iff] at h
  exact absurd (h _ List.mem_cons_self) (by simp)

end Server
end Mq
