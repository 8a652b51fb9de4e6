import Mq.Lib.Transition
import Mq.Object.Index

/-!
# The replicated metadata

`internal/controller/fsm.go` and `command.go`: the topics with their partitions and
the refs of the object backend, changed by one command at a time.

## Main definitions

* `PartitionMeta`, `TopicMeta`, `MetaState` — the metadata.
* `Command`, `MetaState.applyLocked` — the commands and what they do.
* `MetaState.step` — the state after a command.
* `leaderChanges` — how often a run changes the leader of a partition.

## Main results

* `Effect.step` — everything that a command can do.
* `MetaState.load_pruneSegments`, `MetaState.load_commitSegment` — the refs are those of
  an index store.
* `metadata_invariant` — **partitions are only added, epochs count the leader changes**,
  errors change nothing and a command leaves the other partitions alone.
* `partition_count_wraps` — the stored number of partitions has 32 bits.
-/

namespace Mq
namespace Controller

open Word Transition Object

/-! ### State -/

/-- The placement of one partition. -/
structure PartitionMeta where
  replicas : List ℤ
  leader : ℤ
  isr : List ℤ
  leaderEpoch : ℤ
  deriving DecidableEq, Repr

structure TopicMeta where
  partitions : ℤ
  parts : List PartitionMeta
  deriving DecidableEq, Repr

/-- The whole replicated metadata.  The refs are filed under the partition's key, as
the object backend files them. -/
structure MetaState where
  topics : Table Bytes TopicMeta
  segments : IndexStore

/-- What an empty state machine holds. -/
def MetaState.empty : MetaState := ⟨∅, ∅⟩

/-! ### Commands -/

inductive CmdType
  | createTopic
  | createPartitions
  | changeLeader
  | changeISR
  /-- A liveness ping, which is never proposed. -/
  | heartbeat
  | commitSegment
  | pruneSegments
  /-- Any other value of the type's byte. -/
  | unknown (value : UInt8)
  deriving DecidableEq, Repr

/-- One flat command; its type says which fields are read. -/
structure Command where
  type : CmdType
  topic : Bytes := []
  partition : ℤ := 0
  replicas : List (List ℤ) := []
  leader : ℤ := 0
  isr : List ℤ := []
  segment : Option SegmentRef := none
  cutoff : ℤ := 0
  deriving DecidableEq, Repr

/-- The errors of the state machine. -/
inductive Err
  /-- `topic %q already exists` -/
  | topicExists (topic : Bytes)
  /-- `unknown topic %q` -/
  | unknownTopic (topic : Bytes)
  /-- `topic %q has no partition %d` -/
  | noPartition (topic : Bytes) (partition : ℤ)
  /-- `commit segment for %q/%d: nil ref` -/
  | nilRef (topic : Bytes) (partition : ℤ)
  /-- `unknown command type %d` -/
  | unknownType (type : CmdType)
  deriving DecidableEq, Repr

/-- The first replica leads and all are in sync.  Without replicas there is no leader. -/
def partFromReplicas (rs : List ℤ) : PartitionMeta where
  replicas := rs
  leader := rs.head?.getD (-1)
  isr := rs
  leaderEpoch := 0

def partsFromReplicas (replicas : List (List ℤ)) : List PartitionMeta :=
  replicas.map partFromReplicas

namespace MetaState

/-- The committed placement of a partition. -/
def part (s : MetaState) (topic : Bytes) (p : ℤ) : Option PartitionMeta :=
  match s.topics.lookup topic with
  | none => none
  | some t => if p < 0 then none else t.parts[p.toNat]?

/-- The partition that a command addresses, or why there is none. -/
def partition (s : MetaState) (topic : Bytes) (p : ℤ) : Except Err PartitionMeta :=
  match s.topics.lookup topic with
  | none => .error (.unknownTopic topic)
  | some t =>
    if p < 0 then .error (.noPartition topic p)
    else
      match t.parts[p.toNat]? with
      | none => .error (.noPartition topic p)
      | some pm => .ok pm

/-- Write a partition's placement back. -/
def setPartition (s : MetaState) (topic : Bytes) (p : ℤ) (pm : PartitionMeta) : MetaState :=
  match s.topics.lookup topic with
  | none => s
  | some t =>
    { s with topics := s.topics.insert topic { t with parts := t.parts.set p.toNat pm } }

/-- The partitions of a topic, none if there is no such topic. -/
def parts (s : MetaState) (topic : Bytes) : List PartitionMeta :=
  ((s.topics.lookup topic).map (·.parts)).getD []

/-- A topic gets a new list of partitions, and their number. -/
def setParts (s : MetaState) (topic : Bytes) (parts : List PartitionMeta) : MetaState :=
  { s with topics := s.topics.insert topic ⟨wrap32 parts.length, parts⟩ }

def commitSegment (s : MetaState) (k : Bytes) (ref : SegmentRef) : MetaState :=
  { s with segments := s.segments.insert k (s.segments.load k ++ [ref]) }

/-- Keep the refs that end above the cutoff; a partition without refs has no entry. -/
def pruneSegments (s : MetaState) (k : Bytes) (cutoff : ℤ) : MetaState :=
  let kept := (s.segments.load k).filter fun r => cutoff < r.nextOffset
  { s with segments := if kept = [] then s.segments.erase k else s.segments.insert k kept }

/-- Apply one command; an error goes back to the proposer. -/
def applyLocked (s : MetaState) (cmd : Command) : MetaState × Option Err :=
  match cmd.type with
  | .createTopic =>
    match s.topics.lookup cmd.topic with
    | some _ => (s, some (.topicExists cmd.topic))
    | none => (s.setParts cmd.topic (partsFromReplicas cmd.replicas), none)
  | .createPartitions =>
    match s.topics.lookup cmd.topic with
    | none => (s, some (.unknownTopic cmd.topic))
    | some t => (s.setParts cmd.topic (t.parts ++ partsFromReplicas cmd.replicas), none)
  | .changeLeader =>
    match s.partition cmd.topic cmd.partition with
    | .error e => (s, some e)
    | .ok pm =>
      (s.setPartition cmd.topic cmd.partition
        { pm with
          leader := cmd.leader
          isr := cmd.isr
          leaderEpoch := wrap32 (pm.leaderEpoch + 1) }, none)
  | .changeISR =>
    match s.partition cmd.topic cmd.partition with
    | .error e => (s, some e)
    | .ok pm => (s.setPartition cmd.topic cmd.partition { pm with isr := cmd.isr }, none)
  | .commitSegment =>
    match cmd.segment with
    | none => (s, some (.nilRef cmd.topic cmd.partition))
    | some ref => (s.commitSegment (indexKey cmd.topic cmd.partition) ref, none)
  | .pruneSegments => (s.pruneSegments (indexKey cmd.topic cmd.partition) cmd.cutoff, none)
  | .heartbeat | .unknown _ => (s, some (.unknownType cmd.type))

/-- The state after a command. -/
def step (s : MetaState) (cmd : Command) : MetaState := (s.applyLocked cmd).1

/-! ### Reading the state -/

variable {s : MetaState} {topic t : Bytes} {p q : ℤ} {pm : PartitionMeta}

theorem part_eq_parts (s : MetaState) (topic : Bytes) (p : ℤ) :
    s.part topic p = if p < 0 then none else (s.parts topic)[p.toNat]? := by
  rw [part, parts]
  cases s.topics.lookup topic with
  | none => simp
  | some t => rfl

theorem partition_eq_ok (h : s.partition topic p = .ok pm) : s.part topic p = some pm := by
  rw [partition] at h
  rw [part]
  cases hl : s.topics.lookup topic with
  | none => rw [hl] at h; cases h
  | some t =>
    rw [hl] at h
    dsimp only at h ⊢
    split at h
    · cases h
    · next hp =>
      rw [if_neg hp]
      cases hg : t.parts[p.toNat]? with
      | none => rw [hg] at h; cases h
      | some m => rw [hg] at h; cases h; rfl

theorem partition_eq_error {e : Err} (h : s.partition topic p = .error e) :
    s.part topic p = none := by
  rw [partition] at h
  rw [part]
  cases hl : s.topics.lookup topic with
  | none => rfl
  | some t =>
    rw [hl] at h
    dsimp only at h ⊢
    split
    · rfl
    · next hp =>
      rw [if_neg hp] at h
      cases hg : t.parts[p.toNat]? with
      | none => rfl
      | some m => rw [hg] at h; cases h

/-- Writing a partition back changes that partition only. -/
theorem part_setPartition (h : s.part topic p = some pm) (pm' : PartitionMeta) (t : Bytes) (q : ℤ) :
    (s.setPartition topic p pm').part t q
      = if t = topic ∧ q = p then some pm' else s.part t q := by
  rw [part] at h
  rw [setPartition]
  cases hl : s.topics.lookup topic with
  | none => rw [hl] at h; cases h
  | some tm =>
    rw [hl] at h
    dsimp only at h ⊢
    split at h
    · cases h
    · next hp =>
      rw [part, Table.lookup_insert_ite]
      by_cases ht : t = topic
      · subst ht
        rw [if_pos rfl, part, hl]
        dsimp only
        by_cases hq : q < 0
        · rw [if_pos hq, if_pos hq, if_neg (by rintro ⟨-, rfl⟩; exact hp hq)]
        · rw [if_neg hq, if_neg hq, List.getElem?_set]
          by_cases hqp : q = p
          · subst hqp
            have hlt := (List.getElem?_eq_some_iff.mp h).1
            simp [hlt]
          · rw [if_neg (by omega), if_neg (by rintro ⟨-, rfl⟩; exact hqp rfl)]
      · rw [if_neg ht, if_neg (fun h => ht h.1), part]

/-- Adding partitions at the end leaves those that exist. -/
theorem part_setParts_append {new : List PartitionMeta} (h : s.part t q = some pm) :
    (s.setParts topic (s.parts topic ++ new)).part t q = some pm := by
  rw [part_eq_parts] at h ⊢
  split at h
  · cases h
  · next hq =>
    rw [if_neg hq, parts, setParts, Table.lookup_insert_ite]
    by_cases ht : t = topic
    · subst ht
      rw [if_pos rfl]
      exact (List.getElem?_append_left (List.getElem?_eq_some_iff.mp h).1).trans h
    · rw [if_neg ht]; exact h

/-- A partition that was not there before is one of those that were added. -/
theorem mem_of_part_setParts_append {new : List PartitionMeta} (hnone : s.part t q = none)
    (h : (s.setParts topic (s.parts topic ++ new)).part t q = some pm) : pm ∈ new := by
  rw [part_eq_parts] at hnone h
  split at h
  · cases h
  · next hq =>
    rw [if_neg hq] at hnone
    rw [parts, setParts, Table.lookup_insert_ite] at h
    by_cases ht : t = topic
    · subst ht
      rw [if_pos rfl] at h
      have hle := List.getElem?_eq_none_iff.mp hnone
      have hmem : new[q.toNat - (s.parts t).length]? = some pm :=
        (List.getElem?_append_right hle).symm.trans h
      exact List.mem_of_getElem? hmem
    · rw [if_neg ht] at h
      exact absurd (h.symm.trans hnone) (by simp)

/-- The refs after a commit are those of the index store. -/
theorem load_commitSegment (s : MetaState) (k j : Bytes) (ref : SegmentRef) :
    (s.commitSegment k ref).segments.load j = (s.segments.commit k ref).load j := rfl

/-- **The refs after a prune are those of the index store**, which keeps an empty entry
where the state machine deletes it. -/
theorem load_pruneSegments (s : MetaState) (k j : Bytes) (cutoff : ℤ) :
    (s.pruneSegments k cutoff).segments.load j = (s.segments.prune k cutoff).1.load j := by
  have hsame : ((s.segments.load k).filter fun r => ¬ r.nextOffset ≤ cutoff)
      = (s.segments.load k).filter fun r => cutoff < r.nextOffset := by
    simp only [Int.not_le]
  rw [IndexStore.load_prune, hsame, pruneSegments]
  dsimp only
  split
  · next hnil =>
    rw [hnil]
    by_cases hj : j = k
    · rw [if_pos hj, hj, IndexStore.load, AList.lookup_erase]; rfl
    · rw [if_neg hj, IndexStore.load, AList.lookup_erase_ne hj]; rfl
  · rw [IndexStore.load_insert]

end MetaState

/-! ### What a command can do -/

/-- A command that addresses one partition. -/
def Command.Single (c : Command) : Prop :=
  c.type = .changeLeader ∨ c.type = .changeISR ∨ c.type = .commitSegment ∨ c.type = .pruneSegments

instance (c : Command) : Decidable c.Single := by unfold Command.Single; infer_instance

/-- The command changes the leader of this partition. -/
def Command.MovesLeader (c : Command) (topic : Bytes) (p : ℤ) : Prop :=
  c.type = .changeLeader ∧ c.topic = topic ∧ c.partition = p

instance (c : Command) (topic : Bytes) (p : ℤ) : Decidable (c.MovesLeader topic p) := by
  unfold Command.MovesLeader; infer_instance

/-- The states that a command can lead to. -/
inductive Effect (s : MetaState) (c : Command) : MetaState → Prop
  /-- Nothing changes, in particular when there is an error. -/
  | refuse (h : c.type = .changeLeader → s.part c.topic c.partition = none) : Effect s c s
  /-- Partitions are added to the topic. -/
  | grow (h : ¬ c.Single) :
    Effect s c (s.setParts c.topic (s.parts c.topic ++ partsFromReplicas c.replicas))
  /-- The leader and the in-sync replicas of a partition change. -/
  | lead (pm : PartitionMeta) (hpm : s.part c.topic c.partition = some pm)
    (h : c.type = .changeLeader) :
    Effect s c (s.setPartition c.topic c.partition
      { pm with leader := c.leader, isr := c.isr, leaderEpoch := wrap32 (pm.leaderEpoch + 1) })
  /-- The in-sync replicas of a partition change. -/
  | sync (pm : PartitionMeta) (hpm : s.part c.topic c.partition = some pm)
    (h : c.type = .changeISR) :
    Effect s c (s.setPartition c.topic c.partition { pm with isr := c.isr })
  /-- The refs of a partition change. -/
  | refs (segments : IndexStore) (h : c.type = .commitSegment ∨ c.type = .pruneSegments)
    (hload : ∀ k, k ≠ indexKey c.topic c.partition → segments.load k = s.segments.load k) :
    Effect s c { s with segments := segments }

/-- **Every command has one of these effects, and one that returns an error has none.** -/
theorem Effect.step (s : MetaState) (c : Command) :
    Effect s c (s.step c) ∧ ((s.applyLocked c).2 ≠ none → s.step c = s) := by
  rw [MetaState.step, MetaState.applyLocked]
  split
  · next htype =>
    have hnot : ¬ c.Single := by simp [Command.Single, htype]
    cases hl : s.topics.lookup c.topic with
    | some t => exact ⟨.refuse (by simp [htype]), fun _ => rfl⟩
    | none =>
      refine ⟨?_, fun h => absurd rfl h⟩
      have hgrow := Effect.grow (s := s) hnot
      rwa [show s.parts c.topic = [] by rw [MetaState.parts, hl]; rfl, List.nil_append] at hgrow
  · next htype =>
    have hnot : ¬ c.Single := by simp [Command.Single, htype]
    cases hl : s.topics.lookup c.topic with
    | none => exact ⟨.refuse (by simp [htype]), fun _ => rfl⟩
    | some t =>
      refine ⟨?_, fun h => absurd rfl h⟩
      have hgrow := Effect.grow (s := s) hnot
      rwa [show s.parts c.topic = t.parts by rw [MetaState.parts, hl]; rfl] at hgrow
  · next htype =>
    cases hp : s.partition c.topic c.partition with
    | error e => exact ⟨.refuse fun _ => MetaState.partition_eq_error hp, fun _ => rfl⟩
    | ok pm => exact ⟨.lead pm (MetaState.partition_eq_ok hp) htype, fun h => absurd rfl h⟩
  · next htype =>
    cases hp : s.partition c.topic c.partition with
    | error e => exact ⟨.refuse (by simp [htype]), fun _ => rfl⟩
    | ok pm => exact ⟨.sync pm (MetaState.partition_eq_ok hp) htype, fun h => absurd rfl h⟩
  · next htype =>
    cases c.segment with
    | none => exact ⟨.refuse (by simp [htype]), fun _ => rfl⟩
    | some ref =>
      refine ⟨.refs _ (.inl htype) fun k hk => ?_, fun h => absurd rfl h⟩
      exact (IndexStore.load_commit s.segments _ k ref).trans (if_neg hk)
  · next htype =>
    refine ⟨.refs _ (.inr htype) fun k hk => ?_, fun h => absurd rfl h⟩
    refine (s.load_pruneSegments _ k c.cutoff).trans ?_
    rw [IndexStore.load_prune, if_neg hk]
  · next htype => exact ⟨.refuse (by simp [htype]), fun _ => rfl⟩
  · next htype => exact ⟨.refuse (by simp [htype]), fun _ => rfl⟩

namespace Effect

variable {s s' : MetaState} {c : Command} {topic : Bytes} {p : ℤ} {m m' : PartitionMeta}

/-- A partition that exists keeps its replicas.  Its epoch is counted up when its leader
is changed, and otherwise it keeps its leader too. -/
theorem part_of_some (h : Effect s c s') (hm : s.part topic p = some m) :
    ∃ m', s'.part topic p = some m' ∧ m'.replicas = m.replicas ∧
      if c.MovesLeader topic p then m'.leaderEpoch = wrap32 (m.leaderEpoch + 1)
      else m'.leaderEpoch = m.leaderEpoch ∧ m'.leader = m.leader := by
  cases h with
  | refuse hnone =>
    refine ⟨m, hm, rfl, ?_⟩
    rw [if_neg]
    · exact ⟨rfl, rfl⟩
    · rintro ⟨htype, rfl, rfl⟩
      rw [hnone htype] at hm
      cases hm
  | grow hnot =>
    refine ⟨m, MetaState.part_setParts_append hm, rfl, ?_⟩
    rw [if_neg fun hmoves => hnot (.inl hmoves.1)]
    exact ⟨rfl, rfl⟩
  | lead pm hpm htype =>
    rw [MetaState.part_setPartition hpm]
    by_cases hsame : topic = c.topic ∧ p = c.partition
    · obtain ⟨rfl, rfl⟩ := hsame
      cases hpm.symm.trans hm
      refine ⟨_, if_pos ⟨rfl, rfl⟩, rfl, ?_⟩
      rw [if_pos ⟨htype, rfl, rfl⟩]
    · refine ⟨m, (if_neg hsame).trans hm, rfl, ?_⟩
      rw [if_neg fun hmoves => hsame ⟨hmoves.2.1.symm, hmoves.2.2.symm⟩]
      exact ⟨rfl, rfl⟩
  | sync pm hpm htype =>
    have hnot : ¬ c.MovesLeader topic p := by
      rintro ⟨hlead, -⟩
      rw [htype] at hlead
      cases hlead
    simp only [MetaState.part_setPartition hpm, if_neg hnot]
    by_cases hsame : topic = c.topic ∧ p = c.partition
    · obtain ⟨rfl, rfl⟩ := hsame
      cases hpm.symm.trans hm
      exact ⟨_, if_pos ⟨rfl, rfl⟩, rfl, rfl, rfl⟩
    · exact ⟨m, (if_neg hsame).trans hm, rfl, rfl, rfl⟩
  | refs segments htype hload =>
    refine ⟨m, hm, rfl, ?_⟩
    rw [if_neg]
    · exact ⟨rfl, rfl⟩
    · rintro ⟨hlead, -⟩
      rw [hlead] at htype
      rcases htype with htype | htype <;> cases htype

/-- A partition that did not exist is made from one of the command's replica sets. -/
theorem part_of_none (h : Effect s c s') (hnone : s.part topic p = none)
    (hm : s'.part topic p = some m) : m ∈ partsFromReplicas c.replicas := by
  cases h with
  | refuse => exact absurd (hnone.symm.trans hm) (by simp)
  | grow => exact MetaState.mem_of_part_setParts_append hnone hm
  | lead pm hpm | sync pm hpm =>
    rw [MetaState.part_setPartition hpm] at hm
    split at hm
    · next hsame =>
      obtain ⟨rfl, rfl⟩ := hsame
      exact absurd (hnone.symm.trans hpm) (by simp)
    · exact absurd (hnone.symm.trans hm) (by simp)
  | refs => exact absurd (hnone.symm.trans hm) (by simp)

/-- A command for one partition leaves every other one alone, and a command for a topic
leaves the partitions that exist and all refs. -/
theorem frame (h : Effect s c s') :
    (c.Single → ∀ topic p, ¬ (topic = c.topic ∧ p = c.partition) →
      s'.part topic p = s.part topic p ∧
        s'.segments.load (indexKey topic p) = s.segments.load (indexKey topic p)) ∧
    (¬ c.Single → s'.segments = s.segments ∧
      ∀ topic p m, s.part topic p = some m → s'.part topic p = some m) := by
  cases h with
  | refuse => exact ⟨fun _ _ _ _ => ⟨rfl, rfl⟩, fun _ => ⟨rfl, fun _ _ _ hm => hm⟩⟩
  | grow hnot =>
    refine ⟨fun hsingle => absurd hsingle hnot, fun _ => ⟨rfl, fun topic p m hm => ?_⟩⟩
    exact MetaState.part_setParts_append hm
  | lead pm hpm htype | sync pm hpm htype =>
    have hsegs : ∀ pm', (s.setPartition c.topic c.partition pm').segments = s.segments := by
      intro pm'
      rw [MetaState.setPartition]
      split <;> rfl
    refine ⟨fun _ topic p hne => ?_, fun hnot => absurd ?_ hnot⟩
    · rw [MetaState.part_setPartition hpm, if_neg hne, hsegs]
      exact ⟨rfl, rfl⟩
    · simp [Command.Single, htype]
  | refs segments htype hload =>
    refine ⟨fun _ topic p hne => ⟨rfl, hload _ ?_⟩, fun hnot => absurd (.inr (.inr htype)) hnot⟩
    intro heq
    exact hne (indexKey_inj heq)

end Effect

/-! ### Runs of commands -/

/-- How often a run of commands changes the leader of a partition. -/
def leaderChanges (topic : Bytes) (p : ℤ) (s : MetaState) (cs : List Command) : ℕ :=
  tally MetaState.step (fun s c => c.MovesLeader topic p ∧ (s.part topic p).isSome) s cs

theorem leaderChanges_cons (topic : Bytes) (p : ℤ) (s : MetaState) (c : Command)
    (cs : List Command) :
    leaderChanges topic p s (c :: cs)
      = (if c.MovesLeader topic p ∧ (s.part topic p).isSome then 1 else 0)
        + leaderChanges topic p (s.step c) cs := rfl

theorem leaderChanges_append (topic : Bytes) (p : ℤ) (s : MetaState) (cs ds : List Command) :
    leaderChanges topic p s (cs ++ ds)
      = leaderChanges topic p s cs + leaderChanges topic p (run MetaState.step s cs) ds :=
  tally_append s cs ds

section runs

variable {topic : Bytes} {p : ℤ} {m : PartitionMeta}

/-- A partition that exists stays, with its replicas. -/
theorem exists_part_run {s : MetaState} (cs : List Command) (hm : s.part topic p = some m) :
    ∃ m', (run MetaState.step s cs).part topic p = some m' ∧ m'.replicas = m.replicas := by
  induction cs generalizing s m with
  | nil => exact ⟨m, hm, rfl⟩
  | cons c cs ih =>
    obtain ⟨m₁, hm₁, hreplicas, -⟩ := (Effect.step s c).1.part_of_some hm
    obtain ⟨m', hm', hrest⟩ := ih hm₁
    exact ⟨m', hm', hrest.trans hreplicas⟩

/-- From a state in which the partition exists, the epoch counts the leader changes, and
without one the leader stays. -/
theorem part_run {s : MetaState} {cs : List Command} (hm : s.part topic p = some m)
    (hnonneg : 0 ≤ m.leaderEpoch)
    (hbound : m.leaderEpoch + leaderChanges topic p s cs < 2 ^ 31) :
    ∃ m', (run MetaState.step s cs).part topic p = some m' ∧
      m'.leaderEpoch = m.leaderEpoch + leaderChanges topic p s cs ∧
      (leaderChanges topic p s cs = 0 → m'.leader = m.leader) := by
  induction cs generalizing s m with
  | nil => exact ⟨m, hm, (Int.add_zero _).symm, fun _ => rfl⟩
  | cons c cs ih =>
    obtain ⟨m₁, hm₁, -, hepoch⟩ := (Effect.step s c).1.part_of_some hm
    rw [leaderChanges_cons, hm] at hbound ⊢
    by_cases hmoves : c.MovesLeader topic p
    · rw [if_pos hmoves] at hepoch
      rw [if_pos ⟨hmoves, rfl⟩] at hbound ⊢
      rw [wrap32_eq (by omega) (by omega)] at hepoch
      obtain ⟨m', hm', hcount, -⟩ := ih hm₁ (by omega) (by omega)
      exact ⟨m', hm', by omega, fun hzero => by omega⟩
    · rw [if_neg hmoves] at hepoch
      rw [if_neg fun h => hmoves h.1] at hbound ⊢
      obtain ⟨m', hm', hcount, hlead⟩ := ih hm₁ (by omega) (by omega)
      refine ⟨m', hm', by omega, fun hzero => ?_⟩
      exact (hlead (by omega)).trans hepoch.2

/-- The epoch of a partition, zero as long as it does not exist. -/
def epochOf (s : MetaState) (topic : Bytes) (p : ℤ) : ℤ :=
  ((s.part topic p).map (·.leaderEpoch)).getD 0

/-- **In a run from the empty state the epoch of a partition is the number of its leader
changes.** -/
theorem epochOf_run {cs : List Command} (hbound : leaderChanges topic p .empty cs < 2 ^ 31) :
    epochOf (run MetaState.step .empty cs) topic p = leaderChanges topic p .empty cs := by
  induction cs using List.reverseRecOn with
  | nil => rfl
  | append_singleton cs c ih =>
    rw [leaderChanges_append] at hbound ⊢
    rw [run_snoc]
    have heffect := (Effect.step (run MetaState.step .empty cs) c).1
    rw [leaderChanges_cons, show ∀ s, leaderChanges topic p s [] = 0 from fun _ => rfl,
      Nat.add_zero] at hbound ⊢
    have hih := ih (by omega)
    cases hbefore : (run MetaState.step .empty cs).part topic p with
    | none =>
      rw [epochOf, hbefore] at hih
      rw [if_neg (by simp), Nat.add_zero, ← hih, epochOf]
      cases hm : ((run MetaState.step .empty cs).step c).part topic p with
      | none => rfl
      | some m =>
        obtain ⟨rs, -, rfl⟩ := List.mem_map.mp (heffect.part_of_none hbefore hm)
        rfl
    | some m₀ =>
      rw [epochOf, hbefore] at hih
      obtain ⟨m₁, hm₁, -, hepoch⟩ := heffect.part_of_some hbefore
      rw [epochOf, hm₁]
      rw [hbefore] at hbound
      have hm₀ : m₀.leaderEpoch = leaderChanges topic p .empty cs := hih
      show m₁.leaderEpoch = _
      by_cases hmoves : c.MovesLeader topic p
      · rw [if_pos hmoves] at hepoch
        rw [if_pos ⟨hmoves, rfl⟩] at hbound ⊢
        rw [hepoch, hm₀, wrap32_eq (by omega) (by omega)]
        rfl
      · rw [if_neg hmoves] at hepoch
        rw [if_neg fun h => hmoves h.1, hepoch.1, hm₀]
        rfl

end runs

/-- Every topic stores the number of its partitions, in 32 bits. -/
def MetaState.Counted (s : MetaState) : Prop :=
  ∀ topic t, s.topics.lookup topic = some t → t.partitions = wrap32 t.parts.length

theorem MetaState.Counted.step {s : MetaState} (h : s.Counted) (c : Command) :
    (s.step c).Counted := by
  have hset : ∀ topic p pm, (s.setPartition topic p pm).Counted := by
    intro topic p pm
    rw [MetaState.setPartition]
    split
    · exact h
    · next tm htm =>
      refine Table.forall_lookup_insert ?_ fun t' tm' _ hl => h t' tm' hl
      rw [List.length_set]
      exact h topic tm htm
  have heffect := (Effect.step s c).1
  generalize s.step c = s' at heffect
  cases heffect with
  | refuse => exact h
  | grow => exact Table.forall_lookup_insert rfl fun t' tm' _ hl => h t' tm' hl
  | lead | sync => exact hset _ _ _
  | refs => exact h

/-- What one command of a run does. -/
structure StepOk (s : MetaState) (c : Command) : Prop where
  error : (s.applyLocked c).2 ≠ none → s.step c = s
  epoch : ∀ topic p m, s.part topic p = some m → ∃ m', (s.step c).part topic p = some m' ∧
    m'.leaderEpoch = if c.MovesLeader topic p then m.leaderEpoch + 1 else m.leaderEpoch
  single : c.Single → ∀ topic p, ¬ (topic = c.topic ∧ p = c.partition) →
    (s.step c).part topic p = s.part topic p ∧
      (s.step c).segments.load (indexKey topic p) = s.segments.load (indexKey topic p)
  grow : ¬ c.Single → (s.step c).segments = s.segments ∧
    ∀ topic p m, s.part topic p = some m → (s.step c).part topic p = some m

/-- How two states of a run are related, the earlier one first. -/
structure Extends (s₁ s₂ : MetaState) : Prop where
  replicas : ∀ topic, (s₁.parts topic).map (·.replicas) <+: (s₂.parts topic).map (·.replicas)
  epoch : ∀ topic p m₁ m₂, s₁.part topic p = some m₁ → s₂.part topic p = some m₂ →
    m₁.leaderEpoch ≤ m₂.leaderEpoch ∧ (m₁.leaderEpoch = m₂.leaderEpoch → m₁.leader = m₂.leader)

variable {early : List Command}

/-- The epoch at any point of a run is the number of leader changes so far. -/
theorem leaderEpoch_of_append {late : List Command} {topic : Bytes} {p : ℤ} {m : PartitionMeta}
    (hbound : leaderChanges topic p .empty (early ++ late) < 2 ^ 31)
    (hm : (run MetaState.step .empty early).part topic p = some m) :
    0 ≤ m.leaderEpoch ∧
      m.leaderEpoch + leaderChanges topic p (run MetaState.step .empty early) late < 2 ^ 31 := by
  rw [leaderChanges_append] at hbound
  have hearly : leaderChanges topic p .empty early < 2 ^ 31 := by omega
  have hepoch := epochOf_run hearly
  rw [epochOf, hm] at hepoch
  have hepoch' : m.leaderEpoch = leaderChanges topic p .empty early := hepoch
  omega

/-- The epoch of a partition does not wrap around in a run with few leader changes. -/
theorem stepOk_of_split {late : List Command} {c : Command}
    (hbound : ∀ topic p, leaderChanges topic p .empty (early ++ c :: late) < 2 ^ 31) :
    StepOk (run MetaState.step .empty early) c := by
  obtain ⟨heffect, herror⟩ := Effect.step (run MetaState.step .empty early) c
  refine ⟨herror, ?_, heffect.frame.1, heffect.frame.2⟩
  intro topic p m hm
  obtain ⟨m', hm', -, hepoch⟩ := heffect.part_of_some hm
  obtain ⟨hnonneg, hlt⟩ := leaderEpoch_of_append (hbound topic p) hm
  rw [leaderChanges_cons, hm] at hlt
  refine ⟨m', hm', ?_⟩
  by_cases hmoves : c.MovesLeader topic p
  · rw [if_pos hmoves] at hepoch ⊢
    rw [if_pos ⟨hmoves, rfl⟩] at hlt
    rw [hepoch, wrap32_eq (by omega) (by omega)]
  · rw [if_neg hmoves] at hepoch ⊢
    exact hepoch.1

theorem extends_of_split {mid : List Command}
    (hbound : ∀ topic p, leaderChanges topic p .empty (early ++ mid) < 2 ^ 31) :
    Extends (run MetaState.step .empty early) (run MetaState.step .empty (early ++ mid)) := by
  rw [run_append]
  constructor
  · intro topic
    apply List.prefix_iff_getElem?.mpr
    intro i hi
    rw [List.length_map] at hi
    have hm : (run MetaState.step .empty early).part topic i
        = some ((run MetaState.step .empty early).parts topic)[i] := by
      rw [MetaState.part_eq_parts, if_neg (by omega)]
      exact List.getElem?_eq_getElem hi
    obtain ⟨m', hm', hreplicas⟩ := exists_part_run mid hm
    rw [MetaState.part_eq_parts, if_neg (by omega), Int.toNat_natCast] at hm'
    rw [List.getElem?_map, hm', List.getElem_map]
    exact congrArg some hreplicas
  · intro topic p m₁ m₂ hm₁ hm₂
    obtain ⟨hnonneg, hlt⟩ := leaderEpoch_of_append (hbound topic p) hm₁
    obtain ⟨m', hm', hcount, hlead⟩ := part_run hm₁ hnonneg hlt
    cases hm'.symm.trans hm₂
    exact ⟨by omega, fun heq => (hlead (by omega)).symm⟩

/-- **The metadata over a run of commands.**  Every topic stores the number of its
partitions as a 32-bit number.  A command that returns an error changes nothing, counts
an epoch up exactly when it changes that partition's leader, and leaves alone what it
does not address.  Later states have the partitions of earlier ones with the same
replicas, and an epoch stands for one leader. -/
theorem metadata_invariant (cmds : List Command)
    (hbound : ∀ topic p, leaderChanges topic p .empty cmds < 2 ^ 31) :
    Always MetaState.step MetaState.Counted .empty cmds ∧
      Along MetaState.step StepOk .empty cmds ∧
      ∀ early mid late, cmds = early ++ mid ++ late →
        Extends (run MetaState.step .empty early) (run MetaState.step .empty (early ++ mid)) := by
  refine ⟨?_, ?_, ?_⟩
  · have htrue : Along MetaState.step (fun _ _ => True) .empty cmds :=
      along_of_forall (D := fun _ => True) fun _ _ => trivial
    refine htrue.always ?_ fun s c hs _ => hs.step c
    intro topic t hl
    cases hl
  · apply along_of_split
    intro early c late heq
    exact stepOk_of_split fun topic p => heq ▸ hbound topic p
  · intro early mid late heq
    apply extends_of_split
    intro topic p
    have hall := hbound topic p
    rw [heq, leaderChanges_append] at hall
    omega

/-- A topic with two partitions, one of which changes its leader twice. -/
def movedLeader : List Command :=
  [{ type := .createTopic, topic := [116], replicas := [[0, 1, 2], [1, 2, 0]] },
    { type := .changeLeader, topic := [116], partition := 0, leader := 1, isr := [1, 2] },
    { type := .changeISR, topic := [116], partition := 0, isr := [1] },
    { type := .createPartitions, topic := [116], replicas := [[2]] },
    { type := .changeLeader, topic := [116], partition := 0, leader := 2, isr := [2] }]

theorem metadata_invariant_moved :
    Always MetaState.step MetaState.Counted .empty movedLeader ∧
      Along MetaState.step StepOk .empty movedLeader ∧
      Extends (run MetaState.step .empty (movedLeader.take 1))
        (run MetaState.step .empty (movedLeader.take 1 ++ movedLeader.drop 1)) := by
  have hbound : ∀ topic p, leaderChanges topic p .empty movedLeader < 2 ^ 31 := fun topic p =>
    lt_of_le_of_lt (tally_le_length _ movedLeader) (by decide)
  have h := metadata_invariant movedLeader hbound
  exact ⟨h.1, h.2.1, h.2.2 _ _ [] (by decide)⟩

/-- A topic of `2 ^ 31` partitions without replicas. -/
def hugeTopic : Command :=
  { type := .createTopic, topic := [116], replicas := List.replicate (2 ^ 31) [] }

/-- Its stored number of partitions is negative. -/
theorem partition_count_wraps :
    ∃ t, (MetaState.empty.step hugeTopic).topics.lookup [116] = some t ∧
      t.parts.length = 2 ^ 31 ∧ t.partitions = -2 ^ 31 := by
  refine ⟨_, AList.lookup_insert _, ?_, ?_⟩
  · show (partsFromReplicas (List.replicate (2 ^ 31) [])).length = 2 ^ 31
    rw [partsFromReplicas, List.length_map, List.length_replicate]
  · show wrap32 (partsFromReplicas (List.replicate (2 ^ 31) [])).length = -2 ^ 31
    rw [partsFromReplicas, List.length_map, List.length_replicate]
    decide

end Controller
end Mq
