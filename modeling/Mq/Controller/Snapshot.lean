import Mq.Controller.Fsm
import Mq.Lib.Json

/-!
# Snapshots of the metadata

`Snapshot` and `Restore` of `internal/controller/fsm.go`: the whole state is written as one
JSON document, and a new state machine starts from it.  The lists of node ids are made by
appending to nil, so an empty one is written as `null`; a table without refs is left out.

A restored state holds the same as the original, entry by entry, though its tables are
built in another order.  That is a simulation: every command has the same outcome on both
and leaves them alike.

## Main definitions

* `MetaState.snapshot`, `MetaState.restore` — the two functions.
* `MetaState.hasTopic` and the other reading functions.
* `MetaState.Same` — the states hold the same.
* `MetaState.SameAnswers` — the reading functions cannot tell the states apart.

## Main results

* `MetaState.Same.applyLocked` — **a command does the same to states that hold the same.**
* `MetaState.restore_snapshot` — a state whose strings are valid comes back.
* `snapshot_transparent` — **a restored state machine goes on like the original.**
-/

namespace Mq
namespace Controller

open Word Transition Object Json

/-! ### Reading functions -/

namespace MetaState

def hasTopic (s : MetaState) (name : Bytes) : Bool := (s.topics.lookup name).isSome

/-- The leader and its epoch. -/
def partitionLeader (s : MetaState) (topic : Bytes) (p : ℤ) : Option (ℤ × ℤ) :=
  (s.part topic p).map fun pm => (pm.leader, pm.leaderEpoch)

/-- The number of partitions that is kept with a topic. -/
def partitions (s : MetaState) (topic : Bytes) : Option ℤ :=
  (s.topics.lookup topic).map (·.partitions)

/-- All topics, sorted by name. -/
def topicViews (s : MetaState) : List (Bytes × TopicMeta) := s.topics.listing (· ≤ ·)

/-- The refs of a partition. -/
def segmentsOf (s : MetaState) (topic : Bytes) (p : ℤ) : List SegmentRef :=
  s.segments.load (indexKey topic p)

def segmentReferenced (s : MetaState) (key : Bytes) : Bool := s.segments.referenced key

end MetaState

/-! ### The document -/

/-- `replicas` -/
def replicasName : Bytes := [114, 101, 112, 108, 105, 99, 97, 115]

/-- `leader` -/
def leaderName : Bytes := [108, 101, 97, 100, 101, 114]

/-- `isr` -/
def isrName : Bytes := [105, 115, 114]

/-- `epoch` -/
def epochName : Bytes := [101, 112, 111, 99, 104]

/-- `partitions` -/
def partitionsName : Bytes := [112, 97, 114, 116, 105, 116, 105, 111, 110, 115]

/-- `parts` -/
def partsName : Bytes := [112, 97, 114, 116, 115]

/-- `topics` -/
def topicsName : Bytes := [116, 111, 112, 105, 99, 115]

/-- `segments` -/
def segmentsName : Bytes := [115, 101, 103, 109, 101, 110, 116, 115]

/-- `Key` -/
def keyName : Bytes := [75, 101, 121]

/-- `BaseOffset` -/
def baseOffsetName : Bytes := [66, 97, 115, 101, 79, 102, 102, 115, 101, 116]

/-- `NextOffset` -/
def nextOffsetName : Bytes := [78, 101, 120, 116, 79, 102, 102, 115, 101, 116]

/-- `Position` -/
def positionName : Bytes := [80, 111, 115, 105, 116, 105, 111, 110]

/-- `Length` -/
def lengthName : Bytes := [76, 101, 110, 103, 116, 104]

/-- `UploadedMs` -/
def uploadedMsName : Bytes := [85, 112, 108, 111, 97, 100, 101, 100, 77, 115]

/-- The lists of node ids are nil if they are empty. -/
def partCodec : Codec PartitionMeta where
  marshal pm := .obj [(replicasName, Codec.int.nilSlice.marshal pm.replicas),
    (leaderName, Codec.int.marshal pm.leader), (isrName, Codec.int.nilSlice.marshal pm.isr),
    (epochName, Codec.int.marshal pm.leaderEpoch)]
  unmarshal v := do
    let fs ← v.fields
    let replicas ← Codec.int.nilSlice.field fs replicasName
    let leader ← Codec.int.field fs leaderName
    let isr ← Codec.int.nilSlice.field fs isrName
    let leaderEpoch ← Codec.int.field fs epochName
    pure ⟨replicas, leader, isr, leaderEpoch⟩

/-- The list of partitions is made with its length and is not nil. -/
def topicCodec : Codec TopicMeta where
  marshal t := .obj [(partitionsName, Codec.int.marshal t.partitions),
    (partsName, partCodec.slice.marshal t.parts)]
  unmarshal v := do
    let fs ← v.fields
    let partitions ← Codec.int.field fs partitionsName
    let parts ← partCodec.slice.field fs partsName
    pure ⟨partitions, parts⟩

def refCodec (text : Text) : Codec SegmentRef where
  marshal r := .obj [(keyName, (Codec.string text).marshal r.key),
    (baseOffsetName, Codec.int.marshal r.baseOffset),
    (nextOffsetName, Codec.int.marshal r.nextOffset),
    (positionName, Codec.int.marshal r.position), (lengthName, Codec.int.marshal r.length),
    (uploadedMsName, Codec.int.marshal r.uploadedMs)]
  unmarshal v := do
    let fs ← v.fields
    let key ← (Codec.string text).field fs keyName
    let baseOffset ← Codec.int.field fs baseOffsetName
    let nextOffset ← Codec.int.field fs nextOffsetName
    let position ← Codec.int.field fs positionName
    let length ← Codec.int.field fs lengthName
    let uploadedMs ← Codec.int.field fs uploadedMsName
    pure ⟨key, baseOffset, nextOffset, position, length, uploadedMs⟩

/-- The table of topics and the table of refs. -/
def topicsCodec (text : Text) : Codec (Table Bytes TopicMeta) := Codec.map text topicCodec

def segmentsCodec (text : Text) : Codec IndexStore := Codec.map text (refCodec text).slice

namespace MetaState

/-- The document of a state.  A table without refs is left out. -/
def snapshot (text : Text) (s : MetaState) : Value :=
  .obj ((topicsName, (topicsCodec text).marshal s.topics) ::
    if s.segments.keys = [] then []
    else [(segmentsName, (segmentsCodec text).marshal s.segments)])

/-- The state of a document.  A table that is missing is empty. -/
def restore (text : Text) (v : Value) : Option MetaState := do
  let fs ← v.fields
  let topics ← (topicsCodec text).field fs topicsName
  let segments ← (segmentsCodec text).field fs segmentsName
  pure ⟨topics, segments⟩

/-! ### States that hold the same -/

/-- The tables have the same entries. -/
structure Same (s s' : MetaState) : Prop where
  topics : ∀ topic, s'.topics.lookup topic = s.topics.lookup topic
  segments : ∀ k, s'.segments.lookup k = s.segments.lookup k

namespace Same

variable {s s' : MetaState} (h : Same s s')
include h

theorem load (k : Bytes) : s'.segments.load k = s.segments.load k := by
  rw [IndexStore.load, IndexStore.load, h.segments]

theorem partition (topic : Bytes) (p : ℤ) : s'.partition topic p = s.partition topic p := by
  rw [MetaState.partition, MetaState.partition, h.topics]

theorem setParts (topic : Bytes) (parts : List PartitionMeta) :
    Same (s.setParts topic parts) (s'.setParts topic parts) := by
  refine ⟨fun t => ?_, h.segments⟩
  unfold MetaState.setParts
  dsimp only
  rw [Table.lookup_insert_ite, Table.lookup_insert_ite, h.topics]

theorem setPartition (topic : Bytes) (p : ℤ) (pm : PartitionMeta) :
    Same (s.setPartition topic p pm) (s'.setPartition topic p pm) := by
  unfold MetaState.setPartition
  rw [h.topics]
  cases s.topics.lookup topic with
  | none => exact h
  | some t =>
    refine ⟨fun t' => ?_, h.segments⟩
    dsimp only
    rw [Table.lookup_insert_ite, Table.lookup_insert_ite, h.topics]

theorem commitSegment (k : Bytes) (ref : SegmentRef) :
    Same (s.commitSegment k ref) (s'.commitSegment k ref) := by
  refine ⟨h.topics, fun j => ?_⟩
  unfold MetaState.commitSegment
  dsimp only
  rw [Table.lookup_insert_ite, Table.lookup_insert_ite, h.segments, h.load]

/-- Also where the last ref goes and the entry with it. -/
theorem pruneSegments (k : Bytes) (cutoff : ℤ) :
    Same (s.pruneSegments k cutoff) (s'.pruneSegments k cutoff) := by
  refine ⟨h.topics, fun j => ?_⟩
  unfold MetaState.pruneSegments
  dsimp only
  rw [h.load]
  split
  · rw [Table.lookup_erase_ite, Table.lookup_erase_ite, h.segments]
  · rw [Table.lookup_insert_ite, Table.lookup_insert_ite, h.segments]

/-- **A command does the same to states that hold the same.** -/
theorem applyLocked (cmd : Command) :
    Same (s.applyLocked cmd).1 (s'.applyLocked cmd).1 ∧
      (s'.applyLocked cmd).2 = (s.applyLocked cmd).2 := by
  unfold MetaState.applyLocked
  rw [h.topics, h.partition]
  cases cmd.type with
  | createTopic =>
    cases s.topics.lookup cmd.topic with
    | some t => exact ⟨h, rfl⟩
    | none => exact ⟨h.setParts _ _, rfl⟩
  | createPartitions =>
    cases s.topics.lookup cmd.topic with
    | some t => exact ⟨h.setParts _ _, rfl⟩
    | none => exact ⟨h, rfl⟩
  | changeLeader =>
    cases s.partition cmd.topic cmd.partition with
    | error e => exact ⟨h, rfl⟩
    | ok pm => exact ⟨h.setPartition _ _ _, rfl⟩
  | changeISR =>
    cases s.partition cmd.topic cmd.partition with
    | error e => exact ⟨h, rfl⟩
    | ok pm => exact ⟨h.setPartition _ _ _, rfl⟩
  | commitSegment =>
    cases cmd.segment with
    | none => exact ⟨h, rfl⟩
    | some ref => exact ⟨h.commitSegment _ _, rfl⟩
  | pruneSegments => exact ⟨h.pruneSegments _ _, rfl⟩
  | heartbeat => exact ⟨h, rfl⟩
  | unknown _ => exact ⟨h, rfl⟩

/-- **A run does the same to states that hold the same**, command by command. -/
theorem run (cmds : List Command) :
    Same (Transition.run step s cmds) (Transition.run step s' cmds) ∧
      replies MetaState.applyLocked s' cmds = replies MetaState.applyLocked s cmds := by
  induction cmds generalizing s s' with
  | nil => exact ⟨h, rfl⟩
  | cons cmd cmds ih =>
    obtain ⟨hstate, herr⟩ := h.applyLocked cmd
    obtain ⟨hrun, hreplies⟩ := ih hstate
    exact ⟨hrun, by rw [replies, replies, herr, hreplies]⟩

end Same

/-- The reading functions cannot tell the states apart. -/
structure SameAnswers (s s' : MetaState) : Prop where
  hasTopic : ∀ topic, s'.hasTopic topic = s.hasTopic topic
  partitions : ∀ topic, s'.partitions topic = s.partitions topic
  partition : ∀ topic p, s'.part topic p = s.part topic p
  partitionLeader : ∀ topic p, s'.partitionLeader topic p = s.partitionLeader topic p
  topics : s'.topicViews = s.topicViews
  segments : ∀ topic p, s'.segmentsOf topic p = s.segmentsOf topic p
  segmentReferenced : ∀ key, s'.segmentReferenced key = s.segmentReferenced key

theorem Same.sameAnswers {s s' : MetaState} (h : Same s s') : SameAnswers s s' := by
  have hpart : ∀ topic p, s'.part topic p = s.part topic p := by
    intro topic p
    rw [part, part, h.topics]
  refine ⟨fun topic => ?_, fun topic => ?_, hpart, fun topic p => ?_, ?_, fun topic p => h.load _,
    fun key => ?_⟩
  · rw [hasTopic, hasTopic, h.topics]
  · rw [partitions, partitions, h.topics]
  · rw [partitionLeader, partitionLeader, hpart]
  · exact (Table.listing_eq_iff _).mpr h.topics
  · rw [segmentReferenced, segmentReferenced, Bool.eq_iff_iff, IndexStore.referenced_iff,
      IndexStore.referenced_iff]
    simp only [h.load]

end MetaState

/-! ### Valid strings -/

/-- The strings of a command are valid. -/
def Command.Utf8 (c : Command) : Prop := Json.Utf8 c.topic ∧ ∀ ref ∈ c.segment, Json.Utf8 ref.key

theorem utf8_itoa (z : ℤ) : Json.Utf8 (itoa z) := by
  refine utf8_of_lt fun x hx => ?_
  have hdigit : ∀ {n : ℕ}, x ∈ decimal n → x.toNat < 128 :=
    fun h => (allDigits_decimal _ x h).2.trans_lt (by omega)
  rw [itoa] at hx
  split at hx
  · rcases List.mem_cons.mp hx with rfl | hx
    · decide
    · exact hdigit hx
  · exact hdigit hx

theorem utf8_indexKey {topic : Bytes} (h : Json.Utf8 topic) (p : ℤ) :
    Json.Utf8 (indexKey topic p) :=
  (h.append (utf8_of_lt (by simp))).append (utf8_itoa p)

namespace MetaState

/-- The strings of a state are valid. -/
structure Utf8 (s : MetaState) : Prop where
  topics : ∀ topic t, s.topics.lookup topic = some t → Json.Utf8 topic
  segments : ∀ k refs, s.segments.lookup k = some refs →
    Json.Utf8 k ∧ ∀ r ∈ refs, Json.Utf8 r.key

namespace Utf8

variable {s : MetaState} (h : s.Utf8)

theorem empty : MetaState.empty.Utf8 :=
  ⟨fun _ _ h => absurd h (by simp [MetaState.empty]),
    fun _ _ h => absurd h (by simp [MetaState.empty])⟩

include h

theorem insert_topic {topic : Bytes} (htopic : Json.Utf8 topic) (t : TopicMeta) :
    Utf8 { s with topics := s.topics.insert topic t } :=
  ⟨Table.forall_lookup_insert htopic fun topic' t' _ ht' => h.topics topic' t' ht', h.segments⟩

theorem setPartition {topic : Bytes} (htopic : Json.Utf8 topic) (p : ℤ) (pm : PartitionMeta) :
    (s.setPartition topic p pm).Utf8 := by
  unfold MetaState.setPartition
  split
  · exact h
  · exact h.insert_topic htopic _

theorem of_mem_load {k : Bytes} {r : SegmentRef} (hr : r ∈ s.segments.load k) :
    Json.Utf8 r.key := by
  cases hrefs : s.segments.lookup k with
  | none => rw [IndexStore.load, hrefs] at hr; cases hr
  | some refs =>
    rw [IndexStore.load, hrefs] at hr
    exact (h.segments k refs hrefs).2 r hr

theorem insert_refs {k : Bytes} (hk : Json.Utf8 k) {refs : List SegmentRef}
    (hrefs : ∀ r ∈ refs, Json.Utf8 r.key) :
    Utf8 { s with segments := s.segments.insert k refs } :=
  ⟨h.topics, Table.forall_lookup_insert ⟨hk, hrefs⟩ fun k' refs' _ h' => h.segments k' refs' h'⟩

theorem pruneSegments {k : Bytes} (hk : Json.Utf8 k) (cutoff : ℤ) :
    (s.pruneSegments k cutoff).Utf8 := by
  unfold MetaState.pruneSegments
  dsimp only
  split
  · refine ⟨h.topics, fun k' refs' h' => ?_⟩
    dsimp only at h'
    rw [Table.lookup_erase_ite] at h'
    split at h'
    · cases h'
    · exact h.segments k' refs' h'
  · exact h.insert_refs hk fun r hr => h.of_mem_load (List.mem_filter.mp hr).1

/-- A command with valid strings leaves valid strings. -/
theorem step {cmd : Command} (hcmd : cmd.Utf8) : (s.step cmd).Utf8 := by
  rw [MetaState.step, MetaState.applyLocked]
  split
  · split
    · exact h
    · exact h.insert_topic hcmd.1 _
  · split
    · exact h
    · exact h.insert_topic hcmd.1 _
  · split
    · exact h
    · exact h.setPartition hcmd.1 _ _
  · split
    · exact h
    · exact h.setPartition hcmd.1 _ _
  · split
    · exact h
    · next ref href =>
      refine h.insert_refs (utf8_indexKey hcmd.1 _) fun r hr => ?_
      rcases List.mem_append.mp hr with hr | hr
      · exact h.of_mem_load hr
      · rw [List.mem_singleton.mp hr]
        exact hcmd.2 ref href
  · exact h.pruneSegments (utf8_indexKey hcmd.1 _) _
  · exact h
  · exact h

theorem run {cmds : List Command} (hcmds : ∀ c ∈ cmds, c.Utf8) :
    (Transition.run MetaState.step s cmds).Utf8 := by
  induction cmds generalizing s with
  | nil => exact h
  | cons c cmds ih =>
    exact ih (h.step (hcmds c List.mem_cons_self)) fun d hd => hcmds d (List.mem_cons_of_mem c hd)

end Utf8

end MetaState

/-! ### Restoring -/

theorem keeps_partCodec (pm : PartitionMeta) : partCodec.Keeps pm := by
  have hints : ∀ xs : List ℤ, Codec.int.nilSlice.unmarshal (Codec.int.nilSlice.marshal xs) = some xs :=
    fun xs => Codec.keeps_nilSlice fun z _ => Codec.keeps_int z
  change (do
    let replicas ← Codec.int.nilSlice.unmarshal (Codec.int.nilSlice.marshal pm.replicas)
    let isr ← Codec.int.nilSlice.unmarshal (Codec.int.nilSlice.marshal pm.isr)
    pure (⟨replicas, pm.leader, isr, pm.leaderEpoch⟩ : PartitionMeta)) = some pm
  rw [hints, hints]
  rfl

theorem keeps_topicCodec (t : TopicMeta) : topicCodec.Keeps t := by
  have hparts : partCodec.slice.unmarshal (partCodec.slice.marshal t.parts) = some t.parts :=
    Codec.keeps_slice fun pm _ => keeps_partCodec pm
  change (do
    let parts ← partCodec.slice.unmarshal (partCodec.slice.marshal t.parts)
    pure (⟨t.partitions, parts⟩ : TopicMeta)) = some t
  rw [hparts]
  rfl

theorem keeps_refCodec (text : Text) {r : SegmentRef} (hr : Json.Utf8 r.key) :
    (refCodec text).Keeps r := by
  have hkey : (Codec.string text).unmarshal ((Codec.string text).marshal r.key) = some r.key :=
    Codec.keeps_string text hr
  change (do
    let key ← (Codec.string text).unmarshal ((Codec.string text).marshal r.key)
    pure (⟨key, r.baseOffset, r.nextOffset, r.position, r.length, r.uploadedMs⟩ : SegmentRef))
      = some r
  rw [hkey]
  rfl

namespace MetaState

/-- **A state whose strings are valid comes back.** -/
theorem restore_snapshot (text : Text) {s : MetaState} (h : s.Utf8) :
    ∃ s', restore text (s.snapshot text) = some s' ∧ s.Same s' := by
  obtain ⟨topics, htopics, hsame⟩ := Codec.map_keeps text (t := s.topics) (c := topicCodec)
    fun topic t ht => ⟨h.topics topic t ht, keeps_topicCodec t⟩
  obtain ⟨segments, hsegments, hsame'⟩ := Codec.map_keeps text (t := s.segments)
    (c := (refCodec text).slice) fun k refs hrefs =>
      ⟨(h.segments k refs hrefs).1, Codec.keeps_slice fun r hr =>
        keeps_refCodec text ((h.segments k refs hrefs).2 r hr)⟩
  by_cases hnone : s.segments.keys = []
  · -- the table of refs is left out, and the restored one is empty
    refine ⟨⟨topics, ∅⟩, ?_, hsame, fun k => ?_⟩
    · rw [snapshot, if_pos hnone]
      change (do
        let topics ← (topicsCodec text).unmarshal ((topicsCodec text).marshal s.topics)
        pure (⟨topics, ∅⟩ : MetaState)) = _
      rw [topicsCodec, htopics]
      rfl
    · have hlook : s.segments.lookup k = none := by
        by_contra hne
        have := (Table.mem_keys_iff s.segments k).mpr hne
        rw [hnone] at this
        cases this
      rw [hlook, AList.lookup_empty]
  · refine ⟨⟨topics, segments⟩, ?_, hsame, hsame'⟩
    rw [snapshot, if_neg hnone]
    change (do
      let topics ← (topicsCodec text).unmarshal ((topicsCodec text).marshal s.topics)
      let segments ← (segmentsCodec text).unmarshal ((segmentsCodec text).marshal s.segments)
      pure (⟨topics, segments⟩ : MetaState)) = _
    rw [topicsCodec, segmentsCodec, htopics, hsegments]
    rfl

end MetaState

/-- **A restored state machine goes on like the original.**  After any commands with valid
strings, the snapshot can be restored; any further commands then have the same outcomes on
the restored state machine as on the original, and at the end no reading function can tell
the two apart. -/
theorem snapshot_transparent (text : Text) (before after : List Command)
    (hvalid : ∀ c ∈ before, c.Utf8) :
    let s := run MetaState.step .empty before
    ∃ s', MetaState.restore text (s.snapshot text) = some s' ∧
      replies MetaState.applyLocked s' after = replies MetaState.applyLocked s after ∧
      (run MetaState.step .empty (before ++ after)).SameAnswers (run MetaState.step s' after) := by
  intro s
  obtain ⟨s', hs', hsame⟩ := MetaState.restore_snapshot text (MetaState.Utf8.empty.run hvalid)
  obtain ⟨hrun, hreplies⟩ := hsame.run after
  rw [run_append]
  exact ⟨s', hs', hreplies, hrun.sameAnswers⟩

/-- Two topics are created, one of them without replicas, and a ref is committed. -/
def beforeSnapshot : List Command :=
  [{ type := .createTopic, topic := [116], replicas := [[1, 2]] },
    { type := .createTopic, topic := [117], replicas := [[]] },
    { type := .commitSegment, topic := [116], segment := some ⟨[97], 0, 3, 0, 61, 0⟩ }]

/-- The last ref is pruned, a topic is created again and one gets a leader. -/
def afterSnapshot : List Command :=
  [{ type := .pruneSegments, topic := [116], cutoff := 3 },
    { type := .createTopic, topic := [116], replicas := [[1]] },
    { type := .changeLeader, topic := [117], leader := 2, isr := [2] }]

/-- After the restore, the last ref is pruned and the second topic cannot be created. -/
theorem snapshot_transparent_prune :
    let s := run MetaState.step .empty beforeSnapshot
    ∃ s', MetaState.restore ⟨id, fun _ _ => rfl⟩ (s.snapshot ⟨id, fun _ _ => rfl⟩) = some s' ∧
      replies MetaState.applyLocked s' afterSnapshot = [none, some (.topicExists [116]), none] ∧
      (run MetaState.step .empty (beforeSnapshot ++ afterSnapshot)).SameAnswers
        (run MetaState.step s' afterSnapshot) :=
  have hvalid : ∀ c ∈ beforeSnapshot, c.Utf8 := by
    have ht : Json.Utf8 [116] := utf8_of_lt (by simp)
    have hu : Json.Utf8 [117] := utf8_of_lt (by simp)
    have ha : Json.Utf8 [97] := utf8_of_lt (by simp)
    simp [beforeSnapshot, Command.Utf8, ht, hu, ha]
  have hreplies : replies MetaState.applyLocked (run MetaState.step .empty beforeSnapshot)
      afterSnapshot = [none, some (.topicExists [116]), none] := by decide +kernel
  have ⟨s', hs', hsame, hanswers⟩ :=
    snapshot_transparent ⟨id, fun _ _ => rfl⟩ beforeSnapshot afterSnapshot hvalid
  ⟨s', hs', hsame.trans hreplies, hanswers⟩

end Controller
end Mq
