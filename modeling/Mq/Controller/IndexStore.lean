import Mq.Controller.Snapshot

/-!
# The index store of the controller

`internal/controller/indexstore.go`: the controller as the durable home of the object
backend's refs, next to `MemIndexStore` of `internal/storage/object/index.go`.  A commit and
a prune are commands that go through the log as JSON, here on a single node, where a command
has been applied when `Apply` returns.

## Main definitions

* `commandCodec` — commands as they are written to the log.
* `IndexCall`, `IndexReply` — the calls of the interface and what they return.
* `indexStoreCall`, `memIndexStoreCall` — the two implementations.
* `filed topic p calls` — the refs that the calls on one partition leave behind.

## Main results

* `load_run_memIndexStore` — **a partition has the refs that its own calls leave**, whatever
  else is called.
* `index_stores_agree` — **the two implementations return the same**, and keep the partitions
  apart.
-/

namespace Mq
namespace Controller

open Word Transition Object Json

/-! ### Commands in the log -/

/-- The number of a command's type. -/
def CmdType.code : CmdType → ℤ
  | .createTopic => 1
  | .createPartitions => 2
  | .changeLeader => 3
  | .changeISR => 4
  | .heartbeat => 5
  | .commitSegment => 6
  | .pruneSegments => 7
  | .unknown value => value.toNat

def CmdType.ofCode (z : ℤ) : CmdType :=
  match z with
  | 1 => .createTopic
  | 2 => .createPartitions
  | 3 => .changeLeader
  | 4 => .changeISR
  | 5 => .heartbeat
  | 6 => .commitSegment
  | 7 => .pruneSegments
  | z => .unknown (UInt8.ofNat z.toNat)

/-- `t` -/
def typeName : Bytes := [116]

/-- `topic` -/
def topicName : Bytes := [116, 111, 112, 105, 99]

/-- `p` -/
def partitionName : Bytes := [112]

/-- `seg` -/
def segmentName : Bytes := [115, 101, 103]

/-- `cutoff` -/
def cutoffName : Bytes := [99, 117, 116, 111, 102, 102]

/-- The fields of a command.  All but the type are left out if they are at zero. -/
def commandFields (text : Text) (c : Command) : List (Bytes × Option Value) :=
  [(typeName, some (Codec.int.marshal c.type.code)),
    (topicName, (Codec.string text).omitEmpty [] c.topic),
    (partitionName, Codec.int.omitEmpty 0 c.partition),
    (replicasName, Codec.int.nilSlice.slice.omitEmpty [] c.replicas),
    (leaderName, Codec.int.omitEmpty 0 c.leader),
    (isrName, Codec.int.slice.omitEmpty [] c.isr),
    (segmentName, (refCodec text).pointer.omitEmpty none c.segment),
    (cutoffName, Codec.int.omitEmpty 0 c.cutoff)]

/-- A command in the log, without the fields that the state machine does not read. -/
def commandCodec (text : Text) : Codec Command where
  marshal c := .struct (commandFields text c)
  unmarshal v := do
    let fs ← v.fields
    let type ← Codec.int.field fs typeName
    let topic ← (Codec.string text).field fs topicName
    let partition ← Codec.int.field fs partitionName
    let replicas ← Codec.int.nilSlice.slice.field fs replicasName
    let leader ← Codec.int.field fs leaderName
    let isr ← Codec.int.slice.field fs isrName
    let segment ← (refCodec text).pointer.field fs segmentName
    let cutoff ← Codec.int.field fs cutoffName
    pure ⟨CmdType.ofCode type, topic, partition, replicas, leader, isr, segment, cutoff⟩

theorem keeps_pointer_refCodec (text : Text) {o : Option SegmentRef}
    (ho : ∀ r ∈ o, Json.Utf8 r.key) : (refCodec text).pointer.Keeps o := by
  cases o with
  | none => rfl
  | some r =>
    have hr : (refCodec text).unmarshal ((refCodec text).marshal r) = some r :=
      keeps_refCodec text (ho r rfl)
    change ((refCodec text).unmarshal ((refCodec text).marshal r)).map some = _
    rw [hr]
    rfl

/-- **A command with valid strings comes through the log.** -/
theorem keeps_commandCodec (text : Text) {c : Command} (hc : c.Utf8)
    (htype : CmdType.ofCode c.type.code = c.type) : (commandCodec text).Keeps c := by
  have hnodup : ((commandFields text c).map Prod.fst).Nodup := by
    change ([typeName, topicName, partitionName, replicasName, leaderName, isrName, segmentName,
      cutoffName] : List Bytes).Nodup
    decide
  have hfield : ∀ {name o}, (name, o) ∈ commandFields text c →
      ((∅ : Table Bytes Value).insertAll ((commandFields text c).filterMap fun f =>
        f.2.map fun v => (f.1, v))).lookup name = o := Codec.lookup_struct hnodup
  have hints : ∀ xs : List ℤ, Codec.int.slice.Keeps xs :=
    fun xs => Codec.keeps_slice fun z _ => Codec.keeps_int z
  have hlists : Codec.int.nilSlice.slice.Keeps c.replicas :=
    Codec.keeps_slice fun xs _ => Codec.keeps_nilSlice fun z _ => Codec.keeps_int z
  unfold Codec.Keeps commandCodec
  dsimp only [Value.struct, Value.fields, Option.bind_eq_bind, Option.bind_some, Codec.field]
  rw [hfield (.head _), hfield (.tail _ (.head _)), hfield (.tail _ (.tail _ (.head _))),
    hfield (.tail _ (.tail _ (.tail _ (.head _)))),
    hfield (.tail _ (.tail _ (.tail _ (.tail _ (.head _))))),
    hfield (.tail _ (.tail _ (.tail _ (.tail _ (.tail _ (.head _)))))),
    hfield (.tail _ (.tail _ (.tail _ (.tail _ (.tail _ (.tail _ (.head _))))))),
    hfield (.tail _ (.tail _ (.tail _ (.tail _ (.tail _ (.tail _ (.tail _ (.head _)))))))),
    Codec.unmarshal_omitEmpty rfl (Codec.keeps_string text hc.1),
    Codec.unmarshal_omitEmpty rfl (Codec.keeps_int _),
    Codec.unmarshal_omitEmpty rfl hlists, Codec.unmarshal_omitEmpty rfl (Codec.keeps_int _),
    Codec.unmarshal_omitEmpty rfl (hints _),
    Codec.unmarshal_omitEmpty rfl (keeps_pointer_refCodec text hc.2),
    Codec.unmarshal_omitEmpty rfl (Codec.keeps_int _)]
  change some (⟨CmdType.ofCode c.type.code, c.topic, c.partition, c.replicas, c.leader, c.isr,
    c.segment, c.cutoff⟩ : Command) = some c
  rw [htype]

/-- `Apply` of a single node: the command goes through the log and is applied. -/
def applySingle (text : Text) (s : MetaState) (cmd : Command) : MetaState × Bool :=
  match (commandCodec text).unmarshal ((commandCodec text).marshal cmd) with
  | none => (s, false)
  | some cmd =>
    match s.applyLocked cmd with
    | (s', none) => (s', true)
    | (s', some _) => (s', false)

/-! ### The two implementations -/

/-- The calls of the interface. -/
inductive IndexCall
  | commit (topic : Bytes) (partition : ℤ) (ref : SegmentRef)
  | load (topic : Bytes) (partition : ℤ)
  | prune (topic : Bytes) (partition cutoff : ℤ)
  | referenced (key : Bytes)
  deriving DecidableEq, Repr

inductive IndexReply
  | ok
  | error
  | refs (refs : List SegmentRef)
  | answer (referenced : Bool)
  deriving DecidableEq, Repr

/-- The strings of a call are valid. -/
def IndexCall.Utf8 : IndexCall → Prop
  | .commit topic _ ref => Json.Utf8 topic ∧ Json.Utf8 ref.key
  | .load topic _ | .prune topic _ _ => Json.Utf8 topic
  | .referenced key => Json.Utf8 key

/-- The command of a commit. -/
def commitCommand (topic : Bytes) (partition : ℤ) (ref : SegmentRef) : Command :=
  { type := .commitSegment, topic := topic, partition := partition, segment := some ref }

/-- The command of a prune. -/
def pruneCommand (topic : Bytes) (partition cutoff : ℤ) : Command :=
  { type := .pruneSegments, topic := topic, partition := partition, cutoff := cutoff }

/-- `indexStore`, over the controller's state.  What a prune drops is read before it. -/
def indexStoreCall (text : Text) (s : MetaState) : IndexCall → MetaState × IndexReply
  | .commit topic partition ref =>
    match applySingle text s (commitCommand topic partition ref) with
    | (s', true) => (s', .ok)
    | (s', false) => (s', .error)
  | .load topic partition => (s, .refs (s.segmentsOf topic partition))
  | .prune topic partition cutoff =>
    match applySingle text s (pruneCommand topic partition cutoff) with
    | (s', true) =>
      (s', .refs ((s.segmentsOf topic partition).filter fun r => r.nextOffset ≤ cutoff))
    | (s', false) => (s', .error)
  | .referenced key => (s, .answer (s.segmentReferenced key))

/-- `MemIndexStore` -/
def memIndexStoreCall (m : IndexStore) : IndexCall → IndexStore × IndexReply
  | .commit topic partition ref => (m.commit (indexKey topic partition) ref, .ok)
  | .load topic partition => (m, .refs (m.load (indexKey topic partition)))
  | .prune topic partition cutoff =>
    ((m.prune (indexKey topic partition) cutoff).1,
      .refs (m.prune (indexKey topic partition) cutoff).2)
  | .referenced key => (m, .answer (m.referenced key))

/-! ### One partition -/

/-- What a call makes of the refs of one partition. -/
def file (topic : Bytes) (p : ℤ) (refs : List SegmentRef) : IndexCall → List SegmentRef
  | .commit t q ref => if t = topic ∧ q = p then refs ++ [ref] else refs
  | .prune t q cutoff =>
    if t = topic ∧ q = p then refs.filter fun r => ¬ r.nextOffset ≤ cutoff else refs
  | .load _ _ | .referenced _ => refs

/-- The refs that the calls on one partition leave behind. -/
def filed (topic : Bytes) (p : ℤ) (calls : List IndexCall) : List SegmentRef :=
  run (file topic p) [] calls

/-- A call does to a partition what it should. -/
theorem load_memIndexStoreCall (m : IndexStore) (c : IndexCall) (topic : Bytes) (p : ℤ) :
    (memIndexStoreCall m c).1.load (indexKey topic p)
      = file topic p (m.load (indexKey topic p)) c := by
  cases c with
  | commit t q ref =>
    rw [memIndexStoreCall, IndexStore.load_commit, file]
    split
    · next h => rw [if_pos (indexKey_inj h.symm), h]
    · next h => rw [if_neg fun h' => h (by rw [h'.1, h'.2])]
  | load t q => rfl
  | prune t q cutoff =>
    rw [memIndexStoreCall, IndexStore.load_prune, file]
    split
    · next h => rw [if_pos (indexKey_inj h.symm), h]
    · next h => rw [if_neg fun h' => h (by rw [h'.1, h'.2])]
  | referenced key => rfl

/-- **A partition has the refs that its own calls leave**, whatever else is called. -/
theorem load_run_memIndexStore (m : IndexStore) (calls : List IndexCall) (topic : Bytes) (p : ℤ) :
    (run (effect memIndexStoreCall) m calls).load (indexKey topic p)
      = run (file topic p) (m.load (indexKey topic p)) calls := by
  induction calls generalizing m with
  | nil => rfl
  | cons c calls ih => rw [run_cons, ih, effect, load_memIndexStoreCall, run_cons]

/-! ### Agreement -/

/-- The two stores have the same refs under every key. -/
def Agree (s : MetaState) (m : IndexStore) : Prop := ∀ k, s.segments.load k = m.load k

theorem applySingle_commit (text : Text) (s : MetaState) {topic : Bytes} {ref : SegmentRef}
    (htopic : Json.Utf8 topic) (href : Json.Utf8 ref.key) (p : ℤ) :
    applySingle text s (commitCommand topic p ref)
      = (s.commitSegment (indexKey topic p) ref, true) := by
  have hkeeps : (commandCodec text).Keeps (commitCommand topic p ref) :=
    keeps_commandCodec text ⟨htopic, fun r hr => by cases hr; exact href⟩ rfl
  rw [applySingle, hkeeps]
  rfl

theorem applySingle_prune (text : Text) (s : MetaState) {topic : Bytes} (htopic : Json.Utf8 topic)
    (p cutoff : ℤ) :
    applySingle text s (pruneCommand topic p cutoff)
      = (s.pruneSegments (indexKey topic p) cutoff, true) := by
  have hkeeps : (commandCodec text).Keeps (pruneCommand topic p cutoff) :=
    keeps_commandCodec text ⟨htopic, fun r hr => by cases hr⟩ rfl
  rw [applySingle, hkeeps]
  rfl

/-- **A call returns the same on stores that agree, and leaves them so.** -/
theorem Agree.call (text : Text) {s : MetaState} {m : IndexStore} (h : Agree s m) {c : IndexCall}
    (hc : c.Utf8) :
    Agree (indexStoreCall text s c).1 (memIndexStoreCall m c).1 ∧
      (indexStoreCall text s c).2 = (memIndexStoreCall m c).2 := by
  cases c with
  | commit topic p ref =>
    rw [indexStoreCall, applySingle_commit text s hc.1 hc.2]
    refine ⟨fun k => ?_, rfl⟩
    change (s.commitSegment (indexKey topic p) ref).segments.load k
      = (m.commit (indexKey topic p) ref).load k
    rw [MetaState.load_commitSegment, IndexStore.load_commit, IndexStore.load_commit, h, h]
  | load topic p => exact ⟨h, congrArg IndexReply.refs (h _)⟩
  | prune topic p cutoff =>
    rw [indexStoreCall, applySingle_prune text s hc]
    refine ⟨fun k => ?_, ?_⟩
    · change (s.pruneSegments (indexKey topic p) cutoff).segments.load k
        = (m.prune (indexKey topic p) cutoff).1.load k
      rw [MetaState.load_pruneSegments, IndexStore.load_prune, IndexStore.load_prune, h, h]
    · change IndexReply.refs ((s.segments.load (indexKey topic p)).filter _) = _
      rw [h]
      rfl
  | referenced key =>
    refine ⟨h, congrArg IndexReply.answer ?_⟩
    rw [MetaState.segmentReferenced, Bool.eq_iff_iff, IndexStore.referenced_iff,
      IndexStore.referenced_iff]
    simp only [h _]

theorem Agree.run (text : Text) {s : MetaState} {m : IndexStore} (h : Agree s m)
    {calls : List IndexCall} (hcalls : ∀ c ∈ calls, c.Utf8) :
    Agree (Transition.run (effect (indexStoreCall text)) s calls)
        (Transition.run (effect memIndexStoreCall) m calls) ∧
      replies (indexStoreCall text) s calls = replies memIndexStoreCall m calls := by
  induction calls generalizing s m with
  | nil => exact ⟨h, rfl⟩
  | cons c calls ih =>
    obtain ⟨hstate, hreply⟩ := h.call text (hcalls c List.mem_cons_self)
    obtain ⟨hrun, hreplies⟩ := ih hstate fun d hd => hcalls d (List.mem_cons_of_mem c hd)
    exact ⟨hrun, by rw [replies, replies, hreply, hreplies]⟩

/-- **The two implementations return the same**, call by call, and under each partition both
have the refs that the calls on that partition leave behind. -/
theorem index_stores_agree (text : Text) (calls : List IndexCall)
    (hcalls : ∀ c ∈ calls, c.Utf8) :
    replies (indexStoreCall text) .empty calls = replies memIndexStoreCall ∅ calls ∧
      ∀ topic p,
        (run (effect (indexStoreCall text)) .empty calls).segmentsOf topic p
          = filed topic p calls ∧
        (run (effect memIndexStoreCall) ∅ calls).load (indexKey topic p) = filed topic p calls := by
  have hempty : Agree .empty ∅ := fun _ => rfl
  obtain ⟨hagree, hreplies⟩ := hempty.run text hcalls
  have hfiled := load_run_memIndexStore ∅ calls
  exact ⟨hreplies, fun topic p => ⟨(hagree _).trans (hfiled topic p), hfiled topic p⟩⟩

/-- Refs of two partitions in one object, out of order and twice, and prunes that drop some
of them and then the rest. -/
def sharedObject : List IndexCall :=
  [.commit [116] 0 ⟨[97], 5, 8, 0, 61, 0⟩, .commit [116, 0] 1 ⟨[97], 0, 3, 61, 61, 0⟩,
    .commit [116] 0 ⟨[98], 0, 5, 0, 61, 0⟩, .commit [116] 0 ⟨[98], 0, 5, 0, 61, 0⟩,
    .prune [116] 0 5, .load [116] 0, .prune [116] 0 8, .referenced [97], .load [116, 0] 1]

/-- The topics `t` and `t` with a NUL at the end are kept apart, and the object is referenced
until both are pruned. -/
theorem index_stores_agree_shared :
    replies (indexStoreCall ⟨id, fun _ _ => rfl⟩) .empty sharedObject
      = [.ok, .ok, .ok, .ok, .refs [⟨[98], 0, 5, 0, 61, 0⟩, ⟨[98], 0, 5, 0, 61, 0⟩],
        .refs [⟨[97], 5, 8, 0, 61, 0⟩], .refs [⟨[97], 5, 8, 0, 61, 0⟩], .answer true,
        .refs [⟨[97], 0, 3, 61, 61, 0⟩]] :=
  have hcalls : ∀ c ∈ sharedObject, c.Utf8 := by
    have ht : Json.Utf8 [116] := utf8_of_lt (by simp)
    have ht₀ : Json.Utf8 [116, 0] := utf8_of_lt (by simp)
    have ha : Json.Utf8 [97] := utf8_of_lt (by simp)
    have hb : Json.Utf8 [98] := utf8_of_lt (by simp)
    simp [sharedObject, IndexCall.Utf8, ht, ht₀, ha, hb]
  (index_stores_agree ⟨id, fun _ _ => rfl⟩ sharedObject hcalls).1.trans (by decide +kernel)

end Controller
end Mq
