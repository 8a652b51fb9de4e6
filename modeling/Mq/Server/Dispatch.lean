import Mq.Group.Idle
import Mq.Group.Offsets
import Mq.Server.Partitions

/-!
# Dispatching a request

`Dispatch` of `internal/server/handlers.go` on the state of a whole broker: the topics and
logs, the groups, and the committed offsets.  The body of a request is decoded at the
version of its header and carried out.  Neither the version nor the reader's error is
looked at, so what is left of a request that was cut off is carried out as well, with zero
values for what is missing.

Requests are taken one at a time.  A `SyncGroup` that waits for the leader's is taken to
wait in vain.

## Main definitions

* `Env`, `Node` — the surroundings and the state of a broker.
* `dispatch`, `serve` — what a request, and what a frame, does to the state.
* `Refusable` — the frame is cut off, or its version is not supported.
* `Harmless` — what the request asks for changes nothing.

## Main results

* `alike_dispatch_iff` — **a request leaves no trace exactly if it is harmless.**
* `refusable_frames` — so a frame that should be refused changes nothing exactly if what can
  be read of it is harmless.
* `cut_commit_stored`, `unsupported_version_served` — two frames that are not.
-/

namespace Mq
namespace Server

open Word Record Storage Controller Wire Transition Consumer

/-! ### State -/

/-- What a request depends on besides the state. -/
structure Env extends Setting where
  autoCreate : Bool
  /-- `IsCoordinator` of the static placement. -/
  isCoordinator : Bytes → Bool
  /-- The random part of a new member's id. -/
  random : Bytes
  /-- The order in which the members of a group are run through. -/
  order : List Bytes
  /-- How often a fetch looks again before it is answered. -/
  polls : ℕ

/-- The state of a broker. -/
structure Node where
  holdings : Holdings
  groups : Coordinator
  offsets : Mq.Group.Host

/-! ### The handlers -/

/-- A request on topics.  Nothing ends the loop. -/
def onTopics {α : Type} (op : Holdings → α → Holdings) (b : Holdings) (xs : List α) : Holdings :=
  runUntil (fun b x => (op b x, false)) b xs

/-- One topic of a metadata request. -/
def describeTopic (env : Env) (b : Holdings) (name : Bytes) : Holdings :=
  if b.knows name = false ∧ env.autoCreate = false then b
  else if env.autoCreate then (b.ensureTopic env.toSetting name).1 else b

def createOne (env : Env) (b : Holdings) (t : CreateTopicsTopic) : Holdings :=
  (b.createTopic env.toSetting t.name t.numPartitions).1

def growOne (env : Env) (b : Holdings) (t : CreatePartitionsTopic) : Holdings :=
  (b.createPartitions env.toSetting t.name t.count).1

/-- The partitions of a produce request, in order. -/
def producePartitions (req : ProduceRequest) : List (Bytes × ProducePartition) :=
  req.topics.flatMap fun t => t.partitions.map fun p => (t.name, p)

/-- The partitions of a fetch request, once for each time that the log is looked at. -/
def fetchPartitions (env : Env) (req : FetchRequest) : List (Bytes × FetchPartition) :=
  (List.replicate (env.polls + 1)
    (req.topics.flatMap fun t => t.partitions.map fun p => (t.name, p))).flatten

def listOffsetsPartitions (req : ListOffsetsRequest) : List (Bytes × ListOffsetsPartition) :=
  req.topics.flatMap fun t => t.partitions.map fun p => (t.name, p)

/-- A request on a group.  One that this node does not coordinate is refused. -/
def onGroup (env : Env) (c : Coordinator) (groupID : Bytes) (call : Option Room → Option Room) :
    Coordinator :=
  if env.isCoordinator groupID then
    match call (c.lookup groupID) with
    | none => c
    | some r => c.insert groupID r
  else c

/-- The arguments of `Join`.  The group's name is the prefix of new member ids. -/
def joinArgs (req : JoinGroupRequest) : JoinArgs where
  memberID := req.memberID
  clientID := req.groupID
  protocols := req.protocols.map fun p => ⟨p.name, p.metadata.getD []⟩
  sessionTimeoutMs := req.sessionTimeout

/-- The map of assignments.  The last one for a member counts. -/
def assignmentsOf (req : SyncGroupRequest) : Table Bytes Bytes :=
  (∅ : Table Bytes Bytes).insertAll (req.assignments.map fun a => (a.memberID, a.assignment.getD []))

/-- The commits of a request. -/
def commitsOf (req : OffsetCommitRequest) : List (Mq.Group.OffsetKey × Mq.Group.Committed) :=
  req.topics.flatMap fun t => t.partitions.map fun p =>
    (⟨req.groupID, t.name, p.index⟩, ⟨p.offset, p.metadata.getD []⟩)

/-- The commits of a request, if the node coordinates the group. -/
def commitAll (env : Env) (h : Mq.Group.Host) (req : OffsetCommitRequest) : Mq.Group.Host :=
  if env.isCoordinator req.groupID then run Mq.Group.Host.step h (commitsOf req) else h

/-- What a decoded request does. -/
def dispatch (env : Env) (n : Node) : Wire.Request → Node
  | .metadata req => { n with holdings := onTopics (describeTopic env) n.holdings req.topics }
  | .produce req =>
    { n with
      holdings := runUntil (producePartition env.toSetting) n.holdings (producePartitions req) }
  | .fetch req =>
    { n with
      holdings := runUntil (fetchPartition env.toSetting req.replicaID) n.holdings
        (fetchPartitions env req) }
  | .listOffsets req =>
    { n with
      holdings := runUntil (listOffsetsPartition env.toSetting) n.holdings
        (listOffsetsPartitions req) }
  | .createTopics req => { n with holdings := onTopics (createOne env) n.holdings req.topics }
  | .createPartitions req => { n with holdings := onTopics (growOne env) n.holdings req.topics }
  | .joinGroup req =>
    { n with
      groups := onGroup env n.groups req.groupID
        (stepOption · (.join (joinArgs req) env.random env.now env.order)) }
  | .syncGroup req =>
    { n with
      groups := onGroup env n.groups req.groupID
        (Option.map (Room.syncAlone · req.memberID req.generationID (assignmentsOf req) env.now)) }
  | .heartbeat req =>
    { n with
      groups := onGroup env n.groups req.groupID
        (stepOption · (.heartbeat req.memberID req.generationID env.now)) }
  | .leaveGroup req =>
    { n with
      groups := onGroup env n.groups req.groupID (stepOption · (.leave req.memberID env.order)) }
  | .offsetCommit req =>
    { n with offsets := commitAll env n.offsets req }
  -- these only read
  | .apiVersions | .findCoordinator _ | .listGroups | .describeGroups _ | .offsetFetch _ => n

/-- What a frame does. -/
def serve (env : Env) (n : Node) (frame : Bytes) : Node :=
  match (decodeFrame frame).request with
  | none => n
  | some req => dispatch env n req

/-! ### Requests that should be refused -/

/-- The reader has an error at the end, or the version is not in the range of the API. -/
def Refusable (f : Frame) : Prop :=
  f.err = true ∨ ∃ api ∈ ApiKey.ofCode f.header.apiKey, inRange api f.header.apiVersion = false

/-- The groups hold the same. -/
def GroupsAlike (c c' : Coordinator) : Prop :=
  ∀ groupID, Option.Rel (fun r r' => r.group.Alike r'.group) (c.lookup groupID) (c'.lookup groupID)

/-- Logs, topics, groups and committed offsets are as they were. -/
structure Node.Alike (n n' : Node) : Prop where
  holdings : n.holdings.Alike n'.holdings
  groups : GroupsAlike n.groups n'.groups
  offsets : ∀ k, n'.offsets.store.cache.lookup k = n.offsets.store.cache.lookup k

/-- **What the request asks for changes nothing**, judged in the state before. -/
def Harmless (env : Env) (n : Node) : Wire.Request → Prop
  | .metadata req => env.autoCreate = false ∨
      ∀ name ∈ req.topics, n.holdings.CreateFails env.toSetting name env.numPartitions
  | .produce req =>
    ∀ x ∈ reached (fun x => (servedLog env.toSetting n.holdings x.1 x.2.index).any fun l =>
        (produceTo env.toSetting x n.holdings l).2) (producePartitions req),
      Quiet env.toSetting n.holdings x.1 x.2.index (ProduceIdle x.2.records)
  | .fetch req =>
    ∀ x ∈ reached (fun x => (servedLog env.toSetting n.holdings x.1 x.2.partition).any fun l =>
        (fetchFrom env.toSetting req.replicaID x n.holdings l).2) (fetchPartitions env req),
      Quiet env.toSetting n.holdings x.1 x.2.partition
        (FetchIdle env.toSetting n.holdings req.replicaID x)
  | .listOffsets req =>
    ∀ x ∈ reached (fun x => (servedLog env.toSetting n.holdings x.1 x.2.index).any
        (seekHangs · x.2.timestamp)) (listOffsetsPartitions req),
      Quiet env.toSetting n.holdings x.1 x.2.index fun _ => True
  | .createTopics req =>
    ∀ t ∈ req.topics, n.holdings.CreateFails env.toSetting t.name t.numPartitions
  | .createPartitions req =>
    ∀ t ∈ req.topics, n.holdings.GrowFails env.toSetting t.name t.count
  | .joinGroup req => env.isCoordinator req.groupID = false ∨
      ∃ r, n.groups.lookup req.groupID = some r ∧
        r.group.Rejoins (joinArgs req) env.now env.order
  | .syncGroup req => env.isCoordinator req.groupID = false ∨
      ∀ r ∈ n.groups.lookup req.groupID, r.group.members.lookup req.memberID = none ∨
        req.generationID ≠ r.group.generation ∨
          r.group.Resyncs req.memberID (assignmentsOf req) env.now
  | .heartbeat req => env.isCoordinator req.groupID = false ∨
      ∀ r ∈ n.groups.lookup req.groupID, req.generationID ≠ r.group.generation ∨
        r.group.Heard req.memberID env.now
  | .leaveGroup req => env.isCoordinator req.groupID = false ∨
      ∀ r ∈ n.groups.lookup req.groupID, r.group.members.lookup req.memberID = none
  | .offsetCommit req => env.isCoordinator req.groupID = false ∨
      ∀ k c, Mq.Group.lastCommit k (Mq.Group.accepted n.offsets (commitsOf req)) = some c →
        n.offsets.store.cache.lookup k = some c
  | .apiVersions | .findCoordinator _ | .listGroups | .describeGroups _ | .offsetFetch _ => True

/-! ### Requests on topics -/

section Topics

variable {set : Setting} {α : Type} {op : Holdings → α → Holdings} {Fails : Holdings → α → Prop}
  (hcases : ∀ b a, (Fails b a ∧ b.Same (op b a)) ∨ (¬ Fails b a ∧ Holdings.Grown set b (op b a)))

include hcases in
theorem advances_topic {b : Holdings} (hb : b.Accurate) (a : α) : Advances set b (op b a) := by
  rcases hcases b a with ⟨-, hsame⟩ | ⟨-, hgrown⟩
  · exact ⟨hsame.symm.le, fun k l hl => hb k l ((hsame.logs k).symm.trans hl)⟩
  · exact ⟨hgrown.le, hgrown.accurate hb⟩

include hcases in
theorem advances_onTopics {b : Holdings} (hb : b.Accurate) (xs : List α) :
    Advances set b (onTopics op b xs) := by
  refine runUntil_induct (P := Advances set b) (D := fun _ => True) (fun t a ht _ => ?_)
    ⟨refl_of _ b, hb⟩ fun _ _ => trivial
  have hone := advances_topic hcases ht.accurate a
  exact ⟨trans_of _ ht.le hone.le, hone.accurate⟩

include hcases in
/-- **A request on topics leaves no trace exactly if it fails for all of them.** -/
theorem le_onTopics_iff (hcongr : ∀ b t a, b.Same t → (Fails t a ↔ Fails b a)) {b : Holdings}
    (hb : b.Accurate) (xs : List α) :
    Holdings.Le set (onTopics op b xs) b ↔ ∀ x ∈ xs, Fails b x := by
  have hone := fun (t : Holdings) a (ht : t.Accurate) => advances_topic hcases ht a
  have hiff : Holdings.Le set (onTopics op b xs) b ↔ ∀ x ∈ reached (fun _ => false) xs, Fails b x := by
    refine runUntil_le_iff (P := Holdings.Accurate) (D := fun _ => True) (R := b.Same)
      (fun t a ht _ => (hone t a ht).accurate) (fun t a ht _ => (hone t a ht).le)
      (fun t ht => ht.le) ?_ ?_ hb (.refl b) fun _ _ => trivial
    · intro t a _ hsame _ hfails
      rcases hcases t a with ⟨-, hstep⟩ | ⟨hnot, -⟩
      · exact ⟨hsame.trans hstep, rfl⟩
      · exact absurd ((hcongr b t a hsame).mpr hfails) hnot
    · intro t a _ hsame _ hfails hback
      rcases hcases t a with ⟨hyes, -⟩ | ⟨-, hgrown⟩
      · exact hfails ((hcongr b t a hsame).mp hyes)
      · exact hgrown.not_le (trans_of _ hback hsame.symm.le)
  rwa [reached_of_false fun _ => rfl] at hiff

end Topics

variable {env : Env}

/-- One topic of a metadata request is left alone. -/
def DescribeFails (env : Env) (b : Holdings) (name : Bytes) : Prop :=
  env.autoCreate = false ∨ b.CreateFails env.toSetting name env.numPartitions

theorem describeTopic_cases (b : Holdings) (name : Bytes) :
    (DescribeFails env b name ∧ b.Same (describeTopic env b name)) ∨
      (¬ DescribeFails env b name ∧ Holdings.Grown env.toSetting b (describeTopic env b name)) := by
  unfold DescribeFails describeTopic
  cases hauto : env.autoCreate with
  | false => exact .inl ⟨.inl rfl, by simp [Holdings.Same.refl]⟩
  | true =>
    simp only [Bool.true_eq_false, and_false, if_false, if_true, false_or]
    rcases Holdings.ensureTopic_cases b name with ⟨hfails, heq⟩ | ⟨hfails, hgrown⟩
    · exact .inl ⟨hfails, by rw [heq]; exact .refl b⟩
    · exact .inr ⟨hfails, hgrown⟩

theorem createOne_cases (b : Holdings) (t : CreateTopicsTopic) :
    (b.CreateFails env.toSetting t.name t.numPartitions ∧ b.Same (createOne env b t)) ∨
      (¬ b.CreateFails env.toSetting t.name t.numPartitions ∧
        Holdings.Grown env.toSetting b (createOne env b t)) := by
  rcases Holdings.createTopic_cases b t.name t.numPartitions with ⟨hfails, heq⟩ | h
  · exact .inl ⟨hfails, by rw [createOne, heq]; exact .refl b⟩
  · exact .inr h

theorem growOne_cases (b : Holdings) (t : CreatePartitionsTopic) :
    (b.GrowFails env.toSetting t.name t.count ∧ b.Same (growOne env b t)) ∨
      (¬ b.GrowFails env.toSetting t.name t.count ∧
        Holdings.Grown env.toSetting b (growOne env b t)) :=
  Holdings.createPartitions_cases b t.name t.count

/-! ### Requests on groups -/

theorem GroupsAlike.refl (c : Coordinator) : GroupsAlike c c := by
  intro groupID
  cases c.lookup groupID with
  | none => exact .none
  | some r => exact .some (.refl _)

/-- **A request on a group** leaves no trace exactly if it leaves none in that group. -/
theorem groupsAlike_onGroup_iff {c : Coordinator} {groupID : Bytes}
    {call : Option Room → Option Room} (hcall : ∀ r, call (some r) ≠ none) :
    GroupsAlike c (onGroup env c groupID call) ↔ env.isCoordinator groupID = false ∨
      Option.Rel (fun r r' => r.group.Alike r'.group) (c.lookup groupID)
        (call (c.lookup groupID)) := by
  unfold onGroup
  cases env.isCoordinator groupID with
  | false => simp [GroupsAlike.refl]
  | true =>
    simp only [if_true, Bool.true_eq_false, false_or]
    cases hlookup : c.lookup groupID with
    | none =>
      cases hnew : call none with
      | none => exact ⟨fun _ => .none, fun _ => GroupsAlike.refl c⟩
      | some r =>
        refine ⟨fun h => ?_, fun h => nomatch h⟩
        have hid := h groupID
        rw [hlookup, AList.lookup_insert] at hid
        cases hid
    | some r =>
      obtain ⟨r', hr'⟩ := Option.ne_none_iff_exists'.mp (hcall r)
      rw [hr']
      dsimp only
      constructor
      · intro h
        have hid := h groupID
        rwa [hlookup, AList.lookup_insert] at hid
      · intro h j
        rw [Table.lookup_insert_ite]
        split
        · next hj =>
          rw [hj, hlookup]
          exact h
        · exact GroupsAlike.refl c j

/-- A call on a group that exists, and on one that does not. -/
theorem rel_some_iff {o : Option Room} {f : Room → Room} :
    Option.Rel (fun r r' => r.group.Alike r'.group) o (o.map f) ↔
      ∀ r ∈ o, r.group.Alike (f r).group := by
  cases o with
  | none => exact ⟨fun _ r hr => absurd hr (by simp), fun _ => .none⟩
  | some r =>
    constructor
    · intro h r' hr'
      cases hr'
      cases h with
      | some h => exact h
    · intro h
      exact .some (h r rfl)

theorem stepOption_heartbeat (o : Option Room) (memberID : Bytes) (generation now : ℤ) :
    stepOption o (.heartbeat memberID generation now)
      = o.map (Room.step · (.heartbeat memberID generation now)) := by
  cases o <;> rfl

theorem stepOption_leave (o : Option Room) (memberID : Bytes) (order : List Bytes) :
    stepOption o (.leave memberID order) = o.map (Room.step · (.leave memberID order)) := by
  cases o <;> rfl

/-! ### Any request -/

section Fields

variable {n : Node}

theorem alike_holdings_iff {b : Holdings} (h : Holdings.Le env.toSetting n.holdings b) :
    n.Alike { n with holdings := b } ↔ Holdings.Le env.toSetting b n.holdings :=
  ⟨fun ha => (Holdings.alike_iff h).mp ha.holdings,
    fun hle => ⟨(Holdings.alike_iff h).mpr hle, .refl _, fun _ => rfl⟩⟩

theorem alike_groups_iff {c : Coordinator} :
    n.Alike { n with groups := c } ↔ GroupsAlike n.groups c :=
  ⟨fun h => h.groups, fun h => ⟨Holdings.Alike.refl _, h, fun _ => rfl⟩⟩

theorem Node.Alike.refl (n : Node) : n.Alike n := ⟨Holdings.Alike.refl _, .refl _, fun _ => rfl⟩

theorem alike_offsets_iff {h : Mq.Group.Host} :
    n.Alike { n with offsets := h } ↔
      ∀ k, h.store.cache.lookup k = n.offsets.store.cache.lookup k :=
  ⟨fun ha => ha.offsets, fun ha => ⟨Holdings.Alike.refl _, .refl _, ha⟩⟩

end Fields

/-- The commits of a request put back what was there. -/
theorem lookup_commits_iff {h : Mq.Group.Host}
    {calls : List (Mq.Group.OffsetKey × Mq.Group.Committed)} :
    (∀ k, (run Mq.Group.Host.step h calls).store.cache.lookup k = h.store.cache.lookup k) ↔
      ∀ k c, Mq.Group.lastCommit k (Mq.Group.accepted h calls) = some c →
        h.store.cache.lookup k = some c := by
  refine forall_congr' fun k => ?_
  rw [Mq.Group.lookup_run_accepted]
  cases Mq.Group.lastCommit k (Mq.Group.accepted h calls) with
  | none => simp
  | some c => simp [eq_comm]

theorem length_producePartitions {req : ProduceRequest} (h : (Wire.Request.produce req).RecordsFit) :
    ∀ x ∈ producePartitions req, x.2.records.length < 2147483648 := by
  intro x hx
  obtain ⟨t, ht, hx⟩ := List.mem_flatMap.mp hx
  obtain ⟨p, hp, rfl⟩ := List.mem_map.mp hx
  exact h t ht p hp

/-- The holdings after a request. -/
theorem advances_dispatch {n : Node} (hn : n.holdings.Accurate) {req : Wire.Request}
    (hreq : req.RecordsFit) :
    Advances env.toSetting n.holdings (dispatch env n req).holdings := by
  have hsame : Advances env.toSetting n.holdings n.holdings := ⟨refl_of _ _, hn⟩
  cases req with
  | metadata req => exact advances_onTopics describeTopic_cases hn _
  | createTopics req => exact advances_onTopics createOne_cases hn _
  | createPartitions req =>
    exact advances_onTopics growOne_cases hn _
  | produce req => exact advances_produce hn (length_producePartitions hreq)
  | fetch req => exact advances_fetch req.replicaID hn _
  | listOffsets req => exact advances_listOffsets hn _
  | _ => exact hsame

/-- **A request leaves no trace exactly if it is harmless.** -/
theorem alike_dispatch_iff {n : Node} (hn : n.holdings.Accurate) {req : Wire.Request}
    (hreq : req.RecordsFit) : n.Alike (dispatch env n req) ↔ Harmless env n req := by
  have hle : Holdings.Le env.toSetting n.holdings (dispatch env n req).holdings :=
    (advances_dispatch hn hreq).le
  cases req with
  | metadata req =>
    refine (alike_holdings_iff hle).trans ((le_onTopics_iff describeTopic_cases
      (fun b t name hsame => or_congr_right hsame.createFails) hn _).trans ?_)
    cases hauto : env.autoCreate with
    | false => simp [Harmless, DescribeFails, hauto]
    | true => simp [Harmless, DescribeFails, hauto]
  | createTopics req =>
    exact (alike_holdings_iff hle).trans (le_onTopics_iff createOne_cases
      (fun b t _ hsame => hsame.createFails) hn _)
  | createPartitions req =>
    exact (alike_holdings_iff hle).trans (le_onTopics_iff growOne_cases
      (fun b t _ hsame => hsame.growFails) hn _)
  | produce req =>
    exact (alike_holdings_iff hle).trans (le_produce_iff hn (length_producePartitions hreq))
  | fetch req => exact (alike_holdings_iff hle).trans (le_fetch_iff req.replicaID hn _)
  | listOffsets req => exact (alike_holdings_iff hle).trans (le_listOffsets_iff hn _)
  | joinGroup req =>
    refine alike_groups_iff.trans ((groupsAlike_onGroup_iff fun r => by simp [stepOption]).trans
      (or_congr_right ?_))
    cases hlookup : n.groups.lookup req.groupID with
    | none =>
      constructor
      · intro h
        cases h
      · rintro ⟨r, h, -⟩
        cases h
    | some r =>
      refine (rel_some_iff (o := some r) (f := (Room.step · _))).trans ?_
      simp only [Option.mem_some_iff, forall_eq', Option.some.injEq, exists_eq_left']
      exact Group.alike_join
  | syncGroup req =>
    refine alike_groups_iff.trans ((groupsAlike_onGroup_iff fun r => by simp).trans
      (or_congr_right (rel_some_iff.trans ?_)))
    exact forall₂_congr fun r _ => Room.alike_sync
  | heartbeat req =>
    refine alike_groups_iff.trans ((groupsAlike_onGroup_iff fun r => by simp [stepOption]).trans
      (or_congr_right ?_))
    rw [stepOption_heartbeat, rel_some_iff]
    exact forall₂_congr fun r _ => Group.alike_heartbeat
  | leaveGroup req =>
    refine alike_groups_iff.trans ((groupsAlike_onGroup_iff fun r => by simp [stepOption]).trans
      (or_congr_right ?_))
    rw [stepOption_leave, rel_some_iff]
    exact forall₂_congr fun r _ => Group.alike_leave
  | offsetCommit req =>
    refine alike_offsets_iff.trans ?_
    cases hcoord : env.isCoordinator req.groupID with
    | false => simp [Harmless, commitAll, hcoord]
    | true =>
      simp only [Harmless, commitAll, hcoord, if_true, Bool.true_eq_false, false_or]
      exact lookup_commits_iff
  | apiVersions => exact ⟨fun _ => trivial, fun _ => Node.Alike.refl n⟩
  | findCoordinator _ => exact ⟨fun _ => trivial, fun _ => Node.Alike.refl n⟩
  | listGroups => exact ⟨fun _ => trivial, fun _ => Node.Alike.refl n⟩
  | describeGroups _ => exact ⟨fun _ => trivial, fun _ => Node.Alike.refl n⟩
  | offsetFetch _ => exact ⟨fun _ => trivial, fun _ => Node.Alike.refl n⟩

/-! ### Frames that should be refused -/

/-- **A frame that should be refused changes nothing exactly if what can be read of it is
harmless.** -/
theorem refusable_frames (env : Env) (n : Node) (hn : n.holdings.Accurate) (frame : Bytes) :
    (Refusable (decodeFrame frame) → n.Alike (serve env n frame)) ↔
      (Refusable (decodeFrame frame) →
        ∀ req ∈ (decodeFrame frame).request, Harmless env n req) := by
  refine forall_congr' fun _ => ?_
  unfold serve
  cases hreq : (decodeFrame frame).request with
  | none => exact ⟨fun _ req h => absurd h (by simp), fun _ => Node.Alike.refl n⟩
  | some req =>
    simp only [Option.mem_some_iff, forall_eq']
    exact alike_dispatch_iff hn (recordsFit_decodeFrame hreq)

/-- A broker without a controller that leads every partition, where all that can be created
is created. -/
def soleEnv : Env where
  self := 0
  numPartitions := 1
  isLeader := fun _ _ => true
  replicasFor := fun _ _ => [0]
  openLog := fun _ _ => some (Log.create ⟨1024, 64⟩ 0)
  accurate := fun _ _ l h => by
    obtain rfl := Option.some.inj h
    exact accurate_create _ _
  commits := fun _ => true
  now := 0
  autoCreate := false
  isCoordinator := fun _ => true
  random := []
  order := []
  polls := 0

/-- No topic and no group, and the group `g` has committed 5 for the partition 0 of `t`. -/
def startNode : Node where
  holdings := ⟨∅, none, ∅, ∅⟩
  groups := ∅
  offsets := Mq.Group.emptyHost.step (⟨[103], [116], 0⟩, ⟨5, []⟩)

theorem accurate_startNode : startNode.holdings.Accurate := fun _ _ h => by
  rw [startNode, AList.lookup_empty] at h
  cases h

/-- The header of a request without a client id. -/
def putHeader (key version : ℤ) : Bytes :=
  putInt16 key ++ putInt16 version ++ putInt32 1 ++ putNullableString none

/-- A heartbeat for the group `g` that ends after the generation. -/
def cutHeartbeat : Bytes := putHeader 12 2 ++ putString [103] ++ putInt32 1

/-- The members `m` and `n` have joined the group `g`. -/
def joinedRoom : Room :=
  run Room.step .new [.join ⟨[109], [], [], 0⟩ [] 0 [], .join ⟨[110], [], [], 0⟩ [] 0 []]

def groupNode : Node := { startNode with groups := (∅ : Coordinator).insert [103] joinedRoom }

/-- The group is in its second generation, so a heartbeat of the first does no harm. -/
theorem cut_heartbeat_harmless :
    joinedRoom.group.generation = 2 ∧ Refusable (decodeFrame cutHeartbeat) ∧
      groupNode.Alike (serve soleEnv groupNode cutHeartbeat) :=
  have hgeneration : joinedRoom.group.generation = 2 := by decide +kernel
  have herr : (decodeFrame cutHeartbeat).err = true := by decide +kernel
  have hreq : (decodeFrame cutHeartbeat).request = some (.heartbeat ⟨[103], 1, []⟩) := by
    decide +kernel
  ⟨hgeneration, .inl herr, (refusable_frames soleEnv groupNode accurate_startNode cutHeartbeat).mpr
    (fun _ req h => by
      rw [hreq] at h
      cases h
      refine .inr fun r hr => .inl ?_
      obtain rfl := Option.some.inj ((AList.lookup_insert _).symm.trans hr)
      rw [hgeneration]
      decide)
    (.inl herr)⟩

/-- A commit of the group `g` for the partition 0 of `t` that ends before the offset. -/
def cutCommit : Bytes :=
  putHeader 8 2 ++ putString [103] ++ putInt32 1 ++ putString [109] ++ putInt64 (-1) ++
    putInt32 1 ++ putString [116] ++ putInt32 1 ++ putInt32 0

/-- **A commit that is cut off before the offset is stored**, with offset 0 in place of the 5
that was there. -/
theorem cut_commit_stored :
    (decodeFrame cutCommit).err = true ∧
      ¬ startNode.Alike (serve soleEnv startNode cutCommit) ∧
      (startNode.offsets.store.fetch ⟨[103], [116], 0⟩ = (5, [], true)) ∧
      ((serve soleEnv startNode cutCommit).offsets.store.fetch ⟨[103], [116], 0⟩
        = (0, [], true)) := by
  have hbefore : startNode.offsets.store.cache.lookup ⟨[103], [116], 0⟩ = some ⟨5, []⟩ := by
    decide +kernel
  have hafter : (serve soleEnv startNode cutCommit).offsets.store.cache.lookup ⟨[103], [116], 0⟩
      = some ⟨0, []⟩ := by
    decide +kernel
  refine ⟨by decide +kernel, fun h => ?_, by decide +kernel, by decide +kernel⟩
  have := (hafter.symm.trans (h.offsets _)).trans hbefore
  exact absurd this (by decide)

/-- A request of a version that does not exist, for a topic `t` with 3 partitions. -/
def newerCreateTopics : Bytes :=
  putHeader 19 99 ++ putInt32 1 ++ putString [116] ++ putInt32 3 ++ putInt16 1 ++ putInt32 0 ++
    putInt32 0 ++ putInt32 1000 ++ putInt8 0

/-- **A version that is not supported is carried out.** -/
theorem unsupported_version_served :
    (decodeFrame newerCreateTopics).err = false ∧ inRange .createTopics 99 = false ∧
      Refusable (decodeFrame newerCreateTopics) ∧
      ¬ startNode.Alike (serve soleEnv startNode newerCreateTopics) := by
  refine ⟨by decide +kernel, by decide +kernel, .inr ⟨.createTopics, by decide +kernel,
    by decide +kernel⟩, fun h => ?_⟩
  have hbefore : startNode.holdings.catalog.lookup [116] = none := by decide +kernel
  have hafter : (serve soleEnv startNode newerCreateTopics).holdings.catalog.lookup [116]
      = some 3 := by
    decide +kernel
  have := (hafter.symm.trans (h.holdings.catalog _)).trans hbefore
  exact absurd this (by decide)

end Server
end Mq
