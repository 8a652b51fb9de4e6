import Mq.Broker.Directories
import Mq.Server.Dispatch

/-!
# Topics that nobody created

A broker without a controller that is not to create topics by itself.  The metadata handler of
`internal/server/handlers.go` asks for the setting before it registers a topic.  The handlers of
produce, fetch and `ListOffsets` requests do not: they come to `LocalLog`, which registers a
topic that is not in the catalog when one of its partitions is first touched, and opens the log
of a partition that is in the catalog without one.  A partition of such a topic is refused as
unknown only if its index is not below the configured number of partitions.

The store of the committed offsets keeps its files below the directory that the partitions are
in, so that a commit can make the directory of a partition too: the group id is a path.

## Main definitions

* `Shelf`, `Visit` — the holdings of a broker with the disk, and a request with what it depends
  on.
* `Node.visit` — what a request does.
* `EachPartition` — a condition on the partitions that a request comes to.
* `CommitsTidy` — the commits of a request make no directory of a partition.
* `Shelf.Refuses` — a partition of a topic that is not in the catalog is answered with the code
  of an unknown one.
* `Shelf.Settled` — a partition that is in range is one of a topic in the catalog, and opening
  its log makes no directory.

## Main results

* `leaderStep_iff` — **the rule for one partition**.
* `only_admin_creates_iff` — **requests other than those that administer topics leave the
  catalog and the directories alone, and refuse unknown topics, exactly if every partition that
  they come to is settled and every commit is tidy.**
* `first_touch_creates` — a `ListOffsets` request creates a topic.
-/

namespace Mq
namespace Server

open Word Files Storage Wire Transition

/-! ### State -/

/-- The holdings of a broker, and the store of the committed offsets with the disk that the
directories of the partitions are on too. -/
structure Shelf where
  holdings : Holdings
  offsets : Mq.Group.Host

/-- The disk. -/
def Shelf.fs (s : Shelf) : FileSystem := s.offsets.fs

def Node.shelf (n : Node) : Shelf := ⟨n.holdings, n.offsets⟩

/-- A request, with what it depends on. -/
structure Visit where
  env : Env
  req : Wire.Request

/-- The request administers topics. -/
def administers : Wire.Request → Bool
  | .createTopics _ | .createPartitions _ => true
  | _ => false

variable (disk : Disk)

/-! ### Requests on a shelf -/

section Steps

variable {α : Type}

/-- A step on the holdings, with the directories that its calls of `storage.Open` make. -/
def withDirs (op : Holdings → α → Holdings × Bool) (tries : Holdings → α → List (Bytes × ℤ))
    (s : Shelf) (a : α) : Shelf × Bool :=
  (⟨(op s.holdings a).1, disk.openDirs s.fs (tries s.holdings a), s.offsets.store⟩,
    (op s.holdings a).2)

/-- One partition of a request. -/
def leaderStep (set : Setting) (key : α → Bytes × ℤ) (act : α → Holdings → Log → Holdings × Bool) :
    Shelf → α → Shelf × Bool :=
  withDirs disk (fun b a => atLeader set b (key a).1 (key a).2 (act a))
    fun b a => b.localLogTries set (key a).1 (key a).2

/-- One topic of a request. -/
def topicStep (op : Holdings → α → Holdings) (tries : Holdings → α → List (Bytes × ℤ)) :
    Shelf → α → Shelf × Bool :=
  withDirs disk (fun b a => (op b a, false)) tries

end Steps

variable (env : Env)

def produceKey (x : Bytes × ProducePartition) : Bytes × ℤ := (x.1, x.2.index)

def fetchKey (x : Bytes × FetchPartition) : Bytes × ℤ := (x.1, x.2.partition)

def listOffsetsKey (x : Bytes × ListOffsetsPartition) : Bytes × ℤ := (x.1, x.2.index)

def produceStep : Shelf → Bytes × ProducePartition → Shelf × Bool :=
  leaderStep disk env.toSetting produceKey (produceTo env.toSetting)

def fetchStep (replicaID : ℤ) : Shelf → Bytes × FetchPartition → Shelf × Bool :=
  leaderStep disk env.toSetting fetchKey (fetchFrom env.toSetting replicaID)

def listOffsetsStep : Shelf → Bytes × ListOffsetsPartition → Shelf × Bool :=
  leaderStep disk env.toSetting listOffsetsKey seekIn

/-- The logs that one topic of a metadata request tries to open. -/
def describeTries (b : Holdings) (name : Bytes) : List (Bytes × ℤ) :=
  if env.autoCreate then b.callTries env.toSetting (.ensureTopic name) else []

/-- What a request does to the holdings and the directories. -/
def Shelf.serve (s : Shelf) : Wire.Request → Shelf
  | .metadata req => runUntil (topicStep disk (describeTopic env) (describeTries env)) s req.topics
  | .produce req => runUntil (produceStep disk env) s (producePartitions req)
  | .fetch req => runUntil (fetchStep disk env req.replicaID) s (fetchPartitions env req)
  | .listOffsets req => runUntil (listOffsetsStep disk env) s (listOffsetsPartitions req)
  | .createTopics req =>
    runUntil (topicStep disk (createOne env) fun b t =>
      b.callTries env.toSetting (.createTopic t.name t.numPartitions)) s req.topics
  | .createPartitions req =>
    runUntil (topicStep disk (growOne env) fun b t =>
      b.callTries env.toSetting (.createPartitions t.name t.count)) s req.topics
  | .offsetCommit req => ⟨s.holdings, commitAll env s.offsets req⟩
  -- the others are about groups, or only read
  | .apiVersions | .findCoordinator _ | .joinGroup _ | .syncGroup _ | .heartbeat _
  | .leaveGroup _ | .listGroups | .describeGroups _ | .offsetFetch _ => s

/-- What a request does. -/
def Node.visit (n : Node) (v : Visit) : Node :=
  { dispatch v.env n v.req with offsets := (n.shelf.serve disk v.env v.req).offsets }

/-- The commits of the request make no directory of a partition. -/
def CommitsTidy (s : Shelf) : Wire.Request → Prop
  | .offsetCommit req => env.isCoordinator req.groupID = true →
      Along Mq.Group.Host.step disk.Tidy s.offsets (commitsOf req)
  | _ => True

/-- The condition holds of each partition that the request comes to. -/
def EachPartition (C : Setting → Shelf → Bytes × ℤ → Prop) (s : Shelf) : Wire.Request → Prop
  | .produce req =>
    AlongUntil (produceStep disk env) (fun t x => C env.toSetting t (produceKey x)) s
      (producePartitions req)
  | .fetch req =>
    AlongUntil (fetchStep disk env req.replicaID) (fun t x => C env.toSetting t (fetchKey x)) s
      (fetchPartitions env req)
  | .listOffsets req =>
    AlongUntil (listOffsetsStep disk env) (fun t x => C env.toSetting t (listOffsetsKey x)) s
      (listOffsetsPartitions req)
  | _ => True

instance (C : Setting → Shelf → Bytes × ℤ → Prop) [∀ set s k, Decidable (C set s k)] (s : Shelf) :
    ∀ req, Decidable (EachPartition disk env C s req)
  | .produce _ | .fetch _ | .listOffsets _ => decidableAlongUntil _ _ _ _
  | .apiVersions | .metadata _ | .findCoordinator _ | .joinGroup _ | .syncGroup _ | .heartbeat _
  | .leaveGroup _ | .listGroups | .describeGroups _ | .offsetCommit _ | .offsetFetch _
  | .createTopics _ | .createPartitions _ => inferInstanceAs (Decidable True)

/-! ### What a client sees -/

/-- The code that a partition is answered with if its log is not served. -/
def leaderCode : Except Holdings.LogError Log → ErrorCode
  | .ok _ => .none
  | .error .notLeader => .notLeader
  | .error .unknownPartition | .error .notOpened => .unknownTopicOrPart

namespace Shelf

/-- A partition of a topic that is not in the catalog is answered as an unknown one. -/
def Refuses (set : Setting) (s : Shelf) (k : Bytes × ℤ) : Prop :=
  s.holdings.knows k.1 = false →
    leaderCode (s.holdings.localLog set k.1 k.2).2 = .unknownTopicOrPart

/-- The partition is out of range; or the topic is in the catalog, and where this node leads
the partition its log is open or opening it makes no directory. -/
def Settled (disk : Disk) (set : Setting) (s : Shelf) (k : Bytes × ℤ) : Prop :=
  0 ≤ k.2 → k.2 < s.holdings.numPartitions set k.1 →
    s.holdings.knows k.1 = true ∧
      (s.holdings.leads set k.1 k.2 = true → s.holdings.logs.lookup k = none →
        ¬ disk.Makes s.fs k)

instance (set : Setting) (s : Shelf) (k : Bytes × ℤ) : Decidable (s.Refuses set k) :=
  inferInstanceAs (Decidable (_ → _))

instance (disk : Disk) (set : Setting) (s : Shelf) (k : Bytes × ℤ) :
    Decidable (s.Settled disk set k) :=
  inferInstanceAs (Decidable (_ → _ → _ ∧ (_ → _ → ¬ _)))

/-- The catalog and the directories of the partitions are the same. -/
structure Unchanged (disk : Disk) (s s' : Shelf) : Prop where
  catalog : ∀ topic, s'.holdings.catalog.lookup topic = s.holdings.catalog.lookup topic
  dirs : ∀ k, disk.Has s'.fs k ↔ disk.Has s.fs k

/-- Topics and directories are added. -/
structure Le (disk : Disk) (s s' : Shelf) : Prop where
  catalog : ∀ topic n, s.holdings.catalog.lookup topic = some n →
    s'.holdings.catalog.lookup topic = some n
  dirs : ∀ k, disk.Has s.fs k → disk.Has s'.fs k

instance : IsPreorder Shelf (Le disk) where
  refl _ := ⟨fun _ _ => id, fun _ => id⟩
  trans _ _ _ h h' := ⟨fun topic n hn => h'.catalog topic n (h.catalog topic n hn),
    fun k hk => h'.dirs k (h.dirs k hk)⟩

end Shelf

variable {disk} {env}

theorem unchanged_iff {s s' : Shelf} (h : s.Le disk s') :
    s.Unchanged disk s' ↔ s'.Le disk s := by
  constructor
  · intro hsame
    exact ⟨fun topic n hn => (hsame.catalog topic).symm.trans hn, fun k => (hsame.dirs k).mp⟩
  · intro hback
    refine ⟨fun topic => ?_, fun k => ⟨hback.dirs k, h.dirs k⟩⟩
    exact Option.ext fun n => ⟨hback.catalog topic n, h.catalog topic n⟩

/-! ### One partition -/

section Partition

variable {α : Type} {set : Setting} {key : α → Bytes × ℤ}
  {act : α → Holdings → Log → Holdings × Bool}

/-- What a handler does to a log leaves the topics alone. -/
def KeepsTopics (act : α → Holdings → Log → Holdings × Bool) : Prop :=
  ∀ a b l, (act a b l).1.catalog = b.catalog ∧ (act a b l).1.ctrl = b.ctrl

variable (hact : KeepsTopics act)
include hact

/-- So the topics after a partition are those after the look for its log. -/
theorem topics_atLeader (b : Holdings) (a : α) :
    (atLeader set b (key a).1 (key a).2 (act a)).1.catalog
        = (b.localLog set (key a).1 (key a).2).1.catalog ∧
      (atLeader set b (key a).1 (key a).2 (act a)).1.ctrl
        = (b.localLog set (key a).1 (key a).2).1.ctrl := by
  unfold atLeader
  rcases b.localLog set (key a).1 (key a).2 with ⟨b', e | l⟩
  · exact ⟨rfl, rfl⟩
  · exact hact a b' l

variable {s : Shelf}

/-- A step that leaves the catalog alone is undone exactly if it makes no directory. -/
theorem le_leaderStep_iff {a : α}
    (hcatalog : (s.holdings.localLog set (key a).1 (key a).2).1.catalog = s.holdings.catalog) :
    Shelf.Le disk (leaderStep disk set key act s a).1 s ↔
      ∀ k, disk.Has (disk.openDirs s.fs (s.holdings.localLogTries set (key a).1 (key a).2)) k →
        disk.Has s.fs k := by
  refine ⟨fun h => h.dirs, fun h => ⟨fun topic n hn => ?_, h⟩⟩
  have hsame := (topics_atLeader hact s.holdings a).1.trans hcatalog
  rw [← hsame]
  exact hn

omit hact in
theorem knows_eq_false {b : Holdings} (hctrl : b.ctrl = none) {topic : Bytes} :
    b.knows topic = false ↔ b.catalog.lookup topic = none := by
  simp [Holdings.knows, hctrl]

/-- A partition adds topics and directories. -/
theorem le_leaderStep (hctrl : s.holdings.ctrl = none) (a : α) :
    (leaderStep disk set key act s a).1.holdings.ctrl = none ∧
      s.Le disk (leaderStep disk set key act s a).1 := by
  obtain ⟨hcatalog, hctrl'⟩ := @topics_atLeader α set key act hact s.holdings a
  have hlook : (s.holdings.localLog set (key a).1 (key a).2).1.ctrl = none ∧
      ∀ topic n, s.holdings.catalog.lookup topic = some n →
        (s.holdings.localLog set (key a).1 (key a).2).1.catalog.lookup topic = some n := by
    rcases @Holdings.localLog_free_cases set s.holdings hctrl (key a).1 (key a).2 with
      ⟨-, -, heq⟩ | ⟨-, ⟨-, -, heq⟩ | ⟨l, -, -, -, heq⟩ | ⟨-, -, -, -, heq⟩ | ⟨-, hnew, hc, heq⟩⟩
    · rw [heq]
      exact ⟨hctrl, fun _ _ => id⟩
    · rw [heq]
      exact ⟨hctrl, fun _ _ => id⟩
    · rw [heq]
      exact ⟨hctrl, fun _ _ => id⟩
    · obtain ⟨hkeep, hkeep'⟩ := @Holdings.catalog_served set s.holdings (key a).1 (key a).2
      rw [heq, hkeep, hkeep']
      exact ⟨hctrl, fun _ _ => id⟩
    · -- only the topic that was not there is entered
      refine ⟨hc, fun topic n hn => ?_⟩
      rw [heq, Table.lookup_insert_ite, if_neg, hn]
      rintro rfl
      rw [(knows_eq_false hctrl).mp hnew] at hn
      cases hn
  exact ⟨hctrl'.trans hlook.1, ⟨fun topic n hn => (congrArg (·.lookup topic) hcatalog).trans
    (hlook.2 topic n hn), fun k hk => Disk.has_openDirs hk _⟩⟩

/-- **The rule for one partition**: topics and directories stay, and an unknown topic is
refused, exactly if the partition is settled. -/
theorem leaderStep_iff (hctrl : s.holdings.ctrl = none) (a : α) :
    Shelf.Le disk (leaderStep disk set key act s a).1 s ∧ s.Refuses set (key a) ↔
      s.Settled disk set (key a) := by
  unfold Shelf.Refuses Shelf.Settled
  rcases @Holdings.localLog_free_cases set s.holdings hctrl (key a).1 (key a).2 with
    ⟨hrange, htries, heq⟩ | ⟨⟨hnonneg, hlt⟩, ⟨hlead, htries, heq⟩ | ⟨l, hlead, hlog, htries, heq⟩ |
      ⟨hlead, hlog, hknows, htries, heq⟩ | ⟨hlead, hknows, -, heq⟩⟩
  · -- out of range
    rw [le_leaderStep_iff hact (by rw [heq]), htries, heq]
    refine ⟨fun _ h0 hlt => by omega, fun _ => ⟨fun _ => id, fun _ => rfl⟩⟩
  · -- another node leads the partition, so an unknown topic gets another code
    rw [le_leaderStep_iff hact (by rw [heq]), htries, heq]
    simp [Disk.openDirs, leaderCode, hnonneg, hlt, hlead]
  · -- the log is served
    rw [le_leaderStep_iff hact (by rw [heq]), htries, heq]
    simp [Disk.openDirs, leaderCode, hnonneg, hlt, hlog]
  · -- the log of a topic in the catalog is opened
    have hcatalog := (@Holdings.catalog_served set s.holdings (key a).1 (key a).2).1
    rw [le_leaderStep_iff hact (by rw [heq, hcatalog]), htries]
    simp only [hknows, hnonneg, hlt, hlead, hlog, Prod.mk.eta, Bool.true_eq_false, forall_const,
      false_imp_iff, and_true, true_and, Disk.openDirs, List.foldl_cons, List.foldl_nil]
    constructor
    · intro hback hmakes
      exact hmakes.2.1 (hback _ (Disk.has_openDir_of_makes hmakes))
    · intro hnot k hk
      rwa [Disk.openDir_of_not_makes hnot] at hk
  · -- the topic is registered
    constructor
    · rintro ⟨hback, -⟩
      have hcatalog := (@topics_atLeader α set key act hact s.holdings a).1.trans heq
      have hentry := hback.catalog (key a).1 _ (by
        change (atLeader set s.holdings (key a).1 (key a).2 (act a)).1.catalog.lookup _ = _
        rw [hcatalog, AList.lookup_insert])
      rw [(knows_eq_false hctrl).mp hknows] at hentry
      cases hentry
    · intro h
      simp [hknows] at h
      omega

/-- The partitions of a request add topics and directories. -/
theorem le_runUntil (hctrl : s.holdings.ctrl = none) (as : List α) :
    (runUntil (leaderStep disk set key act) s as).holdings.ctrl = none ∧
      s.Le disk (runUntil (leaderStep disk set key act) s as) := by
  refine runUntil_induct (P := fun t => t.holdings.ctrl = none ∧ s.Le disk t)
    (D := fun _ => True) (fun t a ht _ => ?_) ⟨hctrl, refl_of _ s⟩ fun _ _ => trivial
  obtain ⟨hctrl', hle⟩ := @le_leaderStep disk α set key act hact t ht.1 a
  exact ⟨hctrl', trans_of _ ht.2 hle⟩

/-- The rule for the partitions of a request. -/
theorem runUntil_leaderStep_iff (hctrl : s.holdings.ctrl = none) (as : List α) :
    Shelf.Le disk (runUntil (leaderStep disk set key act) s as) s ∧
        AlongUntil (leaderStep disk set key act) (fun t a => t.Refuses set (key a)) s as ↔
      AlongUntil (leaderStep disk set key act) (fun t a => t.Settled disk set (key a)) s as :=
  runUntil_le_and_iff (r := Shelf.Le disk) (P := fun t => t.holdings.ctrl = none)
    (D := fun _ => True)
    (fun _ a ht _ => (le_leaderStep hact ht a).1) (fun _ a ht _ => (le_leaderStep hact ht a).2)
    (fun _ a ht _ => leaderStep_iff hact ht a) hctrl fun _ _ => trivial

end Partition

/-! ### One request -/

theorem keepsTopics_produceTo (set : Setting) : KeepsTopics (produceTo set) :=
  fun _ _ _ => ⟨rfl, rfl⟩

theorem keepsTopics_seekIn : KeepsTopics seekIn := fun _ _ _ => ⟨rfl, rfl⟩

theorem keepsTopics_fetchFrom (set : Setting) (replicaID : ℤ) :
    KeepsTopics (fetchFrom set replicaID) := by
  intro x b l
  unfold fetchFrom
  split
  · exact ⟨rfl, rfl⟩
  · split
    · unfold Holdings.recordReplicaFetch
      cases hctrl : b.ctrl with
      | none => exact ⟨rfl, hctrl⟩
      | some m =>
        dsimp only
        split <;> exact ⟨rfl, rfl⟩
    · exact ⟨rfl, rfl⟩

/-- Without auto-creation a metadata request does nothing. -/
theorem describeStep_eq (hauto : env.autoCreate = false) (s : Shelf) (name : Bytes) :
    topicStep disk (describeTopic env) (describeTries env) s name = (s, false) := by
  have hdescribe : describeTopic env s.holdings name = s.holdings := by
    unfold describeTopic
    rw [hauto]
    split <;> rfl
  have htries : describeTries env s.holdings name = [] := by
    rw [describeTries, hauto]
    rfl
  rw [topicStep, withDirs, hdescribe, htries]
  rfl

/-- The directories stay. -/
theorem dirs_commit {h : Mq.Group.Host} {k : Bytes × ℤ} (hk : disk.Has h.fs k)
    (x : Mq.Group.OffsetKey × Mq.Group.Committed) : disk.Has (h.step x).fs k :=
  (Mq.Group.isDir_commit h x _).mpr (.inl hk)

/-- **The rule for one commit.** -/
theorem dirs_commit_iff (h : Mq.Group.Host) (x : Mq.Group.OffsetKey × Mq.Group.Committed) :
    (∀ k, disk.Has (h.step x).fs k → disk.Has h.fs k) ↔ disk.Tidy h x := by
  constructor
  · intro hback hmk k hpre
    exact hback k ((Mq.Group.isDir_commit h x _).mpr (.inr ⟨hmk, hpre⟩))
  · intro htidy k hk
    rcases (Mq.Group.isDir_commit h x _).mp hk with hk | ⟨hmk, hpre⟩
    · exact hk
    · exact htidy hmk k hpre

theorem le_commitAll (s : Shelf) (req : OffsetCommitRequest) :
    s.Le disk ⟨s.holdings, commitAll env s.offsets req⟩ := by
  refine ⟨fun _ _ => id, fun k hk => ?_⟩
  unfold commitAll
  split
  · exact (Along.always (P := fun h : Mq.Group.Host => disk.Has h.fs k)
      (along_of_forall fun _ _ => trivial) hk fun h x hk _ => dirs_commit hk x).final
  · exact hk

/-- The rule for the commits of a request. -/
theorem commitAll_iff (s : Shelf) (req : OffsetCommitRequest) :
    Shelf.Le disk ⟨s.holdings, commitAll env s.offsets req⟩ s ↔
      CommitsTidy disk env s (.offsetCommit req) := by
  unfold commitAll
  dsimp only [CommitsTidy]
  split
  · next hcoord =>
    have : IsPreorder Mq.Group.Host (fun h h' => ∀ k, disk.Has h.fs k → disk.Has h'.fs k) :=
      { refl := fun _ _ => id, trans := fun _ _ _ h h' k hk => h' k (h k hk) }
    have hiff := @run_le_and_iff _ _ (fun _ => True) (fun _ => True) (commitsOf req) disk.Tidy
      (fun h h' => ∀ k, disk.Has h.fs k → disk.Has h'.fs k) this Mq.Group.Host.step
      (fun _ _ => True) (fun _ _ _ _ => trivial) (fun h x _ _ k hk => dirs_commit hk x)
      (fun h x _ _ => (and_iff_left trivial).trans (dirs_commit_iff h x)) s.offsets trivial
      fun _ _ => trivial
    rw [and_iff_left (along_of_forall fun _ _ => trivial)] at hiff
    rw [forall_prop_of_true hcoord, ← hiff]
    exact ⟨fun h => h.dirs, fun h => ⟨fun _ _ => id, h⟩⟩
  · next hcoord => exact ⟨fun _ h => absurd h hcoord, fun _ => refl_of _ s⟩

theorem serve_metadata (hauto : env.autoCreate = false) (s : Shelf) (req : MetadataRequest) :
    s.serve disk env (.metadata req) = s :=
  runUntil_induct (P := (· = s)) (D := fun _ => True)
    (fun t name ht _ => by rw [describeStep_eq hauto, ht]) rfl fun _ _ => trivial

/-- The request is none of those that may create topics. -/
def Visit.Plain (v : Visit) : Prop := v.env.autoCreate = false ∧ administers v.req = false

theorem le_serve {s : Shelf} (hctrl : s.holdings.ctrl = none) {v : Visit} (hv : v.Plain) :
    (s.serve disk v.env v.req).holdings.ctrl = none ∧ s.Le disk (s.serve disk v.env v.req) := by
  rcases v with ⟨env, req⟩
  obtain ⟨hauto, hreq⟩ := hv
  cases req with
  | metadata req => rw [serve_metadata hauto]; exact ⟨hctrl, refl_of _ s⟩
  | produce req => exact le_runUntil (keepsTopics_produceTo _) hctrl _
  | fetch req => exact le_runUntil (keepsTopics_fetchFrom _ _) hctrl _
  | listOffsets req => exact le_runUntil keepsTopics_seekIn hctrl _
  | createTopics req => cases hreq
  | createPartitions req => cases hreq
  | offsetCommit req => exact ⟨hctrl, le_commitAll s req⟩
  | _ => exact ⟨hctrl, refl_of _ s⟩

/-- **The rule for one request.** -/
theorem serve_iff {s : Shelf} (hctrl : s.holdings.ctrl = none) {v : Visit} (hv : v.Plain) :
    Shelf.Le disk (s.serve disk v.env v.req) s ∧
        EachPartition disk v.env (fun set t k => t.Refuses set k) s v.req ↔
      EachPartition disk v.env (fun set t k => t.Settled disk set k) s v.req ∧
        CommitsTidy disk v.env s v.req := by
  rcases v with ⟨env, req⟩
  obtain ⟨hauto, hreq⟩ := hv
  have hsame : Shelf.Le disk s s ∧ True ↔ True ∧ True := by simp [refl_of (Shelf.Le disk) s]
  have hdata : ∀ {p : Prop}, p ↔ p ∧ True := (and_iff_left trivial).symm
  cases req with
  | metadata req => rw [serve_metadata hauto]; exact hsame
  | produce req => exact (runUntil_leaderStep_iff (keepsTopics_produceTo _) hctrl _).trans hdata
  | fetch req => exact (runUntil_leaderStep_iff (keepsTopics_fetchFrom _ _) hctrl _).trans hdata
  | listOffsets req => exact (runUntil_leaderStep_iff keepsTopics_seekIn hctrl _).trans hdata
  | createTopics req => cases hreq
  | createPartitions req => cases hreq
  | offsetCommit req =>
    exact (and_congr_left' (commitAll_iff s req)).trans and_comm
  | _ => exact hsame

/-! ### Runs -/

/-- The holdings of the shelf are those of the node. -/
theorem holdings_serve (n : Node) (req : Wire.Request) :
    (n.shelf.serve disk env req).holdings = (dispatch env n req).holdings := by
  cases req with
  | metadata req => exact runUntil_map (f := Shelf.holdings) (fun _ _ => rfl) _ _
  | produce req => exact runUntil_map (f := Shelf.holdings) (fun _ _ => rfl) _ _
  | fetch req => exact runUntil_map (f := Shelf.holdings) (fun _ _ => rfl) _ _
  | listOffsets req => exact runUntil_map (f := Shelf.holdings) (fun _ _ => rfl) _ _
  | createTopics req => exact runUntil_map (f := Shelf.holdings) (fun _ _ => rfl) _ _
  | createPartitions req => exact runUntil_map (f := Shelf.holdings) (fun _ _ => rfl) _ _
  | _ => rfl

theorem shelf_visit (n : Node) (v : Visit) :
    (n.visit disk v).shelf = n.shelf.serve disk v.env v.req := by
  rw [Node.shelf, Node.visit, ← @holdings_serve disk v.env n v.req]

/-- **When only administration creates topics.**  On a broker without a controller where topics
are not to be created on demand, requests other than those that administer topics leave the
catalog and the directories as they are, and answer every partition of a topic that is not in
the catalog with the code of an unknown one, exactly if each partition that they come to is
settled and no commit is on its way through the missing directory of a partition. -/
theorem only_admin_creates_iff (disk : Disk) (n : Node) (hctrl : n.holdings.ctrl = none)
    (visits : List Visit) (hvisits : ∀ v ∈ visits, v.env.autoCreate = false ∧
      administers v.req = false) :
    (n.shelf.Unchanged disk (run (Node.visit disk) n visits).shelf ∧
        Along (Node.visit disk) (fun t v =>
          EachPartition disk v.env (fun set t k => t.Refuses set k) t.shelf v.req) n visits) ↔
      Along (Node.visit disk) (fun t v =>
        EachPartition disk v.env (fun set t k => t.Settled disk set k) t.shelf v.req ∧
          CommitsTidy disk v.env t.shelf v.req) n visits := by
  have : IsPreorder Node (fun t t' => t.shelf.Le disk t'.shelf) :=
    { refl := fun t => refl_of (Shelf.Le disk) t.shelf
      trans := fun _ _ _ h h' => trans_of (Shelf.Le disk) h h' }
  have hkeep : ∀ (t : Node) v, t.holdings.ctrl = none → v.Plain →
      (t.visit disk v).holdings.ctrl = none ∧ t.shelf.Le disk (t.visit disk v).shelf := by
    intro t v ht hv
    have hserve := @le_serve disk t.shelf ht v hv
    rw [← shelf_visit] at hserve
    exact hserve
  have hle : n.shelf.Le disk (run (Node.visit disk) n visits).shelf :=
    ((along_of_forall hvisits).always (P := fun t => t.holdings.ctrl = none ∧
      n.shelf.Le disk t.shelf) ⟨hctrl, refl_of _ _⟩ fun t v ht hv =>
        ⟨(hkeep t v ht.1 hv).1, trans_of _ ht.2 (hkeep t v ht.1 hv).2⟩).final.2
  rw [unchanged_iff hle]
  refine run_le_and_iff (r := fun t t' => t.shelf.Le disk t'.shelf)
    (P := fun t => t.holdings.ctrl = none) (D := Visit.Plain)
    (fun t v ht hv => (hkeep t v ht hv).1) (fun t v ht hv => (hkeep t v ht hv).2)
    (fun t v ht hv => ?_) hctrl hvisits
  rw [shelf_visit]
  exact serve_iff ht hv

/-- Data in the directory `d`. -/
def dataDisk : Disk := ⟨[⟨[100], by decide⟩], false⟩

/-- A broker that has just been started on an empty disk. -/
def startedNode : Node :=
  let opened := (Mq.Group.newOffsetStore .empty dataDisk.logDirs).get (by decide +kernel)
  ⟨⟨∅, none, ∅, ∅⟩, ∅, opened.1, opened.2⟩

/-- A broker that has the topic `t` with one partition, which was created. -/
def createdNode : Node :=
  startedNode.visit dataDisk ⟨soleEnv, .createTopics ⟨[⟨[116], 1, 1⟩], 0, false⟩⟩

/-- A commit of the group with the given id, for the partition 0 of `t`. -/
def groupCommit (groupID : Bytes) : Wire.Request :=
  .offsetCommit ⟨groupID, -1, [], [⟨[116], [⟨0, 5, -1, none⟩]⟩]⟩

/-- The topic `u` is asked for, and partition 1 of it; the partition 0 of `t` is read; there is
a heartbeat, and the group `g` commits. -/
def plainVisits : List Visit :=
  [⟨soleEnv, .metadata ⟨[[117]], false⟩⟩,
    ⟨soleEnv, .produce ⟨none, 1, 0, [⟨[117], [⟨1, []⟩]⟩, ⟨[116], [⟨0, []⟩]⟩]⟩⟩,
    ⟨soleEnv, .fetch ⟨-1, 0, 0, 0, 0, 0, 0, [⟨[116], [⟨0, 0, 0, 0⟩]⟩]⟩⟩,
    ⟨soleEnv, .heartbeat ⟨[103], 1, [109]⟩⟩, ⟨soleEnv, groupCommit [103]⟩,
    ⟨soleEnv, .listOffsets ⟨-1, 0, [⟨[117], [⟨1, -1, 1⟩]⟩, ⟨[116], [⟨0, -1, 1⟩]⟩]⟩⟩]

theorem plainVisits_create_nothing :
    createdNode.holdings.ctrl = none ∧
      (∀ v ∈ plainVisits, v.env.autoCreate = false ∧ administers v.req = false) ∧
      createdNode.shelf.Unchanged dataDisk
        (run (Node.visit dataDisk) createdNode plainVisits).shelf ∧
      Along (Node.visit dataDisk) (fun t v =>
        EachPartition dataDisk v.env (fun set t k => t.Refuses set k) t.shelf v.req)
        createdNode plainVisits := by
  have hctrl : createdNode.holdings.ctrl = none := by decide +kernel
  have hplain : ∀ v ∈ plainVisits, v.env.autoCreate = false ∧ administers v.req = false := by
    simp [plainVisits, administers, soleEnv, groupCommit]
  have hsettled : Along (Node.visit dataDisk) (fun t v =>
      EachPartition dataDisk v.env (fun set t k => t.Settled dataDisk set k) t.shelf v.req)
      createdNode plainVisits := by decide +kernel
  have htidy : Along (Node.visit dataDisk) (fun t v => CommitsTidy dataDisk v.env t.shelf v.req)
      createdNode plainVisits := by
    refine ⟨trivial, trivial, trivial, trivial, fun _ => ⟨?_, trivial⟩, trivial, trivial⟩
    refine dataDisk.tidy_of_plain (by decide +kernel) (by decide) fun t z heq => ?_
    have hdash : (45 : UInt8) ∈ numbered t z := List.mem_append_right _ List.mem_cons_self
    rw [heq] at hdash
    exact absurd hdash (by decide)
  exact ⟨hctrl, hplain, (only_admin_creates_iff dataDisk createdNode hctrl plainVisits hplain).mpr
    (hsettled.and htidy)⟩

/-- Each of the data requests, for partition 0 of the topic `u`. -/
def touches : List Wire.Request :=
  [.produce ⟨none, 1, 0, [⟨[117], [⟨0, []⟩]⟩]⟩,
    .fetch ⟨-1, 0, 0, 0, 0, 0, 0, [⟨[117], [⟨0, 0, 0, 0⟩]⟩]⟩,
    .listOffsets ⟨-1, 0, [⟨[117], [⟨0, -1, 1⟩]⟩]⟩]

/-- **A data request creates a topic.**  Topics are not to be created on demand and there is no
topic `u`.  A metadata request leaves it at that.  Each of the data requests is answered without
an error, and then `u` is in the catalog and has a directory.  A commit of the group `../u-0`
makes the directory too. -/
theorem first_touch_creates :
    soleEnv.autoCreate = false ∧ createdNode.holdings.ctrl = none ∧
      createdNode.holdings.catalog.lookup [117] = none ∧
      ¬ dataDisk.Has createdNode.shelf.fs ([117], 0) ∧
      leaderCode (createdNode.holdings.localLog soleEnv.toSetting [117] 0).2 = .none ∧
      (createdNode.visit dataDisk ⟨soleEnv, .metadata ⟨[[117]], false⟩⟩).holdings.catalog.lookup
        [117] = none ∧
      (∀ req ∈ touches, administers req = false ∧
        (createdNode.visit dataDisk ⟨soleEnv, req⟩).holdings.catalog.lookup [117] = some 1 ∧
        dataDisk.Has (createdNode.visit dataDisk ⟨soleEnv, req⟩).shelf.fs ([117], 0) ∧
        ¬ EachPartition dataDisk soleEnv (fun set t k => t.Refuses set k) createdNode.shelf
          req) ∧
      dataDisk.Has (createdNode.visit dataDisk
        ⟨soleEnv, groupCommit [46, 46, 47, 117, 45, 48]⟩).shelf.fs ([117], 0) := by
  decide +kernel

end Server
end Mq
