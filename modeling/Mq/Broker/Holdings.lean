import Mq.Broker.Replica
import Mq.Lib.Growth
import Mq.Storage.Growth

/-!
# What a broker holds

The part of `internal/broker/broker.go` that a request reaches: the topics that the broker
knows, and the logs of the partitions that are on this node.  Without a controller the
broker keeps a catalog of its own and a topic is registered on first touch; with one, the
topics are those of the committed metadata.

Calls are taken one at a time.  What a call depends on besides the state, such as whether a
log can be opened or the controller gets a command committed, is a `Setting`.

## Main definitions

* `Setting`, `Holdings` — the surroundings and the state.
* `Holdings.createTopic`, `Holdings.createPartitions`, `Holdings.ensureTopic`,
  `Holdings.localLog`, `Holdings.recordReplicaFetch` — the calls.
* `Holdings.Le` — the order in which the holdings grow.
* `Holdings.Alike` — holdings that differ in nothing that a client can see.

## Main results

* `Holdings.localLog_cases` — **everything that looking for a log can do**, which includes
  opening it and registering a topic.
* `Holdings.createTopic_cases`, `Holdings.createPartitions_cases`,
  `Holdings.ensureTopic_cases` — the calls that leave everything alone, and that the others
  cannot be undone.
-/

namespace Mq

open Word Storage Controller

/-! ### State -/

/-- What the calls of a broker depend on besides its state. -/
structure Setting where
  self : ℤ
  /-- The configured number of partitions of a topic. -/
  numPartitions : ℤ
  /-- `IsLeader` of the static placement. -/
  isLeader : Bytes → ℤ → Bool
  /-- `ReplicasFor`, at the configured replication factor. -/
  replicasFor : Bytes → ℤ → List ℤ
  /-- The log that opening a partition yields, if that succeeds. -/
  openLog : Bytes → ℤ → Option Log
  accurate : ∀ topic p l, openLog topic p = some l → l.Accurate
  /-- The commands that the controller gets committed. -/
  commits : Command → Bool
  now : ℤ

/-- The state of a broker. -/
structure Holdings where
  /-- The topics and their numbers of partitions, for a broker without a controller. -/
  catalog : Table Bytes ℤ
  /-- The committed metadata, for a broker with a controller. -/
  ctrl : Option MetaState
  logs : Table (Bytes × ℤ) Log
  /-- What a leader knows about its followers. -/
  followers : Table (Bytes × ℤ) (Table ℤ FollowerProgress)

namespace Holdings

variable (set : Setting)

/-- The partitions of a topic.  One that is not known has the configured number. -/
def numPartitions (b : Holdings) (topic : Bytes) : ℤ :=
  match b.ctrl with
  | some m => ((m.topics.lookup topic).map (·.partitions)).getD set.numPartitions
  | none => (b.catalog.lookup topic).getD set.numPartitions

def knows (b : Holdings) (topic : Bytes) : Bool :=
  match b.ctrl with
  | some m => (m.topics.lookup topic).isSome
  | none => (b.catalog.lookup topic).isSome

/-- This node serves the partition. -/
def leads (b : Holdings) (topic : Bytes) (p : ℤ) : Bool :=
  match b.ctrl with
  | some m => Broker.leads set.self (m.part topic p)
  | none => set.isLeader topic p

/-! ### Opening logs -/

def openLocked (b : Holdings) (topic : Bytes) (p : ℤ) : Holdings × Option Log :=
  match b.logs.lookup (topic, p) with
  | some l => (b, some l)
  | none =>
    match set.openLog topic p with
    | none => (b, none)
    | some l => ({ b with logs := b.logs.insert (topic, p) l }, some l)

/-- Open logs until one fails. -/
def openAll (b : Holdings) : List (Bytes × ℤ) → Holdings × Bool
  | [] => (b, true)
  | x :: xs =>
    match openLocked set b x.1 x.2 with
    | (b', none) => (b', false)
    | (b', some _) => openAll b' xs

/-- The number of partitions to register for a request. -/
def countFor (partitions : ℤ) : ℤ := if partitions ≤ 0 then set.numPartitions else partitions

/-- Enter a topic into the catalog, and open the logs of its partitions. -/
def registerLocked (b : Holdings) (name : Bytes) (partitions : ℤ) : Holdings × Bool :=
  let n := countFor set partitions
  openAll set { b with catalog := b.catalog.insert name n }
    (((List.range n.toNat).map fun (p : ℕ) => (name, (p : ℤ))).filter fun x => set.isLeader x.1 x.2)

/-- One partition of `reconcileFromFSM`.  A log that cannot be opened is left for the next
time. -/
def reconcilePart (b : Holdings) (topic : Bytes) (p : ℤ) (pm : PartitionMeta) : Holdings :=
  if set.self ∈ pm.replicas then
    match openLocked set b topic p with
    | (b', none) => b'
    | (b', some l) =>
      if 1 < pm.replicas.length then
        { b' with logs := b'.logs.insert (topic, p) l.holdHighWatermark }
      else b'
  else b

/-- The partitions of the committed metadata. -/
def placements (m : MetaState) : List (Bytes × ℤ × PartitionMeta) :=
  (m.topics.listing (· ≤ ·)).flatMap fun t =>
    t.2.parts.zipIdx.map fun x => (t.1, (x.2 : ℤ), x.1)

/-- Open the logs of the partitions that the metadata places on this node. -/
def reconcileFromFSM (b : Holdings) : Holdings :=
  match b.ctrl with
  | none => b
  | some m => (placements m).foldl (fun b x => reconcilePart set b x.1 x.2.1 x.2.2) b

/-! ### Topics -/

/-- `Apply` of the controller: the command is committed and applied, or there is an
error. -/
def apply (b : Holdings) (cmd : Command) : Holdings × Bool :=
  match b.ctrl with
  | none => (b, false)
  | some m =>
    if set.commits cmd then
      match m.applyLocked cmd with
      | (m', none) => ({ b with ctrl := some m' }, true)
      | (_, some _) => (b, false)
    else (b, false)

/-- The command that creates a topic. -/
def createCommand (name : Bytes) (np : ℤ) : Command :=
  let np := countFor set np
  let np := if np ≤ 0 then 1 else np
  { type := .createTopic, topic := name,
    replicas := (List.range np.toNat).map fun (p : ℕ) => set.replicasFor name p }

def proposeCreate (b : Holdings) (name : Bytes) (np : ℤ) : Holdings × Bool :=
  match apply set b (createCommand set name np) with
  | (b', true) => (reconcileFromFSM set b', true)
  | (b', false) => if b'.knows name then (reconcileFromFSM set b', true) else (b', false)

def createTopic (b : Holdings) (name : Bytes) (partitions : ℤ) : Holdings × Bool :=
  if b.knows name then (b, false)
  else
    match b.ctrl with
    | some _ => proposeCreate set b name partitions
    | none => registerLocked set b name partitions

/-- The command that adds partitions to a topic that has `cur`. -/
def growCommand (name : Bytes) (cur newCount : ℤ) : Command :=
  { type := .createPartitions, topic := name,
    replicas := (List.range (newCount - cur).toNat).map fun (i : ℕ) =>
      set.replicasFor name (cur + i) }

def createPartitions (b : Holdings) (name : Bytes) (newCount : ℤ) : Holdings × Bool :=
  match b.ctrl with
  | some m =>
    match m.topics.lookup name with
    | none => (b, false)
    | some t =>
      if newCount ≤ t.partitions then (b, false)
      else
        match apply set b (growCommand set name t.partitions newCount) with
        | (b', true) => (reconcileFromFSM set b', true)
        | (b', false) => (b', false)
  | none =>
    match b.catalog.lookup name with
    | none => (b, false)
    | some cur => if newCount ≤ cur then (b, false) else registerLocked set b name newCount

def ensureTopic (b : Holdings) (name : Bytes) : Holdings × Bool :=
  if b.knows name then (b, true)
  else
    match b.ctrl with
    | some _ => proposeCreate set b name set.numPartitions
    | none => registerLocked set b name set.numPartitions

/-! ### Serving a partition -/

/-- Why a log is not served. -/
inductive LogError
  | unknownPartition
  | notLeader
  | notOpened
  deriving DecidableEq, Repr

/-- The outcome of opening a log. -/
def served : Holdings × Option Log → Holdings × Except LogError Log
  | (b, some l) => (b, .ok l)
  | (b, none) => (b, .error .notOpened)

/-- The log of a partition that this node leads, opened if need be.  Without a controller,
the topic is registered on first touch. -/
def localLog (b : Holdings) (topic : Bytes) (p : ℤ) : Holdings × Except LogError Log :=
  if p < 0 ∨ b.numPartitions set topic ≤ p then (b, .error .unknownPartition)
  else if b.leads set topic p = false then (b, .error .notLeader)
  else
    match b.logs.lookup (topic, p) with
    | some l => (b, .ok l)
    | none =>
      if b.ctrl = none ∧ b.catalog.lookup topic = none then
        match registerLocked set b topic (b.numPartitions set topic) with
        | (b', false) => (b', .error .notOpened)
        | (b', true) => served (openLocked set b' topic p)
      else served (openLocked set b topic p)

/-- A leader notes a follower's fetch, and moves the high watermark. -/
def recordReplicaFetch (b : Holdings) (topic : Bytes) (p replicaID fetchOffset : ℤ) : Holdings :=
  match b.ctrl with
  | none => b
  | some m =>
    let prog := (b.followers.lookup (topic, p)).getD ∅
    match b.logs.lookup (topic, p) with
    | none =>
      { b with
        followers :=
          b.followers.insert (topic, p) (prog.insert replicaID ⟨fetchOffset, set.now⟩) }
    | some l =>
      let part := Broker.recordReplicaFetch ⟨l, prog, none, true⟩ set.self set.now
        (m.part topic p) replicaID fetchOffset
      { b with
        logs := b.logs.insert (topic, p) part.log
        followers := b.followers.insert (topic, p) part.followers }

/-! ### The order of the holdings -/

/-- A number of partitions may be replaced by another: by a larger one, or, if it was
negative, by the configured number. -/
def Past (np v c : ℤ) : Prop := (v < c ∧ 0 < c) ∨ (c = np ∧ v < 0 ∧ v ≠ np)

instance (np : ℤ) : IsStrictOrder ℤ (Past np) where
  irrefl v h := by unfold Past at h; omega
  trans u v w h h' := by unfold Past at h h' ⊢; omega

/-- The topic has fewer partitions. -/
def Shorter (t t' : TopicMeta) : Prop := t.parts.length < t'.parts.length

instance : IsStrictOrder TopicMeta Shorter where
  irrefl _ := lt_irrefl _
  trans _ _ _ := lt_trans

/-- The topics of the committed metadata. -/
def topics (b : Holdings) : Table Bytes TopicMeta := (b.ctrl.map (·.topics)).getD ∅

/-- Topics and logs are added, partitions are added to topics, and logs go on. -/
structure Le (b b' : Holdings) : Prop where
  catalog : b.catalog.Grows (Past set.numPartitions) b'.catalog
  mode : b.ctrl.isSome = b'.ctrl.isSome
  topics : b.topics.Grows Shorter b'.topics
  logs : b.logs.Grows Log.Before b'.logs

instance : IsPreorder Holdings (Le set) where
  refl _ := ⟨.refl _, rfl, .refl _, .refl _⟩
  trans _ _ _ h h' := ⟨h.catalog.trans h'.catalog, h.mode.trans h'.mode, h.topics.trans h'.topics,
    h.logs.trans h'.logs⟩

/-- A client cannot tell the holdings apart. -/
structure Alike (b b' : Holdings) : Prop where
  catalog : ∀ topic, b'.catalog.lookup topic = b.catalog.lookup topic
  mode : b'.ctrl.isSome = b.ctrl.isSome
  topics : ∀ topic, b'.topics.lookup topic = b.topics.lookup topic
  logs : ∀ k, b'.logs.lookup k = b.logs.lookup k

variable {set}

theorem Alike.refl (b : Holdings) : b.Alike b := ⟨fun _ => rfl, rfl, fun _ => rfl, fun _ => rfl⟩

variable {b' : Holdings} {topic name : Bytes}

/-- **Holdings that have grown and are not beyond where they were are the same.** -/
theorem alike_iff {b : Holdings} (h : Le set b b') : b.Alike b' ↔ Le set b' b := by
  constructor
  · intro ha
    exact ⟨.of_lookup_eq fun k => (ha.catalog k).symm, ha.mode,
      .of_lookup_eq fun k => (ha.topics k).symm, .of_lookup_eq fun k => (ha.logs k).symm⟩
  · intro h'
    exact ⟨h.catalog.antisymm h'.catalog, h'.mode, h.topics.antisymm h'.topics,
      h.logs.antisymm h'.logs⟩

/-- The logs of the node are accurate. -/
def Accurate (b : Holdings) : Prop := ∀ k l, b.logs.lookup k = some l → l.Accurate

theorem Accurate.insert {b : Holdings} (h : b.Accurate) (k : Bytes × ℤ) {l : Log}
    (hl : l.Accurate) (catalog : Table Bytes ℤ) (ctrl : Option MetaState)
    (followers : Table (Bytes × ℤ) (Table ℤ FollowerProgress)) :
    Accurate ⟨catalog, ctrl, b.logs.insert k l, followers⟩ :=
  Table.forall_lookup_insert hl fun j l' _ hj => h j l' hj

/-! ### What opening does -/

/-- Only the logs have changed, and they have not gone back. -/
structure Opens (b b' : Holdings) : Prop where
  catalog : b'.catalog = b.catalog
  ctrl : b'.ctrl = b.ctrl
  logs : b.logs.Grows Log.Before b'.logs
  accurate : b.Accurate → b'.Accurate

namespace Opens

variable {b b' b'' : Holdings}

theorem refl (b : Holdings) : Opens b b := ⟨rfl, rfl, .refl _, id⟩

theorem trans (h : Opens b b') (h' : Opens b' b'') : Opens b b'' :=
  ⟨h'.catalog.trans h.catalog, h'.ctrl.trans h.ctrl, h.logs.trans h'.logs,
    h'.accurate ∘ h.accurate⟩

theorem le (h : Opens b b') : Le set b b' := by
  have htopics : b'.topics = b.topics := by rw [Holdings.topics, h.ctrl, Holdings.topics]
  exact ⟨by rw [h.catalog]; exact .refl _, by rw [h.ctrl], by rw [htopics]; exact .refl _, h.logs⟩

end Opens

theorem openLocked_cases (b : Holdings) (topic : Bytes) (p : ℤ) :
    (∃ l, b.logs.lookup (topic, p) = some l ∧ openLocked set b topic p = (b, some l)) ∨
    (b.logs.lookup (topic, p) = none ∧ set.openLog topic p = none ∧
      openLocked set b topic p = (b, none)) ∨
    ∃ l, b.logs.lookup (topic, p) = none ∧ set.openLog topic p = some l ∧
      openLocked set b topic p = ({ b with logs := b.logs.insert (topic, p) l }, some l) := by
  unfold openLocked
  cases hlog : b.logs.lookup (topic, p) with
  | some l => exact .inl ⟨l, rfl, rfl⟩
  | none =>
    cases hopen : set.openLog topic p with
    | none => exact .inr (.inl ⟨rfl, rfl, rfl⟩)
    | some l => exact .inr (.inr ⟨l, rfl, rfl, rfl⟩)

theorem opens_openLocked (b : Holdings) (topic : Bytes) (p : ℤ) :
    Opens b (openLocked set b topic p).1 := by
  rcases openLocked_cases b topic p with ⟨l, -, heq⟩ | ⟨-, -, heq⟩ | ⟨l, hnone, hopen, heq⟩ <;>
    rw [heq]
  · exact .refl b
  · exact .refl b
  · refine ⟨rfl, rfl, .insert fun v hv => ?_, fun hb => ?_⟩
    · rw [hnone] at hv
      cases hv
    · exact hb.insert _ (set.accurate topic p l hopen) _ _ _

/-- A log that has been opened is there. -/
theorem lookup_of_openLocked {b : Holdings} {p : ℤ} {l : Log}
    (h : openLocked set b topic p = (b', some l)) : b'.logs.lookup (topic, p) = some l := by
  rcases openLocked_cases b topic p with ⟨l', hl', heq⟩ | ⟨-, -, heq⟩ | ⟨l', -, -, heq⟩ <;>
    rw [heq] at h
  · cases h
    exact hl'
  · cases h
  · cases h
    exact AList.lookup_insert _

theorem opens_openAll (b : Holdings) (xs : List (Bytes × ℤ)) : Opens b (openAll set b xs).1 := by
  induction xs generalizing b with
  | nil => exact .refl b
  | cons x xs ih =>
    have hone : Opens b (openLocked set b x.1 x.2).1 := opens_openLocked b x.1 x.2
    rw [openAll]
    rcases hopen : openLocked set b x.1 x.2 with ⟨b', _ | l⟩ <;> rw [hopen] at hone
    · exact hone
    · exact hone.trans (ih b')

theorem opens_reconcilePart (b : Holdings) (topic : Bytes) (p : ℤ) (pm : PartitionMeta) :
    Opens b (reconcilePart set b topic p pm) := by
  have hone : Opens b (openLocked set b topic p).1 := opens_openLocked b topic p
  unfold reconcilePart
  split
  · rcases hopen : openLocked set b topic p with ⟨b', _ | l⟩ <;> rw [hopen] at hone
    · exact hone
    · dsimp only
      split
      · -- a log that is on hold already stays as it is
        have hl := lookup_of_openLocked hopen
        refine hone.trans ⟨rfl, rfl, .insert fun v hv => ?_, fun hb => ?_⟩
        · obtain rfl := Option.some.inj (hl.symm.trans hv)
          exact l.holdHighWatermark_cases.imp_left Eq.symm
        · exact hb.insert _ ((hb _ l hl).of_mark _ _ _ _) _ _ _
      · exact hone
  · exact .refl b

theorem opens_reconcileFromFSM (b : Holdings) : Opens b (reconcileFromFSM set b) := by
  unfold reconcileFromFSM
  cases b.ctrl with
  | none => exact .refl b
  | some m =>
    dsimp only
    generalize placements m = xs
    induction xs generalizing b with
    | nil => exact .refl b
    | cons x xs ih => exact (opens_reconcilePart b x.1 x.2.1 x.2.2).trans (ih _)

/-! ### What creating does -/

/-- The holdings have grown for good. -/
structure Grown (set : Setting) (b b' : Holdings) : Prop where
  le : Le set b b'
  not_le : ¬ Le set b' b
  accurate : b.Accurate → b'.Accurate

theorem Grown.opens {b b'' : Holdings} (h : Grown set b b') (h' : Opens b' b'') : Grown set b b'' :=
  ⟨trans_of (Le set) h.le h'.le, fun hback => h.not_le (trans_of (Le set) h'.le hback),
    h'.accurate ∘ h.accurate⟩

/-- A count in the catalog is new, or later than the one before. -/
theorem grown_catalog {b : Holdings} {n : ℤ}
    (h : ∀ cur, b.catalog.lookup name = some cur → Past set.numPartitions cur n) :
    Grown set b { b with catalog := b.catalog.insert name n } := by
  refine ⟨⟨.insert fun v hv => .inr (h v hv), rfl, .refl _, .refl _⟩, fun hback => ?_, id⟩
  have hlookup : (b.catalog.insert name n).lookup name = some n := AList.lookup_insert _
  cases hcur : b.catalog.lookup name with
  | none => exact Table.Grows.not_of_new hcur (by simp [hlookup]) hback.catalog
  | some cur => exact Table.Grows.not_of_later hcur hlookup (h cur hcur) hback.catalog

theorem grown_registerLocked {b : Holdings} {n : ℤ}
    (h : ∀ cur, b.catalog.lookup name = some cur → Past set.numPartitions cur (countFor set n)) :
    Grown set b (registerLocked set b name n).1 :=
  (grown_catalog h).opens (opens_openAll _ _)

/-- The metadata of a topic is new, or has more partitions than before. -/
theorem grown_topics {b : Holdings} {m : MetaState} (hctrl : b.ctrl = some m)
    {parts : List PartitionMeta}
    (h : ∀ t, m.topics.lookup name = some t → t.parts.length < parts.length) :
    Grown set b { b with ctrl := some (m.setParts name parts) } := by
  have htopics : b.topics = m.topics := by rw [topics, hctrl]; rfl
  refine ⟨⟨.refl _, by rw [hctrl]; rfl, ?_, .refl _⟩, fun hback => ?_, id⟩
  · rw [htopics]
    exact Table.Grows.insert fun t ht => .inr (h t ht)
  · have hlater : Table.Grows Shorter (m.setParts name parts).topics m.topics := by
      rw [← htopics]
      exact hback.topics
    have hlookup : (m.setParts name parts).topics.lookup name
        = some ⟨wrap32 parts.length, parts⟩ := AList.lookup_insert _
    cases ht : m.topics.lookup name with
    | none => exact Table.Grows.not_of_new ht (by simp [hlookup]) hlater
    | some t => exact Table.Grows.not_of_later ht hlookup (h t ht) hlater

/-- A creation that does not happen: there is the topic already, or the controller does not
get the command committed. -/
def CreateFails (set : Setting) (b : Holdings) (name : Bytes) (np : ℤ) : Prop :=
  b.knows name = true ∨ (b.ctrl ≠ none ∧ set.commits (createCommand set name np) = false)

instance (b : Holdings) (name : Bytes) (np : ℤ) : Decidable (CreateFails set b name np) :=
  haveI : Decidable (b.ctrl ≠ none) := decidable_of_iff (b.ctrl.isSome = true) Option.isSome_iff_ne_none
  inferInstanceAs (Decidable (_ ∨ _ ∧ _))

theorem proposeCreate_cases {b : Holdings} {m : MetaState} (hctrl : b.ctrl = some m)
    (hnew : b.knows name = false) (np : ℤ) :
    (set.commits (createCommand set name np) = false ∧ (proposeCreate set b name np).1 = b) ∨
      (set.commits (createCommand set name np) = true ∧
        Grown set b (proposeCreate set b name np).1) := by
  have hnone : m.topics.lookup name = none := by
    rw [knows, hctrl] at hnew
    exact Option.isNone_iff_eq_none.mp (by simpa using hnew)
  unfold proposeCreate apply
  rw [hctrl]
  dsimp only
  cases hcommit : set.commits (createCommand set name np) with
  | false =>
    rw [if_neg (by simp)]
    dsimp only
    rw [hnew]
    exact .inl ⟨rfl, rfl⟩
  | true =>
    have happly : m.applyLocked (createCommand set name np)
        = (m.setParts name (partsFromReplicas (createCommand set name np).replicas), none) := by
      simp only [MetaState.applyLocked, createCommand, hnone]
    rw [if_pos rfl, happly]
    exact .inr ⟨rfl, (grown_topics hctrl fun t ht => by rw [hnone] at ht; cases ht).opens
      (opens_reconcileFromFSM _)⟩

/-- **Creating a topic** changes nothing, or cannot be undone. -/
theorem createTopic_cases (b : Holdings) (name : Bytes) (np : ℤ) :
    (CreateFails set b name np ∧ (createTopic set b name np).1 = b) ∨
      (¬ CreateFails set b name np ∧ Grown set b (createTopic set b name np).1) := by
  unfold createTopic CreateFails
  cases hknows : b.knows name with
  | true => exact .inl ⟨.inl rfl, rfl⟩
  | false =>
    rw [if_neg (by simp)]
    cases hctrl : b.ctrl with
    | some m =>
      rcases proposeCreate_cases hctrl hknows np with ⟨hcommit, heq⟩ | ⟨hcommit, hgrown⟩
      · exact .inl ⟨.inr ⟨by simp, hcommit⟩, heq⟩
      · exact .inr ⟨by simp [hcommit], hgrown⟩
    | none =>
      refine .inr ⟨by simp, grown_registerLocked fun cur hcur => ?_⟩
      rw [knows, hctrl] at hknows
      simp [hcur] at hknows

/-- **Auto-creation** is creation with the configured number of partitions. -/
theorem ensureTopic_cases (b : Holdings) (name : Bytes) :
    (CreateFails set b name set.numPartitions ∧ (ensureTopic set b name).1 = b) ∨
      (¬ CreateFails set b name set.numPartitions ∧ Grown set b (ensureTopic set b name).1) := by
  have heq : (ensureTopic set b name).1 = (createTopic set b name set.numPartitions).1 := by
    unfold ensureTopic createTopic
    split <;> rfl
  rw [heq]
  exact createTopic_cases b name set.numPartitions

/-- An extension that does not happen.  A catalog can hold a count that is negative, and a
request for one that is larger and not positive is for the configured count. -/
def GrowFails (set : Setting) (b : Holdings) (name : Bytes) (newCount : ℤ) : Prop :=
  match b.ctrl with
  | some m => ∀ t ∈ m.topics.lookup name, newCount ≤ t.partitions ∨
      set.commits (growCommand set name t.partitions newCount) = false
  | none => ∀ cur ∈ b.catalog.lookup name, newCount ≤ cur ∨ countFor set newCount = cur

/-- What is left after a call that changed nothing. -/
structure Same (b t : Holdings) : Prop where
  catalog : ∀ topic, t.catalog.lookup topic = b.catalog.lookup topic
  ctrl : t.ctrl = b.ctrl
  logs : ∀ k, t.logs.lookup k = b.logs.lookup k

theorem Same.refl (b : Holdings) : Same b b := ⟨fun _ => rfl, rfl, fun _ => rfl⟩

theorem Same.symm {b t : Holdings} (h : Same b t) : Same t b :=
  ⟨fun topic => (h.catalog topic).symm, h.ctrl.symm, fun k => (h.logs k).symm⟩

theorem Same.trans {b t u : Holdings} (h : Same b t) (h' : Same t u) : Same b u :=
  ⟨fun k => (h'.catalog k).trans (h.catalog k), h'.ctrl.trans h.ctrl,
    fun k => (h'.logs k).trans (h.logs k)⟩

theorem Same.le {b t : Holdings} (h : Same b t) : Le set t b := by
  have htopics : b.topics = t.topics := by rw [topics, topics, h.ctrl]
  exact ⟨.of_lookup_eq fun k => (h.catalog k).symm, by rw [h.ctrl], by rw [htopics]; exact .refl _,
    .of_lookup_eq fun k => (h.logs k).symm⟩

/-- **Adding partitions** leaves everything as it is, or cannot be undone. -/
theorem createPartitions_cases (b : Holdings) (name : Bytes) (newCount : ℤ) :
    (GrowFails set b name newCount ∧ Same b (createPartitions set b name newCount).1) ∨
      (¬ GrowFails set b name newCount ∧ Grown set b (createPartitions set b name newCount).1) := by
  unfold createPartitions GrowFails
  cases hctrl : b.ctrl with
  | some m =>
    dsimp only
    cases ht : m.topics.lookup name with
    | none => exact .inl ⟨by simp, .refl b⟩
    | some t =>
      simp only [Option.mem_some_iff, forall_eq']
      by_cases hle : newCount ≤ t.partitions
      · rw [if_pos hle]
        exact .inl ⟨.inl hle, .refl b⟩
      · rw [if_neg hle, apply, hctrl]
        dsimp only
        cases hcommit : set.commits (growCommand set name t.partitions newCount) with
        | false => exact .inl ⟨.inr rfl, .refl b⟩
        | true =>
          have happly : m.applyLocked (growCommand set name t.partitions newCount)
              = (m.setParts name (t.parts ++ partsFromReplicas
                (growCommand set name t.partitions newCount).replicas), none) := by
            simp only [MetaState.applyLocked, growCommand, ht]
          rw [if_pos rfl, happly]
          refine .inr ⟨by simp [hle], (grown_topics hctrl fun t' ht' => ?_).opens
            (opens_reconcileFromFSM _)⟩
          obtain rfl := Option.some.inj (ht.symm.trans ht')
          simp only [List.length_append, partsFromReplicas, growCommand, List.length_map,
            List.length_range]
          omega
  | none =>
    dsimp only
    cases hcur : b.catalog.lookup name with
    | none => exact .inl ⟨by simp, .refl b⟩
    | some cur =>
      simp only [Option.mem_some_iff, forall_eq']
      by_cases hle : newCount ≤ cur
      · rw [if_pos hle]
        exact .inl ⟨.inl hle, .refl b⟩
      · rw [if_neg hle]
        by_cases hcount : countFor set newCount = cur
        · -- the count is negative, so there is no log to open
          have hneg : (countFor set newCount).toNat = 0 := by
            unfold countFor at hcount ⊢
            split at hcount <;> omega
          refine .inl ⟨.inr hcount, ?_⟩
          rw [registerLocked, hneg]
          refine ⟨fun topic => ?_, rfl, fun _ => rfl⟩
          change (b.catalog.insert name (countFor set newCount)).lookup topic = _
          rw [Table.lookup_insert_ite, hcount]
          split
          · next heq => rw [heq, hcur]
          · rfl
        · refine .inr ⟨by simp [hle, hcount], grown_registerLocked fun cur' hcur' => ?_⟩
          obtain rfl := Option.some.inj (hcur.symm.trans hcur')
          unfold countFor at hcount ⊢
          unfold Past
          split at hcount <;> simp_all <;> omega

/-! ### What looking for a log does -/

/-- The node serves the partition, and its log is open. -/
structure Serves (set : Setting) (b : Holdings) (topic : Bytes) (p : ℤ) (l : Log) : Prop where
  nonneg : 0 ≤ p
  lt : p < b.numPartitions set topic
  leads : b.leads set topic p = true
  log : b.logs.lookup (topic, p) = some l

/-- The node does not serve the partition: there is no such partition, the node does not
lead it, or the log cannot be opened.  A topic that is to be registered is not counted
here, whether or not its logs can be opened. -/
def Unserved (set : Setting) (b : Holdings) (topic : Bytes) (p : ℤ) : Prop :=
  p < 0 ∨ b.numPartitions set topic ≤ p ∨ b.leads set topic p = false ∨
    (b.logs.lookup (topic, p) = none ∧ set.openLog topic p = none ∧
      (b.ctrl ≠ none ∨ b.catalog.lookup topic ≠ none))

theorem Serves.not_unserved {b : Holdings} {p : ℤ} {l : Log} (h : Serves set b topic p l) :
    ¬ Unserved set b topic p := by
  rintro (hneg | hge | hlead | ⟨hnone, -⟩)
  · exact absurd h.nonneg (by omega)
  · exact absurd h.lt (by omega)
  · simp [h.leads] at hlead
  · simp [h.log] at hnone

theorem fst_served (x : Holdings × Option Log) : (served x).1 = x.1 := by
  rcases x with ⟨b, _ | l⟩ <;> rfl

/-- A log that is opened now is new. -/
theorem served_openLocked_cases {b : Holdings} {p : ℤ} (hnone : b.logs.lookup (topic, p) = none) :
    (set.openLog topic p = none ∧ served (openLocked set b topic p) = (b, .error .notOpened)) ∨
      (set.openLog topic p ≠ none ∧ Grown set b (served (openLocked set b topic p)).1) := by
  rcases openLocked_cases b topic p with ⟨l, hl, -⟩ | ⟨-, hopen, heq⟩ | ⟨l, -, hopen, heq⟩
  · rw [hnone] at hl
    cases hl
  · exact .inl ⟨hopen, by rw [heq]; rfl⟩
  · have hopens : Opens b (openLocked set b topic p).1 := opens_openLocked b topic p
    rw [heq] at hopens ⊢
    refine .inr ⟨by simp [hopen], hopens.le, fun hback => ?_, hopens.accurate⟩
    refine Table.Grows.not_of_new hnone ?_ hback.logs
    change (b.logs.insert (topic, p) l).lookup (topic, p) ≠ none
    rw [AList.lookup_insert]
    simp

/-- **Everything that looking for a log can do**: there is none, there is one, or a log is
opened or a topic registered, which cannot be undone. -/
theorem localLog_cases (b : Holdings) (topic : Bytes) (p : ℤ) :
    (Unserved set b topic p ∧ ∃ e, localLog set b topic p = (b, .error e)) ∨
    (∃ l, Serves set b topic p l ∧ localLog set b topic p = (b, .ok l)) ∨
    (¬ Unserved set b topic p ∧ b.logs.lookup (topic, p) = none ∧
      Grown set b (localLog set b topic p).1) := by
  unfold localLog
  by_cases hrange : p < 0 ∨ b.numPartitions set topic ≤ p
  · rw [if_pos hrange]
    exact .inl ⟨hrange.imp_right .inl, _, rfl⟩
  rw [if_neg hrange]
  rw [not_or, not_lt, not_le] at hrange
  cases hlead : b.leads set topic p with
  | false => exact .inl ⟨.inr (.inr (.inl hlead)), _, rfl⟩
  | true =>
    rw [if_neg (by simp)]
    cases hlog : b.logs.lookup (topic, p) with
    | some l => exact .inr (.inl ⟨l, ⟨hrange.1, hrange.2, hlead, hlog⟩, rfl⟩)
    | none =>
      dsimp only
      by_cases hnew : b.ctrl = none ∧ b.catalog.lookup topic = none
      · -- the topic is registered, and whatever follows keeps it
        rw [if_pos hnew]
        have hgrown : Grown set b (registerLocked set b topic (b.numPartitions set topic)).1 :=
          grown_registerLocked fun cur hcur => by rw [hnew.2] at hcur; cases hcur
        refine .inr (.inr ⟨?_, rfl, ?_⟩)
        · rintro (hneg | hge | hnot | ⟨-, -, hknown⟩)
          · omega
          · omega
          · simp [hlead] at hnot
          · exact hknown.elim (fun h => h hnew.1) fun h => h hnew.2
        · rcases hreg : registerLocked set b topic (b.numPartitions set topic) with ⟨b', _ | _⟩ <;>
            rw [hreg] at hgrown
          · exact hgrown
          · exact hgrown.opens (by rw [fst_served]; exact opens_openLocked b' topic p)
      · rw [if_neg hnew]
        rcases @served_openLocked_cases set topic b p hlog with ⟨hopen, heq⟩ | ⟨hopen, hgrown⟩
        · refine .inl ⟨.inr (.inr (.inr ⟨hlog, hopen, ?_⟩)), _, heq⟩
          rwa [not_and_or] at hnew
        · refine .inr (.inr ⟨?_, rfl, hgrown⟩)
          rintro (hneg | hge | hnot | ⟨-, hnone, -⟩)
          · omega
          · omega
          · simp [hlead] at hnot
          · exact hopen hnone

/-- A log that is handed out is there. -/
theorem lookup_of_localLog {b : Holdings} {p : ℤ} {l : Log}
    (h : localLog set b topic p = (b', .ok l)) : b'.logs.lookup (topic, p) = some l := by
  have hserved : ∀ {c : Holdings}, served (openLocked set c topic p) = (b', .ok l) →
      b'.logs.lookup (topic, p) = some l := by
    intro c hc
    rcases hopen : openLocked set c topic p with ⟨c', _ | l'⟩ <;> rw [hopen] at hc <;> cases hc
    exact lookup_of_openLocked hopen
  unfold localLog at h
  split at h
  · cases h
  split at h
  · cases h
  split at h
  · next l' hl' =>
    cases h
    exact hl'
  split at h
  · split at h
    · cases h
    · exact hserved h
  · exact hserved h

/-! ### The same holdings -/

namespace Same

variable {b t : Holdings} (h : Same b t)

include h

theorem numPartitions (topic : Bytes) :
    t.numPartitions set topic = b.numPartitions set topic := by
  unfold Holdings.numPartitions
  rw [h.ctrl, h.catalog]

theorem knows (topic : Bytes) : t.knows topic = b.knows topic := by
  unfold Holdings.knows
  rw [h.ctrl, h.catalog]

theorem leads (topic : Bytes) (p : ℤ) : t.leads set topic p = b.leads set topic p := by
  unfold Holdings.leads
  rw [h.ctrl]

theorem createFails {name : Bytes} {np : ℤ} :
    CreateFails set t name np ↔ CreateFails set b name np := by
  unfold CreateFails
  rw [h.knows, h.ctrl]

theorem growFails {name : Bytes} {newCount : ℤ} :
    GrowFails set t name newCount ↔ GrowFails set b name newCount := by
  unfold GrowFails
  rw [h.ctrl, h.catalog]

theorem serves {topic : Bytes} {p : ℤ} {l : Log} :
    Serves set t topic p l ↔ Serves set b topic p l := by
  constructor
  · intro hs
    exact ⟨hs.nonneg, by rw [← h.numPartitions]; exact hs.lt, by rw [← h.leads]; exact hs.leads,
      by rw [← h.logs]; exact hs.log⟩
  · intro hs
    exact ⟨hs.nonneg, by rw [h.numPartitions]; exact hs.lt, by rw [h.leads]; exact hs.leads,
      by rw [h.logs]; exact hs.log⟩

theorem unserved {topic : Bytes} {p : ℤ} :
    Unserved set t topic p ↔ Unserved set b topic p := by
  unfold Unserved
  rw [h.numPartitions, h.leads, h.logs, h.ctrl, h.catalog]

/-- Writing a log back. -/
theorem insert {k : Bytes × ℤ} {l : Log} (hl : b.logs.lookup k = some l)
    (followers : Table (Bytes × ℤ) (Table ℤ FollowerProgress)) :
    Same b ⟨t.catalog, t.ctrl, t.logs.insert k l, followers⟩ := by
  refine ⟨h.catalog, h.ctrl, fun j => ?_⟩
  dsimp only
  rw [Table.lookup_insert_ite]
  split
  · next heq => rw [heq, hl]
  · exact h.logs j

end Same

end Holdings

end Mq
