import Mathlib.Data.List.Infix
import Mq.Replication.Fetcher
import Mq.Server.Handlers

/-!
# One partition across the cluster

The replicas of one partition, the committed metadata, and everything that is on its way
between them: fetch requests and responses, proposed commands, and produce requests that
wait for the high watermark.  A run is a list of actions, so that every interleaving is a
run; an action that is not possible in a state leaves it alone.

What a node knows of the metadata is the effect of the first `view` committed commands,
and every action of a node says how far it has seen.  Times are arguments of the actions as
well.  Nothing is taken back from the network: a request may be served and a response
applied at any time, and more than once.  A process that ends keeps what it has written,
and loses the rest.

Some fields only record what happened: the term of a response or a wait is the number of
leader changes that were committed when it was made, `termStart` is the log end of the
leader when it was elected, and `acked` are the batches whose producers were told that they
are stored.

## Main definitions

* `System`, `Action`, `System.step` — the machine.
* `System.Proposed` — the committed commands are ones that a node has proposed.
* `System.Sound` — the batches are well formed and the segments do not grow too large.

## Main results

* `System.placed_commit` — what a committed command does to the placement.
-/

namespace Mq
namespace Cluster

open Word Record Storage Controller Replication Transition

/-! ### The machine -/

/-- A follower's fetch: who asks, whom, and from which offset on. -/
structure Request where
  replicaID : ℤ
  leader : ℤ
  offset : ℤ
  maxBytes : ℤ
  deriving DecidableEq, Repr

/-- A response without an error code. -/
structure Response where
  replicaID : ℤ
  leader : ℤ
  term : ℕ
  hwm : ℤ
  records : Bytes
  deriving DecidableEq, Repr

/-- A produce request that waits for the high watermark to reach `target`. -/
structure Wait where
  node : ℤ
  term : ℕ
  base : ℤ
  target : ℤ
  batches : List Bytes
  deriving DecidableEq, Repr

/-- The batches of a produce request that was answered with the base offset `base`. -/
structure Ack where
  base : ℤ
  batches : List Bytes
  deriving DecidableEq, Repr

structure System where
  topic : Bytes
  partition : ℤ
  members : List ℤ
  quorum : Quorum
  nodes : ℤ → Broker
  requests : List Request
  responses : List Response
  waits : List Wait
  acked : List Ack
  termStart : ℤ

inductive Action
  /-- A node looks at the placement, and puts its log on hold. -/
  | reconcile (node : ℤ) (view : ℕ) (now : ℤ)
  /-- A producer's request with `acks = all`. -/
  | produce (node : ℤ) (view : ℕ) (now : ℤ) (records : Bytes)
  /-- A request that waits is answered, if the high watermark has come far enough. -/
  | ack (i : ℕ)
  /-- A follower asks its leader for what comes after its log end. -/
  | request (node : ℤ) (view : ℕ) (maxBytes : ℤ)
  /-- The node that was asked serves the request. -/
  | serve (i : ℕ) (view : ℕ) (now : ℤ)
  /-- The follower applies a response. -/
  | apply (i : ℕ) (now : ℤ)
  /-- A leader looks after the in-sync replicas and the high watermark. -/
  | tick (node : ℤ) (view : ℕ) (now : ℤ)
  /-- A controller looks whether the leader is alive. -/
  | failover (node : ℤ) (view : ℕ) (heard : List ℤ)
  /-- A command is committed. -/
  | commit (cmd : Command)
  | crash (node : ℤ)
  | restart (node now : ℤ)

namespace System

/-- Nodes with empty logs. -/
def init (topic : Bytes) (partition : ℤ) (members : List ℤ) (quorum : Quorum) (cfg : ℤ → Config)
    (now : ℤ) : System where
  topic := topic
  partition := partition
  members := members
  quorum := quorum
  nodes := fun n => Broker.fresh (cfg n) now
  requests := []
  responses := []
  waits := []
  acked := []
  termStart := 0

/-- The placement that the first `v` committed commands give. -/
def view (s : System) (v : ℕ) : Option PartitionMeta := (s.quorum.view v).part s.topic s.partition

/-- The committed placement. -/
def placed (s : System) : Option PartitionMeta := s.quorum.state.part s.topic s.partition

/-- The number of leader changes so far. -/
def term (s : System) : ℕ :=
  (s.quorum.committed.filter (·.MovesLeader s.topic s.partition)).length

def log (s : System) (n : ℤ) : Log := (s.nodes n).log

def batches (s : System) (n : ℤ) : List Bytes := (s.nodes n).log.batches

def logEnd (s : System) (n : ℤ) : ℤ := (s.nodes n).log.nextOffset

def hwm (s : System) (n : ℤ) : ℤ := (s.nodes n).log.highWatermark

def running (s : System) (n : ℤ) : Bool := n ∈ s.members ∧ (s.nodes n).up = true

def setNode (s : System) (n : ℤ) (b : Broker) : System :=
  { s with nodes := Function.update s.nodes n b }

def reconcile (s : System) (n : ℤ) (v : ℕ) (now : ℤ) : System :=
  if s.running n then s.setNode n ((s.nodes n).reconcileFromFSM n now (s.view v)) else s

def produce (s : System) (n : ℤ) (v : ℕ) (now : ℤ) (records : Bytes) : System :=
  if s.running n then
    match Server.produce (s.nodes n) n now (s.view v) records with
    | (b, .wait base target stored) =>
      { s.setNode n b with waits := s.waits ++ [⟨n, s.term, base, target, stored⟩] }
    | (b, .respond base stored) =>
      { s.setNode n b with acked := if 0 ≤ base then s.acked ++ [⟨base, stored⟩] else s.acked }
    | (b, _) => s.setNode n b
  else s

def ack (s : System) (i : ℕ) : System :=
  match s.waits[i]? with
  | none => s
  | some w =>
    if s.running w.node = true ∧ Server.committed (s.log w.node) w.target = true then
      { s with acked := s.acked ++ [⟨w.base, w.batches⟩] }
    else s

/-- Node ids are not negative. -/
def request (s : System) (n : ℤ) (v : ℕ) (maxBytes : ℤ) : System :=
  match s.view v with
  | none => s
  | some m =>
    if s.running n = true ∧ 0 ≤ n ∧ 0 ≤ m.leader ∧ m.leader ≠ n then
      { s with requests := s.requests ++ [⟨n, m.leader, (s.log n).latestOffset, maxBytes⟩] }
    else s

def serve (s : System) (i : ℕ) (v : ℕ) (now : ℤ) : System :=
  match s.requests[i]? with
  | none => s
  | some r =>
    if s.running r.leader then
      match Server.buildFetch (s.nodes r.leader) r.leader now (s.view v) r.replicaID r.offset
          r.maxBytes with
      | (b, some ⟨.none, hwm, _, records⟩) =>
        { s.setNode r.leader b with
          responses := s.responses ++ [⟨r.replicaID, r.leader, s.term, hwm, records⟩] }
      | (b, _) => s.setNode r.leader b
    else s

/-- What the fetch session does with a response.  A batch that is refused ends the session
before the high watermark is set. -/
def applyResponse (b : Broker) (now : ℤ) (r : Response) : Broker :=
  match iterate (applyBatch now) r.records b.log with
  | (l, _, .done) | (l, _, .malformed _) => { b with log := l.setHighWatermark r.hwm }
  | (l, _, _) => { b with log := l }

def apply (s : System) (i : ℕ) (now : ℤ) : System :=
  match s.responses[i]? with
  | none => s
  | some r =>
    if s.running r.replicaID then
      s.setNode r.replicaID (applyResponse (s.nodes r.replicaID) now r)
    else s

def tick (s : System) (n : ℤ) (v : ℕ) (now : ℤ) : System :=
  match s.view v with
  | none => s
  | some m =>
    if s.running n = true ∧ m.leader = n ∧ 1 < m.replicas.length then
      let b := s.nodes n
      { s.setNode n (b.advanceHighWatermark n (some m)) with
        quorum := s.quorum.propose n
          (maintainPartitionISR n now b.followers b.leadSince s.topic s.partition m) }
    else s

def failover (s : System) (n : ℤ) (v : ℕ) (heard : List ℤ) : System :=
  match s.view v with
  | none => s
  | some m =>
    if s.running n then
      { s with quorum := s.quorum.propose n (checkFailover n heard s.topic s.partition m) }
    else s

def commit (s : System) (cmd : Command) : System :=
  { s with
    quorum := s.quorum.commit cmd
    termStart := if cmd.MovesLeader s.topic s.partition then s.logEnd cmd.leader else s.termStart }

/-- The requests that were waiting at the node get no answer. -/
def crash (s : System) (n : ℤ) : System :=
  if s.running n then
    { s.setNode n { s.nodes n with up := false } with waits := s.waits.filter (·.node ≠ n) }
  else s

def restart (s : System) (n now : ℤ) : System :=
  if n ∈ s.members ∧ (s.nodes n).up = false then s.setNode n ((s.nodes n).restart now) else s

def step (s : System) : Action → System
  | .reconcile n v now => s.reconcile n v now
  | .produce n v now records => s.produce n v now records
  | .ack i => s.ack i
  | .request n v maxBytes => s.request n v maxBytes
  | .serve i v now => s.serve i v now
  | .apply i now => s.apply i now
  | .tick n v now => s.tick n v now
  | .failover n v heard => s.failover n v heard
  | .commit cmd => s.commit cmd
  | .crash n => s.crash n
  | .restart n now => s.restart n now

/-- A command is committed only after a node has proposed it. -/
def Proposed (s : System) : Action → Prop
  | .commit cmd => cmd ∈ s.quorum.proposals.map (·.command)
  | _ => True

instance (s : System) (a : Action) : Decidable (s.Proposed a) := by
  unfold Proposed; split <;> infer_instance

/-- The produced batches are well formed, and the segments have room for what is
appended. -/
def Sound (s : System) : Action → Prop
  | .produce n _ _ records => Server.WellFormedSet records ∧ (s.log n).Room (split records)
  | .apply i _ => ∀ r ∈ s.responses[i]?, (s.log r.replicaID).Room (split r.records)
  | _ => True

instance (s : System) (a : Action) : Decidable (s.Sound a) := by
  unfold Sound; split <;> infer_instance

/-! ### Placements -/

end System

/-- The placement of a partition after a command. -/
def placedAfter (topic : Bytes) (p : ℤ) (c : Command) (m : PartitionMeta) : PartitionMeta :=
  if c.MovesLeader topic p then
    { m with leader := c.leader, isr := c.isr, leaderEpoch := wrap32 (m.leaderEpoch + 1) }
  else if c.type = .changeISR ∧ c.topic = topic ∧ c.partition = p then { m with isr := c.isr }
  else m

theorem partition_of_part {s : MetaState} {topic : Bytes} {p : ℤ} {m : PartitionMeta}
    (hm : s.part topic p = some m) : s.partition topic p = .ok m := by
  cases hp : s.partition topic p with
  | error e => rw [MetaState.partition_eq_error hp] at hm; cases hm
  | ok m' => rw [MetaState.partition_eq_ok hp] at hm; cases hm; rfl

/-- Only the commands that name a partition change its placement. -/
theorem part_step {s : MetaState} {topic : Bytes} {p : ℤ} {m : PartitionMeta}
    (hm : s.part topic p = some m) (c : Command) :
    (s.step c).part topic p = some (placedAfter topic p c m) := by
  rw [placedAfter]
  by_cases hlead : c.MovesLeader topic p
  · obtain ⟨htype, rfl, rfl⟩ := hlead
    rw [if_pos ⟨htype, rfl, rfl⟩, MetaState.step, MetaState.applyLocked, htype]
    simp only [partition_of_part hm, MetaState.part_setPartition hm, and_self, if_true]
  · by_cases hsync : c.type = .changeISR ∧ c.topic = topic ∧ c.partition = p
    · obtain ⟨htype, rfl, rfl⟩ := hsync
      rw [if_neg hlead, if_pos ⟨htype, rfl, rfl⟩, MetaState.step, MetaState.applyLocked, htype]
      simp only [partition_of_part hm, MetaState.part_setPartition hm, and_self, if_true]
    · rw [if_neg hlead, if_neg hsync]
      have heffect := (Effect.step s c).1
      generalize s.step c = s' at heffect
      cases heffect with
      | refuse | refs => exact hm
      | grow => exact MetaState.part_setParts_append hm
      | lead pm hpm htype =>
        rw [MetaState.part_setPartition hpm, if_neg, hm]
        rintro ⟨rfl, rfl⟩
        exact hlead ⟨htype, rfl, rfl⟩
      | sync pm hpm htype =>
        rw [MetaState.part_setPartition hpm, if_neg, hm]
        rintro ⟨rfl, rfl⟩
        exact hsync ⟨htype, rfl, rfl⟩

namespace System

variable {s : System}

theorem placed_commit {m : PartitionMeta} (hm : s.placed = some m) (cmd : Command) :
    (s.commit cmd).placed = some (placedAfter s.topic s.partition cmd m) := by
  show (s.quorum.commit cmd).state.part s.topic s.partition = _
  rw [show (s.quorum.commit cmd).state = s.quorum.state.step cmd from run_snoc _ _ _]
  exact part_step hm cmd

theorem term_commit (cmd : Command) :
    (s.commit cmd).term
      = s.term + if cmd.MovesLeader s.topic s.partition then 1 else 0 := by
  show ((s.quorum.committed ++ [cmd]).filter (·.MovesLeader s.topic s.partition)).length = _
  rw [List.filter_append, List.length_append, List.filter_singleton]
  by_cases h : cmd.MovesLeader s.topic s.partition <;> simp [h, term]

end System

/-! ### Two replicas -/

/-- A new partition with the replicas 0 and 1, led by node 0. -/
def pair : System :=
  .init [116] 0 [0, 1] ⟨[{ type := .createTopic, topic := [116], replicas := [[0, 1]] }], []⟩
    (fun _ => ⟨1000000, 0⟩) 0

/-- The command that sets its in-sync replicas. -/
def setISR (isr : List ℤ) : Command :=
  { type := .changeISR, topic := [116], partition := 0, isr := isr }

def second : ℤ := 1000000000

end Cluster
end Mq
