import Mq.Controller.Placement
import Mq.Storage.Whole

/-!
# A broker's part in a replicated partition

What `internal/broker/broker.go` keeps for one partition of which the node is a replica:
the local log and, if the node leads, what it knows about its followers.  A follower is
known by the offset of its last fetch; the leader takes it that the follower holds
everything below.

The placement `pv` that the functions are given is what the node's copy of the metadata
says, which may be old.

## Main definitions

* `Broker` — the state of one node for one partition.
* `Broker.recordReplicaFetch`, `Broker.advanceHighWatermark` — the leader's bookkeeping.
* `Broker.reconcileFromFSM` — what a new placement makes the node do.
* `Broker.Advances` — what the high watermark may become.

## Main results

* `Broker.advanceHighWatermark_cases` — **everything that can happen to the high
  watermark.**
-/

namespace Mq

open Word Storage Controller

/-- One node's state for one partition. -/
structure Broker where
  log : Log
  /-- The followers that have fetched since the process started. -/
  followers : Table ℤ FollowerProgress
  /-- When this process first found the node leading the partition. -/
  leadSince : Option ℤ
  /-- The process runs. -/
  up : Bool

namespace Broker

/-- A node that has just opened an empty log.  The log is put on hold later, when the node is
told that the partition has several replicas. -/
def fresh (cfg : Config) (now : ℤ) : Broker := ⟨Log.create cfg now, ∅, none, true⟩

/-- The loop of `advanceHighWatermark` over the in-sync replicas.  One that has not fetched
yet holds the result at 0. -/
def leastReplicated (self : ℤ) (prog : Table ℤ FollowerProgress) : ℤ → List ℤ → ℤ
  | hwm, [] => hwm
  | hwm, id :: isr =>
    if id = self then leastReplicated self prog hwm isr
    else
      let off := ((prog.lookup id).map (·.endOffset)).getD 0
      leastReplicated self prog (if off < hwm then off else hwm) isr

/-- The leader's high watermark is the smallest offset replicated across the in-sync
replicas. -/
def advanceHighWatermark (b : Broker) (self : ℤ) (pv : Option PartitionMeta) : Broker :=
  match pv with
  | none => b
  | some pv =>
    if pv.leader ≠ self then b
    else
      let hwm := leastReplicated self b.followers b.log.latestOffset pv.isr
      { b with log := b.log.setHighWatermark hwm }

/-- A follower has fetched at an offset. -/
def recordReplicaFetch (b : Broker) (self now : ℤ) (pv : Option PartitionMeta)
    (replicaID fetchOffset : ℤ) : Broker :=
  advanceHighWatermark
    { b with followers := b.followers.insert replicaID ⟨fetchOffset, now⟩ } self pv

/-- The time is kept once. -/
def noteLeadSince (b : Broker) (now : ℤ) : Broker :=
  match b.leadSince with
  | none => { b with leadSince := some now }
  | some _ => b

/-- A replica of a partition with several replicas puts its log on hold. -/
def reconcileFromFSM (b : Broker) (self now : ℤ) (pv : Option PartitionMeta) : Broker :=
  match pv with
  | none => b
  | some pv =>
    if self ∈ pv.replicas ∧ 1 < pv.replicas.length then
      let b := { b with log := b.log.holdHighWatermark }
      if pv.leader = self then b.noteLeadSince now else b
    else b

/-- A new process opens the log that is on disk.  Without it, the process does not start. -/
def restart (b : Broker) (now : ℤ) : Broker :=
  match Log.open b.log.cfg now b.log.dir with
  | .ok l => ⟨l, ∅, none, true⟩
  | .error _ => b

/-- The node leads the partition, by the placement it has. -/
def leads (self : ℤ) (pv : Option PartitionMeta) : Bool := pv.any (·.leader = self)

theorem leads_iff {self : ℤ} {pv : Option PartitionMeta} :
    leads self pv = true ↔ ∃ m, pv = some m ∧ m.leader = self := by
  simp [leads, Option.any_eq_true]

/-! ### The high watermark -/

/-- The offset of a follower's last fetch, or 0. -/
def endOffset (b : Broker) (id : ℤ) : ℤ := ((b.followers.lookup id).map (·.endOffset)).getD 0

/-- **The result of the loop** is a lower bound, and one of the offsets it was computed
from. -/
theorem leastReplicated_spec (b : Broker) (self : ℤ) (isr : List ℤ) (hwm : ℤ) :
    leastReplicated self b.followers hwm isr ≤ hwm ∧
      (∀ id ∈ isr, id ≠ self → leastReplicated self b.followers hwm isr ≤ b.endOffset id) ∧
      (leastReplicated self b.followers hwm isr = hwm ∨
        ∃ id ∈ isr, id ≠ self ∧ leastReplicated self b.followers hwm isr = b.endOffset id) := by
  induction isr generalizing hwm with
  | nil => exact ⟨le_rfl, by simp, .inl rfl⟩
  | cons id isr ih =>
    rw [leastReplicated]
    by_cases hself : id = self
    · rw [if_pos hself]
      obtain ⟨hle, hall, hone⟩ := ih hwm
      refine ⟨hle, ?_, ?_⟩
      · intro id' hid' hne
        rcases List.mem_cons.mp hid' with rfl | hid'
        · exact absurd hself hne
        · exact hall id' hid' hne
      · rcases hone with hone | ⟨id', hid', hne, heq⟩
        · exact .inl hone
        · exact .inr ⟨id', List.mem_cons_of_mem _ hid', hne, heq⟩
    · rw [if_neg hself]
      -- the accumulator becomes the smaller of the two offsets
      have hmin : (if ((b.followers.lookup id).map (·.endOffset)).getD 0 < hwm
          then ((b.followers.lookup id).map (·.endOffset)).getD 0 else hwm)
            = min hwm (b.endOffset id) := by
        show (if b.endOffset id < hwm then b.endOffset id else hwm) = _
        split <;> omega
      dsimp only
      rw [hmin]
      obtain ⟨hle, hall, hone⟩ := ih (min hwm (b.endOffset id))
      refine ⟨hle.trans (min_le_left _ _), ?_, ?_⟩
      · intro id' hid' hne
        rcases List.mem_cons.mp hid' with rfl | hid'
        · exact hle.trans (min_le_right _ _)
        · exact hall id' hid' hne
      · rcases hone with hone | ⟨id', hid', hne, heq⟩
        · rcases min_choice hwm (b.endOffset id) with hm | hm
          · exact .inl (hone.trans hm)
          · exact .inr ⟨id, List.mem_cons_self, hself, hone.trans hm⟩
        · exact .inr ⟨id', List.mem_cons_of_mem _ hid', hne, heq⟩

/-- The high watermark of a leader may become `x`: it stays as it is, or it moves forward to
an offset that no in-sync replica is known to be below. -/
structure Advances (b : Broker) (node : ℤ) (pv : Option PartitionMeta) (x : ℤ) : Prop where
  ge : b.log.highWatermark ≤ x
  le : x ≤ b.log.nextOffset
  known : x = b.log.highWatermark ∨ ∃ m, pv = some m ∧ m.leader = node ∧
    (∀ id ∈ m.isr, id ≠ node → x ≤ b.endOffset id) ∧
    (x = b.log.nextOffset ∨ ∃ id, x = b.endOffset id)

theorem advances_self {b : Broker} (hb : b.log.Whole) (self : ℤ) (pv : Option PartitionMeta) :
    b.Advances self pv b.log.highWatermark := ⟨le_rfl, hb.le_next, .inl rfl⟩

/-- **What the leader's bookkeeping can do to the high watermark.** -/
theorem advanceHighWatermark_cases {b : Broker} (hb : b.log.Whole) (self : ℤ)
    (pv : Option PartitionMeta) :
    ∃ x, b.advanceHighWatermark self pv = { b with log := { b.log with highWatermark := x } } ∧
      b.Advances self pv x := by
  unfold advanceHighWatermark
  cases pv with
  | none => exact ⟨_, rfl, advances_self hb self none⟩
  | some m =>
    dsimp only
    by_cases hlead : m.leader = self
    · rw [if_neg (not_not.mpr hlead)]
      obtain ⟨hle, hall, hone⟩ := b.leastReplicated_spec self m.isr b.log.nextOffset
      obtain ⟨x, heq, hge, hnext, hx⟩ := hb.setHighWatermark
        (leastReplicated self b.followers b.log.latestOffset m.isr)
      rw [Log.latestOffset, min_eq_right hle] at hx
      refine ⟨x, by rw [heq], hge, hnext, ?_⟩
      rcases hx with rfl | rfl
      · exact .inl rfl
      · refine .inr ⟨m, rfl, hlead, hall, ?_⟩
        rcases hone with hone | ⟨id, -, -, hone⟩
        · exact .inl hone
        · exact .inr ⟨id, hone⟩
    · rw [if_pos hlead]
      exact ⟨_, rfl, advances_self hb self (some m)⟩

end Broker

end Mq
