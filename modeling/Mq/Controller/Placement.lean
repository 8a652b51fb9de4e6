import Mq.Controller.Fsm

/-!
# Who leads and who is in sync

Two parts of the program change the placement of a partition.  A node that finds
itself named as the leader decides who is in sync (`internal/broker/broker.go`), and
the controller's leader elects another leader when one is no longer heard from
(`internal/controller/liveness.go`).  Both work on a copy of the metadata that may be
old by the time their command is committed.

## Main definitions

* `maintainPartitionISR`, `checkFailover` — the commands that are proposed.
* `Quorum`, `Move`, `Quorum.step` — the committed commands, and those on their way.
* `MetaState.Placed` — every partition's leader is in sync, and only replicas are.
* `Quorum.Fenced` — a command about who is in sync is committed while its proposer
  still leads.

## Main results

* `leader_in_isr` — **with fencing, the committed leader is always in sync.**
* `stale_isr_drops_leader` — without it, a deposed leader's command removes its
  successor from the in-sync replicas.
-/

namespace Mq
namespace Controller

open Word Transition

/-! ### The in-sync replicas -/

/-- What a leader knows about a follower: where it last fetched, and when. -/
structure FollowerProgress where
  endOffset : ℤ
  lastSeen : ℤ
  deriving DecidableEq, Repr

/-- Ten seconds, in nanoseconds. -/
def replicaLagTimeout : ℤ := 10000000000

/-- A replica is in sync if it was heard from lately, or is still to be heard from after
the leader took over. -/
def inSync (now : ℤ) (prog : Table ℤ FollowerProgress) (leadSince : Option ℤ) (r : ℤ) : Bool :=
  match prog.lookup r with
  | some pr => now - pr.lastSeen ≤ replicaLagTimeout
  | none =>
    match leadSince with
    | some t => now - t ≤ replicaLagTimeout
    | none => false

/-- The leader and every replica in sync, in the order of the replicas. -/
def desiredISR (self now : ℤ) (prog : Table ℤ FollowerProgress) (leadSince : Option ℤ)
    (replicas : List ℤ) : List ℤ :=
  replicas.filter fun r => r = self ∨ inSync now prog leadSince r = true

/-- Two lists of the same length, the second with nothing that the first does not have. -/
def sameNodeSet (a b : List ℤ) : Bool := a.length = b.length ∧ ∀ x ∈ b, x ∈ a

/-- The command that a leader proposes for a partition of which it holds the view `pv`. -/
def maintainPartitionISR (self now : ℤ) (prog : Table ℤ FollowerProgress) (leadSince : Option ℤ)
    (topic : Bytes) (p : ℤ) (pv : PartitionMeta) : Option Command :=
  let desired := desiredISR self now prog leadSince pv.replicas
  if sameNodeSet desired pv.isr then none
  else some { type := .changeISR, topic := topic, partition := p, isr := desired }

/-- A node looks after the partitions that it leads and that have other replicas. -/
def maintainReplica (self now : ℤ) (prog : Table ℤ FollowerProgress) (leadSince : Option ℤ)
    (topic : Bytes) (p : ℤ) (pv : PartitionMeta) : Option Command :=
  if pv.leader ≠ self ∨ pv.replicas.length ≤ 1 then none
  else maintainPartitionISR self now prog leadSince topic p pv

/-! ### Elections -/

/-- The controller's leader takes itself and those it has heard from for alive. -/
def alive (self : ℤ) (heard : List ℤ) (id : ℤ) : Bool := id = self ∨ id ∈ heard

/-- The first replica in sync that is alive becomes the leader of a partition that has
lost its own. -/
def checkFailover (self : ℤ) (heard : List ℤ) (topic : Bytes) (p : ℤ) (pv : PartitionMeta) :
    Option Command :=
  if 0 ≤ pv.leader ∧ alive self heard pv.leader = true then none
  else
    match pv.isr.filter fun id => alive self heard id with
    | [] => none
    | id :: survivors =>
      if id = pv.leader then none
      else some { type := .changeLeader, topic := topic, partition := p, leader := id
                  isr := id :: survivors }

/-! ### The quorum -/

/-- A command and the node that computed it. -/
structure Proposal where
  proposer : ℤ
  command : Command
  deriving DecidableEq, Repr

/-- The committed commands, and those that have been proposed. -/
structure Quorum where
  committed : List Command
  proposals : List Proposal

inductive Move
  /-- A command that is about no leader and no in-sync replicas is committed.  Its
  replica sets are not empty and have no node twice. -/
  | client (cmd : Command)
  /-- A node that has seen the first `view` commands looks after a partition. -/
  | maintain (self : ℤ) (view : ℕ) (topic : Bytes) (p now : ℤ) (prog : Table ℤ FollowerProgress)
    (leadSince : Option ℤ)
  /-- A node that takes itself for the controller's leader, and has seen the first `view`
  commands, looks for partitions without a leader. -/
  | failover (self : ℤ) (view : ℕ) (topic : Bytes) (p : ℤ) (heard : List ℤ)
  /-- A proposal is committed, possibly late, and possibly again after a retry. -/
  | commit (i : ℕ)

/-- Commands of clients and of the object backend. -/
def Command.IsClient (c : Command) : Prop :=
  c.type ≠ .changeLeader ∧ c.type ≠ .changeISR ∧ ∀ rs ∈ c.replicas, rs ≠ [] ∧ rs.Nodup

instance (c : Command) : Decidable c.IsClient := by unfold Command.IsClient; infer_instance

namespace Quorum

def empty : Quorum := ⟨[], []⟩

/-- The metadata of a node that has seen the first `view` commands. -/
def view (q : Quorum) (view : ℕ) : MetaState := run MetaState.step .empty (q.committed.take view)

/-- The committed metadata. -/
def state (q : Quorum) : MetaState := run MetaState.step .empty q.committed

/-- Add what a node proposes. -/
def propose (q : Quorum) (self : ℤ) : Option Command → Quorum
  | none => q
  | some cmd => { q with proposals := q.proposals ++ [⟨self, cmd⟩] }

def commit (q : Quorum) (cmd : Command) : Quorum := { q with committed := q.committed ++ [cmd] }

def step (q : Quorum) : Move → Quorum
  | .client cmd => if cmd.IsClient then q.commit cmd else q
  | .maintain self view topic p now prog leadSince =>
    match (q.view view).part topic p with
    | none => q
    | some pv => q.propose self (maintainReplica self now prog leadSince topic p pv)
  | .failover self view topic p heard =>
    match (q.view view).part topic p with
    | none => q
    | some pv => q.propose self (checkFailover self heard topic p pv)
  | .commit i =>
    match q.proposals[i]? with
    | none => q
    | some pr => q.commit pr.command

/-- When a command about the in-sync replicas is committed, its proposer leads. -/
def Fenced (q : Quorum) : Move → Prop
  | .commit i =>
    match q.proposals[i]? with
    | none => True
    | some pr => pr.command.type = .changeISR →
        (q.state.part pr.command.topic pr.command.partition).all
          (fun pv => pv.leader = pr.proposer) = true
  | _ => True

instance (q : Quorum) (a : Move) : Decidable (q.Fenced a) := by
  unfold Fenced; split
  · split <;> infer_instance
  · infer_instance

end Quorum

/-! ### Placements that commands keep -/

/-- The leader of a partition is in sync, and those in sync are replicas. -/
def PartitionMeta.Placed (pv : PartitionMeta) : Prop := pv.leader ∈ pv.isr ∧ pv.isr ⊆ pv.replicas

def MetaState.Placed (s : MetaState) : Prop := ∀ topic p pv, s.part topic p = some pv → pv.Placed

/-- The command, applied to this placement, leaves a leader that is in sync. -/
structure Command.Sound (c : Command) (pv : PartitionMeta) : Prop where
  lead : c.type = .changeLeader → c.leader ∈ c.isr ∧ c.isr ⊆ pv.replicas
  sync : c.type = .changeISR → pv.leader ∈ c.isr ∧ c.isr ⊆ pv.replicas

theorem placed_partFromReplicas {rs : List ℤ} (h : rs ≠ []) : (partFromReplicas rs).Placed := by
  cases rs with
  | nil => exact absurd rfl h
  | cons r rs => exact ⟨List.mem_cons_self, List.Subset.refl _⟩

variable {s : MetaState}

/-- **A sound command keeps the leaders in sync.** -/
theorem MetaState.Placed.step (hs : s.Placed) {c : Command}
    (hsound : ∀ pv, s.part c.topic c.partition = some pv → c.Sound pv)
    (hreplicas : ∀ rs ∈ c.replicas, rs ≠ []) : (s.step c).Placed := by
  have heffect := (Effect.step s c).1
  generalize s.step c = s' at heffect
  intro topic p pv hpv
  cases hbefore : s.part topic p with
  | none =>
    obtain ⟨rs, hrs, rfl⟩ := List.mem_map.mp (heffect.part_of_none hbefore hpv)
    exact placed_partFromReplicas (hreplicas rs hrs)
  | some pv₀ =>
    have hpv₀ := hs topic p pv₀ hbefore
    cases heffect with
    | refuse | refs => cases hbefore.symm.trans hpv; exact hpv₀
    | grow => cases (MetaState.part_setParts_append hbefore).symm.trans hpv; exact hpv₀
    | lead pm hpm htype =>
      rw [MetaState.part_setPartition hpm] at hpv
      split at hpv
      · cases hpv; exact (hsound pm hpm).lead htype
      · cases hbefore.symm.trans hpv; exact hpv₀
    | sync pm hpm htype =>
      rw [MetaState.part_setPartition hpm] at hpv
      split at hpv
      · cases hpv; exact (hsound pm hpm).sync htype
      · cases hbefore.symm.trans hpv; exact hpv₀

/-! ### What is proposed -/

theorem mem_desiredISR {self : ℤ} {replicas : List ℤ} (h : self ∈ replicas) (now : ℤ)
    (prog : Table ℤ FollowerProgress) (leadSince : Option ℤ) :
    self ∈ desiredISR self now prog leadSince replicas ∧
      desiredISR self now prog leadSince replicas ⊆ replicas :=
  ⟨List.mem_filter.mpr ⟨h, by simp⟩, List.filter_subset_self _⟩

/-- A proposed command about the in-sync replicas has its proposer among them, and a
proposed leader is among the in-sync replicas proposed with it. -/
structure Proposal.Ok (pr : Proposal) (s : MetaState) : Prop where
  isr : ∃ pv, s.part pr.command.topic pr.command.partition = some pv ∧
    pr.command.isr ⊆ pv.replicas
  member : pr.command.type = .changeLeader ∧ pr.command.leader ∈ pr.command.isr ∨
    pr.command.type = .changeISR ∧ pr.proposer ∈ pr.command.isr
  replicas : pr.command.replicas = []

theorem ok_maintainReplica {self now : ℤ} {prog : Table ℤ FollowerProgress} {leadSince : Option ℤ}
    {topic : Bytes} {p : ℤ} {pv : PartitionMeta} {cmd : Command} (hpv : s.part topic p = some pv)
    (hplaced : pv.Placed) (h : maintainReplica self now prog leadSince topic p pv = some cmd) :
    Proposal.Ok ⟨self, cmd⟩ s := by
  rw [maintainReplica] at h
  split at h
  · cases h
  · next hlead =>
    have hself : pv.leader = self := by
      by_contra hne
      exact hlead (.inl hne)
    rw [maintainPartitionISR] at h
    split at h
    · cases h
    · cases h
      have hmem := mem_desiredISR (hself ▸ hplaced.2 hplaced.1) now prog leadSince
      exact ⟨⟨pv, hpv, hmem.2⟩, .inr ⟨rfl, hmem.1⟩, rfl⟩

theorem ok_checkFailover {self : ℤ} {heard : List ℤ} {topic : Bytes} {p : ℤ} {pv : PartitionMeta}
    {cmd : Command} (hpv : s.part topic p = some pv) (hplaced : pv.Placed)
    (h : checkFailover self heard topic p pv = some cmd) : Proposal.Ok ⟨self, cmd⟩ s := by
  rw [checkFailover] at h
  split at h
  · cases h
  · split at h
    · cases h
    · next id survivors hfilter =>
      split at h
      · cases h
      · cases h
        refine ⟨⟨pv, hpv, ?_⟩, .inl ⟨rfl, List.mem_cons_self⟩, rfl⟩
        show id :: survivors ⊆ pv.replicas
        rw [← hfilter]
        exact fun x hx => hplaced.2 (List.mem_filter.mp hx).1

/-- A proposal stays what it was while commands are committed. -/
theorem Proposal.Ok.run {pr : Proposal} (h : pr.Ok s) (cs : List Command) :
    pr.Ok (run MetaState.step s cs) := by
  obtain ⟨pv, hpv, hsub⟩ := h.isr
  obtain ⟨pv', hpv', hreplicas⟩ := exists_part_run cs hpv
  exact ⟨⟨pv', hpv', hreplicas ▸ hsub⟩, h.member, h.replicas⟩

/-! ### Runs -/

namespace Quorum

variable {q : Quorum}

theorem view_of_le (q : Quorum) {v : ℕ} (h : q.committed.length ≤ v) : q.view v = q.state := by
  rw [view, List.take_of_length_le h, state]

/-- What a view shows is still there, except for later changes. -/
theorem ok_state_of_view {pr : Proposal} {v : ℕ} (h : pr.Ok (q.view v)) : pr.Ok q.state := by
  have hrun := h.run (q.committed.drop v)
  rwa [view, ← run_append, List.take_append_drop] at hrun

/-- Every node's view has its leaders in sync, and the proposals are sound for a leader
that has not changed. -/
structure Inv (q : Quorum) : Prop where
  views : ∀ v, (q.view v).Placed
  proposals : ∀ pr ∈ q.proposals, pr.Ok q.state

theorem inv_empty : Inv empty where
  views := by
    intro v topic p pv hpv
    rw [view, show (empty.committed.take v) = [] from List.take_nil] at hpv
    cases hpv
  proposals := by intro pr hpr; cases hpr

theorem Inv.propose (h : Inv q) {self : ℤ} {cmd : Option Command}
    (hcmd : ∀ c, cmd = some c → Proposal.Ok ⟨self, c⟩ q.state) : Inv (q.propose self cmd) := by
  cases cmd with
  | none => exact h
  | some c =>
    refine ⟨h.views, ?_⟩
    intro pr hpr
    rcases List.mem_append.mp hpr with hpr | hpr
    · exact h.proposals pr hpr
    · rw [List.mem_singleton.mp hpr]
      exact hcmd c rfl

theorem Inv.commit (h : Inv q) {cmd : Command} (hcmd : (q.state.step cmd).Placed) :
    Inv (q.commit cmd) := by
  have hstate : (q.commit cmd).state = q.state.step cmd := run_snoc _ _ _
  constructor
  · intro v
    by_cases hv : v ≤ q.committed.length
    · have hview : (q.commit cmd).view v = q.view v := by
        rw [view, Quorum.commit, List.take_append_of_le_length hv, view]
      rw [hview]
      exact h.views v
    · rw [view_of_le, hstate]
      · exact hcmd
      · rw [Quorum.commit, List.length_append, List.length_singleton]
        omega
  · intro pr hpr
    rw [hstate]
    exact (h.proposals pr hpr).run [cmd]

/-- **Every move of the quorum keeps the invariant**, if stale commands are fenced. -/
theorem Inv.step (h : Inv q) {a : Move} (ha : q.Fenced a) : Inv (q.step a) := by
  have hplaced : q.state.Placed := by
    rw [← q.view_of_le le_rfl]
    exact h.views _
  cases a with
  | client cmd =>
    rw [Quorum.step]
    split
    · next hclient =>
      obtain ⟨hlead, hsync, hreplicas⟩ := hclient
      refine h.commit (hplaced.step ?_ fun rs hrs => (hreplicas rs hrs).1)
      intro pv _
      exact ⟨fun htype => absurd htype hlead, fun htype => absurd htype hsync⟩
    · exact h
  | maintain self view topic p now prog leadSince =>
    rw [Quorum.step]
    split
    · exact h
    · next pv hpv =>
      refine h.propose fun c hc => ?_
      exact ok_state_of_view (ok_maintainReplica hpv (h.views view topic p pv hpv) hc)
  | failover self view topic p heard =>
    rw [Quorum.step]
    split
    · exact h
    · next pv hpv =>
      refine h.propose fun c hc => ?_
      exact ok_state_of_view (ok_checkFailover hpv (h.views view topic p pv hpv) hc)
  | commit i =>
    rw [Quorum.step]
    rw [Fenced] at ha
    cases hpr : q.proposals[i]? with
    | none => exact h
    | some pr =>
      rw [hpr] at ha
      have hok := h.proposals pr (List.mem_of_getElem? hpr)
      refine h.commit (hplaced.step ?_ ?_)
      · intro pv hpv
        obtain ⟨pv', hpv', hsub⟩ := hok.isr
        cases hpv.symm.trans hpv'
        constructor
        · intro htype
          rcases hok.member with ⟨-, hmem⟩ | ⟨hsync, -⟩
          · exact ⟨hmem, hsub⟩
          · rw [htype] at hsync; cases hsync
        · intro htype
          rcases hok.member with ⟨hlead, -⟩ | ⟨-, hmem⟩
          · rw [htype] at hlead; cases hlead
          · have hleader := ha htype
            rw [hpv, Option.all_some, decide_eq_true_eq] at hleader
            exact ⟨hleader ▸ hmem, hsub⟩
      · rw [hok.replicas]
        intro rs hrs
        cases hrs

end Quorum

/-- **The committed leader is in the committed in-sync replicas, and these are
replicas**, after every command of a run in which a command about the in-sync replicas
is only committed while its proposer leads. -/
theorem leader_in_isr (as : List Move) (h : Along Quorum.step Quorum.Fenced Quorum.empty as) :
    Always Quorum.step (fun q => q.state.Placed) Quorum.empty as := by
  have hinv : Always Quorum.step Quorum.Inv Quorum.empty as :=
    h.always Quorum.inv_empty fun q a hq ha => hq.step ha
  refine hinv.mono fun q hq => ?_
  rw [← q.view_of_le le_rfl]
  exact hq.views _

/-- Three replicas.  Node 0 leads; at the time of its decision it has heard from neither
of the others for too long.  The controller at node 1 no longer hears from node 0. -/
def deposedMoves : List Move :=
  [.client { type := .createTopic, topic := [116], replicas := [[0, 1, 2]] },
    .maintain 0 1 [116] 0 20000000000 ∅ (some 0),
    .failover 1 1 [116] 0 [2]]

/-- The decision is committed before the election. -/
theorem leader_in_isr_deposed :
    Always Quorum.step (fun q => q.state.Placed) Quorum.empty
      (deposedMoves ++ [.commit 0, .commit 1]) :=
  leader_in_isr (deposedMoves ++ [.commit 0, .commit 1]) (by decide +kernel)

/-- The election is committed, then the decision of the node that led before. -/
theorem stale_isr_drops_leader :
    (run Quorum.step Quorum.empty (deposedMoves ++ [.commit 1, .commit 0])).state.part [116] 0
        = some ⟨[0, 1, 2], 1, [0], 1⟩ ∧
      ¬ (run Quorum.step Quorum.empty (deposedMoves ++ [.commit 1, .commit 0])).state.Placed := by
  have hpart : (run Quorum.step Quorum.empty
      (deposedMoves ++ [.commit 1, .commit 0])).state.part [116] 0
        = some ⟨[0, 1, 2], 1, [0], 1⟩ := by decide +kernel
  refine ⟨hpart, fun h => ?_⟩
  exact absurd (h _ _ _ hpart).1 (by decide)

end Controller
end Mq
