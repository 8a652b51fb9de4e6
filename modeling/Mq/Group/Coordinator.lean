import Mathlib.Data.List.Dedup
import Mathlib.Data.List.Perm.Basic
import Mq.Lib.Table
import Mq.Lib.Transition
import Mq.Lib.Word
import Mq.Wire.ApiKeys

/-!
# The group coordinator

`internal/group/coordinator.go`: consumers join a group, one of them leads it and
assigns the work, and every change of the membership opens a new generation.

A group's lock makes each call one step, except that a follower's `Sync` gives the lock
up while it waits.  The order in which a map is run through is not specified, so
every operation that depends on it is given one.

## Main definitions

* `GroupMember`, `Group` — the state of a group.
* `Group.join`, `Group.sync`, `Group.heartbeat`, `Group.leave`, `Group.reap` — the
  operations.
* `Room`, `Op`, `Room.step` — a group with the calls that wait for it, and what has been
  returned so far.
* `Coordinator` — all groups.

## Main results

* `Group.perm_ids` — an order of running through the members is a permutation of them.
* `Coordinator.room_run` — the groups do not interfere.
* `Coordinator.exists_run_of_lookup` — every group is in a state that a room can reach.
-/

namespace Mq
namespace Consumer

open Word Transition

/-! ### State -/

/-- One assignment protocol that a member supports. -/
structure Protocol where
  name : Bytes
  metadata : Bytes
  deriving DecidableEq, Repr

structure GroupMember where
  id : Bytes
  protocols : List Protocol
  assignment : Bytes
  lastHeartbeat : ℤ
  sessionTimeout : ℤ
  deriving DecidableEq, Repr

inductive GroupState
  | empty
  | awaitingSync
  | stable
  deriving DecidableEq, Repr

structure Group where
  generation : ℤ
  leaderID : Bytes
  protocolName : Bytes
  state : GroupState
  members : Table Bytes GroupMember

/-- Thirty seconds, in nanoseconds. -/
def syncWaitTimeout : ℤ := 30000000000

namespace Group

/-- A group that nobody has joined. -/
def new : Group := ⟨0, [], [], .empty, ∅⟩

/-- The members in the order in which a map is run through: those that `order` lists
come first. -/
def ids (g : Group) (order : List Bytes) : List Bytes :=
  order.dedup.filter (fun id => id ∈ g.members.keys) ++ g.members.keys.filter fun id => id ∉ order

/-- **Whatever the order, each member comes once.** -/
theorem perm_ids (g : Group) (order : List Bytes) : (g.ids order).Perm g.members.keys := by
  have hnodup : (g.ids order).Nodup := by
    refine List.Nodup.append (order.nodup_dedup.filter _) (g.members.keys_nodup.filter _) ?_
    intro id h₁ h₂
    simp only [List.mem_filter, List.mem_dedup, decide_eq_true_eq] at h₁ h₂
    exact h₂.2 h₁.1
  refine (List.perm_ext_iff_of_nodup hnodup g.members.keys_nodup).mpr fun id => ?_
  simp only [ids, List.mem_append, List.mem_filter, List.mem_dedup, decide_eq_true_eq]
  by_cases hid : id ∈ order <;> simp [hid]

theorem mem_ids (g : Group) (order : List Bytes) (id : Bytes) :
    id ∈ g.ids order ↔ g.members.lookup id ≠ none :=
  (g.perm_ids order).mem_iff.trans (Table.mem_keys_iff _ _)

/-! ### JoinGroup -/

end Group

structure JoinArgs where
  memberID : Bytes
  clientID : Bytes
  protocols : List Protocol
  sessionTimeoutMs : ℤ
  deriving DecidableEq, Repr

/-- The session timeout that a member joins with, in nanoseconds. -/
def JoinArgs.sessionTimeout (args : JoinArgs) : ℤ :=
  if args.sessionTimeoutMs ≤ 0 then 30000000000 else args.sessionTimeoutMs * 1000000

/-- A member as the leader is told of it. -/
structure Member where
  id : Bytes
  metadata : Bytes
  deriving DecidableEq, Repr

structure JoinResult where
  errorCode : ErrorCode
  generationID : ℤ
  protocolName : Bytes
  leaderID : Bytes
  memberID : Bytes
  members : List Member
  deriving DecidableEq, Repr

/-- The name of a member's first protocol. -/
def GroupMember.firstProtocol (m : GroupMember) : Option Bytes := m.protocols.head?.map (·.name)

/-- A member's metadata for the chosen protocol, or else for its first. -/
def GroupMember.metadataFor (m : GroupMember) (name : Bytes) : Bytes :=
  match m.protocols.find? (fun p => p.name = name) with
  | some p => p.metadata
  | none => (m.protocols.head?.map (·.metadata)).getD []

namespace Group

/-- The first protocol of the leader, or else of any member that has one. -/
def chooseProtocol (g : Group) (order : List Bytes) : Bytes :=
  match (g.members.lookup g.leaderID).bind GroupMember.firstProtocol with
  | some name => name
  | none =>
    (((g.ids order).filterMap fun id => g.members.lookup id).findSome?
      GroupMember.firstProtocol).getD []

/-- A member that joins without an id gets one, made of the client's and of random
digits. -/
def memberIDFor (args : JoinArgs) (random : Bytes) : Bytes :=
  if args.memberID = [] then args.clientID ++ [45] ++ random else args.memberID

/-- The member as it is after joining. -/
def joined (g : Group) (args : JoinArgs) (id : Bytes) (now : ℤ) : GroupMember :=
  { (g.members.lookup id).getD ⟨id, [], [], 0, 0⟩ with
    protocols := args.protocols
    lastHeartbeat := now
    sessionTimeout := args.sessionTimeout }

/-- A join by a new member, or while no rebalance is going on, opens a generation. -/
def opensGeneration (g : Group) (args : JoinArgs) (id : Bytes) : Prop :=
  args.memberID = [] ∨ g.members.lookup id = none ∨ g.state ≠ .awaitingSync

instance (g : Group) (args : JoinArgs) (id : Bytes) : Decidable (g.opensGeneration args id) := by
  unfold opensGeneration; infer_instance

/-- The next generation, in which the leader is to assign the work anew. -/
def nextGeneration (g : Group) : Group :=
  { g with generation := wrap32 (g.generation + 1), state := .awaitingSync }

/-- The first member, or anyone who joins after the leader has gone, becomes leader. -/
def fillLeader (g : Group) (id : Bytes) : Group :=
  if g.members.lookup g.leaderID = none ∨ g.leaderID = [] then { g with leaderID := id } else g

/-- Add the member, and open a generation if the join does. -/
def enroll (g : Group) (args : JoinArgs) (id : Bytes) (now : ℤ) : Group :=
  let g' := { g with members := g.members.insert id (g.joined args id now) }
  (if g.opensGeneration args id then g'.nextGeneration else g').fillLeader id

def joinResult (g : Group) (id : Bytes) (order : List Bytes) : JoinResult where
  errorCode := .none
  generationID := g.generation
  protocolName := g.protocolName
  leaderID := g.leaderID
  memberID := id
  members :=
    if id = g.leaderID then
      (g.ids order).filterMap fun j => (g.members.lookup j).map fun m =>
        ⟨j, m.metadataFor g.protocolName⟩
    else []

def join (g : Group) (args : JoinArgs) (random : Bytes) (now : ℤ) (order : List Bytes) :
    Group × JoinResult :=
  let id := memberIDFor args random
  let g := g.enroll args id now
  let g := { g with protocolName := g.chooseProtocol order }
  (g, g.joinResult id order)

/-! ### SyncGroup -/

/-- Give the listed members their assignments; ids that are not members are ignored. -/
def assign (g : Group) (assignments : Table Bytes Bytes) : Group :=
  { g with
    members := assignments.entries.foldl (fun t e =>
      match t.lookup e.1 with
      | some m => t.insert e.1 { m with assignment := e.2 }
      | none => t) g.members }

/-- A member is heard from. -/
def touch (g : Group) (id : Bytes) (now : ℤ) : Group :=
  match g.members.lookup id with
  | some m => { g with members := g.members.insert id { m with lastHeartbeat := now } }
  | none => g

/-- What a member is assigned. -/
def assignmentOf (g : Group) (id : Bytes) : Bytes :=
  ((g.members.lookup id).map (·.assignment)).getD []

/-! ### Heartbeat, LeaveGroup and the reaper -/

def heartbeat (g : Group) (id : Bytes) (generation now : ℤ) : Group × ErrorCode :=
  if g.members.lookup id = none then (g, .unknownMemberID)
  else if generation < g.generation then (g, .rebalanceInProgress)
  else if g.generation < generation then (g, .illegalGeneration)
  else (g.touch id now, .none)

/-- Open a generation for those that are left.  If the leader is not among them, any
member becomes it. -/
def rebalance (g : Group) (order : List Bytes) : Group :=
  let g := { g with generation := wrap32 (g.generation + 1) }
  match g.ids order with
  | [] => { g with state := .empty, leaderID := [] }
  | id :: _ =>
    { g with
      state := .awaitingSync
      leaderID := if g.members.lookup g.leaderID = none then id else g.leaderID }

def leave (g : Group) (id : Bytes) (order : List Bytes) : Group × ErrorCode :=
  if g.members.lookup id = none then (g, .unknownMemberID)
  else (({ g with members := g.members.erase id } : Group).rebalance order, .none)

/-- The members whose session has expired. -/
def dead (g : Group) (now : ℤ) : List Bytes :=
  g.members.keys.filter fun id =>
    ((g.members.lookup id).map fun m => decide (m.sessionTimeout < now - m.lastHeartbeat)).getD false

def reap (g : Group) (now : ℤ) (order : List Bytes) : Group :=
  if g.dead now = [] then g
  else ({ g with members := (g.dead now).foldl (fun t id => t.erase id) g.members }
    : Group).rebalance order

end Group

/-! ### A group and the calls on it -/

structure SyncResult where
  errorCode : ErrorCode
  assignment : Bytes
  deriving DecidableEq, Repr

/-- A follower's call that waits for the leader. -/
structure Waiter where
  memberID : Bytes
  generation : ℤ
  deadline : ℤ
  deriving DecidableEq, Repr

/-- What the calls have done, as a client can see it. -/
inductive Event
  | joined (r : JoinResult)
  /-- The leader's call for a generation has been carried out. -/
  | assigned (leaderID : Bytes) (generation : ℤ) (assignments : Table Bytes Bytes)
  | synced (memberID : Bytes) (generation : ℤ) (r : SyncResult)

/-- A group, the calls that wait for it, and what has happened, the latest first. -/
structure Room where
  group : Group
  waiting : List Waiter
  history : List Event

inductive Op
  | join (args : JoinArgs) (random : Bytes) (now : ℤ) (order : List Bytes)
  | sync (memberID : Bytes) (generation : ℤ) (assignments : Table Bytes Bytes) (now : ℤ)
  /-- A waiting call looks again, after a broadcast or at its deadline. -/
  | wake (i : ℕ) (now : ℤ)
  | heartbeat (memberID : Bytes) (generation now : ℤ)
  | leave (memberID : Bytes) (order : List Bytes)
  | reap (now : ℤ) (order : List Bytes)

namespace Room

def new : Room := ⟨.new, [], []⟩

def note (r : Room) (e : Event) : Room := { r with history := e :: r.history }

/-- A `Sync` that gets through: the member is heard from and told its assignment. -/
def finishSync (r : Room) (memberID : Bytes) (generation now : ℤ) : Room :=
  note { r with group := r.group.touch memberID now }
    (.synced memberID generation ⟨.none, r.group.assignmentOf memberID⟩)

/-- The leader's assignments are stored, and the followers that wait can go on.  A
follower waits, unless the leader has been there. -/
def sync (r : Room) (memberID : Bytes) (generation : ℤ) (assignments : Table Bytes Bytes)
    (now : ℤ) : Room :=
  if r.group.members.lookup memberID = none then
    r.note (.synced memberID generation ⟨.unknownMemberID, []⟩)
  else if generation ≠ r.group.generation then
    r.note (.synced memberID generation ⟨.illegalGeneration, []⟩)
  else if memberID = r.group.leaderID then
    (note { r with group := { r.group.assign assignments with state := .stable } }
      (.assigned memberID generation assignments)).finishSync memberID generation now
  else if r.group.state = .stable then r.finishSync memberID generation now
  else { r with waiting := r.waiting ++ [⟨memberID, generation, now + syncWaitTimeout⟩] }

/-- A waiting call goes on waiting, or returns.  As long as the generation is the same,
the member it holds is the one in the table. -/
def wake (r : Room) (i : ℕ) (now : ℤ) : Room :=
  match r.waiting[i]? with
  | none => r
  | some w =>
    if r.group.state ≠ .stable ∧ w.generation = r.group.generation ∧ now < w.deadline then r
    else
      let r := { r with waiting := r.waiting.eraseIdx i }
      if w.generation ≠ r.group.generation then
        r.note (.synced w.memberID w.generation ⟨.rebalanceInProgress, []⟩)
      else r.finishSync w.memberID w.generation now

def step (r : Room) : Op → Room
  | .join args random now order =>
    note { r with group := (r.group.join args random now order).1 }
      (.joined (r.group.join args random now order).2)
  | .sync memberID generation assignments now => r.sync memberID generation assignments now
  | .wake i now => r.wake i now
  | .heartbeat memberID generation now =>
    { r with group := (r.group.heartbeat memberID generation now).1 }
  | .leave memberID order => { r with group := (r.group.leave memberID order).1 }
  | .reap now order => { r with group := r.group.reap now order }

end Room

/-! ### All groups -/

/-- The groups that have been created. -/
abbrev Coordinator := Table Bytes Room

/-- An operation on a group that may not exist: only a join creates it. -/
def stepOption : Option Room → Op → Option Room
  | some r, op => some (r.step op)
  | none, .join args random now order => some (Room.new.step (.join args random now order))
  | none, _ => none

namespace Coordinator

/-- An operation on one group.  A round of the reaper is one operation for each. -/
def step (c : Coordinator) (q : Bytes × Op) : Coordinator :=
  match stepOption (c.lookup q.1) q.2 with
  | some r => c.insert q.1 r
  | none => c

theorem lookup_step (c : Coordinator) (q : Bytes × Op) (groupID : Bytes) :
    (c.step q).lookup groupID
      = if groupID = q.1 then stepOption (c.lookup groupID) q.2 else c.lookup groupID := by
  rw [step]
  cases h : stepOption (c.lookup q.1) q.2 with
  | some r =>
    dsimp only
    rw [Table.lookup_insert_ite]
    split
    · next hid => rw [hid, h]
    · rfl
  | none =>
    dsimp only
    split
    · next hid =>
      subst hid
      -- a group that exists cannot disappear
      cases hc : c.lookup q.1 with
      | none => rw [hc] at h; exact h.symm
      | some r => rw [hc] at h; cases h
    · rfl

/-- The operations on one group. -/
def opsOn (groupID : Bytes) (qs : List (Bytes × Op)) : List Op :=
  qs.filterMap fun q => if groupID = q.1 then some q.2 else none

/-- **The groups do not interfere**: what becomes of a group is decided by the operations
on it. -/
theorem room_run (c : Coordinator) (qs : List (Bytes × Op)) (groupID : Bytes) :
    (run Coordinator.step c qs).lookup groupID
      = run stepOption (c.lookup groupID) (opsOn groupID qs) := by
  induction qs generalizing c with
  | nil => rfl
  | cons q qs ih =>
    rw [run_cons, ih, lookup_step]
    by_cases hid : groupID = q.1
    · simp only [opsOn, List.filterMap_cons, if_pos hid, run_cons]
    · simp only [opsOn, List.filterMap_cons, if_neg hid]

end Coordinator

/-- A group that exists, or is being created, goes through the states of a room. -/
theorem run_stepOption (r : Room) (ops : List Op) :
    run stepOption (some r) ops = some (run Room.step r ops) := by
  induction ops generalizing r with
  | nil => rfl
  | cons op ops ih => exact ih (r.step op)

/-- **Every group of a coordinator is in a state that a room can reach.** -/
theorem Coordinator.exists_run_of_lookup {qs : List (Bytes × Op)} {groupID : Bytes} {r : Room}
    (h : (run Coordinator.step (∅ : Coordinator) qs).lookup groupID = some r) :
    ∃ ops, r = run Room.step Room.new ops := by
  rw [Coordinator.room_run, AList.lookup_empty] at h
  generalize Coordinator.opsOn groupID qs = ops at h
  induction ops with
  | nil => cases h
  | cons op ops ih =>
    rw [run_cons] at h
    cases op with
    | join args random now order =>
      rw [stepOption, run_stepOption] at h
      cases h
      exact ⟨.join args random now order :: ops, rfl⟩
    | sync | wake | heartbeat | leave | reap => exact ih h

end Consumer
end Mq
