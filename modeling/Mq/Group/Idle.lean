import Mq.Group.Generation

/-!
# Calls that leave a group as it was

A call on a group leaves no trace only if it is refused, or if it says what the group
knows already, at the instant at which the group learned it.  For each call this is a
condition on its arguments and on the state before.

## Main definitions

* `Group.Alike` — two states of a group that hold the same.
* `Group.Heard`, `Group.Rejoins`, `Group.Resyncs` — the calls that tell a group nothing new.

## Main results

* `Group.alike_join`, `Group.alike_heartbeat`, `Group.alike_leave`, `Room.alike_sync` —
  **the calls that change nothing are exactly these.**
-/

namespace Mq
namespace Consumer

open Word Transition

namespace Group

/-- The states of the group hold the same. -/
structure Alike (g g' : Group) : Prop where
  generation : g'.generation = g.generation
  leaderID : g'.leaderID = g.leaderID
  protocolName : g'.protocolName = g.protocolName
  state : g'.state = g.state
  members : ∀ id, g'.members.lookup id = g.members.lookup id

theorem Alike.refl (g : Group) : g.Alike g := ⟨rfl, rfl, rfl, rfl, fun _ => rfl⟩

/-- If there is such a member, it has been heard from at this very instant. -/
def Heard (g : Group) (id : Bytes) (now : ℤ) : Prop :=
  ∀ m ∈ g.members.lookup id, m.lastHeartbeat = now

instance (g : Group) (id : Bytes) (now : ℤ) : Decidable (g.Heard id now) :=
  inferInstanceAs (Decidable (∀ m ∈ g.members.lookup id, m.lastHeartbeat = now))

/-! ### Heartbeat and LeaveGroup -/

variable {g : Group} {id : Bytes} {now : ℤ}

theorem lookup_touch_eq_iff :
    (∀ j, (g.touch id now).members.lookup j = g.members.lookup j) ↔ g.Heard id now := by
  constructor
  · intro h m hm
    have hid := h id
    rw [lookup_touch, if_pos rfl, Option.mem_def.mp hm] at hid
    exact (congrArg GroupMember.lastHeartbeat (Option.some.inj hid)).symm
  · intro h j
    rw [lookup_touch]
    split
    · next hj =>
      subst hj
      cases hm : g.members.lookup j with
      | none => rfl
      | some m => rw [Option.map_some, ← h m hm]
    · rfl

theorem alike_touch : g.Alike (g.touch id now) ↔ g.Heard id now := by
  obtain ⟨hgen, hleader, hprotocol, hstate⟩ := g.touch_kept id now
  rw [← lookup_touch_eq_iff]
  exact ⟨fun h => h.members, fun h => ⟨hgen, hleader, hprotocol, hstate, h⟩⟩

/-- **A heartbeat** of another generation is refused, and one of this generation moves the
time. -/
theorem alike_heartbeat {generation : ℤ} :
    g.Alike (g.heartbeat id generation now).1 ↔
      generation ≠ g.generation ∨ g.Heard id now := by
  unfold heartbeat
  by_cases hnone : g.members.lookup id = none
  · rw [if_pos hnone]
    refine ⟨fun _ => .inr fun m hm => ?_, fun _ => .refl g⟩
    rw [hnone] at hm
    cases hm
  · rw [if_neg hnone]
    split
    · next hlt => exact ⟨fun _ => .inl hlt.ne, fun _ => .refl g⟩
    · split
      · next hlt => exact ⟨fun _ => .inl hlt.ne', fun _ => .refl g⟩
      · next hge hle =>
        have heq : generation = g.generation := by omega
        rw [alike_touch]
        exact ⟨.inr, fun h => h.resolve_left (not_not.mpr heq)⟩

/-- **Leaving** changes something for every member. -/
theorem alike_leave {order : List Bytes} :
    g.Alike (g.leave id order).1 ↔ g.members.lookup id = none := by
  unfold leave
  split
  · next hnone => exact ⟨fun _ => hnone, fun _ => .refl g⟩
  · next hsome =>
    refine ⟨fun h => ?_, fun h => absurd h hsome⟩
    have hmembers : (({ g with members := g.members.erase id } : Group).rebalance order).members
        = g.members.erase id := by
      rw [rebalance]
      dsimp only
      split <;> rfl
    have hid := h.members id
    rw [hmembers, AList.lookup_erase] at hid
    exact hid.symm

/-! ### JoinGroup -/

/-- A member joins again, during a rebalance, with what the group has of it. -/
structure Rejoins (g : Group) (args : JoinArgs) (now : ℤ) (order : List Bytes) : Prop where
  named : args.memberID ≠ []
  member : g.members.lookup args.memberID = some (g.joined args args.memberID now)
  state : g.state = .awaitingSync
  leader : g.leaderID ≠ [] ∧ g.members.lookup g.leaderID ≠ none
  protocol : g.protocolName = Group.chooseProtocol { g with
    members := g.members.insert args.memberID (g.joined args args.memberID now) } order

theorem wrap32_succ_ne (x : ℤ) : wrap32 (x + 1) ≠ x := by
  unfold wrap32
  omega

theorem generation_enroll {args : JoinArgs} (h : g.opensGeneration args id) (now : ℤ) :
    (g.enroll args id now).generation = wrap32 (g.generation + 1) := by
  unfold enroll fillLeader
  dsimp only
  rw [if_pos h]
  split <;> rfl

/-- **Joining** changes nothing only for a member that joins again with what is known. -/
theorem alike_join {args : JoinArgs} {random : Bytes} {order : List Bytes} :
    g.Alike (g.join args random now order).1 ↔ g.Rejoins args now order := by
  by_cases hopens : g.opensGeneration args (memberIDFor args random)
  · constructor
    · -- a new generation has another number
      intro h
      have hgen : wrap32 (g.generation + 1) = g.generation :=
        (generation_enroll hopens now).symm.trans h.generation
      exact absurd hgen (wrap32_succ_ne _)
    · intro h
      rw [memberIDFor, if_neg h.named] at hopens
      rcases hopens with hnil | hnone | hstate
      · exact absurd hnil h.named
      · rw [h.member] at hnone
        cases hnone
      · exact absurd h.state hstate
  · have hnot := hopens
    rw [opensGeneration, not_or, not_or, not_not] at hnot
    obtain ⟨hnamed, hmember, hstate⟩ := hnot
    have hid : memberIDFor args random = args.memberID := if_neg hnamed
    rw [hid] at hopens hmember
    unfold join enroll
    dsimp only
    rw [hid, if_neg hopens]
    have hself : (g.members.insert args.memberID (g.joined args args.memberID now)).lookup
        args.memberID = some (g.joined args args.memberID now) := AList.lookup_insert _
    unfold fillLeader
    dsimp only
    split
    · next hfill =>
      -- the member would have to be the leader already
      constructor
      · intro h
        have hlead : args.memberID = g.leaderID := h.leaderID
        rw [← hlead, hself] at hfill
        rcases hfill with hnone | hnil
        · cases hnone
        · exact absurd hnil hnamed
      · intro h
        rcases hfill with hnone | hnil
        · exact absurd (Table.of_lookup_insert_eq_none hnone).2 h.leader.2
        · exact absurd hnil h.leader.1
    · next hfill =>
      rw [not_or] at hfill
      constructor
      · intro h
        have hmembers := h.members
        have hlead := hfill.1
        dsimp only at hmembers
        rw [hmembers] at hlead
        exact ⟨hnamed, by rw [← hmembers]; exact hself, hstate, ⟨hfill.2, hlead⟩,
          h.protocolName.symm⟩
      · intro h
        refine ⟨rfl, rfl, h.protocol.symm, rfl, fun j => ?_⟩
        dsimp only
        rw [Table.lookup_insert_ite]
        split
        · next hj => rw [hj, h.member]
        · rfl

/-! ### SyncGroup -/

/-- The leader assigns what is assigned already. -/
def Reassigns (g : Group) (assignments : Table Bytes Bytes) : Prop :=
  ∀ id m, g.members.lookup id = some m → ∀ a ∈ assignments.lookup id, m.assignment = a

theorem lookup_assign_touch (g : Group) (assignments : Table Bytes Bytes) (state : GroupState)
    (id : Bytes) (now : ℤ) (j : Bytes) :
    (Group.touch { g.assign assignments with state := state } id now).members.lookup j
      = (g.members.lookup j).map fun m =>
          { reassign (assignments.lookup j) m with
            lastHeartbeat := if j = id then now else m.lastHeartbeat } := by
  rw [lookup_touch]
  change (if j = id then ((g.assign assignments).members.lookup j).map _
    else (g.assign assignments).members.lookup j) = _
  rw [lookup_assign]
  cases g.members.lookup j with
  | none => split <;> rfl
  | some m => split <;> rfl

theorem alike_assign_touch {assignments : Table Bytes Bytes} :
    g.Alike (Group.touch { g.assign assignments with state := .stable } id now) ↔
      g.state = .stable ∧ g.Reassigns assignments ∧ g.Heard id now := by
  obtain ⟨hgen, hleader, hprotocol, hstate⟩ :=
    Group.touch_kept { g.assign assignments with state := .stable } id now
  constructor
  · intro h
    refine ⟨h.state.symm.trans hstate, fun j m hm a ha => ?_, fun m hm => ?_⟩
    · have hj := h.members j
      rw [lookup_assign_touch, hm] at hj
      have heq := congrArg GroupMember.assignment (Option.some.inj hj)
      rw [← heq]
      simp [reassign, Option.mem_def.mp ha]
    · have hj := h.members id
      rw [lookup_assign_touch, Option.mem_def.mp hm] at hj
      have heq := congrArg GroupMember.lastHeartbeat (Option.some.inj hj)
      rw [← heq]
      simp
  · rintro ⟨hstable, hassign, hheard⟩
    refine ⟨hgen, hleader, hprotocol, hstate.trans hstable.symm, fun j => ?_⟩
    rw [lookup_assign_touch]
    cases hm : g.members.lookup j with
    | none => rfl
    | some m =>
      have hsame : reassign (assignments.lookup j) m = m := by
        cases ha : assignments.lookup j with
        | none => rfl
        | some a => rw [reassign, Option.getD_some, ← hassign j m hm a ha]
      have htime : (if j = id then now else m.lastHeartbeat) = m.lastHeartbeat := by
        split
        · next hj => exact (hheard m (hj ▸ hm)).symm
        · rfl
      rw [Option.map_some, hsame, htime]

/-- A `Sync` that gets through tells the group nothing: a leader's, if the work is assigned
just so, and a follower's, whose wait ends at its deadline if nobody else calls. -/
def Resyncs (g : Group) (memberID : Bytes) (assignments : Table Bytes Bytes) (now : ℤ) : Prop :=
  if memberID = g.leaderID then g.state = .stable ∧ g.Reassigns assignments ∧ g.Heard memberID now
  else g.Heard memberID (if g.state = .stable then now else now + syncWaitTimeout)

end Group

namespace Room

/-- A call of `Sync` that nobody else's call comes in between of: it returns at once, or
waits until its deadline. -/
def syncAlone (r : Room) (memberID : Bytes) (generation : ℤ) (assignments : Table Bytes Bytes)
    (now : ℤ) : Room :=
  (r.sync memberID generation assignments now).wake r.waiting.length (now + syncWaitTimeout)

/-- A call that did not wait has nothing to wake up for. -/
theorem group_wake_of_waiting {r r' : Room} (h : r'.waiting = r.waiting) (now : ℤ) :
    (r'.wake r.waiting.length now).group = r'.group := by
  rw [wake, h, List.getElem?_eq_none le_rfl]

/-- The group after such a call. -/
theorem group_syncAlone (r : Room) (memberID : Bytes) (generation : ℤ)
    (assignments : Table Bytes Bytes) (now : ℤ) :
    (r.syncAlone memberID generation assignments now).group =
      if r.group.members.lookup memberID = none ∨ generation ≠ r.group.generation then r.group
      else if memberID = r.group.leaderID then
        Group.touch { r.group.assign assignments with state := .stable } memberID now
      else r.group.touch memberID
        (if r.group.state = .stable then now else now + syncWaitTimeout) := by
  unfold syncAlone
  by_cases hnone : r.group.members.lookup memberID = none
  · rw [if_pos (.inl hnone), sync, if_pos hnone]
    exact group_wake_of_waiting rfl _
  by_cases hgen : generation = r.group.generation
  · rw [if_neg (not_or.mpr ⟨hnone, not_not.mpr hgen⟩), sync, if_neg hnone,
      if_neg (not_not.mpr hgen)]
    by_cases hlead : memberID = r.group.leaderID
    · rw [if_pos hlead, if_pos hlead]
      exact group_wake_of_waiting rfl _
    rw [if_neg hlead, if_neg hlead]
    by_cases hstable : r.group.state = .stable
    · rw [if_pos hstable, if_pos hstable]
      exact group_wake_of_waiting rfl _
    · rw [if_neg hstable, if_neg hstable, wake, List.getElem?_append_right le_rfl, Nat.sub_self]
      dsimp only [List.getElem?_cons_zero]
      rw [if_neg (by simp), if_neg (not_not.mpr hgen)]
      rfl
  · rw [if_pos (.inr hgen), sync, if_neg hnone, if_pos hgen]
    exact group_wake_of_waiting rfl _

/-- **A `Sync`** of another generation is refused, and one of this generation moves the time
and may assign the work. -/
theorem alike_sync {r : Room} {memberID : Bytes} {generation : ℤ}
    {assignments : Table Bytes Bytes} {now : ℤ} :
    r.group.Alike (r.syncAlone memberID generation assignments now).group ↔
      r.group.members.lookup memberID = none ∨ generation ≠ r.group.generation ∨
        r.group.Resyncs memberID assignments now := by
  rw [group_syncAlone, ← or_assoc]
  by_cases hrefused : r.group.members.lookup memberID = none ∨ generation ≠ r.group.generation
  · rw [if_pos hrefused]
    exact ⟨fun _ => .inl hrefused, fun _ => .refl _⟩
  rw [if_neg hrefused, or_iff_right hrefused, Group.Resyncs]
  by_cases hlead : memberID = r.group.leaderID
  · rw [if_pos hlead, if_pos hlead]
    exact Group.alike_assign_touch
  · rw [if_neg hlead, if_neg hlead, Group.alike_touch]

end Room

end Consumer
end Mq
