import Mq.Group.Generation

/-!
# Sessions

A member of a group has to be heard from.  Joining, a heartbeat and a `Sync` that gets through
count; a heartbeat of another generation does not, and neither does a `Sync` while it waits.  The
reaper removes the members that were not heard from within the session timeout that they joined
with.

## Main definitions

* `Room.through` — the calls by which a group hears from a member.
* `Session`, `nextSession` — the session of one member.
* `contacts` — when the group hears from a member in a run.

## Main results

* `sessionOf_step` — a session goes on as it would on its own.
* `member_iff_timely` — **a member is removed exactly if it leaves, or if a round of the reaper
  finds that it was not heard from within its session timeout.**
-/

namespace Mq
namespace Consumer

open Word Transition

/-- The member that a call is heard from and when, if it gets through. -/
def Room.through (r : Room) : Op → Option (Bytes × ℤ)
  | .join args random now _ => some (Group.memberIDFor args random, now)
  | .sync memberID generation _ now =>
    if r.group.members.lookup memberID ≠ none ∧ generation = r.group.generation ∧
        (memberID = r.group.leaderID ∨ r.group.state = .stable) then some (memberID, now)
    else none
  | .wake i now =>
    match r.waiting[i]? with
    | none => none
    | some w =>
      if w.generation = r.group.generation ∧ (r.group.state = .stable ∨ w.deadline ≤ now) then
        some (w.memberID, now)
      else none
  | .heartbeat memberID generation now =>
    if r.group.members.lookup memberID ≠ none ∧ generation = r.group.generation then
      some (memberID, now)
    else none
  | .leave _ _ | .reap _ _ => none

/-- When a group hears from a member by a call. -/
def heardAt (id : Bytes) (c : Option (Bytes × ℤ)) : Option ℤ :=
  c.bind fun c => if c.1 = id then some c.2 else none

/-- When a member was last heard from, and for how long that is good. -/
structure Session where
  heard : ℤ
  timeout : ℤ
  deriving DecidableEq, Repr

def Session.after (id : Bytes) (c : Option (Bytes × ℤ)) (s : Session) : Session :=
  { s with heard := (heardAt id c).getD s.heard }

def Room.sessionOf (r : Room) (id : Bytes) : Option Session :=
  (r.group.members.lookup id).map fun m => ⟨m.lastHeartbeat, m.sessionTimeout⟩

/-- What becomes of a session by a call that the group hears a member by, or does not. -/
def nextSession (id : Bytes) (c : Option (Bytes × ℤ)) (s : Option Session) : Op → Option Session
  | .join args random now _ =>
    if Group.memberIDFor args random = id then some ⟨now, args.sessionTimeout⟩ else s
  | .leave memberID _ => if memberID = id then none else s
  | .reap now _ => s.filter fun s => now - s.heard ≤ s.timeout
  | _ => s.map (Session.after id c)

/-! ### A call and a session -/

variable {r : Room} {id : Bytes}

/-- A session that is not heard of stays as it is. -/
theorem map_after_none (s : Option Session) : s.map (Session.after id none) = s := by
  cases s <;> rfl

theorem sessionOf_touch (g : Group) (id j : Bytes) (now : ℤ) :
    ((g.touch j now).members.lookup id).map (fun m => Session.mk m.lastHeartbeat m.sessionTimeout)
      = ((g.members.lookup id).map fun m => Session.mk m.lastHeartbeat m.sessionTimeout).map
          (Session.after id (some (j, now))) := by
  rw [Group.lookup_touch]
  cases g.members.lookup id with
  | none => split <;> rfl
  | some m =>
    by_cases hj : id = j
    · simp [hj, Session.after, heardAt]
    · simp [hj, Ne.symm hj, Session.after, heardAt]

theorem members_rebalance (g : Group) (order : List Bytes) :
    (g.rebalance order).members = g.members := by
  rw [Group.rebalance]
  dsimp only
  split <;> rfl

/-- The reaper removes the members that were not heard from in time. -/
theorem lookup_reap (g : Group) (now : ℤ) (order : List Bytes) (id : Bytes) :
    (g.reap now order).members.lookup id
      = (g.members.lookup id).filter fun m => now - m.lastHeartbeat ≤ m.sessionTimeout := by
  have hlookup : (g.reap now order).members.lookup id
      = if id ∈ g.dead now then none else g.members.lookup id := by
    unfold Group.reap
    split
    · next hnil => rw [hnil, if_neg List.not_mem_nil]
    · rw [members_rebalance]
      exact (Table.lookup_foldl_erase (g.dead now) g.members id).trans (by congr)
  rw [hlookup]
  simp only [Group.dead, List.mem_filter, Table.mem_keys_iff]
  cases g.members.lookup id with
  | none => simp
  | some m =>
    rw [Option.filter_some]
    by_cases hlate : m.sessionTimeout < now - m.lastHeartbeat
    · rw [if_pos (by simp [hlate]), if_neg (by rw [decide_eq_true_eq]; exact not_le.mpr hlate)]
    · rw [if_neg (by simp [hlate]), if_pos (by rw [decide_eq_true_eq]; exact not_lt.mp hlate)]

theorem sessionOf_finishSync (r : Room) (id j : Bytes) (generation now : ℤ) :
    (r.finishSync j generation now).sessionOf id
      = (r.sessionOf id).map (Session.after id (some (j, now))) :=
  sessionOf_touch ..

theorem sessionOf_join (r : Room) (id : Bytes) (args : JoinArgs) (random : Bytes) (now : ℤ)
    (order : List Bytes) :
    (r.step (.join args random now order)).sessionOf id
      = if Group.memberIDFor args random = id then some ⟨now, args.sessionTimeout⟩
        else r.sessionOf id := by
  have hmembers : (r.step (.join args random now order)).group.members
      = r.group.members.insert (Group.memberIDFor args random)
          (r.group.joined args (Group.memberIDFor args random) now) := Group.members_enroll ..
  unfold Room.sessionOf
  rw [hmembers, Table.lookup_insert_ite]
  by_cases hid : Group.memberIDFor args random = id
  · rw [if_pos hid.symm, if_pos hid]
    rfl
  · rw [if_neg (Ne.symm hid), if_neg hid]

theorem sessionOf_assign (r : Room) (id : Bytes) (given : Table Bytes Bytes)
    (state : GroupState) (e : Event) :
    (Room.note { r with group := { r.group.assign given with state := state } } e).sessionOf id
      = r.sessionOf id := by
  show ((r.group.assign given).members.lookup id).map _ = _
  rw [Group.lookup_assign, Option.map_map]
  rfl

theorem sessionOf_sync (r : Room) (id j : Bytes) (generation : ℤ) (given : Table Bytes Bytes)
    (now : ℤ) :
    (r.sync j generation given now).sessionOf id
      = (r.sessionOf id).map (Session.after id (r.through (.sync j generation given now))) := by
  unfold Room.sync Room.through
  dsimp only
  split
  · next hnone =>
    rw [if_neg fun h => h.1 hnone, map_after_none]
    rfl
  next hmember =>
  split
  · next hgen =>
    rw [if_neg fun h => hgen h.2.1, map_after_none]
    rfl
  next hgen =>
  rw [not_not] at hgen
  split
  · next hlead =>
    rw [if_pos ⟨hmember, hgen, .inl hlead⟩, sessionOf_finishSync, sessionOf_assign]
  next hlead =>
  split
  · next hstable => rw [if_pos ⟨hmember, hgen, .inr hstable⟩, sessionOf_finishSync]
  · next hstable =>
    rw [if_neg fun h => h.2.2.elim hlead hstable, map_after_none]
    rfl

theorem sessionOf_wake (r : Room) (id : Bytes) (i : ℕ) (now : ℤ) :
    (r.wake i now).sessionOf id
      = (r.sessionOf id).map (Session.after id (r.through (.wake i now))) := by
  unfold Room.wake Room.through
  dsimp only
  cases r.waiting[i]? with
  | none => exact (map_after_none _).symm
  | some w =>
    dsimp only
    split
    · next hwait =>
      rw [if_neg fun h => h.2.elim hwait.1 (not_le.mpr hwait.2.2), map_after_none]
    next hwait =>
    split
    · next hgen =>
      rw [if_neg fun h => hgen h.1, map_after_none]
      rfl
    · next hgen =>
      rw [not_not] at hgen
      have hthrough : r.group.state = .stable ∨ w.deadline ≤ now := by
        by_contra hnot
        rw [not_or, not_le] at hnot
        exact hwait ⟨hnot.1, hgen, hnot.2⟩
      rw [if_pos ⟨hgen, hthrough⟩, sessionOf_finishSync]
      rfl

theorem sessionOf_heartbeat (r : Room) (id j : Bytes) (generation now : ℤ) :
    (r.step (.heartbeat j generation now)).sessionOf id
      = (r.sessionOf id).map (Session.after id (r.through (.heartbeat j generation now))) := by
  unfold Room.step Room.through Group.heartbeat
  dsimp only
  split
  · next hnone => rw [if_neg fun h => h.1 hnone, map_after_none]
  next hmember =>
  split
  · next hlt => rw [if_neg fun h => hlt.ne h.2, map_after_none]
  split
  · next hlt => rw [if_neg fun h => hlt.ne' h.2, map_after_none]
  · next hge hle =>
    rw [if_pos ⟨hmember, by omega⟩]
    exact sessionOf_touch ..

/-- **A session goes on as it would on its own.** -/
theorem sessionOf_step (r : Room) (id : Bytes) (op : Op) :
    (r.step op).sessionOf id = nextSession id (r.through op) (r.sessionOf id) op := by
  cases op with
  | join args random now order => exact sessionOf_join ..
  | sync j generation assignments now => exact sessionOf_sync ..
  | wake i now => exact sessionOf_wake ..
  | heartbeat j generation now => exact sessionOf_heartbeat ..
  | leave j order =>
    unfold Room.step Room.sessionOf nextSession Group.leave
    dsimp only
    split
    · next hnone =>
      split
      · next hj =>
        rw [← hj, hnone]
        rfl
      · rfl
    · rw [members_rebalance, Table.lookup_erase_ite]
      by_cases hj : j = id
      · simp [hj]
      · simp [hj, Ne.symm hj]
  | reap now order =>
    unfold Room.step Room.sessionOf nextSession
    dsimp only
    rw [lookup_reap]
    cases r.group.members.lookup id with
    | none => rfl
    | some m =>
      rw [Option.filter_some, Option.map_some, Option.filter_some]
      split <;> rfl

/-! ### A session over a run -/

/-- When the call happens, if it reads the clock. -/
def Op.time : Op → Option ℤ
  | .join _ _ now _ | .sync _ _ _ now | .wake _ now | .heartbeat _ _ now | .reap now _ => some now
  | .leave _ _ => none

/-- When the group hears from a member. -/
def contacts (id : Bytes) : Room → List Op → List ℤ
  | _, [] => []
  | r, op :: ops => (heardAt id (r.through op)).toList ++ contacts id (r.step op) ops

/-- Nobody joins under the name again. -/
def Op.Rejoins (id : Bytes) : Op → Prop
  | .join args random _ _ => Group.memberIDFor args random = id
  | _ => False

/-- The member does not leave, and whenever the reaper comes, it was heard from in time. -/
structure Timely (id : Bytes) (joined timeout : ℤ) (r : Room) (ops : List Op) : Prop where
  stays : ∀ order, .leave id order ∉ ops
  heard : ∀ early late now order, ops = early ++ .reap now order :: late →
    ∃ t ∈ joined :: contacts id r early, now - t ≤ timeout

theorem time_of_heardAt {op : Op} {t : ℤ} (h : heardAt id (r.through op) = some t) :
    op.time = some t := by
  obtain ⟨⟨j, now⟩, hthrough, hj⟩ := Option.bind_eq_some_iff.mp h
  cases (Option.ite_none_right_eq_some.mp hj).2
  unfold Room.through at hthrough
  cases op with
  | join => cases hthrough; rfl
  | sync => cases (Option.ite_none_right_eq_some.mp hthrough).2; rfl
  | wake i now =>
    dsimp only at hthrough
    split at hthrough
    · cases hthrough
    · cases (Option.ite_none_right_eq_some.mp hthrough).2; rfl
  | heartbeat => cases (Option.ite_none_right_eq_some.mp hthrough).2; rfl
  | leave | reap => cases hthrough

/-- The call ends the session. -/
def Op.Ends (id : Bytes) (s : Session) : Op → Prop
  | .leave memberID _ => memberID = id
  | .reap now _ => ¬ now - s.heard ≤ s.timeout
  | _ => False

/-- A session ends, or is carried on. -/
theorem nextSession_some (r : Room) (s : Session) {op : Op} (hrejoin : ¬ op.Rejoins id) :
    (op.Ends id s → nextSession id (r.through op) (some s) op = none) ∧
    (¬ op.Ends id s →
      nextSession id (r.through op) (some s) op = some (s.after id (r.through op))) := by
  cases op with
  | join args random now order =>
    have hne : Group.memberIDFor args random ≠ id := hrejoin
    refine ⟨False.elim, fun _ => ?_⟩
    simp [nextSession, hne, Session.after, heardAt, Room.through]
  | sync | wake | heartbeat => exact ⟨False.elim, fun _ => rfl⟩
  | leave j order => exact ⟨fun h => if_pos h, fun h => if_neg h⟩
  | reap now order =>
    unfold nextSession Op.Ends
    dsimp only
    simp only [Option.filter_some, decide_eq_true_eq]
    exact ⟨fun h => if_neg h, fun h => if_pos (not_not.mp h)⟩

/-- Once it is over, a session does not come back. -/
theorem sessionOf_run_none (h : r.sessionOf id = none) {ops : List Op}
    (hrejoin : ∀ op ∈ ops, ¬ op.Rejoins id) : (run Room.step r ops).sessionOf id = none := by
  induction ops generalizing r with
  | nil => exact h
  | cons op ops ih =>
    refine ih ?_ fun o ho => hrejoin o (List.mem_cons_of_mem op ho)
    rw [sessionOf_step, h]
    cases op with
    | join => exact if_neg (hrejoin _ List.mem_cons_self)
    | leave => exact ite_self none
    | sync | wake | heartbeat | reap => rfl

/-- The first call does not end the session, and the rest is in time. -/
theorem timely_cons {heard timeout : ℤ} {op : Op} {ops : List Op}
    (hclock : (heard :: (op :: ops).filterMap Op.time).Pairwise (· ≤ ·)) :
    Timely id heard timeout r (op :: ops) ↔ ¬ op.Ends id ⟨heard, timeout⟩ ∧
      Timely id ((heardAt id (r.through op)).getD heard) timeout (r.step op) ops := by
  constructor
  · intro h
    refine ⟨?_, fun order hmem => h.stays order (List.mem_cons_of_mem _ hmem),
      fun early late now order heq => ?_⟩
    · cases op with
      | leave j order =>
        rintro rfl
        exact h.stays order List.mem_cons_self
      | reap now order =>
        obtain ⟨t, ht, hle⟩ := h.heard [] ops now order rfl
        cases List.mem_singleton.mp ht
        exact not_not.mpr hle
      | join | sync | wake | heartbeat => exact False.elim
    · obtain ⟨t, ht, hle⟩ := h.heard (op :: early) late now order (by rw [heq]; rfl)
      rw [contacts] at ht
      cases hheard : heardAt id (r.through op) with
      | none => exact ⟨t, by simpa [hheard] using ht, hle⟩
      | some t₁ =>
        -- a later contact takes the place of an earlier one
        rw [List.filterMap_cons_some (time_of_heardAt hheard)] at hclock
        have hlater := (List.pairwise_cons.mp hclock).1 t₁ List.mem_cons_self
        rcases List.mem_cons.mp ht with rfl | ht
        · exact ⟨t₁, List.mem_cons_self, by omega⟩
        · exact ⟨t, by simpa [hheard] using ht, hle⟩
  · rintro ⟨hends, h⟩
    refine ⟨fun order hmem => ?_, fun early late now order heq => ?_⟩
    · rcases List.mem_cons.mp hmem with rfl | hmem
      · exact hends rfl
      · exact h.stays order hmem
    · cases early with
      | nil =>
        cases heq
        exact ⟨heard, List.mem_cons_self, not_not.mp hends⟩
      | cons o early =>
        cases heq
        obtain ⟨t, ht, hle⟩ := h.heard early late now order rfl
        refine ⟨t, ?_, hle⟩
        rw [contacts]
        cases hheard : heardAt id (r.through op) with
        | none => simpa [hheard] using ht
        | some t₁ => exact List.mem_cons_of_mem _ (by simpa [hheard] using ht)

/-- **The member of a session stays** as long as it is in time. -/
theorem sessionOf_run {heard timeout : ℤ} (hsession : r.sessionOf id = some ⟨heard, timeout⟩)
    {ops : List Op} (hrejoin : ∀ op ∈ ops, ¬ op.Rejoins id)
    (hclock : (heard :: ops.filterMap Op.time).Pairwise (· ≤ ·)) :
    (run Room.step r ops).sessionOf id ≠ none ↔ Timely id heard timeout r ops := by
  induction ops generalizing r heard with
  | nil =>
    refine ⟨fun _ => ⟨fun _ => List.not_mem_nil, fun early late now order heq => ?_⟩,
      fun _ => by simp [hsession]⟩
    simp at heq
  | cons op ops ih =>
    have hops : ∀ o ∈ ops, ¬ o.Rejoins id := fun o ho => hrejoin o (List.mem_cons_of_mem op ho)
    obtain ⟨hover, hgoes⟩ := nextSession_some r ⟨heard, timeout⟩ (hrejoin op List.mem_cons_self)
    rw [timely_cons hclock, run_cons]
    by_cases hends : op.Ends id ⟨heard, timeout⟩
    · have hnone := sessionOf_run_none (r := r.step op)
        (by rw [sessionOf_step, hsession, hover hends]) hops
      exact ⟨fun h => absurd hnone h, fun h => absurd hends h.1⟩
    · rw [and_iff_right hends]
      refine ih (by rw [sessionOf_step, hsession, hgoes hends]; rfl) hops ?_
      cases hheard : heardAt id (r.through op) with
      | none =>
        refine hclock.sublist (List.Sublist.cons_cons _ ?_)
        rw [List.filterMap_cons]
        split
        · exact List.Sublist.refl _
        · exact List.sublist_cons_self _ _
      | some t =>
        rw [List.filterMap_cons_some (time_of_heardAt hheard)] at hclock
        exact (List.pairwise_cons.mp hclock).2

/-- What becomes of a group after a join, whatever there was before and whatever happens to other
groups. -/
theorem lookup_run_join (c : Coordinator) (groupID : Bytes) (args : JoinArgs) (random : Bytes)
    (now : ℤ) (order : List Bytes) (after : List (Bytes × Op)) :
    (run Coordinator.step c ((groupID, .join args random now order) :: after)).lookup groupID
      = some (run Room.step (((c.lookup groupID).getD Room.new).step (.join args random now order))
          (Coordinator.opsOn groupID after)) := by
  rw [run_cons, Coordinator.room_run, Coordinator.lookup_step, if_pos rfl]
  cases c.lookup groupID <;> exact run_stepOption ..

/-- **Who is heard from in time stays, and nobody else.**  Whatever the other members and the other
groups do, a member that has joined is still in the group exactly if it has not left and every
round of the reaper has found a contact within the session timeout that it joined with. -/
theorem member_iff_timely (c : Coordinator) (groupID : Bytes) (args : JoinArgs) (random : Bytes)
    (joined : ℤ) (order : List Bytes) (after : List (Bytes × Op))
    (hrejoin : ∀ op ∈ Coordinator.opsOn groupID after,
      ¬ op.Rejoins (Group.memberIDFor args random))
    (hclock : (joined :: (Coordinator.opsOn groupID after).filterMap Op.time).Pairwise (· ≤ ·)) :
    (∃ r, (run Coordinator.step c
        ((groupID, .join args random joined order) :: after)).lookup groupID = some r ∧
      r.group.members.lookup (Group.memberIDFor args random) ≠ none) ↔
    Timely (Group.memberIDFor args random) joined args.sessionTimeout
      (((c.lookup groupID).getD Room.new).step (.join args random joined order))
      (Coordinator.opsOn groupID after) := by
  simp only [lookup_run_join, Option.some.injEq, exists_eq_left']
  have hsession := sessionOf_join ((c.lookup groupID).getD Room.new)
    (Group.memberIDFor args random) args random joined order
  rw [if_pos rfl] at hsession
  rw [← sessionOf_run hsession hrejoin hclock, Room.sessionOf, ne_eq, ne_eq, Option.map_eq_none_iff]

/-- A member joins with a timeout of ten seconds. -/
def joining (name : Bytes) (now : ℤ) : Op := .join ⟨name, [], [⟨[114], []⟩], 10000⟩ [] now []

/-- A second member joins and waits for the first, which sends heartbeats.  One of another group
does not count. -/
def slowOps : List (Bytes × Op) :=
  [([103], joining [98] 1000000000), ([103], .sync [98] 2 ∅ 2000000000),
    ([103], .heartbeat [97] 2 9000000000), ([104], joining [98] 10000000000),
    ([103], .reap 11500000000 []), ([103], .heartbeat [97] 3 19500000000),
    ([103], .reap 19800000000 [])]

/-- **Witness**: the first member stays.  The second is removed while it waits. -/
theorem member_iff_timely_slow :
    (∃ r, (run Coordinator.step ∅ (([103], joining [97] 0) :: slowOps)).lookup [103] = some r ∧
      r.group.members.lookup [98] = none ∧ r.group.members.lookup [97] ≠ none) ∧
    Timely [97] 0 10000000000 (Room.new.step (joining [97] 0))
      (Coordinator.opsOn [103] slowOps) := by
  have hmembers : ∃ r, (run Coordinator.step ∅ (([103], joining [97] 0) :: slowOps)).lookup [103]
      = some r ∧ r.group.members.lookup [98] = none ∧ r.group.members.lookup [97] ≠ none :=
    ⟨_, lookup_run_join .., by decide +kernel, by decide +kernel⟩
  refine ⟨hmembers, ?_⟩
  obtain ⟨r, hr, -, hmember⟩ := hmembers
  refine (member_iff_timely ∅ [103] ⟨[97], [], [⟨[114], []⟩], 10000⟩ [] 0 [] slowOps ?_ ?_).mp
    ⟨r, hr, hmember⟩
  · simp [slowOps, Coordinator.opsOn, joining, Op.Rejoins, Group.memberIDFor]
  · decide

end Consumer
end Mq
