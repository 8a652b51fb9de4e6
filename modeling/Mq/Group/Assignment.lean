import Mq.Group.Generation

/-!
# The assignments that members are given

The leader of a generation supplies the assignments, and every other member waits for
them.  They are kept on the members, where they stay when a new generation opens.

## Main definitions

* `SuppliedBy` — an assignment comes from the leader of the generation, or is empty
  because the leader supplied none.
* `Justified` — every `Sync` that got through returned such an assignment.
* `Room.Timely` — the leader's first call covers every member that still holds an old
  assignment, and comes before a follower's deadline.

## Main results

* `Supply.step` — what holds between the operations.
* `sync_current_assignment` — **in a timely run every `Sync` returns the assignment of
  its own generation.**
* `sync_returns_old_assignment` — a member that the leader leaves out, or that waits too
  long, is given what it had in an earlier generation.
-/

namespace Mq
namespace Consumer

open Word Transition

/-! ### What a call may return -/

/-- The leader of the generation has supplied these bytes for the member, or none at all
and the bytes are empty. -/
def SuppliedBy (history : List Event) (id : Bytes) (generation : ℤ) (bytes : Bytes) : Prop :=
  (∃ l assignments, .assigned l generation assignments ∈ history ∧
      assignments.lookup id = some bytes) ∨
    bytes = [] ∧ ∀ l assignments, .assigned l generation assignments ∈ history →
      assignments.lookup id = none

/-- Every `Sync` without an error is justified by what came before it. -/
def Justified : List Event → Prop
  | [] => True
  | .synced id generation ⟨.none, bytes⟩ :: history =>
    SuppliedBy history id generation bytes ∧ Justified history
  | _ :: history => Justified history

/-- The later history has the same leaders' calls. -/
def SameCalls (history history' : List Event) : Prop :=
  ∀ l generation assignments,
    .assigned l generation assignments ∈ history' ↔ .assigned l generation assignments ∈ history

theorem SameCalls.refl (history : List Event) : SameCalls history history := fun _ _ _ => Iff.rfl

theorem sameCalls_synced (history : List Event) (id : Bytes) (generation : ℤ) (res : SyncResult) :
    SameCalls history (.synced id generation res :: history) := by
  intro l gen assignments
  simp

theorem sameCalls_joined (history : List Event) (res : JoinResult) :
    SameCalls history (.joined res :: history) := by
  intro l gen assignments
  simp

theorem SuppliedBy.of_sameCalls {history history' : List Event} {id : Bytes} {generation : ℤ}
    {bytes : Bytes} (h : SuppliedBy history id generation bytes)
    (hsame : SameCalls history history') : SuppliedBy history' id generation bytes := by
  rcases h with ⟨l, as, hmem, hlook⟩ | ⟨hnil, hnone⟩
  · exact .inl ⟨l, as, (hsame l generation as).mpr hmem, hlook⟩
  · exact .inr ⟨hnil, fun l as hmem => hnone l as ((hsame l generation as).mp hmem)⟩

/-! ### Between the operations -/

namespace Room

/-- At the first call of a generation's leader, every member that it leaves out holds no
assignment, and no follower's wait ends before that call. -/
def Timely (r : Room) : Op → Prop
  | .sync memberID generation assignments _ =>
    memberID = r.group.leaderID → generation = r.group.generation → r.group.state ≠ .stable →
      ∀ e ∈ r.group.members.entries, assignments.lookup e.1 = none → e.2.assignment = []
  | .wake i now => (r.waiting[i]?).all (fun w =>
      w.generation = r.group.generation → r.group.state ≠ .stable → now < w.deadline) = true
  | _ => True

instance (r : Room) (op : Op) : Decidable (r.Timely op) := by
  cases op <;> unfold Timely <;> infer_instance

end Room

/-- The calls so far fit the state of the group. -/
structure Supply (r : Room) : Prop where
  past : ∀ l generation assignments, .assigned l generation assignments ∈ r.history →
    generation ≤ r.group.generation
  awaiting : r.group.state ≠ .stable → ∀ l assignments,
    .assigned l r.group.generation assignments ∉ r.history
  stable : r.group.state = .stable → ∀ id m, r.group.members.lookup id = some m →
    SuppliedBy r.history id r.group.generation m.assignment
  waiting : ∀ w ∈ r.waiting, w.generation ≤ r.group.generation ∧
    (w.generation = r.group.generation → r.group.members.lookup w.memberID ≠ none)
  justified : Justified r.history

namespace Supply

variable {r r' : Room}

theorem new : Supply Room.new where
  past := by intro l gen as h; cases h
  awaiting := by intro _ l as h; cases h
  stable := by intro h; cases h
  waiting := by intro w h; cases h
  justified := trivial

/-- A new generation, in which nothing is assigned yet. -/
theorem opened (h : Supply r) (hgen : r'.group.generation = r.group.generation + 1)
    (hstate : r'.group.state ≠ .stable) (hcalls : SameCalls r.history r'.history)
    (hjust : Justified r'.history) (hwaiting : r'.waiting = r.waiting) : Supply r' := by
  have hpast : ∀ l gen as, .assigned l gen as ∈ r'.history → gen ≤ r.group.generation :=
    fun l gen as hmem => h.past l gen as ((hcalls l gen as).mp hmem)
  refine ⟨?_, ?_, fun hc => absurd hc hstate, ?_, hjust⟩
  · intro l gen as hmem
    have := hpast l gen as hmem
    omega
  · intro _ l as hmem
    have := hpast l _ as hmem
    omega
  · intro w hw
    have := (h.waiting w (hwaiting ▸ hw)).1
    exact ⟨by omega, fun heq => by omega⟩

/-- The same generation and state, with the same assignments. -/
theorem quiet (h : Supply r) (hgen : r'.group.generation = r.group.generation)
    (hstate : r'.group.state = r.group.state)
    (hmembers : ∀ id, (r'.group.members.lookup id).map (·.assignment)
      = (r.group.members.lookup id).map (·.assignment))
    (hcalls : SameCalls r.history r'.history) (hjust : Justified r'.history)
    (hwaiting : ∀ w ∈ r'.waiting, w ∈ r.waiting ∨
      w.generation = r.group.generation ∧ r.group.members.lookup w.memberID ≠ none) :
    Supply r' := by
  have hsome : ∀ id, r.group.members.lookup id ≠ none → r'.group.members.lookup id ≠ none := by
    intro id hne hc
    have hmap := hmembers id
    rw [hc] at hmap
    exact hne (Option.map_eq_none_iff.mp hmap.symm)
  refine ⟨?_, ?_, ?_, ?_, hjust⟩
  · intro l gen as hmem
    rw [hgen]
    exact h.past l gen as ((hcalls l gen as).mp hmem)
  · intro hns l as hmem
    rw [hstate] at hns
    rw [hgen] at hmem
    exact h.awaiting hns l as ((hcalls l _ as).mp hmem)
  · intro hs id m' hm'
    rw [hstate] at hs
    rw [hgen]
    have hmap := hmembers id
    rw [hm'] at hmap
    cases hm : r.group.members.lookup id with
    | none => rw [hm] at hmap; cases hmap
    | some m =>
      rw [hm] at hmap
      have heq : m'.assignment = m.assignment := Option.some.inj hmap
      rw [heq]
      exact (h.stable hs id m hm).of_sameCalls hcalls
  · intro w hw
    rw [hgen]
    rcases hwaiting w hw with hw | ⟨heq, hmem⟩
    · obtain ⟨hle, hmem⟩ := h.waiting w hw
      exact ⟨hle, fun heq => hsome _ (hmem heq)⟩
    · exact ⟨le_of_eq heq, fun _ => hsome _ hmem⟩

theorem assignment_touch (g : Group) (id : Bytes) (now : ℤ) (j : Bytes) :
    ((g.touch id now).members.lookup j).map (·.assignment)
      = (g.members.lookup j).map (·.assignment) := by
  rw [Group.lookup_touch]
  split
  · rw [Option.map_map]; rfl
  · rfl

/-- A call with an error, which says nothing about assignments. -/
theorem failed (h : Supply r) {id : Bytes} {generation : ℤ} {code : ErrorCode}
    (hcode : code ≠ .none) (waiting : List Waiter) (hwaiting : ∀ w ∈ waiting, w ∈ r.waiting) :
    Supply (Room.note { r with waiting := waiting } (.synced id generation ⟨code, []⟩)) := by
  refine h.quiet rfl rfl (fun _ => rfl) (sameCalls_synced _ _ _ _) ?_ fun w hw => .inl (hwaiting w hw)
  cases code with
  | none => exact absurd rfl hcode
  | _ => exact h.justified

/-- **A call that gets through in a stable group returns what the leader supplied.** -/
theorem finishSync (h : Supply r) {id : Bytes} (hstable : r.group.state = .stable)
    (hmember : r.group.members.lookup id ≠ none) (now : ℤ) :
    Supply (r.finishSync id r.group.generation now) := by
  refine h.quiet (r.group.sameMembers_touch id now).2.2 (r.group.sameMembers_touch id now).2.1
    (assignment_touch r.group id now) (sameCalls_synced _ _ _ _) ⟨?_, h.justified⟩
    fun w hw => .inl hw
  cases hm : r.group.members.lookup id with
  | none => exact absurd hm hmember
  | some m =>
    have hof : r.group.assignmentOf id = m.assignment := by rw [Group.assignmentOf, hm]; rfl
    rw [hof]
    exact h.stable hstable id m hm

/-- The leader's call: what it supplies is stored, and whom it leaves out has nothing or
keeps what an earlier call of this generation supplied. -/
theorem assign (h : Supply r) {assignments : Table Bytes Bytes}
    (hleft : r.group.state ≠ .stable → ∀ id m, r.group.members.lookup id = some m →
      assignments.lookup id = none → m.assignment = []) :
    Supply (Room.note { r with group := { r.group.assign assignments with state := .stable } }
      (.assigned r.group.leaderID r.group.generation assignments)) := by
  refine ⟨?_, fun hc => absurd rfl hc, ?_, ?_, h.justified⟩
  · intro l gen as hmem
    rcases List.mem_cons.mp hmem with hc | hmem
    · cases hc; exact le_rfl
    · exact h.past l gen as hmem
  · intro _ id m' hm'
    have hlook : (r.group.members.lookup id).map (Group.reassign (assignments.lookup id))
        = some m' := by rw [← Group.lookup_assign]; exact hm'
    obtain ⟨m, hm, rfl⟩ := Option.map_eq_some_iff.mp hlook
    show SuppliedBy (_ :: r.history) id r.group.generation
      ((assignments.lookup id).getD m.assignment)
    cases ha : assignments.lookup id with
    | some a => exact .inl ⟨_, assignments, List.mem_cons_self, ha⟩
    | none =>
      have hnew : ∀ l as, .assigned l r.group.generation as
          ∈ Event.assigned r.group.leaderID r.group.generation assignments :: r.history →
          as = assignments ∨ .assigned l r.group.generation as ∈ r.history := by
        intro l as hmem
        rcases List.mem_cons.mp hmem with hc | hmem
        · cases hc; exact .inl rfl
        · exact .inr hmem
      by_cases hs : r.group.state = .stable
      · rcases h.stable hs id m hm with ⟨l, as, hmem, hlook⟩ | ⟨hnil, hnone⟩
        · exact .inl ⟨l, as, List.mem_cons_of_mem _ hmem, hlook⟩
        · refine .inr ⟨hnil, fun l as hmem => ?_⟩
          rcases hnew l as hmem with rfl | hmem
          · exact ha
          · exact hnone l as hmem
      · refine .inr ⟨hleft hs id m hm ha, fun l as hmem => ?_⟩
        rcases hnew l as hmem with rfl | hmem
        · exact ha
        · exact absurd hmem (h.awaiting hs l as)
  · intro w hw
    obtain ⟨hle, hmem⟩ := h.waiting w hw
    refine ⟨hle, fun heq => ?_⟩
    exact mt (r.group.lookup_assign_eq_none assignments w.memberID).mp (hmem heq)

/-- The counter of the generations does not wrap around at this operation. -/
def Fits (r : Room) (op : Op) : Prop :=
  0 ≤ r.group.generation ∧ (r.Opens op → r.group.generation + 1 < 2 ^ 31)

theorem Fits.generation {op : Op} (hfits : Fits r op)
    (hgen : (r.step op).group.generation = wrap32 (r.group.generation + 1)) :
    (r.step op).group.generation = r.group.generation + 1 := by
  obtain ⟨hnonneg, hlt⟩ := hfits
  have := hlt (Room.opens_of_generation hgen)
  rw [hgen, wrap32_eq (by omega) (by omega)]

theorem join (h : Supply r) (hok : r.Ok) {args : JoinArgs} {random : Bytes} {now : ℤ}
    {order : List Bytes} (hfits : Fits r (.join args random now order)) :
    Supply (r.step (.join args random now order)) := by
  obtain ⟨-, hstate, hstay, hopen⟩ :=
    Group.change_enroll hok.group args (Group.memberIDFor_ne_nil args random) now
  by_cases hopens : r.group.opensGeneration args (Group.memberIDFor args random)
  · refine h.opened (hfits.generation (hopen hopens)) (fun hc => ?_) (sameCalls_joined _ _)
      h.justified rfl
    cases hc.symm.trans hstate
  · have hmem : r.group.members.lookup (Group.memberIDFor args random) ≠ none :=
      fun hc => hopens (.inr (.inl hc))
    have hawait : r.group.state = .awaitingSync := by
      by_contra hc
      exact hopens (.inr (.inr hc))
    refine h.quiet (hstay hopens).1 (hstate.trans hawait.symm) (fun j => ?_) (sameCalls_joined _ _)
      h.justified fun w hw => .inl hw
    -- a member that joins again keeps its assignment
    show ((r.group.enroll args (Group.memberIDFor args random) now).members.lookup j).map _ = _
    rw [Group.members_enroll, Table.lookup_insert_ite]
    split
    · next hj =>
      subst hj
      cases hm : r.group.members.lookup (Group.memberIDFor args random) with
      | none => exact absurd hm hmem
      | some m => rw [Group.joined, hm]; rfl
    · rfl

theorem sync (h : Supply r) {memberID : Bytes} {generation : ℤ} {assignments : Table Bytes Bytes}
    {now : ℤ} (ht : r.Timely (.sync memberID generation assignments now)) :
    Supply (r.sync memberID generation assignments now) := by
  rw [Room.sync]
  split
  · exact h.failed (by simp) r.waiting fun _ hw => hw
  · next hmember =>
    split
    · exact h.failed (by simp) r.waiting fun _ hw => hw
    · next hgen =>
      have hgen : generation = r.group.generation := not_not.mp hgen
      subst hgen
      split
      · next hleader =>
        subst hleader
        refine (h.assign fun hs id m hm ha => ?_).finishSync rfl ?_ now
        · exact ht rfl rfl hs ⟨id, m⟩ (AList.mem_lookup_iff.mp hm) ha
        · exact mt (r.group.lookup_assign_eq_none assignments _).mp hmember
      · split
        · next hstable => exact h.finishSync hstable hmember now
        · refine h.quiet rfl rfl (fun _ => rfl) (.refl _) h.justified fun w hw => ?_
          rcases List.mem_append.mp hw with hw | hw
          · exact .inl hw
          · rw [List.mem_singleton.mp hw]
            exact .inr ⟨rfl, hmember⟩

theorem wake (h : Supply r) {i : ℕ} {now : ℤ} (ht : r.Timely (.wake i now)) :
    Supply (r.wake i now) := by
  rw [Room.wake]
  rw [Room.Timely] at ht
  cases hw : r.waiting[i]? with
  | none => exact h
  | some w =>
    rw [hw, Option.all_some, decide_eq_true_eq] at ht
    have hmem : w ∈ r.waiting := List.mem_of_getElem? hw
    dsimp only
    split
    · exact h
    · next hreturn =>
      split
      · exact h.failed (by simp) _ fun _ hw' => List.mem_of_mem_eraseIdx hw'
      · next hgen =>
        have hgen : w.generation = r.group.generation := not_not.mp hgen
        have hstable : r.group.state = .stable := by
          by_contra hs
          exact hreturn ⟨hs, hgen, ht hgen hs⟩
        have hless : Supply { r with waiting := r.waiting.eraseIdx i } :=
          h.quiet rfl rfl (fun _ => rfl) (.refl _) h.justified
            fun _ hw' => .inl (List.mem_of_mem_eraseIdx hw')
        rw [hgen]
        exact hless.finishSync hstable ((h.waiting w hmem).2 hgen) now

/-- **Every timely operation keeps the calls in accord with the group.** -/
theorem step (h : Supply r) (hok : r.Ok) {op : Op} (ht : r.Timely op) (hfits : Fits r op) :
    Supply (r.step op) := by
  cases op with
  | join args random now order => exact h.join hok hfits
  | sync memberID generation assignments now => exact h.sync ht
  | wake i now => exact h.wake ht
  | heartbeat memberID generation now =>
    obtain ⟨-, hstate, hgen⟩ := r.group.sameMembers_heartbeat memberID generation now
    refine h.quiet hgen hstate (fun j => ?_) (.refl _) h.justified fun w hw => .inl hw
    show ((r.group.heartbeat memberID generation now).1.members.lookup j).map _ = _
    rw [Group.heartbeat]
    split
    · rfl
    · split
      · rfl
      · split
        · rfl
        · exact assignment_touch r.group memberID now j
  | leave memberID order =>
    by_cases hm : r.group.members.lookup memberID = none
    · have hsame : r.step (.leave memberID order) = r := by
        rw [Room.step, Group.leave, if_pos hm]
      rw [hsame]
      exact h
    · have hgroup : (r.step (.leave memberID order)).group
          = ({ r.group with members := r.group.members.erase memberID } : Group).rebalance order := by
        rw [Room.step, Group.leave, if_neg hm]
      refine h.opened (hfits.generation ?_) ?_ (.refl _) h.justified rfl
      · rw [hgroup]; exact Group.generation_rebalance _ order
      · rw [hgroup]; exact Group.state_rebalance _ order
  | reap now order =>
    by_cases hd : r.group.dead now = []
    · have hsame : r.step (.reap now order) = r := by
        rw [Room.step, Group.reap, if_pos hd]
      rw [hsame]
      exact h
    · have hgroup : (r.step (.reap now order)).group = ({ r.group with
          members := (r.group.dead now).foldl (fun t id => t.erase id) r.group.members }
            : Group).rebalance order := by
        rw [Room.step, Group.reap, if_neg hd]
      refine h.opened (hfits.generation ?_) ?_ (.refl _) h.justified rfl
      · rw [hgroup]; exact Group.generation_rebalance _ order
      · rw [hgroup]; exact Group.state_rebalance _ order

end Supply

/-- **Every `Sync` that gets through returns the bytes that the leader of its generation
supplied for the member in that generation, and none if it supplied none**, in a run in
which the leader's first call of a generation leaves out no member that holds an old
assignment, no follower's wait ends before that call, and the generations do not wrap
around. -/
theorem sync_current_assignment (ops : List Op) (hfew : generations Room.new ops < 2 ^ 31)
    (h : Along Room.step Room.Timely Room.new ops) :
    Justified (run Room.step Room.new ops).history := by
  have hboth : Always Room.step (fun r => r.Ok ∧ Supply r) Room.new ops := by
    refine (h.and (along_few hfew)).always ⟨Room.ok_new, Supply.new⟩ ?_
    rintro r op ⟨hok, hs⟩ ⟨ht, hfits⟩
    exact ⟨(Room.change_step hok op).1, hs.step hok ht hfits⟩
  exact hboth.final.2.justified

/-- Two members; the follower waits for the leader's assignments and gets its own. -/
def timelyOps : List Op :=
  [.join ⟨[], [99], [⟨[114], []⟩], 1000⟩ [49] 0 [],
    .join ⟨[], [99], [⟨[114], []⟩], 1000⟩ [50] 1 [],
    .sync [99, 45, 50] 2 ∅ 2, .sync [99, 45, 49] 2 (AList.insert [99, 45, 50] [7] ∅) 3, .wake 0 4]

theorem sync_current_assignment_timely :
    Justified (run Room.step Room.new timelyOps).history :=
  sync_current_assignment timelyOps (by decide +kernel) (by decide +kernel)

/-- The latest `Sync` of a run. -/
def Room.lastSync (r : Room) : Option (Bytes × ℤ × SyncResult) :=
  r.history.findSome? fun e => match e with
    | .synced id generation res => some (id, generation, res)
    | _ => none

/-- The calls of the leaders for a generation. -/
def Room.callsFor (r : Room) (generation : ℤ) : List (List Bytes) :=
  r.history.filterMap fun e => match e with
    | .assigned _ gen assignments => if gen = generation then some assignments.keys else none
    | _ => none

/-- The follower joins again.  In the new generation the leader leaves it out, or does not
call at all before the deadline; both times the follower gets its old assignment. -/
theorem sync_returns_old_assignment :
    let again : List Op := timelyOps ++ [.join ⟨[99, 45, 50], [99], [⟨[114], []⟩], 1000⟩ [] 5 []]
    let left := run Room.step Room.new
      (again ++ [.sync [99, 45, 49] 3 ∅ 6, .sync [99, 45, 50] 3 ∅ 7])
    let late := run Room.step Room.new
      (again ++ [.sync [99, 45, 50] 3 ∅ 6, .wake 0 30000000006])
    (left.lastSync = some ([99, 45, 50], 3, ⟨.none, [7]⟩) ∧ left.callsFor 3 = [[]]) ∧
      (late.lastSync = some ([99, 45, 50], 3, ⟨.none, [7]⟩) ∧ late.callsFor 3 = []) := by
  decide +kernel

end Consumer
end Mq
