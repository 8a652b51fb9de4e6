import Mq.Group.Coordinator

/-!
# Generations of a consumer group

A generation stands for one membership and one leader.  Whatever changes these opens a
new generation, and nothing but the leader's assignment makes a group stable.

## Main definitions

* `Group.Ok` — the group is empty exactly when it says so, and its leader is a member.
* `Group.SameMembers` — two states with the same members and the same leader.
* `Group.Change` — what an operation can do to a group.
* `generations` — how many generations a run opens.

## Main results

* `Room.change_step` — every operation keeps `Group.Ok` and is a `Group.Change`.
* `group_invariant` — **the invariant of a consumer group, and what a generation
  stands for.**
-/

namespace Mq
namespace Consumer

open Word Transition

namespace Group

/-! ### One state and the next -/

/-- The group is empty exactly when it says so, its leader is a member, and no member is
without a name. -/
structure Ok (g : Group) : Prop where
  empty_iff : (∀ id, g.members.lookup id = none) ↔ g.state = .empty
  leader : g.state ≠ .empty → g.members.lookup g.leaderID ≠ none
  leaderless : g.state = .empty → g.leaderID = []
  named : g.members.lookup [] = none

/-- The members and the leader are the same. -/
structure SameMembers (g g' : Group) : Prop where
  leader : g'.leaderID = g.leaderID
  members : ∀ id, g'.members.lookup id = none ↔ g.members.lookup id = none

/-- An operation opens a generation, in which the leader has not assigned anything yet,
or leaves the members and the leader. -/
def Change (g g' : Group) : Prop :=
  g'.generation = wrap32 (g.generation + 1) ∧ g'.state ≠ .stable ∨
    g'.generation = g.generation ∧ SameMembers g g'

variable {g g' : Group}

theorem SameMembers.refl (g : Group) : SameMembers g g := ⟨rfl, fun _ => Iff.rfl⟩

theorem SameMembers.trans {g'' : Group} (h : SameMembers g g') (h' : SameMembers g' g'') :
    SameMembers g g'' :=
  ⟨h'.leader.trans h.leader, fun id => (h'.members id).trans (h.members id)⟩

theorem SameMembers.symm (h : SameMembers g g') : SameMembers g' g :=
  ⟨h.leader.symm, fun id => (h.members id).symm⟩

/-- The same members have the same names, in some order. -/
theorem SameMembers.perm_keys (h : SameMembers g g') : g'.members.keys.Perm g.members.keys := by
  refine (List.perm_ext_iff_of_nodup g'.members.keys_nodup g.members.keys_nodup).mpr fun id => ?_
  rw [Table.mem_keys_iff, Table.mem_keys_iff, Ne, Ne, h.members id]

theorem ok_new : new.Ok :=
  ⟨⟨fun _ => rfl, fun _ _ => rfl⟩, fun h => absurd rfl h, fun _ => rfl, rfl⟩

/-- An operation that keeps the members and the leader keeps the invariant, as long as it
does not empty the group. -/
theorem Ok.of_sameMembers (h : g.Ok) (hsame : SameMembers g g')
    (hstate : g'.state = .empty ↔ g.state = .empty) : g'.Ok := by
  refine ⟨?_, ?_, ?_, (hsame.members []).mpr h.named⟩
  · rw [hstate, ← h.empty_iff]
    exact forall_congr' hsame.members
  · intro hne
    rw [hsame.leader, Ne, hsame.members]
    exact h.leader (mt hstate.mpr hne)
  · intro he
    rw [hsame.leader]
    exact h.leaderless (hstate.mp he)

/-! ### Joining -/

theorem memberIDFor_ne_nil (args : JoinArgs) (random : Bytes) : memberIDFor args random ≠ [] := by
  rw [memberIDFor]
  split
  · simp
  · next h => exact h

theorem ok_of_members {id : Bytes} {m : GroupMember} (hid : id ≠ []) (h : g.Ok)
    (hmembers : g'.members = g.members.insert id m) (hstate : g'.state ≠ .empty)
    (hleader : g'.leaderID = id ∨ g'.members.lookup g'.leaderID ≠ none) : g'.Ok := by
  have hlook : ∀ j, g'.members.lookup j = if j = id then some m else g.members.lookup j := by
    intro j; rw [hmembers, Table.lookup_insert_ite]
  refine ⟨?_, ?_, fun he => absurd he hstate, ?_⟩
  · constructor
    · intro hnone
      have := hnone id
      rw [hlook, if_pos rfl] at this
      cases this
    · intro he; exact absurd he hstate
  · intro _
    rcases hleader with hl | hl
    · rw [hl, hlook, if_pos rfl]; simp
    · exact hl
  · rw [hlook, if_neg (Ne.symm hid)]
    exact h.named

theorem members_fillLeader (g : Group) (id : Bytes) : (g.fillLeader id).members = g.members := by
  rw [fillLeader]
  split <;> rfl

theorem members_enroll (g : Group) (args : JoinArgs) (id : Bytes) (now : ℤ) :
    (g.enroll args id now).members = g.members.insert id (g.joined args id now) := by
  rw [enroll, members_fillLeader]
  split <;> rfl

/-- What enrolling a member does. -/
theorem change_enroll (h : g.Ok) (args : JoinArgs) {id : Bytes} (hid : id ≠ []) (now : ℤ) :
    (g.enroll args id now).Ok ∧ (g.enroll args id now).state = .awaitingSync ∧
      (¬ g.opensGeneration args id →
        (g.enroll args id now).generation = g.generation ∧ SameMembers g (g.enroll args id now)) ∧
      (g.opensGeneration args id →
        (g.enroll args id now).generation = wrap32 (g.generation + 1)) := by
  have hfill : ∀ g₁ : Group, g₁.state = .awaitingSync →
      g₁.members = g.members.insert id (g.joined args id now) →
      (g₁.fillLeader id).Ok ∧ (g₁.fillLeader id).state = .awaitingSync := by
    intro g₁ hstate hmembers
    rw [fillLeader]
    split
    · exact ⟨ok_of_members hid h hmembers (by simp [hstate]) (.inl rfl), hstate⟩
    · next hl =>
      exact ⟨ok_of_members hid h hmembers (by simp [hstate]) (.inr fun hn => hl (.inl hn)), hstate⟩
  rw [enroll]
  by_cases hopens : g.opensGeneration args id
  · rw [if_pos hopens]
    obtain ⟨hok, hstate⟩ := hfill
      ({ g with members := g.members.insert id (g.joined args id now) } : Group).nextGeneration
      rfl rfl
    refine ⟨hok, hstate, fun hnot => absurd hopens hnot, fun _ => ?_⟩
    rw [fillLeader]
    split <;> rfl
  · rw [if_neg hopens]
    have hstay : args.memberID ≠ [] ∧ g.members.lookup id ≠ none ∧ g.state = .awaitingSync := by
      refine ⟨fun hc => hopens (.inl hc), fun hc => hopens (.inr (.inl hc)), ?_⟩
      by_contra hc
      exact hopens (.inr (.inr hc))
    obtain ⟨-, hmem, hawait⟩ := hstay
    obtain ⟨hok, hstate⟩ := hfill
      { g with members := g.members.insert id (g.joined args id now) } hawait rfl
    refine ⟨hok, hstate, fun _ => ?_, fun hc => absurd hc hopens⟩
    -- the leader is there, so it stays the leader
    have hlead : g.members.lookup g.leaderID ≠ none := h.leader (by simp [hawait])
    have hlead' : (g.members.insert id (g.joined args id now)).lookup g.leaderID ≠ none := by
      rw [Table.lookup_insert_ite]
      split
      · simp
      · exact hlead
    have hname : g.leaderID ≠ [] := by
      intro hc
      rw [hc] at hlead
      exact hlead h.named
    rw [fillLeader, if_neg (not_or.mpr ⟨hlead', hname⟩)]
    refine ⟨rfl, rfl, fun j => ?_⟩
    dsimp only
    rw [Table.lookup_insert_ite]
    split
    · next hj => subst hj; simp [hmem]
    · exact Iff.rfl

theorem change_join (h : g.Ok) (args : JoinArgs) (random : Bytes) (now : ℤ) (order : List Bytes) :
    (g.join args random now order).1.Ok ∧
      (g.join args random now order).1.state = .awaitingSync ∧
      Change g (g.join args random now order).1 := by
  obtain ⟨hok, hstate, hstay, hopen⟩ :=
    change_enroll h args (memberIDFor_ne_nil args random) now
  refine ⟨⟨hok.empty_iff, hok.leader, hok.leaderless, hok.named⟩, hstate, ?_⟩
  by_cases hopens : g.opensGeneration args (memberIDFor args random)
  · refine .inl ⟨hopen hopens, fun hc => ?_⟩
    cases hc.symm.trans hstate
  · obtain ⟨hgen, hsame⟩ := hstay hopens
    exact .inr ⟨hgen, hsame.leader, hsame.members⟩

/-! ### The other operations -/

/-- A member gets what it is assigned, and keeps everything else. -/
def reassign (assignment : Option Bytes) (m : GroupMember) : GroupMember :=
  { m with assignment := assignment.getD m.assignment }

/-- Assignments are handed out one by one, and no member comes twice. -/
theorem lookup_foldl_assign {id : Bytes}
    {f : Table Bytes GroupMember → (Sigma fun _ : Bytes => Bytes) → Table Bytes GroupMember}
    (hf : ∀ t e, (f t e).lookup id
      = if id = e.1 then (t.lookup id).map (reassign (some e.2)) else t.lookup id)
    {es : List (Sigma fun _ : Bytes => Bytes)} (hes : es.NodupKeys) (t : Table Bytes GroupMember) :
    (es.foldl f t).lookup id = (t.lookup id).map (reassign (es.dlookup id)) := by
  induction es generalizing t with
  | nil =>
    rw [List.foldl_nil, List.dlookup_nil]
    cases t.lookup id <;> rfl
  | cons e es ih =>
    rcases e with ⟨j, a⟩
    obtain ⟨hj, hes⟩ := List.nodupKeys_cons.mp hes
    rw [List.foldl_cons, ih hes, hf]
    by_cases hid : id = j
    · subst hid
      rw [if_pos rfl, List.dlookup_cons_eq, List.dlookup_eq_none.mpr hj, Option.map_map]
      rfl
    · rw [if_neg hid, List.dlookup_cons_ne _ _ hid]

theorem lookup_assign (g : Group) (assignments : Table Bytes Bytes) (id : Bytes) :
    (g.assign assignments).members.lookup id
      = (g.members.lookup id).map (reassign (assignments.lookup id)) := by
  refine lookup_foldl_assign (fun t e => ?_) assignments.nodupKeys g.members
  cases ht : t.lookup e.1 with
  | none =>
    dsimp only
    split
    · next hid => rw [hid, ht]; rfl
    · rfl
  | some m =>
    dsimp only
    rw [Table.lookup_insert_ite]
    split
    · next hid => rw [hid, ht]; rfl
    · rfl

theorem lookup_assign_eq_none (g : Group) (assignments : Table Bytes Bytes) (id : Bytes) :
    (g.assign assignments).members.lookup id = none ↔ g.members.lookup id = none := by
  rw [lookup_assign, Option.map_eq_none_iff]

theorem lookup_touch (g : Group) (id : Bytes) (now : ℤ) (j : Bytes) :
    (g.touch id now).members.lookup j
      = if j = id then (g.members.lookup j).map fun m => { m with lastHeartbeat := now }
        else g.members.lookup j := by
  rw [touch]
  cases hm : g.members.lookup id with
  | none =>
    dsimp only
    split
    · next hj => rw [hj, hm]; rfl
    · rfl
  | some m =>
    dsimp only
    rw [Table.lookup_insert_ite]
    split
    · next hj => rw [hj, hm]; rfl
    · rfl

/-- Touching changes nothing but the member. -/
theorem touch_kept (g : Group) (id : Bytes) (now : ℤ) :
    (g.touch id now).generation = g.generation ∧ (g.touch id now).leaderID = g.leaderID ∧
      (g.touch id now).protocolName = g.protocolName ∧ (g.touch id now).state = g.state := by
  rw [touch]
  cases g.members.lookup id <;> exact ⟨rfl, rfl, rfl, rfl⟩

theorem sameMembers_touch (g : Group) (id : Bytes) (now : ℤ) :
    SameMembers g (g.touch id now) ∧ (g.touch id now).state = g.state ∧
      (g.touch id now).generation = g.generation := by
  obtain ⟨hgen, hleader, -, hstate⟩ := g.touch_kept id now
  refine ⟨⟨hleader, fun j => ?_⟩, hstate, hgen⟩
  rw [lookup_touch]
  split <;> simp

theorem sameMembers_heartbeat (g : Group) (id : Bytes) (generation now : ℤ) :
    SameMembers g (g.heartbeat id generation now).1 ∧
      (g.heartbeat id generation now).1.state = g.state ∧
      (g.heartbeat id generation now).1.generation = g.generation := by
  rw [heartbeat]
  split
  · exact ⟨.refl g, rfl, rfl⟩
  · split
    · exact ⟨.refl g, rfl, rfl⟩
    · split
      · exact ⟨.refl g, rfl, rfl⟩
      · exact g.sameMembers_touch id now

theorem generation_rebalance (g : Group) (order : List Bytes) :
    (g.rebalance order).generation = wrap32 (g.generation + 1) := by
  rw [rebalance]
  dsimp only
  split <;> rfl

theorem state_rebalance (g : Group) (order : List Bytes) : (g.rebalance order).state ≠ .stable := by
  rw [rebalance]
  split <;> simp

/-- A rebalance after members have gone. -/
theorem change_rebalance (h : g.Ok) {members : Table Bytes GroupMember}
    (hsub : ∀ id, g.members.lookup id = none → members.lookup id = none) (order : List Bytes) :
    (({ g with members := members } : Group).rebalance order).Ok ∧
      Change g (({ g with members := members } : Group).rebalance order) := by
  rw [rebalance]
  dsimp only
  cases hids : ids { g with generation := wrap32 (g.generation + 1), members := members } order with
  | nil =>
    have hnone : ∀ id, members.lookup id = none := by
      intro id
      by_contra hne
      have := (mem_ids { g with generation := wrap32 (g.generation + 1), members := members }
        order id).mpr hne
      rw [hids] at this
      cases this
    exact ⟨⟨⟨fun _ => rfl, fun _ => hnone⟩, fun hc => absurd rfl hc, fun _ => rfl, hnone []⟩,
      .inl ⟨rfl, by simp⟩⟩
  | cons id rest =>
    have hid : members.lookup id ≠ none :=
      (mem_ids { g with generation := wrap32 (g.generation + 1), members := members }
        order id).mp (hids ▸ List.mem_cons_self)
    refine ⟨⟨?_, ?_, ?_, hsub [] h.named⟩, .inl ⟨rfl, by simp⟩⟩
    · constructor
      · intro hnone; exact absurd (hnone id) hid
      · intro hc; cases hc
    · intro _
      have hpick : ∀ l, l = id ∨ l = g.leaderID ∧ members.lookup g.leaderID ≠ none →
          members.lookup l ≠ none := by
        rintro l (rfl | ⟨rfl, hl⟩)
        · exact hid
        · exact hl
      apply hpick
      show (if members.lookup g.leaderID = none then id else g.leaderID) = id ∨ _
      by_cases hl : members.lookup g.leaderID = none
      · exact .inl (if_pos hl)
      · exact .inr ⟨if_neg hl, hl⟩
    · intro hc; cases hc

/-- A member that leaves, or is not one, and the members whose session has expired. -/
theorem change_leave (h : g.Ok) (id : Bytes) (order : List Bytes) :
    (g.leave id order).1 = g ∨ (g.leave id order).1.Ok ∧ Change g (g.leave id order).1 ∧
      (g.leave id order).1.state ≠ .stable := by
  rw [leave]
  split
  · exact .inl rfl
  · refine .inr (and_assoc.mp ⟨change_rebalance h (fun j hj => ?_) order, ?_⟩)
    · rw [Table.lookup_erase_ite, hj, ite_self]
    · exact state_rebalance _ order

theorem change_reap (h : g.Ok) (now : ℤ) (order : List Bytes) :
    g.reap now order = g ∨ (g.reap now order).Ok ∧ Change g (g.reap now order) ∧
      (g.reap now order).state ≠ .stable := by
  rw [reap]
  split
  · exact .inl rfl
  · refine .inr (and_assoc.mp ⟨change_rebalance h (fun j hj => ?_) order, ?_⟩)
    · rw [Table.lookup_foldl_erase, hj, ite_self]
    · exact state_rebalance _ order

end Group

/-! ### A room -/

namespace Room

/-- The group is in order, and when it is stable its leader has assigned the work for
this generation. -/
structure Ok (r : Room) : Prop where
  group : r.group.Ok
  assigned : r.group.state = .stable →
    ∃ assignments, .assigned r.group.leaderID r.group.generation assignments ∈ r.history

variable {r r' : Room}

theorem ok_new : new.Ok := ⟨Group.ok_new, fun h => by cases h⟩

/-- An operation that leaves the members, the leader, the generation and the state. -/
theorem Ok.quiet (h : r.Ok) (hsame : r.group.SameMembers r'.group)
    (hstate : r'.group.state = r.group.state) (hgen : r'.group.generation = r.group.generation)
    (hhistory : ∀ e ∈ r.history, e ∈ r'.history) : r'.Ok ∧ r.group.Change r'.group := by
  refine ⟨⟨h.group.of_sameMembers hsame (by rw [hstate]), ?_⟩, .inr ⟨hgen, hsame⟩⟩
  intro hstable
  obtain ⟨assignments, hmem⟩ := h.assigned (hstate ▸ hstable)
  rw [hsame.leader, hgen]
  exact ⟨assignments, hhistory _ hmem⟩

/-- An operation after which the work is to be assigned. -/
theorem ok_of_not_stable (hok : r'.group.Ok) (hstate : r'.group.state ≠ .stable) : r'.Ok :=
  ⟨hok, fun hc => absurd hc hstate⟩

theorem Ok.finishSync (h : r.Ok) (memberID : Bytes) (generation now : ℤ) :
    (r.finishSync memberID generation now).Ok ∧
      r.group.Change (r.finishSync memberID generation now).group := by
  obtain ⟨hsame, hstate, hgen⟩ := r.group.sameMembers_touch memberID now
  exact h.quiet hsame hstate hgen fun e he => List.mem_cons_of_mem _ he

/-- The leader's assignments make the group stable. -/
theorem Ok.assign (h : r.Ok) (assignments : Table Bytes Bytes)
    (hmember : r.group.members.lookup r.group.leaderID ≠ none) :
    (note { r with group := { r.group.assign assignments with state := .stable } }
      (.assigned r.group.leaderID r.group.generation assignments)).Ok ∧
    r.group.SameMembers { r.group.assign assignments with state := .stable } := by
  have hne : r.group.state ≠ .empty := by
    intro he
    exact hmember (h.group.empty_iff.mpr he _)
  have hsame : r.group.SameMembers { r.group.assign assignments with state := .stable } :=
    ⟨rfl, r.group.lookup_assign_eq_none assignments⟩
  refine ⟨⟨h.group.of_sameMembers hsame ⟨fun hc => ?_, fun hc => absurd hc hne⟩, fun _ => ?_⟩,
    hsame⟩
  · cases hc
  · exact ⟨assignments, List.mem_cons_self⟩

theorem change_sync (h : r.Ok) (memberID : Bytes) (generation : ℤ)
    (assignments : Table Bytes Bytes) (now : ℤ) :
    (r.sync memberID generation assignments now).Ok ∧
      r.group.Change (r.sync memberID generation assignments now).group := by
  have hnote : ∀ e, (r.note e).Ok ∧ r.group.Change (r.note e).group :=
    fun e => h.quiet (.refl _) rfl rfl fun e' he => List.mem_cons_of_mem _ he
  rw [sync]
  split
  · exact hnote _
  · next hmember =>
    split
    · exact hnote _
    · next hgen =>
      have hgen : generation = r.group.generation := not_not.mp hgen
      split
      · next hleader =>
        subst hgen hleader
        obtain ⟨hok, hsame⟩ := h.assign assignments hmember
        obtain ⟨hok', hchange⟩ := hok.finishSync r.group.leaderID r.group.generation now
        refine ⟨hok', .inr ?_⟩
        have htouch := Group.sameMembers_touch
          { r.group.assign assignments with state := .stable } r.group.leaderID now
        exact ⟨htouch.2.2, hsame.trans htouch.1⟩
      · split
        · exact h.finishSync memberID generation now
        · exact h.quiet (.refl _) rfl rfl fun _ he => he

theorem change_wake (h : r.Ok) (i : ℕ) (now : ℤ) :
    (r.wake i now).Ok ∧ r.group.Change (r.wake i now).group := by
  have hwaiting : ∀ waiting, Ok { r with waiting := waiting } :=
    fun waiting => ⟨h.group, h.assigned⟩
  rw [wake]
  split
  · exact h.quiet (.refl _) rfl rfl fun _ he => he
  · split
    · exact h.quiet (.refl _) rfl rfl fun _ he => he
    · dsimp only
      split
      · exact h.quiet (.refl _) rfl rfl fun _ he => List.mem_cons_of_mem _ he
      · exact (hwaiting _).finishSync _ _ now

/-- **Every operation keeps the invariant, and opens a generation or leaves the members
and the leader.** -/
theorem change_step (h : r.Ok) (op : Op) : (r.step op).Ok ∧ r.group.Change (r.step op).group := by
  cases op with
  | join args random now order =>
    obtain ⟨hok, hstate, hchange⟩ := Group.change_join h.group args random now order
    refine ⟨ok_of_not_stable hok fun hc => ?_, hchange⟩
    cases hc.symm.trans hstate
  | sync memberID generation assignments now => exact change_sync h memberID generation _ now
  | wake i now => exact change_wake h i now
  | heartbeat memberID generation now =>
    obtain ⟨hsame, hstate, hgen⟩ := r.group.sameMembers_heartbeat memberID generation now
    exact h.quiet hsame hstate hgen fun _ he => he
  | leave memberID order =>
    rcases Group.change_leave h.group memberID order with heq | ⟨hok, hchange, hstate⟩
    · have hgroup : (r.step (.leave memberID order)).group = r.group := heq
      refine h.quiet ?_ (congrArg _ hgroup) (congrArg _ hgroup) fun _ he => he
      rw [hgroup]
      exact .refl _
    · exact ⟨ok_of_not_stable hok hstate, hchange⟩
  | reap now order =>
    rcases Group.change_reap h.group now order with heq | ⟨hok, hchange, hstate⟩
    · have hgroup : (r.step (.reap now order)).group = r.group := heq
      refine h.quiet ?_ (congrArg _ hgroup) (congrArg _ hgroup) fun _ he => he
      rw [hgroup]
      exact .refl _
    · exact ⟨ok_of_not_stable hok hstate, hchange⟩

/-! ### Runs -/

/-- The operation opens a generation. -/
def Opens (r : Room) (op : Op) : Prop := (r.step op).group.generation ≠ r.group.generation

instance (r : Room) (op : Op) : Decidable (r.Opens op) := by unfold Opens; infer_instance

theorem opens_of_generation {op : Op}
    (h : (r.step op).group.generation = wrap32 (r.group.generation + 1)) : r.Opens op := by
  rw [Opens, h, wrap32]
  omega

end Room

/-- How many generations a run opens. -/
def generations (r : Room) (ops : List Op) : ℕ := tally Room.step Room.Opens r ops

theorem generations_cons (r : Room) (op : Op) (ops : List Op) :
    generations r (op :: ops) = (if r.Opens op then 1 else 0) + generations (r.step op) ops := rfl

theorem generations_append (r : Room) (ops ops' : List Op) :
    generations r (ops ++ ops')
      = generations r ops + generations (run Room.step r ops) ops' := tally_append r ops ops'

/-- The generation counts those that were opened, and as long as none is, the members and
the leader stay. -/
theorem generation_run {r : Room} (h : r.Ok) (ops : List Op) (hnonneg : 0 ≤ r.group.generation)
    (hfew : r.group.generation + generations r ops < 2 ^ 31) :
    (run Room.step r ops).Ok ∧
      (run Room.step r ops).group.generation = r.group.generation + generations r ops ∧
      (generations r ops = 0 → r.group.SameMembers (run Room.step r ops).group) := by
  induction ops generalizing r with
  | nil => exact ⟨h, (Int.add_zero _).symm, fun _ => .refl _⟩
  | cons op ops ih =>
    obtain ⟨hok, hchange⟩ := Room.change_step h op
    rw [generations_cons] at hfew ⊢
    rcases hchange with ⟨hgen, -⟩ | ⟨hgen, hsame⟩
    · have hopens : r.Opens op := Room.opens_of_generation hgen
      rw [if_pos hopens] at hfew ⊢
      rw [wrap32_eq (by omega) (by omega)] at hgen
      obtain ⟨hok', hgen', -⟩ := ih hok (by omega) (by omega)
      refine ⟨hok', ?_, fun hzero => by omega⟩
      rw [run_cons, hgen', hgen]
      omega
    · rw [if_neg (by rw [Room.Opens, not_not]; exact hgen)] at hfew ⊢
      obtain ⟨hok', hgen', hsame'⟩ := ih hok (by omega) (by omega)
      refine ⟨hok', ?_, fun hzero => hsame.trans (hsame' (by omega))⟩
      rw [run_cons, hgen', hgen]
      omega

/-- In a run with few generations the counter does not wrap around. -/
theorem along_few {ops : List Op} (hfew : generations Room.new ops < 2 ^ 31) :
    Along Room.step (fun r op => 0 ≤ r.group.generation ∧
      (r.Opens op → r.group.generation + 1 < 2 ^ 31)) Room.new ops := by
  apply along_of_split
  intro pre op post heq
  have hzero : Room.new.group.generation = 0 := rfl
  rw [heq, generations_append, generations_cons] at hfew
  obtain ⟨-, hgen, -⟩ := generation_run Room.ok_new pre le_rfl (by omega)
  refine ⟨by omega, fun hopens => ?_⟩
  rw [if_pos hopens] at hfew
  omega

/-- Two moments of a run: the generation does not go back, and if it is the same, so are
the members and the leader. -/
theorem generation_split {early mid : List Op}
    (hfew : generations Room.new (early ++ mid) < 2 ^ 31) :
    (run Room.step Room.new early).group.generation
        ≤ (run Room.step Room.new (early ++ mid)).group.generation ∧
      ((run Room.step Room.new early).group.generation
          = (run Room.step Room.new (early ++ mid)).group.generation →
        (run Room.step Room.new early).group.SameMembers
          (run Room.step Room.new (early ++ mid)).group) := by
  have hzero : Room.new.group.generation = 0 := rfl
  rw [generations_append] at hfew
  obtain ⟨hok, hgen, -⟩ := generation_run Room.ok_new early le_rfl (by omega)
  obtain ⟨-, hgen', hsame⟩ := generation_run hok mid (by omega) (by omega)
  rw [run_append]
  exact ⟨by omega, fun heq => hsame (by omega)⟩

/-! ### What a join returns -/

/-- The result of a join describes the group as it was when it returned. -/
structure Returned (g : Group) (res : JoinResult) : Prop where
  generation : res.generationID = g.generation
  leader : res.leaderID = g.leaderID
  protocolName : ∃ order, res.protocolName = g.chooseProtocol order
  member : g.members.lookup res.memberID ≠ none
  members : res.memberID = res.leaderID → (res.members.map (·.id)).Perm g.members.keys

theorem returned_joinResult {g : Group} {order : List Bytes}
    (hname : g.protocolName = g.chooseProtocol order) {id : Bytes}
    (hid : g.members.lookup id ≠ none) : Returned g (g.joinResult id order) := by
  refine ⟨rfl, rfl, ⟨order, hname⟩, hid, fun hleader => ?_⟩
  have hleader : id = g.leaderID := hleader
  refine List.Perm.trans (List.Perm.of_eq ?_) (g.perm_ids order)
  rw [Group.joinResult, if_pos hleader, List.map_filterMap]
  have hall : ∀ j ∈ g.ids order,
      ((g.members.lookup j).map fun m => (⟨j, m.metadataFor g.protocolName⟩ : Member)).map (·.id)
        = some j := by
    intro j hj
    cases hm : g.members.lookup j with
    | none => exact absurd hm ((g.mem_ids order j).mp hj)
    | some m => rfl
  rw [List.filterMap_congr hall, List.filterMap_some]

theorem returned_join (g : Group) (args : JoinArgs) (random : Bytes) (now : ℤ)
    (order : List Bytes) :
    Returned (g.join args random now order).1 (g.join args random now order).2 := by
  refine returned_joinResult rfl ?_
  show (Group.enroll _ _ _ _).members.lookup _ ≠ none
  rw [Group.members_enroll, AList.lookup_insert]
  exact Option.some_ne_none _

/-- Who is echoed to the leader is a member. -/
theorem Group.exists_of_mem_joinResult {g : Group} {id : Bytes} {order : List Bytes} {e : Member}
    (he : e ∈ (g.joinResult id order).members) :
    ∃ m, g.members.lookup e.id = some m ∧ e.metadata = m.metadataFor g.protocolName := by
  rw [joinResult] at he
  dsimp only at he
  split at he
  · obtain ⟨j, -, hj⟩ := List.mem_filterMap.mp he
    obtain ⟨m, hm, rfl⟩ := Option.map_eq_some_iff.mp hj
    exact ⟨m, hm, rfl⟩
  · cases he

theorem mem_history_finishSync {r : Room} {memberID : Bytes} {generation now : ℤ}
    {res : JoinResult} (h : .joined res ∈ (r.finishSync memberID generation now).history) :
    .joined res ∈ r.history := by
  rcases List.mem_cons.mp h with h | h
  · cases h
  · exact h

/-- Only a join adds a join result, and it describes the group that it leaves. -/
theorem joined_step {r : Room} {op : Op} {res : JoinResult}
    (h : .joined res ∈ (r.step op).history) :
    .joined res ∈ r.history ∨ Returned (r.step op).group res := by
  have hnote : ∀ m gen sr, .joined res ∈ (r.note (.synced m gen sr)).history →
      .joined res ∈ r.history := by
    intro m gen sr hmem
    rcases List.mem_cons.mp hmem with hc | hmem
    · cases hc
    · exact hmem
  cases op with
  | join args random now order =>
    rcases List.mem_cons.mp h with h | h
    · cases h
      exact .inr (returned_join _ args random now order)
    · exact .inl h
  | sync memberID generation assignments now =>
    left
    rw [Room.step, Room.sync] at h
    split at h
    · exact hnote _ _ _ h
    · split at h
      · exact hnote _ _ _ h
      · split at h
        · rcases List.mem_cons.mp (mem_history_finishSync h) with hc | h
          · cases hc
          · exact h
        · split at h
          · exact mem_history_finishSync h
          · exact h
  | wake i now =>
    left
    rw [Room.step, Room.wake] at h
    split at h
    · exact h
    · split at h
      · exact h
      · dsimp only at h
        split at h
        · rcases List.mem_cons.mp h with hc | h
          · cases hc
          · exact h
        · exact mem_history_finishSync (r := { r with waiting := r.waiting.eraseIdx i }) h
  | heartbeat | leave | reap => exact .inl h

/-- A join result was returned at some moment of the run. -/
theorem exists_returned {ops : List Op} {res : JoinResult}
    (h : .joined res ∈ (run Room.step Room.new ops).history) :
    ∃ early late, ops = early ++ late ∧ Returned (run Room.step Room.new early).group res := by
  induction ops using List.reverseRecOn with
  | nil => cases h
  | append_singleton ops op ih =>
    rw [run_snoc] at h
    rcases joined_step h with h | h
    · obtain ⟨early, late, rfl, hret⟩ := ih h
      exact ⟨early, late ++ [op], List.append_assoc _ _ _, hret⟩
    · exact ⟨ops ++ [op], [], (List.append_nil _).symm, by rw [run_snoc]; exact h⟩

/-- Any two moments with the same generation, in whichever order, have the same members
and the same leader. -/
theorem sameMembers_of_generation {ops early late early' late' : List Op}
    (hfew : generations Room.new ops < 2 ^ 31) (h : ops = early ++ late) (h' : ops = early' ++ late')
    (hgen : (run Room.step Room.new early).group.generation
      = (run Room.step Room.new early').group.generation) :
    (run Room.step Room.new early).group.SameMembers (run Room.step Room.new early').group := by
  have hsplit : ∀ pre mid post, ops = pre ++ mid ++ post →
      generations Room.new (pre ++ mid) < 2 ^ 31 := by
    intro pre mid post heq
    rw [heq, generations_append] at hfew
    omega
  rcases List.append_eq_append_iff.mp (h.symm.trans h') with ⟨mid, hmid, hlate⟩ | ⟨mid, hmid, hlate⟩
  · subst hmid
    exact (generation_split (hsplit early mid late' h')).2 hgen
  · subst hmid
    exact ((generation_split (hsplit early' mid late h)).2 hgen.symm).symm

/-- **The invariant of a consumer group.**  It is empty exactly when it says so, its
leader is a member, and when it is stable the leader has assigned the work for this
generation.  The generation never goes back, and as long as it is the same, so are the
members and the leader; these members are what the leader is told when it joins. -/
theorem group_invariant (ops : List Op) (hfew : generations Room.new ops < 2 ^ 31) :
    Always Room.step Room.Ok Room.new ops ∧
      (∀ early mid late, ops = early ++ mid ++ late →
        (run Room.step Room.new early).group.generation
            ≤ (run Room.step Room.new (early ++ mid)).group.generation ∧
          ((run Room.step Room.new early).group.generation
              = (run Room.step Room.new (early ++ mid)).group.generation →
            (run Room.step Room.new early).group.SameMembers
              (run Room.step Room.new (early ++ mid)).group)) ∧
      ∀ res, .joined res ∈ (run Room.step Room.new ops).history →
        res.memberID = res.leaderID → ∀ early late, ops = early ++ late →
        (run Room.step Room.new early).group.generation = res.generationID →
          (res.members.map (·.id)).Perm (run Room.step Room.new early).group.members.keys := by
  refine ⟨?_, ?_, ?_⟩
  · have htrue : Along Room.step (fun _ _ => True) Room.new ops :=
      along_of_forall (D := fun _ => True) fun _ _ => trivial
    exact htrue.always Room.ok_new fun r op hr _ => (Room.change_step hr op).1
  · intro early mid late heq
    apply generation_split
    rw [heq, generations_append] at hfew
    omega
  · intro res hres hleader early late heq hgen
    obtain ⟨early', late', heq', hret⟩ := exists_returned hres
    have hsame := sameMembers_of_generation hfew heq' heq
      (hret.generation.symm.trans hgen.symm)
    exact (hret.members hleader).trans hsame.perm_keys.symm

/-- Two members join, the leader assigns, and the follower leaves. -/
def visitOps : List Op :=
  [.join ⟨[], [99], [⟨[114], [1]⟩], 1000⟩ [49] 0 [],
    .join ⟨[], [99], [⟨[114], [2]⟩], 1000⟩ [50] 1 [],
    .sync [99, 45, 49] 2 (AList.insert [99, 45, 50] [7] ∅) 2, .sync [99, 45, 50] 2 ∅ 3,
    .leave [99, 45, 50] []]

/-- While the members are the same the generation stays 2, and the leader of the first
generation was told its members. -/
theorem group_invariant_visit :
    Always Room.step Room.Ok Room.new visitOps ∧
      ((run Room.step Room.new (visitOps.take 2)).group.generation = 2 ∧
        (run Room.step Room.new (visitOps.take 2)).group.SameMembers
          (run Room.step Room.new (visitOps.take 2 ++ (visitOps.drop 2).take 2)).group) ∧
      [[99, 45, 49]].Perm (run Room.step Room.new (visitOps.take 1)).group.members.keys := by
  have h := group_invariant visitOps (by decide +kernel)
  refine ⟨h.1, ⟨by decide +kernel, ?_⟩, ?_⟩
  · exact (h.2.1 (visitOps.take 2) ((visitOps.drop 2).take 2) (visitOps.drop 4) rfl).2
      (by decide +kernel)
  · exact h.2.2 ⟨.none, 1, [114], [99, 45, 49], [99, 45, 49], [⟨[99, 45, 49], [1]⟩]⟩
      (List.mem_of_getLast? rfl) rfl (visitOps.take 1) (visitOps.drop 1) rfl (by decide +kernel)

end Consumer
end Mq
