import Mq.Group.Generation

/-!
# The protocol of a generation

Every member of a generation should be told the same protocol.  It is chosen again at
every join, from the leader's list, and the leader may join again without opening a
generation.

## Main definitions

* `Group.leaderProtocol` — the first protocol of the leader.
* `Room.Steady` — a leader that joins again in the same generation keeps its first
  protocol, and nobody joins without one.

## Main results

* `same_protocol` — **in a steady run all join results of a generation name the same
  protocol and the same leader.**
* `rejoin_changes_protocol` — a leader that joins again with another list changes the
  protocol within the generation.
-/

namespace Mq
namespace Consumer

open Word Transition

namespace Group

/-- The first protocol of the leader. -/
def leaderProtocol (g : Group) : Option Bytes :=
  (g.members.lookup g.leaderID).bind GroupMember.firstProtocol

/-- What `Q` says holds for every member and its protocols. -/
def Each (Q : Bytes → List Protocol → Prop) (g : Group) : Prop :=
  ∀ id m, g.members.lookup id = some m → Q id m.protocols

/-- Every member supports a protocol. -/
def Voiced (g : Group) : Prop := ∀ id m, g.members.lookup id = some m → m.protocols ≠ []

/-- The same members with the same protocols. -/
def SameProtocols (g g' : Group) : Prop :=
  g'.leaderID = g.leaderID ∧
    ∀ id, (g'.members.lookup id).map (·.protocols) = (g.members.lookup id).map (·.protocols)

variable {g g' : Group} {Q : Bytes → List Protocol → Prop}

theorem SameProtocols.refl (g : Group) : SameProtocols g g := ⟨rfl, fun _ => rfl⟩

theorem SameProtocols.trans {g'' : Group} (h : SameProtocols g g') (h' : SameProtocols g' g'') :
    SameProtocols g g'' :=
  ⟨h'.1.trans h.1, fun id => (h'.2 id).trans (h.2 id)⟩

theorem SameProtocols.each (h : SameProtocols g g') (hg : g.Each Q) : g'.Each Q := by
  intro id m' hm'
  have hmap := h.2 id
  rw [hm'] at hmap
  cases hm : g.members.lookup id with
  | none => rw [hm] at hmap; cases hmap
  | some m =>
    rw [hm] at hmap
    have heq : m'.protocols = m.protocols := Option.some.inj hmap
    rw [heq]
    exact hg id m hm

theorem leaderProtocol_eq (g : Group) :
    g.leaderProtocol
      = ((g.members.lookup g.leaderID).map (·.protocols)).bind fun ps => ps.head?.map (·.name) := by
  rw [leaderProtocol]
  cases g.members.lookup g.leaderID <;> rfl

theorem SameProtocols.leaderProtocol (h : SameProtocols g g') :
    g'.leaderProtocol = g.leaderProtocol := by
  rw [leaderProtocol_eq, leaderProtocol_eq, h.1, h.2]

/-- When every member supports a protocol, the leader's first one is chosen. -/
theorem chooseProtocol_eq (hg : g.Voiced) (hleader : g.members.lookup g.leaderID ≠ none)
    (order : List Bytes) : some (g.chooseProtocol order) = g.leaderProtocol := by
  cases hm : g.members.lookup g.leaderID with
  | none => exact absurd hm hleader
  | some m =>
    have hne := hg _ m hm
    cases hps : m.protocols with
    | nil => exact absurd hps hne
    | cons q ps =>
      have hfirst : (g.members.lookup g.leaderID).bind GroupMember.firstProtocol = some q.name := by
        rw [hm]
        show m.firstProtocol = _
        rw [GroupMember.firstProtocol, hps]
        rfl
      rw [chooseProtocol, leaderProtocol, hfirst]

/-! ### What the operations do to the protocols -/

theorem sameProtocols_touch (g : Group) (id : Bytes) (now : ℤ) :
    SameProtocols g (g.touch id now) := by
  refine ⟨(g.touch_kept id now).2.1, fun j => ?_⟩
  rw [lookup_touch]
  split
  · rw [Option.map_map]; rfl
  · rfl

theorem sameProtocols_assign (g : Group) (assignments : Table Bytes Bytes) (state : GroupState) :
    SameProtocols g { g.assign assignments with state := state } := by
  refine ⟨rfl, fun j => ?_⟩
  show ((g.assign assignments).members.lookup j).map _ = _
  rw [lookup_assign, Option.map_map]
  rfl

theorem sameProtocols_heartbeat (g : Group) (id : Bytes) (generation now : ℤ) :
    SameProtocols g (g.heartbeat id generation now).1 := by
  rw [heartbeat]
  split
  · exact .refl g
  · split
    · exact .refl g
    · split
      · exact .refl g
      · exact g.sameProtocols_touch id now

theorem each_rebalance {members : Table Bytes GroupMember}
    (hmembers : ∀ id m, members.lookup id = some m → Q id m.protocols) (order : List Bytes) :
    (({ g with members := members } : Group).rebalance order).Each Q := by
  rw [rebalance]
  dsimp only
  split <;> exact hmembers

/-- A member that is left has the protocols that it had. -/
theorem each_leave (hg : g.Each Q) (id : Bytes) (order : List Bytes) :
    (g.leave id order).1.Each Q := by
  rw [leave]
  split
  · exact hg
  · refine each_rebalance (fun j m hm => ?_) order
    rw [Table.lookup_erase_ite] at hm
    split at hm
    · cases hm
    · exact hg j m hm

theorem each_reap (hg : g.Each Q) (now : ℤ) (order : List Bytes) :
    (g.reap now order).Each Q := by
  rw [reap]
  split
  · exact hg
  · refine each_rebalance (fun j m hm => ?_) order
    rw [Table.lookup_foldl_erase] at hm
    split at hm
    · cases hm
    · exact hg j m hm

theorem each_join (hg : g.Each Q) {args : JoinArgs} {random : Bytes}
    (hargs : Q (memberIDFor args random) args.protocols) (now : ℤ) (order : List Bytes) :
    (g.join args random now order).1.Each Q := by
  intro id m hm
  have hm : (g.enroll args (memberIDFor args random) now).members.lookup id = some m := hm
  rw [members_enroll] at hm
  exact Table.forall_lookup_insert (P := fun j m => Q j m.protocols) hargs
    (fun j m' _ hm' => hg j m' hm') id m hm

end Group

/-- What `Q` says holds for whoever joins. -/
def Op.Brings (Q : Bytes → List Protocol → Prop) : Op → Prop
  | .join args random _ _ => Q (Group.memberIDFor args random) args.protocols
  | _ => True

/-- Nobody joins without a protocol. -/
def Op.Voiced (op : Op) : Prop := op.Brings fun _ ps => ps ≠ []

instance : ∀ op : Op, Decidable op.Voiced
  | .join args _ _ _ => inferInstanceAs (Decidable (args.protocols ≠ []))
  | .sync _ _ _ _ | .wake _ _ | .heartbeat _ _ _ | .leave _ _ | .reap _ _ =>
    inferInstanceAs (Decidable True)

/-! ### Steady runs -/

namespace Room

/-- Who joins supports a protocol, and a leader that joins again without opening a
generation names the same one first. -/
def Steady (r : Room) : Op → Prop
  | .join args random _ _ => args.protocols ≠ [] ∧
      (¬ r.group.opensGeneration args (Group.memberIDFor args random) →
        Group.memberIDFor args random = r.group.leaderID →
        args.protocols.head?.map (·.name) = r.group.leaderProtocol)
  | _ => True

instance (r : Room) : ∀ op, Decidable (r.Steady op)
  | .join _ _ _ _ => inferInstanceAs (Decidable (_ ≠ _ ∧ (¬ _ → _ = _ → _ = _)))
  | .sync _ _ _ _ | .wake _ _ | .heartbeat _ _ _ | .leave _ _ | .reap _ _ =>
    inferInstanceAs (Decidable True)

variable {r : Room}

/-- A join in a round that is under way: only the leader's own join could change what it
names first. -/
theorem leaderProtocol_join (h : r.Ok) {args : JoinArgs} {random : Bytes} {now : ℤ}
    {order : List Bytes} (hop : r.Steady (.join args random now order))
    (hstay : ¬ r.group.opensGeneration args (Group.memberIDFor args random)) :
    (r.group.join args random now order).1.leaderProtocol = r.group.leaderProtocol := by
  obtain ⟨-, -, hsame, -⟩ :=
    Group.change_enroll h.group args (Group.memberIDFor_ne_nil args random) now
  have hleader := (hsame hstay).2.leader
  show ((r.group.enroll args (Group.memberIDFor args random) now).members.lookup
    (r.group.enroll args (Group.memberIDFor args random) now).leaderID).bind _ = _
  rw [hleader, Group.members_enroll]
  by_cases hid : r.group.leaderID = Group.memberIDFor args random
  · rw [← hop.2 hstay hid.symm, hid, AList.lookup_insert]
    rfl
  · rw [AList.lookup_insert_ne hid]
    rfl

/-- What a `Sync` does to the protocols. -/
theorem sameProtocols_sync (r : Room) (memberID : Bytes) (generation : ℤ)
    (assignments : Table Bytes Bytes) (now : ℤ) :
    r.group.SameProtocols (r.sync memberID generation assignments now).group := by
  rw [sync]
  split
  · exact .refl _
  · split
    · exact .refl _
    · split
      · exact (r.group.sameProtocols_assign assignments .stable).trans
          (Group.sameProtocols_touch _ memberID now)
      · split
        · exact r.group.sameProtocols_touch memberID now
        · exact .refl _

theorem sameProtocols_wake (r : Room) (i : ℕ) (now : ℤ) :
    r.group.SameProtocols (r.wake i now).group := by
  rw [wake]
  split
  · exact .refl _
  · split
    · exact .refl _
    · dsimp only
      split
      · exact .refl _
      · exact r.group.sameProtocols_touch _ now

/-- **What holds for those who join holds for the members.** -/
theorem each_step {Q : Bytes → List Protocol → Prop} (hg : r.group.Each Q) {op : Op}
    (hop : op.Brings Q) : (r.step op).group.Each Q := by
  cases op with
  | join args random now order => exact Group.each_join hg hop now order
  | sync memberID generation assignments now =>
    exact (r.sameProtocols_sync memberID generation assignments now).each hg
  | wake i now => exact (r.sameProtocols_wake i now).each hg
  | heartbeat memberID generation now =>
    exact (r.group.sameProtocols_heartbeat memberID generation now).each hg
  | leave memberID order => exact Group.each_leave hg memberID order
  | reap now order => exact Group.each_reap hg now order

theorem Steady.voiced {op : Op} (hop : r.Steady op) : op.Voiced := by
  cases op with
  | join args random now order => exact hop.1
  | _ => trivial

/-- **A steady operation that opens no generation leaves the leader's protocol.** -/
theorem leaderProtocol_step (h : r.Ok) {op : Op} (hop : r.Steady op) (hnot : ¬ r.Opens op) :
    (r.step op).group.leaderProtocol = r.group.leaderProtocol := by
  cases op with
  | join args random now order =>
    refine leaderProtocol_join h hop fun hopens => hnot (opens_of_generation ?_)
    exact (Group.change_enroll h.group args (Group.memberIDFor_ne_nil args random) now).2.2.2 hopens
  | sync memberID generation assignments now =>
    exact (r.sameProtocols_sync memberID generation assignments now).leaderProtocol
  | wake i now => exact (r.sameProtocols_wake i now).leaderProtocol
  | heartbeat memberID generation now =>
    exact (r.group.sameProtocols_heartbeat memberID generation now).leaderProtocol
  | leave memberID order =>
    by_cases hm : r.group.members.lookup memberID = none
    · show (r.group.leave memberID order).1.leaderProtocol = _
      rw [Group.leave, if_pos hm]
    · refine absurd (opens_of_generation ?_) hnot
      show (r.group.leave memberID order).1.generation = _
      rw [Group.leave, if_neg hm]
      exact Group.generation_rebalance _ order
  | reap now order =>
    by_cases hd : r.group.dead now = []
    · show (r.group.reap now order).leaderProtocol = _
      rw [Group.reap, if_pos hd]
    · refine absurd (opens_of_generation ?_) hnot
      show (r.group.reap now order).generation = _
      rw [Group.reap, if_neg hd]
      exact Group.generation_rebalance _ order

end Room

theorem each_new (Q : Bytes → List Protocol → Prop) : Room.new.group.Each Q := by
  intro id m hm
  cases hm

theorem voiced_new : Room.new.group.Voiced := each_new fun _ ps => ps ≠ []

theorem each_run {Q : Bytes → List Protocol → Prop} {ops : List Op}
    (hops : ∀ op ∈ ops, op.Brings Q) : (run Room.step Room.new ops).group.Each Q := by
  have halong : Along Room.step (fun _ op => op.Brings Q) Room.new ops := along_of_forall hops
  exact (halong.always (P := fun r => r.group.Each Q) (each_new Q)
    fun _ _ hg hop => Room.each_step hg hop).final

/-- In a steady run that opens no generation the leader's protocol stays. -/
theorem leaderProtocol_run {r : Room} (h : r.Ok) (hv : r.group.Voiced) {ops : List Op}
    (hsteady : Along Room.step Room.Steady r ops) :
    (run Room.step r ops).group.Voiced ∧ (generations r ops = 0 →
      (run Room.step r ops).group.leaderProtocol = r.group.leaderProtocol) := by
  induction ops generalizing r with
  | nil => exact ⟨hv, fun _ => rfl⟩
  | cons op ops ih =>
    have hv' := Room.each_step (Q := fun _ ps => ps ≠ []) hv hsteady.1.voiced
    obtain ⟨hv'', hrest⟩ := ih (Room.change_step h op).1 hv' hsteady.2
    refine ⟨hv'', fun hzero => ?_⟩
    rw [generations_cons] at hzero
    have hnot : ¬ r.Opens op := by
      intro hopens
      rw [if_pos hopens] at hzero
      omega
    exact (hrest (by omega)).trans (Room.leaderProtocol_step h hsteady.1 hnot)

/-- Two moments of a steady run with the same generation have the same leader's protocol. -/
theorem leaderProtocol_split {early mid : List Op}
    (hfew : generations Room.new (early ++ mid) < 2 ^ 31)
    (h : Along Room.step Room.Steady Room.new (early ++ mid))
    (hgen : (run Room.step Room.new early).group.generation
      = (run Room.step Room.new (early ++ mid)).group.generation) :
    (run Room.step Room.new (early ++ mid)).group.leaderProtocol
      = (run Room.step Room.new early).group.leaderProtocol := by
  obtain ⟨hearly, hmid⟩ := along_append.mp h
  rw [generations_append] at hfew
  have hzero : Room.new.group.generation = 0 := rfl
  obtain ⟨hok, hcount, -⟩ := generation_run Room.ok_new early le_rfl (by omega)
  obtain ⟨-, hcount', -⟩ := generation_run hok mid (by omega) (by omega)
  rw [run_append] at hgen ⊢
  have hvoiced := (leaderProtocol_run Room.ok_new voiced_new hearly).1
  exact (leaderProtocol_run hok hvoiced hmid).2 (by omega)

/-- A join result of a steady run names the leader's first protocol. -/
theorem Returned.leaderProtocol {ops : List Op} {res : JoinResult}
    (hret : Returned (run Room.step Room.new ops).group res)
    (h : Along Room.step Room.Steady Room.new ops) :
    some res.protocolName = (run Room.step Room.new ops).group.leaderProtocol := by
  have htrue : Along Room.step (fun _ _ => True) Room.new ops := h.mono fun _ _ _ => trivial
  have hok : (run Room.step Room.new ops).Ok :=
    (htrue.always Room.ok_new fun r op hr _ => (Room.change_step hr op).1).final
  obtain ⟨order, hname⟩ := hret.protocolName
  rw [hname]
  refine Group.chooseProtocol_eq (leaderProtocol_run Room.ok_new voiced_new h).1 ?_ order
  exact hok.group.leader fun hempty => hret.member (hok.group.empty_iff.mpr hempty _)

/-- **All join results of a generation name the same protocol and the same leader**, in a
run in which nobody joins without a protocol, and a leader that joins again without
opening a generation names the same protocol first. -/
theorem same_protocol (ops : List Op) (hfew : generations Room.new ops < 2 ^ 31)
    (h : Along Room.step Room.Steady Room.new ops) :
    ∀ res res', .joined res ∈ (run Room.step Room.new ops).history →
      .joined res' ∈ (run Room.step Room.new ops).history →
      res.generationID = res'.generationID →
        res.protocolName = res'.protocolName ∧ res.leaderID = res'.leaderID := by
  intro res res' hres hres' hgen
  obtain ⟨early, late, heq, hret⟩ := exists_returned hres
  obtain ⟨early', late', heq', hret'⟩ := exists_returned hres'
  have hgroups : (run Room.step Room.new early).group.generation
      = (run Room.step Room.new early').group.generation := by
    rw [← hret.generation, ← hret'.generation, hgen]
  have hsame := sameMembers_of_generation hfew heq heq' hgroups
  refine ⟨?_, by rw [hret.leader, hret'.leader, hsame.leader]⟩
  have hearly : Along Room.step Room.Steady Room.new early := (along_append.mp (heq ▸ h)).1
  have hearly' : Along Room.step Room.Steady Room.new early' := (along_append.mp (heq' ▸ h)).1
  have hprotocol : (run Room.step Room.new early).group.leaderProtocol
      = (run Room.step Room.new early').group.leaderProtocol := by
    rcases List.append_eq_append_iff.mp (heq.symm.trans heq') with ⟨mid, hmid, -⟩ | ⟨mid, hmid, -⟩
    · subst hmid
      refine (leaderProtocol_split ?_ hearly' hgroups).symm
      rw [heq', generations_append] at hfew
      omega
    · subst hmid
      refine leaderProtocol_split ?_ hearly hgroups.symm
      rw [heq, generations_append] at hfew
      omega
  apply Option.some.inj
  rw [hret.leaderProtocol hearly, hret'.leaderProtocol hearly', hprotocol]

/-- The leader joins twice with the same list, and a second member between. -/
def steadyOps : List Op :=
  [.join ⟨[], [99], [⟨[114], []⟩], 1000⟩ [49] 0 [],
    .join ⟨[], [99], [⟨[115], []⟩], 1000⟩ [50] 1 [],
    .join ⟨[99, 45, 49], [99], [⟨[114], []⟩, ⟨[115], []⟩], 1000⟩ [] 2 []]

/-- The join results of a run, the latest first. -/
def Room.joinResults (r : Room) : List JoinResult :=
  r.history.filterMap fun e => match e with
    | .joined res => some res
    | _ => none

theorem Room.joined_mem_history {r : Room} {res : JoinResult} (h : res ∈ r.joinResults) :
    .joined res ∈ r.history := by
  obtain ⟨e, he, heq⟩ := List.mem_filterMap.mp h
  cases e with
  | joined res' => cases heq; exact he
  | assigned | synced => cases heq

/-- What the second member is told. -/
def steadyFollower : JoinResult := ⟨.none, 2, [114], [99, 45, 49], [99, 45, 50], []⟩

/-- What the leader is told when it joins again. -/
def steadyLeader : JoinResult :=
  ⟨.none, 2, [114], [99, 45, 49], [99, 45, 49], [⟨[99, 45, 49], []⟩, ⟨[99, 45, 50], []⟩]⟩

theorem same_protocol_steady :
    .joined steadyFollower ∈ (run Room.step Room.new steadyOps).history ∧
      .joined steadyLeader ∈ (run Room.step Room.new steadyOps).history ∧
      steadyFollower.protocolName = steadyLeader.protocolName ∧
      steadyFollower.leaderID = steadyLeader.leaderID := by
  have hfollower := Room.joined_mem_history
    (show steadyFollower ∈ (run Room.step Room.new steadyOps).joinResults by decide +kernel)
  have hleader := Room.joined_mem_history
    (show steadyLeader ∈ (run Room.step Room.new steadyOps).joinResults by decide +kernel)
  exact ⟨hfollower, hleader, same_protocol steadyOps (by decide +kernel) (by decide +kernel)
    steadyFollower steadyLeader hfollower hleader rfl⟩

/-- The leader joins again with another list before it has assigned anything. -/
theorem rejoin_changes_protocol :
    ((run Room.step Room.new
      [.join ⟨[], [99], [⟨[114], []⟩], 1000⟩ [49] 0 [],
        .join ⟨[99, 45, 49], [99], [⟨[115], []⟩], 1000⟩ [] 1 []]).joinResults.map
          fun res => (res.generationID, res.protocolName)) = [(1, [115]), (1, [114])] := by
  decide +kernel

end Consumer
end Mq
