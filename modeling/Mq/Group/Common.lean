import Mq.Group.Protocol

/-!
# A protocol for every member

`chooseProtocol` is to pick a protocol that is common to the group.  It takes the first one of
the leader's list and does not look at the other lists.  A member that does not support it is
still echoed to the leader, with the metadata of another protocol.

## Main definitions

* `Group.Common` — a protocol that every member supports.
* `Group.Echoes` — every member is echoed with its metadata for the protocol of the result.

## Main results

* `Group.echoes_joinResult` — a common protocol is enough for `metadataFor` not to fall back.
* `common_protocol_iff` — **when a join that could return a common protocol does**.
* `mixed_lists_miss_common` — two members that share a protocol, and are told of another.
-/

namespace Mq
namespace Consumer

open Word Transition

namespace Group

/-- Every member supports the protocol. -/
def Common (g : Group) (name : Bytes) : Prop :=
  ∀ id m, g.members.lookup id = some m → ∃ p ∈ m.protocols, p.name = name

instance (g : Group) (name : Bytes) : Decidable (g.Common name) :=
  decidable_of_iff (∀ e ∈ g.members.entries, ∃ p ∈ e.2.protocols, p.name = name)
    ⟨fun h id m hm => h ⟨id, m⟩ (AList.mem_lookup_iff.mp hm),
      fun h e he => h e.1 e.2 (AList.mem_lookup_iff.mpr he)⟩

/-- The members that a result tells of are there, each with its metadata for the protocol
of the result and not for another one. -/
def Echoes (g : Group) (res : JoinResult) : Prop :=
  ∀ e ∈ res.members, ∃ m ∈ g.members.lookup e.id,
    ∃ p ∈ m.protocols.find? (fun p => p.name = res.protocolName), e.metadata = p.metadata

variable {g : Group}

/-- A protocol that the member supports is found. -/
theorem find_protocol {ps : List Protocol} {name : Bytes} (h : ∃ p ∈ ps, p.name = name) :
    ∃ p, ps.find? (fun p => p.name = name) = some p := by
  obtain ⟨p, hp, hname⟩ := h
  exact Option.isSome_iff_exists.mp (List.find?_isSome.mpr ⟨p, hp, by simp [hname]⟩)

/-- **With a common protocol the leader gets everyone's metadata for it.** -/
theorem echoes_joinResult (h : g.Common g.protocolName) (id : Bytes) (order : List Bytes) :
    g.Echoes (g.joinResult id order) := by
  intro e he
  obtain ⟨m, hm, hmeta⟩ := exists_of_mem_joinResult he
  obtain ⟨p, hp⟩ := find_protocol (h e.id m hm)
  refine ⟨m, hm, p, hp, ?_⟩
  rw [hmeta, GroupMember.metadataFor, hp]

/-- A join returns the first protocol of the leader that the group then has. -/
theorem protocolName_join (hok : g.Ok) (hv : g.Voiced) {args : JoinArgs}
    (hargs : args.protocols ≠ []) (random : Bytes) (now : ℤ) (order : List Bytes) :
    some (g.join args random now order).2.protocolName
      = (g.join args random now order).1.leaderProtocol := by
  obtain ⟨hok', hstate, -⟩ := change_join hok args random now order
  have hleader := hok'.leader (by simp [hstate])
  exact chooseProtocol_eq (each_join (Q := fun _ ps => ps ≠ []) hv hargs now order) hleader order

end Group

/-- **When the protocol of a join is common.**  After any operations in which nobody joins
without a protocol: a join that leaves the members with a protocol in common returns such a
one, and the leader gets everyone's metadata for it, exactly if the first protocol of the
leader is one that they all support. -/
theorem common_protocol_iff (ops : List Op) (hops : ∀ op ∈ ops, op.Voiced) (args : JoinArgs)
    (hargs : args.protocols ≠ []) (random : Bytes) (now : ℤ) (order : List Bytes) (g : Group)
    (res : JoinResult)
    (hjoin : (run Room.step Room.new ops).group.join args random now order = (g, res)) :
    ((∃ name, g.Common name) → g.Common res.protocolName ∧ g.Echoes res) ↔
      ((∃ name, g.Common name) → ∃ name ∈ g.leaderProtocol, g.Common name) := by
  have hok : (run Room.step Room.new ops).Ok :=
    ((along_of_forall (D := fun _ => True) fun _ _ => trivial).always Room.ok_new
      fun r op hr _ => (Room.change_step hr op).1).final
  have hname := Group.protocolName_join hok.group (each_run hops) hargs random now order
  rw [hjoin] at hname
  have hres : res = g.joinResult (Group.memberIDFor args random) order := by
    rw [Group.join] at hjoin
    obtain ⟨rfl, rfl⟩ := Prod.mk.inj hjoin
    rfl
  constructor
  · intro h hsome
    exact ⟨res.protocolName, hname.symm, (h hsome).1⟩
  · intro h hsome
    obtain ⟨name, hlead, hcommon⟩ := h hsome
    obtain rfl := Option.some.inj (hname.trans hlead)
    refine ⟨hcommon, ?_⟩
    rw [hres] at hcommon ⊢
    exact Group.echoes_joinResult hcommon _ order

/-- A leader that supports `r` and `s`. -/
def firstJoin : Op := .join ⟨[], [99], [⟨[114], [1]⟩, ⟨[115], [2]⟩], 1000⟩ [49] 0 []

/-- A member joins with the same list, and both protocols will do. -/
theorem common_protocol_same_list :
    let args : JoinArgs := ⟨[], [99], [⟨[114], [3]⟩, ⟨[115], [4]⟩], 1000⟩
    let joined := (run Room.step Room.new [firstJoin]).group.join args [50] 1 []
    joined.1.Common [115] ∧ joined.2.protocolName = [114] ∧ joined.1.Common [114] := by
  intro args joined
  have hcommon : joined.1.Common [115] := by decide +kernel
  have hfirst : ∃ name ∈ joined.1.leaderProtocol, joined.1.Common name := by
    refine ⟨[114], ?_, ?_⟩ <;> decide +kernel
  have hname : joined.2.protocolName = [114] := by decide +kernel
  have h := (common_protocol_iff [firstJoin] (by decide) args (by decide) [50] 1 [] joined.1
    joined.2 rfl).mpr (fun _ => hfirst) ⟨[115], hcommon⟩
  exact ⟨hcommon, hname, hname ▸ h.1⟩

/-- A member that supports only `s` joins, and the leader joins again. -/
def mixedOps : List Op :=
  [firstJoin, .join ⟨[], [99], [⟨[115], [4]⟩], 1000⟩ [50] 1 [],
    .join ⟨[99, 45, 49], [99], [⟨[114], [1]⟩, ⟨[115], [2]⟩], 1000⟩ [] 2 []]

/-- **Two members share a protocol and are told of another.**  Both support `s` and both are
told `r`.  The leader takes the follower's metadata for `s` as metadata for `r`. -/
theorem mixed_lists_miss_common :
    (run Room.step Room.new mixedOps).group.Common [115] ∧
    ¬ (run Room.step Room.new mixedOps).group.Common [114] ∧
    (run Room.step Room.new mixedOps).joinResults.map (fun res => (res.protocolName, res.members))
      = [([114], [⟨[99, 45, 49], [1]⟩, ⟨[99, 45, 50], [4]⟩]), ([114], []),
        ([114], [⟨[99, 45, 49], [1]⟩])] := by
  decide +kernel

end Consumer
end Mq
