import Mathlib.Data.List.Rotate
import Mathlib.Data.List.Sort
import Mq.Lib.Decimal
import Mq.Lib.Strip

/-!
# The member list and what is computed from it

`internal/cluster/cluster.go`: every broker is started with a list of the members, and computes
from it which of them leads a partition, which hold its replicas and which coordinates a group.
Nothing is exchanged, so that the brokers agree has to follow from what they were started with.

A spec is a list of entries `id@host:port` between commas, with white space around any of them.
The hash is a parameter.  Functions that can panic return an `Option`.

## Main definitions

* `parse` — a broker reads the spec it was given.
* `Cluster.leaderFor`, `Cluster.replicasFor`, `Cluster.groupCoordinator` — the placement.
* `Agreed` — the brokers have one placement between them.

## Main results

* `parse_eq` — **what a broker makes of a spec**, whatever the order of its entries.
* `Cluster.replicasFor_eq` — the replicas are the members from the leader on, around the ring.
* `placement_agreed` — **brokers that were given the same members agree**.
* `memberList_render` — every member list can be written down.
-/

namespace Mq
namespace Members

open Word

/-! ### Reading the spec -/

/-- The white space of `unicode.IsSpace`, encoded. -/
def spaces : List Bytes :=
  [[9], [10], [11], [12], [13], [32], [0xC2, 0x85], [0xC2, 0xA0], [0xE1, 0x9A, 0x80],
    [0xE2, 0x80, 0x80], [0xE2, 0x80, 0x81], [0xE2, 0x80, 0x82], [0xE2, 0x80, 0x83],
    [0xE2, 0x80, 0x84], [0xE2, 0x80, 0x85], [0xE2, 0x80, 0x86], [0xE2, 0x80, 0x87],
    [0xE2, 0x80, 0x88], [0xE2, 0x80, 0x89], [0xE2, 0x80, 0x8A], [0xE2, 0x80, 0xA8],
    [0xE2, 0x80, 0xA9], [0xE2, 0x80, 0xAF], [0xE2, 0x81, 0x9F], [0xE3, 0x80, 0x80]]

def trimSpace (s : Bytes) : Bytes := Strip.strip spaces s

/-- Cut a string at the first occurrence of a byte. -/
def cutFirst (c : UInt8) : Bytes → Option (Bytes × Bytes)
  | [] => none
  | x :: xs => if x = c then some ([], xs) else (cutFirst c xs).map fun ab => (x :: ab.1, ab.2)

structure BrokerInfo where
  nodeID : ℤ
  host : Bytes
  port : ℤ
  deriving DecidableEq, Repr

/-- Why a spec is refused. -/
inductive ParseError
  /-- `cluster: bad broker spec %q (want id@host:port)` -/
  | badSpec (part : Bytes)
  /-- `cluster: bad node id in %q: %w` -/
  | badNodeID (part : Bytes)
  /-- `cluster: missing port in %q` -/
  | missingPort (part : Bytes)
  /-- `cluster: bad port in %q: %w` -/
  | badPort (part : Bytes)
  /-- `cluster: no brokers parsed from %q` -/
  | noBrokers (spec : Bytes)
  /-- `cluster: self node id %d not present in member list` -/
  | selfMissing (nodeID : ℤ)
  deriving DecidableEq, Repr

/-- One entry.  The host may contain colons, and the numbers are narrowed to 32 bits. -/
def parsePart (part : Bytes) : Except ParseError BrokerInfo :=
  match cutFirst 64 part with
  | none => .error (.badSpec part)
  | some (idText, hostPort) =>
    match atoi idText with
    | none => .error (.badNodeID part)
    | some id =>
      match cutLast 58 hostPort with
      | none => .error (.missingPort part)
      | some (host, portText) =>
        match atoi portText with
        | none => .error (.badPort part)
        | some port => .ok ⟨wrap32 id, host, wrap32 port⟩

/-- The entries one after the other.  Empty ones are skipped. -/
def parseParts : List Bytes → Except ParseError (List BrokerInfo)
  | [] => .ok []
  | part :: parts =>
    if trimSpace part = [] then parseParts parts
    else
      match parsePart (trimSpace part) with
      | .error e => .error e
      | .ok b =>
        match parseParts parts with
        | .error e => .error e
        | .ok bs => .ok (b :: bs)

/-- The membership as one broker sees it. -/
structure Cluster where
  self : ℤ
  /-- In the order of the node ids. -/
  brokers : List BrokerInfo
  deriving DecidableEq, Repr

/-- A cluster of one node. -/
def single (nodeID : ℤ) (host : Bytes) (port : ℤ) : Cluster := ⟨nodeID, [⟨nodeID, host, port⟩]⟩

/-- The member with a node id. -/
def Cluster.broker (c : Cluster) (id : ℤ) : Option BrokerInfo :=
  c.brokers.find? fun b => b.nodeID = id

/-- Members with the same id would come in any order. -/
def sortBrokers (bs : List BrokerInfo) : List BrokerInfo :=
  bs.insertionSort fun a b => a.nodeID ≤ b.nodeID

def parse (nodeID : ℤ) (spec selfHost : Bytes) (selfPort : ℤ) : Except ParseError Cluster :=
  let spec := trimSpace spec
  if spec = [] then .ok (single nodeID selfHost selfPort)
  else
    match parseParts (spec.splitOn 44) with
    | .error e => .error e
    | .ok brokers =>
      if brokers = [] then .error (.noBrokers spec)
      else
        let c : Cluster := ⟨nodeID, sortBrokers brokers⟩
        if c.broker nodeID = none then .error (.selfMissing nodeID) else .ok c

/-! ### Placement -/

/-- 32-bit FNV-1a. -/
def hash32 (s : Bytes) : UInt32 :=
  s.foldl (fun h x => (h ^^^ x.toUInt32) * 16777619) 2166136261

namespace Cluster

variable (hash : Bytes → UInt32)

/-- The id of the member at a position of the ring.  The position and the number of members
are reduced to 32 bits, and a number that is then zero makes the division panic. -/
def slot (c : Cluster) (i : ℕ) : Option ℤ :=
  let n := c.brokers.length % 2 ^ 32
  if n = 0 then none else c.brokers[i % 2 ^ 32 % n]?.map (·.nodeID)

/-- The sum of the hash and of the partition, before it is reduced. -/
def position (topic : Bytes) (p : ℤ) : ℕ := (hash topic).toNat + (p % 2 ^ 32).toNat

def leaderFor (c : Cluster) (topic : Bytes) (p : ℤ) : Option ℤ := c.slot (position hash topic p)

def isLeader (c : Cluster) (topic : Bytes) (p : ℤ) : Option Bool :=
  (c.leaderFor hash topic p).map (· == c.self)

/-- The replicas.  The number of members is narrowed to 32 bits with a sign, and a slice of a
negative length cannot be made. -/
def replicasFor (c : Cluster) (topic : Bytes) (p rf : ℤ) : Option (List ℤ) :=
  let n := wrap32 c.brokers.length
  let rf := if rf < 1 then 1 else rf
  let rf := if n < rf then n else rf
  let m := (n % 2 ^ 32).toNat
  if m = 0 then none
  else
    let start := position hash topic p % 2 ^ 32 % m
    if rf < 0 then none else (List.range rf.toNat).mapM fun i => c.slot (start + i)

def groupCoordinator (c : Cluster) (groupID : Bytes) : Option ℤ := c.slot (hash groupID).toNat

def isCoordinator (c : Cluster) (groupID : Bytes) : Option Bool :=
  (c.groupCoordinator hash groupID).map (· == c.self)

end Cluster

/-! ### White space -/

theorem marks_spaces : Strip.Marks spaces := by
  -- `all` looks at the one byte, where a bounded quantifier would be run over all bytes
  have hfirst : ∀ v ∈ spaces, ∀ w ∈ spaces, (w.head?.all fun a => a ∉ v.tail) = true := by
    decide +kernel
  refine ⟨⟨by decide +kernel, by decide +kernel⟩, ⟨by decide +kernel, by decide +kernel⟩, ?_⟩
  intro v hv w hw a ha
  simpa using (Option.all_eq_true _ _).mp (hfirst v hv w hw) a ha

theorem comma_notMem_spaces : ∀ w ∈ spaces, (44 : UInt8) ∉ w := by decide +kernel

/-- Only the trimmed entries count. -/
theorem parseParts_congr {ps qs : List Bytes} (h : ps.map trimSpace = qs.map trimSpace) :
    parseParts ps = parseParts qs := by
  induction ps generalizing qs with
  | nil =>
    obtain rfl : qs = [] := by simpa using h.symm
    rfl
  | cons p ps ih =>
    cases qs with
    | nil => cases h
    | cons q qs =>
      obtain ⟨hhead, htail⟩ := List.cons.inj h
      rw [parseParts, parseParts, hhead, ih htail]

/-- The spec may be trimmed as a whole. -/
theorem parseParts_trimSpace (spec : Bytes) :
    parseParts ((trimSpace spec).splitOn 44) = parseParts (spec.splitOn 44) :=
  parseParts_congr (Strip.map_strip_splitOn marks_spaces comma_notMem_spaces spec)

/-- The members that a spec lists. -/
def memberList (spec : Bytes) : Except ParseError (List BrokerInfo) := parseParts (spec.splitOn 44)

/-- A blank spec lists no members. -/
theorem memberList_blank {spec : Bytes} (h : trimSpace spec = []) : memberList spec = .ok [] := by
  rw [memberList, ← parseParts_trimSpace, h]
  decide +kernel

/-- The entries that count, without the white space around them. -/
def entries (parts : List Bytes) : List Bytes := (parts.map trimSpace).filter (· ≠ [])

variable {bs : List BrokerInfo}

/-- A spec is read if every one of its entries is, and the members are those of the entries. -/
theorem parseParts_eq_ok_iff {ps : List Bytes} :
    parseParts ps = .ok bs ↔ (∀ t ∈ entries ps, ∃ b, parsePart t = .ok b) ∧
      bs = (entries ps).filterMap fun t => (parsePart t).toOption := by
  induction ps generalizing bs with
  | nil =>
    rw [parseParts, Except.ok.injEq]
    exact ⟨fun h => ⟨by simp [entries], h.symm⟩, fun h => h.2.symm⟩
  | cons p ps ih =>
    rw [parseParts]
    by_cases hblank : trimSpace p = []
    · have hskip : entries (p :: ps) = entries ps := by simp [entries, hblank]
      rw [if_pos hblank, hskip, ih]
    · have hcons : entries (p :: ps) = trimSpace p :: entries ps := by simp [entries, hblank]
      rw [if_neg hblank, hcons, List.forall_mem_cons, List.filterMap_cons]
      cases hpart : parsePart (trimSpace p) with
      | error e => simp
      | ok b =>
        cases hps : parseParts ps with
        | error e =>
          have hnot : ¬ ∀ t ∈ entries ps, ∃ b, parsePart t = .ok b := by
            intro hall
            rw [ih.mpr ⟨hall, rfl⟩] at hps
            cases hps
          simp [hnot]
        | ok bs' =>
          obtain ⟨hall, rfl⟩ := ih.mp hps
          simp only [Except.ok.injEq, exists_eq', true_and, Except.toOption]
          exact ⟨fun h => ⟨fun t ht => hall t ht, h.symm⟩, fun h => h.2.symm⟩

/-- **Entries in another order** are read as the same members, in another order. -/
theorem parseParts_perm {ps qs : List Bytes} (h : (entries ps).Perm (entries qs))
    (hbs : parseParts ps = .ok bs) : ∃ bs', parseParts qs = .ok bs' ∧ bs'.Perm bs := by
  obtain ⟨hall, rfl⟩ := parseParts_eq_ok_iff.mp hbs
  exact ⟨_, parseParts_eq_ok_iff.mpr ⟨fun t ht => hall t (h.mem_iff.mpr ht), rfl⟩,
    (h.filterMap _).symm⟩

/-! ### What a broker makes of a spec -/

theorem mem_ids_sortBrokers {id : ℤ} :
    id ∈ (sortBrokers bs).map (·.nodeID) ↔ id ∈ bs.map (·.nodeID) :=
  ((List.perm_insertionSort _ bs).map _).mem_iff

theorem Cluster.broker_eq_none_iff {c : Cluster} {id : ℤ} :
    c.broker id = none ↔ id ∉ c.brokers.map (·.nodeID) := by
  simp [broker]

/-- Members with different ids come in one order only. -/
theorem sortBrokers_eq_of_perm {bs' : List BrokerInfo} (h : bs'.Perm bs)
    (hdistinct : (bs.map (·.nodeID)).Nodup) : sortBrokers bs' = sortBrokers bs := by
  have hsorted : ∀ cs : List BrokerInfo, (cs.map (·.nodeID)).Nodup →
      (sortBrokers cs).Pairwise fun a b => a.nodeID < b.nodeID := by
    intro cs hcs
    have hle : (sortBrokers cs).Pairwise fun a b => a.nodeID ≤ b.nodeID := by
      have : Std.Total fun a b : BrokerInfo => a.nodeID ≤ b.nodeID := ⟨fun a b => le_total _ _⟩
      have : IsTrans BrokerInfo fun a b => a.nodeID ≤ b.nodeID := ⟨fun _ _ _ => le_trans⟩
      exact List.pairwise_insertionSort _ cs
    have hne : (sortBrokers cs).Pairwise fun a b => a.nodeID ≠ b.nodeID :=
      List.pairwise_map.mp (((List.perm_insertionSort _ cs).map _).nodup_iff.mpr hcs)
    exact hle.imp₂ (fun _ _ hle hne => lt_of_le_of_ne hle hne) hne
  have : Std.Antisymm fun a b : BrokerInfo => a.nodeID < b.nodeID :=
    ⟨fun a b hab hba => absurd hab hba.asymm⟩
  have hperm : (sortBrokers bs').Perm (sortBrokers bs) :=
    (List.perm_insertionSort _ bs').trans (h.trans (List.perm_insertionSort _ bs).symm)
  exact List.Perm.eq_of_pairwise' (hsorted bs' ((h.map _).nodup_iff.mpr hdistinct))
    (hsorted bs hdistinct) hperm

/-- **A broker that is given the members in any order** accepts them exactly if it is one of
them, and has them in the order of their ids. -/
theorem parse_eq {spec spec' : Bytes} {members : List BrokerInfo}
    (hmembers : memberList spec = .ok members) (hne : members ≠ [])
    (hdistinct : (members.map (·.nodeID)).Nodup)
    (hperm : (entries (spec'.splitOn 44)).Perm (entries (spec.splitOn 44))) (id : ℤ) (host : Bytes)
    (port : ℤ) :
    parse id spec' host port =
      if id ∈ members.map (·.nodeID) then .ok ⟨id, sortBrokers members⟩
      else .error (.selfMissing id) := by
  obtain ⟨members', hmembers', hperm'⟩ := parseParts_perm hperm.symm hmembers
  have hne' : members' ≠ [] := fun h => hne (by simpa [h] using hperm'.symm)
  have hspec : trimSpace spec' ≠ [] := by
    intro hblank
    have hnil := (memberList_blank hblank).symm.trans hmembers'
    exact hne' (Except.ok.inj hnil).symm
  rw [parse]
  dsimp only
  rw [if_neg hspec, parseParts_trimSpace, hmembers']
  dsimp only
  rw [if_neg hne', sortBrokers_eq_of_perm hperm' hdistinct]
  have hself : Cluster.broker ⟨id, sortBrokers members⟩ id = none ↔ id ∉ members.map (·.nodeID) :=
    Cluster.broker_eq_none_iff.trans (not_congr mem_ids_sortBrokers)
  by_cases hid : id ∈ members.map (·.nodeID)
  · rw [if_pos hid, if_neg fun h => hself.mp h hid]
  · rw [if_neg hid, if_pos (hself.mpr hid)]

theorem parse_eq_ok_iff {spec spec' : Bytes} {members : List BrokerInfo}
    (hmembers : memberList spec = .ok members) (hne : members ≠ [])
    (hdistinct : (members.map (·.nodeID)).Nodup)
    (hperm : (entries (spec'.splitOn 44)).Perm (entries (spec.splitOn 44))) {id : ℤ} {host : Bytes}
    {port : ℤ} {c : Cluster} :
    parse id spec' host port = .ok c ↔
      id ∈ members.map (·.nodeID) ∧ c = ⟨id, sortBrokers members⟩ := by
  rw [parse_eq hmembers hne hdistinct hperm]
  split
  · next hid => simp [hid, eq_comm]
  · next hid => simp [hid]

/-! ### The ring -/

namespace Cluster

/-- The node ids, in order. -/
def ids (c : Cluster) : List ℤ := c.brokers.map (·.nodeID)

variable {c : Cluster}

theorem length_ids (c : Cluster) : c.ids.length = c.brokers.length := List.length_map _

/-- A position of the ring has a member. -/
theorem slot_eq (hpos : 0 < c.brokers.length) (hfew : c.brokers.length < 2 ^ 31) (i : ℕ) :
    c.slot i = c.ids[i % 2 ^ 32 % c.brokers.length]? := by
  have hn : c.brokers.length % 2 ^ 32 = c.brokers.length := Nat.mod_eq_of_lt (by omega)
  simp only [slot, hn, if_neg (show ¬ c.brokers.length = 0 by omega), ids, List.getElem?_map]

/-- The ids from a position on, around the ring. -/
def ring (c : Cluster) (i : ℕ) : List ℤ := c.ids.rotate (i % 2 ^ 32 % c.brokers.length)

theorem length_ring (c : Cluster) (i : ℕ) : (c.ring i).length = c.brokers.length := by
  rw [ring, List.length_rotate, length_ids]

theorem ring_perm (c : Cluster) (i : ℕ) : (c.ring i).Perm c.ids := List.rotate_perm _ _

/-- A ring has the members, from one of them on. -/
theorem ring_sortBrokers (self : ℤ) (members : List BrokerInfo) (i : ℕ) :
    (ring ⟨self, sortBrokers members⟩ i).Perm (members.map (·.nodeID)) :=
  (ring_perm _ i).trans ((List.perm_insertionSort _ members).map _)

theorem exists_head_ring (self : ℤ) {members : List BrokerInfo} (hne : members ≠ []) (i : ℕ) :
    ∃ id ∈ members.map (·.nodeID), (ring ⟨self, sortBrokers members⟩ i).head? = some id := by
  have hring := ring_sortBrokers self members i
  cases hcons : ring ⟨self, sortBrokers members⟩ i with
  | nil =>
    rw [hcons] at hring
    simp [hne] at hring
  | cons id ids => exact ⟨id, hring.mem_iff.mp (by simp [hcons]), rfl⟩

theorem slot_eq_head_ring (hpos : 0 < c.brokers.length) (hfew : c.brokers.length < 2 ^ 31) (i : ℕ) :
    c.slot i = (c.ring i).head? := by
  rw [slot_eq hpos hfew, ring, List.head?_rotate]
  rw [length_ids]
  exact Nat.mod_lt _ hpos

theorem mapM_eq_some_map {α β : Type} {f : α → Option β} {g : α → β} :
    ∀ {xs : List α}, (∀ x ∈ xs, f x = some (g x)) → xs.mapM f = some (xs.map g)
  | [], _ => rfl
  | x :: xs, h => by
    rw [List.mapM_cons, h x (by simp), mapM_eq_some_map fun y hy => h y (by simp [hy])]
    rfl

/-- **The replicas are the first ids of the ring**, as many as are asked for and there are. -/
theorem replicasFor_eq (hash : Bytes → UInt32) (hpos : 0 < c.brokers.length)
    (hfew : c.brokers.length < 2 ^ 31) (topic : Bytes) (p rf : ℤ) :
    c.replicasFor hash topic p rf =
      some ((c.ring (position hash topic p)).take (min (max rf 1) c.brokers.length).toNat) := by
  have hn : wrap32 c.brokers.length = c.brokers.length := wrap32_eq (by omega) (by omega)
  have hm : ((c.brokers.length : ℤ) % 2 ^ 32).toNat = c.brokers.length := by omega
  have hclamp : (if (c.brokers.length : ℤ) < (if rf < 1 then 1 else rf) then
      (c.brokers.length : ℤ) else (if rf < 1 then 1 else rf))
        = min (max rf 1) c.brokers.length := by
    split_ifs <;> omega
  simp only [replicasFor, hn, hm, hclamp]
  rw [if_neg (by omega), if_neg (by omega)]
  generalize hk : (min (max rf 1) (c.brokers.length : ℤ)).toNat = k
  have hkn : k ≤ c.brokers.length := by omega
  generalize position hash topic p = i
  have hstart := Nat.mod_lt (i % 2 ^ 32) hpos
  have hslot : ∀ j ∈ List.range k, c.slot (i % 2 ^ 32 % c.brokers.length + j)
      = some ((c.ring i)[j]?.getD 0) := by
    intro j hj
    have hj := List.mem_range.mp hj
    -- below `2 ^ 31` members the sum does not wrap around
    have hsum : (i % 2 ^ 32 % c.brokers.length + j) % 2 ^ 32
        = i % 2 ^ 32 % c.brokers.length + j := Nat.mod_eq_of_lt (by omega)
    rw [slot_eq hpos hfew, hsum, ring, List.getElem?_rotate (by rw [length_ids]; omega), length_ids,
      Nat.add_comm j]
    have hlt := Nat.mod_lt (i % 2 ^ 32 % c.brokers.length + j) hpos
    rw [← length_ids] at hlt
    simp only [length_ids] at hlt ⊢
    rw [List.getElem?_eq_getElem (by rw [length_ids]; exact hlt), Option.getD_some]
  rw [mapM_eq_some_map hslot]
  congr 1
  have hlen : ((List.range k).map fun j => (c.ring i)[j]?.getD 0).length
      = ((c.ring i).take k).length := by
    rw [List.length_map, List.length_range, List.length_take, length_ring]
    omega
  refine List.ext_getElem hlen fun j h₁ h₂ => ?_
  rw [List.length_take] at h₂
  simp [List.getElem?_eq_getElem (show j < (c.ring i).length by omega)]

/-- With `2 ^ 31` members or more the number of members is negative for `ReplicasFor`. -/
theorem replicasFor_eq_none (hash : Bytes → UInt32) (hmany : 2 ^ 31 ≤ c.brokers.length)
    (hlt : c.brokers.length < 2 ^ 32) (topic : Bytes) (p rf : ℤ) :
    c.replicasFor hash topic p rf = none := by
  have hneg : wrap32 c.brokers.length < 0 := by unfold wrap32; omega
  simp only [replicasFor]
  have hclamp : (if wrap32 c.brokers.length < (if rf < 1 then 1 else rf) then
      wrap32 c.brokers.length else (if rf < 1 then 1 else rf)) < 0 := by
    split_ifs <;> omega
  rw [if_pos hclamp, ite_self]

end Cluster

/-! ### Agreement -/

/-- The brokers have one placement of a partition and of a group between them.  A view is what
the broker with an id has made of the spec that it was given. -/
structure Agreed (hash : Bytes → UInt32) (view : ℤ → Except ParseError Cluster) (ids : List ℤ)
    (topic group : Bytes) (p : ℤ) : Prop where
  /-- The brokers that start are the members. -/
  starts : ∀ id, (∃ c, view id = .ok c) ↔ id ∈ ids
  /-- They compute the same, and the replicas are as they should be. -/
  same : ∃ leader ∈ ids, ∃ coordinator ∈ ids, ∃ replicas : ℤ → List ℤ,
    (∀ id c, view id = .ok c → c.leaderFor hash topic p = some leader ∧
      c.groupCoordinator hash group = some coordinator ∧
      ∀ rf, c.replicasFor hash topic p rf = some (replicas rf)) ∧
    (∀ rf, ((replicas rf).length : ℤ) = min (max rf 1) ids.length ∧ (replicas rf).Nodup ∧
      (∀ id ∈ replicas rf, id ∈ ids) ∧ (replicas rf).head? = some leader) ∧
    ∀ rf rf', rf ≤ rf' → replicas rf <+: replicas rf'
  /-- One of them leads the partition. -/
  oneLeader : ∃! id, ∃ c, view id = .ok c ∧ c.isLeader hash topic p = some true
  /-- One of them coordinates the group. -/
  oneCoordinator : ∃! id, ∃ c, view id = .ok c ∧ c.isCoordinator hash group = some true

/-- The first ids of a ring, as many as are asked for and there are. -/
theorem replicas_of_ring {ring ids : List ℤ} (hring : ring.Perm ids) (hdistinct : ids.Nodup)
    {leader : ℤ} (hleader : ring.head? = some leader) (rf : ℤ) {replicas : List ℤ}
    (hreplicas : replicas = ring.take (min (max rf 1) ids.length).toNat) :
    (replicas.length : ℤ) = min (max rf 1) ids.length ∧ replicas.Nodup ∧
      (∀ id ∈ replicas, id ∈ ids) ∧ replicas.head? = some leader := by
  subst hreplicas
  have hpos : 0 < ring.length := List.length_pos_of_mem (List.mem_of_head? hleader)
  have hlen := hring.length_eq
  refine ⟨?_, (hring.nodup_iff.mpr hdistinct).sublist (List.take_sublist _ _),
    fun id hid => hring.mem_iff.mp (List.mem_of_mem_take hid), ?_⟩
  · rw [List.length_take]
    omega
  · rw [List.head?_take, if_neg (by omega), hleader]

/-- One broker says that it is the one, if all name the same one. -/
theorem existsUnique_self {view : ℤ → Except ParseError Cluster} {ids : List ℤ}
    (hstarts : ∀ id, (∃ c, view id = .ok c) ↔ id ∈ ids)
    (hself : ∀ id c, view id = .ok c → c.self = id) {pick : Cluster → Option ℤ} {chosen : ℤ}
    (hmem : chosen ∈ ids) (hpick : ∀ id c, view id = .ok c → pick c = some chosen) :
    ∃! id, ∃ c, view id = .ok c ∧ (pick c).map (· == c.self) = some true := by
  obtain ⟨c, hc⟩ := (hstarts chosen).mpr hmem
  refine ⟨chosen, ⟨c, hc, by simp [hpick chosen c hc, hself chosen c hc]⟩, ?_⟩
  rintro id ⟨c', hc', hyes⟩
  rw [hpick id c' hc', hself id c' hc'] at hyes
  exact (by simpa using hyes : chosen = id).symm

/-- **Placement is agreed, distinct and consistent.**  The brokers are given the same members
with different ids, fewer than `2 ^ 31` and at least one, each in an order of its own. -/
theorem placement_agreed (hash : Bytes → UInt32) (s : Bytes) (members : List BrokerInfo)
    (hmembers : memberList s = .ok members) (hne : members ≠ [])
    (hfew : members.length < 2 ^ 31) (hdistinct : (members.map (·.nodeID)).Nodup)
    (spec : ℤ → Bytes)
    (hspec : ∀ id, (entries ((spec id).splitOn 44)).Perm (entries (s.splitOn 44)))
    (host : ℤ → Bytes) (port : ℤ → ℤ) (topic group : Bytes) (p : ℤ) :
    Agreed hash (fun id => parse id (spec id) (host id) (port id)) (members.map (·.nodeID))
      topic group p := by
  have hview : ∀ id c, parse id (spec id) (host id) (port id) = .ok c ↔
      id ∈ members.map (·.nodeID) ∧ c = ⟨id, sortBrokers members⟩ := fun id c =>
    parse_eq_ok_iff hmembers hne hdistinct (hspec id)
  have hlen : (sortBrokers members).length = members.length := List.length_insertionSort _ _
  have hpos : 0 < (sortBrokers members).length := hlen ▸ List.length_pos_iff.mpr hne
  have hlt : (sortBrokers members).length < 2 ^ 31 := hlen ▸ hfew
  -- all views have the ring of the members in the order of their ids
  let ring := Cluster.ring ⟨0, sortBrokers members⟩
  have hslot : ∀ id i, Cluster.slot ⟨id, sortBrokers members⟩ i = (ring i).head? := fun id i =>
    Cluster.slot_eq_head_ring hpos hlt i
  have hstarts : ∀ id, (∃ c, parse id (spec id) (host id) (port id) = .ok c) ↔
      id ∈ members.map (·.nodeID) := by
    intro id
    simp [hview]
  have hself : ∀ id c, parse id (spec id) (host id) (port id) = .ok c → c.self = id := by
    intro id c hc
    rw [((hview id c).mp hc).2]
  obtain ⟨leader, hleader, hl⟩ := Cluster.exists_head_ring 0 hne (Cluster.position hash topic p)
  obtain ⟨coordinator, hcoordinator, hc⟩ := Cluster.exists_head_ring 0 hne (hash group).toNat
  have hleaderFor : ∀ id c, parse id (spec id) (host id) (port id) = .ok c →
      c.leaderFor hash topic p = some leader := by
    intro id c hok
    rw [((hview id c).mp hok).2, Cluster.leaderFor, hslot, hl]
  have hcoord : ∀ id c, parse id (spec id) (host id) (port id) = .ok c →
      c.groupCoordinator hash group = some coordinator := by
    intro id c hok
    rw [((hview id c).mp hok).2, Cluster.groupCoordinator, hslot, hc]
  refine ⟨hstarts, ⟨leader, hleader, coordinator, hcoordinator,
    fun rf => (ring (Cluster.position hash topic p)).take
      (min (max rf 1) (members.length : ℤ)).toNat, ?_, fun rf => ?_, ?_⟩,
    existsUnique_self hstarts hself hleader hleaderFor,
    existsUnique_self hstarts hself hcoordinator hcoord⟩
  · intro id c hok
    refine ⟨hleaderFor id c hok, hcoord id c hok, fun rf => ?_⟩
    rw [((hview id c).mp hok).2, Cluster.replicasFor_eq hash hpos hlt, hlen]
    rfl
  · exact replicas_of_ring (Cluster.ring_sortBrokers 0 members _) hdistinct hl rf
      (by rw [List.length_map])
  · intro rf rf' hle
    exact List.take_prefix_take_left (by omega)

/-! ### Writing a member list -/

namespace BrokerInfo

/-- An entry of a spec. -/
def render (b : BrokerInfo) : Bytes := itoa b.nodeID ++ 64 :: (b.host ++ 58 :: itoa b.port)

/-- The numbers have 32 bits, and there is no comma in the host. -/
structure Valid (b : BrokerInfo) : Prop where
  nodeID : -2 ^ 31 ≤ b.nodeID ∧ b.nodeID < 2 ^ 31
  port : -2 ^ 31 ≤ b.port ∧ b.port < 2 ^ 31
  host : 44 ∉ b.host

end BrokerInfo

theorem cutFirst_append {c : UInt8} {a : Bytes} (h : c ∉ a) (b : Bytes) :
    cutFirst c (a ++ c :: b) = some (a, b) := by
  induction a with
  | nil => simp [cutFirst]
  | cons x a ih =>
    have hx : ¬ x = c := fun hxc => h (by simp [hxc])
    rw [List.cons_append, cutFirst, if_neg hx, ih fun ha => h (List.mem_cons_of_mem x ha)]
    rfl

/-- An entry is read as the member that it was written for. -/
theorem parsePart_render {b : BrokerInfo} (h : b.Valid) : parsePart b.render = .ok b := by
  have hat : (64 : UInt8) ∉ itoa b.nodeID := fun hmem =>
    absurd (le_digit_of_mem_itoa hmem) (by decide)
  have hcolon : (58 : UInt8) ∉ itoa b.port := fun hmem =>
    absurd (le_digit_of_mem_itoa hmem) (by decide)
  obtain ⟨hid, hport, -⟩ := h
  rw [parsePart, BrokerInfo.render, cutFirst_append hat]
  dsimp only
  rw [atoi_itoa (by omega) (by omega)]
  dsimp only
  rw [cutLast_append _ hcolon]
  dsimp only
  rw [atoi_itoa (by omega) (by omega)]
  dsimp only
  rw [wrap32_eq (by omega) (by omega), wrap32_eq (by omega) (by omega)]

/-- White space does not look like a number, from either end. -/
theorem spaces_ends : ∀ w ∈ spaces,
    (∀ x ∈ w.head?, x.toNat < 45 ∨ 57 < x.toNat) ∧
      ∀ x ∈ w.getLast?, x.toNat < 45 ∨ 57 < x.toNat := by
  have hends : ∀ w ∈ spaces, (w.head?.all fun x => x.toNat < 45 ∨ 57 < x.toNat) = true ∧
      (w.getLast?.all fun x => x.toNat < 45 ∨ 57 < x.toNat) = true := by
    decide +kernel
  intro w hw
  obtain ⟨hhead, hlast⟩ := hends w hw
  exact ⟨fun x hx => by simpa using (Option.all_eq_true _ _).mp hhead x hx,
    fun x hx => by simpa using (Option.all_eq_true _ _).mp hlast x hx⟩

theorem trimSpace_render (b : BrokerInfo) : trimSpace b.render = b.render := by
  refine Strip.strip_of_forall_not ?_ ?_
  · rintro w hw ⟨rest, hrest⟩
    obtain ⟨a, as, hcons⟩ := List.exists_cons_of_ne_nil (itoa_ne_nil b.nodeID)
    obtain ⟨x, w, rfl⟩ := List.exists_cons_of_ne_nil (marks_spaces.left.ne_nil w hw)
    rw [BrokerInfo.render, hcons] at hrest
    obtain rfl : x = a := (List.cons.inj hrest).1
    have hmem : x ∈ itoa b.nodeID := by simp [hcons]
    have := (spaces_ends _ hw).1 x rfl
    have := sign_le_of_mem_itoa hmem
    have := le_digit_of_mem_itoa hmem
    omega
  · rintro w hw ⟨rest, hrest⟩
    have hne := marks_spaces.left.ne_nil w hw
    have hsplit : b.render = (itoa b.nodeID ++ 64 :: (b.host ++ [58])) ++ itoa b.port := by
      simp [BrokerInfo.render]
    have hlast : w.getLast? = (itoa b.port).getLast? := by
      rw [← List.getLast?_append_of_ne_nil rest hne, hrest, hsplit,
        List.getLast?_append_of_ne_nil _ (itoa_ne_nil _)]
    obtain ⟨x, hx⟩ := Option.ne_none_iff_exists'.mp (mt List.getLast?_eq_none_iff.mp hne)
    have hmem : x ∈ itoa b.port := List.mem_of_getLast? (hlast ▸ hx)
    have := (spaces_ends _ hw).2 x hx
    have := sign_le_of_mem_itoa hmem
    have := le_digit_of_mem_itoa hmem
    omega

/-- The spec of a member list. -/
def renderAll (bs : List BrokerInfo) : Bytes := [44].intercalate (bs.map BrokerInfo.render)

/-- **Every member list can be written down.** -/
theorem memberList_render (h : ∀ b ∈ bs, b.Valid) : memberList (renderAll bs) = .ok bs := by
  by_cases hnil : bs = []
  · subst hnil
    decide +kernel
  · have hcomma : ∀ e ∈ bs.map BrokerInfo.render, (44 : UInt8) ∉ e := by
      intro e he hmem
      obtain ⟨b, hb, rfl⟩ := List.mem_map.mp he
      rw [BrokerInfo.render] at hmem
      simp only [List.mem_append, List.mem_cons] at hmem
      rcases hmem with hmem | hmem | hmem | hmem | hmem
      · exact absurd (sign_le_of_mem_itoa hmem) (by decide)
      · exact absurd hmem (by decide)
      · exact (h b hb).host hmem
      · exact absurd hmem (by decide)
      · exact absurd (sign_le_of_mem_itoa hmem) (by decide)
    have hentries : entries (bs.map BrokerInfo.render) = bs.map BrokerInfo.render := by
      have htrim : (bs.map BrokerInfo.render).map trimSpace = bs.map BrokerInfo.render := by
        simp [trimSpace_render]
      rw [entries, htrim, List.filter_eq_self]
      simp [BrokerInfo.render]
    have hread : ∀ b ∈ bs, (parsePart b.render).toOption = some b := by
      intro b hb
      rw [parsePart_render (h b hb)]
      rfl
    rw [memberList, renderAll, List.splitOn_intercalate _ hcomma (by simpa using hnil),
      parseParts_eq_ok_iff, hentries]
    constructor
    · intro e he
      obtain ⟨b, hb, rfl⟩ := List.mem_map.mp he
      exact ⟨b, parsePart_render (h b hb)⟩
    · rw [List.filterMap_map]
      exact ((List.filterMap_congr hread).trans List.filterMap_some).symm

/-- Three members. -/
def three : List BrokerInfo := [⟨0, [104], 9092⟩, ⟨1, [104], 9093⟩, ⟨2, [104], 9094⟩]

/-- The brokers are given them in different orders, and one of them with blanks around. -/
def threeSpecs (id : ℤ) : Bytes :=
  if id = 0 then renderAll three
  else if id = 1 then renderAll three.reverse
  else 32 :: (renderAll three.tail ++ [44, 32] ++ renderAll (three.take 1) ++ [10])

/-- They agree on the leader of a partition. -/
theorem placement_agreed_three :
    memberList (renderAll three) = .ok three ∧
    Agreed hash32 (fun id => parse id (threeSpecs id) [] 0) [0, 1, 2] [116] [103] 5 := by
  have hmembers : memberList (renderAll three) = .ok three := by decide +kernel
  refine ⟨hmembers, placement_agreed hash32 (renderAll three) three hmembers (by simp [three])
    (by simp [three]) (by simp [three]) threeSpecs (fun id => ?_) (fun _ => []) (fun _ => 0)
    [116] [103] 5⟩
  unfold threeSpecs
  split_ifs <;> decide +kernel

/-- As many members as there are ids that are not negative. -/
theorem wide_list_panics {n : ℕ} (hn : n = 2 ^ 31) :
    ∃ s members, memberList s = .ok members ∧ (members.map (·.nodeID)).Nodup ∧
      members.length = n ∧
      ∃ c, parse 0 s [] 0 = .ok c ∧ ∀ topic p rf, c.replicasFor hash32 topic p rf = none := by
  let members := (List.range n).map fun (i : ℕ) => (⟨i, [104], 1⟩ : BrokerInfo)
  have hvalid : ∀ b ∈ members, b.Valid := by
    intro b hb
    obtain ⟨i, hi, rfl⟩ := List.mem_map.mp hb
    have hi := List.mem_range.mp hi
    exact ⟨⟨by dsimp only; omega, by dsimp only; omega⟩, by simp, by simp⟩
  have hids : members.map (·.nodeID) = (List.range n).map fun (i : ℕ) => (i : ℤ) := by
    rw [List.map_map]
    rfl
  have hdistinct : (members.map (·.nodeID)).Nodup := by
    rw [hids]
    exact List.nodup_range.map Nat.cast_injective
  have hlen : members.length = n := by rw [List.length_map, List.length_range]
  have hne : members ≠ [] := fun hnil => by
    rw [hnil, List.length_nil] at hlen
    omega
  have hself : (0 : ℤ) ∈ members.map (·.nodeID) := by
    rw [hids]
    exact List.mem_map.mpr ⟨0, List.mem_range.mpr (by omega), rfl⟩
  refine ⟨renderAll members, members, memberList_render hvalid, hdistinct, hlen,
    ⟨0, sortBrokers members⟩, ?_, fun topic p rf => ?_⟩
  · rw [parse_eq (memberList_render hvalid) hne hdistinct (.refl _), if_pos hself]
  · have hcount : (sortBrokers members).length = n := (List.length_insertionSort _ _).trans hlen
    exact Cluster.replicasFor_eq_none hash32 (by simp only [hcount]; omega)
      (by simp only [hcount]; omega) topic p rf

/-- **Lists that are too short or too long.**  With an empty list every broker is a cluster of
its own, and two of them lead the same partition.  With `2 ^ 31` members `ReplicasFor`
panics. -/
theorem empty_and_wide_lists :
    (∃ c c', parse 0 [] [] 0 = .ok c ∧ parse 1 [] [] 0 = .ok c' ∧
      c.leaderFor hash32 [116] 0 = some 0 ∧ c'.leaderFor hash32 [116] 0 = some 1 ∧
      c.isLeader hash32 [116] 0 = some true ∧ c'.isLeader hash32 [116] 0 = some true) ∧
    ∃ s members, memberList s = .ok members ∧ (members.map (·.nodeID)).Nodup ∧
      members.length = 2 ^ 31 ∧
      ∃ c, parse 0 s [] 0 = .ok c ∧ ∀ topic p rf, c.replicasFor hash32 topic p rf = none := by
  refine ⟨⟨single 0 [] 0, single 1 [] 0, ?_⟩, wide_list_panics rfl⟩
  decide +kernel

end Members
end Mq
