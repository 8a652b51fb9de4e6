import Mq.Broker.Holdings
import Mq.Replication.Manager

/-!
# Following the partitions that other nodes lead

`reconcileFromFSM` of `internal/broker/broker.go` in full.  Under the lock it opens the logs of
the partitions that the committed metadata places on this node, puts those with more than one
replica on hold, and collects for each of them whether this node leads it.  After the lock is
released the fetchers are told: one is stopped for a partition that this node leads, and one is
started for a partition that another node leads.

Each command and each request that creates a topic starts a reconciliation, so that several can be
under way.  The topics are read before the lock is taken, and one that has read them before a
change may tell the fetchers after it.

## Main definitions

* `followPart` — the loop under the lock, with what it collects.
* `Follower`, `Follower.step` — a broker with its fetchers, and the reconciliations under way.
* `Follower.Sane` — what holds whatever overlaps.
* `Follower.InStep` — the fetchers are those that the metadata asks for.

## Main results

* `Follower.look_list` — the holdings are those of `Holdings.reconcileFromFSM`.
* `Follower.Sane.step`, `Follower.Phase.step` — the step lemmas.
* `Follower.inStep_of_reconciled` — **after a reconciliation on its own a fetcher is registered
  for exactly the replicated partitions that another node leads.**
-/

namespace Mq

open Word Storage Controller Replication Transition

variable (set : Setting)

/-! ### The loop under the lock -/

/-- What a reconciliation tells the fetchers about a partition. -/
structure Follow where
  key : Bytes × ℤ
  lead : Bool
  deriving DecidableEq, Repr

/-- One partition of the loop: what it does to the logs, and what it adds to the list. -/
def followPart (s : Holdings × List Follow) (x : Bytes × ℤ × PartitionMeta) :
    Holdings × List Follow :=
  (s.1.reconcilePart set x.1 x.2.1 x.2.2,
    s.2 ++ if set.self ∈ x.2.2.replicas ∧ (s.1.openLocked set x.1 x.2.1).2 ≠ none ∧
        1 < x.2.2.replicas.length then [⟨(x.1, x.2.1), x.2.2.leader = set.self⟩]
      else [])

variable {set}

theorem mem_placements_iff {m : MetaState} {topic : Bytes} {p : ℤ} {pm : PartitionMeta} :
    (topic, p, pm) ∈ Holdings.placements m ↔ m.part topic p = some pm := by
  simp only [Holdings.placements, MetaState.part_eq_parts, MetaState.parts, List.mem_flatMap,
    List.mem_map, Prod.exists, Table.mem_listing, List.mem_zipIdx_iff_getElem?, Prod.mk.injEq]
  constructor
  · rintro ⟨_, tm, ht, _, i, hi, rfl, rfl, rfl⟩
    simpa [ht] using hi
  · intro h
    obtain ⟨hp, hpm⟩ := Option.ite_none_left_eq_some.mp h
    cases ht : m.topics.lookup topic with
    | none => simp [ht] at hpm
    | some tm =>
      rw [ht] at hpm
      exact ⟨topic, tm, ht, pm, p.toNat, hpm, rfl, Int.toNat_of_nonneg (by omega), rfl⟩

/-! ### What the loop does -/

/-- The log of a partition is open, or can be opened. -/
def Openable (set : Setting) (b : Holdings) (k : Bytes × ℤ) : Prop :=
  b.logs.lookup k ≠ none ∨ set.openLog k.1 k.2 ≠ none

/-- The log of a partition is open and on hold. -/
def Holds (b : Holdings) (k : Bytes × ℤ) : Prop :=
  ∃ l, b.logs.lookup k = some l ∧ l.holdHWM = true

/-- `b'` is `b` with the log of one partition open. -/
structure Opened (b : Holdings) (key : Bytes × ℤ) (l : Log) (b' : Holdings) : Prop where
  ctrl : b'.ctrl = b.ctrl
  lookup : ∀ k, b'.logs.lookup k = if k = key then some l else b.logs.lookup k
  held : Holds b key → l.holdHWM = true

namespace Opened

variable {b b' : Holdings} {key : Bytes × ℤ} {l : Log} (h : Opened b key l b')
include h

theorem self : b'.logs.lookup key = some l := by rw [h.lookup, if_pos rfl]

theorem opened {k : Bytes × ℤ} (hk : b.logs.lookup k ≠ none) : b'.logs.lookup k ≠ none := by
  rw [h.lookup]
  split
  · simp
  · exact hk

theorem holds {k : Bytes × ℤ} (hk : Holds b k) : Holds b' k := by
  by_cases heq : k = key
  · subst heq
    exact ⟨l, h.self, h.held hk⟩
  · obtain ⟨l', hl', hhold⟩ := hk
    exact ⟨l', by rw [h.lookup, if_neg heq, hl'], hhold⟩

theorem openable_iff (hopen : Openable set b key) (k : Bytes × ℤ) :
    Openable set b' k ↔ Openable set b k := by
  unfold Openable
  rw [h.lookup]
  split
  · next heq => exact heq ▸ ⟨fun _ => hopen, fun _ => .inl (by simp)⟩
  · rfl

/-- The log is put on hold. -/
theorem hold :
    Opened b key l.holdHighWatermark
      { b' with logs := b'.logs.insert key l.holdHighWatermark } where
  ctrl := h.ctrl
  lookup k := by
    rw [Table.lookup_insert_ite, h.lookup]
    split <;> rfl
  held _ := rfl

end Opened

/-- A log is open afterwards, or cannot be opened. -/
theorem openLocked_spec (b : Holdings) (topic : Bytes) (p : ℤ) :
    (¬ Openable set b (topic, p) ∧ b.openLocked set topic p = (b, none)) ∨
    (Openable set b (topic, p) ∧ ∃ b' l, b.openLocked set topic p = (b', some l) ∧
      Opened b (topic, p) l b') := by
  rcases @Holdings.openLocked_cases set b topic p with
    ⟨l, hl, heq⟩ | ⟨hnone, hopen, heq⟩ | ⟨l, hnone, hopen, heq⟩
  · refine .inr ⟨.inl (by simp [hl]), b, l, heq, rfl, fun k => ?_, ?_⟩
    · split
      · next hk => rw [hk, hl]
      · rfl
    · rintro ⟨l', hl', hhold⟩
      rwa [Option.some.inj (hl.symm.trans hl')]
  · exact .inl ⟨fun h => h.elim (· hnone) (· hopen), heq⟩
  · refine .inr ⟨.inr (by simp [hopen]), _, l, heq, rfl, fun k => Table.lookup_insert_ite .., ?_⟩
    rintro ⟨l', hl', -⟩
    cases hnone.symm.trans hl'

/-- The loop comes to the partition and can open its log. -/
def Due (set : Setting) (b : Holdings) (xs : List (Bytes × ℤ × PartitionMeta)) (k : Bytes × ℤ)
    (pm : PartitionMeta) : Prop :=
  (k.1, k.2, pm) ∈ xs ∧ set.self ∈ pm.replicas ∧ Openable set b k

theorem due_cons {b : Holdings} {topic : Bytes} {p : ℤ} {pm qm : PartitionMeta}
    {xs : List (Bytes × ℤ × PartitionMeta)} {k : Bytes × ℤ} :
    Due set b ((topic, p, pm) :: xs) k qm ↔
      ((k = (topic, p) ∧ qm = pm) ∧ set.self ∈ pm.replicas ∧ Openable set b (topic, p)) ∨
        Due set b xs k qm := by
  unfold Due
  rw [List.mem_cons, or_and_right]
  refine or_congr_left ⟨?_, ?_⟩
  · rintro ⟨heq, h⟩
    cases heq
    exact ⟨⟨rfl, rfl⟩, h⟩
  · rintro ⟨⟨rfl, rfl⟩, h⟩
    exact ⟨rfl, h⟩

/-- **One partition of the loop**: it is left alone, or its log is open afterwards. -/
theorem followPart_cases (s : Holdings × List Follow) (topic : Bytes) (p : ℤ) (pm : PartitionMeta) :
    (¬ (set.self ∈ pm.replicas ∧ Openable set s.1 (topic, p)) ∧
      followPart set s (topic, p, pm) = s) ∨
    (set.self ∈ pm.replicas ∧ Openable set s.1 (topic, p) ∧ ∃ l,
      Opened s.1 (topic, p) l (followPart set s (topic, p, pm)).1 ∧
      (1 < pm.replicas.length → l.holdHWM = true) ∧
      (followPart set s (topic, p, pm)).2
        = s.2 ++ if 1 < pm.replicas.length then [⟨(topic, p), pm.leader = set.self⟩] else []) := by
  unfold followPart Holdings.reconcilePart
  by_cases hself : set.self ∈ pm.replicas
  swap
  · exact .inl ⟨fun h => hself h.1, by simp [hself]⟩
  rcases @openLocked_spec set s.1 topic p with ⟨hnot, heq⟩ | ⟨hopen, b', l, heq, hb'⟩
  · exact .inl ⟨fun h => hnot h.2, by simp [hself, heq]⟩
  · refine .inr ⟨hself, hopen, ?_⟩
    by_cases hlen : 1 < pm.replicas.length
    · exact ⟨_, by simpa [hself, heq, hlen] using hb'.hold, fun _ => rfl,
        by simp [hself, heq, hlen]⟩
    · exact ⟨l, by simpa [hself, heq, hlen] using hb', fun h => absurd h hlen, by simp [hlen]⟩

/-- **What the loop over some partitions does**: the actions are those of the replicated
partitions on this node whose logs are open or can be opened, and those logs are open and on hold
afterwards. -/
structure Followed (set : Setting) (xs : List (Bytes × ℤ × PartitionMeta))
    (s t : Holdings × List Follow) : Prop where
  ctrl : t.1.ctrl = s.1.ctrl
  opened : ∀ k, s.1.logs.lookup k ≠ none → t.1.logs.lookup k ≠ none
  holds : ∀ k, Holds s.1 k → Holds t.1 k
  due : ∀ k pm, Due set s.1 xs k pm →
    t.1.logs.lookup k ≠ none ∧ (1 < pm.replicas.length → Holds t.1 k)
  actions : ∀ a, a ∈ t.2 ↔ a ∈ s.2 ∨ ∃ pm, Due set s.1 xs a.key pm ∧ 1 < pm.replicas.length ∧
    a.lead = decide (pm.leader = set.self)

theorem followed_foldl (xs : List (Bytes × ℤ × PartitionMeta)) (s : Holdings × List Follow) :
    Followed set xs s (xs.foldl (followPart set) s) := by
  induction xs generalizing s with
  | nil => exact ⟨rfl, fun _ => id, fun _ => id, fun _ _ h => absurd h.1 (by simp), by simp [Due]⟩
  | cons x xs ih =>
    obtain ⟨topic, p, pm⟩ := x
    rw [List.foldl_cons]
    rcases @followPart_cases set s topic p pm with
      ⟨hnot, heq⟩ | ⟨hself, hopen, l, hl, hhold, hacts⟩
    · have hdue : ∀ k qm, Due set s.1 ((topic, p, pm) :: xs) k qm ↔ Due set s.1 xs k qm :=
        fun k qm => due_cons.trans (or_iff_right fun h => hnot h.2)
      obtain ⟨hctrl, hopened, hholds, hrest, hactions⟩ := ih s
      rw [heq]
      exact ⟨hctrl, hopened, hholds, fun k qm h => hrest k qm ((hdue k qm).mp h), fun a => by
        simp only [hactions, hdue]⟩
    · have hdue : ∀ k qm, Due set s.1 ((topic, p, pm) :: xs) k qm ↔ k = (topic, p) ∧ qm = pm ∨
          Due set (followPart set s (topic, p, pm)).1 xs k qm := fun k qm => by
        rw [due_cons, and_iff_left ⟨hself, hopen⟩]
        unfold Due
        rw [hl.openable_iff hopen]
      obtain ⟨hctrl, hopened, hholds, hrest, hactions⟩ := ih (followPart set s (topic, p, pm))
      refine ⟨hctrl.trans hl.ctrl, fun k hk => hopened k (hl.opened hk),
        fun k hk => hholds k (hl.holds hk), fun k qm h => ?_, fun a => ?_⟩
      · rcases (hdue k qm).mp h with ⟨rfl, rfl⟩ | h
        · exact ⟨hopened _ (by simp [hl.self]), fun hlen => hholds _ ⟨l, hl.self, hhold hlen⟩⟩
        · exact hrest k qm h
      · rw [hactions, hacts, List.mem_append, or_assoc]
        refine or_congr_right ?_
        simp only [hdue, or_and_right, exists_or, and_assoc]
        refine or_congr_left ?_
        split
        · next hlen => cases a; simp [hlen]
        · next hlen => simp [hlen]

/-! ### Telling the fetchers -/

/-- A reconciliation that is under way. -/
inductive Reconciliation
  /-- The topics were read. -/
  | listed (xs : List (Bytes × ℤ × PartitionMeta))
  /-- The lock was released, and these actions are left. -/
  | telling (acts : List Follow)
  deriving DecidableEq

/-- A broker with its fetchers, the times since which it leads, and the reconciliations that
were started. -/
structure Follower where
  holdings : Holdings
  repl : Manager
  leadSince : Table (Bytes × ℤ) ℤ
  calls : List Reconciliation

namespace Follower

/-- `SetController`, before the first reconciliation. -/
def start (b : Holdings) : Follower := ⟨b, .new, ∅, []⟩

/-- `noteLeadSince`: the first time counts. -/
def noteLeadSince (now : ℤ) (n : Follower) (k : Bytes × ℤ) : Follower :=
  match n.leadSince.lookup k with
  | some _ => n
  | none => { n with leadSince := n.leadSince.insert k now }

/-- One action is carried out. -/
def tell (now : ℤ) (n : Follower) (a : Follow) : Follower :=
  if a.lead then noteLeadSince now { n with repl := n.repl.stopFollowing a.key } a.key
  else { n with repl := n.repl.ensureFollowing a.key }

inductive Event
  /-- The state machine of the metadata applies a command. -/
  | commit (cmd : Command)
  /-- A request looks for a log, and may open it. -/
  | localLog (set : Setting) (topic : Bytes) (p : ℤ)
  /-- A fetcher asks for its log. -/
  | replicaLog (set : Setting) (topic : Bytes) (p : ℤ)
  /-- A reconciliation starts, and reads the topics. -/
  | list
  /-- A reconciliation runs its loop under the lock. -/
  | look (set : Setting) (i : ℕ)
  /-- A reconciliation carries out its next action. -/
  | tell (now : ℤ) (i : ℕ)
  /-- A call that shuts a fetcher down goes on. -/
  | advance (i : ℕ)
  /-- A fetcher goes on. -/
  | fetch (i : ℕ) (ok : Bool)

def step (n : Follower) : Event → Follower
  | .commit cmd =>
    { n with holdings := { n.holdings with ctrl := n.holdings.ctrl.map (·.step cmd) } }
  | .localLog set topic p => { n with holdings := (n.holdings.localLog set topic p).1 }
  | .replicaLog set topic p => { n with holdings := (n.holdings.openLocked set topic p).1 }
  | .list =>
    match n.holdings.ctrl with
    | none => n
    | some m => { n with calls := n.calls ++ [.listed (Holdings.placements m)] }
  | .look set i =>
    match n.calls[i]? with
    | some (.listed xs) =>
      let s := xs.foldl (followPart set) (n.holdings, [])
      { n with holdings := s.1, calls := n.calls.set i (.telling s.2) }
    | _ => n
  | .tell now i =>
    match n.calls[i]? with
    | some (.telling (a :: acts)) =>
      tell now { n with calls := n.calls.set i (.telling acts) } a
    | _ => n
  | .advance i => { n with repl := n.repl.advance i }
  | .fetch i ok => { n with repl := n.repl.fetch i ok }

variable {n : Follower} {node : ℤ} {b b' : Holdings} {m : MetaState} {i j : ℕ}

/-- **A reconciliation that nothing interrupts** leaves the holdings of
`Holdings.reconcileFromFSM`. -/
theorem look_list (n : Follower) :
    ((n.step .list).step (.look set n.calls.length)).holdings
      = n.holdings.reconcileFromFSM set := by
  unfold step Holdings.reconcileFromFSM
  cases hctrl : n.holdings.ctrl with
  | none =>
    dsimp only
    rw [List.getElem?_eq_none le_rfl]
  | some m =>
    dsimp only
    rw [List.getElem?_concat_length]
    exact (List.foldl_hom Prod.fst fun _ _ => rfl).symm

theorem stopFollowing_spec (m : Manager) (key : Bytes × ℤ) :
    (m.stopFollowing key).closed = m.closed ∧ ∀ k,
      (m.stopFollowing key).fetchers.lookup k = if k = key then none else m.fetchers.lookup k := by
  unfold Manager.stopFollowing
  cases hkey : m.fetchers.lookup key with
  | none =>
    refine ⟨rfl, fun k => ?_⟩
    dsimp only
    split
    · next hk => rw [hk, hkey]
    · rfl
  | some i => exact ⟨rfl, fun k => Table.lookup_erase_ite ..⟩

theorem ensureFollowing_spec {m : Manager} (hopen : m.closed = false) (key : Bytes × ℤ) :
    (m.ensureFollowing key).closed = false ∧ ∀ k,
      (m.ensureFollowing key).fetchers.lookup k ≠ none ↔ k = key ∨ m.fetchers.lookup k ≠ none := by
  unfold Manager.ensureFollowing
  rw [hopen, if_neg (by simp)]
  cases hkey : m.fetchers.lookup key with
  | some i =>
    refine ⟨hopen, fun k => ⟨.inr, ?_⟩⟩
    rintro (rfl | hk)
    · simp [hkey]
    · exact hk
  | none =>
    refine ⟨rfl, fun k => ?_⟩
    dsimp only
    rw [Table.lookup_insert_ite]
    split <;> simp [*]

theorem advance_eq (m : Manager) (i : ℕ) :
    (m.advance i).fetchers = m.fetchers ∧ (m.advance i).closed = m.closed := by
  unfold Manager.advance
  split
  · exact ⟨rfl, rfl⟩
  · split <;> exact ⟨rfl, rfl⟩
  · exact ⟨rfl, rfl⟩
  · exact ⟨rfl, rfl⟩

/-- What one action does. -/
structure Told (n : Follower) (a : Follow) (n' : Follower) : Prop where
  holdings : n'.holdings = n.holdings
  calls : n'.calls = n.calls
  closed : n'.repl.closed = false
  fetchers : ∀ k, n'.repl.fetchers.lookup k ≠ none ↔
    if k = a.key then a.lead = false else n.repl.fetchers.lookup k ≠ none
  noted : ∀ k, k = a.key ∧ a.lead = true ∨ n.leadSince.lookup k ≠ none →
    n'.leadSince.lookup k ≠ none

theorem told_tell (now : ℤ) (hopen : n.repl.closed = false) (a : Follow) :
    Told n a (tell now n a) := by
  unfold tell noteLeadSince
  cases hlead : a.lead with
  | false =>
    obtain ⟨hclosed, hfetchers⟩ := ensureFollowing_spec hopen a.key
    rw [if_neg (by simp)]
    refine ⟨rfl, rfl, hclosed, fun k => ?_, by simp [hlead]⟩
    rw [hfetchers, hlead]
    split <;> simp [*]
  | true =>
    obtain ⟨hsame, hlookup⟩ := stopFollowing_spec n.repl a.key
    have hclosed := hsame.trans hopen
    have hfetchers : ∀ k, (n.repl.stopFollowing a.key).fetchers.lookup k ≠ none ↔
        if k = a.key then a.lead = false else n.repl.fetchers.lookup k ≠ none := fun k => by
      rw [hlookup, hlead]
      split <;> simp
    rw [if_pos rfl]
    dsimp only
    cases hsince : n.leadSince.lookup a.key with
    | some t =>
      refine ⟨rfl, rfl, hclosed, hfetchers, ?_⟩
      rintro k (⟨rfl, -⟩ | hk)
      · simp [hsince]
      · exact hk
    | none =>
      refine ⟨rfl, rfl, hclosed, hfetchers, fun k hk => ?_⟩
      dsimp only
      rw [Table.lookup_insert_ite]
      split
      · simp
      · next hne => exact hk.resolve_left fun h => hne h.1

/-! ### What the holdings keep -/

/-- The partition has more than one replica, one of them on this node. -/
def Hosts (node : ℤ) (b : Holdings) (k : Bytes × ℤ) (pm : PartitionMeta) : Prop :=
  ∃ m, b.ctrl = some m ∧ m.part k.1 k.2 = some pm ∧ node ∈ pm.replicas ∧ 1 < pm.replicas.length

/-- Partitions keep their replicas, and logs stay open and on hold. -/
structure Keeps (b b' : Holdings) : Prop where
  parts : ∀ m, b.ctrl = some m → ∃ m', b'.ctrl = some m' ∧ ∀ topic p pm,
    m.part topic p = some pm → ∃ pm', m'.part topic p = some pm' ∧ pm'.replicas = pm.replicas
  opened : ∀ k, b.logs.lookup k ≠ none → b'.logs.lookup k ≠ none
  holds : ∀ k, Holds b k → Holds b' k

theorem keeps_of_ctrl (hctrl : b'.ctrl = b.ctrl)
    (hopened : ∀ k, b.logs.lookup k ≠ none → b'.logs.lookup k ≠ none)
    (hholds : ∀ k, Holds b k → Holds b' k) : Keeps b b' :=
  ⟨fun m hm => ⟨m, hctrl.trans hm, fun _ _ pm hpm => ⟨pm, hpm, rfl⟩⟩, hopened, hholds⟩

theorem keeps_commit (b : Holdings) (cmd : Command) :
    Keeps b { b with ctrl := b.ctrl.map (·.step cmd) } := by
  refine ⟨fun m hm => ⟨m.step cmd, by simp [hm], fun topic p pm hpm => ?_⟩, fun _ => id,
    fun _ => id⟩
  obtain ⟨pm', hpm', hreplicas, -⟩ := (Effect.step m cmd).1.part_of_some hpm
  exact ⟨pm', hpm', hreplicas⟩

theorem keeps_openLocked (b : Holdings) (topic : Bytes) (p : ℤ) :
    Keeps b (b.openLocked set topic p).1 ∧ (b.openLocked set topic p).1.ctrl = b.ctrl := by
  rcases @openLocked_spec set b topic p with ⟨-, heq⟩ | ⟨-, b', l, heq, hb'⟩ <;> rw [heq]
  · exact ⟨keeps_of_ctrl rfl (fun _ => id) fun _ => id, rfl⟩
  · exact ⟨keeps_of_ctrl hb'.ctrl (fun _ => hb'.opened) fun _ => hb'.holds, hb'.ctrl⟩

/-- A broker with a controller opens a log for a request and does nothing else. -/
theorem keeps_localLog (hctrl : b.ctrl = some m) (topic : Bytes) (p : ℤ) :
    Keeps b (b.localLog set topic p).1 ∧ (b.localLog set topic p).1.ctrl = b.ctrl := by
  have hsame : Keeps b b ∧ b.ctrl = b.ctrl := ⟨keeps_of_ctrl rfl (fun _ => id) fun _ => id, rfl⟩
  unfold Holdings.localLog
  split
  · exact hsame
  · split
    · exact hsame
    · split
      · exact hsame
      · rw [if_neg fun hfree => by rw [hctrl] at hfree; cases hfree.1]
        have hserved : ∀ x : Holdings × Option Log, (Holdings.served x).1 = x.1 := by
          rintro ⟨b', _ | l⟩ <;> rfl
        rw [hserved]
        exact keeps_openLocked b topic p

/-! ### Every interleaving -/

/-- A fetcher may follow the partition. -/
def Followable (node : ℤ) (b : Holdings) (k : Bytes × ℤ) : Prop :=
  (∃ pm, Hosts node b k pm) ∧ Holds b k

/-- What a reconciliation goes by is so, up to the leaders. -/
def Founded (node : ℤ) (b : Holdings) : Reconciliation → Prop
  | .listed xs => ∀ topic p pm, (topic, p, pm) ∈ xs →
    ∃ m pm', b.ctrl = some m ∧ m.part topic p = some pm' ∧ pm'.replicas = pm.replicas
  | .telling acts => ∀ a ∈ acts, Followable node b a.key

/-- **Whatever overlaps**, a fetcher follows a partition with more than one replica, one of them
here, whose log is open and on hold; and so will those that are still to be started. -/
structure Sane (node : ℤ) (n : Follower) : Prop where
  closed : n.repl.closed = false
  ctrl : n.holdings.ctrl ≠ none
  fetchers : ∀ k, n.repl.fetchers.lookup k ≠ none → Followable node n.holdings k
  calls : ∀ c ∈ n.calls, Founded node n.holdings c

/-- The setting of the event is that of this node. -/
def Event.On (node : ℤ) : Event → Prop
  | .localLog set _ _ | .replicaLog set _ _ | .look set _ => set.self = node
  | _ => True

theorem Keeps.followable (h : Keeps b b') {k : Bytes × ℤ} (hk : Followable node b k) :
    Followable node b' k := by
  obtain ⟨⟨pm, m, hctrl, hpm, hself, hlen⟩, hhold⟩ := hk
  obtain ⟨m', hctrl', hparts⟩ := h.parts m hctrl
  obtain ⟨pm', hpm', hreplicas⟩ := hparts _ _ _ hpm
  exact ⟨⟨pm', m', hctrl', hpm', by rwa [hreplicas], by rwa [hreplicas]⟩, h.holds k hhold⟩

theorem Keeps.founded (h : Keeps b b') {c : Reconciliation} (hc : Founded node b c) :
    Founded node b' c := by
  cases c with
  | listed xs =>
    intro topic p pm hx
    obtain ⟨m, pm', hm, hpm', hreplicas⟩ := hc topic p pm hx
    obtain ⟨m', hm', hparts⟩ := h.parts m hm
    obtain ⟨pm'', hpm'', hreplicas'⟩ := hparts _ _ _ hpm'
    exact ⟨m', pm'', hm', hpm'', hreplicas'.trans hreplicas⟩
  | telling acts => exact fun a ha => h.followable (hc a ha)

namespace Sane

/-- A step that touches the holdings only. -/
theorem of_keeps (h : Sane node n) (hb : Keeps n.holdings b) :
    Sane node { n with holdings := b } := by
  obtain ⟨m, hm⟩ := Option.ne_none_iff_exists'.mp h.ctrl
  obtain ⟨m', hm', -⟩ := hb.parts m hm
  exact ⟨h.closed, by simp [hm'], fun k hk => hb.followable (h.fetchers k hk),
    fun c hc => hb.founded (h.calls c hc)⟩

theorem list (h : Sane node n) : Sane node (n.step .list) := by
  obtain ⟨m, hm⟩ := Option.ne_none_iff_exists'.mp h.ctrl
  unfold step
  rw [hm]
  refine ⟨h.closed, h.ctrl, h.fetchers, fun c hc => ?_⟩
  rcases List.mem_append.mp hc with hc | hc
  · exact h.calls c hc
  · cases List.mem_singleton.mp hc
    exact fun topic p pm hx => ⟨m, pm, hm, mem_placements_iff.mp hx, rfl⟩

theorem look (h : Sane node n) (hself : set.self = node) (i : ℕ) :
    Sane node (n.step (.look set i)) := by
  unfold step
  dsimp only
  split
  case h_2 => exact h
  next xs hi =>
  have hfollowed := @followed_foldl set xs (n.holdings, [])
  have h' := h.of_keeps (keeps_of_ctrl hfollowed.ctrl hfollowed.opened hfollowed.holds)
  refine ⟨h'.closed, h'.ctrl, h'.fetchers, fun c hc => ?_⟩
  rcases List.mem_or_eq_of_mem_set hc with hc | rfl
  · exact h'.calls c hc
  · intro a ha
    rcases (hfollowed.actions a).mp ha with ha | ⟨pm, hdue, hlen, -⟩
    · cases ha
    · obtain ⟨m, pm', hm, hpm', hreplicas⟩ := h.calls _ (List.mem_of_getElem? hi) _ _ pm hdue.1
      refine ⟨⟨pm', m, hfollowed.ctrl.trans hm, hpm', ?_, ?_⟩, (hfollowed.due _ pm hdue).2 hlen⟩
      · rw [hreplicas, ← hself]
        exact hdue.2.1
      · rwa [hreplicas]

theorem tell (h : Sane node n) (now : ℤ) (i : ℕ) : Sane node (n.step (.tell now i)) := by
  unfold step
  dsimp only
  split
  case h_2 => exact h
  next a acts hi =>
  obtain ⟨hholdings, hcalls, hclosed, hfetchers, -⟩ :=
    told_tell (n := { n with calls := n.calls.set i (.telling acts) }) now h.closed a
  have hfound : ∀ a' ∈ a :: acts, Followable node n.holdings a'.key :=
    h.calls _ (List.mem_of_getElem? hi)
  refine ⟨hclosed, by rw [hholdings]; exact h.ctrl, fun k hk => ?_, fun c hc => ?_⟩
  · rw [hholdings]
    have hk' := (hfetchers k).mp hk
    split at hk'
    · next heq =>
      rw [heq]
      exact hfound a List.mem_cons_self
    · exact h.fetchers k hk'
  · rw [hcalls] at hc
    rw [hholdings]
    rcases List.mem_or_eq_of_mem_set hc with hc | rfl
    · exact h.calls c hc
    · exact fun b hb => hfound b (List.mem_cons_of_mem a hb)

/-- **The step lemma.** -/
theorem step (h : Sane node n) {e : Event} (he : e.On node) : Sane node (n.step e) := by
  obtain ⟨m, hm⟩ := Option.ne_none_iff_exists'.mp h.ctrl
  cases e with
  | commit cmd => exact h.of_keeps (keeps_commit _ cmd)
  | localLog set topic p => exact h.of_keeps (keeps_localLog hm topic p).1
  | replicaLog set topic p => exact h.of_keeps (keeps_openLocked _ topic p).1
  | list => exact h.list
  | look set i => exact h.look he i
  | tell now i => exact h.tell now i
  | advance i =>
    obtain ⟨hfetchers, hclosed⟩ := advance_eq n.repl i
    exact ⟨hclosed.trans h.closed, h.ctrl, fun k hk => h.fetchers k (by rwa [← hfetchers]), h.calls⟩
  | fetch i ok => exact ⟨h.closed, h.ctrl, h.fetchers, h.calls⟩

end Sane

/-! ### The last reconciliation -/

/-- No reconciliation is under way. -/
def Idle (n : Follower) : Prop := ∀ c ∈ n.calls, c = .telling []

/-- The logs of the partitions on the node are open, and on hold if they are replicated. -/
structure Ready (node : ℤ) (b : Holdings) : Prop where
  opened : ∀ m topic p pm, b.ctrl = some m → m.part topic p = some pm → node ∈ pm.replicas →
    b.logs.lookup (topic, p) ≠ none
  held : ∀ k pm, Hosts node b k pm → Holds b k

/-- **The node does what the metadata asks for.** -/
structure InStep (node : ℤ) (n : Follower) : Prop where
  ready : Ready node n.holdings
  follows : ∀ k, n.repl.fetchers.lookup k ≠ none ↔
    ∃ pm, Hosts node n.holdings k pm ∧ pm.leader ≠ node
  noted : ∀ k pm, Hosts node n.holdings k pm → pm.leader = node → n.leadSince.lookup k ≠ none

/-- The node does what the metadata asks for, up to some actions. -/
structure UpTo (node : ℤ) (n : Follower) (acts : List Follow) : Prop where
  ready : Ready node n.holdings
  due : ∀ a ∈ acts, ∃ pm, Hosts node n.holdings a.key pm ∧ (a.lead = true ↔ pm.leader = node)
  done : ∀ k pm, Hosts node n.holdings k pm → ⟨k, pm.leader = node⟩ ∈ acts ∨
    (n.repl.fetchers.lookup k ≠ none ↔ pm.leader ≠ node) ∧
      (pm.leader = node → n.leadSince.lookup k ≠ none)

/-- Where the last reconciliation is, when it is the only one under way. -/
def Phase (node : ℤ) (i : ℕ) (n : Follower) : Prop :=
  (∀ j c, n.calls[j]? = some c → j ≠ i → c = .telling []) ∧
  ((∃ m, n.holdings.ctrl = some m ∧ n.calls[i]? = some (.listed (Holdings.placements m))) ∨
    ∃ acts, n.calls[i]? = some (.telling acts) ∧ UpTo node n acts)

/-- The metadata stays, no other reconciliation starts, and logs can be opened. -/
def Event.Quiet : Event → Prop
  | .commit _ | .list => False
  | .look set _ => ∀ topic p, set.openLog topic p ≠ none
  | _ => True

theorem Hosts.unique {k : Bytes × ℤ} {pm pm' : PartitionMeta} (h : Hosts node b k pm)
    (h' : Hosts node b k pm') : pm = pm' := by
  obtain ⟨m, hm, hpm, -⟩ := h
  obtain ⟨m', hm', hpm', -⟩ := h'
  cases hm.symm.trans hm'
  exact Option.some.inj (hpm.symm.trans hpm')

/-- After the last action nothing is left to do. -/
theorem UpTo.inStep (h : UpTo node n []) (hsane : Sane node n) : InStep node n := by
  have hdone : ∀ k pm, Hosts node n.holdings k pm → (n.repl.fetchers.lookup k ≠ none ↔
      pm.leader ≠ node) ∧ (pm.leader = node → n.leadSince.lookup k ≠ none) := fun k pm hpm =>
    (h.done k pm hpm).resolve_left (by simp)
  refine ⟨h.ready, fun k => ⟨fun hk => ?_, ?_⟩, fun k pm hpm => (hdone k pm hpm).2⟩
  · obtain ⟨⟨pm, hpm⟩, -⟩ := hsane.fetchers k hk
    exact ⟨pm, hpm, (hdone k pm hpm).1.mp hk⟩
  · rintro ⟨pm, hpm, hlead⟩
    exact (hdone k pm hpm).1.mpr hlead

/-- After the loop every action is left to do. -/
theorem upTo_look (hm : n.holdings.ctrl = some m) (hnode : set.self = node)
    (hopen : ∀ topic p, set.openLog topic p ≠ none) {s : Holdings × List Follow}
    (h : Followed set (Holdings.placements m) (n.holdings, []) s) (calls : List Reconciliation) :
    UpTo node { n with holdings := s.1, calls := calls } s.2 := by
  subst hnode
  have hctrl : s.1.ctrl = some m := h.ctrl.trans hm
  have hdue : ∀ {k pm}, m.part k.1 k.2 = some pm → set.self ∈ pm.replicas →
      Due set n.holdings (Holdings.placements m) k pm := fun hpm hself =>
    ⟨mem_placements_iff.mpr hpm, hself, .inr (hopen _ _)⟩
  have hhosts : ∀ {k pm}, Hosts set.self s.1 k pm →
      Due set n.holdings (Holdings.placements m) k pm ∧ 1 < pm.replicas.length := by
    rintro k pm ⟨m', hm', hpm, hself, hlen⟩
    cases hctrl.symm.trans hm'
    exact ⟨hdue hpm hself, hlen⟩
  refine ⟨⟨fun m' topic p pm hm' hpm hself => ?_, fun k pm hk => ?_⟩, fun a ha => ?_,
    fun k pm hk => .inl ((h.actions _).mpr (.inr ⟨pm, (hhosts hk).1, (hhosts hk).2, rfl⟩))⟩
  · cases hctrl.symm.trans hm'
    exact (h.due (topic, p) pm (hdue hpm hself)).1
  · exact (h.due k pm (hhosts hk).1).2 (hhosts hk).2
  · rcases (h.actions a).mp ha with ha | ⟨pm, ⟨hx, hself, -⟩, hlen, hlead⟩
    · cases ha
    · exact ⟨pm, ⟨m, hctrl, mem_placements_iff.mp hx, hself, hlen⟩, by simp [hlead]⟩

/-- One action less. -/
theorem UpTo.told {n' : Follower} {a : Follow} {acts : List Follow}
    (h : UpTo node n (a :: acts)) (ht : Told n a n') : UpTo node n' acts := by
  obtain ⟨hholdings, -, -, hfetchers, hnoted⟩ := ht
  obtain ⟨pa, hpa, hlead⟩ := h.due a List.mem_cons_self
  refine ⟨by rw [hholdings]; exact h.ready, fun b hb => ?_, fun k pm hk => ?_⟩
  · rw [hholdings]
    exact h.due b (List.mem_cons_of_mem a hb)
  · rw [hholdings] at hk
    by_cases hkey : k = a.key
    · -- the partition that the action is about
      subst hkey
      cases hk.unique hpa
      refine .inr ⟨?_, fun hled => hnoted _ (.inl ⟨rfl, hlead.mpr hled⟩)⟩
      rw [hfetchers, if_pos rfl, ne_eq, ← hlead, Bool.not_eq_true]
    · rcases h.done k pm hk with hmem | ⟨hfollow, hled⟩
      · rcases List.mem_cons.mp hmem with rfl | hmem
        · exact absurd rfl hkey
        · exact .inl hmem
      · exact .inr ⟨by rw [hfetchers, if_neg hkey]; exact hfollow,
          fun hself => hnoted k (.inr (hled hself))⟩

/-- A step that opens logs. -/
theorem Phase.of_keeps (h : Phase node i n) (hkeeps : Keeps n.holdings b ∧
    b.ctrl = n.holdings.ctrl) : Phase node i { n with holdings := b } := by
  obtain ⟨hb, hctrl⟩ := hkeeps
  obtain ⟨hothers, ⟨m, hm, hi⟩ | ⟨acts, hi, hup⟩⟩ := h
  · exact ⟨hothers, .inl ⟨m, hctrl.trans hm, hi⟩⟩
  · have hhosts : ∀ k pm, Hosts node b k pm ↔ Hosts node n.holdings k pm := fun k pm => by
      unfold Hosts
      rw [hctrl]
    refine ⟨hothers, .inr ⟨acts, hi,
      ⟨fun m topic p pm hm hpm hself => ?_, fun k pm hk => ?_⟩, ?_, ?_⟩⟩
    · exact hb.opened _ (hup.ready.opened m topic p pm (hctrl.symm.trans hm) hpm hself)
    · exact hb.holds k (hup.ready.held k pm ((hhosts k pm).mp hk))
    · simpa only [hhosts] using hup.due
    · simpa only [hhosts] using hup.done

/-- A step of the fetchers. -/
theorem Phase.of_fetchers (h : Phase node i n) {r : Manager}
    (hr : r.fetchers = n.repl.fetchers) : Phase node i { n with repl := r } := by
  obtain ⟨hothers, hlisted | ⟨acts, hi, hup⟩⟩ := h
  · exact ⟨hothers, .inl hlisted⟩
  · refine ⟨hothers, .inr ⟨acts, hi, hup.ready, hup.due, fun k pm hk => ?_⟩⟩
    dsimp only
    rw [hr]
    exact hup.done k pm hk

/-- The others are not touched when the last reconciliation goes on. -/
theorem others_set {c : Reconciliation} {calls : List Reconciliation}
    (h : ∀ j c, calls[j]? = some c → j ≠ i → c = .telling []) :
    ∀ j c', (calls.set i c)[j]? = some c' → j ≠ i → c' = .telling [] := fun j c' hj hne =>
  h j c' (by rwa [List.getElem?_set_ne hne.symm] at hj) hne

theorem Phase.look (h : Phase node i n) (hnode : set.self = node)
    (hopen : ∀ topic p, set.openLog topic p ≠ none) : Phase node i (n.step (.look set j)) := by
  unfold step
  dsimp only
  split
  case h_2 => exact h
  next xs hj =>
  -- only the last one has still to run its loop
  obtain ⟨hothers, hphase⟩ := h
  have hij : j = i := by
    by_contra hne
    cases hothers j _ hj hne
  subst hij
  obtain ⟨m, hm, hi⟩ | ⟨acts, hi, -⟩ := hphase
  · cases hi.symm.trans hj
    refine ⟨others_set hothers, .inr ⟨_, ?_, upTo_look hm hnode hopen (followed_foldl _ _) _⟩⟩
    exact List.getElem?_set_self (List.getElem?_eq_some_iff.mp hj).1
  · cases hi.symm.trans hj

theorem Phase.tell (h : Phase node i n) (hclosed : n.repl.closed = false) (now : ℤ) :
    Phase node i (n.step (.tell now j)) := by
  unfold step
  dsimp only
  split
  case h_2 => exact h
  next a acts hj =>
  obtain ⟨hothers, hphase⟩ := h
  have hij : j = i := by
    by_contra hne
    cases hothers j _ hj hne
  subst hij
  obtain ⟨m, -, hi⟩ | ⟨acts', hi, hup⟩ := hphase
  · cases hi.symm.trans hj
  · cases hi.symm.trans hj
    have htold := told_tell (n := { n with calls := n.calls.set j (.telling acts) }) now hclosed a
    refine ⟨?_, .inr ⟨acts, ?_, UpTo.told (n := { n with calls := _ }) ?_ htold⟩⟩
    · rw [htold.calls]
      exact others_set hothers
    · rw [htold.calls]
      exact List.getElem?_set_self (List.getElem?_eq_some_iff.mp hj).1
    · exact ⟨hup.ready, hup.due, hup.done⟩

/-- **The step lemma of the last reconciliation.** -/
theorem Phase.step (h : Phase node i n) (hsane : Sane node n) {e : Event}
    (hon : e.On node) (hquiet : e.Quiet) : Phase node i (n.step e) := by
  obtain ⟨m, hm⟩ := Option.ne_none_iff_exists'.mp hsane.ctrl
  cases e with
  | commit cmd => cases hquiet
  | localLog set topic p => exact h.of_keeps (keeps_localLog hm topic p)
  | replicaLog set topic p => exact h.of_keeps (keeps_openLocked _ topic p)
  | list => cases hquiet
  | look set j => exact h.look hon hquiet
  | tell now j => exact h.tell hsane.closed now
  | advance j => exact h.of_fetchers (advance_eq n.repl j).1
  | fetch j ok => exact h.of_fetchers rfl

theorem sane_start (hctrl : b.ctrl = some m) : Sane node (start b) :=
  ⟨rfl, by simp [start, hctrl], fun _ hk => absurd rfl hk, by simp [start]⟩

/-- When the topics are read while no other reconciliation is under way. -/
theorem phase_list (hsane : Sane node n) (hidle : n.Idle) :
    Phase node n.calls.length (n.step .list) := by
  obtain ⟨m, hm⟩ := Option.ne_none_iff_exists'.mp hsane.ctrl
  unfold Follower.step
  rw [hm]
  refine ⟨fun j c hj hne => ?_, .inl ⟨m, hm, List.getElem?_concat_length⟩⟩
  obtain ⟨hlt, hget⟩ := List.getElem?_eq_some_iff.mp hj
  dsimp only at hlt hget
  rw [List.length_append, List.length_singleton] at hlt
  rw [List.getElem_append_left (by omega)] at hget
  exact hidle c (hget ▸ List.getElem_mem _)

/-- **Fetchers follow the metadata.**  In any interleaving of commands, requests, fetchers and
reconciliations, a fetcher is registered only for a partition with more than one replica, one of
them on this node, whose log is open and on hold.  Once a reconciliation that started while no
other was under way is finished, and the metadata has not changed since then, the fetchers are
those of the partitions that another node leads, every log is open, and the time since which this
node leads is noted for the others. -/
theorem inStep_of_reconciled {b : Holdings} {m : MetaState} (hctrl : b.ctrl = some m)
    (es rest : List Event) (hon : ∀ e ∈ es ++ rest, e.On node) :
    Sane node (run step (start b) es) ∧
    ((run step (start b) es).Idle → (∀ e ∈ rest, e.Quiet) →
      (run step (start b) (es ++ .list :: rest)).Idle →
      InStep node (run step (start b) (es ++ .list :: rest))) := by
  have hbefore : Along step (fun _ e => e.On node) (start b) es :=
    along_of_forall fun e he => hon e (List.mem_append_left rest he)
  have hsane : Sane node (run step (start b) es) :=
    (hbefore.always (sane_start hctrl) fun _ _ h he => h.step he).final
  refine ⟨hsane, fun hidle hquiet hdone => ?_⟩
  rw [run_append, run_cons] at hdone ⊢
  have hafter : Along step (fun _ e => e.On node ∧ e.Quiet)
      ((run step (start b) es).step .list) rest :=
    along_of_forall fun e he => ⟨hon e (List.mem_append_right es he), hquiet e he⟩
  have hboth := (hafter.always (P := fun n => Sane node n ∧ Phase node _ n)
    ⟨hsane.list, phase_list hsane hidle⟩
    fun _ _ h he => ⟨h.1.step he.1, h.2.step h.1 he.1 he.2⟩).final
  obtain ⟨hsane', -, ⟨m', -, hi⟩ | ⟨acts, hi, hup⟩⟩ := hboth
  · cases hdone _ (List.mem_of_getElem? hi)
  · cases hdone _ (List.mem_of_getElem? hi)
    exact hup.inStep hsane'

/-- A node where every log can be opened. -/
def ready : Setting where
  self := 1
  numPartitions := 1
  isLeader := fun _ _ => true
  replicasFor := fun _ _ => [1, 2]
  openLog := fun _ _ => some (Log.create ⟨2048, 64⟩ 0)
  accurate := by
    intro topic p l h
    cases h
    exact accurate_create _ _
  commits := fun _ => true
  now := 5

/-- A topic with three partitions, of which the second is followed at first and then led. -/
def created : Command :=
  { type := .createTopic, topic := [116], replicas := [[1, 2], [2, 1], [1]] }

def promoted : Command :=
  { type := .changeLeader, topic := [116], partition := 1, leader := 1, isr := [1] }

/-- Two reconciliations overlap.  The second reads the topics before the leader changes, and tells
the fetchers after the first has started one. -/
def overlappingEvents : List Event :=
  [.commit created, .list, .look ready 0, .list, .tell 5 0, .commit promoted, .look ready 1,
    .tell 6 1, .tell 6 0, .tell 7 1, .fetch 0 true]

/-- A reconciliation on its own. -/
def lastEvents : List Event :=
  [.localLog ready [116] 2, .look ready 2, .tell 8 2, .fetch 0 true, .tell 8 2, .advance 0]

theorem inStep_of_reconciled_overlapping :
    (run step (start ⟨∅, some .empty, ∅, ∅⟩) overlappingEvents).repl.fetchers.lookup ([116], 1)
      = some 0 ∧
    InStep 1 (run step (start ⟨∅, some .empty, ∅, ∅⟩) (overlappingEvents ++ .list :: lastEvents)) ∧
    (run step (start ⟨∅, some .empty, ∅, ∅⟩)
      (overlappingEvents ++ .list :: lastEvents)).leadSince.lookup ([116], 1) = some 8 := by
  refine ⟨by decide +kernel, ?_, by decide +kernel⟩
  refine (inStep_of_reconciled (m := .empty) rfl overlappingEvents lastEvents ?_).2 ?_ ?_ ?_
  · simp [overlappingEvents, lastEvents, Event.On, ready]
  · unfold Idle
    decide +kernel
  · simp [lastEvents, Event.Quiet, ready]
  · unfold Idle
    decide +kernel

end Follower

end Mq
