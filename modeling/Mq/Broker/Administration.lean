import Mq.Broker.Registration

/-!
# Creating topics and partitions in a cluster

`CreateTopic` and `CreatePartitions` of `internal/broker/broker.go` with a controller.  A
call reads the metadata that its own node has applied, which may lag behind, and either
returns an error or proposes a command; the command is committed after others that may have
been proposed meanwhile, and the call returns what came of it.  A growth is proposed as the
replica sets to add, so what it leads to depends on the count that it is applied to, and a
creation that finds the topic existing when it is applied is reported as a success.

## Main definitions

* `Op`, `spec` — the two operations on a topic's count, and what they are to do.
* `propose`, `conclude` — what a call does with the metadata that it reads, before and after
  its command is committed.
* `Admin`, `Event`, `Admin.step` — the committed commands and the calls under way.
* `Linearizable` — the calls that have returned, and the committed count, are those of a
  sequential execution that agrees with the order in time.

## Main results

* `size_step` — what a command does to the number of a topic's partitions.
* `call_alone` — **a call that runs alone** is a proposal, its commit and its conclusion.
* `administration_linearizable` — **if growths are applied to the count they were computed
  from, and no creation is reported that was refused, the calls are linearizable.**
* `count_exceeds_requests` — otherwise two growths add up, and two creations succeed.
-/

namespace Mq
namespace Administration

open Word Transition Controller

/-! ### The number of partitions -/

/-- The number of partitions of a topic. -/
def size (s : MetaState) (name : Bytes) : Option ℕ := (s.topics.lookup name).map (·.parts.length)

/-- The stored number of partitions, as `FSM.Partitions` reports it. -/
def count (s : MetaState) (name : Bytes) : Option ℤ := (s.topics.lookup name).map (·.partitions)

/-- What a command does to the number of partitions of its topic. -/
def resize (c : Command) (k : Option ℕ) : Option ℕ :=
  match c.type with
  | .createTopic => some (k.getD c.replicas.length)
  | .createPartitions => k.map (· + c.replicas.length)
  | _ => k

theorem size_setParts (s : MetaState) (topic name : Bytes) (parts : List PartitionMeta) :
    size (s.setParts topic parts) name = if name = topic then some parts.length else size s name := by
  rw [size, MetaState.setParts, Table.lookup_insert_ite]
  split <;> rfl

theorem size_setPartition (s : MetaState) (topic name : Bytes) (p : ℤ) (pm : PartitionMeta) :
    size (s.setPartition topic p pm) name = size s name := by
  rw [MetaState.setPartition]
  cases hl : s.topics.lookup topic with
  | none => rfl
  | some t =>
    rw [size, Table.lookup_insert_ite]
    split
    · next h => rw [h, size, hl, Option.map_some, Option.map_some, List.length_set]
    · rfl

/-- **What a command does to the number of partitions.** -/
theorem size_step (s : MetaState) (c : Command) (name : Bytes) :
    size (s.step c) name = if c.topic = name then resize c (size s name) else size s name := by
  rw [MetaState.step, MetaState.applyLocked]
  rcases c with ⟨type, topic, partition, replicas, leader, isr, segment, cutoff⟩
  dsimp only
  cases type with
  | createTopic =>
    cases hl : s.topics.lookup topic with
    | some t =>
      by_cases h : topic = name
      · subst h
        simp [resize, size, hl]
      · rw [if_neg h]
    | none =>
      rw [size_setParts]
      by_cases h : topic = name
      · subst h
        simp [resize, size, hl, partsFromReplicas]
      · rw [if_neg h, if_neg (Ne.symm h)]
  | createPartitions =>
    cases hl : s.topics.lookup topic with
    | none =>
      by_cases h : topic = name
      · subst h
        simp [resize, size, hl]
      · rw [if_neg h]
    | some t =>
      rw [size_setParts]
      by_cases h : topic = name
      · subst h
        simp [resize, size, hl, partsFromReplicas]
      · rw [if_neg h, if_neg (Ne.symm h)]
  | changeLeader | changeISR =>
    dsimp only [resize]
    cases s.partition topic partition with
    | error e => exact (ite_self _).symm
    | ok pm => rw [size_setPartition, ite_self]
  | commitSegment =>
    cases segment with
    | none => exact (ite_self _).symm
    | some ref => exact (ite_self _).symm
  | pruneSegments | heartbeat | unknown => exact (ite_self _).symm

/-- A topic never gets fewer partitions. -/
theorem size_run {s : MetaState} {name : Bytes} {k : ℕ} (h : size s name = some k)
    (cs : List Command) : ∃ k', size (run MetaState.step s cs) name = some k' ∧ k ≤ k' := by
  induction cs generalizing s k with
  | nil => exact ⟨k, h, le_rfl⟩
  | cons c cs ih =>
    have hstep : ∃ k₁, size (s.step c) name = some k₁ ∧ k ≤ k₁ := by
      rw [size_step, h]
      split
      · rw [resize]
        split
        · exact ⟨k, rfl, le_rfl⟩
        · exact ⟨k + c.replicas.length, rfl, Nat.le_add_right _ _⟩
        · exact ⟨k, rfl, le_rfl⟩
      · exact ⟨k, rfl, le_rfl⟩
    obtain ⟨k₁, hk₁, hle⟩ := hstep
    obtain ⟨k', hk', hle'⟩ := ih hk₁
    exact ⟨k', hk', hle.trans hle'⟩

theorem counted_run (cs : List Command) : (run MetaState.step .empty cs).Counted := by
  induction cs using List.reverseRecOn with
  | nil => exact fun _ _ h => by cases h
  | append_singleton cs c ih =>
    rw [run_snoc]
    exact ih.step c

/-- The stored number is the number of partitions, in 32 bits. -/
theorem count_eq {s : MetaState} (h : s.Counted) (name : Bytes) :
    count s name = (size s name).map fun k : ℕ => wrap32 k := by
  rw [count, size, Option.map_map]
  cases hl : s.topics.lookup name with
  | none => rfl
  | some t => exact congrArg some (h name t hl)

/-! ### The operations -/

/-- The calls for the topic: create it with so many partitions, or let it grow to so
many. -/
inductive Op
  | createTopic (n : ℤ)
  | createPartitions (n : ℤ)
  deriving DecidableEq, Repr

/-- The count that is asked for. -/
def Op.target : Op → ℤ
  | .createTopic n | .createPartitions n => n

/-- What the operations are to do with the topic's count, and whether they succeed. -/
def spec : Option ℤ → Op → Option ℤ × Bool
  | none, .createTopic n => (some n, true)
  | some c, .createTopic _ => (some c, false)
  | none, .createPartitions _ => (none, false)
  | some c, .createPartitions n => if c < n then (some n, true) else (some c, false)

/-- The surroundings of the nodes, and the topic that the calls are about. -/
structure Config extends Setting where
  name : Bytes

variable (cfg : Config)

/-- The call for the topic. -/
def Op.call : Op → Catalog.Call
  | .createTopic n => .createTopic cfg.name n
  | .createPartitions n => .createPartitions cfg.name n

/-- The command that a call proposes after it has read the metadata `s`; without one it
returns an error. -/
def propose (s : MetaState) : Op → Option Command
  | .createTopic n =>
    match count s cfg.name with
    | some _ => none
    | none => some (Holdings.createCommand cfg.toSetting cfg.name n)
  | .createPartitions n =>
    match count s cfg.name with
    | none => none
    | some cur =>
      if n ≤ cur then none else some (Holdings.growCommand cfg.toSetting cfg.name cur n)

/-- What a call returns when its command has been applied with this result: a topic that
exists in the metadata `s` counts as created. -/
def conclude (s : MetaState) (err : Option Err) : Op → Bool
  | .createTopic _ => err.isNone || (count s cfg.name).isSome
  | .createPartitions _ => err.isNone

variable {cfg}

/-- A command that is committed is applied, and fails with the metadata as it is. -/
theorem apply_eq {b : Holdings} {m : MetaState} (hctrl : b.ctrl = some m) {cmd : Command}
    (hcommits : cfg.commits cmd = true) :
    ∃ b', Holdings.apply cfg.toSetting b cmd = (b', (m.applyLocked cmd).2.isNone) ∧
      b'.ctrl = some (m.step cmd) := by
  rw [Holdings.apply, hctrl]
  dsimp only
  rw [if_pos hcommits]
  have herror := (Effect.step m cmd).2
  rw [MetaState.step] at herror ⊢
  rcases hres : m.applyLocked cmd with ⟨m', _ | e⟩ <;> rw [hres] at herror
  · exact ⟨_, rfl, rfl⟩
  · exact ⟨b, rfl, hctrl.trans (congrArg some (herror (Option.some_ne_none e)).symm)⟩

/-- **A call that runs alone.**  It is refused, or its command is committed, and it returns
what is concluded from the metadata that the command leads to. -/
theorem call_alone {b : Holdings} {m : MetaState} (hctrl : b.ctrl = some m) (op : Op)
    (hcommits : ∀ cmd ∈ propose cfg m op, cfg.commits cmd = true) :
    match propose cfg m op with
    | none => b.call cfg.toSetting (op.call cfg) = (b, false)
    | some cmd =>
      (b.call cfg.toSetting (op.call cfg)).1.ctrl = some (m.step cmd) ∧
        (b.call cfg.toSetting (op.call cfg)).2
          = conclude cfg (m.step cmd) (m.applyLocked cmd).2 op := by
  have hreconciled : ∀ b' : Holdings,
      (Holdings.reconcileFromFSM cfg.toSetting b').ctrl = b'.ctrl :=
    fun b' => (Holdings.opens_reconcileFromFSM b').ctrl
  cases op with
  | createTopic n =>
    simp only [propose, count, Op.call, Holdings.call, Holdings.createTopic, Holdings.knows, hctrl]
      at hcommits ⊢
    cases hname : m.topics.lookup cfg.name with
    | some t => rfl
    | none =>
      rw [hname] at hcommits
      obtain ⟨b', happly, hb'⟩ := apply_eq hctrl (hcommits _ rfl)
      have hknows : ∀ m', (count m' cfg.name).isSome = (m'.topics.lookup cfg.name).isSome :=
        fun m' => Option.isSome_map
      simp only [Option.map_none, Option.isSome_none, Bool.false_eq_true, if_false,
        Holdings.proposeCreate, happly, conclude, hknows]
      cases (m.applyLocked (Holdings.createCommand cfg.toSetting cfg.name n)).2 with
      | none => exact ⟨(hreconciled b').trans hb', rfl⟩
      | some e =>
        simp only [Option.isNone_some, Holdings.knows, hb']
        split
        · next hfound => exact ⟨(hreconciled b').trans hb', by rw [hfound]; rfl⟩
        · next hlost => exact ⟨hb', by simpa using hlost⟩
  | createPartitions n =>
    simp only [propose, count, Op.call, Holdings.call, Holdings.createPartitions, hctrl]
      at hcommits ⊢
    cases hname : m.topics.lookup cfg.name with
    | none => rfl
    | some t =>
      simp only [hname, Option.map_some] at hcommits ⊢
      by_cases hle : n ≤ t.partitions
      · rw [if_pos hle, if_pos hle]
      · rw [if_neg hle] at hcommits
        obtain ⟨b', happly, hb'⟩ := apply_eq hctrl (hcommits _ rfl)
        simp only [if_neg hle, happly, conclude]
        cases (m.applyLocked (Holdings.growCommand cfg.toSetting cfg.name t.partitions n)).2 with
        | none => exact ⟨(hreconciled b').trans hb', rfl⟩
        | some e => exact ⟨hb', rfl⟩

variable (cfg)

/-! ### Calls under way -/

inductive Status
  /-- The command has been proposed. -/
  | proposed (cmd : Command)
  /-- The command has been committed and applied. -/
  | applied (err : Option Err)
  | returned (ok : Bool) (time : ℕ)
  deriving DecidableEq, Repr

structure Call where
  op : Op
  /-- When the call was made. -/
  invoked : ℕ
  /-- The count that the call has read. -/
  seen : Option ℤ
  status : Status
  deriving DecidableEq, Repr

/-- The committed commands, and the calls in the order in which they were made. -/
structure Admin where
  log : List Command
  calls : List Call
  /-- The number of events so far. -/
  now : ℕ

inductive Event
  /-- A call on a node that has applied the first `view` commands. -/
  | invoke (op : Op) (view : ℕ)
  /-- The command of a call is committed. -/
  | commit (i : ℕ)
  /-- A call whose command has been applied returns, on a node that has applied the first
  `view` commands. -/
  | finish (i : ℕ) (view : ℕ)
  /-- Another command is committed, which does not resize the topic. -/
  | other (cmd : Command)
  deriving DecidableEq, Repr

/-- The command may change the number of the topic's partitions. -/
def Resizes (cmd : Command) (name : Bytes) : Prop :=
  cmd.topic = name ∧ (cmd.type = .createTopic ∨ cmd.type = .createPartitions)

instance (cmd : Command) (name : Bytes) : Decidable (Resizes cmd name) :=
  inferInstanceAs (Decidable (_ ∧ _))

namespace Admin

def empty : Admin := ⟨[], [], 0⟩

/-- The metadata of a node that has applied the first `view` commands. -/
def view (a : Admin) (view : ℕ) : MetaState := run MetaState.step .empty (a.log.take view)

/-- The committed metadata. -/
def state (a : Admin) : MetaState := run MetaState.step .empty a.log

/-- A call gets a new status. -/
def update (a : Admin) (i : ℕ) (c : Call) (st : Status) : Admin :=
  { a with calls := a.calls.set i { c with status := st } }

/-- The effect of an event. -/
def react (a : Admin) : Event → Admin
  | .invoke op view =>
    let s := a.view view
    let st := match propose cfg s op with
      | none => .returned false a.now
      | some cmd => .proposed cmd
    { a with calls := a.calls ++ [⟨op, a.now, count s cfg.name, st⟩] }
  | .commit i =>
    match a.calls[i]? with
    | some c =>
      match c.status with
      | .proposed cmd =>
        { a with log := a.log ++ [cmd] }.update i c (.applied (a.state.applyLocked cmd).2)
      | _ => a
    | none => a
  | .finish i view =>
    match a.calls[i]? with
    | some c =>
      match c.status with
      | .applied err => a.update i c (.returned (conclude cfg (a.view view) err c.op) a.now)
      | _ => a
    | none => a
  | .other cmd => if Resizes cmd cfg.name then a else { a with log := a.log ++ [cmd] }

def step (a : Admin) (e : Event) : Admin := { a.react cfg e with now := a.now + 1 }

/-- The one call has returned before the other was made. -/
def Precedes (a : Admin) (i j : ℕ) : Prop :=
  ∃ c d ok t, a.calls[i]? = some c ∧ c.status = .returned ok t ∧ a.calls[j]? = some d ∧ t < d.invoked

end Admin

/-! ### Linearizability -/

/-- A call in a sequential execution. -/
structure Done where
  id : ℕ
  op : Op
  ok : Bool

/-- There is a sequential execution of the operations that has the results of all calls that
have returned and ends in the committed count.  It may have calls that are still to return,
and it agrees with the order in time. -/
def Linearizable (a : Admin) : Prop :=
  ∃ order : List Done, (order.map Done.id).Nodup ∧
    (∀ i c ok t, a.calls[i]? = some c → c.status = .returned ok t → ∃ d ∈ order, d.id = i) ∧
    (∀ d ∈ order, ∃ c, a.calls[d.id]? = some c ∧ c.op = d.op ∧
      ∀ ok t, c.status = .returned ok t → d.ok = ok) ∧
    order.Pairwise (fun d e => ¬ a.Precedes e.id d.id) ∧
    replies spec none (order.map Done.op) = order.map Done.ok ∧
    run (effect spec) none (order.map Done.op) = count a.state cfg.name

/-- The call was to create the topic, and has returned without an error. -/
def Call.Created (c : Call) : Prop := (∃ n, c.op = .createTopic n) ∧ ∃ t, c.status = .returned true t

/-- Of several creations at most one succeeds. -/
def OneCreation (a : Admin) : Prop :=
  ∀ (i j : ℕ) (c d : Call), a.calls[i]? = some c → a.calls[j]? = some d →
    c.Created → d.Created → i = j

/-- The committed count has been asked for. -/
def Bounded (a : Admin) : Prop :=
  ∀ n, count a.state cfg.name = some n → ∃ c ∈ a.calls, n ≤ c.op.target

/-- A successful creation. -/
def Done.Creates (d : Done) : Prop := (∃ n, d.op = .createTopic n) ∧ d.ok = true

/-- With a topic there is no successful creation. -/
theorem not_creates_of_some {order : List Done} {c : ℤ}
    (h : replies spec (some c) (order.map Done.op) = order.map Done.ok) :
    ∀ d ∈ order, ¬ d.Creates := by
  induction order generalizing c with
  | nil => exact fun _ hd => absurd hd List.not_mem_nil
  | cons e order ih =>
    rw [List.map_cons, List.map_cons, replies] at h
    obtain ⟨hok, hrest⟩ := List.cons.inj h
    have hnext : ∃ c', (spec (some c) e.op).1 = some c' := by
      cases e.op with
      | createTopic n => exact ⟨c, rfl⟩
      | createPartitions n =>
        rw [spec]
        split
        · exact ⟨n, rfl⟩
        · exact ⟨c, rfl⟩
    obtain ⟨c', hc'⟩ := hnext
    rw [hc'] at hrest
    refine List.forall_mem_cons.mpr ⟨?_, ih hrest⟩
    rintro ⟨⟨n, hn⟩, htrue⟩
    rw [hn, htrue] at hok
    cases hok

theorem pairwise_creates {order : List Done} {s : Option ℤ}
    (h : replies spec s (order.map Done.op) = order.map Done.ok) :
    order.Pairwise fun d e => ¬ (d.Creates ∧ e.Creates) := by
  induction order generalizing s with
  | nil => exact List.Pairwise.nil
  | cons d order ih =>
    rw [List.map_cons, List.map_cons, replies] at h
    obtain ⟨hok, hrest⟩ := List.cons.inj h
    refine List.pairwise_cons.mpr ⟨?_, ih hrest⟩
    rintro e he ⟨⟨⟨n, hn⟩, htrue⟩, hcreates⟩
    rw [hn, htrue] at hok
    cases s with
    | some c => cases hok
    | none =>
      rw [hn] at hrest
      exact not_creates_of_some hrest e he hcreates

/-- The count after a sequential execution is the one it starts with, or was asked for. -/
theorem run_spec_eq {ops : List Op} {s : Option ℤ} {n : ℤ} (h : run (effect spec) s ops = some n) :
    s = some n ∨ ∃ op ∈ ops, op.target = n := by
  induction ops generalizing s with
  | nil => exact .inl h
  | cons op ops ih =>
    rcases ih h with hstep | ⟨op', hmem, htarget⟩
    · rw [effect] at hstep
      cases s with
      | none =>
        cases op with
        | createTopic m =>
          cases hstep
          exact .inr ⟨_, List.mem_cons_self, rfl⟩
        | createPartitions m => cases hstep
      | some c =>
        cases op with
        | createTopic m => exact .inl hstep
        | createPartitions m =>
          rw [spec] at hstep
          split at hstep
          · cases hstep
            exact .inr ⟨_, List.mem_cons_self, rfl⟩
          · exact .inl hstep
    · exact .inr ⟨op', List.mem_cons_of_mem op hmem, htarget⟩

variable {cfg}

theorem Linearizable.oneCreation {a : Admin} (h : Linearizable cfg a) : OneCreation a := by
  obtain ⟨order, -, hall, hmem, -, hreplies, -⟩ := h
  -- a call that has created the topic stands in the order as a successful creation
  have hcreates : ∀ (i : ℕ) (c : Call), a.calls[i]? = some c → c.Created →
      ∃ d ∈ order, d.id = i ∧ d.Creates := by
    rintro i c hc ⟨⟨n, hop⟩, t, hstatus⟩
    obtain ⟨d, hd, rfl⟩ := hall i c true t hc hstatus
    obtain ⟨c', hc', hop', hok⟩ := hmem d hd
    rw [hc] at hc'
    cases hc'
    exact ⟨d, hd, rfl, ⟨n, hop' ▸ hop⟩, hok true t hstatus⟩
  intro i j c c' hi hj hcreated hcreated'
  obtain ⟨d, hd, rfl, hdc⟩ := hcreates i c hi hcreated
  obtain ⟨e, he, rfl, hec⟩ := hcreates j c' hj hcreated'
  by_contra hne
  have : Std.Symm fun d e : Done => ¬ (d.Creates ∧ e.Creates) :=
    ⟨fun d e hde hed => hde hed.symm⟩
  have hde : d ≠ e := fun heq => hne (congrArg Done.id heq)
  exact (pairwise_creates hreplies).forall hd he hde ⟨hdc, hec⟩

theorem Linearizable.bounded {a : Admin} (h : Linearizable cfg a) : Bounded cfg a := by
  obtain ⟨order, -, -, hmem, -, -, hrun⟩ := h
  intro n hn
  rw [hn] at hrun
  rcases run_spec_eq hrun with hnone | ⟨op, hop, htarget⟩
  · cases hnone
  · obtain ⟨d, hd, rfl⟩ := List.mem_map.mp hop
    obtain ⟨c, hc, hcop, -⟩ := hmem d hd
    exact ⟨c, List.mem_of_getElem? hc, by rw [hcop, htarget]⟩

/-! ### The order in which calls take effect -/

/-- A call that has taken effect, and when: when its command was committed, or when it was
refused. -/
structure Point extends Done where
  time : ℕ

/-- What is known of a call that has taken effect. -/
structure Decided (now : ℕ) (d : Point) (c : Call) : Prop where
  op : c.op = d.op
  after : c.invoked ≤ d.time
  past : d.time < now
  committed : ∀ cmd, c.status ≠ .proposed cmd
  applied : ∀ err, c.status = .applied err → d.ok = err.isNone
  returned : ∀ ok t, c.status = .returned ok t → d.ok = ok ∧ d.time ≤ t

/-- What is known of a call whose command is on its way. -/
def Pending (cfg : Config) (c : Call) (cmd : Command) : Prop :=
  cmd.topic = cfg.name ∧
    match c.op with
    | .createTopic n =>
      cmd.type = .createTopic ∧ 1 ≤ n ∧ n < 2147483648 ∧ (cmd.replicas.length : ℤ) = n
    | .createPartitions n =>
      cmd.type = .createPartitions ∧ n < 2147483648 ∧
        ∃ cur, c.seen = some cur ∧ cur < n ∧ (cmd.replicas.length : ℤ) = n - cur

/-- The calls have taken effect one after the other, as the specification says. -/
structure Ordered (cfg : Config) (a : Admin) (order : List Point) : Prop where
  ids : (order.map (·.id)).Nodup
  times : order.Pairwise fun d e => d.time < e.time
  decided : ∀ d ∈ order, ∃ c, a.calls[d.id]? = some c ∧ Decided a.now d c
  complete : ∀ (i : ℕ) (c : Call), a.calls[i]? = some c → (∀ cmd, c.status ≠ .proposed cmd) →
    ∃ d ∈ order, d.id = i
  pending : ∀ (i : ℕ) (c : Call) (cmd : Command), a.calls[i]? = some c →
    c.status = .proposed cmd → c.invoked ≤ a.now ∧ Pending cfg c cmd
  results : replies spec none (order.map (·.op)) = order.map (·.ok)
  final : run (effect spec) none (order.map (·.op)) = count a.state cfg.name
  sized : ∀ k, size a.state cfg.name = some k → 1 ≤ k ∧ k < 2147483648

theorem Ordered.linearizable {a : Admin} {order : List Point} (h : Ordered cfg a order) :
    Linearizable cfg a := by
  refine ⟨order.map (·.toDone), ?_, ?_, ?_, ?_, ?_, ?_⟩
  · rw [List.map_map]
    exact h.ids
  · intro i c ok t hc hstatus
    obtain ⟨d, hd, hid⟩ := h.complete i c hc (by simp [hstatus])
    exact ⟨d.toDone, List.mem_map_of_mem hd, hid⟩
  · intro d hd
    obtain ⟨p, hp, rfl⟩ := List.mem_map.mp hd
    obtain ⟨c, hc, hdec⟩ := h.decided p hp
    exact ⟨c, hc, hdec.op, fun ok t hstatus => (hdec.returned ok t hstatus).1⟩
  · rw [List.pairwise_map]
    refine h.times.imp_of_mem ?_
    rintro d e hd he hlt ⟨c, c', ok, t, hc, hstatus, hc', hprec⟩
    -- the later of the two takes effect before it returns, the earlier after it was made
    obtain ⟨ce, hce, hdec⟩ := h.decided e he
    obtain ⟨cd, hcd, hdec'⟩ := h.decided d hd
    rw [hc] at hce
    rw [hc'] at hcd
    cases hce
    cases hcd
    have hreturn := (hdec.returned ok t hstatus).2
    have hinvoke := hdec'.after
    omega
  · rw [List.map_map, List.map_map]
    exact h.results
  · rw [List.map_map]
    exact h.final

theorem ordered_empty : Ordered cfg .empty [] where
  ids := List.nodup_nil
  times := List.Pairwise.nil
  decided := fun _ hd => absurd hd List.not_mem_nil
  complete := fun i c hc => by cases hc
  pending := fun i c cmd hc => by cases hc
  results := rfl
  final := rfl
  sized := fun k hk => by cases hk

/-! ### Reading the metadata -/

theorem Admin.counted_state (a : Admin) : a.state.Counted := counted_run _

theorem Admin.counted_view (a : Admin) (view : ℕ) : (a.view view).Counted := counted_run _

/-- What a node reads was committed. -/
theorem size_view {a : Admin} {view k : ℕ} (h : size (a.view view) cfg.name = some k) :
    ∃ k', size a.state cfg.name = some k' ∧ k ≤ k' := by
  have hsplit : a.state = run MetaState.step (a.view view) (a.log.drop view) := by
    rw [Admin.view, ← run_append, List.take_append_drop]
    rfl
  rw [hsplit]
  exact size_run h _

namespace Ordered

variable {a : Admin} {order : List Point}

/-- The stored number is the number of partitions. -/
theorem count_of_size (h : Ordered cfg a order) {k : ℕ} (hk : size a.state cfg.name = some k) :
    count a.state cfg.name = some (k : ℤ) := by
  have hlt := (h.sized k hk).2
  rw [count_eq a.counted_state, hk, Option.map_some, wrap32_eq (by omega) (by omega)]

theorem size_of_count (h : Ordered cfg a order) {c : ℤ}
    (hc : count a.state cfg.name = some c) :
    ∃ k : ℕ, size a.state cfg.name = some k ∧ c = k := by
  cases hk : size a.state cfg.name with
  | none =>
    rw [count_eq a.counted_state, hk] at hc
    cases hc
  | some k =>
    rw [h.count_of_size hk] at hc
    exact ⟨k, rfl, (Option.some.inj hc).symm⟩

/-- A count that a node reads is not above the committed one. -/
theorem count_view (h : Ordered cfg a order) {view : ℕ} {c : ℤ}
    (hc : count (a.view view) cfg.name = some c) :
    ∃ c', count a.state cfg.name = some c' ∧ c ≤ c' := by
  rw [count_eq (a.counted_view view)] at hc
  obtain ⟨k, hk, rfl⟩ := Option.map_eq_some_iff.mp hc
  obtain ⟨k', hk', hle⟩ := size_view hk
  have hlt := (h.sized k' hk').2
  exact ⟨k', h.count_of_size hk', by rw [wrap32_eq (by omega) (by omega)]; omega⟩

end Ordered

/-! ### Lists of calls -/

/-- The list is `l` with the call `x` in the place `i`. -/
def Placed (l l' : List Call) (i : ℕ) (x : Call) : Prop :=
  ∀ j y, l'[j]? = some y ↔ j = i ∧ y = x ∨ j ≠ i ∧ l[j]? = some y

theorem placed_snoc (l : List Call) (x : Call) : Placed l (l ++ [x]) l.length x := by
  intro j y
  rcases Nat.lt_trichotomy j l.length with hlt | rfl | hgt
  · simp [List.getElem?_append_left hlt, Nat.ne_of_lt hlt]
  · simp [eq_comm]
  · have hnone : l[j]? = none := List.getElem?_eq_none_iff.mpr (Nat.le_of_lt hgt)
    have hnone' : (l ++ [x])[j]? = none := List.getElem?_eq_none_iff.mpr (by simp; omega)
    simp [hnone, hnone', Nat.ne_of_gt hgt]

theorem placed_set {l : List Call} {i : ℕ} (hi : i < l.length) (x : Call) :
    Placed l (l.set i x) i x := by
  intro j y
  rw [List.getElem?_set]
  by_cases hij : i = j
  · subst hij
    simp [hi, eq_comm]
  · have hji : j ≠ i := fun heq => hij heq.symm
    simp [hij, hji]

/-! ### What is asked of the events -/

/-- The count of the call is an `int32`. -/
def Event.Fits : Event → Prop
  | .invoke op _ => op.target < 2147483648
  | _ => True

instance : DecidablePred Event.Fits
  | .invoke op _ => inferInstanceAs (Decidable (op.target < 2147483648))
  | .commit _ | .finish _ _ | .other _ => inferInstanceAs (Decidable True)

/-- A growth whose command is on its way. -/
def Call.growing (c : Call) : Bool :=
  match c.op, c.status with
  | .createPartitions _, .proposed _ => true
  | _, _ => false

/-- A creation that the state machine has refused. -/
def Call.refused (c : Call) : Bool :=
  match c.op, c.status with
  | .createTopic _, .applied (some _) => true
  | _, _ => false

/-- A topic is created with a positive count; a call that finds no topic to grow has not
overlooked it; a growth is committed on the count that it was computed from; and a creation
that was refused returns on a node that has not applied the other one yet. -/
def Current (cfg : Config) (a : Admin) : Event → Prop
  | .invoke (.createTopic n) _ => 1 ≤ n
  | .invoke (.createPartitions _) view =>
    count (a.view view) cfg.name = none → count a.state cfg.name = none
  | .commit i => ∀ c ∈ a.calls[i]?, c.growing = true → count a.state cfg.name = c.seen
  | .finish i view =>
    ∀ c ∈ a.calls[i]?, c.refused = true → count (a.view view) cfg.name = none
  | .other _ => True

instance (a : Admin) : DecidablePred (Current cfg a)
  | .invoke (.createTopic n) _ => inferInstanceAs (Decidable (1 ≤ n))
  | .invoke (.createPartitions _) _ => inferInstanceAs (Decidable (_ → _))
  | .commit i => inferInstanceAs (Decidable (∀ c ∈ a.calls[i]?, _))
  | .finish i _ => inferInstanceAs (Decidable (∀ c ∈ a.calls[i]?, _))
  | .other _ => inferInstanceAs (Decidable True)

namespace Ordered

variable {a : Admin} {order : List Point} (h : Ordered cfg a order)
include h

/-- Time passes. -/
theorem tick : Ordered cfg { a with now := a.now + 1 } order where
  ids := h.ids
  times := h.times
  decided := fun d hd => by
    obtain ⟨c, hc, hdec⟩ := h.decided d hd
    exact ⟨c, hc, { hdec with past := Nat.lt_succ_of_lt hdec.past }⟩
  complete := h.complete
  pending := fun i c cmd hc hstatus =>
    ⟨Nat.le_succ_of_le (h.pending i c cmd hc hstatus).1, (h.pending i c cmd hc hstatus).2⟩
  results := h.results
  final := h.final
  sized := h.sized

/-- One more call takes effect. -/
theorem replies_snoc {p : Point} {s : Option ℤ}
    (hspec : spec (count a.state cfg.name) p.op = (s, p.ok)) :
    replies spec none ((order ++ [p]).map (·.op)) = (order ++ [p]).map (·.ok) ∧
      run (effect spec) none ((order ++ [p]).map (·.op)) = s := by
  rw [List.map_append, List.map_append, replies_append, run_append, h.final, h.results]
  constructor
  · rw [List.map_singleton, replies, hspec]
    rfl
  · rw [List.map_singleton, run_cons, run_nil, effect, hspec]

theorem times_snoc {p : Point} (hp : p.time = a.now) :
    (order ++ [p]).Pairwise fun d e => d.time < e.time := by
  refine List.pairwise_append.mpr ⟨h.times, List.pairwise_singleton _ _, ?_⟩
  intro d hd e he
  obtain ⟨c, -, hdec⟩ := h.decided d hd
  rw [List.mem_singleton.mp he, hp]
  exact hdec.past

/-- A call that is refused at once does what the specification says. -/
theorem spec_of_refused {op : Op} {view : ℕ} (hcur : Current cfg a (.invoke op view))
    (hprop : propose cfg (a.view view) op = none) :
    spec (count a.state cfg.name) op = (count a.state cfg.name, false) := by
  cases op with
  | createTopic n =>
    rw [propose] at hprop
    cases hread : count (a.view view) cfg.name with
    | none =>
      rw [hread] at hprop
      cases hprop
    | some c =>
      obtain ⟨c', hc', -⟩ := h.count_view hread
      rw [hc']
      rfl
  | createPartitions n =>
    rw [propose] at hprop
    cases hread : count (a.view view) cfg.name with
    | none =>
      rw [hcur hread]
      rfl
    | some cur =>
      rw [hread] at hprop
      dsimp only at hprop
      split at hprop
      · next hle =>
        obtain ⟨c', hc', hcc⟩ := h.count_view hread
        rw [hc', spec, if_neg (by omega)]
      · cases hprop

variable {cmd : Command} {c : Call}

omit h in
/-- What a call proposes. -/
theorem pending_of_proposed {op : Op} {view : ℕ} (hfits : op.target < 2147483648)
    (hcur : Current cfg a (.invoke op view)) (hprop : propose cfg (a.view view) op = some cmd)
    (time : ℕ) : Pending cfg ⟨op, time, count (a.view view) cfg.name, .proposed cmd⟩ cmd := by
  cases op with
  | createTopic n =>
    rw [propose] at hprop
    cases hread : count (a.view view) cfg.name with
    | some c =>
      rw [hread] at hprop
      cases hprop
    | none =>
      rw [hread] at hprop
      cases hprop
      have hn : 1 ≤ n := hcur
      have hdef : Holdings.countFor cfg.toSetting n = n := if_neg (by omega)
      refine ⟨rfl, rfl, hn, hfits, ?_⟩
      rw [Holdings.createCommand, List.length_map, List.length_range, hdef, if_neg (by omega)]
      omega
  | createPartitions n =>
    rw [propose] at hprop
    cases hread : count (a.view view) cfg.name with
    | none =>
      rw [hread] at hprop
      cases hprop
    | some cur =>
      rw [hread] at hprop
      dsimp only at hprop
      split at hprop
      · cases hprop
      · next hgt =>
        cases hprop
        refine ⟨rfl, rfl, hfits, cur, rfl, not_le.mp hgt, ?_⟩
        rw [Holdings.growCommand, List.length_map, List.length_range]
        omega

/-- The state machine applies the command of a call as the specification says. -/
theorem spec_of_applied (hpend : Pending cfg c cmd)
    (hseen : (∃ n, c.op = .createPartitions n) → count a.state cfg.name = c.seen) :
    spec (count a.state cfg.name) c.op
        = (count (a.state.step cmd) cfg.name, (a.state.applyLocked cmd).2.isNone) ∧
      ∀ k, size (a.state.step cmd) cfg.name = some k → 1 ≤ k ∧ k < 2147483648 := by
  obtain ⟨htopic, hpend⟩ := hpend
  have hcounted := a.counted_state.step cmd
  have hsize := size_step a.state cmd cfg.name
  rw [if_pos htopic] at hsize
  cases hop : c.op with
  | createTopic n =>
    rw [hop] at hpend
    obtain ⟨htype, hpos, hlt, hlen⟩ := hpend
    rw [resize, htype] at hsize
    dsimp only at hsize
    cases hk : size a.state cfg.name with
    | none =>
      have hnone : count a.state cfg.name = none := by rw [count_eq a.counted_state, hk]; rfl
      have hlook : a.state.topics.lookup cmd.topic = none := by
        rw [htopic]
        exact Option.map_eq_none_iff.mp hk
      have herr : (a.state.applyLocked cmd).2 = none := by
        rw [MetaState.applyLocked, htype]
        dsimp only
        rw [hlook]
      rw [hk, Option.getD_none] at hsize
      have hnext : count (a.state.step cmd) cfg.name = some n := by
        rw [count_eq hcounted, hsize, Option.map_some, hlen, wrap32_eq (by omega) (by omega)]
      rw [hnone, herr, hnext]
      refine ⟨rfl, fun k hk' => ?_⟩
      rw [hsize] at hk'
      cases hk'
      omega
    | some k =>
      have hsome := h.count_of_size hk
      obtain ⟨t, ht⟩ : ∃ t, a.state.topics.lookup cmd.topic = some t := by
        obtain ⟨t, ht, -⟩ := Option.map_eq_some_iff.mp hk
        exact ⟨t, htopic ▸ ht⟩
      have happ : a.state.applyLocked cmd = (a.state, some (.topicExists cmd.topic)) := by
        rw [MetaState.applyLocked, htype]
        dsimp only
        rw [ht]
      rw [MetaState.step, happ, hsome]
      exact ⟨rfl, h.sized⟩
  | createPartitions n =>
    rw [hop] at hpend
    obtain ⟨htype, hlt, cur, hcur, hgrow, hlen⟩ := hpend
    have hcount : count a.state cfg.name = some cur := by rw [hseen ⟨n, hop⟩, hcur]
    obtain ⟨k, hk, rfl⟩ := h.size_of_count hcount
    obtain ⟨t, ht⟩ : ∃ t, a.state.topics.lookup cmd.topic = some t := by
      obtain ⟨t, ht, -⟩ := Option.map_eq_some_iff.mp hk
      exact ⟨t, htopic ▸ ht⟩
    have herr : (a.state.applyLocked cmd).2 = none := by
      rw [MetaState.applyLocked, htype]
      dsimp only
      rw [ht]
    rw [resize, htype, hk, Option.map_some] at hsize
    have hnext : count (a.state.step cmd) cfg.name = some n := by
      rw [count_eq hcounted, hsize, Option.map_some, wrap32_eq (by omega) (by omega)]
      congr 1
      omega
    rw [hcount, herr, hnext, spec, if_pos hgrow]
    refine ⟨rfl, fun k' hk' => ?_⟩
    rw [hsize] at hk'
    cases hk'
    have := (h.sized k hk).1
    omega

/-- A call takes effect. -/
theorem settle {a' : Admin} {i : ℕ} {ok : Bool} (hcalls : Placed a.calls a'.calls i c)
    (hnow : a'.now = a.now + 1) (hnew : ∀ d ∈ order, d.id ≠ i)
    (hdec : Decided a'.now ⟨⟨i, c.op, ok⟩, a.now⟩ c)
    (hspec : spec (count a.state cfg.name) c.op = (count a'.state cfg.name, ok))
    (hsized : ∀ k, size a'.state cfg.name = some k → 1 ≤ k ∧ k < 2147483648) :
    Ordered cfg a' (order ++ [⟨⟨i, c.op, ok⟩, a.now⟩]) := by
  obtain ⟨hresults, hfinal⟩ := h.replies_snoc (p := ⟨⟨i, c.op, ok⟩, a.now⟩) hspec
  refine ⟨?_, h.times_snoc rfl, ?_, ?_, ?_, hresults, hfinal, hsized⟩
  · rw [List.map_append, List.map_singleton, List.nodup_append]
    refine ⟨h.ids, List.nodup_singleton _, ?_⟩
    rintro j hj k hk rfl
    obtain ⟨d, hd, rfl⟩ := List.mem_map.mp hj
    exact hnew d hd (List.mem_singleton.mp hk)
  · intro d hd
    rcases List.mem_append.mp hd with hd | hd
    · obtain ⟨c', hc', hdec'⟩ := h.tick.decided d hd
      exact ⟨c', (hcalls _ _).mpr (.inr ⟨hnew d hd, hc'⟩), hnow ▸ hdec'⟩
    · rw [List.mem_singleton.mp hd]
      exact ⟨c, (hcalls _ _).mpr (.inl ⟨rfl, rfl⟩), hdec⟩
  · intro j c' hc' hnot
    rcases (hcalls j c').mp hc' with ⟨rfl, -⟩ | ⟨-, hc'⟩
    · exact ⟨_, List.mem_append_right _ (List.mem_singleton.mpr rfl), rfl⟩
    · obtain ⟨d, hd, hid⟩ := h.complete j c' hc' hnot
      exact ⟨d, List.mem_append_left _ hd, hid⟩
  · intro j c' cmd' hc' hstatus'
    rcases (hcalls j c').mp hc' with ⟨-, rfl⟩ | ⟨-, hc'⟩
    · exact absurd hstatus' (hdec.committed cmd')
    · exact hnow ▸ h.tick.pending j c' cmd' hc' hstatus'

/-- A call changes, or is made, and none takes effect. -/
theorem replace {calls : List Call} {i : ℕ} (hcalls : Placed a.calls calls i c)
    (hdecided : ∀ d ∈ order, d.id = i → Decided (a.now + 1) d c)
    (hcomplete : (∀ cmd, c.status ≠ .proposed cmd) → ∃ d ∈ order, d.id = i)
    (hpending : ∀ cmd, c.status = .proposed cmd → c.invoked ≤ a.now ∧ Pending cfg c cmd) :
    Ordered cfg { a with calls := calls, now := a.now + 1 } order := by
  refine ⟨h.ids, h.times, ?_, ?_, ?_, h.results, h.final, h.sized⟩
  · intro d hd
    by_cases hid : d.id = i
    · exact ⟨c, (hcalls _ _).mpr (.inl ⟨hid, rfl⟩), hdecided d hd hid⟩
    · obtain ⟨c', hc', hdec⟩ := h.tick.decided d hd
      exact ⟨c', (hcalls _ _).mpr (.inr ⟨hid, hc'⟩), hdec⟩
  · intro j c' hc' hnot
    rcases (hcalls j c').mp hc' with ⟨rfl, rfl⟩ | ⟨-, hc'⟩
    · exact hcomplete hnot
    · exact h.complete j c' hc' hnot
  · intro j c' cmd' hc' hstatus'
    rcases (hcalls j c').mp hc' with ⟨-, rfl⟩ | ⟨-, hc'⟩
    · exact ⟨Nat.le_succ_of_le (hpending cmd' hstatus').1, (hpending cmd' hstatus').2⟩
    · exact h.tick.pending j c' cmd' hc' hstatus'

/-- The calls of the order were made before. -/
theorem id_ne_length : ∀ d ∈ order, d.id ≠ a.calls.length := by
  intro d hd heq
  obtain ⟨c, hc, -⟩ := h.decided d hd
  simp [heq] at hc

/-- A call is made that is refused at once. -/
theorem refuse {op : Op} (seen : Option ℤ)
    (hspec : spec (count a.state cfg.name) op = (count a.state cfg.name, false)) :
    Ordered cfg { a with
        calls := a.calls ++ [⟨op, a.now, seen, .returned false a.now⟩]
        now := a.now + 1 }
      (order ++ [⟨⟨a.calls.length, op, false⟩, a.now⟩]) := by
  refine h.settle (c := ⟨op, a.now, seen, .returned false a.now⟩) (placed_snoc _ _) rfl
    h.id_ne_length ⟨rfl, le_rfl, Nat.lt_succ_self _, by simp, by simp, ?_⟩ hspec h.sized
  intro ok t hstatus
  cases hstatus
  exact ⟨rfl, le_rfl⟩

/-- A call is made and proposes a command. -/
theorem invoke (hstatus : c.status = .proposed cmd) (hmade : c.invoked = a.now)
    (hpend : Pending cfg c cmd) :
    Ordered cfg { a with calls := a.calls ++ [c], now := a.now + 1 } order := by
  refine h.replace (placed_snoc _ c) (fun d hd hid => absurd hid (h.id_ne_length d hd))
    (fun hnot => absurd hstatus (hnot cmd)) fun cmd' hstatus' => ?_
  rw [hstatus] at hstatus'
  cases hstatus'
  exact ⟨hmade.le, hpend⟩

/-- The command of a call is committed. -/
theorem commit {i : ℕ} (hc : a.calls[i]? = some c) (hstatus : c.status = .proposed cmd)
    (hseen : (∃ n, c.op = .createPartitions n) → count a.state cfg.name = c.seen) :
    ∃ p, Ordered cfg { { a with log := a.log ++ [cmd] }.update i c
        (.applied (a.state.applyLocked cmd).2) with now := a.now + 1 } (order ++ [p]) := by
  obtain ⟨hmade, hpend⟩ := h.pending i c cmd hc hstatus
  obtain ⟨hspec, hsized⟩ := h.spec_of_applied hpend hseen
  have hstate : run MetaState.step .empty (a.log ++ [cmd]) = a.state.step cmd := run_snoc _ _ _
  rw [← hstate] at hspec hsized
  refine ⟨_, h.settle (placed_set (List.getElem?_eq_some_iff.mp hc).1 _) rfl ?_
    ⟨rfl, hmade, Nat.lt_succ_self _, by simp, ?_, by simp⟩ hspec hsized⟩
  · -- the call has not taken effect before
    rintro d hd rfl
    obtain ⟨c', hc', hdec⟩ := h.decided d hd
    rw [hc] at hc'
    cases hc'
    exact hdec.committed cmd hstatus
  · intro err herr
    cases herr
    rfl

/-- A call returns. -/
theorem finish {i : ℕ} {err : Option Err} (hc : a.calls[i]? = some c)
    (hstatus : c.status = .applied err) {ok : Bool} (hok : ok = err.isNone) :
    Ordered cfg { a.update i c (.returned ok a.now) with now := a.now + 1 } order := by
  refine h.replace (placed_set (List.getElem?_eq_some_iff.mp hc).1 _) ?_
    (fun _ => h.complete i c hc (by simp [hstatus])) (by simp)
  rintro d hd rfl
  -- it returns what the application of its command gave
  obtain ⟨c', hc', hdec⟩ := h.decided d hd
  rw [hc] at hc'
  cases hc'
  have hpast := hdec.past
  refine ⟨hdec.op, hdec.after, Nat.lt_succ_of_lt hpast, by simp, by simp, ?_⟩
  intro ok' t hret
  cases hret
  exact ⟨(hdec.applied err hstatus).trans hok.symm, hpast.le⟩

/-- Another command is committed. -/
theorem other (hcmd : ¬ Resizes cmd cfg.name) :
    Ordered cfg { a with log := a.log ++ [cmd], now := a.now + 1 } order := by
  have hstate : run MetaState.step .empty (a.log ++ [cmd]) = a.state.step cmd := run_snoc _ _ _
  have hsize : size (a.state.step cmd) cfg.name = size a.state cfg.name := by
    rw [size_step]
    split
    · next htopic =>
      rw [resize]
      split
      · next htype => exact absurd ⟨htopic, .inl htype⟩ hcmd
      · next htype => exact absurd ⟨htopic, .inr htype⟩ hcmd
      · rfl
    · rfl
  have hcount : count (a.state.step cmd) cfg.name = count a.state cfg.name := by
    rw [count_eq (a.counted_state.step cmd), count_eq a.counted_state, hsize]
  rw [← hstate] at hsize hcount
  exact
    { h.tick with
      final := h.final.trans hcount.symm
      sized := fun k hk => h.sized k (hsize ▸ hk) }

/-- **Every event that is current keeps the calls in order.** -/
theorem step {e : Event} (hfits : e.Fits) (hcur : Current cfg a e) :
    ∃ order', Ordered cfg (a.step cfg e) order' := by
  cases e with
  | invoke op view =>
    simp only [Admin.step, Admin.react]
    cases hprop : propose cfg (a.view view) op with
    | none => exact ⟨_, h.refuse _ (h.spec_of_refused hcur hprop)⟩
    | some cmd => exact ⟨order, h.invoke rfl rfl (pending_of_proposed hfits hcur hprop a.now)⟩
  | commit i =>
    simp only [Admin.step, Admin.react]
    cases hc : a.calls[i]? with
    | none => exact ⟨order, h.tick⟩
    | some c =>
      cases hstatus : c.status with
      | proposed cmd =>
        simp only [hstatus]
        obtain ⟨p, hp⟩ := h.commit hc hstatus fun ⟨n, hop⟩ =>
          hcur c hc (by simp [Call.growing, hop, hstatus])
        exact ⟨_, hp⟩
      | applied | returned =>
        simp only [hstatus]
        exact ⟨order, h.tick⟩
  | finish i view =>
    simp only [Admin.step, Admin.react]
    cases hc : a.calls[i]? with
    | none => exact ⟨order, h.tick⟩
    | some c =>
      cases hstatus : c.status with
      | applied err =>
        simp only [hstatus]
        refine ⟨order, h.finish hc hstatus ?_⟩
        cases hop : c.op with
        | createPartitions n => rfl
        | createTopic n =>
          cases err with
          | none => rfl
          | some e =>
            -- a creation that was refused is not taken for a success
            rw [conclude, hcur c hc (by simp [Call.refused, hop, hstatus])]
            rfl
      | proposed | returned =>
        simp only [hstatus]
        exact ⟨order, h.tick⟩
  | other cmd =>
    simp only [Admin.step, Admin.react]
    split
    · exact ⟨order, h.tick⟩
    · next hcmd => exact ⟨order, h.other hcmd⟩

end Ordered

/-! ### Runs -/

/-- **Topic administration is linearizable if the events are current.**  In every run from an
empty cluster whose growths are committed on the count that they were computed from, whose
refused creations are reported as such, and so on, after every event the calls that have
returned and the committed count are those of a sequential execution; at most one creation
has succeeded, and the committed count is not above all that were asked for. -/
theorem administration_linearizable (cfg : Config) (events : List Event)
    (hfits : ∀ e ∈ events, e.Fits) (hcur : Along (Admin.step cfg) (Current cfg) .empty events) :
    Always (Admin.step cfg) (fun a => Linearizable cfg a ∧ OneCreation a ∧ Bounded cfg a)
      .empty events := by
  have hfitting : Along (Admin.step cfg) (fun _ e => e.Fits) .empty events := along_of_forall hfits
  have hordered : Always (Admin.step cfg) (fun a => ∃ order, Ordered cfg a order) .empty events :=
    (hcur.and hfitting).always ⟨[], ordered_empty⟩ fun _ _ ⟨_, h⟩ he => h.step he.2 he.1
  refine hordered.mono ?_
  rintro a ⟨order, h⟩
  have hlin := h.linearizable
  exact ⟨hlin, hlin.oneCreation, hlin.bounded⟩

/-- The topic `t`, with one replica for each partition. -/
def oneTopic : Config where
  toSetting := { Holdings.lacking with replicasFor := fun _ _ => [0] }
  name := [116]

/-- Two creations at once, of which the second returns on a node that lags behind, and a
growth that is computed from what is committed. -/
def currentEvents : List Event :=
  [.invoke (.createTopic 1) 0, .invoke (.createTopic 2) 0, .commit 0, .commit 1, .finish 0 1,
    .finish 1 0, .invoke (.createPartitions 3) 2, .invoke (.createPartitions 1) 2, .commit 2,
    .finish 2 3]

theorem currentEvents_linearizable :
    (∀ e ∈ currentEvents, e.Fits) ∧
      Along (Admin.step oneTopic) (Current oneTopic) .empty currentEvents ∧
      Always (Admin.step oneTopic)
        (fun a => Linearizable oneTopic a ∧ OneCreation a ∧ Bounded oneTopic a) .empty currentEvents :=
  ⟨by decide, by decide +kernel,
    administration_linearizable oneTopic currentEvents (by decide) (by decide +kernel)⟩

/-- Two growths to 3 and 5 partitions that have both read the count 1. -/
def concurrentGrowths : List Event :=
  [.invoke (.createTopic 1) 0, .commit 0, .finish 0 1, .invoke (.createPartitions 3) 1,
    .invoke (.createPartitions 5) 1, .commit 1, .commit 2, .finish 1 3, .finish 2 3]

/-- Two creations that have both found no topic. -/
def concurrentCreations : List Event :=
  [.invoke (.createTopic 1) 0, .invoke (.createTopic 2) 0, .commit 0, .commit 1, .finish 0 2,
    .finish 1 2]

/-- **Two growths add up, and two creations succeed.**  All calls return without an error on
nodes that have applied every command; the committed count is 7 where 5 was the most that was
asked for, and the topic was created twice. -/
theorem count_exceeds_requests :
    let grown := run (Admin.step oneTopic) Admin.empty concurrentGrowths
    let created := run (Admin.step oneTopic) Admin.empty concurrentCreations
    (grown.calls.map (·.status) = [.returned true 2, .returned true 7, .returned true 8] ∧
        count grown.state oneTopic.name = some 7 ∧ grown.calls.map (·.op.target) = [1, 3, 5]) ∧
      created.calls.map (·.op) = [.createTopic 1, .createTopic 2] ∧
      created.calls.map (·.status) = [.returned true 4, .returned true 5] := by
  decide +kernel

end Administration
end Mq
