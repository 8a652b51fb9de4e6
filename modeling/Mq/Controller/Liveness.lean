import Mq.Broker.Holdings
import Mq.Controller.Placement

/-!
# Failing over a leader that has fallen silent

The failure detector of `internal/controller/liveness.go` with its clock.  Every node sends a
heartbeat to the leader of the controllers, which notes when it has last seen a node.  On each
tick the leader goes through the partitions and has those led by a node that it has not seen for
`livenessTimeout` taken over by the first replica in sync that it has seen.  A node that becomes
leader forgets what it has seen, and waits for `livenessTimeout` before it does anything.

The loop is not atomic: heartbeats arrive and commands are applied between two partitions of one
pass, and all partitions of a pass are judged by the time at which it began.

## Main definitions

* `Liveness`, `Liveness.step` — a controller with the stage of its loop.
* `Liveness.Up` — a node is this one, or a heartbeat of it arrived in time.
* `Liveness.LedSince` — at every tick since then the node was leader.

## Main results

* `Liveness.Recorded.alive_of_up`, `Liveness.Recorded.up_of_alive` — the table of the last
  heartbeats says what the heartbeats of the whole run say, although it is cleared.
* `Liveness.failover_of_silence` — **a leader is replaced only if it has been silent for
  `livenessTimeout`**, by a replica in sync that has not been, and then it is replaced.
-/

namespace Mq

namespace Controller

open Word Transition

/-- `3 * time.Second` -/
def livenessTimeout : ℤ := 3000000000

/-- The stage of `runLiveness`. -/
inductive LoopStage
  | waiting
  /-- After a tick, with what `IsLeader` said. -/
  | beating (isLeader : Bool)
  /-- In the loops of `checkFailover`, with the partitions that are left. -/
  | scanning (now : ℤ) (rest : List (Bytes × ℤ × PartitionMeta))

structure Liveness where
  nodeID : ℤ
  fsm : MetaState
  wasLeader : Bool
  lastSeen : Table ℤ ℤ
  /-- Not set before the node leads for the first time. -/
  leaderSince : Option ℤ
  stage : LoopStage
  /-- The commands that were given to `Apply`. -/
  proposed : List Command

namespace Liveness

def start (nodeID : ℤ) (fsm : MetaState) : Liveness := ⟨nodeID, fsm, false, ∅, none, .waiting, []⟩

inductive Event
  /-- A command is applied. -/
  | commit (cmd : Command)
  | heartbeat (id now : ℤ)
  /-- The ticker fires. -/
  | tick (now : ℤ) (isLeader : Bool)
  /-- The node has sent its own heartbeat, and begins to look for leaders that are dead. -/
  | check (now : ℤ)
  /-- It looks at the next partition. -/
  | examine
  deriving DecidableEq, Repr

def recordHeartbeat (c : Liveness) (id now : ℤ) : Liveness :=
  { c with lastSeen := c.lastSeen.insert id now }

def onBecomeLeader (c : Liveness) (now : ℤ) : Liveness :=
  { c with lastSeen := ∅, leaderSince := some now }

def alive (c : Liveness) (id now : ℤ) : Bool :=
  id = c.nodeID ∨ (c.lastSeen.lookup id).any fun ls => now - ls ≤ livenessTimeout

/-- The nodes that were seen in time. -/
def heard (c : Liveness) (now : ℤ) : List ℤ :=
  (c.lastSeen.entries.filter fun e => now - e.2 ≤ livenessTimeout).map (·.1)

/-- The zero time is long ago. -/
def inGrace (c : Liveness) (now : ℤ) : Bool :=
  c.leaderSince.any fun since => now - since < livenessTimeout

/-- One partition of `checkFailover`. -/
def failover (c : Liveness) (now : ℤ) (x : Bytes × ℤ × PartitionMeta) : Option Command :=
  checkFailover c.nodeID (c.heard now) x.1 x.2.1 x.2.2

def step (c : Liveness) : Event → Liveness
  | .commit cmd => { c with fsm := c.fsm.step cmd }
  | .heartbeat id now => c.recordHeartbeat id now
  | .tick now isLeader =>
    match c.stage with
    | .waiting =>
      let c := if isLeader && !c.wasLeader then c.onBecomeLeader now else c
      { c with wasLeader := isLeader, stage := .beating isLeader }
    | _ => c
  | .check now =>
    match c.stage with
    | .beating true =>
      if c.inGrace now then { c with stage := .waiting }
      else { c with stage := .scanning now (Holdings.placements c.fsm) }
    | .beating false => { c with stage := .waiting }
    | _ => c
  | .examine =>
    match c.stage with
    | .scanning _ [] => { c with stage := .waiting }
    | .scanning now (x :: rest) =>
      { c with stage := .scanning now rest, proposed := c.proposed ++ (c.failover now x).toList }
    | _ => c

variable {c : Liveness} {nodeID now id : ℤ} {fsm : MetaState} {es : List Event} {e : Event}
  {x : Bytes × ℤ × PartitionMeta} {rest : List (Bytes × ℤ × PartitionMeta)}

theorem alive_heard (c : Liveness) (now id : ℤ) :
    Controller.alive c.nodeID (c.heard now) id = c.alive id now := by
  unfold Controller.alive alive heard
  congr 2
  rw [eq_iff_iff, List.mem_map, Option.any_eq_true]
  constructor
  · rintro ⟨⟨k, t⟩, hmem, rfl⟩
    obtain ⟨hentry, htime⟩ := List.mem_filter.mp hmem
    exact ⟨t, AList.mem_lookup_iff.mpr hentry, htime⟩
  · rintro ⟨t, ht, htime⟩
    exact ⟨⟨id, t⟩, List.mem_filter.mpr ⟨AList.mem_lookup_iff.mp ht, htime⟩, rfl⟩

/-! ### The clock -/

/-- When the event happens, if it reads the clock. -/
def Event.time : Event → Option ℤ
  | .heartbeat _ now | .tick now _ | .check now => some now
  | .commit _ | .examine => none

/-- The clock does not go back. -/
def Clocked (es : List Event) : Prop := (es.filterMap Event.time).Pairwise (· ≤ ·)

instance (es : List Event) : Decidable (Clocked es) :=
  inferInstanceAs (Decidable (List.Pairwise _ _))

theorem Clocked.init {es' : List Event} (h : Clocked (es ++ es')) : Clocked es := by
  unfold Clocked at h
  rw [List.filterMap_append] at h
  exact (List.pairwise_append.mp h).1

theorem Clocked.le {e' : Event} {t t' : ℤ} (h : Clocked (es ++ [e])) (he' : e' ∈ es)
    (ht' : e'.time = some t') (ht : e.time = some t) : t' ≤ t := by
  unfold Clocked at h
  rw [List.filterMap_append] at h
  refine (List.pairwise_append.mp h).2.2 t' ?_ t ?_
  · exact List.mem_filterMap.mpr ⟨e', he', ht'⟩
  · exact List.mem_filterMap.mpr ⟨e, List.mem_singleton_self e, ht⟩

/-! ### What the table says -/

/-- The node is this one, or a heartbeat of it is at most `d` old. -/
def Up (es : List Event) (nodeID d now id : ℤ) : Prop :=
  id = nodeID ∨ ∃ t, .heartbeat id t ∈ es ∧ now - t ≤ d

/-- What the state of a controller says about the events so far. -/
structure Recorded (nodeID : ℤ) (es : List Event) (c : Liveness) : Prop where
  node : c.nodeID = nodeID
  seen : ∀ id t, c.lastSeen.lookup id = some t → .heartbeat id t ∈ es
  /-- A heartbeat that is not in the table is older than the node's leadership. -/
  latest : ∀ id t, .heartbeat id t ∈ es → (∃ since, c.leaderSince = some since ∧ t ≤ since) ∨
    ∃ t', c.lastSeen.lookup id = some t' ∧ t ≤ t'
  beating : ∀ b, c.stage = .beating b → c.wasLeader = b
  scanning : ∀ now rest, c.stage = .scanning now rest → c.wasLeader = true ∧
    ∀ since, c.leaderSince = some since → livenessTimeout ≤ now - since

namespace Recorded

variable (h : Recorded nodeID es c)
include h

/-- An event that is no heartbeat. -/
theorem append (he : ∀ id t, e ≠ .heartbeat id t) : Recorded nodeID (es ++ [e]) c :=
  { h with
    seen := fun id t ht => List.mem_append_left _ (h.seen id t ht)
    latest := fun id t ht => h.latest id t <|
      (List.mem_append.mp ht).resolve_right fun ht => he id t (List.mem_singleton.mp ht).symm }

theorem heartbeat (id now : ℤ) (hclock : Clocked (es ++ [.heartbeat id now])) :
    Recorded nodeID (es ++ [.heartbeat id now]) (c.recordHeartbeat id now) := by
  refine ⟨h.node, fun k t ht => ?_, fun k t ht => ?_, h.beating, h.scanning⟩
  · unfold recordHeartbeat at ht
    dsimp only at ht
    rw [Table.lookup_insert_ite] at ht
    split at ht
    · next hk =>
      cases ht
      rw [hk]
      exact List.mem_append_right _ (List.mem_singleton_self _)
    · exact List.mem_append_left _ (h.seen k t ht)
  · unfold recordHeartbeat
    dsimp only
    rw [Table.lookup_insert_ite]
    by_cases hk : k = id
    · -- every earlier heartbeat of the same node is older
      refine .inr ⟨now, if_pos hk, ?_⟩
      rcases List.mem_append.mp ht with ht | ht
      · exact hclock.le ht rfl rfl
      · cases List.mem_singleton.mp ht
        exact le_rfl
    · rw [if_neg hk]
      rcases List.mem_append.mp ht with ht | ht
      · exact h.latest k t ht
      · cases List.mem_singleton.mp ht
        exact absurd rfl hk

/-- A node that becomes leader forgets only heartbeats that are older than its leadership. -/
theorem onBecomeLeader (now : ℤ) (hclock : Clocked (es ++ [.tick now true])) :
    Recorded nodeID (es ++ [.tick now true])
      { c.onBecomeLeader now with wasLeader := true, stage := .beating true } := by
  refine ⟨h.node, fun id t ht => ?_, fun id t ht => .inl ⟨now, rfl, ?_⟩,
    fun b hb => by cases hb; rfl, fun _ _ hstage => by cases hstage⟩
  · cases ht
  · rcases List.mem_append.mp ht with ht | ht
    · exact hclock.le ht rfl rfl
    · cases List.mem_singleton.mp ht

theorem tick (now : ℤ) (isLeader : Bool) (hclock : Clocked (es ++ [.tick now isLeader])) :
    Recorded nodeID (es ++ [.tick now isLeader]) (c.step (.tick now isLeader)) := by
  have h' : Recorded nodeID (es ++ [.tick now isLeader]) c := h.append (by simp)
  unfold step
  dsimp only
  split
  swap
  · exact h'
  split
  · next hnew =>
    rw [Bool.and_eq_true] at hnew
    cases hnew.1
    exact h.onBecomeLeader now hclock
  · exact ⟨h'.node, h'.seen, h'.latest, fun b hb => by cases hb; rfl,
      fun _ _ hstage => by cases hstage⟩

theorem check (now : ℤ) : Recorded nodeID es (c.step (.check now)) := by
  unfold step
  dsimp only
  split
  · next hstage =>
    split
    · exact { h with beating := by simp, scanning := by simp }
    · next hgrace =>
      refine { h with beating := by simp, scanning := fun t rest hs => ?_ }
      cases hs
      refine ⟨h.beating true hstage, fun since (hsince : c.leaderSince = _) => ?_⟩
      simpa [inGrace, hsince] using hgrace
  · exact { h with beating := by simp, scanning := by simp }
  · exact h

theorem examine : Recorded nodeID es (c.step .examine) := by
  unfold step
  dsimp only
  split
  · exact { h with beating := by simp, scanning := by simp }
  · next now x rest hstage =>
    refine { h with beating := by simp, scanning := fun t rest' hs => ?_ }
    cases hs
    exact h.scanning now _ hstage
  · exact h

/-- **The step lemma.** -/
theorem step (hclock : Clocked (es ++ [e])) : Recorded nodeID (es ++ [e]) (c.step e) := by
  cases e with
  | commit cmd => exact { h.append (by simp) with node := h.node }
  | heartbeat id now => exact h.heartbeat id now hclock
  | tick now isLeader => exact h.tick now isLeader hclock
  | check now => exact (h.append (by simp)).check now
  | examine => exact (h.append (by simp)).examine

end Recorded

theorem recorded_start (nodeID : ℤ) (fsm : MetaState) :
    Recorded nodeID [] (start nodeID fsm) := by
  refine ⟨rfl, ?_, ?_, ?_, ?_⟩ <;> simp [start]

theorem recorded_run (nodeID : ℤ) (fsm : MetaState) (hclock : Clocked es) :
    Recorded nodeID es (run step (start nodeID fsm) es) := by
  induction es using List.reverseRecOn with
  | nil => exact recorded_start nodeID fsm
  | append_singleton es e ih =>
    rw [run_snoc]
    exact (ih hclock.init).step hclock

/-- Who is alive has been heard from. -/
theorem Recorded.up_of_alive (h : Recorded nodeID es c) (hid : c.alive id now = true) :
    Up es nodeID livenessTimeout now id := by
  unfold alive at hid
  rw [decide_eq_true_eq, Option.any_eq_true] at hid
  rcases hid with hself | ⟨t, ht, htime⟩
  · exact .inl (hself.trans h.node)
  · exact .inr ⟨t, h.seen id t ht, by simpa using htime⟩

/-- Who has been heard from is alive: what was forgotten is older than the time to wait. -/
theorem Recorded.alive_of_up (h : Recorded nodeID es c)
    (hsince : ∀ since, c.leaderSince = some since → livenessTimeout ≤ now - since)
    (hid : Up es nodeID (livenessTimeout - 1) now id) : c.alive id now = true := by
  unfold alive
  rw [decide_eq_true_eq, Option.any_eq_true]
  rcases hid with hself | ⟨t, ht, htime⟩
  · exact .inl (hself.trans h.node.symm)
  · rcases h.latest id t ht with ⟨since, hs, hle⟩ | ⟨t', ht', hle⟩
    · have hwait := hsince since hs
      omega
    · exact .inr ⟨t', ht', by simp; omega⟩

/-! ### Since when the node leads -/

/-- A tick that the loop takes finds the node leading. -/
def Leads (c : Liveness) : Event → Prop
  | .tick _ isLeader => c.stage = .waiting → isLeader = true
  | _ => True

/-- The loop has taken a tick at this time that found the node leading, and so has every tick
that it has taken from then on. -/
def LedSince (c : Liveness) (es : List Event) (since : ℤ) : Prop :=
  ∃ es₁ es₂, es = es₁ ++ .tick since true :: es₂ ∧ (run step c es₁).stage = .waiting ∧
    Along step Leads (run step c es₁) (.tick since true :: es₂)

/-- A node that leads has led before, or becomes leader with this tick. -/
theorem leads_step (c : Liveness) (e : Event) (h : (c.step e).wasLeader = true) :
    (c.wasLeader = true ∧ (c.step e).leaderSince = c.leaderSince ∧ Leads c e) ∨
      ∃ now, e = .tick now true ∧ c.stage = .waiting ∧ (c.step e).leaderSince = some now := by
  cases e with
  | commit | heartbeat => exact .inl ⟨h, rfl, trivial⟩
  | tick now isLeader =>
    unfold step at h ⊢
    dsimp only at h ⊢
    split at h
    · next hstage =>
      -- the loop takes the tick
      cases (h : isLeader = true)
      cases hwas : c.wasLeader with
      | true => exact .inl ⟨rfl, rfl, fun _ => rfl⟩
      | false => exact .inr ⟨now, rfl, hstage, rfl⟩
    · next hstage => exact .inl ⟨h, rfl, fun hwaiting => absurd hwaiting hstage⟩
  | check now =>
    refine .inl ?_
    revert h
    unfold step
    dsimp only
    split
    · split <;> exact fun h => ⟨h, rfl, trivial⟩
    · exact fun h => ⟨h, rfl, trivial⟩
    · exact fun h => ⟨h, rfl, trivial⟩
  | examine =>
    refine .inl ?_
    revert h
    unfold step
    dsimp only
    split <;> exact fun h => ⟨h, rfl, trivial⟩

/-- **A node that leads has led since it last noted so.** -/
theorem ledSince_run (nodeID : ℤ) (fsm : MetaState) (es : List Event)
    (h : (run step (start nodeID fsm) es).wasLeader = true) :
    ∃ since, (run step (start nodeID fsm) es).leaderSince = some since ∧
      LedSince (start nodeID fsm) es since := by
  induction es using List.reverseRecOn with
  | nil => cases h
  | append_singleton es e ih =>
    rw [run_snoc] at h ⊢
    rcases leads_step _ e h with ⟨hwas, hsame, hleads⟩ | ⟨now, rfl, hstage, hsince⟩
    · obtain ⟨since, hsince, es₁, es₂, rfl, hstage, hled⟩ := ih hwas
      refine ⟨since, hsame.trans hsince, es₁, es₂ ++ [e], by simp, hstage, ?_⟩
      rw [← List.cons_append, along_append, ← run_append]
      exact ⟨hled, hleads, trivial⟩
    · exact ⟨now, hsince, es, [], rfl, hstage, fun _ => rfl, trivial⟩

/-! ### Who is replaced -/

/-- What a command that is proposed says, and why. -/
structure Justified (nodeID : ℤ) (fsm : MetaState) (es : List Event) (now : ℤ)
    (x : Bytes × ℤ × PartitionMeta) (cmd : Command) : Prop where
  /-- The node has been leader for the whole time to wait. -/
  led : ∃ since, LedSince (start nodeID fsm) es since ∧ livenessTimeout ≤ now - since
  /-- The leader has been silent. -/
  silent : 0 ≤ x.2.2.leader → ¬ Up es nodeID (livenessTimeout - 1) now x.2.2.leader
  command : cmd.type = .changeLeader ∧ cmd.topic = x.1 ∧ cmd.partition = x.2.1
  /-- The new leader is the first of those in sync. -/
  leader : cmd.isr.head? = some cmd.leader ∧ cmd.leader ≠ x.2.2.leader
  /-- Those in sync were in sync before, in the same order, and are not silent. -/
  isr : cmd.isr.Sublist x.2.2.isr ∧ ∀ id ∈ cmd.isr, Up es nodeID livenessTimeout now id
  /-- Nobody is dropped who is not silent. -/
  kept : ∀ id ∈ x.2.2.isr, Up es nodeID (livenessTimeout - 1) now id → id ∈ cmd.isr

theorem Recorded.justified (h : Recorded nodeID es c)
    (hled : c.wasLeader = true →
      ∃ since, c.leaderSince = some since ∧ LedSince (start nodeID fsm) es since)
    (hstage : c.stage = .scanning now (x :: rest)) {cmd : Command}
    (hcmd : c.failover now x = some cmd) : Justified nodeID fsm es now x cmd := by
  obtain ⟨hwas, hsince⟩ := h.scanning now _ hstage
  unfold failover checkFailover at hcmd
  simp only [alive_heard] at hcmd
  split at hcmd
  · cases hcmd
  next hdead =>
  split at hcmd
  · cases hcmd
  next id survivors hfilter =>
  split at hcmd
  · cases hcmd
  next hne =>
  cases hcmd
  have hmem : ∀ k, k ∈ id :: survivors ↔ k ∈ x.2.2.isr ∧ c.alive k now = true := fun k => by
    rw [← hfilter, List.mem_filter]
  refine ⟨?_, fun hpos hup => hdead ⟨hpos, h.alive_of_up hsince hup⟩, ⟨rfl, rfl, rfl⟩, ⟨rfl, hne⟩,
    ⟨?_, fun k hk => h.up_of_alive ((hmem k).mp hk).2⟩,
    fun k hk hup => (hmem k).mpr ⟨hk, h.alive_of_up hsince hup⟩⟩
  · obtain ⟨since, hs, hle⟩ := hled hwas
    exact ⟨since, hle, hsince since hs⟩
  · show (id :: survivors).Sublist _
    rw [← hfilter]
    exact List.filter_sublist

/-- A silent leader is replaced if there is anybody to replace it. -/
theorem Recorded.exists_failover (h : Recorded nodeID es c)
    (hstage : c.stage = .scanning now (x :: rest))
    (hsilent : ¬ Up es nodeID livenessTimeout now x.2.2.leader)
    (hother : ∃ id ∈ x.2.2.isr, Up es nodeID (livenessTimeout - 1) now id) :
    ∃ cmd, c.failover now x = some cmd := by
  obtain ⟨-, hsince⟩ := h.scanning now _ hstage
  have hdead : c.alive x.2.2.leader now ≠ true := fun halive => hsilent (h.up_of_alive halive)
  obtain ⟨k, hk, hup⟩ := hother
  unfold failover checkFailover
  simp only [alive_heard]
  rw [if_neg fun hboth => hdead hboth.2]
  have hmem : k ∈ x.2.2.isr.filter fun id => c.alive id now :=
    List.mem_filter.mpr ⟨hk, h.alive_of_up hsince hup⟩
  split
  · next hnil =>
    rw [hnil] at hmem
    cases hmem
  · next id survivors hfilter =>
    have hid : c.alive id now = true :=
      (List.mem_filter.mp (hfilter ▸ List.mem_cons_self : id ∈ x.2.2.isr.filter _)).2
    rw [if_neg]
    · exact ⟨_, rfl⟩
    · rintro rfl
      exact hdead hid

/-- The metadata had the partition so when the pass began. -/
def Listed (c : Liveness) (es : List Event) (now : ℤ) (x : Bytes × ℤ × PartitionMeta) : Prop :=
  ∃ es₀, es₀ ++ [.check now] <+: es ∧ x ∈ Holdings.placements (run step c es₀).fsm

/-- Commands are proposed only where a pass looks at its next partition, and a pass begins only
with a check. -/
theorem step_cases (c : Liveness) (e : Event) :
    (∃ now x rest, e = .examine ∧ c.stage = .scanning now (x :: rest) ∧
      (c.step e).stage = .scanning now rest ∧
      (c.step e).proposed = c.proposed ++ (c.failover now x).toList) ∨
    (c.step e).proposed = c.proposed ∧ ∀ now rest, (c.step e).stage = .scanning now rest →
      c.stage = .scanning now rest ∨ e = .check now ∧ rest = Holdings.placements c.fsm := by
  unfold step
  cases e with
  | commit cmd => exact .inr ⟨rfl, fun _ _ => .inl⟩
  | heartbeat id now => exact .inr ⟨rfl, fun _ _ => .inl⟩
  | tick now isLeader =>
    refine .inr ?_
    dsimp only
    split
    · exact ⟨by split <;> rfl, fun _ _ h => by cases h⟩
    · exact ⟨rfl, fun _ _ => .inl⟩
  | check now =>
    refine .inr ?_
    dsimp only
    split
    · split
      · exact ⟨rfl, fun _ _ h => by cases h⟩
      · refine ⟨rfl, fun _ _ h => .inr ?_⟩
        cases h
        exact ⟨rfl, rfl⟩
    · exact ⟨rfl, fun _ _ h => by cases h⟩
    · exact ⟨rfl, fun _ _ => .inl⟩
  | examine =>
    dsimp only
    split
    · exact .inr ⟨rfl, fun _ _ h => by cases h⟩
    · next now x rest hstage => exact .inl ⟨now, x, rest, rfl, hstage, rfl, rfl⟩
    · exact .inr ⟨rfl, fun _ _ => .inl⟩

/-- A command was proposed when a partition was looked at. -/
theorem exists_of_mem_proposed {cmd : Command}
    (h : cmd ∈ (run step (start nodeID fsm) es).proposed) :
    ∃ es₁ es₂ now x rest, es = es₁ ++ .examine :: es₂ ∧
      (run step (start nodeID fsm) es₁).stage = .scanning now (x :: rest) ∧
      (run step (start nodeID fsm) es₁).failover now x = some cmd := by
  obtain ⟨es₁, e, es₂, heq, hnot, hmem⟩ :=
    exists_split (Q := fun c : Liveness => cmd ∈ c.proposed) List.not_mem_nil h
  rcases step_cases (run step (start nodeID fsm) es₁) e with
    ⟨now, x, rest, rfl, hstage, -, hproposed⟩ | ⟨hsame, -⟩
  · rw [hproposed] at hmem
    exact ⟨es₁, es₂, now, x, rest, heq, hstage,
      Option.mem_toList.mp ((List.mem_append.mp hmem).resolve_left hnot)⟩
  · exact absurd (hsame ▸ hmem) hnot

theorem listed_of_scanning (hstart : c.stage = .waiting)
    (h : (run step c es).stage = .scanning now rest) (hx : x ∈ rest) : Listed c es now x := by
  induction es using List.reverseRecOn generalizing rest with
  | nil => cases hstart.symm.trans h
  | append_singleton es e ih =>
    have hbefore : ∀ {xs}, (run step c es).stage = .scanning now xs → x ∈ xs →
        Listed c (es ++ [e]) now x := fun hstage hxs => by
      obtain ⟨es₀, hpre, hmem⟩ := ih hstage hxs
      exact ⟨es₀, hpre.trans (List.prefix_append _ _), hmem⟩
    rw [run_snoc] at h
    rcases step_cases (run step c es) e with ⟨_, y, _, -, hstage, hstage', -⟩ | ⟨-, hstage⟩
    · cases hstage'.symm.trans h
      exact hbefore hstage (List.mem_cons_of_mem y hx)
    · rcases hstage now rest h with hstage | ⟨rfl, rfl⟩
      · exact hbefore hstage hx
      · exact ⟨es, List.prefix_rfl, hx⟩

/-- **Only a silent leader is replaced**, in every run in which the clock does not go back: each
command is about a partition as it was when the pass began. -/
theorem failover_of_silence (nodeID : ℤ) (fsm : MetaState) (hclock : Clocked es) :
    (∀ cmd ∈ (run step (start nodeID fsm) es).proposed, ∃ es₁ es₂ now x,
      es = es₁ ++ .examine :: es₂ ∧ Listed (start nodeID fsm) es₁ now x ∧
        Justified nodeID fsm es₁ now x cmd) ∧
    (∀ now x rest, (run step (start nodeID fsm) es).stage = .scanning now (x :: rest) →
      ¬ Up es nodeID livenessTimeout now x.2.2.leader →
      (∃ id ∈ x.2.2.isr, Up es nodeID (livenessTimeout - 1) now id) →
      ∃ cmd, Justified nodeID fsm es now x cmd ∧
        (run step (start nodeID fsm) (es ++ [.examine])).proposed
          = (run step (start nodeID fsm) es).proposed ++ [cmd]) := by
  constructor
  · intro cmd hcmd
    obtain ⟨es₁, es₂, now, x, rest, heq, hstage, hfail⟩ := exists_of_mem_proposed hcmd
    refine ⟨es₁, es₂, now, x, heq, listed_of_scanning rfl hstage List.mem_cons_self, ?_⟩
    rw [heq] at hclock
    exact (recorded_run nodeID fsm hclock.init).justified (ledSince_run nodeID fsm es₁) hstage hfail
  · intro now x rest hstage hsilent hother
    have hrec := recorded_run nodeID fsm hclock
    obtain ⟨cmd, hcmd⟩ := hrec.exists_failover hstage hsilent hother
    refine ⟨cmd, hrec.justified (ledSince_run nodeID fsm es) hstage hcmd, ?_⟩
    rw [run_snoc]
    generalize run step (start nodeID fsm) es = c at *
    unfold step
    rw [hstage]
    dsimp only
    rw [hcmd]
    rfl

/-- Two partitions, led by the nodes 2 and 3. -/
def twoPartitions : MetaState :=
  MetaState.empty.step { type := .createTopic, topic := [116], replicas := [[2, 3, 1], [3, 2, 1]] }

/-- Node 3 is silent after its first heartbeat, which the node forgets when it becomes leader. -/
def silentEvents : List Event :=
  [.tick 0 false, .heartbeat 3 10, .check 10, .tick 1000000000 true, .check 1000000000,
    .heartbeat 2 1500000000, .tick 4000000000 true, .check 4000000000, .examine]

/-- Node 2 takes over. -/
def promotion : Command :=
  { type := .changeLeader, topic := [116], partition := 1, leader := 2, isr := [2, 1] }

/-- **Witness**: the first partition is left alone, the second goes to node 2. -/
theorem failover_of_silence_three :
    Clocked silentEvents ∧ (run step (start 1 twoPartitions) silentEvents).proposed = [] ∧
    (run step (start 1 twoPartitions) (silentEvents ++ [.examine])).proposed = [promotion] ∧
    ∃ es₁ es₂ now x, silentEvents ++ [.examine] = es₁ ++ .examine :: es₂ ∧
      Listed (start 1 twoPartitions) es₁ now x ∧ Justified 1 twoPartitions es₁ now x promotion := by
  have hclock : Clocked (silentEvents ++ [.examine]) := by decide
  have hproposed : (run step (start 1 twoPartitions) (silentEvents ++ [.examine])).proposed
      = [promotion] := by
    decide +kernel
  refine ⟨by decide, by decide +kernel, hproposed, ?_⟩
  refine (failover_of_silence 1 twoPartitions hclock).1 _ ?_
  rw [hproposed]
  exact List.mem_singleton_self _

end Liveness

end Controller

end Mq
