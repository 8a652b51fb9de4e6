import Mq.Cluster.Base

/-!
# A partition whose leader stays

Every node that acts sees a placement with the same leader.  Then there is one history,
the leader's log, and every replica holds a prefix of it.  The in-sync replicas and the
high watermark are looked at here: a member of the committed ISR should hold everything
below the leader's high watermark.

The high watermark never moves back, and a replica is put back into the ISR as soon as it
has fetched, wherever it fetched.  So the relation is kept only if it is put back after it
has caught up, and if the leader knows of it before it computes the high watermark again.
A log that is not on hold moves its high watermark with every append, so the leader must have
been told of the other replicas before it appends.

## Main definitions

* `System.Led` — the acting node sees the leader.
* `OneLeader` — what holds in every state of a sound run with one leader.
* `InSync` — the members of the committed ISR reach the high watermark.
* `System.Admits` — replicas are put into the ISR when they have caught up, and the leader
  appends with its log on hold and computes the high watermark with a placement that has them.

## Main results

* `OneLeader.step` — every action keeps the invariant.
* `isr_reaches_highWatermark` — **the members of the ISR hold everything below the high
  watermark**, in every run that admits replicas in this way.
* `readmitted_too_early` — a run of the code in which one does not.
-/

namespace Mq
namespace Cluster

open Word Record Storage Controller Replication Transition

/-! ### Runs with one leader -/

namespace System

/-- The placement that the acting node sees. -/
def seen (s : System) : Action → Option PartitionMeta
  | .reconcile _ v _ => s.view v
  | .produce _ v _ _ => s.view v
  | .request _ v _ => s.view v
  | .serve _ v _ => s.view v
  | .tick _ v _ => s.view v
  | .failover _ v _ => s.view v
  | _ => none

/-- The acting node sees this leader. -/
def Led (s : System) (leader : ℤ) (a : Action) : Prop := ∀ m ∈ s.seen a, m.leader = leader

instance (s : System) (leader : ℤ) (a : Action) : Decidable (s.Led leader a) :=
  inferInstanceAs (Decidable (∀ m ∈ s.seen a, m.leader = leader))

end System

/-- The leader's log is the history of the partition, and all messages are to or from the
leader. -/
structure OneLeader (s : System) (leader : ℤ) : Prop where
  base : Base s
  follows : Follows s leader (fun _ => True) (fun _ => True)
  requests : ∀ r ∈ s.requests, r.leader = leader
  responses : ∀ r ∈ s.responses, r.leader = leader

namespace OneLeader

variable {s : System} {leader : ℤ}

theorem init (topic : Bytes) (p : ℤ) (members : List ℤ) (quorum : Quorum) (cfg : ℤ → Config)
    (now leader : ℤ) : OneLeader (.init topic p members quorum cfg now) leader where
  base := base_init topic p members quorum cfg now
  follows := Follows.init topic p members quorum cfg now trivial
  requests := by intro r hr; cases hr
  responses := by intro r hr; cases hr

theorem step (h : OneLeader s leader) {a : Action} (ha : s.Sound a) (hled : s.Led leader a) :
    OneLeader (s.step a) leader := by
  have hkeeps : s.Keeps leader (fun _ => True) (fun _ => True) a := by
    cases a with
    | produce n v now records =>
      intro m hm hn
      exact .inl (hn ▸ hled m hm)
    | serve => exact fun _ _ _ _ _ => trivial
    | apply => exact fun _ _ _ => trivial
    | _ => trivial
  have hmail := System.mail_step h.base ha
  refine ⟨h.base.step ha, h.follows.step h.base ha hkeeps, ?_, ?_⟩
  · generalize s.step a = t at hmail
    intro r hr
    cases hmail with
    | quiet | produce | ack | serve | commit | crash => exact h.requests r hr
    | request hview =>
      rcases List.mem_append.mp hr with hr | hr
      · exact h.requests r hr
      · rw [List.mem_singleton.mp hr]
        exact hled _ hview
  · generalize s.step a = t at hmail
    intro r hr
    cases hmail with
    | quiet | produce | ack | request | commit | crash => exact h.responses r hr
    | serve hq =>
      rcases List.mem_append.mp hr with hr | hr
      · exact h.responses r hr
      · rw [List.mem_singleton.mp hr]
        exact h.requests _ (List.mem_of_getElem? hq)

/-- No response is for the leader. -/
theorem not_for_leader (h : OneLeader s leader) {r : Response} (hr : r ∈ s.responses) :
    r.replicaID ≠ leader := by
  rw [← h.responses r hr]
  exact (h.base.responses r hr).1

end OneLeader

/-! ### The in-sync replicas -/

/-- The members of the committed ISR hold everything below the high watermark. -/
def InSync (leader : ℤ) (s : System) : Prop :=
  ∀ m ∈ s.placed, ∀ n ∈ m.isr, s.hwm leader ≤ s.logEnd n

instance (leader : ℤ) (s : System) : Decidable (InSync leader s) :=
  inferInstanceAs (Decidable (∀ m ∈ s.placed, ∀ n ∈ m.isr, s.hwm leader ≤ s.logEnd n))

/-- A replica that a command puts into the ISR has reached the high watermark, and the
leader computes the high watermark only when it has seen every member of the ISR.  It appends
only with its log on hold, and its process is not started again. -/
def System.Admits (s : System) (leader : ℤ) : Action → Prop
  | .commit cmd => ∀ m ∈ (s.commit cmd).placed, ∀ n ∈ m.isr,
      (∃ m₀ ∈ s.placed, n ∈ m₀.isr) ∨ s.hwm leader ≤ s.logEnd n
  | .serve _ v _ => ∀ m ∈ s.view v, ∀ m₀ ∈ s.placed, m₀.isr ⊆ m.isr
  | .tick _ v _ => ∀ m ∈ s.view v, ∀ m₀ ∈ s.placed, m₀.isr ⊆ m.isr
  | .produce n _ _ _ => n = leader → (s.log leader).holdHWM = true
  | .restart n _ => n ≠ leader
  | _ => True

instance (s : System) (leader : ℤ) : ∀ a, Decidable (s.Admits leader a)
  | .commit cmd => inferInstanceAs (Decidable (∀ m ∈ (s.commit cmd).placed, ∀ n ∈ m.isr,
      (∃ m₀ ∈ s.placed, n ∈ m₀.isr) ∨ s.hwm leader ≤ s.logEnd n))
  | .serve _ v _ | .tick _ v _ =>
    inferInstanceAs (Decidable (∀ m ∈ s.view v, ∀ m₀ ∈ s.placed, m₀.isr ⊆ m.isr))
  | .produce n _ _ _ => inferInstanceAs (Decidable (n = leader → (s.log leader).holdHWM = true))
  | .restart n _ => inferInstanceAs (Decidable (n ≠ leader))
  | .reconcile _ _ _ | .ack _ | .request _ _ _ | .apply _ _ | .failover _ _ _
  | .crash _ => inferInstanceAs (Decidable True)

/-- The leader's high watermark moves only in a step in which the leader computes it, and
then not beyond what the members of the ISR that it sees hold. -/
theorem OneLeader.hwm_step {s : System} {leader : ℤ} (h : OneLeader s leader) {a : Action}
    (ha : s.Sound a) (hadmits : s.Admits leader a) :
    (s.step a).hwm leader = s.hwm leader ∨ ∃ m ∈ s.seen a,
      (∀ m₀ ∈ s.placed, m₀.isr ⊆ m.isr) ∧ ∀ n ∈ m.isr, (s.step a).hwm leader ≤ s.logEnd n := by
  -- both ways to compute it: at once, and after a follower's fetch was noted
  have hadvance : ∀ {b : Broker} {m : PartitionMeta} {x : ℤ}, b.Advances leader (some m) x →
      b.log = s.log leader → (∀ id, b.endOffset id ≤ s.logEnd id) →
      x = s.hwm leader ∨ ∀ n ∈ m.isr, x ≤ s.logEnd n := by
    intro b m x hx hlog hprogress
    rcases hx.known with heq | ⟨m', hm, -, hall, -⟩
    · exact .inl (by rw [heq, hlog]; rfl)
    · cases hm
      refine .inr fun n hn => ?_
      by_cases hn' : n = leader
      · have := hx.le
        rw [hlog] at this
        rw [hn']
        exact this
      · exact (hall n hn hn').trans (hprogress n)
  unfold System.log System.hwm at *
  have hnode := System.node_step h.base ha leader
  have hprogress := h.base.progress_step hnode
  generalize (s.step a).nodes leader = b at hnode hprogress
  cases hnode with
  | same | stop => exact .inl rfl
  | hold hfollow hup hlog =>
    rcases hlog with hlog | hlog <;> rw [hlog] <;> exact .inl rfl
  | append hrun hview hlead hl hbatches hhold' hhwm =>
    rcases hhwm with heq | ⟨hfalse, -⟩
    · exact .inl heq
    · exact absurd ((hadmits rfl).symm.trans hfalse) (by decide)
  | serve hr hn hb hview hlead hx =>
    subst hb
    rcases hadvance hx rfl hprogress with heq | hall
    · exact .inl heq
    · exact .inr ⟨_, hview, hadmits _ hview, hall⟩
  | apply hr hn => exact absurd hn (h.not_for_leader (List.mem_of_getElem? hr))
  | tick hview hlead hx =>
    rcases hadvance hx rfl (h.base.progress leader) with heq | hall
    · exact .inl heq
    · exact .inr ⟨_, hview, hadmits _ hview, hall⟩
  | reopen => exact absurd rfl hadmits

theorem InSync.step {s : System} {leader : ℤ} (hsync : InSync leader s) (h : OneLeader s leader)
    {a : Action} (ha : s.Sound a) (hadmits : s.Admits leader a) : InSync leader (s.step a) := by
  have hmono := h.base.logEnd_step ha
  have hhwm := h.hwm_step ha hadmits
  rcases System.placed_step h.base ha with ⟨cmd, rfl⟩ | ⟨hplaced, -, -⟩
  · intro m hm n hn
    rcases hadmits m hm n hn with ⟨m₀, hm₀, hn₀⟩ | hle
    · exact hsync m₀ hm₀ n hn₀
    · exact hle
  · intro m hm n hn
    rw [hplaced] at hm
    rcases hhwm with heq | ⟨m', -, hsub, hall⟩
    · rw [heq]
      exact (hsync m hm n hn).trans (hmono n)
    · exact (hall n (hsub m hm hn)).trans (hmono n)

/-- **The members of the committed ISR hold everything below the leader's high watermark**,
in every run in which replicas are put into it when they have caught up, and the leader
appends with its log on hold and has seen them before it computes the high watermark again. -/
theorem isr_reaches_highWatermark (topic : Bytes) (p : ℤ) (members : List ℤ) (quorum : Quorum)
    (cfg : ℤ → Config) (now leader : ℤ) {as : List Action}
    (hrun : Along System.step (fun s a => s.Sound a ∧ s.Led leader a ∧ s.Admits leader a)
      (.init topic p members quorum cfg now) as) :
    Always System.step (InSync leader) (.init topic p members quorum cfg now) as := by
  have hinit : InSync leader (.init topic p members quorum cfg now) := fun _ _ _ _ => le_rfl
  refine Always.mono (hrun.always (P := fun s => OneLeader s leader ∧ InSync leader s)
    ⟨OneLeader.init topic p members quorum cfg now leader, hinit⟩ ?_) fun s hs => hs.2
  rintro s a ⟨h, hsync⟩ ⟨ha, hled, hadmits⟩
  exact ⟨h.step ha hled, hsync.step h ha hadmits⟩

/-- The follower takes over a batch, pauses, is put out of the ISR, and is put back when it
has caught up. -/
def pauseRun : List Action :=
  [.reconcile 0 1 0, .reconcile 1 1 0, .produce 0 1 1 (makeBatch 1 []), .request 1 1 100,
    .serve 0 1 2, .apply 0 3, .request 1 1 100, .serve 1 1 4, .tick 0 1 (20 * second),
    .commit (setISR [0]), .produce 0 2 (20 * second) (makeBatch 2 []), .tick 0 2 (20 * second),
    .request 1 2 100, .serve 2 2 (21 * second), .apply 2 (21 * second), .tick 0 2 (21 * second),
    .commit (setISR [0, 1])]

theorem isr_reaches_highWatermark_pause :
    Along System.step System.Proposed pair pauseRun ∧ (run System.step pair pauseRun).hwm 0 = 3 ∧
      (run System.step pair pauseRun).placed.map (·.isr) = some [0, 1] ∧
      Always System.step (InSync 0) pair pauseRun :=
  ⟨by decide +kernel, by decide +kernel, by decide +kernel,
    isr_reaches_highWatermark [116] 0 [0, 1] _ _ 0 0 (by decide +kernel)⟩

/-- The follower is put out of the ISR before its first fetch, and a batch is stored and
committed without it.  Its first fetch, at offset 0, puts it back. -/
def readmitRun : List Action :=
  [.reconcile 0 1 0, .reconcile 1 1 0, .tick 0 1 (11 * second), .commit (setISR [0]),
    .produce 0 2 (11 * second) (makeBatch 1 []), .tick 0 2 (11 * second), .request 1 2 100,
    .serve 0 2 (12 * second), .tick 0 2 (12 * second), .commit (setISR [0, 1])]

/-- **Where the relation fails.**  The leader proposes an ISR with every replica that has
fetched lately, and does not ask from which offset. -/
theorem readmitted_too_early :
    Along System.step (fun s a => s.Proposed a ∧ s.Sound a ∧ s.Led 0 a) pair readmitRun ∧
      (run System.step pair readmitRun).placed.map (·.isr) = some [0, 1] ∧
      (run System.step pair readmitRun).hwm 0 = 1 ∧
      (run System.step pair readmitRun).logEnd 1 = 0 ∧
      ¬ InSync 0 (run System.step pair readmitRun) := by
  decide +kernel

end Cluster
end Mq
