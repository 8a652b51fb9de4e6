import Mq.Cluster.Base

/-!
# Replicas below the high watermark

Leadership moves and processes are started again.  Two replicas that both have an offset
below their high watermarks should hold the same batch there.

A log is never cut back: not when its node stops leading with batches that nobody else
has, and not when it is opened again, where the high watermark is even set to the log end.
A replica's append compares base offsets only, so such a tail is not noticed later.  The
logs agree as long as a leader appends only when it has all that any replica has.

## Main definitions

* `Agreement` — no two replicas differ below their high watermarks.
* `System.Complete` — a node appends as a leader only if no log is longer than its own.
* `OneHistory` — what holds in every state of such a run.

## Main results

* `replicas_agree` — **replicas agree below the high watermark**, in every run whose
  leaders are complete when they append.
* `divergent_tails` — a run of the code in which two replicas differ.
-/

namespace Mq
namespace Cluster

open Word Record Storage Controller Replication Transition

/-- Two replicas with an offset below their high watermarks hold the same batch there. -/
def Agreement (s : System) : Prop :=
  ∀ (n k o : ℤ) (a b : Bytes), o < s.hwm n → o < s.hwm k → a ∈ s.batches n → b ∈ s.batches k →
    Contains a o → Contains b o → a = b

/-- A node that appends as a leader has a log that is at least as long as any other. -/
def System.Complete (s : System) : Action → Prop
  | .produce n v _ _ => ∀ m ∈ s.view v, m.leader = n → ∀ k ∈ s.members, s.logEnd k ≤ s.logEnd n
  | _ => True

instance (s : System) : ∀ a, Decidable (s.Complete a)
  | .produce n v _ _ => inferInstanceAs (Decidable
      (∀ m ∈ s.view v, m.leader = n → ∀ k ∈ s.members, s.logEnd k ≤ s.logEnd n))
  | .reconcile _ _ _ | .ack _ | .request _ _ _ | .serve _ _ _ | .apply _ _ | .tick _ _ _
  | .failover _ _ _ | .commit _ | .crash _ | .restart _ _ => inferInstanceAs (Decidable True)

/-- The replicas hold prefixes of the log of one of them. -/
structure OneHistory (s : System) : Prop where
  base : Base s
  follows : ∃ k, Follows s k (fun _ => True) (fun _ => True)
  outside : ∀ n, n ∉ s.members → s.batches n = []

namespace OneHistory

variable {s : System}

theorem init (topic : Bytes) (p : ℤ) (members : List ℤ) (quorum : Quorum) (cfg : ℤ → Config)
    (now : ℤ) : OneHistory (.init topic p members quorum cfg now) where
  base := base_init topic p members quorum cfg now
  follows := ⟨0, Follows.init topic p members quorum cfg now trivial⟩
  outside := fun _ _ => rfl

/-- A node whose log is the longest has the whole history. -/
theorem rebase (h : OneHistory s) {n : ℤ} (hn : ∀ k ∈ s.members, s.logEnd k ≤ s.logEnd n) :
    Follows s n (fun _ => True) (fun _ => True) := by
  obtain ⟨k, hk⟩ := h.follows
  have hle : s.logEnd k ≤ s.logEnd n := by
    by_cases hmem : k ∈ s.members
    · exact hn k hmem
    · rw [h.base.logEnd_eq k, h.outside k hmem]
      exact h.base.logEnd_nonneg n
  rw [h.base.logEnd_eq, h.base.logEnd_eq] at hle
  have hkn := prefix_of_offsetCount_le (h.base.chained k) List.prefix_rfl (hk.logs n trivial) hle
  have heq : s.batches k = s.batches n := hkn.eq_of_length_le (hk.logs n trivial).length_le
  exact ⟨trivial, fun j hj => heq ▸ hk.logs j hj, fun r hr hq => heq ▸ hk.responses r hr hq⟩

theorem outside_step (h : OneHistory s) {a : Action} (ha : s.Sound a) {n : ℤ}
    (hn : n ∉ s.members) : (s.step a).batches n = [] := by
  have hempty := h.outside n hn
  have hstopped : s.running n = false := by simp [System.running, hn]
  have hnode := System.node_step h.base ha n
  unfold System.batches at hempty ⊢
  generalize (s.step a).nodes n = b at hnode
  cases hnode with
  | same | stop | tick => exact hempty
  | hold hfollow hup hlog => rcases hlog with hlog | hlog <;> rw [hlog] <;> exact hempty
  | serve hr hn' hb => subst hb; exact hempty
  | reopen hdown hl hbatches => exact hbatches.trans hempty
  | append hrun | apply hr hn' hrun => exact absurd (hstopped.symm.trans hrun) (by decide)

theorem members_step (h : OneHistory s) {a : Action} (ha : s.Sound a) :
    (s.step a).members = s.members := by
  have hmail := System.mail_step h.base ha
  generalize s.step a = t at hmail
  cases hmail <;> rfl

theorem step (h : OneHistory s) {a : Action} (ha : s.Sound a) (hcomplete : s.Complete a) :
    OneHistory (s.step a) := by
  refine ⟨h.base.step ha, ?_, ?_⟩
  · cases a with
    | produce n v now records =>
      by_cases hlead : ∃ m, s.view v = some m ∧ m.leader = n
      · -- the history is what the appending node has
        obtain ⟨m, hm, hmn⟩ := hlead
        refine ⟨n, (h.rebase (hcomplete m hm hmn)).step h.base ha ?_⟩
        exact fun _ _ _ => .inl rfl
      · obtain ⟨k, hk⟩ := h.follows
        refine ⟨k, hk.step h.base ha ?_⟩
        exact fun m hm hmn => absurd ⟨m, hm, hmn⟩ hlead
    | serve =>
      obtain ⟨k, hk⟩ := h.follows
      exact ⟨k, hk.step h.base ha fun _ _ _ _ _ => trivial⟩
    | apply =>
      obtain ⟨k, hk⟩ := h.follows
      exact ⟨k, hk.step h.base ha fun _ _ _ => trivial⟩
    | _ =>
      obtain ⟨k, hk⟩ := h.follows
      exact ⟨k, hk.step h.base ha trivial⟩
  · intro n hn
    rw [h.members_step ha] at hn
    exact h.outside_step ha hn

theorem agreement (h : OneHistory s) : Agreement s := by
  obtain ⟨k, hk⟩ := h.follows
  -- both batches are in the one history, at the same offset
  have hcovers : ∀ n {b : Bytes} {o : ℤ}, b ∈ s.batches n → Contains b o → b ∈ s.batches k ∧
      (header b).baseOffset ≤ o ∧ o < (header b).baseOffset + (header b).recordCount := by
    intro n b o hb ho
    have hlast := (h.base.whole n).lastOffset_eq hb
    have ho₁ := ho.2
    exact ⟨(hk.logs n trivial).subset hb, ho.1, by omega⟩
  intro n j o a b _ _ ha hb hao hbo
  obtain ⟨hak, hao⟩ := hcovers n ha hao
  obtain ⟨hbk, hbo⟩ := hcovers j hb hbo
  exact (h.base.chained k).eq_of_covers hak hbk hao hbo

end OneHistory

/-- **Replicas agree below the high watermark**, in every run in which a leader appends
only when no replica has a longer log. -/
theorem replicas_agree (topic : Bytes) (p : ℤ) (members : List ℤ) (quorum : Quorum)
    (cfg : ℤ → Config) (now : ℤ) {as : List Action}
    (hrun : Along System.step (fun s a => s.Sound a ∧ s.Complete a)
      (.init topic p members quorum cfg now) as) :
    Always System.step Agreement (.init topic p members quorum cfg now) as := by
  refine Always.mono (hrun.always (P := OneHistory)
    (OneHistory.init topic p members quorum cfg now) ?_) fun s hs => hs.agreement
  exact fun s a h ha => h.step ha.1 ha.2

/-- The command that makes node 1 the leader, alone in sync. -/
def electOne : Command :=
  { type := .changeLeader, topic := [116], partition := 0, leader := 1, isr := [1] }

/-- A batch is replicated, the leader stops, the follower takes over and appends, and the
old leader comes back and takes that over. -/
def handoverRun : List Action :=
  [.reconcile 0 1 0, .reconcile 1 1 0, .produce 0 1 1 (makeBatch 1 [1]), .request 1 1 100,
    .serve 0 1 2, .apply 0 3, .request 1 1 100, .serve 1 1 4, .crash 0, .failover 1 1 [],
    .commit electOne, .reconcile 1 2 5, .produce 1 2 6 (makeBatch 1 [2]), .tick 1 2 7,
    .restart 0 8, .reconcile 0 2 8, .request 0 2 100, .serve 2 2 9, .apply 2 10]

theorem replicas_agree_handover :
    Along System.step System.Proposed pair handoverRun ∧
      (run System.step pair handoverRun).hwm 0 = 2 ∧ (run System.step pair handoverRun).hwm 1 = 2 ∧
      Always System.step Agreement pair handoverRun :=
  ⟨by decide +kernel, by decide +kernel, by decide +kernel,
    replicas_agree [116] 0 [0, 1] _ _ 0 (by decide +kernel)⟩

/-- A leader stores a batch that nobody fetches.  Another node is elected, stores a batch of
its own at the same offset, and commits it.  The old leader fetches from there on, and takes
over the high watermark. -/
def divergeRun : List Action :=
  [.reconcile 0 1 0, .reconcile 1 1 0, .produce 0 1 1 (makeBatch 1 [1]), .failover 1 1 [],
    .commit electOne, .reconcile 0 2 2, .reconcile 1 2 2, .produce 1 2 3 (makeBatch 1 [2]),
    .tick 1 2 4, .request 0 2 100, .serve 0 2 5, .apply 0 6]

/-- **Where replicas differ.** -/
theorem divergent_tails :
    Along System.step (fun s a => s.Proposed a ∧ s.Sound a) pair divergeRun ∧
      ¬ Agreement (run System.step pair divergeRun) := by
  refine ⟨by decide +kernel, ?_⟩
  intro h
  have hsame := h 0 1 0 (stamp 0 (makeBatch 1 [1])) (stamp 0 (makeBatch 1 [2])) (by decide +kernel)
    (by decide +kernel) (by decide +kernel) (by decide +kernel) (by decide +kernel)
    (by decide +kernel)
  exact absurd hsame (by decide +kernel)

end Cluster
end Mq
