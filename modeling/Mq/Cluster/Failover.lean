import Mq.Cluster.Agreement

/-!
# Committed data across failovers

A producer that asked for it is answered when the high watermark has passed its batches.
Whatever node leads afterwards should hold them.

The code does not keep this.  A replica is put back into the ISR as soon as it has fetched,
wherever it fetched, and can then be elected.  What is proved is that acknowledged batches
survive in every run that is fenced: replicas are put into the ISR when they hold a prefix
of the leader's log that reaches the high watermark and the log end the leader was elected
with, the longest of the survivors is elected, and nodes act on placements that are not
out of date where it matters.

## Main definitions

* `Holds bs a` — the batches of `a` are in the log at the offset that was answered.
* `Durable` — the committed leader holds everything that was acknowledged.
* `System.Fenced` — the condition on the steps.
* `Survives` — what holds in every state of a fenced run.

## Main results

* `Survives.step` — **every fenced action keeps the acknowledged batches** on the leader
  and on every member of the ISR.
* `acknowledged_survives` — in every fenced run the committed leader holds every
  acknowledged batch.
* `acknowledged_lost` — a run of the code in which the elected leader does not.
-/

namespace Mq
namespace Cluster

open Word Record Storage Controller Replication Transition

/-! ### Acknowledged batches in a log -/

/-- The batches are in the log, at the offset that was answered. -/
def Holds (bs : List Bytes) (a : Ack) : Prop :=
  ∃ pre, pre ++ a.batches <+: bs ∧ offsetCount pre = a.base

/-- The offset after the acknowledged batches. -/
def Ack.stop (a : Ack) : ℤ := a.base + offsetCount a.batches

namespace Holds

variable {bs cs : List Bytes} {a : Ack}

theorem extend (h : Holds bs a) (hpre : bs <+: cs) : Holds cs a := by
  obtain ⟨pre, hbs, hbase⟩ := h
  exact ⟨pre, hbs.trans hpre, hbase⟩

/-- A shorter log that reaches far enough holds the batches as well. -/
theorem of_reach {z : ℤ} (h : Holds cs a) (hch : Chained 0 cs z) (hpre : bs <+: cs)
    (hle : a.stop ≤ offsetCount bs) : Holds bs a := by
  obtain ⟨pre, hcs, hbase⟩ := h
  refine ⟨pre, prefix_of_offsetCount_le hch hcs hpre ?_, hbase⟩
  rw [offsetCount_append, hbase]
  exact hle

theorem stop_le {z : ℤ} (h : Holds bs a) (hch : Chained 0 bs z) : a.stop ≤ offsetCount bs := by
  obtain ⟨pre, ⟨rest, rfl⟩, hbase⟩ := h
  obtain ⟨y, hy, hz⟩ := chained_append.mp hch
  have hle := hz.le
  have hstop := hz.stop_eq
  rw [offsetCount_append, offsetCount_append, Ack.stop, hbase]
  omega

/-- The first of the batches has the offset that was answered in its header. -/
theorem base_eq {z : ℤ} (h : Holds bs a) (hch : Chained 0 bs z) :
    a.batches <:+: bs ∧ ∀ b ∈ a.batches.head?, (header b).baseOffset = a.base := by
  obtain ⟨pre, ⟨rest, rfl⟩, hbase⟩ := h
  refine ⟨⟨pre, rest, rfl⟩, ?_⟩
  intro b hb
  obtain ⟨tail, htail⟩ := List.head?_eq_some_iff.mp hb
  rw [htail, List.append_assoc] at hch
  obtain ⟨y, hy, -, hhead, -⟩ := chained_append.mp hch
  have hstop := hy.stop_eq
  omega

end Holds

/-- The node that the committed metadata names as the leader has every acknowledged batch
in its log, byte for byte and at the base offset that was answered. -/
def Durable (s : System) : Prop :=
  ∀ m ∈ s.placed, ∀ a ∈ s.acked, a.batches <:+: s.batches m.leader ∧
    ∀ b ∈ a.batches.head?, (header b).baseOffset = a.base

/-! ### The condition -/

namespace System

/-- A replica that may be put into the ISR: its log is a prefix of the leader's that reaches
the high watermark and the offset at which the leader took over. -/
def CaughtUp (s : System) (leader n : ℤ) : Prop :=
  s.batches n <+: s.batches leader ∧ s.hwm leader ≤ s.logEnd n ∧ s.termStart ≤ s.logEnd n

instance (s : System) (leader n : ℤ) : Decidable (s.CaughtUp leader n) :=
  inferInstanceAs (Decidable (_ ∧ _ ∧ _))

/-- The steps that keep acknowledged batches.  `m` is the committed placement. -/
def FencedBy (s : System) (m : PartitionMeta) : Action → Prop
  -- A node that was deposed appends nothing while it is in the ISR, and the leader appends
  -- only after it has put its log on hold.
  | .produce n v _ _ => ∀ mv ∈ s.view v, mv.leader = n →
      (n = m.leader ∧ (s.log n).holdHWM = true) ∨ (n ≠ m.leader ∧ n ∉ m.isr)
  -- Only the leader answers, and only what it stored in this term.
  | .ack i => ∀ w ∈ s.waits[i]?, w.node = m.leader ∧ w.term = s.term
  -- The leader computes the high watermark with a placement that has the whole ISR.
  | .serve _ v _ => ∀ mv ∈ s.view v, mv.leader = m.leader → m.isr ⊆ mv.isr
  | .tick _ v _ => ∀ mv ∈ s.view v, mv.leader = m.leader → m.isr ⊆ mv.isr
  -- The leader applies no response, and members of the ISR only what the leader sent in this
  -- term.
  | .apply i _ => ∀ r ∈ s.responses[i]?, r.replicaID ≠ m.leader ∧
      (r.replicaID ∈ m.isr → r.leader = m.leader ∧ r.term = s.term)
  -- The new leader and its ISR were in the ISR, and none of them has a longer log than the
  -- new leader.  Otherwise, who is put into the ISR has caught up.
  | .commit cmd =>
    if cmd.MovesLeader s.topic s.partition then
      (cmd.leader = m.leader ∨ cmd.leader ∈ m.isr) ∧
        ∀ n ∈ cmd.isr, (n = m.leader ∨ n ∈ m.isr) ∧ s.logEnd n ≤ s.logEnd cmd.leader
    else ∀ n ∈ (placedAfter s.topic s.partition cmd m).isr,
      n = m.leader ∨ n ∈ m.isr ∨ s.CaughtUp m.leader n
  | _ => True

instance (s : System) (m : PartitionMeta) : ∀ a, Decidable (s.FencedBy m a)
  | .produce n v _ _ => inferInstanceAs (Decidable (∀ mv ∈ s.view v, mv.leader = n →
      (n = m.leader ∧ (s.log n).holdHWM = true) ∨ (n ≠ m.leader ∧ n ∉ m.isr)))
  | .ack i =>
    inferInstanceAs (Decidable (∀ w ∈ s.waits[i]?, w.node = m.leader ∧ w.term = s.term))
  | .serve _ v _ | .tick _ v _ =>
    inferInstanceAs (Decidable (∀ mv ∈ s.view v, mv.leader = m.leader → m.isr ⊆ mv.isr))
  | .apply i _ => inferInstanceAs (Decidable (∀ r ∈ s.responses[i]?, r.replicaID ≠ m.leader ∧
      (r.replicaID ∈ m.isr → r.leader = m.leader ∧ r.term = s.term)))
  | .commit cmd => inferInstanceAs (Decidable (if cmd.MovesLeader s.topic s.partition then
        (cmd.leader = m.leader ∨ cmd.leader ∈ m.isr) ∧
          ∀ n ∈ cmd.isr, (n = m.leader ∨ n ∈ m.isr) ∧ s.logEnd n ≤ s.logEnd cmd.leader
      else ∀ n ∈ (placedAfter s.topic s.partition cmd m).isr,
        n = m.leader ∨ n ∈ m.isr ∨ s.CaughtUp m.leader n))
  | .reconcile _ _ _ | .request _ _ _ | .failover _ _ _ | .crash _ | .restart _ _ =>
    inferInstanceAs (Decidable True)

def Fenced (s : System) (a : Action) : Prop := ∀ m ∈ s.placed, s.FencedBy m a

instance (s : System) (a : Action) : Decidable (s.Fenced a) :=
  inferInstanceAs (Decidable (∀ m ∈ s.placed, s.FencedBy m a))

end System

/-! ### The invariant -/

/-- The leader and the members of the ISR. -/
def Leading (m : PartitionMeta) (n : ℤ) : Prop := n = m.leader ∨ n ∈ m.isr

/-- The leader's log is the history that the members of the ISR follow, and they all hold
what was acknowledged.  A request that waits at the leader may be answered once the members
of the ISR hold its batches. -/
structure Survives (s : System) (m : PartitionMeta) : Prop where
  base : Base s
  placed : s.placed = some m
  follows : Follows s m.leader (Leading m) (fun r => r.leader = m.leader ∧ r.term = s.term)
  held : ∀ a ∈ s.acked, ∀ n, Leading m n → Holds (s.batches n) a
  reach : ∀ a ∈ s.acked, a.stop ≤ max (s.hwm m.leader) s.termStart
  responses : ∀ r ∈ s.responses, r.term ≤ s.term
  waits : ∀ w ∈ s.waits, w.term ≤ s.term ∧ (s.nodes w.node).up = true
  stored : ∀ w ∈ s.waits, w.node = m.leader → w.term = s.term →
    Holds (s.batches m.leader) ⟨w.base, w.batches⟩ ∧ Ack.stop ⟨w.base, w.batches⟩ = w.target
  covered : ∀ w ∈ s.waits, w.node = m.leader → w.term = s.term → w.target ≤ s.hwm m.leader →
    ∀ n ∈ m.isr, w.target ≤ s.logEnd n

namespace Survives

variable {s : System} {m : PartitionMeta}

theorem durable (h : Survives s m) : Durable s := by
  intro m' hm' a ha
  cases h.placed.symm.trans hm'
  exact (h.held a ha m.leader (.inl rfl)).base_eq (h.base.chained m.leader)

theorem init {topic : Bytes} {p : ℤ} {members : List ℤ} {quorum : Quorum} {cfg : ℤ → Config}
    {now : ℤ} (hm : (System.init topic p members quorum cfg now).placed = some m) :
    Survives (.init topic p members quorum cfg now) m where
  base := base_init topic p members quorum cfg now
  placed := hm
  follows := Follows.init topic p members quorum cfg now (.inl rfl)
  held := by intro a ha; cases ha
  reach := by intro a ha; cases ha
  responses := by intro r hr; cases hr
  waits := by intro w hw; cases hw
  stored := by intro w hw; cases hw
  covered := by intro w hw; cases hw

/-- The fence is what the nodes have to keep to. -/
theorem keeps_of_fenced {a : Action} (hf : s.FencedBy m a) :
    s.Keeps m.leader (Leading m) (fun r => r.leader = m.leader ∧ r.term = s.term) a := by
  cases a with
  | produce n v now records =>
    intro mv hv hn
    rcases hf mv hv hn with ⟨heq, -⟩ | ⟨hne, hnot⟩
    · exact .inl heq
    · exact .inr (not_or.mpr ⟨hne, hnot⟩)
  | serve i v now => exact fun r _ _ _ hq => .inl hq.1
  | apply i now =>
    intro r hr hlead
    obtain ⟨hne, hisr⟩ := hf r hr
    rcases hlead with heq | hmem
    · exact absurd heq hne
    · exact hisr hmem
  | _ => trivial

/-- What the leader's high watermark moves to has been reached by the members of the ISR
that the leader sees. -/
theorem covered_of_advances (h : Survives s m) {b : Broker} {mv : PartitionMeta} {x : ℤ}
    (hx : b.Advances m.leader (some mv) x) (hlog : b.log = s.log m.leader)
    (hprogress : ∀ id, b.endOffset id ≤ s.logEnd id) (hisr : m.isr ⊆ mv.isr) {w : Wait}
    (hw : w ∈ s.waits) (hnode : w.node = m.leader) (hterm : w.term = s.term) (hle : w.target ≤ x) :
    ∀ n ∈ m.isr, w.target ≤ s.logEnd n := by
  rcases hx.known with heq | ⟨mv', hmv, -, hall, -⟩
  · rw [heq, hlog] at hle
    exact h.covered w hw hnode hterm hle
  · cases hmv
    intro n hn
    by_cases hleader : n = m.leader
    · have := hx.le
      rw [hlog] at this
      rw [hleader]
      exact hle.trans this
    · exact hle.trans ((hall n (hisr hn) hleader).trans (hprogress n))

/-- The leader appends with its log on hold. -/
theorem hwm_produce {v : ℕ} {now : ℤ} {records : Bytes} {b : Broker}
    (hf : s.FencedBy m (.produce m.leader v now records))
    (hb : System.NodeStep s m.leader (.produce m.leader v now records) b) :
    b.log.highWatermark = s.hwm m.leader := by
  cases hb with
  | same => rfl
  | append hrun hview hlead hl hbatches hhold hhwm =>
    rcases hhwm with heq | ⟨hfalse, -⟩
    · exact heq
    · rcases hf _ hview hlead with ⟨-, htrue⟩ | ⟨hne, -⟩
      · exact absurd (htrue.symm.trans hfalse) (by decide)
      · exact absurd rfl hne

/-- **The leader's high watermark does not move back, and does not pass a request that waits
before the members of the ISR hold its batches.** -/
theorem leader_step (h : Survives s m) {a : Action} (hf : s.FencedBy m a) {b : Broker}
    (hb : System.NodeStep s m.leader a b) :
    s.hwm m.leader ≤ b.log.highWatermark ∧
      ∀ w ∈ s.waits, w.node = m.leader → w.term = s.term → w.target ≤ b.log.highWatermark →
        ∀ n ∈ m.isr, w.target ≤ s.logEnd n := by
  have hprogress := h.base.progress_step hb
  cases hb with
  | same | stop => exact ⟨le_rfl, h.covered⟩
  | hold hfollow hup hlog => rcases hlog with hlog | hlog <;> rw [hlog] <;> exact ⟨le_rfl, h.covered⟩
  | append hrun hview hlead hl hbatches hhold hhwm =>
    rw [hwm_produce hf (.append hrun hview hlead hl hbatches hhold hhwm)]
    exact ⟨le_rfl, h.covered⟩
  | serve hr hn hb hview hlead hx =>
    subst hb
    exact ⟨hx.ge, fun w hw hnode hterm hle =>
      h.covered_of_advances hx rfl hprogress (hf _ hview hlead) hw hnode hterm hle⟩
  | apply hr hn => exact absurd hn (hf _ hr).1
  | tick hview hlead hx =>
    exact ⟨hx.ge, fun w hw hnode hterm hle =>
      h.covered_of_advances hx rfl (h.base.progress _) (hf _ hview hlead) hw hnode hterm hle⟩
  | reopen hdown hl hbatches hhwm =>
    have hend : s.logEnd m.leader = _ := h.base.logEnd_eq m.leader
    rw [← hbatches, ← hl.nextOffset_eq] at hend
    refine ⟨?_, ?_⟩
    · show _ ≤ _
      dsimp only
      rw [hhwm, ← hend]
      exact (h.base.whole m.leader).le_next
    · -- no request waits at a process that has ended
      intro w hw hnode
      have hup := (h.waits w hw).2
      rw [hnode] at hup
      exact absurd (hdown.symm.trans hup) (by decide)

/-- A node with a request that waits goes on running, unless it crashes. -/
theorem up_step {n : ℤ} {a : Action} {b : Broker} (hb : System.NodeStep s n a b)
    (hup : (s.nodes n).up = true) (hcrash : a ≠ .crash n) : b.up = true := by
  cases hb with
  | same | append | apply | tick => exact hup
  | hold hfollow heq => exact heq.trans hup
  | serve hr hn hb => subst hb; exact hup
  | stop => exact absurd rfl hcrash
  | reopen => rfl

/-- An acknowledgement is for batches that the leader and the members of the ISR hold. -/
theorem acked_step (h : Survives s m) {a : Action} (ha : s.Sound a) (hf : s.FencedBy m a) :
    ∀ c ∈ (s.step a).acked, (∀ n, Leading m n → Holds ((s.step a).batches n) c) ∧
      (c ∈ s.acked ∨ c.stop ≤ s.hwm m.leader) := by
  have hgrow := h.base.batches_step ha
  have hold : ∀ c ∈ s.acked, (∀ n, Leading m n → Holds ((s.step a).batches n) c) ∧
      (c ∈ s.acked ∨ c.stop ≤ s.hwm m.leader) :=
    fun c hc => ⟨fun n hn => (h.held c hc n hn).extend (hgrow n), .inl hc⟩
  have hmail := System.mail_step h.base ha
  generalize s.step a = t at hmail hold hgrow
  intro c hc
  cases hmail with
  | quiet | produce | request | serve | commit | crash => exact hold c hc
  | @ack i w hw hle =>
    rcases List.mem_append.mp hc with hc | hc
    · exact hold c hc
    · rw [List.mem_singleton.mp hc]
      obtain ⟨hnode, hterm⟩ := hf w hw
      have hmem := List.mem_of_getElem? hw
      obtain ⟨hholds, hstop⟩ := h.stored w hmem hnode hterm
      rw [hnode] at hle
      refine ⟨?_, .inr (hstop.trans_le hle)⟩
      rintro n (rfl | hn)
      · exact hholds
      · -- a member of the ISR follows the leader, and has got as far
        have hreach := h.covered w hmem hnode hterm hle n hn
        rw [← hstop, h.base.logEnd_eq] at hreach
        exact hholds.of_reach (h.base.chained m.leader) (h.follows.logs n (.inr hn)) hreach

theorem responses_step (h : Survives s m) {a : Action} (ha : s.Sound a) :
    ∀ r ∈ (s.step a).responses, r.term ≤ s.term := by
  have hmail := System.mail_step h.base ha
  generalize s.step a = t at hmail
  intro r hr
  cases hmail with
  | quiet | produce | ack | request | commit | crash => exact h.responses r hr
  | serve =>
    rcases List.mem_append.mp hr with hr | hr
    · exact h.responses r hr
    · rw [List.mem_singleton.mp hr]

/-- A request that waits is an old one, or was stored in this step. -/
theorem waits_step (h : Survives s m) {a : Action} (ha : s.Sound a) :
    ∀ w ∈ (s.step a).waits, (w.term ≤ s.term ∧ ((s.step a).nodes w.node).up = true) ∧
      (w ∈ s.waits ∨ ∃ v now records mv, a = .produce w.node v now records ∧
        s.view v = some mv ∧ mv.leader = w.node ∧ w.batches ≠ [] ∧
        w.base = s.logEnd w.node ∧ w.target = (s.step a).logEnd w.node ∧
        (s.step a).batches w.node = s.batches w.node ++ w.batches) := by
  have hnode := System.node_step h.base ha
  have hmail := System.mail_step h.base ha
  generalize s.step a = t at hmail hnode
  have hold : ∀ w ∈ s.waits, a ≠ .crash w.node →
      w.term ≤ s.term ∧ (t.nodes w.node).up = true := fun w hw hcrash =>
    ⟨(h.waits w hw).1, up_step (hnode w.node) (h.waits w hw).2 hcrash⟩
  intro w hw
  cases hmail with
  | quiet a hq hcrash =>
    refine ⟨?_, .inl hw⟩
    by_cases ha : a = .crash w.node
    · -- a crash that did nothing
      refine ⟨(h.waits w hw).1, ?_⟩
      dsimp only
      rw [hcrash w.node ha]
      exact (h.waits w hw).2
    · exact hold w hw ha
  | ack | request | serve | commit => exact ⟨hold w hw nofun, .inl hw⟩
  | @crash n =>
    obtain ⟨hmem, hne⟩ := List.mem_filter.mp hw
    have hne : w.node ≠ n := of_decide_eq_true hne
    exact ⟨hold w hmem fun heq => hne (by cases heq; rfl), .inl hmem⟩
  | @produce n v now records mv nodes hrun hview hlead hne hbatches =>
    rcases List.mem_append.mp hw with hw | hw
    · exact ⟨hold w hw nofun, .inl hw⟩
    · rw [List.mem_singleton.mp hw]
      have hup : (s.nodes n).up = true := (of_decide_eq_true hrun).2
      refine ⟨⟨le_rfl, up_step (hnode n) hup nofun⟩, .inr ⟨v, now, records, mv, rfl, hview, hlead,
        ?_, rfl, rfl, hbatches⟩⟩
      cases hsplit : split records with
      | nil => exact absurd hsplit hne
      | cons b bs => exact List.cons_ne_nil _ _

/-- Everything but a commit. -/
theorem step_of_placed (h : Survives s m) {a : Action} (ha : s.Sound a) (hf : s.FencedBy m a)
    (hkept : (s.step a).placed = s.placed ∧ (s.step a).term = s.term ∧
      (s.step a).termStart = s.termStart) : Survives (s.step a) m := by
  obtain ⟨hplaced, hterm, hstart⟩ := hkept
  have hnode := System.node_step h.base ha m.leader
  obtain ⟨hhwm, hcovered⟩ := h.leader_step hf hnode
  have hgrow := h.base.batches_step ha
  have ht := h.base.step ha
  have hfollows := h.follows.step h.base ha (keeps_of_fenced hf)
  have hacked := h.acked_step ha hf
  have hwaits := h.waits_step ha
  refine ⟨ht, hplaced.trans h.placed, hterm ▸ hfollows, fun c hc => (hacked c hc).1, ?_,
    hterm ▸ h.responses_step ha, fun w hw => hterm ▸ (hwaits w hw).1, ?_, ?_⟩
  · intro c hc
    rw [hstart]
    rcases (hacked c hc).2 with hold | hnew
    · exact (h.reach c hold).trans (max_le_max hhwm le_rfl)
    · exact le_max_of_le_left (hnew.trans hhwm)
  · intro w hw hleader hwterm
    rw [hterm] at hwterm
    rcases (hwaits w hw).2 with hold | ⟨v, now, records, mv, -, -, -, -, hbase, htarget, hbatches⟩
    · obtain ⟨hholds, hstop⟩ := h.stored w hold hleader hwterm
      exact ⟨hholds.extend (hgrow m.leader), hstop⟩
    · rw [hleader] at hbase htarget hbatches
      refine ⟨⟨s.batches m.leader, by rw [hbatches], ?_⟩, ?_⟩
      · rw [hbase, h.base.logEnd_eq]
      · rw [htarget, ht.logEnd_eq, hbatches, offsetCount_append, ← h.base.logEnd_eq, ← hbase]
        rfl
  · intro w hw hleader hwterm hle n hn
    rw [hterm] at hwterm
    rcases (hwaits w hw).2 with
      hold | ⟨v, now, records, mv, hact, -, -, hne, -, htarget, hbatches⟩
    · exact (hcovered w hold hleader hwterm hle n hn).trans (h.base.logEnd_step ha n)
    · -- the new batches lie above the high watermark, which stays
      exfalso
      rw [hleader] at hact htarget hbatches
      subst hact
      have hsame : _ = s.hwm m.leader := hwm_produce hf hnode
      have hch := ht.chained m.leader
      rw [hbatches] at hch
      obtain ⟨y, hy, hz⟩ := chained_append.mp hch
      have hlt := hz.lt hne
      have hy := hy.stop_eq
      have hend := h.base.logEnd_eq m.leader
      have hmark : s.hwm m.leader ≤ s.logEnd m.leader := (h.base.whole m.leader).le_next
      unfold System.hwm at hle
      omega

/-- A new leader: it was in the ISR, and has what the members of its ISR have. -/
theorem step_elect (h : Survives s m) {cmd : Command}
    (hmoves : cmd.MovesLeader s.topic s.partition)
    (hleader : Leading m cmd.leader)
    (hisr : ∀ n ∈ cmd.isr, Leading m n ∧ s.logEnd n ≤ s.logEnd cmd.leader) :
    Survives (s.commit cmd) (placedAfter s.topic s.partition cmd m) := by
  have hterm : (s.commit cmd).term = s.term + 1 := by rw [System.term_commit, if_pos hmoves]
  have hplaced := System.placed_commit h.placed cmd
  rw [placedAfter, if_pos hmoves] at hplaced ⊢
  have hsub : ∀ n, n = cmd.leader ∨ n ∈ cmd.isr → Leading m n := by
    rintro n (rfl | hn)
    · exact hleader
    · exact (hisr n hn).1
  refine ⟨h.base.step (a := .commit cmd) trivial, hplaced, ⟨.inl rfl, ?_, ?_⟩,
    fun c hc n hn => h.held c hc n (hsub n hn), ?_, ?_, ?_, ?_, ?_⟩
  · -- both are prefixes of the old leader's log
    intro n hn
    have hle : s.logEnd n ≤ s.logEnd cmd.leader := by
      rcases hn with rfl | hn
      · exact le_rfl
      · exact (hisr n hn).2
    rw [h.base.logEnd_eq, h.base.logEnd_eq] at hle
    exact prefix_of_offsetCount_le (h.base.chained m.leader) (h.follows.logs n (hsub n hn))
      (h.follows.logs cmd.leader hleader) hle
  · -- nothing has been sent in the new term
    rintro r hr ⟨-, hnew⟩
    have hold : r.term ≤ s.term := h.responses r hr
    omega
  · intro c hc
    have hstop := (h.held c hc cmd.leader hleader).stop_le (h.base.chained cmd.leader)
    rw [← h.base.logEnd_eq] at hstop
    apply le_max_of_le_right
    show _ ≤ if cmd.MovesLeader s.topic s.partition then s.logEnd cmd.leader else s.termStart
    rw [if_pos hmoves]
    exact hstop
  · intro r hr
    have hold : r.term ≤ s.term := h.responses r hr
    omega
  · intro w hw
    have hold := h.waits w hw
    exact ⟨by omega, hold.2⟩
  all_goals
    intro w hw _ hnew
    have hold := (h.waits w hw).1
    omega

/-- Another ISR: who was put into it has caught up. -/
theorem step_join (h : Survives s m) {cmd : Command}
    (hstays : ¬ cmd.MovesLeader s.topic s.partition)
    (hisr : ∀ n ∈ (placedAfter s.topic s.partition cmd m).isr,
      n = m.leader ∨ n ∈ m.isr ∨ s.CaughtUp m.leader n) :
    Survives (s.commit cmd) (placedAfter s.topic s.partition cmd m) := by
  have hterm : (s.commit cmd).term = s.term := by
    rw [System.term_commit, if_neg hstays, add_zero]
  have hstart : (s.commit cmd).termStart = s.termStart := if_neg hstays
  have hplaced := System.placed_commit h.placed cmd
  have hleader : (placedAfter s.topic s.partition cmd m).leader = m.leader := by
    rw [placedAfter, if_neg hstays]
    split <;> rfl
  generalize placedAfter s.topic s.partition cmd m = m' at hplaced hleader hisr
  have hcases : ∀ n, Leading m' n → Leading m n ∨ s.CaughtUp m.leader n := by
    rintro n (heq | hn)
    · exact .inl (.inl (heq.trans hleader))
    · rcases hisr n hn with heq | hmem | hup
      · exact .inl (.inl heq)
      · exact .inl (.inr hmem)
      · exact .inr hup
  refine ⟨h.base.step (a := .commit cmd) trivial, hplaced, ⟨.inl rfl, ?_, ?_⟩, ?_, ?_,
    hterm ▸ h.responses, hterm ▸ h.waits, ?_, ?_⟩
  · intro n hn
    rw [hleader]
    rcases hcases n hn with hold | hup
    · exact h.follows.logs n hold
    · exact hup.1
  · rw [hleader, hterm]
    exact h.follows.responses
  · intro c hc n hn
    rcases hcases n hn with hold | ⟨hpre, hmark, hterm⟩
    · exact h.held c hc n hold
    · -- it reaches everything that was acknowledged
      have hreach := (h.reach c hc).trans (max_le hmark hterm)
      rw [h.base.logEnd_eq] at hreach
      exact (h.held c hc m.leader (.inl rfl)).of_reach (h.base.chained m.leader) hpre hreach
  · rw [hleader, hstart]
    exact h.reach
  · rw [hleader, hterm]
    exact h.stored
  · rw [hleader, hterm]
    intro w hw hnode hwterm hle n hn
    rcases hisr n hn with rfl | hmem | hup
    · exact hle.trans (h.base.whole m.leader).le_next
    · exact h.covered w hw hnode hwterm hle n hmem
    · exact hle.trans hup.2.1

/-- **Every fenced action keeps the acknowledged batches.** -/
theorem step (h : Survives s m) {a : Action} (ha : s.Sound a) (hf : s.Fenced a) :
    ∃ m', Survives (s.step a) m' := by
  have hf := hf m h.placed
  rcases System.placed_step h.base ha with ⟨cmd, rfl⟩ | hkept
  · refine ⟨placedAfter s.topic s.partition cmd m, ?_⟩
    by_cases hmoves : cmd.MovesLeader s.topic s.partition
    · have hf := (if_pos hmoves).mp hf
      exact h.step_elect hmoves hf.1 hf.2
    · exact h.step_join hmoves ((if_neg hmoves).mp hf)
  · exact ⟨m, h.step_of_placed ha hf hkept⟩

end Survives

/-- **Acknowledged batches survive failovers**: in every fenced run of a partition, the node
that the committed metadata names as the leader has them, at the base offsets that were
answered. -/
theorem acknowledged_survives (topic : Bytes) (p : ℤ) (members : List ℤ) (quorum : Quorum)
    (cfg : ℤ → Config) (now : ℤ) {m : PartitionMeta} {as : List Action}
    (hm : (System.init topic p members quorum cfg now).placed = some m)
    (hrun : Along System.step (fun s a => s.Sound a ∧ s.Fenced a)
      (.init topic p members quorum cfg now) as) :
    Always System.step Durable (.init topic p members quorum cfg now) as := by
  refine Always.mono (hrun.always (P := fun s => ∃ m, Survives s m) ⟨m, Survives.init hm⟩ ?_) ?_
  · rintro s a ⟨m, h⟩ ⟨ha, hf⟩
    exact h.step ha hf
  · rintro s ⟨m, h⟩
    exact h.durable

/-- A batch is replicated and acknowledged, the leader stops, the follower takes over and
has a batch of its own acknowledged, and the old leader comes back into the ISR. -/
def returnRun : List Action :=
  [.reconcile 0 1 0, .reconcile 1 1 0, .produce 0 1 1 (makeBatch 1 [1]), .request 1 1 100,
    .serve 0 1 2, .apply 0 3, .request 1 1 100, .serve 1 1 4, .ack 0, .crash 0, .failover 1 1 [],
    .commit electOne, .reconcile 1 2 5, .produce 1 2 6 (makeBatch 1 [2]), .tick 1 2 7, .ack 0,
    .restart 0 8, .reconcile 0 2 8, .request 0 2 100, .serve 2 2 9, .apply 2 10, .tick 1 2 11,
    .commit (setISR [0, 1])]

theorem acknowledged_survives_return :
    Along System.step System.Proposed pair returnRun ∧
      (run System.step pair returnRun).acked
        = [⟨0, [stamp 0 (makeBatch 1 [1])]⟩, ⟨1, [stamp 1 (makeBatch 1 [2])]⟩] ∧
      (run System.step pair returnRun).placed.map (·.isr) = some [0, 1] ∧
      Always System.step Durable pair returnRun := by
  refine ⟨by decide +kernel, by decide +kernel, by decide +kernel, ?_⟩
  have hm : pair.placed = some ⟨[0, 1], 0, [0, 1], 0⟩ := by decide +kernel
  exact acknowledged_survives [116] 0 [0, 1] _ _ 0 hm (by decide +kernel)

/-- The follower is put out of the ISR before its first fetch, and a batch is stored and
acknowledged without it.  Its first fetch, at offset 0, puts it back; then the leader stops,
and it is elected. -/
def lossRun : List Action :=
  [.reconcile 0 1 0, .reconcile 1 1 0, .tick 0 1 (11 * second), .commit (setISR [0]),
    .produce 0 2 (11 * second) (makeBatch 1 []), .tick 0 2 (11 * second), .ack 0, .request 1 2 100,
    .serve 0 2 (12 * second), .tick 0 2 (12 * second), .commit (setISR [0, 1]), .crash 0,
    .failover 1 3 [], .commit electOne]

/-- **Where an acknowledged batch is lost.** -/
theorem acknowledged_lost :
    Along System.step (fun s a => s.Proposed a ∧ s.Sound a) pair lossRun ∧
      (run System.step pair lossRun).acked = [⟨0, [stamp 0 (makeBatch 1 [])]⟩] ∧
      (run System.step pair lossRun).placed.map (·.leader) = some 1 ∧
      (run System.step pair lossRun).batches 1 = [] ∧ ¬ Durable (run System.step pair lossRun) := by
  have hacked : (run System.step pair lossRun).acked = [⟨0, [stamp 0 (makeBatch 1 [])]⟩] := by
    decide +kernel
  have hplaced : (run System.step pair lossRun).placed = some ⟨[0, 1], 1, [1], 1⟩ := by
    decide +kernel
  have hempty : (run System.step pair lossRun).batches 1 = [] := by decide +kernel
  refine ⟨by decide +kernel, hacked, by rw [hplaced]; rfl, hempty, ?_⟩
  intro h
  obtain ⟨hpart, -⟩ := h _ hplaced ⟨0, [stamp 0 (makeBatch 1 [])]⟩ (by rw [hacked]; simp)
  rw [show (_ : PartitionMeta).leader = 1 from rfl, hempty] at hpart
  exact absurd (List.eq_nil_of_infix_nil hpart) (by simp)

end Cluster
end Mq
