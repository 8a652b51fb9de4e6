import Mathlib.Data.List.TakeWhile
import Mq.Cluster.Leader

/-!
# What consumers see

A consumer is given whole batches below the high watermark.  Because the clamp drops the
first batch that reaches the high watermark and everything after it, a high watermark in
the middle of a batch would keep consumers from ever reading that batch.  It never lies
there: it is the smallest of the leader's log end and the offsets of the followers' last
fetches, which were log ends of the followers, and the followers hold prefixes of the
leader's log.

## Main definitions

* `Boundary bs o` — the offset `o` lies between two of the batches `bs`, or at an end.
* `Aligned` — the offsets that the leader computes the high watermark from are boundaries
  of its log.
* `ServesCommitted` — what a broker answers to consumers.

## Main results

* `servesCommitted` — a leader whose high watermark is a boundary serves what is below it,
  and nothing else.
* `Aligned.step` — every action keeps the offsets at boundaries.
* `consumers_see_committed` — **consumers see exactly the committed records**, as long as
  the segments stay within the 32-bit sizes.
* `consumer_skips_batch` — a segment that spans more offsets makes the leader skip a batch.
-/

namespace Mq
namespace Cluster

open Word Record Storage Controller Replication Transition

/-! ### Boundaries -/

/-- The offset lies at the end of a prefix of the batches. -/
def Boundary (bs : List Bytes) (o : ℤ) : Prop := ∃ pre, pre <+: bs ∧ offsetCount pre = o

theorem boundary_zero (bs : List Bytes) : Boundary bs 0 := ⟨[], List.nil_prefix, rfl⟩

theorem boundary_end (bs : List Bytes) : Boundary bs (offsetCount bs) := ⟨bs, List.prefix_rfl, rfl⟩

theorem Boundary.extend {bs cs : List Bytes} {o : ℤ} (h : Boundary bs o) (hpre : bs <+: cs) :
    Boundary cs o := by
  obtain ⟨pre, hbs, rfl⟩ := h
  exact ⟨pre, hbs.trans hpre, rfl⟩

/-- A batch that begins below a boundary ends at or below it. -/
theorem Boundary.batch_le {bs : List Bytes} {z o : ℤ} (h : Boundary bs o) (hch : Chained 0 bs z)
    {b : Bytes} (hb : b ∈ bs) (hlt : (header b).baseOffset < o) :
    (header b).baseOffset + (header b).recordCount ≤ o := by
  obtain ⟨pre, ⟨post, rfl⟩, rfl⟩ := h
  obtain ⟨y, hy, hz⟩ := chained_append.mp hch
  have hstop := hy.stop_eq
  rcases List.mem_append.mp hb with hb | hb
  · have := (hy.bounds hb).2
    omega
  · have := (hz.bounds hb).1
    omega

/-! ### One answer -/

/-- What a broker answers to consumers.  Below the high watermark an answer has a batch
that contains the offset, and more of the following ones that are below the high watermark
or none; above it there are no records. -/
structure ServesCommitted (b : Broker) (node : ℤ) : Prop where
  below : ∀ (now : ℤ) (pv : Option PartitionMeta) (replicaID o maxBytes : ℤ),
    Broker.leads node pv = true → replicaID < 0 →
    b.log.earliestOffset ≤ o → o < b.log.highWatermark →
    ∃ resp data, (Server.buildFetch b node now pv replicaID o maxBytes).2 = some resp ∧
      resp.errorCode = .none ∧ resp.highWatermark = b.log.highWatermark ∧
      b.log.read o (if maxBytes ≤ 0 then Server.defaultFetchBytes else maxBytes) = .ok (data, none) ∧
      resp.records <+: data ∧
      ∃ c cs, resp.records = (c :: cs).flatten ∧ c :: cs <:+: b.log.batches ∧ Contains c o ∧
        ∀ d ∈ c :: cs, (header d).lastOffset < b.log.highWatermark
  above : ∀ (now : ℤ) (pv : Option PartitionMeta) (replicaID o maxBytes : ℤ),
    Broker.leads node pv = true → replicaID < 0 →
    b.log.highWatermark ≤ o → o ≤ b.log.latestOffset →
    ∃ resp, (Server.buildFetch b node now pv replicaID o maxBytes).2 = some resp ∧
      resp.errorCode = .none ∧ resp.records = []

/-- What a consumer is answered, for a read that returns batches. -/
theorem buildFetch_consumer {b : Broker} {self : ℤ} {pv : Option PartitionMeta}
    (hlead : Broker.leads self pv = true) (now : ℤ) {replicaID o : ℤ} (hid : replicaID < 0)
    {maxBytes : ℤ} {bs : List Bytes} (hbs : ∀ c ∈ bs, Framed c)
    (hread : b.log.read o (if maxBytes ≤ 0 then Server.defaultFetchBytes else maxBytes)
      = .ok (bs.flatten, none)) :
    (Server.buildFetch b self now pv replicaID o maxBytes).2
      = some ⟨.none, b.log.highWatermark, b.log.earliestOffset,
          (Server.below b.log.highWatermark bs).flatten⟩ := by
  rw [Server.buildFetch, if_pos hlead, hread]
  dsimp only
  rw [if_neg (by omega), Server.clampToHighWatermark_flatten _ hbs]
  rfl

/-- **A leader whose high watermark is a boundary** serves what is below it, and nothing
else. -/
theorem servesCommitted {b : Broker} (hb : b.log.Whole)
    (hbound : Boundary b.log.batches b.log.highWatermark) (self : ℤ) : ServesCommitted b self := by
  constructor
  · intro now pv replicaID o maxBytes hlead hid ho₀ ho₁
    rw [hb.earliestOffset_eq] at ho₀
    obtain ⟨pre, c, cs, post, hbatches, hc₀, hc₁, hread⟩ := hb.read ho₀ (ho₁.trans_le hb.le_next)
      (if maxBytes ≤ 0 then Server.defaultFetchBytes else maxBytes)
    have hpiece : c :: cs <:+: b.log.batches := ⟨pre, post, by rw [hbatches]; simp⟩
    have hframed : ∀ d ∈ c :: cs, Framed d := fun d hd => hb.chained.framed d (hpiece.subset hd)
    have hlast := hb.lastOffset_eq (hpiece.subset List.mem_cons_self)
    -- the first batch is kept, since the high watermark does not lie inside it
    have hend := hbound.batch_le hb.chained (hpiece.subset List.mem_cons_self) (by omega)
    have hkeep : Server.below b.log.highWatermark (c :: cs)
        = c :: Server.below b.log.highWatermark cs :=
      List.takeWhile_cons_of_pos (decide_eq_true (by omega))
    have hpre : Server.below b.log.highWatermark (c :: cs) <+: c :: cs := List.takeWhile_prefix _
    refine ⟨_, _, buildFetch_consumer hlead now hid hframed hread, rfl, rfl, hread, hpre.flatten,
      c, Server.below b.log.highWatermark cs, by rw [hkeep], ?_, ⟨hc₀, by omega⟩, ?_⟩
    · rw [← hkeep]
      exact hpre.isInfix.trans hpiece
    · rw [← hkeep]
      intro d hd
      have hkept := List.mem_takeWhile_imp (p := fun d => decide _) hd
      exact of_decide_eq_true hkept
  · intro now pv replicaID o maxBytes hlead hid ho₀ ho₁
    rcases eq_or_lt_of_le ho₁ with heq | hlt
    · have hread := Log.Whole.read_end b.log
        (if maxBytes ≤ 0 then Server.defaultFetchBytes else maxBytes)
      rw [show b.log.nextOffset = o from heq.symm] at hread
      have hnil : ∀ d ∈ ([] : List Bytes), Framed d := by simp
      exact ⟨_, buildFetch_consumer hlead now hid hnil hread, rfl, rfl⟩
    · obtain ⟨pre, c, cs, post, hbatches, hc₀, hc₁, hread⟩ := hb.read (hb.nonneg.trans ho₀) hlt
        (if maxBytes ≤ 0 then Server.defaultFetchBytes else maxBytes)
      have hpiece : c :: cs <:+: b.log.batches := ⟨pre, post, by rw [hbatches]; simp⟩
      have hframed : ∀ d ∈ c :: cs, Framed d := fun d hd => hb.chained.framed d (hpiece.subset hd)
      have hlast := hb.lastOffset_eq (hpiece.subset List.mem_cons_self)
      -- the first batch reaches the high watermark already
      have hdrop : Server.below b.log.highWatermark (c :: cs) = [] :=
        List.takeWhile_cons_of_neg (by rw [decide_eq_true_eq]; omega)
      refine ⟨_, buildFetch_consumer hlead now hid hframed hread, rfl, ?_⟩
      rw [hdrop]
      rfl

/-! ### The leader's offsets -/

/-- What followers ask for, what the leader takes them to hold and the high watermark are
boundaries of the leader's log. -/
structure Aligned (s : System) (leader : ℤ) : Prop where
  requests : ∀ r ∈ s.requests, Boundary (s.batches leader) r.offset
  progress : ∀ id, Boundary (s.batches leader) ((s.nodes leader).endOffset id)
  hwm : Boundary (s.batches leader) (s.hwm leader)

namespace Aligned

variable {s : System} {leader : ℤ}

theorem init (topic : Bytes) (p : ℤ) (members : List ℤ) (quorum : Quorum) (cfg : ℤ → Config)
    (now leader : ℤ) : Aligned (.init topic p members quorum cfg now) leader where
  requests := by intro r hr; cases hr
  progress := fun _ => boundary_zero _
  hwm := boundary_zero _

/-- What the leader takes a follower to hold was a request's offset, or is 0. -/
theorem progress_step (h : Aligned s leader) {a : Action} {b : Broker}
    (hb : System.NodeStep s leader a b) (id : ℤ) : Boundary (s.batches leader) (b.endOffset id) := by
  rcases Base.endOffset_step hb id with heq | heq | ⟨r, hr, -, heq⟩ <;> rw [heq]
  · exact h.progress id
  · exact boundary_zero _
  · exact h.requests r hr

/-- What the high watermark moves to is a boundary. -/
theorem advances (h : Aligned s leader) (hbase : Base s) {b : Broker} {m : PartitionMeta} {x : ℤ}
    (hx : b.Advances leader (some m) x) (hlog : b.log = (s.nodes leader).log)
    (hprogress : ∀ id, Boundary (s.batches leader) (b.endOffset id)) :
    Boundary (s.batches leader) x := by
  rcases hx.known with heq | ⟨-, -, -, -, heq | ⟨id, heq⟩⟩
  · rw [heq, hlog]
    exact h.hwm
  · rw [heq, hlog, (hbase.whole leader).nextOffset_eq]
    exact boundary_end _
  · rw [heq]
    exact hprogress id

theorem hwm_step (h : Aligned s leader) (hone : OneLeader s leader) {a : Action} {b : Broker}
    (hb : System.NodeStep s leader a b) : Boundary b.log.batches b.log.highWatermark := by
  have hgrow := (hone.base.node_step hb).2
  have hprogress := h.progress_step hb
  cases hb with
  | same | stop => exact h.hwm
  | hold hfollow hup hlog => rcases hlog with hlog | hlog <;> rw [hlog] <;> exact h.hwm
  | append hrun hview hlead hl hbatches hhold hhwm =>
    rcases hhwm with heq | ⟨-, heq⟩
    · rw [heq]
      exact h.hwm.extend hgrow
    · rw [heq, hl.nextOffset_eq]
      exact boundary_end _
  | serve hr hn hb hview hlead hx =>
    subst hb
    exact h.advances hone.base hx rfl hprogress
  | apply hr hn => exact absurd hn (hone.not_for_leader (List.mem_of_getElem? hr))
  | tick hview hlead hx => exact h.advances hone.base hx rfl h.progress
  | reopen hdown hl hbatches hhwm =>
    rw [hhwm, hl.nextOffset_eq]
    exact boundary_end _

/-- **Every action keeps the offsets at boundaries.** -/
theorem step (h : Aligned s leader) (hone : OneLeader s leader) {a : Action} (ha : s.Sound a) :
    Aligned (s.step a) leader := by
  have hgrow := hone.base.batches_step ha leader
  have hnode := System.node_step hone.base ha leader
  refine ⟨?_, fun id => (h.progress_step hnode id).extend hgrow, h.hwm_step hone hnode⟩
  have hold : ∀ r ∈ s.requests, Boundary ((s.step a).batches leader) r.offset :=
    fun r hr => (h.requests r hr).extend hgrow
  have hmail := System.mail_step hone.base ha
  generalize s.step a = t at hmail hold hgrow
  intro r hr
  cases hmail with
  | quiet | produce | ack | serve | commit | crash => exact hold r hr
  | @request n =>
    rcases List.mem_append.mp hr with hr | hr
    · exact hold r hr
    · -- a follower's log end, and the follower holds a prefix
      rw [List.mem_singleton.mp hr]
      exact ⟨s.batches n, (hone.follows.logs n trivial).trans hgrow, (hone.base.logEnd_eq n).symm⟩

end Aligned

/-- **Consumers see exactly the committed records**: in every state of a run with one
leader the high watermark is a boundary of the leader's log, and a consumer's fetch is
answered with consecutive batches below it that begin with the one asked for. -/
theorem consumers_see_committed (topic : Bytes) (p : ℤ) (members : List ℤ) (quorum : Quorum)
    (cfg : ℤ → Config) (now leader : ℤ) {as : List Action}
    (hrun : Along System.step (fun s a => s.Sound a ∧ s.Led leader a)
      (.init topic p members quorum cfg now) as) :
    Always System.step (fun s => Boundary (s.batches leader) (s.hwm leader) ∧
        ServesCommitted (s.nodes leader) leader)
      (.init topic p members quorum cfg now) as := by
  refine Always.mono (hrun.always (P := fun s => OneLeader s leader ∧ Aligned s leader)
    ⟨OneLeader.init topic p members quorum cfg now leader,
      Aligned.init topic p members quorum cfg now leader⟩ ?_) ?_
  · rintro s a ⟨hone, hal⟩ ⟨ha, hled⟩
    exact ⟨hone.step ha hled, hal.step hone ha⟩
  · rintro s ⟨hone, hal⟩
    exact ⟨hal.hwm, servesCommitted (hone.base.whole leader) hal.hwm leader⟩

theorem consumers_see_committed_pause :
    (run System.step pair pauseRun).hwm 0 = 3 ∧
      Always System.step (fun s => Boundary (s.batches 0) (s.hwm 0) ∧
        ServesCommitted (s.nodes 0) 0) pair pauseRun :=
  ⟨by decide +kernel,
    consumers_see_committed [116] 0 [0, 1] _ _ 0 0 (by decide +kernel)⟩

/-- Three batches of `2 ^ 31 - 1` records in one segment, committed by the leader alone. -/
def wideRun : List Action :=
  [.commit (setISR [0]), .produce 0 2 1 (makeBatch 2147483647 []),
    .produce 0 2 2 (makeBatch 2147483647 []), .produce 0 2 3 (makeBatch 2147483647 []), .tick 0 2 4]

/-- The batches are well formed. -/
def System.WellFormedBatches (_ : System) : Action → Prop
  | .produce _ _ _ records => Server.WellFormedSet records
  | _ => True

instance (s : System) : ∀ a, Decidable (s.WellFormedBatches a)
  | .produce _ _ _ records => inferInstanceAs (Decidable (Server.WellFormedSet records))
  | .reconcile _ _ _ | .ack _ | .request _ _ _ | .serve _ _ _ | .apply _ _ | .tick _ _ _
  | .failover _ _ _ | .commit _ | .crash _ | .restart _ _ => inferInstanceAs (Decidable True)

/-- One of the three batches, at its offset. -/
def wideBatch (base : ℤ) : Bytes := stamp base (makeBatch 2147483647 [])

theorem wideRun_batches : (run System.step pair wideRun).batches 0
    = [wideBatch 0, wideBatch 2147483647, wideBatch 4294967294] := by
  decide +kernel

/-- The leader, asked for the second batch. -/
theorem wideRun_fetch : (Server.buildFetch ((run System.step pair wideRun).nodes 0) 0 5
    ((run System.step pair wideRun).view 2) (-1) 2147483647 1).2.map (·.records)
      = some (wideBatch 4294967294) := by
  decide +kernel

/-- **Where consumers miss a batch.**  The index entry of the third batch has a negative
relative offset.  The search for the second batch, which is below the high watermark, ends
at the third, and that one is what the consumer is given. -/
theorem consumer_skips_batch :
    Along System.step (fun s a => s.WellFormedBatches a ∧ s.Led 0 a) pair wideRun ∧
      (run System.step pair wideRun).hwm 0 = 6442450941 ∧
      ¬ ServesCommitted ((run System.step pair wideRun).nodes 0) 0 := by
  refine ⟨by decide +kernel, by decide +kernel, ?_⟩
  intro h
  obtain ⟨resp, data, hresp, -, -, -, -, c, cs, hrecords, hpart, hcontains, -⟩ :=
    h.below 5 ((run System.step pair wideRun).view 2) (-1) 2147483647 1 (by decide +kernel)
      (by decide) (by decide +kernel) (by decide +kernel)
  have hgiven := wideRun_fetch
  rw [hresp, Option.map_some, Option.some_inj, hrecords, List.flatten_cons] at hgiven
  -- the records begin with the second batch, the only one that contains the offset
  have hmem := hpart.subset (List.mem_cons_self (a := c))
  rw [show (_ : Log).batches = _ from wideRun_batches] at hmem
  have hsecond : c = wideBatch 2147483647 := by
    simp only [List.mem_cons, List.not_mem_nil, or_false] at hmem
    rcases hmem with rfl | rfl | rfl
    · exact absurd hcontains (by decide +kernel)
    · rfl
    · exact absurd hcontains (by decide +kernel)
  have hprefix : wideBatch 2147483647 <+: wideBatch 4294967294 := ⟨cs.flatten, hsecond ▸ hgiven⟩
  exact absurd hprefix (by decide +kernel)

end Cluster
end Mq
