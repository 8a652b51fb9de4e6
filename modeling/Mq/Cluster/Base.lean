import Mq.Cluster.System

/-!
# What every step of the cluster does

The actions, one by one, in terms of the batches in the logs, the high watermarks and the
messages, and what holds in every sound run whatever the metadata says: the logs only
grow, no follower is taken to be further than it is, and responses are whole batches.

## Main definitions

* `absorb bs rs` — what the batches `bs` of a replica become when it is given `rs`.
* `Base` — what holds in every state of a sound run.
* `System.NodeStep`, `System.MailStep` — what an action can do to a node and to the rest.
* `Follows` — some of the nodes hold prefixes of the log of one of them.

## Main results

* `System.node_step`, `System.mail_step` — **everything that can happen in a step.**
* `Base.step` — every sound action keeps the invariant.
* `Follows.step` — nodes that take over what the one node has appended go on to hold
  prefixes of its log.
-/

namespace Mq
namespace Cluster

open Word Record Storage Controller Replication Transition
open Framing (feed)

/-! ### Applying batches -/

/-- A replica skips the batches below its log end, stores the next one, and gives up at a
gap. -/
def absorb (bs : List Bytes) : List Bytes → List Bytes
  | [] => bs
  | r :: rs =>
    if (header r).baseOffset < offsetCount bs then absorb bs rs
    else if offsetCount bs < (header r).baseOffset then bs
    else absorb (bs ++ [r]) rs

theorem prefix_absorb (bs rs : List Bytes) : bs <+: absorb bs rs := by
  induction rs generalizing bs with
  | nil => exact List.prefix_rfl
  | cons r rs ih =>
    rw [absorb]
    split
    · exact ih bs
    · split
      · exact List.prefix_rfl
      · exact (List.prefix_append bs [r]).trans (ih (bs ++ [r]))

/-- A replica that holds a prefix of some history and is given a part of that history still
holds a prefix of it. -/
theorem absorb_of_served {history : List Bytes} {z : ℤ} (hch : Chained 0 history z)
    {rs : List Bytes} : ∀ {bs : List Bytes}, bs <+: history →
      Served history (offsetCount bs) rs → absorb bs rs <+: history := by
  induction rs with
  | nil => intro bs hbs _; exact hbs
  | cons r rs ih =>
    intro bs hbs hserved
    rw [absorb]
    rcases Served.next hch hbs rfl hserved with ⟨hlt, hrest⟩ | ⟨heq, hpre, hrest⟩
    · rw [if_pos hlt]
      exact ih hbs hrest
    · rw [if_neg (by omega), if_neg (by omega)]
      apply ih hpre
      rwa [offsetCount_append, offsetCount_cons, offsetCount_nil, add_zero]

theorem feed_applyBatch (now : ℤ) {rs : List Bytes} (hwf : ∀ b ∈ rs, WellFormed b) {l : Log}
    (hl : l.Whole) (hroom : l.Room rs) :
    (feed (applyBatch now) l rs).1.Whole ∧
      (feed (applyBatch now) l rs).1.batches = absorb l.batches rs ∧
      (feed (applyBatch now) l rs).1.holdHWM = l.holdHWM ∧
      (feed (applyBatch now) l rs).1.highWatermark = l.highWatermark := by
  induction rs generalizing l with
  | nil => exact ⟨hl, rfl, rfl, rfl⟩
  | cons r rs ih =>
    have hrest := fun c hc => hwf c (List.mem_cons_of_mem r hc)
    rw [feed, applyBatch, absorb, ← hl.nextOffset_eq]
    rcases hl.appendReplica now (hwf r List.mem_cons_self) hroom (Server.recordCount_nonneg hrest) with
      ⟨hlt, hroom', heq⟩ | ⟨hgt, e, heq⟩ | ⟨hbase, l', next, heq, hl', hroom', hbatches, hhold, hhwm⟩
    · rw [heq, if_pos hlt]
      exact ih hrest hl hroom'
    · rw [heq, if_neg (by omega), if_pos hgt]
      exact ⟨hl, rfl, rfl, rfl⟩
    · rw [heq, if_neg (by omega), if_neg (by omega), ← hbatches]
      obtain ⟨h₁, h₂, h₃, h₄⟩ := ih hrest hl' hroom'
      exact ⟨h₁, h₂, h₃.trans hhold, h₄.trans hhwm⟩

/-- A response that is a sequence of well-formed batches. -/
theorem applyResponse_cases {b : Broker} (hb : b.log.Whole) (now : ℤ) {r : Response}
    (hr : Server.WellFormedSet r.records) (hroom : b.log.Room (split r.records)) :
    ∃ l, System.applyResponse b now r = { b with log := l } ∧ l.Whole ∧
      l.batches = absorb b.log.batches (split r.records) ∧ l.holdHWM = b.log.holdHWM := by
  obtain ⟨hwf, hflat⟩ := hr
  obtain ⟨hwhole, hbatches, hhold, hhwm⟩ := feed_applyBatch now hwf hb hroom
  obtain ⟨hstate, hend⟩ := iterate_flatten (applyBatch now) b.log fun c hc => (hwf c hc).1
  rw [hflat] at hstate hend
  rw [System.applyResponse]
  rcases hit : iterate (applyBatch now) r.records b.log with ⟨l, n, e⟩
  rw [hit] at hstate hend
  dsimp only at hstate hend
  subst hstate
  obtain ⟨x, hset, hge, hle, -⟩ := hwhole.setHighWatermark r.hwm
  cases hfeed : (feed (applyBatch now) b.log (split r.records)).2 with
  | none =>
    rw [hfeed] at hend
    subst hend
    refine ⟨_, rfl, ?_, ?_, ?_⟩
    · rw [hset]
      exact hwhole.of_eq _ (hwhole.nonneg.trans hge) hle
    · rw [hset]; exact hbatches
    · rw [hset]; exact hhold
  | some e =>
    rw [hfeed] at hend
    subst hend
    exact ⟨_, rfl, hwhole, hbatches, hhold⟩

/-- What a follower is answered: batches of the log, unless its offset lies beyond the log
end. -/
theorem buildFetch_replica {b : Broker} (hb : b.log.Whole) {self : ℤ} {pv : Option PartitionMeta}
    (hlead : Broker.leads self pv = true) (now : ℤ) {replicaID offset : ℤ} (hid : 0 ≤ replicaID)
    (hoff : 0 ≤ offset) (maxBytes : ℤ) :
    ∃ code data, Server.buildFetch b self now pv replicaID offset maxBytes
        = (b.recordReplicaFetch self now pv replicaID offset,
            some ⟨code, b.log.highWatermark, b.log.earliestOffset, data⟩) ∧
      (code = .none → Server.WellFormedSet data ∧ Served b.log.batches offset (split data)) := by
  rw [Server.buildFetch, if_pos hlead]
  generalize (if maxBytes ≤ 0 then Server.defaultFetchBytes else maxBytes) = limit
  rcases lt_trichotomy offset b.log.nextOffset with hlt | heq | hgt
  · obtain ⟨pre, c, cs, post, hbatches, hb₀, hb₁, hread⟩ := hb.read hoff hlt limit
    have hch := hb.chained
    rw [hbatches] at hch
    obtain ⟨y, hy, -, hbase, -⟩ := chained_append.mp hch
    have hstop := hy.stop_eq
    have hwf : ∀ d ∈ c :: cs, WellFormed d := fun d hd => hch.wellFormed d (by simp_all; tauto)
    rw [hread]
    dsimp only
    rw [if_pos hid]
    refine ⟨_, _, rfl, fun _ => ⟨Server.wellFormedSet_flatten hwf, ?_⟩⟩
    rw [split_flatten fun d hd => (hwf d hd).1]
    exact ⟨pre, post, by rw [hbatches]; simp, by omega⟩
  · rw [heq, Log.Whole.read_end]
    dsimp only
    rw [if_pos hid]
    exact ⟨_, _, rfl, fun _ => ⟨by decide, served_nil (heq ▸ hoff)⟩⟩
  · rw [hb.read_out (.inr hgt)]
    dsimp only
    rw [if_pos hid]
    exact ⟨_, _, rfl, fun hcode => by cases hcode⟩

/-! ### The invariant -/

/-- The logs are whole, what the followers asked for and are taken to hold is at or below
their log ends, and the responses are sequences of well-formed batches. -/
structure Base (s : System) : Prop where
  whole : ∀ n, (s.nodes n).log.Whole
  requests : ∀ r ∈ s.requests, 0 ≤ r.replicaID ∧ r.replicaID ≠ r.leader ∧ 0 ≤ r.offset ∧
    r.offset ≤ s.logEnd r.replicaID
  progress : ∀ n id, (s.nodes n).endOffset id ≤ s.logEnd id
  responses : ∀ r ∈ s.responses, r.replicaID ≠ r.leader ∧ Server.WellFormedSet r.records

theorem base_init (topic : Bytes) (p : ℤ) (members : List ℤ) (quorum : Quorum)
    (cfg : ℤ → Config) (now : ℤ) : Base (.init topic p members quorum cfg now) where
  whole := fun n => whole_create (cfg n) now
  requests := by intro r hr; cases hr
  progress := fun _ _ => le_rfl
  responses := by intro r hr; cases hr

namespace System

variable {s : System}

theorem setNode_self (s : System) (n : ℤ) : s.setNode n (s.nodes n) = s := by
  rw [setNode, Function.update_eq_self]

theorem nodes_setNode (s : System) (n : ℤ) (b : Broker) (k : ℤ) :
    (s.setNode n b).nodes k = if k = n then b else s.nodes k := by
  rw [setNode]
  exact Function.update_apply s.nodes n b k

/-! ### What the actions can do -/

theorem reconcile_cases (n : ℤ) (v : ℕ) (now : ℤ) :
    ∃ b : Broker, s.reconcile n v now = s.setNode n b ∧ b.followers = (s.nodes n).followers ∧
      b.up = (s.nodes n).up ∧
      (b.log = (s.nodes n).log ∨ b.log = (s.nodes n).log.holdHighWatermark) := by
  have hself : s = s.setNode n (s.nodes n) := (s.setNode_self n).symm
  rw [reconcile]
  split
  · refine ⟨_, rfl, ?_⟩
    unfold Broker.reconcileFromFSM
    split
    · exact ⟨rfl, rfl, .inl rfl⟩
    · split
      · dsimp only
        split
        · unfold Broker.noteLeadSince
          split <;> exact ⟨rfl, rfl, .inr rfl⟩
        · exact ⟨rfl, rfl, .inr rfl⟩
      · exact ⟨rfl, rfl, .inl rfl⟩
  · exact ⟨s.nodes n, hself, rfl, rfl, .inl rfl⟩

/-- A produce request stores its batches at the end of the log of a node that takes itself
for the leader, and waits. -/
theorem produce_cases (h : Base s) {n : ℤ} {v : ℕ} {now : ℤ} {records : Bytes}
    (ha : s.Sound (.produce n v now records)) :
    s.produce n v now records = s ∨ ∃ l m, s.running n = true ∧ s.view v = some m ∧ m.leader = n ∧
      l.Whole ∧ l.batches = s.batches n ++ stampAll (s.logEnd n) (split records) ∧
      l.holdHWM = (s.log n).holdHWM ∧
      (l.highWatermark = s.hwm n ∨ (s.log n).holdHWM = false ∧ l.highWatermark = l.nextOffset) ∧
      s.produce n v now records =
        { s.setNode n { s.nodes n with log := l } with
          waits := s.waits ++ if split records = [] then []
            else [⟨n, s.term, s.logEnd n, l.nextOffset, stampAll (s.logEnd n) (split records)⟩] } := by
  rw [produce]
  by_cases hrun : s.running n = true
  · rw [if_pos hrun]
    by_cases hlead : Broker.leads n (s.view v) = true
    · obtain ⟨l, hl, hbatches, hhold, hhwm, heq⟩ :=
        Server.produce_spec (h.whole n) hlead now ha.1 ha.2
      obtain ⟨m, hm, hmn⟩ := Broker.leads_iff.mp hlead
      have hhwm : l.highWatermark = s.hwm n ∨
          (s.log n).holdHWM = false ∧ l.highWatermark = l.nextOffset := by
        by_cases hold : (s.log n).holdHWM = true
        · exact .inl (by rw [hhwm, if_pos (.inl hold)]; rfl)
        · rw [hhwm]
          split
          · exact .inl rfl
          · exact .inr ⟨Bool.eq_false_iff.mpr hold, rfl⟩
      refine .inr ⟨l, m, hrun, hm, hmn, hl, hbatches, hhold, hhwm, ?_⟩
      rw [heq]
      by_cases hnil : split records = []
      · simp only [if_pos hnil]
        rw [if_neg (by decide), List.append_nil]
        rfl
      · simp only [if_neg hnil]
        rfl
    · rw [Server.produce, if_neg hlead]
      exact .inl (s.setNode_self n)
  · rw [if_neg hrun]
    exact .inl rfl

theorem ack_cases (i : ℕ) :
    s.ack i = s ∨ ∃ w, s.waits[i]? = some w ∧ w.target ≤ s.hwm w.node ∧
      s.ack i = { s with acked := s.acked ++ [⟨w.base, w.batches⟩] } := by
  rw [ack]
  cases hw : s.waits[i]? with
  | none => exact .inl rfl
  | some w =>
    dsimp only
    split
    · next h => exact .inr ⟨w, rfl, of_decide_eq_true h.2, rfl⟩
    · exact .inl rfl

theorem request_cases (n : ℤ) (v : ℕ) (maxBytes : ℤ) :
    s.request n v maxBytes = s ∨ ∃ m, s.view v = some m ∧ 0 ≤ n ∧ m.leader ≠ n ∧
      s.request n v maxBytes
        = { s with requests := s.requests ++ [⟨n, m.leader, s.logEnd n, maxBytes⟩] } := by
  unfold request
  cases hm : s.view v with
  | none => exact .inl rfl
  | some m =>
    dsimp only
    split
    · next h => exact .inr ⟨m, rfl, h.2.1, h.2.2.2, rfl⟩
    · exact .inl rfl

/-- A leader that serves a follower notes the offset, may advance its high watermark, and
answers with batches of its log, from the one on that contains the offset. -/
theorem serve_cases (h : Base s) (i v : ℕ) (now : ℤ) :
    s.serve i v now = s ∨ ∃ r b x new, s.requests[i]? = some r ∧
      b = { s.nodes r.leader with
            followers := (s.nodes r.leader).followers.insert r.replicaID ⟨r.offset, now⟩ } ∧
      (∃ m, s.view v = some m ∧ m.leader = r.leader) ∧ b.Advances r.leader (s.view v) x ∧
      (new = [] ∨ ∃ hwm records, new = [⟨r.replicaID, r.leader, s.term, hwm, records⟩] ∧
        Server.WellFormedSet records ∧ Served (s.batches r.leader) r.offset (split records)) ∧
      s.serve i v now = { s.setNode r.leader { b with log := { b.log with highWatermark := x } } with
        responses := s.responses ++ new } := by
  rw [serve]
  cases hr : s.requests[i]? with
  | none => exact .inl rfl
  | some r =>
    obtain ⟨hid, -, hoff, -⟩ := h.requests r (List.mem_of_getElem? hr)
    dsimp only
    by_cases hrun : s.running r.leader = true
    · rw [if_pos hrun]
      by_cases hlead : Broker.leads r.leader (s.view v) = true
      · obtain ⟨code, data, hfetch, hdata⟩ :=
          buildFetch_replica (h.whole r.leader) hlead now hid hoff r.maxBytes
        obtain ⟨x, hadv, hx⟩ := Broker.advanceHighWatermark_cases
          (b := { s.nodes r.leader with
            followers := (s.nodes r.leader).followers.insert r.replicaID ⟨r.offset, now⟩ })
          (h.whole r.leader) r.leader (s.view v)
        rw [hfetch, Broker.recordReplicaFetch, hadv]
        right
        by_cases hcode : code = .none
        · subst hcode
          exact ⟨r, _, x, [⟨r.replicaID, r.leader, s.term, _, data⟩], rfl, rfl,
            Broker.leads_iff.mp hlead, hx,
            .inr ⟨_, data, rfl, hdata rfl⟩, rfl⟩
        · refine ⟨r, _, x, [], rfl, rfl, Broker.leads_iff.mp hlead, hx, .inl rfl, ?_⟩
          rw [List.append_nil]
          cases code with
          | none => exact absurd rfl hcode
          | _ => rfl
      · rw [Server.buildFetch, if_neg hlead]
        cases s.view v <;> exact .inl (s.setNode_self r.leader)
    · rw [if_neg hrun]
      exact .inl rfl

theorem apply_cases (h : Base s) {i : ℕ} {now : ℤ} (ha : s.Sound (.apply i now)) :
    s.apply i now = s ∨ ∃ r l, s.responses[i]? = some r ∧ s.running r.replicaID = true ∧
      l.Whole ∧ l.batches = absorb (s.batches r.replicaID) (split r.records) ∧
      l.holdHWM = (s.log r.replicaID).holdHWM ∧
      s.apply i now = s.setNode r.replicaID { s.nodes r.replicaID with log := l } := by
  rw [apply]
  cases hr : s.responses[i]? with
  | none => exact .inl rfl
  | some r =>
    obtain ⟨-, hset⟩ := h.responses r (List.mem_of_getElem? hr)
    dsimp only
    split
    · next hrun =>
      obtain ⟨l, heq, hl, hbatches, hhold⟩ :=
        applyResponse_cases (h.whole r.replicaID) now hset (ha r hr)
      exact .inr ⟨r, l, rfl, hrun, hl, hbatches, hhold, by rw [heq]⟩
    · exact .inl rfl

theorem tick_cases (h : Base s) (n : ℤ) (v : ℕ) (now : ℤ) :
    s.tick n v now = s ∨ ∃ m x q, s.view v = some m ∧ m.leader = n ∧
      (s.nodes n).Advances n (some m) x ∧ q.committed = s.quorum.committed ∧
      s.tick n v now = { s.setNode n { s.nodes n with
        log := { (s.nodes n).log with highWatermark := x } } with quorum := q } := by
  unfold tick
  cases hm : s.view v with
  | none => exact .inl rfl
  | some m =>
    dsimp only
    split
    · next hlead =>
      obtain ⟨x, hadv, hx⟩ := Broker.advanceHighWatermark_cases (h.whole n) n (some m)
      refine .inr ⟨m, x, _, rfl, hlead.2.1, hx, ?_, by rw [hadv]⟩
      unfold Quorum.propose
      split <;> rfl
    · exact .inl rfl

theorem failover_cases (n : ℤ) (v : ℕ) (heard : List ℤ) :
    ∃ q, q.committed = s.quorum.committed ∧ s.failover n v heard = { s with quorum := q } := by
  unfold failover
  cases s.view v with
  | none => exact ⟨s.quorum, rfl, rfl⟩
  | some m =>
    dsimp only
    split
    · refine ⟨_, ?_, rfl⟩
      unfold Quorum.propose
      split <;> rfl
    · exact ⟨s.quorum, rfl, rfl⟩

theorem crash_cases (n : ℤ) :
    s.crash n = s ∨ s.crash n = { s.setNode n { s.nodes n with up := false } with
      waits := s.waits.filter (·.node ≠ n) } := by
  rw [crash]
  split
  · exact .inr rfl
  · exact .inl rfl

theorem restart_cases (h : Base s) (n now : ℤ) :
    s.restart n now = s ∨ (s.nodes n).up = false ∧ ∃ l, l.Whole ∧ l.batches = s.batches n ∧
      l.highWatermark = l.nextOffset ∧ s.restart n now = s.setNode n ⟨l, ∅, none, true⟩ := by
  rw [restart]
  split
  · next hdown =>
    obtain ⟨l, hopen, hl, hbatches, hhwm, -⟩ := (h.whole n).reopen now
    refine .inr ⟨hdown.2, l, hl, hbatches, hhwm, ?_⟩
    rw [Broker.restart, hopen]
  · exact .inl rfl

/-! ### What happens to a node and to the messages -/

/-- What an action can do to the node `n`. -/
inductive NodeStep (s : System) (n : ℤ) : Action → Broker → Prop
  | same (a : Action) : NodeStep s n a (s.nodes n)
  | hold {v : ℕ} {now : ℤ} {b : Broker} (hfollow : b.followers = (s.nodes n).followers)
      (hup : b.up = (s.nodes n).up)
      (hlog : b.log = (s.nodes n).log ∨ b.log = (s.nodes n).log.holdHighWatermark) :
      NodeStep s n (.reconcile n v now) b
  | append {v : ℕ} {now : ℤ} {records : Bytes} {m : PartitionMeta} {l : Log}
      (hrun : s.running n = true) (hview : s.view v = some m) (hlead : m.leader = n) (hl : l.Whole)
      (hbatches : l.batches = s.batches n ++ stampAll (s.logEnd n) (split records))
      (hhold : l.holdHWM = (s.log n).holdHWM)
      (hhwm : l.highWatermark = s.hwm n ∨
        (s.log n).holdHWM = false ∧ l.highWatermark = l.nextOffset) :
      NodeStep s n (.produce n v now records) { s.nodes n with log := l }
  | serve {i v : ℕ} {now x : ℤ} {r : Request} {b : Broker} {m : PartitionMeta}
      (hr : s.requests[i]? = some r) (hn : r.leader = n)
      (hb : b = { s.nodes n with
        followers := (s.nodes n).followers.insert r.replicaID ⟨r.offset, now⟩ })
      (hview : s.view v = some m) (hlead : m.leader = n) (hx : b.Advances n (some m) x) :
      NodeStep s n (.serve i v now) { b with log := { b.log with highWatermark := x } }
  | apply {i : ℕ} {now : ℤ} {r : Response} {l : Log} (hr : s.responses[i]? = some r)
      (hn : r.replicaID = n) (hrun : s.running n = true) (hl : l.Whole)
      (hbatches : l.batches = absorb (s.batches n) (split r.records))
      (hhold : l.holdHWM = (s.log n).holdHWM) :
      NodeStep s n (.apply i now) { s.nodes n with log := l }
  | tick {v : ℕ} {now x : ℤ} {m : PartitionMeta} (hview : s.view v = some m) (hlead : m.leader = n)
      (hx : (s.nodes n).Advances n (some m) x) :
      NodeStep s n (.tick n v now)
        { s.nodes n with log := { (s.nodes n).log with highWatermark := x } }
  | stop : NodeStep s n (.crash n) { s.nodes n with up := false }
  | reopen {now : ℤ} {l : Log} (hdown : (s.nodes n).up = false) (hl : l.Whole)
      (hbatches : l.batches = s.batches n) (hhwm : l.highWatermark = l.nextOffset) :
      NodeStep s n (.restart n now) ⟨l, ∅, none, true⟩

/-- An action that sets one node leaves the others alone. -/
theorem nodeStep_setNode {n k : ℤ} {a : Action} {b : Broker} (hn : NodeStep s n a b) :
    NodeStep s k a ((s.setNode n b).nodes k) := by
  rw [s.nodes_setNode]
  split
  · next hk => subst hk; exact hn
  · exact .same a

/-- **Everything that can happen to a node.** -/
theorem node_step (h : Base s) {a : Action} (ha : s.Sound a) (k : ℤ) :
    NodeStep s k a ((s.step a).nodes k) := by
  cases a with
  | reconcile n v now =>
    obtain ⟨b, heq, hfollow, hup, hlog⟩ := s.reconcile_cases n v now
    rw [step, heq]
    exact nodeStep_setNode (.hold hfollow hup hlog)
  | produce n v now records =>
    rcases produce_cases h ha with
      heq | ⟨l, m, hrun, hview, hlead, hl, hbatches, hhold, hhwm, heq⟩ <;> rw [step, heq]
    · exact .same _
    · exact nodeStep_setNode (.append hrun hview hlead hl hbatches hhold hhwm)
  | ack i =>
    rcases s.ack_cases i with heq | ⟨w, -, -, heq⟩ <;> rw [step, heq] <;> exact .same _
  | request n v maxBytes =>
    rcases s.request_cases n v maxBytes with heq | ⟨m, -, -, -, heq⟩ <;> rw [step, heq] <;>
      exact .same _
  | serve i v now =>
    rcases s.serve_cases h i v now with
      heq | ⟨r, b, x, new, hr, hb, ⟨m, hview, hlead⟩, hx, -, heq⟩ <;> rw [step, heq]
    · exact .same _
    · exact nodeStep_setNode (.serve hr rfl hb hview hlead (hview ▸ hx))
  | apply i now =>
    rcases apply_cases h ha with heq | ⟨r, l, hr, hrun, hl, hbatches, hhold, heq⟩ <;>
      rw [step, heq]
    · exact .same _
    · exact nodeStep_setNode (.apply hr rfl hrun hl hbatches hhold)
  | tick n v now =>
    rcases s.tick_cases h n v now with heq | ⟨m, x, q, hview, hlead, hx, -, heq⟩ <;> rw [step, heq]
    · exact .same _
    · exact nodeStep_setNode (.tick hview hlead hx)
  | failover n v heard =>
    obtain ⟨q, -, heq⟩ := s.failover_cases n v heard
    rw [step, heq]
    exact .same _
  | commit cmd => exact .same _
  | crash n =>
    rcases s.crash_cases n with heq | heq <;> rw [step, heq]
    · exact .same _
    · exact nodeStep_setNode .stop
  | restart n now =>
    rcases s.restart_cases h n now with heq | ⟨hdown, l, hl, hbatches, hhwm, heq⟩ <;>
      rw [step, heq]
    · exact .same _
    · exact nodeStep_setNode (.reopen hdown hl hbatches hhwm)

/-- What an action can do to everything but the nodes. -/
inductive MailStep (s : System) : Action → System → Prop
  | quiet (a : Action) {nodes : ℤ → Broker} {q : Quorum} (hq : q.committed = s.quorum.committed)
      (hcrash : ∀ n, a = .crash n → nodes = s.nodes) :
      MailStep s a { s with nodes := nodes, quorum := q }
  | produce {n : ℤ} {v : ℕ} {now : ℤ} {records : Bytes} {m : PartitionMeta} {nodes : ℤ → Broker}
      (hrun : s.running n = true) (hview : s.view v = some m) (hlead : m.leader = n)
      (hne : split records ≠ [])
      (hbatches : (nodes n).log.batches = s.batches n ++ stampAll (s.logEnd n) (split records)) :
      MailStep s (.produce n v now records) { s with
        nodes := nodes
        waits := s.waits ++ [⟨n, s.term, s.logEnd n, (nodes n).log.nextOffset,
          stampAll (s.logEnd n) (split records)⟩] }
  | ack {i : ℕ} {w : Wait} (hw : s.waits[i]? = some w) (hle : w.target ≤ s.hwm w.node) :
      MailStep s (.ack i) { s with acked := s.acked ++ [⟨w.base, w.batches⟩] }
  | request {n : ℤ} {v : ℕ} {maxBytes : ℤ} {m : PartitionMeta} (hview : s.view v = some m)
      (hn : 0 ≤ n) (hne : m.leader ≠ n) :
      MailStep s (.request n v maxBytes)
        { s with requests := s.requests ++ [⟨n, m.leader, s.logEnd n, maxBytes⟩] }
  | serve {i v : ℕ} {now hwm : ℤ} {r : Request} {records : Bytes} {nodes : ℤ → Broker}
      (hr : s.requests[i]? = some r) (hset : Server.WellFormedSet records)
      (hserved : Served (s.batches r.leader) r.offset (split records)) :
      MailStep s (.serve i v now) { s with
        nodes := nodes
        responses := s.responses ++ [⟨r.replicaID, r.leader, s.term, hwm, records⟩] }
  | commit (cmd : Command) : MailStep s (.commit cmd) (s.commit cmd)
  | crash {n : ℤ} {nodes : ℤ → Broker} : MailStep s (.crash n) { s with
      nodes := nodes
      waits := s.waits.filter (·.node ≠ n) }

/-- **Everything that can happen to the messages.** -/
theorem mail_step (h : Base s) {a : Action} (ha : s.Sound a) : MailStep s a (s.step a) := by
  have hsame : ∀ a, MailStep s a s := fun a => .quiet a rfl fun _ _ => rfl
  cases a with
  | reconcile n v now =>
    obtain ⟨b, heq, -⟩ := s.reconcile_cases n v now
    rw [step, heq]
    exact .quiet _ rfl nofun
  | produce n v now records =>
    rcases produce_cases h ha with heq | ⟨l, m, hrun, hview, hlead, -, hbatches, -, -, heq⟩ <;>
      rw [step, heq]
    · exact hsame _
    · by_cases hnil : split records = []
      · rw [if_pos hnil, List.append_nil]
        exact .quiet _ rfl nofun
      · have hl : ((s.setNode n { s.nodes n with log := l }).nodes n).log = l := by
          rw [s.nodes_setNode, if_pos rfl]
        rw [← hl] at hbatches
        rw [if_neg hnil, show l.nextOffset = _ from congrArg Log.nextOffset hl.symm]
        exact .produce hrun hview hlead hnil hbatches
  | ack i =>
    rcases s.ack_cases i with heq | ⟨w, hw, hle, heq⟩ <;> rw [step, heq]
    · exact hsame _
    · exact .ack hw hle
  | request n v maxBytes =>
    rcases s.request_cases n v maxBytes with heq | ⟨m, hview, hn, hne, heq⟩ <;> rw [step, heq]
    · exact hsame _
    · exact .request hview hn hne
  | serve i v now =>
    rcases s.serve_cases h i v now with heq | ⟨r, b, x, new, hr, -, -, -, hnew, heq⟩ <;>
      rw [step, heq]
    · exact hsame _
    · rcases hnew with rfl | ⟨hwm, records, rfl, hset, hserved⟩
      · rw [List.append_nil]
        exact .quiet _ rfl nofun
      · exact .serve hr hset hserved
  | apply i now =>
    rcases apply_cases h ha with heq | ⟨r, l, -, -, -, -, -, heq⟩ <;> rw [step, heq]
    · exact hsame _
    · exact .quiet _ rfl nofun
  | tick n v now =>
    rcases s.tick_cases h n v now with heq | ⟨m, x, q, -, -, -, hq, heq⟩ <;> rw [step, heq]
    · exact hsame _
    · exact .quiet _ hq nofun
  | failover n v heard =>
    obtain ⟨q, hq, heq⟩ := s.failover_cases n v heard
    rw [step, heq]
    exact .quiet _ hq nofun
  | commit cmd => exact .commit cmd
  | crash n =>
    rcases s.crash_cases n with heq | heq <;> rw [step, heq]
    · exact hsame _
    · exact .crash
  | restart n now =>
    rcases s.restart_cases h n now with heq | ⟨-, l, -, -, -, heq⟩ <;> rw [step, heq]
    · exact hsame _
    · exact .quiet _ rfl nofun

/-- Only a commit changes the placement. -/
theorem placed_step (h : Base s) {a : Action} (ha : s.Sound a) :
    (∃ cmd, a = .commit cmd) ∨
      ((s.step a).placed = s.placed ∧ (s.step a).term = s.term ∧
        (s.step a).termStart = s.termStart) := by
  have hmail := mail_step h ha
  generalize s.step a = t at hmail
  cases hmail with
  | quiet a hq =>
    unfold placed term Quorum.state
    dsimp only
    rw [hq]
    exact .inr ⟨rfl, rfl, rfl⟩
  | commit cmd => exact .inl ⟨cmd, rfl⟩
  | produce | ack | request | serve | crash => exact .inr ⟨rfl, rfl, rfl⟩

end System

/-! ### Every step keeps the invariant -/

namespace Base

variable {s : System} (h : Base s)
include h

theorem logEnd_eq (n : ℤ) : s.logEnd n = offsetCount (s.batches n) :=
  (h.whole n).nextOffset_eq

theorem chained (n : ℤ) : Chained 0 (s.batches n) (s.logEnd n) := (h.whole n).chained

theorem logEnd_nonneg (n : ℤ) : 0 ≤ s.logEnd n :=
  (h.whole n).nonneg.trans (h.whole n).le_next

variable {a : Action}

/-- A node's log stays whole and only grows. -/
theorem node_step {n : ℤ} {b : Broker} (hb : System.NodeStep s n a b) :
    b.log.Whole ∧ s.batches n <+: b.log.batches := by
  cases hb with
  | same | stop => exact ⟨h.whole n, List.prefix_rfl⟩
  | hold hfollow hup hlog =>
    rcases hlog with hlog | hlog <;> rw [hlog]
    · exact ⟨h.whole n, List.prefix_rfl⟩
    · exact ⟨(h.whole n).holdHighWatermark, List.prefix_rfl⟩
  | append hrun hview hlead hl hbatches => exact ⟨hl, by rw [hbatches]; exact List.prefix_append _ _⟩
  | serve hr hn hb hview hlead hx =>
    subst hb
    exact ⟨(h.whole n).of_eq _ ((h.whole n).nonneg.trans hx.ge) hx.le, List.prefix_rfl⟩
  | apply hr hn hrun hl hbatches => exact ⟨hl, by rw [hbatches]; exact prefix_absorb _ _⟩
  | tick hview hlead hx =>
    exact ⟨(h.whole n).of_eq _ ((h.whole n).nonneg.trans hx.ge) hx.le, List.prefix_rfl⟩
  | reopen hdown hl hbatches => exact ⟨hl, by rw [hbatches]⟩

/-- Logs only grow. -/
theorem batches_step (ha : s.Sound a) (n : ℤ) :
    s.batches n <+: (s.step a).batches n := (h.node_step (System.node_step h ha n)).2

theorem logEnd_step (ha : s.Sound a) (n : ℤ) : s.logEnd n ≤ (s.step a).logEnd n := by
  obtain ⟨hwhole, rest, hrest⟩ := h.node_step (System.node_step h ha n)
  have hch := hwhole.chained
  rw [← hrest] at hch
  obtain ⟨y, hy, hz⟩ := chained_append.mp hch
  rw [h.logEnd_eq, show offsetCount (s.batches n) = y by have := hy.stop_eq; omega]
  exact hz.le

omit h in
/-- What a follower is taken to hold: as before, nothing, or what it last asked for. -/
theorem endOffset_step {n : ℤ} {b : Broker} (hb : System.NodeStep s n a b) (id : ℤ) :
    b.endOffset id = (s.nodes n).endOffset id ∨ b.endOffset id = 0 ∨
      ∃ r ∈ s.requests, r.replicaID = id ∧ b.endOffset id = r.offset := by
  cases hb with
  | same | append | apply | tick | stop => exact .inl rfl
  | hold hfollow hup hlog => exact .inl (by rw [Broker.endOffset, hfollow]; rfl)
  | serve hr hn hb hview hlead hx =>
    subst hb
    rw [Broker.endOffset]
    dsimp only
    rw [Table.lookup_insert_ite]
    split
    · next hid => exact .inr (.inr ⟨_, List.mem_of_getElem? hr, hid.symm, rfl⟩)
    · exact .inl rfl
  | reopen => exact .inr (.inl rfl)

/-- No follower is taken to hold more than it does. -/
theorem progress_step {n : ℤ} {b : Broker} (hb : System.NodeStep s n a b) (id : ℤ) :
    b.endOffset id ≤ s.logEnd id := by
  rcases endOffset_step hb id with heq | heq | ⟨r, hr, rfl, heq⟩ <;> rw [heq]
  · exact h.progress n id
  · exact h.logEnd_nonneg id
  · exact (h.requests r hr).2.2.2

/-- **Every sound action keeps the invariant.** -/
theorem step (ha : s.Sound a) : Base (s.step a) := by
  have hmono := h.logEnd_step ha
  have hrequests : ∀ r ∈ s.requests, 0 ≤ r.replicaID ∧ r.replicaID ≠ r.leader ∧ 0 ≤ r.offset ∧
      r.offset ≤ (s.step a).logEnd r.replicaID := by
    intro r hr
    obtain ⟨h₁, h₂, h₃, h₄⟩ := h.requests r hr
    exact ⟨h₁, h₂, h₃, h₄.trans (hmono _)⟩
  refine ⟨fun n => (h.node_step (System.node_step h ha n)).1, ?_, ?_, ?_⟩
  · have hmail := System.mail_step h ha
    generalize s.step a = t at hmail hrequests hmono
    intro r hr
    cases hmail with
    | quiet | produce | ack | serve | commit | crash => exact hrequests r hr
    | request hview hn hne =>
      rcases List.mem_append.mp hr with hr | hr
      · exact hrequests r hr
      · rw [List.mem_singleton.mp hr]
        exact ⟨hn, Ne.symm hne, h.logEnd_nonneg _, le_rfl⟩
  · exact fun n id => (h.progress_step (System.node_step h ha n) id).trans (hmono id)
  · have hmail := System.mail_step h ha
    generalize s.step a = t at hmail
    intro r hr
    cases hmail with
    | quiet | produce | ack | request | commit | crash => exact h.responses r hr
    | serve hq hset hserved =>
      rcases List.mem_append.mp hr with hr | hr
      · exact h.responses r hr
      · rw [List.mem_singleton.mp hr]
        exact ⟨(h.requests _ (List.mem_of_getElem? hq)).2.1, hset⟩

end Base

/-! ### Following one log -/

/-- The logs of the nodes in `P` are prefixes of the log of node `k`, and the responses in
`Q` carry a part of it that begins at or below the log end of the replica they are for. -/
structure Follows (s : System) (k : ℤ) (P : ℤ → Prop) (Q : Response → Prop) : Prop where
  self : P k
  logs : ∀ n, P n → s.batches n <+: s.batches k
  responses : ∀ r ∈ s.responses, Q r →
    Served (s.batches k) (s.logEnd r.replicaID) (split r.records)

/-- What the nodes have to keep to: those in `P` other than `k` append nothing of their
own, responses in `Q` come from a node in `P`, and the nodes in `P` apply no others. -/
def System.Keeps (s : System) (k : ℤ) (P : ℤ → Prop) (Q : Response → Prop) : Action → Prop
  | .produce n v _ _ => ∀ m, s.view v = some m → m.leader = n → n = k ∨ ¬ P n
  | .serve i _ _ => ∀ r, s.requests[i]? = some r →
      ∀ hwm records, Q ⟨r.replicaID, r.leader, s.term, hwm, records⟩ → P r.leader
  | .apply i _ => ∀ r, s.responses[i]? = some r → P r.replicaID → Q r
  | _ => True

/-- Of two prefixes of one history, the one with fewer offsets is a prefix of the other. -/
theorem prefix_of_offsetCount_le {history bs cs : List Bytes} {z : ℤ} (hch : Chained 0 history z)
    (hbs : bs <+: history) (hcs : cs <+: history) (hle : offsetCount bs ≤ offsetCount cs) :
    bs <+: cs := by
  rcases List.prefix_or_prefix_of_prefix hbs hcs with h | ⟨rest, rfl⟩
  · exact h
  · obtain ⟨tail, rfl⟩ := hbs
    obtain ⟨y, hy, -⟩ := chained_append.mp hch
    obtain ⟨x, -, hx⟩ := chained_append.mp hy
    -- every batch has an offset
    have hlen := hx.add_length_le
    have hstop := hx.stop_eq
    rw [offsetCount_append] at hle
    have hnil : rest = [] := List.eq_nil_of_length_eq_zero (by omega)
    rw [hnil, List.append_nil]

namespace Follows

variable {s : System} {k : ℤ} {P : ℤ → Prop} {Q : Response → Prop}

theorem init (topic : Bytes) (p : ℤ) (members : List ℤ) (quorum : Quorum) (cfg : ℤ → Config)
    (now : ℤ) (hk : P k) : Follows (.init topic p members quorum cfg now) k P Q where
  self := hk
  logs := fun _ _ => List.prefix_rfl
  responses := by intro r hr; cases hr

/-- What a node that keeps to it holds after the step is still a part of what node `k`
holds after it. -/
theorem logs_step (hf : Follows s k P Q) (h : Base s) {a : Action} (ha : s.Sound a)
    (hkeep : s.Keeps k P Q a) {n : ℤ} (hn : P n) : (s.step a).batches n <+: (s.step a).batches k := by
  have hk := h.batches_step ha k
  have hnode := System.node_step h ha n
  rw [System.batches] at *
  generalize hafter : (s.step a).nodes n = b at hnode
  have hpre := (hf.logs n hn).trans hk
  cases hnode with
  | same | stop | tick => exact hpre
  | hold hfollow hup hlog => rcases hlog with hlog | hlog <;> rw [hlog] <;> exact hpre
  | serve hr hn' hb => subst hb; exact hpre
  | reopen hdown hl hbatches => rw [hbatches]; exact hpre
  | append hrun hview hlead =>
    rcases hkeep _ hview hlead with rfl | hnot
    · rw [System.batches, hafter]
    · exact absurd hn hnot
  | apply hr hn' hrun hl hbatches =>
    subst hn'
    rw [hbatches]
    have hserved := hf.responses _ (List.mem_of_getElem? hr) (hkeep _ hr hn)
    rw [h.logEnd_eq] at hserved
    exact (absorb_of_served (h.chained k) (hf.logs _ hn) hserved).trans hk

/-- **Every action of nodes that keep to it.** -/
theorem step (hf : Follows s k P Q) (h : Base s) {a : Action} (ha : s.Sound a)
    (hkeep : s.Keeps k P Q a) : Follows (s.step a) k P Q := by
  refine ⟨hf.self, fun n hn => hf.logs_step h ha hkeep hn, ?_⟩
  have hk := h.batches_step ha k
  have hmono := h.logEnd_step ha
  have hold : ∀ r ∈ s.responses, Q r →
      Served ((s.step a).batches k) ((s.step a).logEnd r.replicaID) (split r.records) :=
    fun r hr hq => ((hf.responses r hr hq).extend hk).mono (hmono r.replicaID)
  have hmail := System.mail_step h ha
  generalize s.step a = t at hmail hk hold hmono
  intro r hr hq
  cases hmail with
  | quiet | produce | ack | request | commit | crash => exact hold r hr hq
  | serve hreq hset hserved =>
    rcases List.mem_append.mp hr with hr | hr
    · exact hold r hr hq
    · rw [List.mem_singleton.mp hr] at hq ⊢
      have hle := (h.requests _ (List.mem_of_getElem? hreq)).2.2.2
      have hleader := hf.logs _ (hkeep _ hreq _ _ hq)
      exact (hserved.extend (hleader.trans hk)).mono (hle.trans (hmono _))

end Follows

end Cluster
end Mq
