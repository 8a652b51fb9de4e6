import Mq.Object.Located

/-!
# What the object backend stores, and reads back

Between the operations of a run without concurrency no part is on its way: what was
appended to a partition and not dropped lies behind its refs and then in the buffer.  A read
finds the place of an offset and returns batches from there.

Every operation is a run of regular steps of the machine that appends what the operation
should, so that where the batches are follows from what holds at every step.

## Main definitions

* `Operation`, `Node.operate` — the calls, and uploads whose put fails.
* `Node.adds`, `appended` — what an operation, or a run, appends to a partition.
* `Contents` — what holds between the operations.

## Main results

* `Contents.operate` — every operation keeps the invariant.
* `object_read_correct` — **refs without gaps, spans that hold their batches, and reads
  that return them**, while no log end leaves the 64-bit range.
* `log_end_wraps` — a log end beyond that range ends the order of the refs.
-/

namespace Mq
namespace Object

open Word Record Transition

/-! ### Operations -/

/-- An upload that fails at the put: the store has taken the object, or it has not. -/
def Storage.failedUpload (s : Storage) (nowMs : ℤ) (stored : Bool) : Storage :=
  match s.takePending with
  | none => s
  | some (s, snap) =>
    match s.wal.rotate none with
    | (w, none) => restore { s with wal := w } snap
    | (w, some _) =>
      let key := objectKey s.nodeID s.uploadSeq
      let s := { s with wal := w }
      let s := if stored then s.put key (assemble key nowMs snap).1 else s
      s.restore snap

/-- The operations of a run in which each one returns before the next begins. -/
inductive Operation
  | call (c : Call)
  | failedUpload (nowMs : ℤ) (stored : Bool)
  deriving DecidableEq, Repr

/-- The batches that are appended are well formed. -/
def Operation.WellFormed : Operation → Prop
  | .call (.append _ _ batch) => Record.WellFormed batch
  | .call (.appendReplica _ _ batch) => Record.WellFormed batch
  | _ => True

instance (op : Operation) : Decidable op.WellFormed := by
  rcases op with (_ | _ | _ | _ | _) | _ <;> unfold Operation.WellFormed <;> infer_instance

namespace Node

def operate (n : Node) : Operation → Node
  | .call c => n.call c
  | .failedUpload nowMs stored => { n with storage := n.storage.failedUpload nowMs stored }

/-- The log end stays within 64 bits. -/
def InRange (n : Node) : Operation → Prop
  | .call (.append topic partition batch) =>
    ∀ l ∈ n.logs.lookup (indexKey topic partition),
      l.nextOffset + (header batch).recordCount < 9223372036854775808
  | .call (.appendReplica topic partition batch) =>
    ∀ l ∈ n.logs.lookup (indexKey topic partition),
      l.nextOffset + (header batch).recordCount < 9223372036854775808
  | _ => True

instance (n : Node) (op : Operation) : Decidable (n.InRange op) := by
  rcases op with (_ | _ | _ | _ | _) | _ <;> unfold InRange <;> infer_instance

/-- What an operation appends to a partition that is open: a producer's batch with the
log end for its base offset, a leader's batch as it is if it starts there. -/
def adds (n : Node) (k : Bytes) : Operation → List Bytes
  | .call (.append topic partition batch) =>
    if indexKey topic partition = k then
      ((n.logs.lookup (indexKey topic partition)).map fun l => stamp l.nextOffset batch).toList
    else []
  | .call (.appendReplica topic partition batch) =>
    if indexKey topic partition = k then
      ((n.logs.lookup (indexKey topic partition)).filter
        fun l => (header batch).baseOffset = l.nextOffset).toList.map fun _ => batch
    else []
  | _ => []

end Node

/-- What a run appends to a partition. -/
def appended (k : Bytes) : Node → List Operation → List Bytes
  | _, [] => []
  | n, op :: ops => n.adds k op ++ appended k (n.operate op) ops

theorem appended_append (k : Bytes) (n : Node) (ops ops' : List Operation) :
    appended k n (ops ++ ops')
      = appended k n ops ++ appended k (run Node.operate n ops) ops' := by
  induction ops generalizing n with
  | nil => rfl
  | cons op ops ih =>
    rw [List.cons_append, appended, appended, ih, run_cons, List.append_assoc]

/-! ### Operations as steps of the machine -/

namespace Node

variable {n : Node}

/-- **The steps of an upload whose put fails, with nothing in between, are
`Storage.failedUpload`.** -/
theorem run_failedUpload (hup : n.up = true) (hidle : n.phase = .idle)
    (hne : n.storage.pending.entries ≠ []) (hopen : n.storage.wal.closed = false) (nowMs : ℤ)
    (stored : Bool) :
    run Node.step n [.swap, .rotate none, .putFail nowMs stored]
      = { n with storage := n.storage.failedUpload nowMs stored } := by
  simp only [run_cons, run_nil, step, hup, if_true, act, swap, hidle, Storage.takePending,
    if_neg hne, rotate, rotate_open hopen, putFail, Storage.failedUpload]

theorem failedUpload_of_empty {s : Storage} (h : s.pending.entries = []) (nowMs : ℤ)
    (stored : Bool) : s.failedUpload nowMs stored = s := by
  rw [Storage.failedUpload, Storage.takePending, if_pos h]

end Node

/-! ### The numbers of a run -/

/-- A well-formed batch moves the log end by the number of its records. -/
theorem nextOf_eq {b : Bytes} (hb : Record.WellFormed b)
    (hrange : (header b).baseOffset + (header b).recordCount < 9223372036854775808) :
    nextOf b = (header b).baseOffset + (header b).recordCount := by
  have hbase := (wrap64_bounds (getUint b offBaseOffset 8)).1
  have hcount := hb.2.2
  have hdelta := hb.2.1
  have hlow : -9223372036854775808 ≤ (header b).baseOffset := hbase
  have hlast : (header b).lastOffset = (header b).baseOffset + (header b).lastOffsetDelta :=
    wrap64_eq (by omega) (by omega)
  rw [nextOf, hlast, wrap64_eq (by omega) (by omega)]
  omega

/-- An operation within the 64-bit range moves the log end forward. -/
theorem callAdvances_of_inRange {n : Node} (h : SeqInv n) {c : Call}
    (hwf : (Operation.call c).WellFormed) (hin : n.InRange (.call c)) : n.CallAdvances c := by
  cases c with
  | append topic partition batch =>
    intro l hl
    have hrange : wrap64 l.nextOffset = l.nextOffset :=
      Node.logEnd_of_lookup hl ▸ (h.inv.parts (indexKey topic partition)).range
    have hcount := hwf.2.2
    have hheader := header_stamp hwf.1.1 l.nextOffset
    rw [nextOf_eq (wellFormed_stamp hwf _) (by rw [hheader, hrange]; exact hin l hl), hheader,
      hrange]
    dsimp only
    omega
  | appendReplica topic partition batch =>
    intro l hl hbase
    have hcount := hwf.2.2
    rw [nextOf_eq hwf (hbase ▸ hin l hl), hbase]
    omega
  | openLog | upload | enforceRetention => trivial

/-! ### A failed upload -/

/-- A failed upload leaves its parts in the buffer and starts another segment. -/
theorem SeqInv.failedUpload {n : Node} (h : SeqInv n) (nowMs : ℤ) (stored : Bool) :
    SeqInv (n.operate (.failedUpload nowMs stored)) := by
  show SeqInv { n with storage := n.storage.failedUpload nowMs stored }
  by_cases hne : n.storage.pending.entries = []
  · rw [Node.failedUpload_of_empty hne]; exact h
  · have hchained : Chained { n with storage := n.storage.failedUpload nowMs stored } := by
      rw [← Node.run_failedUpload h.up h.idle hne h.handle nowMs stored]
      exact h.toChained.run ⟨trivial, trivial, trivial, trivial⟩
    obtain ⟨hwal, hpend⟩ :
        (n.storage.failedUpload nowMs stored).wal = (n.storage.wal.rotate none).1 ∧
          (n.storage.failedUpload nowMs stored).pending
            = Table.overlay PendingPart.merge n.storage.pending ∅ := by
      rw [Storage.failedUpload, Storage.takePending, if_neg hne]
      dsimp only
      rw [Node.rotate_open h.handle]
      cases stored <;> exact ⟨rfl, rfl⟩
    rw [Node.rotate_open h.handle] at hwal
    refine ⟨hchained, h.idle, h.quiet, ?_, ?_, fun hempty => ?_⟩
    · show (n.storage.failedUpload nowMs stored).wal.closed = false
      rw [hwal]
      exact h.handle
    · show (n.storage.failedUpload nowMs stored).wal.Tidy
      rw [hwal]
      exact (h.tidy.rotate (Node.rotate_open h.handle)).1
    · -- what was pending is pending again
      refine absurd (Table.entries_nil_of_lookup fun k => ?_) hne
      have hnone : (Table.overlay PendingPart.merge n.storage.pending ∅).lookup k = none :=
        hpend ▸ Table.lookup_of_entries_nil hempty k
      rw [Table.lookup_overlay, AList.lookup_empty] at hnone
      cases hk : n.storage.pending.lookup k with
      | none => rfl
      | some pp => rw [hk] at hnone; cases hnone

theorem SeqInv.operate {n : Node} (h : SeqInv n) {op : Operation} (hwf : op.WellFormed)
    (hin : n.InRange op) : SeqInv (n.operate op) := by
  cases op with
  | call c => exact h.call (callAdvances_of_inRange h hwf hin)
  | failedUpload nowMs stored => exact h.failedUpload nowMs stored

/-! ### Operations as runs -/

/-- What holds between the operations of a run that has appended `log`. -/
structure Contents (n : Node) (log : Bytes → List Bytes) : Prop where
  seq : SeqInv n
  located : Located n log

namespace Contents

variable {n : Node} {log : Bytes → List Bytes}
variable {batch : Bytes}

/-- A producer's batch that is well formed is written. -/
theorem append_eq {topic : Bytes} {partition : ℤ} (hb : Record.WellFormed batch) {l : ObjectLog}
    (hfree : n.free (indexKey topic partition) = some l) :
    n.append topic partition batch
      = n.write ⟨topic, partition, l.nextOffset, stamp l.nextOffset batch⟩
          (nextOf (stamp l.nextOffset batch)) false := by
  have hlen : ¬ batch.length < offAttributes := by
    have := hb.1.1
    unfold headerSize at this
    unfold offAttributes
    omega
  have hparse : parseHeader (recomputeCRC (setBaseOffset batch l.nextOffset))
      = .ok (header (stamp l.nextOffset batch)) := (framed_stamp hb.1 l.nextOffset).parseHeader
  rw [Node.append, hfree]
  dsimp only
  rw [if_neg hlen, hparse]
  rfl

/-- A leader's batch that is well formed is written if it starts at the log end, and
leaves the node alone otherwise. -/
theorem appendReplica_eq {topic : Bytes} {partition : ℤ} (hb : Record.WellFormed batch)
    {l : ObjectLog} (hfree : n.free (indexKey topic partition) = some l) :
    n.appendReplica topic partition batch
      = if (header batch).baseOffset = l.nextOffset then
          n.write ⟨topic, partition, (header batch).baseOffset, batch⟩ (nextOf batch) true
        else n := by
  rw [Node.appendReplica, hfree, hb.1.parseHeader]
  dsimp only
  by_cases hbase : (header batch).baseOffset = l.nextOffset
  · rw [if_neg (by omega), if_neg (by omega), if_pos hbase]
    rfl
  · rw [if_neg hbase]
    split
    · rfl
    · rw [if_pos (by omega)]

theorem free_eq (h : SeqInv n) (k : Bytes) : n.free k = n.logs.lookup k := by
  rw [Node.free, h.quiet k]

/-- What an append buffers. -/
theorem buffers_write (hup : n.up = true) (hopen : n.storage.wal.closed = false)
    (rec : WalRecord) (next : ℤ) (replica : Bool) {topic : Bytes} {partition : ℤ}
    (hkey : rec.indexKey = indexKey topic partition) :
    (n.write rec next replica).buffers (.addPending topic partition)
      = [(indexKey topic partition, rec.batch)] := by
  have hlook : (n.appending.insert rec.indexKey ⟨rec, next, replica⟩).lookup
      (indexKey topic partition) = some ⟨rec, next, replica⟩ := hkey ▸ AList.lookup_insert _
  rw [Node.write, Wal.append, hopen]
  simp only [Node.buffers, hup, hlook, Bool.false_eq_true, if_false]

/-- The two halves of an append. -/
theorem run_pair (hup : n.up = true) {a b : Action} (ha : (n.act a).up = n.up) :
    run Node.step n [a, b] = (n.act a).act b ∧
      n.buffered [a, b] = n.buffers a ++ (n.act a).buffers b := by
  have hstep : n.step a = n.act a := if_pos hup
  rw [run_cons, run_cons, run_nil, Node.buffered, Node.buffered, Node.buffered, hstep, Node.step,
    if_pos (ha.trans hup), List.append_nil]
  exact ⟨rfl, rfl⟩

/-- An append is its two halves. -/
theorem exists_run_halves (h : SeqInv n) {a : Action} {topic : Bytes} {partition : ℤ}
    (ha : n.Regular a) (hg : a.Regroups) {adds : Bytes → List Bytes}
    (hadds : ∀ k, inPartition k
      (n.buffers a ++ (n.act a).buffers (.addPending topic partition)) = adds k) :
    ∃ as, Along Node.step Node.Regular n as ∧
      (n.act a).addPending (indexKey topic partition) = run Node.step n as ∧
      ∀ k, n.history as k = adds k := by
  obtain ⟨hrun, hbuf⟩ := run_pair h.up (b := .addPending topic partition) (Frame.act h.inv hg).up
  refine ⟨[a, .addPending topic partition], ⟨ha, trivial, trivial⟩, hrun.symm, fun k => ?_⟩
  rw [Node.history, hbuf, hadds]

theorem exists_run_append (h : SeqInv n) {topic : Bytes} {partition : ℤ}
    (hb : Record.WellFormed batch) (ha : n.Advances (.append topic partition batch)) :
    ∃ as, Along Node.step Node.Regular n as ∧
      n.operate (.call (.append topic partition batch)) = run Node.step n as ∧
      ∀ k, n.history as k = n.adds k (.call (.append topic partition batch)) := by
  refine exists_run_halves h (a := .append topic partition batch) (fun _ => ⟨hb.1, ha⟩) trivial
    fun k => ?_
  rw [Node.adds, Node.act]
  cases hl : n.logs.lookup (indexKey topic partition) with
  | none =>
    rw [Node.append, free_eq h, hl]
    simp [Node.buffers, h.quiet, inPartition]
  | some l =>
    rw [append_eq hb ((free_eq h _).trans hl), buffers_write h.up h.handle _ _ _ rfl]
    exact inPartition_singleton _ _ k

theorem exists_run_appendReplica (h : SeqInv n) {topic : Bytes} {partition : ℤ}
    (hb : Record.WellFormed batch) (ha : n.Advances (.appendReplica topic partition batch)) :
    ∃ as, Along Node.step Node.Regular n as ∧
      n.operate (.call (.appendReplica topic partition batch)) = run Node.step n as ∧
      ∀ k, n.history as k = n.adds k (.call (.appendReplica topic partition batch)) := by
  refine exists_run_halves h (a := .appendReplica topic partition batch) (fun _ => ⟨hb.1, ha⟩)
    trivial fun k => ?_
  rw [Node.adds, Node.act]
  cases hl : n.logs.lookup (indexKey topic partition) with
  | none =>
    rw [Node.appendReplica, free_eq h, hl]
    simp [Node.buffers, h.quiet, inPartition]
  | some l =>
    rw [appendReplica_eq hb ((free_eq h _).trans hl), Option.filter_some]
    by_cases hbase : (header batch).baseOffset = l.nextOffset
    · rw [if_pos hbase, if_pos (decide_eq_true hbase), buffers_write h.up h.handle _ _ _ rfl]
      exact inPartition_singleton _ _ k
    · rw [if_neg hbase]
      simp [Node.buffers, h.quiet, inPartition, hbase]

/-- **Every operation is a run of regular steps** that appends what the operation should. -/
theorem exists_run (h : SeqInv n) {op : Operation} (hwf : op.WellFormed) (hin : n.InRange op) :
    ∃ as, Along Node.step Node.Regular n as ∧ n.operate op = run Node.step n as ∧
      ∀ k, n.history as k = n.adds k op := by
  have hone : ∀ a, run Node.step n [a] = n.act a := by
    intro a; rw [run_cons, run_nil, Node.step, if_pos h.up]
  have hnil : ∀ as k, (∀ a ∈ as, ∀ topic partition, a ≠ Action.addPending topic partition) →
      n.history as k = [] := fun as k has => by rw [Node.history, Node.buffered_eq_nil has]; rfl
  rcases op with c | ⟨nowMs, stored⟩
  · have hadv := callAdvances_of_inRange h hwf hin
    rcases c with ⟨topic, partition⟩ | ⟨topic, partition, batch⟩ | ⟨topic, partition, batch⟩ |
      nowMs | ⟨topic, partition, nowMs, maxAgeMs, maxBytes⟩
    · exact ⟨[.openLog topic partition], ⟨trivial, trivial⟩, (hone (.openLog topic partition)).symm,
        fun _ => rfl⟩
    · exact exists_run_append h hwf hadv
    · exact exists_run_appendReplica h hwf hadv
    · by_cases hne : n.storage.pending.entries = []
      · refine ⟨[], trivial, ?_, fun _ => rfl⟩
        show { n with storage := n.storage.upload nowMs } = n
        rw [SeqInv.upload_of_empty hne]
      · refine ⟨_, (along_of_forall fun a ha => Node.of_mem_uploadActions ha).mono ?_,
          (Node.run_upload h.up h.idle hne h.handle nowMs).symm, fun k => hnil _ k fun a ha => ?_⟩
        · rintro m a (rfl | rfl | rfl | rfl | rfl) <;> trivial
        · rcases Node.of_mem_uploadActions ha with rfl | rfl | rfl | rfl | rfl <;> simp
    · refine ⟨[.enforceRetention topic partition nowMs maxAgeMs maxBytes], ⟨?_, trivial⟩,
        (hone (.enforceRetention topic partition nowMs maxAgeMs maxBytes)).symm, fun _ => rfl⟩
      -- no upload is under way that has a ref to commit
      intro _ _ _ _ c hc
      rw [h.idle] at hc
      cases hc
  · by_cases hne : n.storage.pending.entries = []
    · refine ⟨[], trivial, ?_, fun _ => rfl⟩
      show { n with storage := n.storage.failedUpload nowMs stored } = n
      rw [Node.failedUpload_of_empty hne]
    · exact ⟨[.swap, .rotate none, .putFail nowMs stored], ⟨trivial, trivial, trivial, trivial⟩,
        (Node.run_failedUpload h.up h.idle hne h.handle nowMs stored).symm,
        fun k => hnil _ k (by simp)⟩

/-- **Every operation keeps the invariant**, and appends what it should. -/
theorem operate (h : Contents n log) {op : Operation} (hwf : op.WellFormed)
    (hin : n.InRange op) : Contents (n.operate op) fun k => log k ++ n.adds k op := by
  obtain ⟨as, has, hrun, hadds⟩ := exists_run h.seq hwf hin
  refine ⟨h.seq.operate hwf hin, ?_⟩
  rw [hrun]
  simpa only [hadds] using h.located.run has

/-- The invariant after a run. -/
theorem of_run (nodeID : Bytes) (ops : List Operation) (hwf : ∀ op ∈ ops, op.WellFormed)
    (hin : Along Node.operate Node.InRange (Node.fresh nodeID) ops) :
    Contents (run Node.operate (Node.fresh nodeID) ops)
      fun k => appended k (Node.fresh nodeID) ops := by
  -- the history grows at its end, so the run is taken apart from there
  induction ops using List.reverseRecOn with
  | nil => exact ⟨seqInv_fresh nodeID, located_fresh nodeID⟩
  | append_singleton ops op ih =>
    obtain ⟨hops, hop⟩ := along_append.mp hin
    have hrun := ih (fun o ho => hwf o (List.mem_append_left _ ho)) hops
    have hstep := hrun.operate (hwf op (by simp)) hop.1
    simp only [appended_append, run_snoc]
    simpa only [appended, List.append_nil] using hstep

/-! ### Reading -/

variable {k : Bytes} {l : ObjectLog}

/-- The batches behind a ref. -/
theorem exists_spans (h : Contents n log) {r : SegmentRef} (hr : r ∈ n.committed k) :
    ∃ bs, bs <:+: log k ∧ (∀ b ∈ bs, Framed b) ∧ n.Spans r bs := by
  obtain ⟨dropped, parts, hlog, hparts⟩ := h.located.places k
  obtain ⟨bs, hbs, hspans⟩ := exists_mem_of_forall₂ hparts hr
  obtain ⟨before, after, rfl⟩ := List.append_of_mem hbs
  have hpart : bs <:+: log k := by
    refine ⟨dropped ++ before.flatten,
      after.flatten ++ (n.takenBatches k ++ n.pendingBatches k), ?_⟩
    rw [hlog]
    simp
  exact ⟨bs, hpart, fun b hb => h.located.framed k b (hpart.subset hb), hspans⟩

theorem pendingBatches_suffix (h : Contents n log) : n.pendingBatches k <:+ log k := by
  obtain ⟨dropped, parts, hlog, -⟩ := h.located.places k
  exact ⟨dropped ++ parts.flatten ++ n.takenBatches k, by rw [hlog]; simp⟩

/-- A read at an offset that a ref contains. -/
theorem read_ref (h : Contents n log) {a z o : ℤ} (hcache : n.storage.index.refsFor k = n.committed k)
    (hchain : RefChain a (n.committed k) z) (ho : a ≤ o) (ho' : o < z)
    (hpend : n.storage.pendingData k o = []) (maxBytes : ℤ) :
    ∃ b taken, b :: taken <:+: log k ∧ (header b).baseOffset ≤ o ∧ o ≤ (header b).lastOffset ∧
      n.storage.read k o maxBytes = .ok ((b :: taken).flatten, none) := by
  obtain ⟨pre, r, post, hrefs, hr, hr'⟩ := hchain.exists_contains ho ho'
  obtain ⟨bs, hpart, hframed, hget, hbs⟩ := h.exists_spans (k := k) (r := r) (by rw [hrefs]; simp)
  obtain ⟨b, taken, htaken, hbase, hlast, hslice⟩ := hbs.sliceBatches hframed hr hr' maxBytes
  refine ⟨b, taken, htaken.trans hpart, hbase, hlast, ?_⟩
  rw [hrefs] at hcache hchain
  rw [Storage.read, hpend, if_neg (by simp), hchain.refFor_eq hcache hr hr']
  dsimp only
  rw [hget]
  exact hslice

/-- **A read returns stored batches**, the first of which contains the offset. -/
theorem read (h : Contents n log) (hl : n.logs.lookup k = some l) {o : ℤ} (ho : l.earliest ≤ o)
    (ho' : o < l.nextOffset) (maxBytes : ℤ) :
    ∃ b taken, b :: taken <:+: log k ∧ (header b).baseOffset ≤ o ∧ o ≤ (header b).lastOffset ∧
      l.read n.storage k o maxBytes = .ok ((b :: taken).flatten, none) := by
  have hcache := h.seq.cache k l hl
  have hchain := h.seq.chain hl
  rw [ObjectLog.read, if_neg (by omega), if_neg (by omega)]
  cases hp : n.storage.pending.lookup k with
  | none =>
    rw [hp] at hchain
    refine h.read_ref hcache hchain ho ho' ?_ maxBytes
    rw [Storage.pendingData, hp]
  | some pp =>
    obtain ⟨hok, hend⟩ := (h.seq.inv.parts k).pending pp hp
    rw [Node.logEnd_of_lookup hl] at hend
    rw [hp] at hchain
    by_cases hpp : pp.baseOffset ≤ o
    · -- the offset is in the pending part
      have hsuffix : pp.batches <:+ log k := by
        have := h.pendingBatches_suffix (k := k)
        rwa [Node.pendingBatches, hp] at this
      have hframed : ∀ b ∈ pp.batches, Framed b := fun b hb =>
        h.located.framed k b (hsuffix.subset hb)
      obtain ⟨b, taken, htaken, hbase, hlast, hslice⟩ :=
        hok.contiguous.sliceBatches hframed hpp (hend.symm ▸ ho') maxBytes
      refine ⟨b, taken, htaken.trans hsuffix.isInfix, hbase, hlast, ?_⟩
      have hdata : n.storage.pendingData k o = pp.batches.flatten := by
        rw [Storage.pendingData, hp]
        exact if_pos ⟨hok.ne_nil, hpp⟩
      have hne : pp.batches.flatten ≠ [] := by
        have := length_le_flatten_length hframed
        have := List.length_pos_of_ne_nil hok.ne_nil
        exact List.ne_nil_of_length_pos (by omega)
      rw [Storage.read, hdata, if_pos hne]
      exact hslice
    · refine h.read_ref hcache hchain ho (by rw [baseOr_some]; omega) ?_ maxBytes
      rw [Storage.pendingData, hp]
      exact if_neg fun hc => hpp hc.2

end Contents

/-- **The object backend reads back what was appended.**  After every run of operations
on any partitions, in which no append moves a log end out of the 64-bit range: the refs
of a partition are in order and disjoint, they follow each other without a gap from the
earliest offset to where the pending part begins, the span of each decodes to appended
batches that cover its offsets, and a read returns consecutive batches as they were
appended, the first of which contains the offset. -/
theorem object_read_correct (nodeID : Bytes) (ops : List Operation)
    (hwf : ∀ op ∈ ops, op.WellFormed)
    (hin : Along Node.operate Node.InRange (Node.fresh nodeID) ops)
    (topic : Bytes) (partition : ℤ) (l : ObjectLog)
    (hl : (run Node.operate (Node.fresh nodeID) ops).logs.lookup (indexKey topic partition)
      = some l) :
    let n := run Node.operate (Node.fresh nodeID) ops
    let k := indexKey topic partition
    let log := appended k (Node.fresh nodeID) ops
    (n.committed k).Pairwise (fun r q => r.nextOffset ≤ q.baseOffset) ∧
      RefChain l.earliest (n.committed k) (baseOr (n.storage.pending.lookup k) l.nextOffset) ∧
      (∀ r ∈ n.committed k, ∃ data,
        getRange n.storage.objects r.key r.position r.length = some data ∧
          (split data).flatten = data ∧ split data <:+: log ∧
          Contiguous r.baseOffset (split data) r.nextOffset) ∧
      ∀ o maxBytes, l.earliest ≤ o → o < l.nextOffset →
        ∃ b taken, b :: taken <:+: log ∧
          (header b).baseOffset ≤ o ∧ o ≤ (header b).lastOffset ∧
          l.read n.storage k o maxBytes = .ok ((b :: taken).flatten, none) := by
  intro n k log
  have h := Contents.of_run nodeID ops hwf hin
  have hchain := h.seq.chain hl
  refine ⟨hchain.pairwise, hchain, ?_, ?_⟩
  · intro r hr
    obtain ⟨bs, hpart, hframed, hget, hbs⟩ := h.exists_spans hr
    refine ⟨bs.flatten, hget, ?_⟩
    rw [split_flatten hframed]
    exact ⟨rfl, hpart, hbs⟩
  · intro o maxBytes ho ho'
    exact h.read hl ho ho' maxBytes

/-- Two partitions, one of them with the separator in its name, a put that fails, two
uploads, and a batch that stays pending. -/
def sharedRun : List Operation :=
  [.call (.openLog [116] 0), .call (.openLog [116, 0] 0),
    .call (.append [116] 0 (makeBatch 2 [7])), .call (.append [116, 0] 0 (makeBatch 1 [8])),
    .failedUpload 4 true, .call (.upload 5), .call (.append [116] 0 (makeBatch 3 [])),
    .call (.upload 6), .call (.enforceRetention [116] 0 9 3 0),
    .call (.append [116] 0 (makeBatch 1 [9]))]

/-- In that run the first batch has been dropped, and a read of the second one finds
it. -/
theorem object_read_correct_shared :
    ∃ l, (run Node.operate (Node.fresh [49]) sharedRun).logs.lookup (indexKey [116] 0) = some l ∧
      l.earliest = 2 ∧ l.nextOffset = 6 ∧
      ∃ b taken, b :: taken <:+: appended (indexKey [116] 0) (Node.fresh [49]) sharedRun ∧
        (header b).baseOffset ≤ 3 ∧ 3 ≤ (header b).lastOffset ∧
        l.read (run Node.operate (Node.fresh [49]) sharedRun).storage (indexKey [116] 0) 3 1000
          = .ok ((b :: taken).flatten, none) := by
  have hwf : ∀ op ∈ sharedRun, op.WellFormed := by decide +kernel
  have hin : Along Node.operate Node.InRange (Node.fresh [49]) sharedRun := by decide +kernel
  have hl : (run Node.operate (Node.fresh [49]) sharedRun).logs.lookup (indexKey [116] 0)
      = some ⟨6, 6, false, 2⟩ := by decide +kernel
  obtain ⟨-, -, -, hread⟩ := object_read_correct [49] sharedRun hwf hin [116] 0 _ hl
  exact ⟨_, hl, rfl, rfl, hread 3 1000 (by decide) (by decide)⟩

/-! ### Beyond the 64-bit range -/

/-- A partition that is only appended to and uploaded: its refs, where its pending part
starts, and its log end. -/
structure Growing (n : Node) (topic : Bytes) (partition : ℤ) (refs : List SegmentRef)
    (start logEnd : ℤ) : Prop where
  quiet : ∀ k, n.appending.lookup k = none
  handle : n.storage.wal.closed = false
  keys : ∀ k pp, n.storage.pending.lookup k = some pp → pp.indexKey = k
  opened : ∃ l, n.logs.lookup (indexKey topic partition) = some l ∧ l.nextOffset = logEnd
  refs_eq : n.committed (indexKey topic partition) = refs
  pending : ∀ pp, n.storage.pending.lookup (indexKey topic partition) = some pp →
    pp.baseOffset = start ∧ pp.nextOffset = logEnd
  drained : n.storage.pending.lookup (indexKey topic partition) = none → start = logEnd

namespace Growing

variable {n : Node} {topic : Bytes} {partition : ℤ} {refs : List SegmentRef} {start logEnd : ℤ}

/-- An append moves the log end to where the stamped batch says it ends, whatever that
is. -/
theorem append (h : Growing n topic partition refs start logEnd) {batch : Bytes}
    (hb : Record.WellFormed batch) :
    Growing (n.operate (.call (.append topic partition batch))) topic partition refs start
        (nextOf (stamp logEnd batch)) ∧
      (n.operate (.call (.append topic partition batch))).storage.pending.lookup
        (indexKey topic partition) ≠ none := by
  obtain ⟨l, hl, rfl⟩ := h.opened
  have hfree : n.free (indexKey topic partition) = some l := by
    rw [Node.free, h.quiet, hl]
  have hn := SeqInv.write_addPending
    ⟨topic, partition, l.nextOffset, stamp l.nextOffset batch⟩
    (nextOf (stamp l.nextOffset batch)) false hfree h.handle
  rw [← Contents.append_eq hb hfree] at hn
  rw [show n.operate (.call (.append topic partition batch)) = _ from hn]
  generalize hfile : (⟨topic, partition, l.nextOffset, stamp l.nextOffset batch⟩ : WalRecord)
    = entry
  have hkey : indexKey topic partition = entry.indexKey := by rw [← hfile]; rfl
  have hbase : entry.baseOffset = l.nextOffset := by rw [← hfile]
  generalize nextOf (stamp l.nextOffset batch) = next
  have hlook := Storage.lookup_appended (s := n.storage) entry next
  have hpart : ((n.storage.pending.lookup entry.indexKey).getD entry.part).indexKey
        = entry.indexKey ∧
      ((n.storage.pending.lookup entry.indexKey).getD entry.part).baseOffset = start := by
    cases hp : n.storage.pending.lookup entry.indexKey with
    | none => exact ⟨rfl, hbase.trans (h.drained (hkey ▸ hp)).symm⟩
    | some pp => exact ⟨h.keys _ pp hp, (h.pending pp (hkey ▸ hp)).1⟩
  refine ⟨⟨Node.lookup_erase_insert h.quiet _ _, (Storage.closed_appended _ _).trans h.handle,
    fun k pp hpp => ?_, ⟨l.advance next false, by rw [hkey]; exact AList.lookup_insert _, rfl⟩,
    h.refs_eq, fun pp hpp => ?_, fun hpp => ?_⟩, ?_⟩
  · rw [hlook] at hpp
    split at hpp
    · next hk =>
      rw [← Option.some.inj hpp, hk, PendingPart.indexKey_add]
      exact hpart.1
    · exact h.keys k pp hpp
  · rw [hlook, if_pos hkey] at hpp
    rw [← Option.some.inj hpp, PendingPart.baseOffset_add]
    exact ⟨hpart.2, rfl⟩
  · rw [hlook, if_pos hkey] at hpp
    cases hpp
  · rw [hlook, if_pos hkey]
    simp

/-- An upload commits one ref, from the start of the pending part to the log end. -/
theorem upload (h : Growing n topic partition refs start logEnd)
    (hne : n.storage.pending.lookup (indexKey topic partition) ≠ none) (nowMs : ℤ) :
    ∃ r, r.baseOffset = start ∧ r.nextOffset = logEnd ∧
      Growing (n.operate (.call (.upload nowMs))) topic partition (refs ++ [r]) logEnd logEnd := by
  have hentries : n.storage.pending.entries ≠ [] := by
    intro hnil
    exact hne (Table.lookup_of_entries_nil hnil _)
  have hupload := upload_eq h.handle hentries nowMs
  obtain ⟨new, hstore, -, hnew⟩ :=
    refs_upload h.keys h.handle hentries nowMs (indexKey topic partition)
  have hnone : ∀ k, (n.operate (.call (.upload nowMs))).storage.pending.lookup k = none := by
    intro k
    show (n.storage.upload nowMs).pending.lookup k = none
    rw [hupload]
    rfl
  obtain ⟨pp, hpp⟩ := Option.ne_none_iff_exists'.mp hne
  rw [hpp] at hnew
  obtain ⟨c, rfl, pos, hc, -⟩ := hnew
  obtain ⟨hbase, hnext⟩ := h.pending pp hpp
  refine ⟨c.ref, by rw [hc]; exact hbase, by rw [hc]; exact hnext, h.quiet, ?_, ?_,
    h.opened, ?_, ?_, fun _ => rfl⟩
  · show (n.storage.upload nowMs).wal.closed = false
    rw [hupload, Node.rotate_open h.handle]
    exact h.handle
  · intro k pp hk
    rw [hnone k] at hk
    cases hk
  · rw [← h.refs_eq]
    exact hstore
  · intro pp hk
    rw [hnone] at hk
    cases hk

/-- The log end after a number of appends of one batch. -/
theorem append_many (h : Growing n topic partition refs 0 0) {batch : Bytes}
    (hb : Record.WellFormed batch) {count : ℤ}
    (hnext : ∀ e, nextOf (stamp (wrap64 e) batch) = wrap64 (e + count)) (i : ℕ) :
    Growing (run Node.operate n
      (List.replicate i (.call (.append topic partition batch)))) topic partition refs 0
        (wrap64 (i * count)) := by
  induction i with
  | zero => simpa [wrap64] using h
  | succ i ih =>
    rw [List.replicate_succ', run_snoc]
    have hstep := (ih.append hb).1
    rw [hnext] at hstep
    convert hstep using 2
    push_cast
    ring

end Growing

/-- The largest batch there is, of `2 ^ 31 - 1` records. -/
def largeBatch : Bytes := makeBatch 2147483647 []

theorem wellFormed_largeBatch : Record.WellFormed largeBatch := by decide +kernel

theorem nextOf_largeBatch (e : ℤ) :
    nextOf (stamp (wrap64 e) largeBatch) = wrap64 (e + 2147483647) := by
  have hdelta : (header largeBatch).lastOffsetDelta = 2147483646 := by decide +kernel
  rw [nextOf, BatchHeader.lastOffset, header_stamp wellFormed_largeBatch.1.1]
  dsimp only
  rw [hdelta]
  unfold wrap64
  omega

/-- Many large batches, an upload, one more batch, and another upload. -/
def growingRun (i : ℕ) : List Operation :=
  .call (.openLog [116] 0) :: (List.replicate i (.call (.append [116] 0 largeBatch)) ++
    [.call (.append [116] 0 largeBatch), .call (.upload 5), .call (.append [116] 0 largeBatch),
      .call (.upload 6)])

/-- The second ref of such a run starts at the log end that the first upload saw. -/
theorem committed_growingRun (i : ℕ) :
    ∃ r q, (run Node.operate (Node.fresh [49]) (growingRun i)).committed (indexKey [116] 0)
        = [r, q] ∧
      r.baseOffset = 0 ∧ q.baseOffset = wrap64 (i * 2147483647 + 2147483647) := by
  have hopen : Growing (Node.operate (Node.fresh [49]) (.call (.openLog [116] 0))) [116] 0
      [] 0 0 := by
    have h := SeqInv.openLog (seqInv_fresh [49]) [116] 0
    refine ⟨h.quiet, h.handle, fun _ _ => h.keys, ⟨_, rfl, by decide +kernel⟩, rfl,
      ?_, fun _ => rfl⟩
    intro pp hpp
    cases hpp
  have hmany := hopen.append_many wellFormed_largeBatch nextOf_largeBatch i
  rw [growingRun, run_cons, run_append]
  generalize run Node.operate _ (List.replicate i _) = n at hmany ⊢
  obtain ⟨hlast, hne⟩ := hmany.append wellFormed_largeBatch
  obtain ⟨r, hr, -, hfirst⟩ := hlast.upload hne 5
  obtain ⟨hagain, hne⟩ := hfirst.append wellFormed_largeBatch
  obtain ⟨q, hq, -, hsecond⟩ := hagain.upload hne 6
  exact ⟨r, q, hsecond.refs_eq, hr, hq.trans (nextOf_largeBatch _)⟩

/-- **Beyond the 64-bit range the refs are out of order.**  The batches of this run are
well formed.  Its first upload commits a ref that starts at zero, and the second one a
ref that starts at the log end of that time, which has become negative. -/
theorem log_end_wraps :
    (∀ op ∈ growingRun 4294967298, op.WellFormed) ∧
      ∃ r q, (run Node.operate (Node.fresh [49]) (growingRun 4294967298)).committed
          (indexKey [116] 0) = [r, q] ∧
        q.baseOffset < r.baseOffset := by
  constructor
  · intro op hop
    simp only [growingRun, List.mem_append, List.mem_cons, List.not_mem_nil, or_false,
      List.mem_replicate] at hop
    rcases hop with rfl | ⟨-, rfl⟩ | rfl | rfl | rfl | rfl
    · trivial
    · exact wellFormed_largeBatch
    · exact wellFormed_largeBatch
    · trivial
    · exact wellFormed_largeBatch
    · trivial
  · obtain ⟨r, q, hrefs, hr, hq⟩ := committed_growingRun 4294967298
    refine ⟨r, q, hrefs, ?_⟩
    rw [hr, hq]
    norm_num [wrap64]

end Object
end Mq
