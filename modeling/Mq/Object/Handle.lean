import Mq.Object.Contents

/-!
# The handle of a partition

`internal/storage/object/log.go`: the calls on one partition of the object backend, with
what they return.  A handle keeps the offsets and works on the node storage that it shares
with the other partitions.

## Main definitions

* `Handle` — an open partition over the node storage.
* `Handle.append`, `Handle.appendReplica`, `Handle.setHighWatermark`,
  `Handle.holdHighWatermark`, `Handle.read` — its calls.
* `Handle.Buffers h bs` — everything that was appended to the partition is pending.

## Main results

* `Handle.append_ok`, `Handle.appendReplica_cases` — what the appends do while the
  write-ahead log is open.
* `Node.call_append`, `Node.call_appendReplica`, `Node.call_enforceRetention` — **the
  machine's calls are those of the handle.**
* `Handle.Buffers.append`, `Handle.Buffers.appendReplica` — the appends fill the buffer.
-/

namespace Mq
namespace Object

open Word Record

/-! ### Calls -/

/-- Write a record to the write-ahead log and its batch to the buffer. -/
def Storage.append (s : Storage) (rec : WalRecord) (next : ℤ) : Option Storage :=
  (s.wal.append rec).map fun w => Storage.appendPending { s with wal := w } rec next

/-- Advance the high watermark, never backward and never past the log end. -/
def ObjectLog.setHighWatermark (l : ObjectLog) (hwm : ℤ) : ObjectLog :=
  let hwm := if l.nextOffset < hwm then l.nextOffset else hwm
  if l.highWatermark < hwm then { l with highWatermark := hwm } else l

/-- Switch to replication mode. -/
def ObjectLog.holdHighWatermark (l : ObjectLog) : ObjectLog := { l with holdHWM := true }

/-- An open partition. -/
structure Handle where
  storage : Storage
  topic : Bytes
  partition : ℤ
  log : ObjectLog

/-- Why an append does not return an offset. -/
inductive HandleErr
  /-- The batch header was refused. -/
  | record (e : Record.Err)
  /-- A replica batch starts above the log end. -/
  | replicaGap (base logEnd : ℤ)
  /-- The write-ahead log could not be written. -/
  | wal
  /-- The batch is too short to be patched. -/
  | panic
  deriving DecidableEq, Repr

namespace Handle

/-- The key of the partition. -/
def key (h : Handle) : Bytes := indexKey h.topic h.partition

/-- Write a batch and move the log end past it. -/
def store (h : Handle) (base : ℤ) (batch : Bytes) (next : ℤ) (replica : Bool) : Option Handle :=
  (h.storage.append ⟨h.topic, h.partition, base, batch⟩ next).map fun s =>
    { h with storage := s, log := h.log.advance next replica }

/-- Assign the next offset to a batch, patch its header and CRC, and store it. -/
def append (h : Handle) (batch : Bytes) : Handle × Except HandleErr ℤ :=
  if batch.length < offAttributes then (h, .error .panic)
  else
    let base := h.log.nextOffset
    let b := recomputeCRC (setBaseOffset batch base)
    match parseHeader b with
    | .error e => (h, .error (.record e))
    | .ok hd =>
      match h.store base b (wrap64 (hd.lastOffset + 1)) false with
      | none => (h, .error .wal)
      | some h' => (h', .ok base)

/-- Store a batch of the leader as it is.  One below the log end is taken for a
repetition, and one above it is refused. -/
def appendReplica (h : Handle) (batch : Bytes) : Handle × Except HandleErr ℤ :=
  match parseHeader batch with
  | .error e => (h, .error (.record e))
  | .ok hd =>
    if hd.baseOffset < h.log.nextOffset then (h, .ok h.log.nextOffset)
    else if h.log.nextOffset < hd.baseOffset then
      (h, .error (.replicaGap hd.baseOffset h.log.nextOffset))
    else
      let next := wrap64 (hd.lastOffset + 1)
      match h.store hd.baseOffset batch next true with
      | none => (h, .error .wal)
      | some h' => (h', .ok next)

def setHighWatermark (h : Handle) (hwm : ℤ) : Handle :=
  { h with log := h.log.setHighWatermark hwm }

def holdHighWatermark (h : Handle) : Handle := { h with log := h.log.holdHighWatermark }

def read (h : Handle) (offset maxBytes : ℤ) : ReadResult :=
  h.log.read h.storage h.key offset maxBytes

/-- Drop the oldest refs of the partition. -/
def enforceRetention (h : Handle) (nowMs maxAgeMs maxBytes : ℤ) : Handle :=
  let (s, e) := h.storage.enforceRetention h.key nowMs maxAgeMs maxBytes
  { h with storage := s, log := h.log.raiseEarliest e }

/-- The shared storage uploads everything that is pending. -/
def upload (h : Handle) (nowMs : ℤ) : Handle := { h with storage := h.storage.upload nowMs }

end Handle

/-! ### What the calls do -/

namespace ObjectLog

theorem setHighWatermark_eq (l : ObjectLog) (hwm : ℤ) :
    l.setHighWatermark hwm
      = { l with highWatermark := max l.highWatermark (min l.nextOffset hwm) } := by
  have hmin : (if l.nextOffset < hwm then l.nextOffset else hwm) = min l.nextOffset hwm := by
    split <;> omega
  rw [setHighWatermark, hmin]
  split
  · next hlt => rw [max_eq_right hlt.le]
  · next hge => rw [max_eq_left (not_lt.mp hge)]

theorem raiseEarliest_some (l : ObjectLog) (e : ℤ) :
    l.raiseEarliest (some e) = { l with earliest := max l.earliest e } := by
  rw [raiseEarliest]
  split
  · next hlt => rw [max_eq_right hlt.le]
  · next hge => rw [max_eq_left (not_lt.mp hge)]

end ObjectLog

theorem Storage.append_of_open {s : Storage} (hopen : s.wal.closed = false) (rec : WalRecord) (next : ℤ) :
    s.append rec next = some (s.appended rec next) := by
  have hw : ∃ w, s.wal.append rec = some w := by
    rw [Wal.append, hopen]
    exact ⟨_, rfl⟩
  obtain ⟨w, hw⟩ := hw
  rw [Storage.append, appended, hw]
  rfl

namespace Handle

variable (h : Handle)

/-- The handle after a batch was stored. -/
def stored (base : ℤ) (batch : Bytes) (next : ℤ) (replica : Bool) : Handle :=
  { h with
    storage := h.storage.appended ⟨h.topic, h.partition, base, batch⟩ next
    log := h.log.advance next replica }

variable {h}

theorem store_of_open (hopen : h.storage.wal.closed = false) (base : ℤ) (batch : Bytes)
    (next : ℤ) (replica : Bool) :
    h.store base batch next replica = some (h.stored base batch next replica) := by
  rw [store, Storage.append_of_open hopen]
  rfl

/-- While the write-ahead log is open every batch that parses is stored at the log end. -/
theorem append_ok (hopen : h.storage.wal.closed = false) {batch : Bytes} (hb : Framed batch) :
    h.append batch =
      (h.stored h.log.nextOffset (stamp h.log.nextOffset batch)
        (nextOf (stamp h.log.nextOffset batch)) false, .ok h.log.nextOffset) := by
  have hlong : ¬ batch.length < offAttributes := by
    have := hb.1
    unfold headerSize at this
    unfold offAttributes
    omega
  have hparse : parseHeader (recomputeCRC (setBaseOffset batch h.log.nextOffset))
      = .ok (header (stamp h.log.nextOffset batch)) := (framed_stamp hb _).parseHeader
  rw [append, if_neg hlong]
  dsimp only
  rw [hparse]
  dsimp only
  rw [store_of_open hopen]
  rfl

/-- A replica's batch is skipped below the log end, refused above it, and stored at it. -/
theorem appendReplica_cases (hopen : h.storage.wal.closed = false) {batch : Bytes}
    (hb : Framed batch) :
    ((header batch).baseOffset < h.log.nextOffset ∧
      h.appendReplica batch = (h, .ok h.log.nextOffset)) ∨
    (h.log.nextOffset < (header batch).baseOffset ∧
      h.appendReplica batch =
        (h, .error (.replicaGap (header batch).baseOffset h.log.nextOffset))) ∨
    ((header batch).baseOffset = h.log.nextOffset ∧
      h.appendReplica batch =
        (h.stored (header batch).baseOffset batch (nextOf batch) true, .ok (nextOf batch))) := by
  rw [appendReplica, hb.parseHeader]
  dsimp only
  rcases lt_trichotomy (header batch).baseOffset h.log.nextOffset with hlt | heq | hgt
  · exact .inl ⟨hlt, if_pos hlt⟩
  · refine .inr (.inr ⟨heq, ?_⟩)
    rw [if_neg (by omega), if_neg (by omega), store_of_open hopen]
    rfl
  · exact .inr (.inl ⟨hgt, by rw [if_neg (by omega), if_pos hgt]⟩)

end Handle

/-! ### The machine's calls -/

namespace Node

variable {n : Node} {topic : Bytes} {partition : ℤ} {l : ObjectLog}

/-- The handle of a partition of the node. -/
def handle (n : Node) (topic : Bytes) (partition : ℤ) (l : ObjectLog) : Handle :=
  ⟨n.storage, topic, partition, l⟩

/-- `m` is the node `n` after a call has left the handle of one partition as `h`. -/
structure Becomes (n : Node) (h : Handle) (m : Node) : Prop where
  storage : m.storage = h.storage
  log : m.logs.lookup h.key = some h.log
  others : ∀ k, k ≠ h.key → m.logs.lookup k = n.logs.lookup k

theorem becomes_self (hl : n.logs.lookup (indexKey topic partition) = some l) :
    n.Becomes (n.handle topic partition l) n :=
  ⟨rfl, hl, fun _ _ => rfl⟩

variable (hfree : n.free (indexKey topic partition) = some l)
include hfree

/-- A record that is written and buffered. -/
theorem becomes_write (hopen : n.storage.wal.closed = false) (base : ℤ) (batch : Bytes) (next : ℤ)
    (replica : Bool) :
    n.Becomes ((n.handle topic partition l).stored base batch next replica)
      ((n.write ⟨topic, partition, base, batch⟩ next replica).addPending
        (indexKey topic partition)) := by
  change n.Becomes _ (addPending _ (WalRecord.indexKey ⟨topic, partition, base, batch⟩))
  rw [SeqInv.write_addPending ⟨topic, partition, base, batch⟩ next replica hfree hopen]
  exact ⟨rfl, AList.lookup_insert _, fun k hk => AList.lookup_insert_ne hk⟩

/-- **An append of the machine is the append of the handle.** -/
theorem call_append (hopen : n.storage.wal.closed = false) {batch : Bytes}
    (hb : Record.WellFormed batch) :
    n.Becomes ((n.handle topic partition l).append batch).1
      (n.call (.append topic partition batch)) := by
  rw [Handle.append_ok (h := n.handle topic partition l) hopen hb.1, call,
    Contents.append_eq hb hfree]
  exact becomes_write hfree hopen _ _ _ _

/-- **A replica's append of the machine is that of the handle.** -/
theorem call_appendReplica (hopen : n.storage.wal.closed = false) {batch : Bytes}
    (hb : Record.WellFormed batch) :
    n.Becomes ((n.handle topic partition l).appendReplica batch).1
      (n.call (.appendReplica topic partition batch)) := by
  obtain ⟨hnone, hl⟩ := free_eq_some hfree
  have hskip : n.addPending (indexKey topic partition) = n := by rw [addPending, hnone]
  rw [call, Contents.appendReplica_eq hb hfree]
  rcases Handle.appendReplica_cases (h := n.handle topic partition l) hopen hb.1 with
    ⟨hlt, hr⟩ | ⟨hlt, hr⟩ | ⟨heq, hr⟩ <;> rw [hr]
  · rw [if_neg (show ¬ (header batch).baseOffset = l.nextOffset from ne_of_lt hlt), hskip]
    exact becomes_self hl
  · rw [if_neg (show ¬ (header batch).baseOffset = l.nextOffset from ne_of_gt hlt), hskip]
    exact becomes_self hl
  · rw [if_pos (show (header batch).baseOffset = l.nextOffset from heq)]
    exact becomes_write hfree hopen _ _ _ _

theorem call_enforceRetention (nowMs maxAgeMs maxBytes : ℤ) :
    n.Becomes ((n.handle topic partition l).enforceRetention nowMs maxAgeMs maxBytes)
      (n.call (.enforceRetention topic partition nowMs maxAgeMs maxBytes)) := by
  rw [call, Node.enforceRetention, hfree]
  exact ⟨rfl, AList.lookup_insert _, fun k hk => AList.lookup_insert_ne hk⟩

end Node

/-! ### A partition that has not been uploaded -/

/-- The part that holds all batches of a partition. -/
def Handle.part (h : Handle) (bs : List Bytes) : PendingPart :=
  ⟨h.topic, h.partition, 0, h.log.nextOffset, bs, batchBytes bs⟩

/-- The batches `bs` are everything that was appended to the partition, and all of them
are pending. -/
structure Handle.Buffers (h : Handle) (bs : List Bytes) : Prop where
  handle : h.storage.wal.closed = false
  keys : ∀ k pp, h.storage.pending.lookup k = some pp → pp.indexKey = k
  refs : h.storage.index.refsFor h.key = []
  earliest : h.log.earliest = 0
  pending : h.storage.pending.lookup h.key = if bs = [] then none else some (h.part bs)
  contiguous : Contiguous 0 bs h.log.nextOffset
  framed : ∀ b ∈ bs, Framed b

/-- A handle that has just been opened on a partition without records. -/
structure Handle.Fresh (h : Handle) : Prop where
  log : h.log = ⟨0, 0, false, 0⟩
  buffers : h.Buffers []

/-- The handle that opening a partition returns. -/
def Storage.handle (s : Storage) (topic : Bytes) (partition : ℤ) : Handle :=
  ⟨(s.log topic partition).1, topic, partition, (s.log topic partition).2⟩

/-- **A partition that was never opened** has a fresh handle, whatever the node has done. -/
theorem SeqInv.fresh_handle {n : Node} (hn : SeqInv n) {topic : Bytes} {partition : ℤ}
    (hk : n.logs.lookup (indexKey topic partition) = none) :
    (n.storage.handle topic partition).Fresh := by
  obtain ⟨hrefs, -, hpend⟩ := hn.unopened _ hk
  have hload : (n.storage.index.load (indexKey topic partition)).refsFor (indexKey topic partition)
      = [] := by
    change n.storage.index.store.load _ = [] at hrefs
    rw [Index.refsFor, Index.load, IndexStore.load_insert, if_pos rfl, hrefs]
    rfl
  have hlog : (n.storage.log topic partition).2 = ⟨0, 0, false, 0⟩ := by
    simp only [Storage.log, Storage.seedNext, Storage.seedEarliest, Index.latest, Index.earliest,
      hload, hn.recovered.1, hn.recovered.2]
    rfl
  refine ⟨hlog, hn.handle, fun k pp => hn.keys, hload, ?_, ?_, ?_, by simp⟩
  · change (n.storage.log topic partition).2.earliest = 0
    rw [hlog]
  · rw [if_pos rfl]
    exact hpend
  · change 0 = (n.storage.log topic partition).2.nextOffset
    rw [hlog]

/-- A partition of a node without data. -/
def Handle.empty : Handle := (Node.fresh [49]).storage.handle [116] 0

theorem Handle.fresh_empty : Handle.empty.Fresh := (seqInv_fresh [49]).fresh_handle rfl

/-- The offsets of a batch that is stamped at a log end with room for it. -/
theorem stamp_offsets {base : ℤ} (hbase : 0 ≤ base) {b : Bytes} (hw : Record.WellFormed b)
    (hroom : base + (header b).recordCount < 9223372036854775808) :
    (header (stamp base b)).baseOffset = base ∧
      nextOf (stamp base b) = base + (header b).recordCount := by
  have hheader := header_stamp hw.1.1 base
  have hcount := hw.2.2
  have hwrap : wrap64 base = base := wrap64_eq (by omega) (by omega)
  have hb : (header (stamp base b)).baseOffset = base := by rw [hheader, ← hwrap]; simp [hwrap]
  refine ⟨hb, ?_⟩
  rw [nextOf_eq (wellFormed_stamp hw base) (by rw [hb, hheader]; exact hroom), hb, hheader]

namespace Handle

variable {h : Handle} {bs : List Bytes} (hb : h.Buffers bs)
include hb

/-- A batch is stored at the log end. -/
theorem Buffers.stored {b : Bytes} (hframed : Framed b)
    (hbase : (header b).baseOffset = h.log.nextOffset) (hlt : h.log.nextOffset < nextOf b)
    (replica : Bool) :
    (h.stored h.log.nextOffset b (nextOf b) replica).Buffers (bs ++ [b]) where
  handle := (Storage.closed_appended _ _).trans hb.handle
  keys k pp hk := by
    change (h.storage.appended _ _).pending.lookup k = some pp at hk
    rw [Storage.lookup_appended] at hk
    split at hk
    · next heq =>
      obtain rfl := Option.some.inj hk
      rw [PendingPart.indexKey_add, heq]
      cases hp : h.storage.pending.lookup (WalRecord.indexKey ⟨h.topic, h.partition, _, b⟩) with
      | none => rfl
      | some pp => exact hb.keys _ _ hp
    · exact hb.keys k pp hk
  refs := hb.refs
  earliest := hb.earliest
  pending := by
    change (h.storage.appended _ _).pending.lookup h.key = _
    have hkey : h.key = WalRecord.indexKey ⟨h.topic, h.partition, h.log.nextOffset, b⟩ := rfl
    rw [Storage.lookup_appended, if_pos hkey, if_neg (by simp)]
    change some (((h.storage.pending.lookup h.key).getD _).add b (nextOf b)) = _
    rw [hb.pending]
    by_cases hnil : bs = []
    · subst hnil
      have hzero : h.log.nextOffset = 0 := hb.contiguous.symm
      simp [WalRecord.part, PendingPart.add, part, Handle.stored, ObjectLog.advance, hzero]
    · simp [hnil, PendingPart.add, part, Handle.stored, ObjectLog.advance]
  contiguous := contiguous_append.mpr ⟨_, hb.contiguous, contiguous_singleton hbase hlt⟩
  framed c hc := by
    rcases List.mem_append.mp hc with hc | hc
    · exact hb.framed c hc
    · rw [List.mem_singleton.mp hc]
      exact hframed

/-- **An append** to a partition that has not been uploaded. -/
theorem Buffers.append {batch : Bytes} (hw : Record.WellFormed batch)
    (hroom : h.log.nextOffset + (header batch).recordCount < 9223372036854775808) :
    (h.append batch).2 = .ok h.log.nextOffset ∧
      (h.append batch).1.Buffers (bs ++ [stamp h.log.nextOffset batch]) ∧
      (h.append batch).1.log
        = h.log.advance (h.log.nextOffset + (header batch).recordCount) false := by
  obtain ⟨hbase, hnext⟩ := stamp_offsets hb.contiguous.le hw hroom
  have hcount := hw.2.2
  rw [append_ok hb.handle hw.1]
  refine ⟨rfl, hb.stored (framed_stamp hw.1 _) hbase (by omega) false, ?_⟩
  change h.log.advance _ _ = _
  rw [hnext]

/-- **A replica's append** that is stored. -/
theorem Buffers.appendReplica {batch : Bytes} (hw : Record.WellFormed batch)
    (hbase : (header batch).baseOffset = h.log.nextOffset)
    (hroom : h.log.nextOffset + (header batch).recordCount < 9223372036854775808) :
    (h.appendReplica batch).2 = .ok (h.log.nextOffset + (header batch).recordCount) ∧
      (h.appendReplica batch).1.Buffers (bs ++ [batch]) ∧
      (h.appendReplica batch).1.log
        = h.log.advance (h.log.nextOffset + (header batch).recordCount) true := by
  have hnext : nextOf batch = h.log.nextOffset + (header batch).recordCount := by
    rw [nextOf_eq hw (hbase ▸ hroom), hbase]
  have hcount := hw.2.2
  rcases appendReplica_cases hb.handle hw.1 with ⟨hlt, -⟩ | ⟨hlt, -⟩ | ⟨-, hr⟩
  · omega
  · omega
  · rw [hr, hbase]
    refine ⟨congrArg _ hnext, hb.stored hw.1 hbase (by omega) true, ?_⟩
    change h.log.advance _ _ = _
    rw [hnext]

/-- A call that changes only the mode or the high watermark. -/
theorem Buffers.of_log {l : ObjectLog} (hnext : l.nextOffset = h.log.nextOffset)
    (hearliest : l.earliest = h.log.earliest) : Buffers { h with log := l } bs where
  handle := hb.handle
  keys := hb.keys
  refs := hb.refs
  earliest := hearliest.trans hb.earliest
  pending := by
    have hpart : part { h with log := l } bs = h.part bs := by rw [part, part, hnext]
    rw [hpart]
    exact hb.pending
  contiguous := by
    change Contiguous 0 bs l.nextOffset
    rw [hnext]
    exact hb.contiguous
  framed := hb.framed

/-! ### Reading -/

theorem Buffers.ne_nil {o : ℤ} (ho₀ : 0 ≤ o) (ho₁ : o < h.log.nextOffset) : bs ≠ [] := by
  rintro rfl
  have hnext : 0 = h.log.nextOffset := hb.contiguous
  omega

theorem Buffers.flatten_ne_nil (hne : bs ≠ []) : bs.flatten ≠ [] := by
  obtain ⟨b, rest, rfl⟩ := List.exists_cons_of_ne_nil hne
  simp [(hb.framed b (by simp)).ne_nil]

/-- A read inside the log goes to the storage. -/
theorem Buffers.read_eq (s : Storage) {o : ℤ} (ho₀ : 0 ≤ o) (ho₁ : o < h.log.nextOffset)
    (maxBytes : ℤ) : read { h with storage := s } o maxBytes = s.read h.key o maxBytes := by
  have hearliest := hb.earliest
  change h.log.read s h.key o maxBytes = _
  rw [ObjectLog.read, if_neg (by omega), if_neg (by omega)]

/-- **Pending records** are read from the buffer. -/
theorem Buffers.read {o : ℤ} (ho₀ : 0 ≤ o) (ho₁ : o < h.log.nextOffset) (maxBytes : ℤ) :
    h.read o maxBytes = sliceBatches bs.flatten o maxBytes := by
  have hne := hb.ne_nil ho₀ ho₁
  have hdata : h.storage.pendingData h.key o = bs.flatten := by
    rw [Storage.pendingData, hb.pending, if_neg hne]
    exact if_pos ⟨hne, ho₀⟩
  rw [hb.read_eq h.storage ho₀ ho₁, Storage.read, hdata, if_pos (hb.flatten_ne_nil hne)]

/-- **Uploaded records** are read from the one object that they are in. -/
theorem Buffers.read_upload (nowMs : ℤ) {o : ℤ} (ho₀ : 0 ≤ o) (ho₁ : o < h.log.nextOffset)
    (maxBytes : ℤ) : (h.upload nowMs).read o maxBytes = sliceBatches bs.flatten o maxBytes := by
  have hne := hb.ne_nil ho₀ ho₁
  have hpend : h.storage.pending.lookup h.key = some (h.part bs) := by rw [hb.pending, if_neg hne]
  have hentries : h.storage.pending.entries ≠ [] := by
    intro hnil
    rw [Table.lookup_of_entries_nil hnil] at hpend
    cases hpend
  have hupload := upload_eq hb.handle hentries nowMs
  have hempty : (h.storage.upload nowMs).pending = ∅ := by rw [hupload]
  obtain ⟨new, -, hnew, hmatch⟩ := refs_upload hb.keys hb.handle hentries nowMs h.key
  rw [hpend] at hmatch
  obtain ⟨c, rfl, pos, rfl, hslice⟩ := hmatch
  -- the partition has one ref, which covers the whole log
  have hlt : 0 < h.log.nextOffset := by omega
  have hchain : RefChain 0 ([] ++ ((h.part bs).commit
      (objectKey h.storage.nodeID (h.storage.uploadSeq + 1)) nowMs pos).ref :: [])
      h.log.nextOffset := ⟨rfl, hlt, rfl⟩
  rw [hb.refs] at hnew
  have hfind := hchain.refFor_eq hnew ho₀ ho₁
  have hlen : ¬ ((bs.flatten.length : ℤ) ≤ 0) := by
    have := List.length_pos_of_ne_nil (hb.flatten_ne_nil hne)
    omega
  have hget : getRange (h.storage.upload nowMs).objects
      (objectKey h.storage.nodeID (h.storage.uploadSeq + 1)) pos bs.flatten.length
        = some bs.flatten := by
    rw [getRange, hupload, AList.lookup_insert, Option.map_some, if_neg hlen, Int.toNat_natCast,
      Int.toNat_natCast]
    exact congrArg some hslice
  rw [upload, hb.read_eq _ ho₀ ho₁, Storage.read, Storage.pendingData, hempty, AList.lookup_empty,
    if_neg (by simp), hfind]
  dsimp only [PendingPart.commit, part]
  rw [hget]

end Handle

end Object
end Mq
