import Mathlib.Data.List.Forall2
import Mq.Object.Index
import Mq.Object.Wal
import Mq.Record.Batch

/-!
# The node storage of the object backend

`internal/storage/object/storage.go` and `retention.go`: batches go to the
write-ahead log and to a pending buffer, an upload makes one object of the whole
buffer and commits a ref for each partition in it, and retention drops the oldest
refs.  A partition's handle (`log.go`) assigns the offsets.

## Main definitions

* `PendingPart`, `Storage`, `ObjectLog` — the state.
* `Storage.appendPending`, `Storage.takePending`, `Storage.restore`, `assemble`,
  `Storage.put`, `Storage.commitRef`, `Storage.trim` — the steps of an append and of
  an upload.
* `Storage.upload` — an upload in which nothing fails.
* `newStorage`, `Storage.log` — opening the storage and a partition's handle.
* `Storage.enforceRetention` — a retention pass.
-/

namespace Mq
namespace Object

open Word Record

/-! ### State -/

/-- The batches of one partition that have not been uploaded. -/
structure PendingPart where
  topic : Bytes
  partition : ℤ
  baseOffset : ℤ
  nextOffset : ℤ
  batches : List Bytes
  bytes : ℤ
  deriving DecidableEq, Repr

/-- The node storage, with the object store and the index store it works on. -/
structure Storage where
  nodeID : Bytes
  objects : Table Bytes Bytes
  index : Index
  wal : Wal
  pending : Table Bytes PendingPart
  pendingBytes : ℤ
  uploadSeq : ℕ
  /-- The earliest offset recovered from the write-ahead log. -/
  recBase : Table Bytes ℤ
  /-- The log end recovered from the write-ahead log. -/
  recNext : Table Bytes ℤ

/-- A partition's handle. -/
structure ObjectLog where
  nextOffset : ℤ
  highWatermark : ℤ
  holdHWM : Bool
  earliest : ℤ
  deriving DecidableEq, Repr

/-- The key that a part is filed under. -/
def PendingPart.indexKey (pp : PendingPart) : Bytes := Object.indexKey pp.topic pp.partition

/-- The key of the partition that a record belongs to. -/
def WalRecord.indexKey (rec : WalRecord) : Bytes := Object.indexKey rec.topic rec.partition

/-- The offset after the last record of a batch. -/
def nextOf (b : Bytes) : ℤ := wrap64 ((header b).lastOffset + 1)

/-! ### The pending buffer -/

/-- One more batch at the end of a part. -/
def PendingPart.add (pp : PendingPart) (batch : Bytes) (next : ℤ) : PendingPart :=
  { pp with
    batches := pp.batches ++ [batch]
    nextOffset := next
    bytes := pp.bytes + batch.length }

@[simp] theorem PendingPart.baseOffset_add (pp : PendingPart) (batch : Bytes) (next : ℤ) :
    (pp.add batch next).baseOffset = pp.baseOffset := rfl

@[simp] theorem PendingPart.indexKey_add (pp : PendingPart) (batch : Bytes) (next : ℤ) :
    (pp.add batch next).indexKey = pp.indexKey := rfl

/-- A part in front of one that was filled later. -/
def PendingPart.merge (pp cur : PendingPart) : PendingPart :=
  { pp with
    batches := pp.batches ++ cur.batches
    nextOffset := cur.nextOffset
    bytes := pp.bytes + cur.bytes }

/-- A part that holds nothing yet. -/
def WalRecord.part (rec : WalRecord) : PendingPart :=
  ⟨rec.topic, rec.partition, rec.baseOffset, 0, [], 0⟩

namespace Storage

def appendPending (s : Storage) (rec : WalRecord) (next : ℤ) : Storage :=
  let pp := (s.pending.lookup rec.indexKey).getD rec.part
  { s with
    pending := s.pending.insert rec.indexKey (pp.add rec.batch next)
    pendingBytes := s.pendingBytes + rec.batch.length }

/-- An upload takes the whole buffer, and counts itself.  It does nothing when the
buffer is empty. -/
def takePending (s : Storage) : Option (Storage × Table Bytes PendingPart) :=
  if s.pending.entries = [] then none
  else some ({ s with pending := ∅, pendingBytes := 0, uploadSeq := s.uploadSeq + 1 }, s.pending)

/-- The parts of a failed upload go back in front of what was buffered since. -/
def restore (s : Storage) (snap : Table Bytes PendingPart) : Storage :=
  let pending := Table.overlay PendingPart.merge snap s.pending
  { s with pending := pending, pendingBytes := Table.total PendingPart.bytes pending }

end Storage

/-! ### Uploading -/

/-- The key `data/sso/<NodeID>/<seq>` of an upload's object. -/
def objectKey (nodeID : Bytes) (seq : ℕ) : Bytes :=
  [100, 97, 116, 97, 47, 115, 115, 111, 47] ++ nodeID ++ [47] ++ zeroPad 20 (decimal seq)

/-- The ref that an upload is to commit for a partition. -/
structure Commit where
  topic : Bytes
  partition : ℤ
  ref : SegmentRef
  deriving DecidableEq, Repr

def Commit.indexKey (c : Commit) : Bytes := Object.indexKey c.topic c.partition

/-- The parts of a buffer in the order of their keys. -/
def sortedParts (snap : Table Bytes PendingPart) : List PendingPart :=
  (snap.keys.insertionSort (· ≤ ·)).filterMap fun k => snap.lookup k

/-- The ref for a part whose batches start at `pos` in the object. -/
def PendingPart.commit (pp : PendingPart) (key : Bytes) (uploadedMs pos : ℤ) : Commit where
  topic := pp.topic
  partition := pp.partition
  ref :=
    { key := key
      baseOffset := pp.baseOffset
      nextOffset := pp.nextOffset
      position := pos
      length := pp.batches.flatten.length
      uploadedMs := uploadedMs }

/-- One more part in the object, and the ref to it. -/
def assemblePart (key : Bytes) (uploadedMs : ℤ) (o : Bytes × List Commit) (pp : PendingPart) :
    Bytes × List Commit :=
  (o.1 ++ pp.batches.flatten, o.2 ++ [pp.commit key uploadedMs o.1.length])

/-- The object's bytes and the refs into it, part after part. -/
def assemble (key : Bytes) (uploadedMs : ℤ) (snap : Table Bytes PendingPart) :
    Bytes × List Commit :=
  (sortedParts snap).foldl (assemblePart key uploadedMs) ([], [])

/-- A ref names the span of the object that holds the batches of its part. -/
def PendingPart.FiledAs (pp : PendingPart) (key : Bytes) (uploadedMs : ℤ) (buf : Bytes)
    (c : Commit) : Prop :=
  ∃ pos : ℕ, c = pp.commit key uploadedMs pos ∧
    slice buf pos pp.batches.flatten.length = pp.batches.flatten

theorem foldl_assemblePart (key : Bytes) (uploadedMs : ℤ) :
    ∀ (parts : List PendingPart) (o : Bytes × List Commit),
      ∃ rest cs, parts.foldl (assemblePart key uploadedMs) o = (o.1 ++ rest, o.2 ++ cs) ∧
        List.Forall₂ (fun c pp => pp.FiledAs key uploadedMs (o.1 ++ rest) c) cs parts := by
  intro parts
  induction parts with
  | nil => intro o; exact ⟨[], [], by simp, .nil⟩
  | cons pp parts ih =>
    intro o
    obtain ⟨rest, cs, hfold, hall⟩ := ih (assemblePart key uploadedMs o pp)
    refine ⟨pp.batches.flatten ++ rest, pp.commit key uploadedMs o.1.length :: cs, ?_, ?_⟩
    · rw [List.foldl_cons, hfold, assemblePart, List.append_assoc, List.append_assoc,
        List.singleton_append]
    · rw [← List.append_assoc]
      exact .cons ⟨o.1.length, rfl, slice_between rfl rfl⟩ hall

/-- **One ref for each part**, in the order of the parts, to where its batches lie. -/
theorem assemble_commits (key : Bytes) (uploadedMs : ℤ) (snap : Table Bytes PendingPart) :
    List.Forall₂
      (fun c pp => pp.FiledAs key uploadedMs (assemble key uploadedMs snap).1 c)
      (assemble key uploadedMs snap).2 (sortedParts snap) := by
  obtain ⟨rest, cs, hfold, hall⟩ := foldl_assemblePart key uploadedMs (sortedParts snap) ([], [])
  rw [assemble, hfold]
  exact hall

theorem exists_of_mem_assemble {key : Bytes} {uploadedMs : ℤ} {snap : Table Bytes PendingPart}
    {c : Commit} (hc : c ∈ (assemble key uploadedMs snap).2) :
    ∃ pp ∈ sortedParts snap, pp.FiledAs key uploadedMs (assemble key uploadedMs snap).1 c := by
  have hall := assemble_commits key uploadedMs snap
  generalize (assemble key uploadedMs snap).1 = buf at hall ⊢
  generalize (assemble key uploadedMs snap).2 = cs at hc hall
  generalize sortedParts snap = parts at hall ⊢
  induction hall with
  | nil => cases hc
  | cons hd _ ih =>
    rcases List.mem_cons.mp hc with rfl | hc
    · exact ⟨_, List.mem_cons_self, hd⟩
    · obtain ⟨pp, hpp, hpos⟩ := ih hc
      exact ⟨pp, List.mem_cons_of_mem _ hpp, hpos⟩

namespace Storage

/-- The object store takes the object, in place of one it may have under the key. -/
def put (s : Storage) (key buf : Bytes) : Storage :=
  { s with objects := s.objects.insert key buf }

def commitRef (s : Storage) (c : Commit) : Storage :=
  { s with index := s.index.commit c.indexKey c.ref }

/-- The ref is in the store, and the process has not learnt of it. -/
def storeRef (s : Storage) (c : Commit) : Storage :=
  { s with index := { s.index with store := s.index.store.commit c.indexKey c.ref } }

def trim (s : Storage) (sealedThrough : ℕ) : Storage :=
  { s with wal := s.wal.deleteThrough sealedThrough }

/-- An upload in which neither the stores nor the files fail. -/
def upload (s : Storage) (nowMs : ℤ) : Storage :=
  match s.takePending with
  | none => s
  | some (s, snap) =>
    match s.wal.rotate none with
    | (w, none) => restore { s with wal := w } snap
    | (w, some sealedThrough) =>
      let key := objectKey s.nodeID s.uploadSeq
      let (buf, commits) := assemble key nowMs snap
      (commits.foldl commitRef (put { s with wal := w } key buf)).trim sealedThrough

/-! ### Opening -/

/-- Put one record of the write-ahead log back into the buffer. -/
def replayRecord (s : Storage) (rec : WalRecord) : Except Record.Err Storage := do
  let h ← parseHeader rec.batch
  let s := s.appendPending rec (wrap64 (h.lastOffset + 1))
  let recBase := match s.recBase.lookup rec.indexKey with
    | none => s.recBase.insert rec.indexKey rec.baseOffset
    | some _ => s.recBase
  return { s with
    recBase := recBase
    recNext := s.recNext.insert rec.indexKey (wrap64 (h.lastOffset + 1)) }

end Storage

/-- Open the storage on what an earlier process left: its segments, its objects and
its committed refs. -/
def newStorage (nodeID : Bytes) (objects : Table Bytes Bytes) (store : IndexStore)
    (segments : List WalSegment) : Except Record.Err Storage :=
  let s : Storage :=
    { nodeID := nodeID, objects := objects, index := ⟨store, ∅⟩, wal := openWal segments
      pending := ∅, pendingBytes := 0, uploadSeq := 0, recBase := ∅, recNext := ∅ }
  s.wal.replay.foldlM Storage.replayRecord s

namespace Storage

/-- The log end of a handle: after the last ref, or after the last record of the
write-ahead log if that is further. -/
def seedNext (s : Storage) (k : Bytes) : ℤ :=
  let next := (s.index.latest k).getD 0
  match s.recNext.lookup k with
  | some r => if next < r then r else next
  | none => next

/-- The earliest offset of a handle: that of the index, or of the write-ahead log. -/
def seedEarliest (s : Storage) (k : Bytes) : ℤ :=
  match s.index.earliest k with
  | some e => e
  | none => (s.recBase.lookup k).getD (s.seedNext k)

/-- Open a partition's handle. -/
def log (s : Storage) (topic : Bytes) (partition : ℤ) : Storage × ObjectLog :=
  let k := Object.indexKey topic partition
  let s := { s with index := s.index.load k }
  (s, ⟨s.seedNext k, s.seedNext k, false, s.seedEarliest k⟩)

/-- The log end that a handle would be opened at. -/
def openEnd (s : Storage) (k : Bytes) : ℤ := seedNext { s with index := s.index.load k } k

theorem nextOffset_log (s : Storage) (topic : Bytes) (partition : ℤ) :
    (s.log topic partition).2.nextOffset = s.openEnd (Object.indexKey topic partition) := rfl

/-- The log end of a handle depends on the committed refs and on what was recovered. -/
theorem openEnd_eq (s : Storage) (k : Bytes) :
    s.openEnd k =
      let next := ((sortRefs (s.index.store.load k)).getLast?.map (·.nextOffset)).getD 0
      match s.recNext.lookup k with
      | some r => if next < r then r else next
      | none => next := by
  simp only [openEnd, seedNext, Index.latest, Index.refsFor, Index.load, IndexStore.load_insert,
    if_pos]

/-- A clean shutdown: what is pending is uploaded.  The files stay as they are. -/
def close (s : Storage) (nowMs : ℤ) : Storage := s.upload nowMs

/-! ### Retention -/

/-- How many refs are dropped from the front: the expired ones, and those that a
total size beyond the limit asks for. -/
def retentionLoop (nowMs maxAgeMs maxBytes : ℤ) : ℤ → List SegmentRef → ℕ
  | _, [] => 0
  | total, r :: refs =>
    if (0 < maxAgeMs ∧ maxAgeMs < nowMs - r.uploadedMs) ∨ (0 < maxBytes ∧ maxBytes < total) then
      retentionLoop nowMs maxAgeMs maxBytes (total - r.length) refs + 1
    else 0

/-- The partition's stored size: the uploaded refs and what is pending. -/
def size (s : Storage) (k : Bytes) : ℤ :=
  ((s.index.refsFor k).map (·.length)).sum + ((s.pending.lookup k).map (·.bytes)).getD 0

/-- Delete the object of a dropped ref, unless another ref points into it. -/
def collect (ix : Index) (objects : Table Bytes Bytes) (r : SegmentRef) : Table Bytes Bytes :=
  if ix.referenced r.key then objects else objects.erase r.key

/-- Drop the oldest refs of a partition; the offset that the rest starts at is
returned if there were any to drop. -/
def enforceRetention (s : Storage) (k : Bytes) (nowMs maxAgeMs maxBytes : ℤ) :
    Storage × Option ℤ :=
  let refs := s.index.refsFor k
  let total := (refs.map (·.length)).sum + ((s.pending.lookup k).map (·.bytes)).getD 0
  match retentionLoop nowMs maxAgeMs maxBytes total refs with
  | 0 => (s, none)
  | dropped + 1 =>
    match refs[dropped]? with
    | none => (s, none)
    | some r =>
      let (ix, gone) := s.index.prune k r.nextOffset
      ({ s with index := ix, objects := gone.foldl (collect ix) s.objects }, some r.nextOffset)

end Storage

/-- The storage without the refs of a partition up to an offset, and without the objects that
no ref points into any more. -/
def Storage.pruned (s : Storage) (k : Bytes) (cutoff : ℤ) : Storage :=
  { s with
    index := (s.index.prune k cutoff).1
    objects := (s.index.prune k cutoff).2.foldl (Storage.collect (s.index.prune k cutoff).1)
      s.objects }

theorem Storage.store_pruned (s : Storage) (k j : Bytes) (cutoff : ℤ) :
    (s.pruned k cutoff).index.store.load j = if j = k then
      (s.index.store.load k).filter fun r => ¬ r.nextOffset ≤ cutoff else s.index.store.load j :=
  IndexStore.load_prune s.index.store k j cutoff

theorem Storage.refsFor_pruned (s : Storage) (k j : Bytes) (cutoff : ℤ) :
    (s.pruned k cutoff).index.refsFor j = if j = k then
      (s.index.refsFor k).filter fun r => ¬ r.nextOffset ≤ cutoff else s.index.refsFor j :=
  IndexStore.load_prune s.index.refs k j cutoff

/-- Retention does nothing, or it cuts the refs off at the end of one of them. -/
theorem Storage.enforceRetention_cases (s : Storage) (k : Bytes) (nowMs maxAgeMs maxBytes : ℤ) :
    s.enforceRetention k nowMs maxAgeMs maxBytes = (s, none) ∨
      ∃ (d : ℕ) (r : SegmentRef), (s.index.refsFor k)[d]? = some r ∧
        s.enforceRetention k nowMs maxAgeMs maxBytes
          = (s.pruned k r.nextOffset, some r.nextOffset) := by
  rw [Storage.enforceRetention]
  dsimp only
  split
  · exact .inl rfl
  · split
    · exact .inl rfl
    · next r hr => exact .inr ⟨_, r, hr, rfl⟩

namespace ObjectLog

/-- The log end moves past a batch; the high watermark follows an append that is
not held back, and never a replica's. -/
def advance (l : ObjectLog) (next : ℤ) (replica : Bool) : ObjectLog :=
  { l with
    nextOffset := next
    highWatermark := if replica || l.holdHWM then l.highWatermark else next }

/-- Retention moves the earliest offset up. -/
def raiseEarliest (l : ObjectLog) : Option ℤ → ObjectLog
  | none => l
  | some e => if l.earliest < e then { l with earliest := e } else l

theorem nextOffset_raiseEarliest (l : ObjectLog) (e : Option ℤ) :
    (l.raiseEarliest e).nextOffset = l.nextOffset := by
  cases e with
  | none => rfl
  | some e => rw [raiseEarliest]; split <;> rfl

end ObjectLog

end Object
end Mq
