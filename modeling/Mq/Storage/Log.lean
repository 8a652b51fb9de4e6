import Mathlib.Data.List.Sort
import Mq.Lib.Search
import Mq.Storage.Segment

/-!
# The segmented commit log

The file backend of `internal/storage/log.go`: one append-only log per
partition, as a list of closed segments and one active segment.

The disk is the segments' own files.  A segment file is named by its base
offset, so segments with one base offset share their files; `shareFiles` says
so, and `createSegment` truncates the file that is already there.  File
operations other than those at a bad position succeed.  Every operation that
writes takes the time `now` at which it runs (in nanoseconds), which becomes the
modification time of the files written.

## Main definitions

* `Log.append`, `Log.appendReplica` — the two write paths.
* `Log.read`, `Log.segmentFor` — the read path.
* `Log.enforceRetention`, `Log.flush`, `Log.setHighWatermark`.
* `Log.open`, `recoverActive` — opening a directory and recovering from a crash.
-/

namespace Mq
namespace Storage

open Word Record

/-- Segment rolling and indexing. -/
structure Config where
  segmentBytes : ℤ
  indexIntervalBytes : ℤ
  deriving DecidableEq, Repr

/-- The log of one partition.  `active` is the last segment. -/
structure Log where
  cfg : Config
  sealed : List Segment
  active : Segment
  nextOffset : ℤ
  highWatermark : ℤ
  holdHWM : Bool
  dirty : Bool
  deriving DecidableEq, Repr

namespace Log

/-- All segments, in offset order. -/
def segments (l : Log) : List Segment := l.sealed ++ [l.active]

/-- `t` after the files named by `s`'s base offset became those of `s`. -/
def shareFiles (s t : Segment) : Segment :=
  if t.baseOffset = s.baseOffset then
    { t with logFile := s.logFile, idxFile := s.idxFile, modTime := s.modTime }
  else t

/-- The log after its active segment was written to. -/
def setActive (l : Log) (s : Segment) : Log :=
  { l with sealed := l.sealed.map (shareFiles s), active := s }

/-- Start a new segment based at `baseOffset`. -/
def roll (l : Log) (now baseOffset : ℤ) : Log :=
  let s := createSegment baseOffset l.cfg.indexIntervalBytes now
  { l with sealed := l.segments.map (shareFiles s), active := s }

/-- Whether a batch of `n` bytes goes into a new segment. -/
def needsRoll (l : Log) (n : ℕ) : Bool :=
  0 < l.active.logSize && l.cfg.segmentBytes < wrap32 (l.active.logSize + wrap32 n)

/-- The log with the roll an append of `n` bytes at `baseOffset` starts with. -/
def rollFor (l : Log) (now baseOffset : ℤ) (n : ℕ) : Log :=
  if l.needsRoll n then l.roll now baseOffset else l

/-- Assign the next offset to a batch, patch its header and CRC, and write it to
the active segment.  The two patches index the batch up to byte 21 before its
length is checked. -/
def append (l : Log) (now : ℤ) (batch : Bytes) : Log × Outcome ℤ :=
  if batch.length < offAttributes then (l, .error .panic)
  else
    let base := l.nextOffset
    let b := recomputeCRC (setBaseOffset batch base)
    let l' := l.rollFor now base b.length
    match parseHeader b with
    | .error e => (l', .error (.error (.record e)))
    | .ok h =>
      match l'.active.append now b base with
      | (s, some e) => (l'.setActive s, .error (.error e))
      | (s, none) =>
        let next := wrap64 (base + h.recordCount)
        ({ l'.setActive s with
            nextOffset := next
            highWatermark := if l.holdHWM then l.highWatermark else next
            dirty := true }, .ok base)

/-- Append a batch received from the leader, keeping its base offset. -/
def appendReplica (l : Log) (now : ℤ) (batch : Bytes) : Log × Outcome ℤ :=
  match parseHeader batch with
  | .error e => (l, .error (.error (.record e)))
  | .ok h =>
    if h.baseOffset < l.nextOffset then (l, .ok l.nextOffset)
    else if l.nextOffset < h.baseOffset then
      (l, .error (.error (.replicaGap h.baseOffset l.nextOffset)))
    else
      let l' := l.rollFor now h.baseOffset batch.length
      match l'.active.append now batch h.baseOffset with
      | (s, some e) => (l'.setActive s, .error (.error e))
      | (s, none) =>
        let next := wrap64 (h.lastOffset + 1)
        ({ l'.setActive s with nextOffset := next, dirty := true }, .ok next)

/-- Advance the high watermark, never backward and never past the log end. -/
def setHighWatermark (l : Log) (hwm : ℤ) : Log :=
  let hwm := if l.nextOffset < hwm then l.nextOffset else hwm
  if l.highWatermark < hwm then { l with highWatermark := hwm } else l

/-- Switch to replication mode. -/
def holdHighWatermark (l : Log) : Log := { l with holdHWM := true }

/-- The base offset of the first segment. -/
def earliestOffset (l : Log) : ℤ := (l.sealed.headD l.active).baseOffset

/-- The next offset to be assigned. -/
def latestOffset (l : Log) : ℤ := l.nextOffset

/-- The segment with the largest base offset not above `offset`. -/
def segmentFor (l : Log) (offset : ℤ) : Segment :=
  let i := Search.search l.segments.length fun i =>
    decide (offset < (l.segments.getD i l.active).baseOffset)
  if i = 0 then l.sealed.headD l.active else l.segments.getD (i - 1) l.active

/-- Whole record batches starting at `offset`, up to `maxBytes`. -/
def read (l : Log) (offset maxBytes : ℤ) : Outcome (Bytes × Option Err) :=
  if offset = l.nextOffset then .ok ([], none)
  else if l.nextOffset < offset ∨ offset < l.earliestOffset then .ok ([], some .offsetOutOfRange)
  else (l.segmentFor offset).readBatchesFrom offset maxBytes

/-- The base offset of the first batch of a segment from position `pos` on whose largest
timestamp is not below `ts`.  `none` says to go on with the next segment, and `some none`
that the search ends without a result: a header cannot be read or does not parse. -/
def scanTimestamp (s : Segment) (ts : ℤ) : ℕ → ℤ → Outcome (Option (Option ℤ))
  | 0, _ => .error .hang
  | fuel + 1, pos =>
    if pos < s.logSize then
      match readAt s.logFile pos headerSize with
      | none => .ok (some none)
      | some hdr =>
        match parseHeader hdr with
        | .error _ => .ok (some none)
        | .ok h =>
          if ts ≤ h.maxTimestamp then .ok (some (some h.baseOffset))
          else scanTimestamp s ts fuel (wrap32 (pos + wrap32 h.totalSize))
    else .ok none

/-- The base offset of the first batch whose largest timestamp is not below `ts`.  A scan
that visits a position twice does not end, so that the fuel is enough for any other. -/
def offsetForTimestamp (l : Log) (ts : ℤ) : Outcome (Option ℤ) :=
  let rec go : List Segment → Outcome (Option ℤ)
    | [] => .ok none
    | s :: rest =>
      match scanTimestamp s ts (s.logSize.toNat + 1) 0 with
      | .error e => .error e
      | .ok (some r) => .ok r
      | .ok none => go rest
  go l.segments

/-- The total size of all segments. -/
def size (l : Log) : ℤ := (l.segments.map (·.logSize)).sum

/-- Fsync the active segment if dirty. -/
def flush (l : Log) : Log := { l with dirty := false }

/-- The closed segments that survive retention, oldest first; `total` is the
size of the log from the first of them on. -/
def retentionLoop (cutoff maxAgeMs maxBytes : ℤ) : ℤ → List Segment → List Segment
  | _, [] => []
  | total, s :: rest =>
    let expired := decide (0 < maxAgeMs ∧ s.modTime < cutoff)
    let overSize := decide (0 < maxBytes ∧ maxBytes < total)
    if !expired && !overSize then s :: rest
    else retentionLoop cutoff maxAgeMs maxBytes (total - s.logSize) rest

/-- Delete whole closed segments that are too old, or oldest first to bring the
total size under `maxBytes`.  A limit of zero disables that dimension. -/
def enforceRetention (l : Log) (now maxAgeMs maxBytes : ℤ) : Log :=
  let cutoff := now + wrap64 (-maxAgeMs * 1000000)
  { l with sealed := retentionLoop cutoff maxAgeMs maxBytes l.size l.sealed }

end Log

/-! ### Opening a directory -/

/-- The files of one segment in a partition directory. -/
structure SegmentFiles where
  baseOffset : ℤ
  log : Bytes
  idx : Bytes
  modTime : ℤ
  deriving DecidableEq, Repr

/-- A partition directory. -/
abbrev Dir := List SegmentFiles

/-- What a segment leaves on disk. -/
def Segment.files (s : Segment) : SegmentFiles := ⟨s.baseOffset, s.logFile, s.idxFile, s.modTime⟩

/-- What a log leaves on disk. -/
def Log.dir (l : Log) : Dir := l.segments.map Segment.files

/-- Open existing files and load the index. -/
def openSegment (f : SegmentFiles) (indexInterval : ℤ) : Segment where
  baseOffset := f.baseOffset
  logFile := f.log
  idxFile := f.idx
  modTime := f.modTime
  logSize := wrap32 f.log.length
  index := decodeIndexEntries f.idx
  bytesSinceIdx := 0
  indexInterval := indexInterval

/-- The state of the recovery scan: the position reached, the next offset, and
the index rebuilt so far with its byte counter. -/
structure Scan where
  pos : ℤ
  next : ℤ
  index : List IndexEntry
  bytesSinceIdx : ℤ
  deriving DecidableEq, Repr

/-- The scan after a batch with header `h` that occupies `total` bytes, in a
segment based at `base`. -/
def Scan.step (c : Scan) (base indexInterval : ℤ) (h : BatchHeader) (total : ℤ) : Scan :=
  if c.index = [] ∨ indexInterval ≤ c.bytesSinceIdx then
    { pos := wrap32 (c.pos + total)
      next := wrap64 (h.lastOffset + 1)
      index := c.index ++ [⟨wrap32 (h.baseOffset - base), c.pos⟩]
      bytesSinceIdx := wrap32 total }
  else
    { pos := wrap32 (c.pos + total)
      next := wrap64 (h.lastOffset + 1)
      index := c.index
      bytesSinceIdx := wrap32 (c.bytesSinceIdx + total) }

/-- The loop of `recoverActive`. -/
def recoverLoop (s : Segment) : ℕ → Scan → Outcome Scan
  | 0, _ => .error .hang
  | fuel + 1, c =>
    if c.pos < s.logSize then
      if wrap32 (s.logSize - c.pos) < headerSize then .ok c
      else
        match readAt s.logFile c.pos headerSize with
        | none => .error (.error .readAt)
        | some hdr =>
          match parseHeader hdr with
          | .error _ => .ok c
          | .ok h =>
            let total := wrap32 h.totalSize
            if s.logSize < wrap32 (c.pos + total) then .ok c
            else recoverLoop s fuel (c.step s.baseOffset s.indexInterval h total)
    else .ok c

/-- Scan the active segment for the next offset, rebuild its index and cut off a
partial trailing batch. -/
def recoverActive (s : Segment) (now : ℤ) : Outcome (Segment × ℤ) := do
  let c ← recoverLoop s (s.logSize.toNat + 2) ⟨0, 0, [], 0⟩
  let s ←
    if c.pos = s.logSize then pure s
    else
      match truncate s.logFile c.pos with
      | none => .error (.error .writeAt)
      | some f => pure { s with logFile := f, logSize := c.pos, modTime := now }
  let s := { s with
    index := c.index
    bytesSinceIdx := c.bytesSinceIdx
    idxFile := (c.index.map encodeIndexEntry).flatten }
  pure (s, if c.next = 0 then s.baseOffset else c.next)

/-- Open the partition log in a directory, recovering from what is there. -/
def Log.open (cfg : Config) (now : ℤ) (dir : Dir) : Outcome Log :=
  let files := dir.insertionSort fun f g => f.baseOffset ≤ g.baseOffset
  match files.getLast? with
  | none =>
    .ok
      { cfg
        sealed := []
        active := createSegment 0 cfg.indexIntervalBytes now
        nextOffset := 0
        highWatermark := 0
        holdHWM := false
        dirty := false }
  | some last => do
    let (s, next) ← recoverActive (openSegment last cfg.indexIntervalBytes) now
    pure
      { cfg
        sealed := files.dropLast.map (openSegment · cfg.indexIntervalBytes)
        active := s
        nextOffset := next
        highWatermark := next
        holdHWM := false
        dirty := false }

end Storage
end Mq
