import Mq.Record.Batch

/-!
# Segments and the sparse index

One pair of files (`.log` and `.index`) holding a contiguous range of record
batches, as `internal/storage/segment.go` and `index.go` keep it.  Sizes,
positions and relative offsets are 32-bit in the source and are wrapped here
wherever the source converts or adds.

A file is its byte content.  `writeAt` and `readAt` follow `os.File`: a negative
position is an error, a write past the end fills the gap with zeros, a read that
does not fit in the file is an error.

## Main definitions

* `floorPosition` — the binary search of the sparse index.
* `Segment.append`, `Segment.readBatchesFrom` — the write and the read path.
-/

namespace Mq
namespace Storage

open Word Record

/-- The errors of the package, those of `internal/record` included. -/
inductive Err
  /-- A batch header was refused. -/
  | record (e : Record.Err)
  /-- The requested offset is not retained, or beyond the log end. -/
  | offsetOutOfRange
  /-- A replica batch starts above the log end. -/
  | replicaGap (base logEnd : ℤ)
  /-- A read at a position outside the file. -/
  | readAt
  /-- A write or truncation at a negative position. -/
  | writeAt
  deriving DecidableEq, Repr

/-- Ways in which a call does not return a value: an error, a panic, or a loop
that never ends. -/
inductive Failure
  | error (e : Err)
  | panic
  | hang
  deriving DecidableEq, Repr

/-- What a call that may fail gives. -/
abbrev Outcome (α : Type) := Except Failure α

/-! ### Files -/

/-- `WriteAt`: overwrite from `pos` on, extending the file as needed. -/
def writeAt (f : Bytes) (pos : ℤ) (b : Bytes) : Option Bytes :=
  if pos < 0 then none
  else some (f.take pos.toNat ++ List.replicate (pos.toNat - f.length) 0 ++ b
    ++ f.drop (pos.toNat + b.length))

/-- `ReadAt` with a buffer of `n` bytes. -/
def readAt (f : Bytes) (pos : ℤ) (n : ℕ) : Option Bytes :=
  if 0 ≤ pos ∧ pos + n ≤ f.length then some (slice f pos.toNat n) else none

/-- `Truncate` to `size` bytes. -/
def truncate (f : Bytes) (size : ℤ) : Option Bytes :=
  if size < 0 then none else some (f.take size.toNat ++ List.replicate (size.toNat - f.length) 0)

/-- Writing at the end appends. -/
theorem writeAt_length (f b : Bytes) : writeAt f f.length b = some (f ++ b) := by
  have : ¬ ((f.length : ℤ) < 0) := by omega
  simp [writeAt, this]

theorem truncate_of_le {f : Bytes} {n : ℕ} (h : n ≤ f.length) : truncate f n = some (f.take n) := by
  have h₁ : ¬ ((n : ℤ) < 0) := by omega
  have h₂ : n - f.length = 0 := by omega
  simp [truncate, h₁, h₂]

/-- Reading `n` bytes after a prefix of a file. -/
theorem readAt_append {a b : Bytes} {n : ℕ} (h : n ≤ b.length) :
    readAt (a ++ b) a.length n = some (b.take n) := by
  rw [readAt, if_pos ⟨by omega, by rw [List.length_append]; omega⟩]
  simp [slice]

/-! ### The sparse index -/

/-- An index entry maps an offset relative to the segment base to a position in
the segment's `.log` file. -/
structure IndexEntry where
  relOffset : ℤ
  position : ℤ
  deriving DecidableEq, Repr, Inhabited

/-- The size of an entry on disk. -/
def indexEntrySize : ℕ := 8

def encodeIndexEntry (e : IndexEntry) : Bytes := putInt32 e.relOffset ++ putInt32 e.position

def decodeIndexEntries (b : Bytes) : List IndexEntry :=
  (List.range (b.length / indexEntrySize)).map fun i =>
    ⟨getInt32 b (i * indexEntrySize), getInt32 b (i * indexEntrySize + 4)⟩

/-- The loop of `floorPosition`; `hi` is one past the source's, so that the
interval searched is `[lo, hi)`. -/
def floorLoop (index : List IndexEntry) (targetRel : ℤ) : ℕ → ℕ → ℕ → ℤ → ℤ
  | 0, _, _, pos => pos
  | fuel + 1, lo, hi, pos =>
    if lo < hi then
      let mid := (lo + hi - 1) / 2
      if (index.getD mid default).relOffset ≤ targetRel then
        floorLoop index targetRel fuel (mid + 1) hi (index.getD mid default).position
      else floorLoop index targetRel fuel lo mid pos
    else pos

/-- The position of the largest index entry whose relative offset is at most
`targetRel`, or 0 if there is none. -/
def floorPosition (index : List IndexEntry) (targetRel : ℤ) : ℤ :=
  floorLoop index targetRel index.length 0 index.length 0

theorem floorLoop_spec (index : List IndexEntry) (t : ℤ) :
    ∀ (fuel lo hi : ℕ) (pos : ℤ), hi ≤ index.length →
      floorLoop index t fuel lo hi pos = pos ∨
        ∃ e ∈ index, e.relOffset ≤ t ∧ floorLoop index t fuel lo hi pos = e.position := by
  intro fuel
  induction fuel with
  | zero => intro lo hi pos _; exact Or.inl rfl
  | succ fuel ih =>
    intro lo hi pos hhi
    rw [floorLoop]
    by_cases hlt : lo < hi
    · rw [if_pos hlt]
      have hmid : (lo + hi - 1) / 2 < index.length := by omega
      have hmem : index.getD ((lo + hi - 1) / 2) default ∈ index := by
        simp only [List.getD, List.getElem?_eq_getElem hmid, Option.getD_some]
        exact List.getElem_mem hmid
      simp only
      split
      · next hle =>
        rcases ih ((lo + hi - 1) / 2 + 1) hi (index.getD ((lo + hi - 1) / 2) default).position hhi
          with h | h
        · exact Or.inr ⟨_, hmem, hle, h⟩
        · exact Or.inr h
      · exact ih lo _ pos (by omega)
    · rw [if_neg hlt]; exact Or.inl rfl

/-- The search ends at the start of the segment or at an entry not past the
target. -/
theorem floorPosition_spec (index : List IndexEntry) (t : ℤ) :
    floorPosition index t = 0 ∨
      ∃ e ∈ index, e.relOffset ≤ t ∧ floorPosition index t = e.position :=
  floorLoop_spec index t _ _ _ _ le_rfl

/-- An entry whose fields are 32-bit values. -/
def IndexEntry.Fits (e : IndexEntry) : Prop :=
  wrap32 e.relOffset = e.relOffset ∧ wrap32 e.position = e.position

theorem length_encodeIndexEntry (e : IndexEntry) : (encodeIndexEntry e).length = 8 := by
  simp [encodeIndexEntry]

/-- A field of the bytes after an 8-byte entry. -/
theorem getInt32_after {a : Bytes} (ha : a.length = 8) (b : Bytes) (off : ℕ) :
    getInt32 (a ++ b) (8 + off) = getInt32 b off := by
  rw [getInt32, getInt32, getUint, getUint, slice, slice, ← List.drop_drop, ← ha, List.drop_left]

theorem decodeIndexEntries_cons {e : IndexEntry} (he : e.Fits) (b : Bytes) :
    decodeIndexEntries (encodeIndexEntry e ++ b) = e :: decodeIndexEntries b := by
  have hlen : (encodeIndexEntry e ++ b).length / indexEntrySize = b.length / indexEntrySize + 1 := by
    rw [List.length_append, length_encodeIndexEntry]; unfold indexEntrySize; omega
  have h₀ : getInt32 (encodeIndexEntry e ++ b) 0 = e.relOffset := by
    rw [getInt32, getUint, encodeIndexEntry, List.append_assoc]
    simp only [slice, List.drop_zero]
    rw [List.take_left' (length_putInt32 _), wrap32_beGet_putInt32, he.1]
  have h₄ : getInt32 (encodeIndexEntry e ++ b) 4 = e.position := by
    rw [getInt32, getUint, encodeIndexEntry, List.append_assoc]
    simp only [slice]
    rw [List.drop_left' (length_putInt32 _), List.take_left' (length_putInt32 _),
      wrap32_beGet_putInt32, he.2]
  have hrest : ∀ i off, getInt32 (encodeIndexEntry e ++ b) ((i + 1) * indexEntrySize + off)
      = getInt32 b (i * indexEntrySize + off) := by
    intro i off
    have hpos : (i + 1) * indexEntrySize + off = 8 + (i * indexEntrySize + off) := by
      unfold indexEntrySize; omega
    rw [hpos, getInt32_after (length_encodeIndexEntry e)]
  unfold decodeIndexEntries
  rw [hlen, List.range_succ_eq_map, List.map_cons, List.map_map]
  have htail : ∀ i, (⟨getInt32 (encodeIndexEntry e ++ b) ((i + 1) * indexEntrySize),
      getInt32 (encodeIndexEntry e ++ b) ((i + 1) * indexEntrySize + 4)⟩ : IndexEntry)
        = ⟨getInt32 b (i * indexEntrySize), getInt32 b (i * indexEntrySize + 4)⟩ := by
    intro i
    have h := hrest i 0
    simp only [Nat.add_zero] at h
    rw [h, hrest]
  rw [Nat.zero_mul, Nat.zero_add, h₀, h₄]
  exact congrArg (e :: ·) (List.map_congr_left fun i _ => htail i)

/-- **Reading back an index file.** -/
theorem decodeIndexEntries_encode {es : List IndexEntry} (hes : ∀ e ∈ es, e.Fits) :
    decodeIndexEntries (es.map encodeIndexEntry).flatten = es := by
  induction es with
  | nil => rfl
  | cons e es ih =>
    rw [List.map_cons, List.flatten_cons, decodeIndexEntries_cons (hes e (by simp)),
      ih fun e he => hes e (by simp [he])]

/-! ### Segments -/

/-- A segment: its two files, the modification time of the `.log` file, and the
in-memory state over them. -/
structure Segment where
  baseOffset : ℤ
  logFile : Bytes
  idxFile : Bytes
  modTime : ℤ
  logSize : ℤ
  index : List IndexEntry
  bytesSinceIdx : ℤ
  indexInterval : ℤ
  deriving DecidableEq, Repr

/-- Fresh files for a base offset. -/
def createSegment (baseOffset indexInterval now : ℤ) : Segment where
  baseOffset := baseOffset
  logFile := []
  idxFile := []
  modTime := now
  logSize := 0
  index := []
  bytesSinceIdx := 0
  indexInterval := indexInterval

/-- The index half of an append: an entry is added for the first batch and
whenever the byte interval is crossed. -/
def Segment.indexBatch (s : Segment) (baseOffset : ℤ) : Segment :=
  if s.index = [] ∨ s.indexInterval ≤ s.bytesSinceIdx then
    let e : IndexEntry := ⟨wrap32 (baseOffset - s.baseOffset), s.logSize⟩
    { s with idxFile := s.idxFile ++ encodeIndexEntry e, index := s.index ++ [e], bytesSinceIdx := 0 }
  else s

/-- Write one batch at the segment's current end. -/
def Segment.append (s : Segment) (now : ℤ) (batch : Bytes) (baseOffset : ℤ) :
    Segment × Option Err :=
  let s' := s.indexBatch baseOffset
  match writeAt s'.logFile s'.logSize batch with
  | none => (s', some .writeAt)
  | some f =>
    ({ s' with
        logFile := f
        modTime := now
        logSize := wrap32 (s'.logSize + wrap32 batch.length)
        bytesSinceIdx := wrap32 (s'.bytesSinceIdx + wrap32 batch.length) }, none)

/-- The loop of `readBatchesFrom` from position `pos`, with `out` read so far. -/
def Segment.readLoop (s : Segment) (wantOffset maxBytes : ℤ) :
    ℕ → ℤ → Bytes → Outcome (Bytes × Option Err)
  | 0, _, _ => .error .hang
  | fuel + 1, pos, out =>
    if pos < s.logSize then
      match readAt s.logFile pos headerSize with
      | none => .ok (out, some .readAt)
      | some hdr =>
        match parseHeader hdr with
        | .error e => .ok (out, some (.record e))
        | .ok h =>
          let total := wrap32 h.totalSize
          -- a batch entirely before the target is skipped
          if h.lastOffset < wantOffset then s.readLoop wantOffset maxBytes fuel (wrap32 (pos + total)) out
          else if out ≠ [] ∧ maxBytes < wrap32 (wrap32 out.length + total) then .ok (out, none)
          else if total < 0 then .error .panic
          else
            match readAt s.logFile pos total.toNat with
            | none => .ok (out, some .readAt)
            | some full =>
              if maxBytes ≤ wrap32 (out ++ full).length then .ok (out ++ full, none)
              else s.readLoop wantOffset maxBytes fuel (wrap32 (pos + total)) (out ++ full)
    else .ok (out, none)

/-- Whole batches starting at the first one whose last offset is at least
`wantOffset`, up to `maxBytes` but always at least one.  The positions visited
lie in the file and only they decide where the loop goes next, so it either ends
within `logSize` rounds or visits a position twice and never ends. -/
def Segment.readBatchesFrom (s : Segment) (wantOffset maxBytes : ℤ) : Outcome (Bytes × Option Err) :=
  s.readLoop wantOffset maxBytes (s.logSize.toNat + 2)
    (floorPosition s.index (wrap32 (wantOffset - s.baseOffset))) []

end Storage
end Mq
