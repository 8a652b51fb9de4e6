import Mathlib.Data.List.Sort
import Mq.Lib.Decimal
import Mq.Lib.Framing
import Mq.Lib.Table
import Mq.Object.Wal
import Mq.Record.Batch

/-!
# The files of the write-ahead log

`internal/storage/object/wal.go` at the level of bytes.  A record is written as a frame: a
magic byte, a checksum, a length and a payload.  A replay reads the segment files in the
order of the numbers in their names and each file frame by frame, and stops at the first
frame of a file that is not whole.

## Main definitions

* `encodeWalPayload`, `decodeWalPayload`, `walFrame` — the format of a record.
* `WalRecord.Valid` — the records that the format can hold.
* `replaySegment`, `WalDir`, `segmentSeqs`, `replay` — a directory of segment files, and the
  replay.
* `TornSegment`, `WalDir.Holds` — the records of a segment and the beginning of one more
  frame; a directory whose segment files are given.

## Main results

* `decode_encodeWalPayload` — a payload decodes to the record that it encodes.
* `walCodec` — frames are read back, and a torn one stops the reader.
* `WalDir.Holds.segmentSeqs_eq` — the segments are found in order.
* `wal_replay_exact` — **a replay recovers exactly the written records.**
-/

namespace Mq
namespace Object

open Word Framing
open Record (checksum)

/-! ### The format of a record -/

def walMagic : UInt8 := 0xA7

/-- The payload: `topicLen(2) | topic | partition(4) | baseOffset(8) | batch`. -/
def encodeWalPayload (rec : WalRecord) : Bytes :=
  putInt16 rec.topic.length ++ rec.topic ++ putInt32 rec.partition ++ putInt64 rec.baseOffset
    ++ rec.batch

inductive PayloadErr
  /-- `object: wal payload too short` -/
  | tooShort
  /-- `object: wal payload truncated` -/
  | truncated
  deriving DecidableEq, Repr

def decodeWalPayload (b : Bytes) : Except PayloadErr WalRecord :=
  if b.length < 2 then .error .tooShort
  else
    let tl := getUint b 0 2
    if b.length < 2 + tl + 12 then .error .truncated
    else .ok
      { topic := slice b 2 tl
        partition := getInt32 b (2 + tl)
        baseOffset := getInt64 b (2 + tl + 4)
        batch := b.drop (2 + tl + 12) }

/-- The frame that an append writes: magic, checksum, length, payload. -/
def walFrame (rec : WalRecord) : Bytes :=
  let payload := encodeWalPayload rec
  [walMagic] ++ bePut 4 (checksum payload).toNat ++ bePut 4 payload.length ++ payload

/-- The partition and the offset are values of their types, and the lengths of the topic and
of the payload fit their fields. -/
def WalRecord.Valid (rec : WalRecord) : Prop :=
  rec.topic.length < 65536 ∧ wrap32 rec.partition = rec.partition ∧
    wrap64 rec.baseOffset = rec.baseOffset ∧ (encodeWalPayload rec).length < 4294967296

instance (rec : WalRecord) : Decidable rec.Valid := inferInstanceAs (Decidable (_ ∧ _ ∧ _ ∧ _))

theorem length_encodeWalPayload (rec : WalRecord) :
    (encodeWalPayload rec).length = 2 + rec.topic.length + 12 + rec.batch.length := by
  simp [encodeWalPayload]
  omega

theorem length_walFrame (rec : WalRecord) :
    (walFrame rec).length = 9 + (encodeWalPayload rec).length := by
  simp [walFrame]
  omega

/-- **A payload decodes to the record that it encodes.** -/
theorem decode_encodeWalPayload {rec : WalRecord} (h : rec.Valid) :
    decodeWalPayload (encodeWalPayload rec) = .ok rec := by
  obtain ⟨htopic, hpart, hbase, -⟩ := h
  have hlen := length_encodeWalPayload rec
  -- the fields, each between what is before and what is after it
  have htl : getUint (encodeWalPayload rec) 0 2 = rec.topic.length := by
    have hslice : slice (encodeWalPayload rec) 0 2 = putInt16 rec.topic.length := by
      have heq : encodeWalPayload rec = [] ++ putInt16 rec.topic.length
          ++ (rec.topic ++ putInt32 rec.partition ++ putInt64 rec.baseOffset ++ rec.batch) := by
        simp [encodeWalPayload]
      rw [heq]
      exact slice_between rfl (length_putInt16 _)
    rw [getUint, hslice, putInt16, beGet_bePut]
    omega
  have htopic' : slice (encodeWalPayload rec) 2 rec.topic.length = rec.topic := by
    have heq : encodeWalPayload rec = putInt16 rec.topic.length ++ rec.topic
        ++ (putInt32 rec.partition ++ putInt64 rec.baseOffset ++ rec.batch) := by
      simp [encodeWalPayload]
    rw [heq]
    exact slice_between (length_putInt16 _) rfl
  have hpart' : getInt32 (encodeWalPayload rec) (2 + rec.topic.length) = rec.partition := by
    have heq : encodeWalPayload rec = (putInt16 rec.topic.length ++ rec.topic)
        ++ putInt32 rec.partition ++ (putInt64 rec.baseOffset ++ rec.batch) := by
      simp [encodeWalPayload]
    rw [getInt32, getUint, heq, slice_between (by simp) (length_putInt32 _),
      wrap32_beGet_putInt32, hpart]
  have hbase' : getInt64 (encodeWalPayload rec) (2 + rec.topic.length + 4) = rec.baseOffset := by
    have heq : encodeWalPayload rec
        = (putInt16 rec.topic.length ++ rec.topic ++ putInt32 rec.partition)
          ++ putInt64 rec.baseOffset ++ rec.batch := by
      simp [encodeWalPayload]
    rw [getInt64, getUint, heq, slice_between (by simp; omega) (length_putInt64 _),
      wrap64_beGet_putInt64, hbase]
  have hbatch : (encodeWalPayload rec).drop (2 + rec.topic.length + 12) = rec.batch := by
    rw [encodeWalPayload]
    exact List.drop_left' (by simp; omega)
  rw [decodeWalPayload, if_neg (by omega)]
  dsimp only
  rw [htl, if_neg (by omega), htopic', hpart', hbase', hbatch]

/-! ### The frame at the front -/

/-- The errors of a replay; `ε` are those of the callback. -/
inductive WalErr (ε : Type)
  /-- A segment file cannot be read. -/
  | unreadable
  | payload (e : PayloadErr)
  | callback (e : ε)
  deriving DecidableEq, Repr

/-- One round of `replaySegment`, on the bytes that are left. -/
def walHead {ε : Type} (data : Bytes) : Head WalRecord (WalErr ε) :=
  if data.head? ≠ some walMagic then .stop
  -- partial frame header
  else if data.length < 9 then .stop
  else
    let crc := getUint data 1 4
    let n := getUint data 5 4
    -- partial payload
    if data.length < 9 + n then .stop
    else
      let payload := slice data 9 n
      -- corrupt record
      if (checksum payload).toNat ≠ crc then .stop
      else
        match decodeWalPayload payload with
        | .error e => .bad (.payload e)
        | .ok rec => .frame rec (8 + n)

section Frame

variable (rec : WalRecord) (after : Bytes)

theorem getUint_crc : getUint (walFrame rec ++ after) 1 4
    = (checksum (encodeWalPayload rec)).toNat := by
  have heq : walFrame rec ++ after = [walMagic] ++ bePut 4 (checksum (encodeWalPayload rec)).toNat
      ++ (bePut 4 (encodeWalPayload rec).length ++ encodeWalPayload rec ++ after) := by
    simp [walFrame]
  rw [getUint, heq, slice_between (by simp) (length_bePut _ _), beGet_bePut]
  exact Nat.mod_eq_of_lt (UInt32.toNat_lt _)

theorem getUint_length : getUint (walFrame rec ++ after) 5 4
    = (encodeWalPayload rec).length % 4294967296 := by
  have heq : walFrame rec ++ after
      = ([walMagic] ++ bePut 4 (checksum (encodeWalPayload rec)).toNat)
        ++ bePut 4 (encodeWalPayload rec).length ++ (encodeWalPayload rec ++ after) := by
    simp [walFrame]
  rw [getUint, heq, slice_between (by simp) (length_bePut _ _), beGet_bePut]
  rfl

theorem slice_payload : slice (walFrame rec ++ after) 9 (encodeWalPayload rec).length
    = encodeWalPayload rec := by
  rw [walFrame]
  exact slice_between (by simp) rfl

end Frame

/-- **Frames are read back, and a torn one stops the reader**, wherever it is cut. -/
def walCodec (ε : Type) : Codec UInt8 WalRecord (WalErr ε) where
  encode := walFrame
  head := walHead
  Valid := WalRecord.Valid
  head_encode := by
    intro rec hrec after
    have hlen := length_walFrame rec
    have hn : getUint (walFrame rec ++ after) 5 4 = (encodeWalPayload rec).length :=
      (getUint_length rec after).trans (Nat.mod_eq_of_lt hrec.2.2.2)
    refine ⟨8 + (encodeWalPayload rec).length, by omega, ?_⟩
    rw [walHead, if_neg (by simp [walFrame]), if_neg (by rw [List.length_append]; omega)]
    dsimp only
    rw [hn, if_neg (by rw [List.length_append]; omega), slice_payload, getUint_crc,
      if_neg (by simp), decode_encodeWalPayload hrec]
  head_torn := by
    intro rec hrec t hnil hpre hne
    obtain ⟨cut, hcut⟩ := hpre
    have hlen := length_walFrame rec
    have hlt : t.length < (walFrame rec).length := by
      rw [← hcut, List.length_append]
      have : cut ≠ [] := fun h => hne (by rw [← hcut, h, List.append_nil])
      have := List.length_pos_of_ne_nil this
      omega
    have hmagic : t.head? = some walMagic := by
      cases t with
      | nil => exact absurd rfl hnil
      | cons b t =>
        have := congrArg List.head? hcut
        simpa [walFrame] using this
    rw [walHead, if_neg (by simp [hmagic])]
    -- the cut is in the header, or else the length is known
    split
    · rfl
    · next hheader =>
      have hn : getUint t 5 4 = (encodeWalPayload rec).length := by
        have hwhole := getUint_length rec []
        rw [List.append_nil, Nat.mod_eq_of_lt hrec.2.2.2] at hwhole
        rw [← hwhole, ← hcut, getUint, getUint, slice_append_left (by omega)]
      dsimp only
      rw [hn, if_pos (by omega)]

/-! ### Reading a segment -/

section Replay

variable {σ ε : Type}

/-- The callback, with its errors among those of the replay. -/
def callback (fn : σ → WalRecord → σ × Option ε) (s : σ) (rec : WalRecord) :
    σ × Option (WalErr ε) :=
  ((fn s rec).1, (fn s rec).2.map .callback)

/-- Decode the records of a segment up to the first torn or corrupt one. -/
def replaySegment (fn : σ → WalRecord → σ × Option ε) (data : Bytes) (s : σ) :
    σ × Option (WalErr ε) :=
  scan walHead (callback fn) data s

/-! ### The directory -/

/-- The files of the directory by name. -/
abbrev WalDir := Table Bytes Bytes

/-- `.wal` -/
def walSuffix : Bytes := [46, 119, 97, 108]

/-- `%020d.wal` -/
def segPath (seq : ℕ) : Bytes := zeroPad 20 (decimal seq) ++ walSuffix

/-- The number in the name of a segment file. -/
def segmentSeq (name : Bytes) : Option ℕ :=
  if walSuffix <:+ name then parseUint (name.take (name.length - walSuffix.length)) else none

/-- The numbers of the segment files in increasing order. -/
def segmentSeqs (dir : WalDir) : List ℕ := (dir.keys.filterMap segmentSeq).insertionSort (· ≤ ·)

/-- Read the segments in the order of their numbers. -/
def replay (fn : σ → WalRecord → σ × Option ε) (dir : WalDir) (s : σ) : σ × Option (WalErr ε) :=
  feed (fun s seq =>
    match dir.lookup (segPath seq) with
    | none => (s, some .unreadable)
    | some data => replaySegment fn data s) s (segmentSeqs dir)

end Replay

theorem segmentSeq_segPath {seq : ℕ} (h : seq < 2 ^ 64) : segmentSeq (segPath seq) = some seq := by
  rw [segmentSeq, segPath, if_pos (List.suffix_append _ _), List.length_append,
    Nat.add_sub_cancel, List.take_left, parseUint_zeroPad 20 h]

/-- The records of a segment, and the beginning of one more frame after them. -/
structure TornSegment where
  seq : ℕ
  records : List WalRecord
  torn : Bytes
  seq_lt : seq < 2 ^ 64
  valid : ∀ rec ∈ records, rec.Valid
  isTorn : ∃ rec : WalRecord, rec.Valid ∧ torn <+: walFrame rec ∧ torn ≠ walFrame rec

/-- The bytes of the file. -/
def TornSegment.data (t : TornSegment) : Bytes := t.records.flatMap walFrame ++ t.torn

/-- The segment files of the directory are these, in this order. -/
structure WalDir.Holds (dir : WalDir) (segs : List TornSegment) : Prop where
  sorted : (segs.map (·.seq)).Pairwise (· < ·)
  lookup_segPath : ∀ t ∈ segs, dir.lookup (segPath t.seq) = some t.data
  /-- What has another name is not a segment. -/
  eq_segPath : ∀ name ∈ dir.keys, ∀ seq, segmentSeq name = some seq →
    name = segPath seq ∧ ∃ t ∈ segs, t.seq = seq

section Holds

variable {dir : WalDir} {segs : List TornSegment} {σ ε : Type}

theorem WalDir.Holds.mem_segmentSeq (h : dir.Holds segs) {seq : ℕ} :
    seq ∈ dir.keys.filterMap segmentSeq ↔ seq ∈ segs.map (·.seq) := by
  rw [List.mem_filterMap, List.mem_map]
  constructor
  · rintro ⟨name, hname, hseq⟩
    exact (h.eq_segPath name hname seq hseq).2
  · rintro ⟨t, ht, rfl⟩
    refine ⟨segPath t.seq, (Table.mem_keys_iff dir _).mpr ?_, segmentSeq_segPath t.seq_lt⟩
    rw [h.lookup_segPath t ht]
    exact Option.some_ne_none _

/-- The numbers are found in order, and each once. -/
theorem WalDir.Holds.segmentSeqs_eq (h : dir.Holds segs) :
    segmentSeqs dir = segs.map (·.seq) := by
  have hnodup : (dir.keys.filterMap segmentSeq).Nodup := by
    -- two names with the same number are the name of its segment
    rw [List.Nodup, List.pairwise_filterMap]
    refine dir.keys_nodup.imp_of_mem ?_
    rintro a b ha hb hab m hm n hn rfl
    exact hab ((h.eq_segPath a ha m hm).1.trans (h.eq_segPath b hb m hn).1.symm)
  have hperm : (dir.keys.filterMap segmentSeq).Perm (segs.map (·.seq)) :=
    (List.perm_ext_iff_of_nodup hnodup (h.sorted.imp ne_of_lt)).mpr fun _ => h.mem_segmentSeq
  exact List.Perm.eq_of_pairwise' (List.pairwise_insertionSort _ _) (h.sorted.imp le_of_lt)
    ((List.perm_insertionSort _ _).trans hperm)

/-- A replay calls its callback with the records of the segments, until it refuses one. -/
theorem WalDir.Holds.replay_eq (h : dir.Holds segs) (fn : σ → WalRecord → σ × Option ε) (s : σ) :
    replay fn dir s = feed (callback fn) s (segs.flatMap (·.records)) := by
  rw [replay, h.segmentSeqs_eq, feed_map, ← feed_flatMap]
  refine feed_congr (fun s t ht => ?_) s
  rw [h.lookup_segPath t ht]
  exact Codec.scan_frames (c := walCodec ε) t.valid t.isTorn (callback fn) s

/-- A callback that keeps what it is called with. -/
theorem WalDir.Holds.replay_calls (h : dir.Holds segs) :
    replay (ε := Empty) (fun calls rec => (calls ++ [rec], none)) dir []
      = (segs.flatMap (·.records), none) := by
  rw [h.replay_eq, feed_of_ok fun _ _ => rfl]
  simp [callback, List.foldl_append_eq_append, ← List.flatMap_def]

end Holds

/-! ### Directories of given segments -/

theorem segPath_inj {m n : ℕ} (h : segPath m = segPath n) : m = n :=
  zeroPad_decimal_inj (List.append_cancel_right h)

/-- The directory with the files of these segments. -/
def WalDir.ofSegments (segs : List TornSegment) : WalDir :=
  Table.insertAll ∅ (segs.map fun t => (segPath t.seq, t.data))

theorem WalDir.mem_of_lookup_ofSegments {segs : List TornSegment} {name data : Bytes}
    (h : (WalDir.ofSegments segs).lookup name = some data) :
    ∃ t ∈ segs, name = segPath t.seq ∧ data = t.data := by
  rcases Table.mem_of_lookup_insertAll h with hmem | hempty
  · obtain ⟨t, ht, heq⟩ := List.mem_map.mp hmem
    cases heq
    exact ⟨t, ht, rfl, rfl⟩
  · cases hempty

/-- **Every list of segments with increasing numbers is held by a directory.** -/
theorem WalDir.holds_ofSegments {segs : List TornSegment}
    (hsorted : (segs.map (·.seq)).Pairwise (· < ·)) : (WalDir.ofSegments segs).Holds segs := by
  have hinj : ∀ t ∈ segs, ∀ u ∈ segs, t.seq = u.seq → t = u :=
    List.inj_on_of_nodup_map (hsorted.imp ne_of_lt)
  refine ⟨hsorted, fun t ht => ?_, fun name hname seq hseq => ?_⟩
  · have hfile : (WalDir.ofSegments segs).lookup (segPath t.seq) ≠ none :=
      Table.lookup_insertAll_ne_none (.inr ⟨t.data, List.mem_map.mpr ⟨t, ht, rfl⟩⟩)
    obtain ⟨data, hdata⟩ := Option.ne_none_iff_exists'.mp hfile
    obtain ⟨u, hu, hpath, rfl⟩ := WalDir.mem_of_lookup_ofSegments hdata
    rw [hdata, hinj t ht u hu (segPath_inj hpath)]
  · obtain ⟨data, hdata⟩ := Option.ne_none_iff_exists'.mp ((Table.mem_keys_iff _ _).mp hname)
    obtain ⟨t, ht, rfl, -⟩ := WalDir.mem_of_lookup_ofSegments hdata
    rw [segmentSeq_segPath t.seq_lt] at hseq
    cases hseq
    exact ⟨rfl, t, ht, rfl⟩

/-! ### The replay of a directory -/

/-- **A replay recovers exactly the written records.**  The records are distributed in order
over the segments, each with the beginning of one more frame at its end or with nothing.  A
callback that keeps what it is called with has the records at the end, and the replay returns
no error; any other callback is called in the same way until it refuses a record.  What is
encoded as a payload is decoded to itself. -/
theorem wal_replay_exact {dir : WalDir} {segs : List TornSegment} (h : dir.Holds segs) :
    replay (ε := Empty) (fun calls rec => (calls ++ [rec], none)) dir []
        = (segs.flatMap (·.records), none) ∧
      (∀ (σ ε : Type) (fn : σ → WalRecord → σ × Option ε) (s : σ),
        replay fn dir s = feed (callback fn) s (segs.flatMap (·.records))) ∧
      ∀ rec : WalRecord, rec.Valid → decodeWalPayload (encodeWalPayload rec) = .ok rec := by
  exact ⟨h.replay_calls, fun σ ε fn s => h.replay_eq fn s,
    fun rec hrec => decode_encodeWalPayload hrec⟩

/-- Three records in two segments, the first of which ends inside the header of a frame and
the second inside a payload. -/
def tornSegments : List TornSegment :=
  [⟨3, [⟨[97], 0, 7, [1, 2]⟩, ⟨[98], -1, 0, []⟩],
      (walFrame ⟨[], 0, 0, []⟩).take 3, by decide, by decide +kernel,
      ⟨⟨[], 0, 0, []⟩, by decide +kernel⟩⟩,
    ⟨12, [⟨[], 5, -1, [3]⟩], (walFrame ⟨[97], 0, 9, [4]⟩).take 20, by decide, by decide +kernel,
      ⟨⟨[97], 0, 9, [4]⟩, by decide +kernel⟩⟩]

theorem wal_replay_exact_torn :
    replay (ε := Empty) (fun calls rec => (calls ++ [rec], none))
        (WalDir.ofSegments tornSegments) []
      = ([⟨[97], 0, 7, [1, 2]⟩, ⟨[98], -1, 0, []⟩, ⟨[], 5, -1, [3]⟩], none) :=
  (wal_replay_exact (WalDir.holds_ofSegments
    (by decide : (tornSegments.map (·.seq)).Pairwise (· < ·)))).1

end Object
end Mq
