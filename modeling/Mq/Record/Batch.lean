import Mq.Lib.Framing
import Mq.Lib.Word

/-!
# The record batch header

The header of a Kafka RecordBatch (message format v2), as `internal/record`
reads and patches it.  The records section is an opaque blob; only the fixed
61-byte header is inspected.

## Main definitions

* `parseHeader`, `setBaseOffset`, `recomputeCRC` — the three header operations.
* `iterate` — the walk over a concatenated record set.
* `stamp base b` — what `Log.Append` makes of a batch: the base offset patched
  in and the CRC recomputed.
* `WellFormed b` — a batch whose length, magic and counts agree.

## Main results

* `header_stamp` — stamping a batch changes no header field but the base offset.
* `iterate_flatten` — on a concatenation of whole batches, `iterate` feeds them
  to the callback one by one and stops where the callback does.
-/

namespace Mq
namespace Record

open Word
open Framing (feed feed_of_ok)

/-- The fixed size of a RecordBatch v2 header in bytes. -/
def headerSize : ℕ := 61

/-! ### Field offsets -/

def offBaseOffset : ℕ := 0
def offBatchLength : ℕ := 8
def offMagic : ℕ := 16
def offCRC : ℕ := 17
def offAttributes : ℕ := 21
def offLastOffsetDelta : ℕ := 23
def offFirstTimestamp : ℕ := 27
def offMaxTimestamp : ℕ := 35
def offRecordCount : ℕ := 57

/-- The errors of the package. -/
inductive Err
  /-- The slice is smaller than a v2 header, or than the batch it starts. -/
  | tooShort
  /-- The magic byte is not 2. -/
  | badMagic
  deriving DecidableEq, Repr

/-- The header fields the broker needs to manage offsets. -/
structure BatchHeader where
  baseOffset : ℤ
  batchLength : ℤ
  lastOffsetDelta : ℤ
  firstTimestamp : ℤ
  maxTimestamp : ℤ
  recordCount : ℤ
  magic : ℤ
  deriving DecidableEq, Repr

/-- The full on-disk size of the batch a header describes. -/
def BatchHeader.totalSize (h : BatchHeader) : ℤ := 12 + h.batchLength

/-- The offset of the last record of the batch. -/
def BatchHeader.lastOffset (h : BatchHeader) : ℤ := wrap64 (h.baseOffset + h.lastOffsetDelta)

/-- The fields at the start of `b`, decoded but not validated. -/
def header (b : Bytes) : BatchHeader where
  baseOffset := getInt64 b offBaseOffset
  batchLength := getInt32 b offBatchLength
  magic := getInt8 b offMagic
  lastOffsetDelta := getInt32 b offLastOffsetDelta
  firstTimestamp := getInt64 b offFirstTimestamp
  maxTimestamp := getInt64 b offMaxTimestamp
  recordCount := getInt32 b offRecordCount

/-- Decode the header at the start of `b` and validate the magic byte. -/
def parseHeader (b : Bytes) : Except Err BatchHeader :=
  if b.length < headerSize then .error .tooShort
  else if (header b).magic ≠ 2 then .error .badMagic
  else .ok (header b)

variable {b : Bytes} {bs : List Bytes} {count : ℤ}

theorem parseHeader_eq_ok {h : BatchHeader} :
    parseHeader b = .ok h ↔ headerSize ≤ b.length ∧ (header b).magic = 2 ∧ h = header b := by
  unfold parseHeader
  split
  · simp; omega
  · split
    · next hm => simp [hm]
    · next hl hm =>
      simp only [Except.ok.injEq, ne_eq, not_not] at hm ⊢
      exact ⟨fun h => ⟨by omega, hm, h.symm⟩, fun h => h.2.2.symm⟩

/-- A header lies in its first 61 bytes. -/
theorem header_take {n : ℕ} (hn : headerSize ≤ n) : header (b.take n) = header b := by
  unfold headerSize at hn
  simp only [header, getInt64, getInt32, getInt8, getUint, offBaseOffset, offBatchLength, offMagic,
    offLastOffsetDelta, offFirstTimestamp, offMaxTimestamp, offRecordCount]
  repeat rw [slice_take (by omega)]

theorem header_append {a : Bytes} (b : Bytes) (ha : headerSize ≤ a.length) :
    header (a ++ b) = header a := by
  rw [← header_take (b := a ++ b) ha, List.take_left]

/-- The bytes after the header do not matter to `parseHeader`. -/
theorem parseHeader_append {a : Bytes} (b : Bytes) (ha : headerSize ≤ a.length) :
    parseHeader (a ++ b) = parseHeader a := by
  have hab : ¬ (a ++ b).length < headerSize := by rw [List.length_append]; omega
  unfold parseHeader
  rw [header_append b ha, if_neg hab, if_neg (Nat.not_lt.mpr ha)]

theorem parseHeader_take (hb : headerSize ≤ b.length) :
    parseHeader (b.take headerSize) = parseHeader b := by
  conv_rhs => rw [← List.take_append_drop headerSize b]
  exact (parseHeader_append _ (by simp [hb])).symm

/-! ### Patching -/

/-- One byte of the Castagnoli CRC, bit by bit in reflected form. -/
def crcByte (c : UInt32) (x : UInt8) : UInt32 :=
  (List.range 8).foldl
    (fun c _ => if c &&& 1 = 1 then (c >>> 1) ^^^ 0x82F63B78 else c >>> 1) (c ^^^ x.toUInt32)

/-- `crc32.Checksum` with the Castagnoli table. -/
def checksum (b : Bytes) : UInt32 := (b.foldl crcByte 0xFFFFFFFF) ^^^ 0xFFFFFFFF

/-- Patch the base offset field. -/
def setBaseOffset (b : Bytes) (off : ℤ) : Bytes := patch b offBaseOffset (putInt64 off)

/-- Recompute the CRC over the attributes onward and write it at its field. -/
def recomputeCRC (b : Bytes) : Bytes :=
  patch b offCRC (bePut 4 (checksum (b.drop offAttributes)).toNat)

/-- A batch as `Append` stores it at offset `base`. -/
def stamp (base : ℤ) (b : Bytes) : Bytes := recomputeCRC (setBaseOffset b base)

theorem length_setBaseOffset (hb : headerSize ≤ b.length) (off : ℤ) :
    (setBaseOffset b off).length = b.length :=
  length_patch (by simp only [length_putInt64, offBaseOffset]; unfold headerSize at hb; omega)

@[simp] theorem length_stamp (hb : headerSize ≤ b.length) (base : ℤ) :
    (stamp base b).length = b.length := by
  have hs := length_setBaseOffset hb base
  unfold headerSize at hb
  rw [stamp, recomputeCRC, length_patch (by simp only [length_bePut, offCRC]; omega), hs]

/-- The patches do not make a batch longer once they fit. -/
theorem headerSize_le_of_stamp {base : ℤ} (hb : offAttributes ≤ b.length)
    (h : headerSize ≤ (stamp base b).length) : headerSize ≤ b.length := by
  unfold offAttributes at hb
  have hs : (setBaseOffset b base).length = b.length :=
    length_patch (by simp only [length_putInt64, offBaseOffset]; omega)
  rwa [stamp, recomputeCRC, length_patch (by simp only [length_bePut, offCRC]; omega), hs] at h

/-- **Stamping changes no header field but the base offset.** -/
theorem header_stamp (hb : headerSize ≤ b.length) (base : ℤ) :
    header (stamp base b) = { header b with baseOffset := wrap64 base } := by
  have hs := length_setBaseOffset hb base
  unfold headerSize at hb
  -- the CRC field touches none of the decoded fields
  have hcrc : ∀ off n, off + n ≤ 17 ∨ 21 ≤ off →
      slice (stamp base b) off n = slice (setBaseOffset b base) off n := by
    intro off n hd
    exact slice_patch_of_disjoint (by simp only [length_bePut, offCRC]; omega)
      (by simpa only [length_bePut, offCRC] using hd)
  -- and the base offset field only the first of them
  have hbase : ∀ off n, 8 ≤ off → slice (setBaseOffset b base) off n = slice b off n := by
    intro off n hd
    exact slice_patch_of_disjoint (by simp only [length_putInt64, offBaseOffset]; omega)
      (Or.inr (by simp only [length_putInt64, offBaseOffset]; omega))
  have h0 : getInt64 (stamp base b) 0 = wrap64 base := by
    rw [getInt64, getUint, hcrc 0 8 (Or.inl (by omega))]
    exact getInt64_patch_putInt64 (Nat.zero_le _) base
  simp only [header, getInt8, getInt32, getUint, offBaseOffset, offBatchLength, offMagic,
    offLastOffsetDelta, offFirstTimestamp, offMaxTimestamp, offRecordCount, h0]
  simp only [getInt64, getUint]
  rw [hcrc 8 4 (by omega), hcrc 16 1 (by omega), hcrc 23 4 (by omega), hcrc 27 8 (by omega),
    hcrc 35 8 (by omega), hcrc 57 4 (by omega), hbase 8 4 (by omega), hbase 16 1 (by omega),
    hbase 23 4 (by omega), hbase 27 8 (by omega), hbase 35 8 (by omega), hbase 57 4 (by omega)]

/-- Stamping touches the base offset and the CRC, bytes 0 to 7 and 17 to 20. -/
theorem getElem?_stamp (hb : headerSize ≤ b.length) (base : ℤ) {i : ℕ} (h₈ : 8 ≤ i)
    (hi : i < 17 ∨ 21 ≤ i) : (stamp base b)[i]? = b[i]? := by
  have hs := length_setBaseOffset hb base
  unfold headerSize at hb
  have hbase : (setBaseOffset b base)[i]? = b[i]? :=
    getElem?_patch_of_ge (by simp only [length_putInt64, offBaseOffset]; omega)
      (by simp only [length_putInt64, offBaseOffset]; omega)
  rw [← hbase, stamp, recomputeCRC]
  rcases hi with hi | hi
  · exact getElem?_patch_of_lt (by simp only [length_bePut, offCRC]; omega) (by unfold offCRC; omega)
  · exact getElem?_patch_of_ge (by simp only [length_bePut, offCRC]; omega)
      (by simp only [length_bePut, offCRC]; omega)

/-! ### Walking a record set -/

/-- How a walk over a record set ends. -/
inductive IterateEnd (ε : Type)
  /-- The whole set was consumed. -/
  | done
  /-- The next batch does not parse, or is cut off. -/
  | malformed (e : Err)
  /-- The callback refused a batch. -/
  | refused (e : ε)
  /-- A negative batch size makes the slice expression panic. -/
  | panic
  /-- A batch of size zero is visited for ever. -/
  | hang
  deriving DecidableEq, Repr

variable {σ ε : Type}

/-- The loop of `Iterate`, on the bytes not yet consumed. -/
def iterateLoop (fn : σ → Bytes → σ × Option ε) :
    ℕ → ℕ → Bytes → σ → σ × ℕ × IterateEnd ε
  | 0, consumed, _, s => (s, consumed, .hang)
  | fuel + 1, consumed, rest, s =>
    if rest = [] then (s, consumed, .done)
    else
      match parseHeader rest with
      | .error e => (s, consumed, .malformed e)
      | .ok h =>
        let size := h.totalSize
        if rest.length < size then (s, consumed, .malformed .tooShort)
        else if size < 0 then (s, consumed, .panic)
        else
          match fn s (rest.take size.toNat) with
          | (s', some e) => (s', consumed, .refused e)
          | (s', none) => iterateLoop fn fuel (consumed + size.toNat) (rest.drop size.toNat) s'

/-- Walk a concatenated record set, calling `fn` with each batch; the state `s`
is what the callback closes over.  Every round but a visit to an empty batch
consumes a byte, so the fuel only runs out where the loop does not end. -/
def iterate (fn : σ → Bytes → σ × Option ε) (set : Bytes) (s : σ) : σ × ℕ × IterateEnd ε :=
  iterateLoop fn (set.length + 1) 0 set s

/-- A slice that is exactly one batch. -/
def Framed (b : Bytes) : Prop :=
  headerSize ≤ b.length ∧ (header b).magic = 2 ∧ (b.length : ℤ) = (header b).totalSize

theorem Framed.parseHeader (hb : Framed b) : parseHeader b = .ok (header b) :=
  parseHeader_eq_ok.mpr ⟨hb.1, hb.2.1, rfl⟩

theorem Framed.ne_nil (hb : Framed b) : b ≠ [] := by
  rintro rfl
  exact absurd hb.1 (by decide)

theorem iterateLoop_flatten (fn : σ → Bytes → σ × Option ε) :
    ∀ (bs : List Bytes) (fuel consumed : ℕ) (s : σ), (∀ b ∈ bs, Framed b) →
      bs.flatten.length < fuel →
      (iterateLoop fn fuel consumed bs.flatten s).1 = (feed fn s bs).1 ∧
        (iterateLoop fn fuel consumed bs.flatten s).2.2
          = (feed fn s bs).2.elim .done .refused := by
  intro bs
  induction bs with
  | nil =>
    intro fuel consumed s _ hfuel
    cases fuel with
    | zero => simp at hfuel
    | succ fuel => simp [iterateLoop, feed]
  | cons b bs ih =>
    intro fuel consumed s hbs hfuel
    have hb : Framed b := hbs b (by simp)
    cases fuel with
    | zero => simp at hfuel
    | succ fuel =>
      have hne : (b :: bs).flatten ≠ [] := by simp [hb.ne_nil]
      have hparse : parseHeader (b :: bs).flatten = .ok (header b) := by
        rw [List.flatten_cons, parseHeader_append _ hb.1, hb.parseHeader]
      have hsize : (header b).totalSize.toNat = b.length := by
        have := hb.2.2; omega
      have htake : (b :: bs).flatten.take b.length = b := by simp
      have hdrop : (b :: bs).flatten.drop b.length = bs.flatten := by simp
      have hlen : (b :: bs).flatten.length = b.length + bs.flatten.length := by simp
      have hpos : 0 < b.length := List.length_pos_of_ne_nil hb.ne_nil
      rw [iterateLoop, if_neg hne, hparse]
      simp only
      rw [if_neg (by have := hb.2.2; rw [hlen]; omega), if_neg (by have := hb.2.2; omega),
        hsize, htake, hdrop, feed]
      cases hfn : fn s b with
      | mk s' r =>
        cases r with
        | some e => simp
        | none => exact ih fuel _ s' (fun b' hb' => hbs b' (by simp [hb'])) (by omega)

/-- **`iterate` on a concatenation of whole batches** feeds them to the callback. -/
theorem iterate_flatten (fn : σ → Bytes → σ × Option ε) (s : σ) (hbs : ∀ b ∈ bs, Framed b) :
    (iterate fn bs.flatten s).1 = (feed fn s bs).1 ∧
      (iterate fn bs.flatten s).2.2 = (feed fn s bs).2.elim .done .refused :=
  iterateLoop_flatten fn bs _ 0 s hbs (by omega)

/-- The batches of a record set, as `iterate` hands them out. -/
def split (set : Bytes) : List Bytes :=
  (iterate (ε := Empty) (fun acc b => (acc ++ [b], none)) set []).1

/-- A run has fewer batches than bytes. -/
theorem length_le_flatten_length (hbs : ∀ b ∈ bs, Framed b) : bs.length ≤ bs.flatten.length := by
  induction bs with
  | nil => simp
  | cons b bs ih =>
    have := ih fun c hc => hbs c (by simp [hc])
    have := List.length_pos_of_ne_nil (hbs b (by simp)).ne_nil
    simp only [List.length_cons, List.flatten_cons, List.length_append]
    omega

/-- Splitting undoes concatenation. -/
theorem split_flatten (hbs : ∀ b ∈ bs, Framed b) : split bs.flatten = bs := by
  rw [split, (iterate_flatten _ _ hbs).1, feed_of_ok fun _ _ => rfl]
  simp [← List.flatMap_def]

/-- The batches that the callback does not refuse. -/
def taken (fn : σ → Bytes → σ × Option ε) : σ → List Bytes → List Bytes
  | _, [] => []
  | s, b :: bs =>
    match fn s b with
    | (_, some _) => []
    | (s', none) => b :: taken fn s' bs

theorem taken_of_feed {fn : σ → Bytes → σ × Option ε} {s : σ} (h : (feed fn s bs).2 = none) :
    taken fn s bs = bs := by
  induction bs generalizing s with
  | nil => rfl
  | cons b bs ih =>
    rw [feed] at h
    rw [taken]
    cases hfn : fn s b with
    | mk s' r =>
      rw [hfn] at h
      cases r with
      | some e => cases h
      | none => exact congrArg (b :: ·) (ih h)

/-- What the end of a walk says about the batches `bs` that the callback took, where `r` is
what it returned for the batch after them. -/
def IterateEnd.Explains (set : Bytes) (bs : List Bytes) (r : Option ε) : IterateEnd ε → Prop
  | .done => bs.flatten = set ∧ r = none
  | .malformed _ => bs.flatten ≠ set ∧ r = none
  | .refused e => bs.flatten ≠ set ∧ r = some e
  | .panic | .hang => True

theorem IterateEnd.Explains.cons {rest : Bytes} {n : ℕ} {r : Option ε} {e : IterateEnd ε}
    (h : e.Explains (rest.drop n) bs r) : e.Explains rest (rest.take n :: bs) r := by
  have hflat : (rest.take n :: bs).flatten = rest ↔ bs.flatten = rest.drop n := by
    conv_lhs => rhs; rw [← List.take_append_drop n rest]
    rw [List.flatten_cons, List.append_cancel_left_eq]
  cases e with
  | done => exact ⟨hflat.mpr h.1, h.2⟩
  | malformed | refused => exact ⟨fun heq => h.1 (hflat.mp heq), h.2⟩
  | panic | hang => trivial

/-- The batches the loop hands out do not depend on the callback, which only
decides where it ends. -/
theorem iterateLoop_eq_feed :
    ∀ (fuel : ℕ) (rest : Bytes), ∃ bs : List Bytes,
      (∀ (consumed : ℕ) (acc : List Bytes),
        (iterateLoop (ε := Empty) (fun acc b => (acc ++ [b], none)) fuel consumed rest acc).1
          = acc ++ bs) ∧
      ∀ (fn : σ → Bytes → σ × Option ε) (consumed : ℕ) (s : σ),
        (iterateLoop fn fuel consumed rest s).1 = (feed fn s bs).1 ∧
          (iterateLoop fn fuel consumed rest s).2.2.Explains rest (taken fn s bs)
            (feed fn s bs).2 := by
  intro fuel
  induction fuel with
  | zero => intro rest; exact ⟨[], by simp [iterateLoop], fun _ _ _ => ⟨rfl, trivial⟩⟩
  | succ fuel ih =>
    intro rest
    simp only [iterateLoop]
    by_cases hnil : rest = []
    · exact ⟨[], by simp [hnil], fun _ _ _ => by simp [hnil, feed, taken, IterateEnd.Explains]⟩
    · simp only [if_neg hnil]
      have hne : ¬ ([] = rest) := fun h => hnil h.symm
      cases parseHeader rest with
      | error e => exact ⟨[], by simp, fun _ _ _ => by
        simp [feed, taken, IterateEnd.Explains, hne]⟩
      | ok h =>
        simp only
        by_cases hshort : (rest.length : ℤ) < h.totalSize
        · exact ⟨[], by simp [hshort],
            fun _ _ _ => by simp [hshort, feed, taken, IterateEnd.Explains, hne]⟩
        · simp only [if_neg hshort]
          by_cases hneg : h.totalSize < 0
          · exact ⟨[], by simp [hneg], fun _ _ _ => by simp [hneg, feed, IterateEnd.Explains]⟩
          · simp only [if_neg hneg]
            obtain ⟨bs, hcollect, hfeed⟩ := ih (rest.drop h.totalSize.toNat)
            refine ⟨rest.take h.totalSize.toNat :: bs, ?_, ?_⟩
            · intro consumed acc
              rw [hcollect, List.append_assoc]
              rfl
            · intro fn consumed s
              rw [feed, taken]
              cases fn s (rest.take h.totalSize.toNat) with
              | mk s' r =>
                cases r with
                | some e => exact ⟨rfl, hne, rfl⟩
                | none => exact ⟨(hfeed fn _ s').1, (hfeed fn _ s').2.cons⟩

/-- **`iterate` feeds the callback the batches of the set**, whatever the set, and it ends
without an error exactly if those that were taken are the whole set. -/
theorem iterate_explains (fn : σ → Bytes → σ × Option ε) (set : Bytes) (s : σ) :
    (iterate fn set s).1 = (feed fn s (split set)).1 ∧
      (iterate fn set s).2.2.Explains set (taken fn s (split set)) (feed fn s (split set)).2 := by
  obtain ⟨bs, hcollect, hfeed⟩ := iterateLoop_eq_feed (σ := σ) (ε := ε) (set.length + 1) set
  have hsplit : split set = bs := hcollect 0 []
  rw [iterate, hsplit]
  exact hfeed fn 0 s

theorem iterate_eq_feed (fn : σ → Bytes → σ × Option ε) (set : Bytes) (s : σ) :
    (iterate fn set s).1 = (feed fn s (split set)).1 := (iterate_explains fn set s).1

/-- A batch of a set is not longer than the set. -/
theorem length_le_of_mem_split {set : Bytes} (h : b ∈ split set) : b.length ≤ set.length := by
  have hloop : ∀ (fuel consumed : ℕ) (rest : Bytes) (acc : List Bytes),
      rest.length ≤ set.length → (∀ c ∈ acc, c.length ≤ set.length) →
      ∀ c ∈ (iterateLoop (ε := Empty) (fun acc b => (acc ++ [b], none)) fuel consumed rest acc).1,
        c.length ≤ set.length := by
    intro fuel
    induction fuel with
    | zero => intro _ _ acc _ hacc; exact hacc
    | succ fuel ih =>
      intro consumed rest acc hrest hacc
      rw [iterateLoop]
      split
      · exact hacc
      split
      · exact hacc
      · next h _ =>
        dsimp only
        split
        · exact hacc
        split
        · exact hacc
        · refine ih _ _ _ (by rw [List.length_drop]; omega) fun c hc => ?_
          rcases List.mem_append.mp hc with hc | hc
          · exact hacc c hc
          · rw [List.mem_singleton.mp hc, List.length_take]
            omega
  exact hloop _ _ _ _ le_rfl (by simp) b h

/-! ### Well-formed batches -/

/-- The batches a producer is expected to send: the length field is right, the
magic is 2 and the record count is the last offset delta plus one. -/
def WellFormed (b : Bytes) : Prop :=
  Framed b ∧ (header b).recordCount = (header b).lastOffsetDelta + 1 ∧
    1 ≤ (header b).recordCount

instance (b : Bytes) : Decidable (Framed b) := inferInstanceAs (Decidable (_ ∧ _ ∧ _))

instance (b : Bytes) : Decidable (WellFormed b) := inferInstanceAs (Decidable (_ ∧ _ ∧ _))

theorem framed_stamp (hb : Framed b) (base : ℤ) : Framed (stamp base b) := by
  obtain ⟨h₁, h₂, h₃⟩ := hb
  unfold Framed
  simp only [length_stamp h₁, header_stamp h₁, BatchHeader.totalSize] at h₃ ⊢
  exact ⟨h₁, h₂, h₃⟩

theorem wellFormed_stamp (hb : WellFormed b) (base : ℤ) : WellFormed (stamp base b) := by
  have hh := header_stamp hb.1.1 base
  exact ⟨framed_stamp hb.1 base, by rw [hh]; exact hb.2.1, by rw [hh]; exact hb.2.2⟩

/-! ### Building a batch -/

/-- The batch a producer makes of `count` records that are encoded as `payload`. -/
def makeBatch (count : ℤ) (payload : Bytes) : Bytes :=
  putInt64 0 ++ putInt32 (49 + payload.length) ++ putInt32 0 ++ [2] ++ putInt32 0 ++ [0, 0] ++
    putInt32 (count - 1) ++ putInt64 0 ++ putInt64 0 ++ putInt64 0 ++ [0, 0] ++ putInt32 0 ++
    putInt32 count ++ payload

theorem length_makeBatch (count : ℤ) (payload : Bytes) :
    (makeBatch count payload).length = 61 + payload.length := by
  simp [makeBatch]; omega

/-- A field of a batch that was written after `a` and before `c`. -/
theorem slice_makeBatch {payload a f c : Bytes} {off n : ℕ}
    (h : makeBatch count payload = a ++ f ++ c) (ha : a.length = off) (hf : f.length = n) :
    slice (makeBatch count payload) off n = f := by
  rw [h, slice_between ha hf]

theorem batchLength_makeBatch (count : ℤ) {payload : Bytes} (hp : payload.length < 2147483599) :
    (header (makeBatch count payload)).batchLength = 49 + payload.length := by
  have h : slice (makeBatch count payload) 8 4 = putInt32 (49 + payload.length) :=
    slice_makeBatch (a := putInt64 0) (c := putInt32 0 ++ [2] ++ putInt32 0 ++ [0, 0] ++
      putInt32 (count - 1) ++ putInt64 0 ++ putInt64 0 ++ putInt64 0 ++ [0, 0] ++ putInt32 0 ++
      putInt32 count ++ payload) (by simp [makeBatch]) (by simp) (by simp)
  simp only [header, getInt32, getUint, offBatchLength, h]
  rw [wrap32_beGet_putInt32, wrap32_eq (by omega) (by omega)]

theorem magic_makeBatch (count : ℤ) (payload : Bytes) :
    (header (makeBatch count payload)).magic = 2 := by
  have h : slice (makeBatch count payload) 16 1 = [2] :=
    slice_makeBatch (a := putInt64 0 ++ putInt32 (49 + payload.length) ++ putInt32 0)
      (c := putInt32 0 ++ [0, 0] ++ putInt32 (count - 1) ++ putInt64 0 ++ putInt64 0 ++ putInt64 0 ++
        [0, 0] ++ putInt32 0 ++ putInt32 count ++ payload) (by simp [makeBatch]) (by simp) (by simp)
  simp only [header, getInt8, getUint, offMagic, h]
  rfl

theorem lastOffsetDelta_makeBatch (payload : Bytes) (h₁ : 1 ≤ count) (h₂ : count < 2147483648) :
    (header (makeBatch count payload)).lastOffsetDelta = count - 1 := by
  have h : slice (makeBatch count payload) 23 4 = putInt32 (count - 1) :=
    slice_makeBatch (a := putInt64 0 ++ putInt32 (49 + payload.length) ++ putInt32 0 ++ [2] ++
        putInt32 0 ++ [0, 0])
      (c := putInt64 0 ++ putInt64 0 ++ putInt64 0 ++ [0, 0] ++ putInt32 0 ++ putInt32 count ++
        payload) (by simp [makeBatch]) (by simp) (by simp)
  simp only [header, getInt32, getUint, offLastOffsetDelta, h]
  rw [wrap32_beGet_putInt32, wrap32_eq (by omega) (by omega)]

theorem recordCount_makeBatch (payload : Bytes) (h₁ : 1 ≤ count) (h₂ : count < 2147483648) :
    (header (makeBatch count payload)).recordCount = count := by
  have h : slice (makeBatch count payload) 57 4 = putInt32 count :=
    slice_makeBatch (a := putInt64 0 ++ putInt32 (49 + payload.length) ++ putInt32 0 ++ [2] ++
        putInt32 0 ++ [0, 0] ++ putInt32 (count - 1) ++ putInt64 0 ++ putInt64 0 ++ putInt64 0 ++
        [0, 0] ++ putInt32 0)
      (c := payload) (by simp [makeBatch]) (by simp) (by simp)
  simp only [header, getInt32, getUint, offRecordCount, h]
  rw [wrap32_beGet_putInt32, wrap32_eq (by omega) (by omega)]

theorem wellFormed_makeBatch {payload : Bytes} (h₁ : 1 ≤ count) (h₂ : count < 2147483648)
    (hp : payload.length < 2147483599) : WellFormed (makeBatch count payload) := by
  have hlen := length_makeBatch count payload
  refine ⟨⟨?_, magic_makeBatch count payload, ?_⟩, ?_, ?_⟩
  · rw [hlen]; unfold headerSize; omega
  · rw [BatchHeader.totalSize, batchLength_makeBatch count hp, hlen]; push_cast; omega
  · rw [lastOffsetDelta_makeBatch payload h₁ h₂, recordCount_makeBatch payload h₁ h₂]; omega
  · rw [recordCount_makeBatch payload h₁ h₂]; exact h₁

end Record
end Mq
