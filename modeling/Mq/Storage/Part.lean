import Mathlib.Data.List.Forall2
import Mathlib.Data.List.Induction
import Mq.Storage.Log

/-!
# Runs of batches in a segment

What a segment of well-formed batches looks like: it holds a run of consecutive
batches, and its sparse index is the one the batches in it determine.

## Main definitions

* `Chained a bs z` — the batches `bs` cover the offsets from `a` to `z`.
* `Part` — such a run, with the bounds that keep its offsets inside 64 bits.
* `scanAll` — the index and counters that appending a run of batches builds up;
  the recovery scan computes the same ones.
* `Segment.ofPart` — the segment that holds a run.

## Main results

* `append_ofPart` — appending to a segment that holds a run.
-/

namespace Mq
namespace Storage

open Word Record

/-! ### Runs of consecutive batches -/

/-- The batches `bs` are well formed and cover the offsets `[a, z)` in order. -/
def Chained : ℤ → List Bytes → ℤ → Prop
  | a, [], z => a = z
  | a, b :: bs, z =>
    WellFormed b ∧ (header b).baseOffset = a ∧ Chained (a + (header b).recordCount) bs z

variable {bs : List Bytes} {a z : ℤ}

theorem chained_append {cs : List Bytes} :
    Chained a (bs ++ cs) z ↔ ∃ y, Chained a bs y ∧ Chained y cs z := by
  induction bs generalizing a with
  | nil => simp [Chained]
  | cons b bs ih =>
    simp only [List.cons_append, Chained, ih]
    constructor
    · rintro ⟨hw, hb, y, h₁, h₂⟩; exact ⟨y, ⟨hw, hb, h₁⟩, h₂⟩
    · rintro ⟨y, ⟨hw, hb, h₁⟩, h₂⟩; exact ⟨hw, hb, y, h₁, h₂⟩

theorem Chained.wellFormed (h : Chained a bs z) : ∀ b ∈ bs, WellFormed b := by
  induction bs generalizing a with
  | nil => simp
  | cons b bs ih =>
    intro b' hb'
    rcases List.mem_cons.mp hb' with rfl | hb'
    · exact h.1
    · exact ih h.2.2 b' hb'

theorem Chained.framed (h : Chained a bs z) : ∀ b ∈ bs, Framed b :=
  fun b hb => (h.wellFormed b hb).1

/-- A run covers at least one offset per batch. -/
theorem Chained.add_length_le (h : Chained a bs z) : a + bs.length ≤ z := by
  induction bs generalizing a with
  | nil => simp only [Chained] at h; simp; omega
  | cons b bs ih =>
    have := ih h.2.2
    have := h.1.2.2
    simp only [List.length_cons]; push_cast; omega

theorem Chained.le (h : Chained a bs z) : a ≤ z := by
  have := h.add_length_le; omega

theorem Chained.lt (h : Chained a bs z) (hne : bs ≠ []) : a < z := by
  have := h.add_length_le
  have := List.length_pos_of_ne_nil hne
  omega

/-- The number of offsets a sequence of batches takes. -/
def offsetCount (bs : List Bytes) : ℤ := (bs.map fun b => (header b).recordCount).sum

@[simp] theorem offsetCount_nil : offsetCount [] = 0 := rfl

@[simp] theorem offsetCount_cons (b : Bytes) (bs : List Bytes) :
    offsetCount (b :: bs) = (header b).recordCount + offsetCount bs := by
  simp [offsetCount]

@[simp] theorem offsetCount_append (bs cs : List Bytes) :
    offsetCount (bs ++ cs) = offsetCount bs + offsetCount cs := by
  simp [offsetCount]

/-- The end of a run is determined by its batches. -/
theorem Chained.stop_eq (h : Chained a bs z) : z = a + offsetCount bs := by
  induction bs generalizing a with
  | nil => simp only [Chained] at h; simp [h]
  | cons b bs ih => rw [ih h.2.2, offsetCount_cons, add_assoc]

/-- The offsets of a batch lie inside the run it belongs to. -/
theorem Chained.bounds (h : Chained a bs z) {b : Bytes} (hb : b ∈ bs) :
    a ≤ (header b).baseOffset ∧ (header b).baseOffset + (header b).recordCount ≤ z := by
  induction bs generalizing a with
  | nil => simp at hb
  | cons c bs ih =>
    have hle := h.2.2.le
    have hc := h.1.2.2
    rcases List.mem_cons.mp hb with rfl | hb
    · rw [h.2.1]; exact ⟨le_rfl, hle⟩
    · have := ih h.2.2 hb; omega

/-- An offset of a run lies in exactly one of its batches. -/
theorem Chained.split {o : ℤ} (h : Chained a bs z) (ha : a ≤ o) (hz : o < z) :
    ∃ pre b post, bs = pre ++ b :: post ∧ Chained a pre (header b).baseOffset ∧
      (header b).baseOffset ≤ o ∧ o < (header b).baseOffset + (header b).recordCount ∧
      Chained ((header b).baseOffset + (header b).recordCount) post z := by
  induction bs generalizing a with
  | nil => simp only [Chained] at h; omega
  | cons b bs ih =>
    obtain ⟨hw, hb, hrest⟩ := h
    by_cases ho : o < a + (header b).recordCount
    · exact ⟨[], b, bs, rfl, hb.symm, by omega, by omega, by rw [hb]; exact hrest⟩
    · obtain ⟨pre, c, post, rfl, h₁, h₂⟩ := ih hrest (by omega)
      exact ⟨b :: pre, c, post, rfl, ⟨hw, hb, h₁⟩, h₂⟩

/-- The last offset of a well-formed batch whose offsets fit in 64 bits. -/
theorem lastOffset_eq {b : Bytes} (hb : WellFormed b) (h₀ : 0 ≤ (header b).baseOffset)
    (h₁ : (header b).baseOffset + (header b).recordCount < 9223372036854775808) :
    (header b).lastOffset = (header b).baseOffset + (header b).recordCount - 1 := by
  have := hb.2.1
  have := hb.2.2
  rw [BatchHeader.lastOffset, wrap64_eq (by omega) (by omega)]
  omega

/-- A run of consecutive batches, with offsets inside 64 bits.  `modTime` is when
the last of them was written. -/
@[ext] structure Part where
  base : ℤ
  stop : ℤ
  modTime : ℤ
  batches : List Bytes
  chained : Chained base batches stop
  nonneg : 0 ≤ base
  fits : stop < 9223372036854775808

namespace Part

/-- The bytes of a run. -/
def bytes (p : Part) : Bytes := p.batches.flatten

/-- The empty run at an offset. -/
def empty (base modTime : ℤ) (h₀ : 0 ≤ base) (h₁ : base < 9223372036854775808) : Part where
  base := base
  stop := base
  modTime := modTime
  batches := []
  chained := rfl
  nonneg := h₀
  fits := h₁

/-- A run with one more batch. -/
def snoc (p : Part) (now : ℤ) (b : Bytes) (hw : WellFormed b) (hb : (header b).baseOffset = p.stop)
    (hf : p.stop + (header b).recordCount < 9223372036854775808) : Part where
  base := p.base
  stop := p.stop + (header b).recordCount
  modTime := now
  batches := p.batches ++ [b]
  chained := chained_append.mpr ⟨p.stop, p.chained, hw, hb, rfl⟩
  nonneg := p.nonneg
  fits := hf

/-- The first batches of a run. -/
def upTo (p : Part) (modTime : ℤ) (bs : List Bytes) (h : bs <+: p.batches) : Part where
  base := p.base
  stop := p.base + offsetCount bs
  modTime := modTime
  batches := bs
  chained := by
    obtain ⟨cs, hcs⟩ := h
    obtain ⟨y, hbs, -⟩ := chained_append.mp (hcs ▸ p.chained)
    exact hbs.stop_eq ▸ hbs
  nonneg := p.nonneg
  fits := by
    obtain ⟨cs, hcs⟩ := h
    obtain ⟨y, hbs, hcs⟩ := chained_append.mp (hcs ▸ p.chained)
    have := hbs.stop_eq
    have := hcs.le
    have := p.fits
    omega

theorem lastOffset (p : Part) {b : Bytes} (hb : b ∈ p.batches) :
    (header b).lastOffset = (header b).baseOffset + (header b).recordCount - 1 := by
  have h := p.chained.bounds hb
  have h₀ := p.nonneg
  have h₁ := p.fits
  exact lastOffset_eq (p.chained.wellFormed b hb) (by omega) (by omega)

end Part

/-! ### The index a run determines -/

/-- The scan over a run of batches in a segment based at `base`. -/
def scanAll (base interval : ℤ) (bs : List Bytes) : Scan :=
  bs.foldl (fun c b => c.step base interval (header b) (wrap32 (header b).totalSize)) ⟨0, 0, [], 0⟩

theorem scanAll_snoc (base interval : ℤ) (bs : List Bytes) (b : Bytes) :
    scanAll base interval (bs ++ [b]) = (scanAll base interval bs).step base interval (header b)
      (wrap32 (header b).totalSize) := by
  simp [scanAll]

theorem wrap32_add_wrap32 (x y : ℤ) : wrap32 (wrap32 x + wrap32 y) = wrap32 (x + y) := by
  unfold wrap32; omega

@[simp] theorem Scan.step_pos (c : Scan) (base interval : ℤ) (h : BatchHeader) (total : ℤ) :
    (c.step base interval h total).pos = wrap32 (c.pos + total) := by
  unfold Scan.step; split <;> rfl

@[simp] theorem Scan.step_next (c : Scan) (base interval : ℤ) (h : BatchHeader) (total : ℤ) :
    (c.step base interval h total).next = wrap64 (h.lastOffset + 1) := by
  unfold Scan.step; split <;> rfl

/-- The position the scan reaches is the size of the run. -/
theorem scanAll_pos (base interval : ℤ) (hbs : ∀ b ∈ bs, Framed b) :
    (scanAll base interval bs).pos = wrap32 bs.flatten.length := by
  induction bs using List.reverseRecOn with
  | nil => rfl
  | append_singleton bs b ih =>
    have hb := (hbs b (by simp)).2.2
    rw [scanAll_snoc, Scan.step_pos, ih fun b hb => hbs b (by simp [hb]), ← hb, wrap32_add_wrap32]
    simp

/-- The next offset the scan finds after a nonempty run is where it ends. -/
theorem scanAll_next (p : Part) (interval : ℤ) (hne : p.batches ≠ []) :
    (scanAll p.base interval p.batches).next = p.stop := by
  obtain ⟨bs, b, hb⟩ : ∃ bs b, p.batches = bs ++ [b] :=
    ⟨_, _, (List.dropLast_append_getLast hne).symm⟩
  have hlast := p.lastOffset (b := b) (by rw [hb]; simp)
  have hch := p.chained
  rw [hb, chained_append] at hch
  obtain ⟨y, -, hw, hbase, hstop⟩ := hch
  have hy : y + (header b).recordCount = p.stop := hstop
  have h₀ := (p.chained.bounds (b := b) (by rw [hb]; simp)).1
  have h₁ := p.fits
  have h₂ := p.nonneg
  have h₃ := hw.2.2
  rw [hb, scanAll_snoc, Scan.step_next, hlast, wrap64_eq (by omega) (by omega)]
  omega

/-- What an index entry of a run says: it points at a batch of the run. -/
def OnBoundary (base : ℤ) (bs : List Bytes) (e : IndexEntry) : Prop :=
  ∃ pre b post, bs = pre ++ b :: post ∧ e.position = wrap32 pre.flatten.length ∧
    e.relOffset = wrap32 ((header b).baseOffset - base)

theorem OnBoundary.snoc {base : ℤ} {e : IndexEntry} (h : OnBoundary base bs e) (b : Bytes) :
    OnBoundary base (bs ++ [b]) e := by
  obtain ⟨pre, c, post, rfl, h₁, h₂⟩ := h
  exact ⟨pre, c, post ++ [b], by simp, h₁, h₂⟩

/-- Every entry of the index a run determines points at one of its batches. -/
theorem scanAll_onBoundary (base interval : ℤ) (hbs : ∀ b ∈ bs, Framed b) :
    ∀ e ∈ (scanAll base interval bs).index, OnBoundary base bs e := by
  induction bs using List.reverseRecOn with
  | nil => simp [scanAll]
  | append_singleton bs b ih =>
    have hbs' : ∀ c ∈ bs, Framed c := fun c hc => hbs c (by simp [hc])
    have hold := fun e he => (ih hbs' e he).snoc b
    rw [scanAll_snoc]
    unfold Scan.step
    split
    · intro e he
      rcases List.mem_append.mp he with he | he
      · exact hold e he
      · obtain rfl := List.mem_singleton.mp he
        exact ⟨bs, b, [], rfl, scanAll_pos base interval hbs', rfl⟩
    · exact hold

theorem scanAll_fits (base interval : ℤ) (hbs : ∀ b ∈ bs, Framed b) :
    ∀ e ∈ (scanAll base interval bs).index, e.Fits := by
  intro e he
  obtain ⟨pre, b, post, -, h₁, h₂⟩ := scanAll_onBoundary base interval hbs e he
  exact ⟨by rw [h₂, wrap32_wrap32], by rw [h₁, wrap32_wrap32]⟩

/-- The entries of the index a run determines point further and further into it. -/
theorem scanAll_increasing (base interval : ℤ) (hbs : ∀ b ∈ bs, Framed b)
    (hsmall : bs.flatten.length < 2147483648) :
    (scanAll base interval bs).index.Pairwise fun d e => d.position < e.position := by
  induction bs using List.reverseRecOn with
  | nil => exact List.Pairwise.nil
  | append_singleton bs b ih =>
    have hbs' : ∀ c ∈ bs, Framed c := fun c hc => hbs c (by simp [hc])
    simp only [List.flatten_append, List.length_append] at hsmall
    rw [scanAll_snoc]
    unfold Scan.step
    split
    · refine List.pairwise_append.mpr ⟨ih hbs' (by omega), List.pairwise_singleton _ _, ?_⟩
      -- the new entry points at the end of the run so far
      intro d hd e he
      obtain rfl := List.mem_singleton.mp he
      obtain ⟨pre, c, post, rfl, hd, -⟩ := scanAll_onBoundary base interval hbs' d hd
      have hc := (hbs' c (by simp)).1
      have hpos := scanAll_pos base interval hbs'
      simp only [List.flatten_append, List.flatten_cons, List.length_append] at hsmall hpos
      rw [wrap32_eq (by omega) (by omega)] at hd hpos
      unfold headerSize at hc
      show d.position < (scanAll base interval (pre ++ c :: post)).pos
      omega
    · exact ih hbs' (by omega)

/-! ### The segment that holds a run -/

/-- The segment that holds the run `p`, with the index its batches determine. -/
def Segment.ofPart (interval : ℤ) (p : Part) : Segment :=
  let c := scanAll p.base interval p.batches
  { baseOffset := p.base
    logFile := p.bytes
    idxFile := (c.index.map encodeIndexEntry).flatten
    modTime := p.modTime
    logSize := c.pos
    index := c.index
    bytesSinceIdx := c.bytesSinceIdx
    indexInterval := interval }

@[simp] theorem ofPart_baseOffset (interval : ℤ) (p : Part) :
    (Segment.ofPart interval p).baseOffset = p.base := rfl

@[simp] theorem ofPart_logFile (interval : ℤ) (p : Part) :
    (Segment.ofPart interval p).logFile = p.bytes := rfl

theorem ofPart_logSize (interval : ℤ) (p : Part) :
    (Segment.ofPart interval p).logSize = wrap32 p.bytes.length :=
  scanAll_pos _ _ p.chained.framed

theorem createSegment_eq_ofPart (base interval now : ℤ) (h₀ : 0 ≤ base)
    (h₁ : base < 9223372036854775808) :
    createSegment base interval now = Segment.ofPart interval (Part.empty base now h₀ h₁) := rfl

/-- **Appending to a segment that holds a run.**  The size may cross the 32-bit
bound with this batch, not before it. -/
theorem append_ofPart (interval now : ℤ) (p : Part) {b : Bytes} (hw : WellFormed b)
    (hb : (header b).baseOffset = p.stop)
    (hf : p.stop + (header b).recordCount < 9223372036854775808)
    (hsize : p.bytes.length < 2147483648) :
    (Segment.ofPart interval p).append now b p.stop
      = (Segment.ofPart interval (p.snoc now b hw hb hf), none) := by
  have hpos : (scanAll p.base interval p.batches).pos = p.bytes.length := by
    rw [scanAll_pos _ _ p.chained.framed]
    exact wrap32_eq (by omega) (by unfold Part.bytes at hsize; exact_mod_cast hsize)
  have htotal : wrap32 (header b).totalSize = wrap32 b.length := by rw [hw.1.2.2]
  have hflat : (p.snoc now b hw hb hf).bytes = p.bytes ++ b := by simp [Part.bytes, Part.snoc]
  have hscan : scanAll p.base interval (p.snoc now b hw hb hf).batches
      = (scanAll p.base interval p.batches).step p.base interval (header b) (wrap32 b.length) := by
    rw [← htotal]; exact scanAll_snoc _ _ _ _
  have hwrite : writeAt p.bytes (scanAll p.base interval p.batches).pos b = some (p.bytes ++ b) := by
    rw [hpos]; exact writeAt_length _ _
  unfold Segment.ofPart Segment.append Segment.indexBatch
  simp only [Part.snoc] at hscan hflat ⊢
  -- the two branches of the index agree with those of the scan
  by_cases hdue : (scanAll p.base interval p.batches).index = [] ∨
      interval ≤ (scanAll p.base interval p.batches).bytesSinceIdx
  · rw [if_pos hdue]
    simp only [hwrite, hscan, hflat, Scan.step, if_pos hdue, hb, List.map_append, List.map_cons,
      List.map_nil, List.flatten_append, List.flatten_cons, List.flatten_nil, List.append_nil,
      wrap32_wrap32, zero_add]
  · rw [if_neg hdue]
    simp only [hwrite, hscan, hflat, Scan.step, if_neg hdue]

end Storage
end Mq
