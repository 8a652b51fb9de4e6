import Mq.Storage.Part

/-!
# Reading a segment

The forward scan of `readBatchesFrom` over a segment that holds a run of
batches.  The scan has two phases: batches that end before the target are
skipped (`readLoop_skip`), and from the one that contains it batches are
collected while they fit (`readLoop_collect`).  Where the scan starts depends on
the sparse index, but the index only ever points at a batch not past the target,
so the result does not depend on it.

## Main definitions

* `greedy maxBytes acc bs` — the batches a reader takes from `bs` when it has
  `acc` bytes already.

## Main results

* `readBatchesFrom_ofPart` — **the read specification of a segment.**
-/

namespace Mq
namespace Storage

open Word Record

/-- The batches taken from `bs` while the accumulated size stays within
`maxBytes`. -/
def greedy (maxBytes : ℤ) : ℤ → List Bytes → List Bytes
  | _, [] => []
  | acc, b :: bs =>
    if acc + b.length ≤ maxBytes then b :: greedy maxBytes (acc + b.length) bs else []

variable {maxBytes : ℤ}

/-- A reader that has its fill takes nothing more. -/
theorem greedy_of_le {acc : ℤ} {bs : List Bytes} (h : maxBytes ≤ acc) (hbs : ∀ b ∈ bs, Framed b) :
    greedy maxBytes acc bs = [] := by
  cases bs with
  | nil => rfl
  | cons b bs =>
    have := List.length_pos_of_ne_nil (hbs b (by simp)).ne_nil
    rw [greedy, if_neg (by omega)]

theorem greedy_isPrefix (maxBytes acc : ℤ) (bs : List Bytes) : greedy maxBytes acc bs <+: bs := by
  induction bs generalizing acc with
  | nil => exact List.nil_prefix
  | cons b bs ih =>
    rw [greedy]
    split
    · exact List.cons_prefix_cons.mpr ⟨rfl, ih _⟩
    · exact List.nil_prefix

/-! ### One round of the scan -/

/-- The file of `s` is a concatenation of whole batches, and small enough for its
size to be right. -/
structure Segment.Intact (s : Segment) (bs : List Bytes) : Prop where
  file : s.logFile = bs.flatten
  size : s.logSize = s.logFile.length
  small : s.logFile.length < 2147483648
  framed : ∀ b ∈ bs, Framed b

variable {s : Segment} {pre post : List Bytes} {b : Bytes}

section Batch

variable (h : s.Intact (pre ++ b :: post))
include h

theorem Segment.Intact.lt_logSize : (pre.flatten.length : ℤ) < s.logSize := by
  have hb := List.length_pos_of_ne_nil (h.framed b (by simp)).ne_nil
  rw [h.size, h.file]
  simp only [List.flatten_append, List.flatten_cons, List.length_append]
  omega

/-- The size of a batch in an intact segment is its own length. -/
theorem Segment.Intact.wrap32_totalSize : wrap32 (header b).totalSize = b.length := by
  have hsmall := h.small
  rw [h.file] at hsmall
  simp only [List.flatten_append, List.flatten_cons, List.length_append] at hsmall
  rw [← (h.framed b (by simp)).2.2, wrap32_eq (by omega) (by omega)]

/-- The header at a batch boundary is that batch's. -/
theorem Segment.Intact.readAt_header :
    ∃ hdr, readAt s.logFile pre.flatten.length headerSize = some hdr ∧
      parseHeader hdr = .ok (header b) := by
  have hb := h.framed b (by simp)
  have hlen : headerSize ≤ (b :: post).flatten.length := by
    have := hb.1; simp only [List.flatten_cons, List.length_append]; omega
  refine ⟨(b :: post).flatten.take headerSize, ?_, ?_⟩
  · rw [h.file, List.flatten_append]; exact readAt_append hlen
  · rw [parseHeader_take hlen, List.flatten_cons, parseHeader_append _ hb.1, hb.parseHeader]

/-- The bytes of a batch at its boundary. -/
theorem Segment.Intact.readAt_batch : readAt s.logFile pre.flatten.length b.length = some b := by
  rw [h.file, List.flatten_append, readAt_append (by simp), List.flatten_cons, List.take_left]

/-- Past a batch lies the boundary of the next. -/
theorem Segment.Intact.wrap32_next :
    wrap32 ((pre.flatten.length : ℤ) + b.length) = (pre ++ [b]).flatten.length := by
  have hsmall := h.small
  rw [h.file] at hsmall
  simp only [List.flatten_append, List.flatten_cons, List.length_append, List.flatten_nil,
    List.length_nil] at hsmall ⊢
  rw [wrap32_eq (by omega) (by omega)]
  push_cast; omega

omit h in
/-- The scan at the end of the file. -/
theorem readLoop_end (h : s.Intact pre) (want maxBytes : ℤ) (fuel : ℕ) (out : Bytes) :
    s.readLoop want maxBytes (fuel + 1) pre.flatten.length out = .ok (out, none) := by
  rw [Segment.readLoop, if_neg (by rw [h.size, h.file]; omega)]

/-- A batch before the target is skipped. -/
theorem readLoop_skip_one {want : ℤ} (maxBytes : ℤ) (fuel : ℕ) (out : Bytes)
    (hb : (header b).lastOffset < want) :
    s.readLoop want maxBytes (fuel + 1) pre.flatten.length out
      = s.readLoop want maxBytes fuel (pre ++ [b]).flatten.length out := by
  obtain ⟨hdr, hread, hparse⟩ := h.readAt_header
  rw [Segment.readLoop, if_pos h.lt_logSize, hread]
  simp only [hparse]
  rw [if_pos hb, h.wrap32_totalSize, h.wrap32_next]

/-- What was read so far and the next batch are counted without an overflow. -/
theorem Segment.Intact.wrap32_sum {out : Bytes} (hout : out.length ≤ pre.flatten.length) :
    out.length + b.length < 2147483648 ∧
      wrap32 (wrap32 out.length + b.length) = out.length + b.length := by
  have hsmall := h.small
  rw [h.file] at hsmall
  simp only [List.flatten_append, List.flatten_cons, List.length_append] at hsmall
  refine ⟨by omega, ?_⟩
  rw [wrap32_eq (x := (out.length : ℤ)) (by omega) (by omega), wrap32_eq (by omega) (by omega)]

/-- A batch that does not fit any more ends the scan. -/
theorem readLoop_cut {want : ℤ} (fuel : ℕ) {out : Bytes} (hb : want ≤ (header b).lastOffset)
    (hne : out ≠ []) (hout : out.length ≤ pre.flatten.length)
    (hcut : maxBytes < out.length + b.length) :
    s.readLoop want maxBytes (fuel + 1) pre.flatten.length out = .ok (out, none) := by
  obtain ⟨hdr, hread, hparse⟩ := h.readAt_header
  obtain ⟨hsmall, hsum⟩ := h.wrap32_sum hout
  rw [Segment.readLoop, if_pos h.lt_logSize, hread]
  simp only [hparse]
  rw [if_neg (by omega), h.wrap32_totalSize, if_pos ⟨hne, by rw [hsum]; exact hcut⟩]

/-- A batch that is wanted and fits is read. -/
theorem readLoop_take {want : ℤ} (fuel : ℕ) {out : Bytes} (hb : want ≤ (header b).lastOffset)
    (hout : out.length ≤ pre.flatten.length)
    (hfit : out = [] ∨ (out.length : ℤ) + b.length ≤ maxBytes) :
    s.readLoop want maxBytes (fuel + 1) pre.flatten.length out
      = if maxBytes ≤ (out ++ b).length then .ok (out ++ b, none)
        else s.readLoop want maxBytes fuel (pre ++ [b]).flatten.length (out ++ b) := by
  obtain ⟨hdr, hread, hparse⟩ := h.readAt_header
  obtain ⟨hsmall, hsum⟩ := h.wrap32_sum hout
  have hlen : wrap32 ((out ++ b).length : ℤ) = (out ++ b).length := by
    rw [List.length_append]; exact wrap32_eq (by omega) (by omega)
  have hcut : ¬ (out ≠ [] ∧ maxBytes < wrap32 (wrap32 out.length + b.length)) := by
    rw [hsum]
    rintro ⟨hne, hlt⟩
    rcases hfit with rfl | hfit
    · exact hne rfl
    · omega
  rw [Segment.readLoop, if_pos h.lt_logSize, hread]
  simp only [hparse]
  rw [if_neg (by omega), h.wrap32_totalSize, if_neg hcut, if_neg (by omega), Int.toNat_natCast,
    h.readAt_batch]
  simp only
  rw [hlen, h.wrap32_next]

end Batch

/-! ### The two phases of the scan -/

/-- The batches before the target are skipped. -/
theorem readLoop_skip (want maxBytes : ℤ) (fuel : ℕ) (out : Bytes) :
    ∀ (skipped pre post : List Bytes), s.Intact (pre ++ (skipped ++ post)) →
      (∀ b ∈ skipped, (header b).lastOffset < want) →
      s.readLoop want maxBytes (skipped.length + fuel) pre.flatten.length out
        = s.readLoop want maxBytes fuel (pre ++ skipped).flatten.length out := by
  intro skipped
  induction skipped with
  | nil => intro pre post _ _; simp
  | cons b skipped ih =>
    intro pre post h hlt
    have hfuel : (b :: skipped).length + fuel = skipped.length + fuel + 1 := by
      simp only [List.length_cons]; omega
    rw [hfuel, readLoop_skip_one h maxBytes _ out (hlt b (by simp)),
      ih (pre ++ [b]) post (by simpa using h) fun c hc => hlt c (by simp [hc])]
    simp

/-- From the first wanted batch on, batches are collected while they fit. -/
theorem readLoop_collect (want maxBytes : ℤ) :
    ∀ (post pre : List Bytes) (fuel : ℕ) (out : Bytes), s.Intact (pre ++ post) →
      (∀ b ∈ post, want ≤ (header b).lastOffset) → out ≠ [] →
      out.length ≤ pre.flatten.length → (out.length : ℤ) < maxBytes →
      s.readLoop want maxBytes (post.length + fuel + 1) pre.flatten.length out
        = .ok (out ++ (greedy maxBytes out.length post).flatten, none) := by
  intro post
  induction post with
  | nil =>
    intro pre fuel out h _ _ _ _
    rw [List.append_nil] at h
    rw [readLoop_end h]
    simp [greedy]
  | cons b post ih =>
    intro pre fuel out h hwant hne hout hmax
    have hfuel : (b :: post).length + fuel + 1 = post.length + fuel + 1 + 1 := by
      simp only [List.length_cons]; omega
    rw [hfuel, greedy]
    by_cases hfit : (out.length : ℤ) + b.length ≤ maxBytes
    · rw [if_pos hfit, readLoop_take h _ (hwant b (by simp)) hout (Or.inr hfit)]
      have hlen : ((out ++ b).length : ℤ) = out.length + b.length := by
        rw [List.length_append]; push_cast; rfl
      by_cases hfull : maxBytes ≤ (out ++ b).length
      · rw [if_pos hfull, greedy_of_le (by omega) fun c hc => h.framed c (by simp [hc])]
        simp
      · rw [if_neg hfull, ih (pre ++ [b]) fuel (out ++ b) (by simpa using h)
          (fun c hc => hwant c (by simp [hc])) (by simp [hne])
          (by simp only [List.flatten_append, List.length_append, List.flatten_cons]; omega)
          (by omega), hlen]
        simp
    · rw [if_neg hfit, readLoop_cut h _ (hwant b (by simp)) hne hout (by omega)]
      simp

/-- The whole scan, from any batch boundary at or before the target. -/
theorem readLoop_spec {start skipped : List Bytes} (want maxBytes : ℤ) (fuel : ℕ)
    (h : s.Intact (start ++ skipped ++ b :: post))
    (hskip : ∀ c ∈ skipped, (header c).lastOffset < want)
    (hb : want ≤ (header b).lastOffset) (hpost : ∀ c ∈ post, want ≤ (header c).lastOffset) :
    s.readLoop want maxBytes (skipped.length + (post.length + fuel + 2)) start.flatten.length []
      = .ok (b ++ (greedy maxBytes b.length post).flatten, none) := by
  rw [readLoop_skip want maxBytes _ [] skipped start (b :: post) (by simpa using h) hskip,
    readLoop_take h _ hb (by simp) (Or.inl rfl), List.nil_append]
  by_cases hfull : maxBytes ≤ b.length
  · rw [if_pos hfull, greedy_of_le hfull fun c hc => h.framed c (by simp [hc])]
    simp
  · rw [if_neg hfull]
    exact readLoop_collect want maxBytes post _ fuel b (by simpa using h) hpost
      (h.framed b (by simp)).ne_nil
      (by simp only [List.flatten_append, List.flatten_cons, List.length_append]; omega) (by omega)

/-! ### Where the scan starts -/

theorem intact_ofPart (interval : ℤ) {p : Part} (hsmall : p.bytes.length < 2147483648) :
    (Segment.ofPart interval p).Intact p.batches where
  file := rfl
  size := by rw [ofPart_logSize, ofPart_logFile, wrap32_eq (by omega) (by omega)]
  small := hsmall
  framed := p.chained.framed

/-- A batch not past the target lies at or before the batch that contains it. -/
theorem isPrefix_of_base_le {a z o : ℤ} {pre₀ post₀ pre post : List Bytes} {b₀ b : Bytes}
    (hch : Chained a (pre ++ b :: post) z) (heq : pre₀ ++ b₀ :: post₀ = pre ++ b :: post)
    (h₀ : (header b₀).baseOffset ≤ o)
    (hb : o < (header b).baseOffset + (header b).recordCount) : pre₀ <+: pre := by
  rcases List.append_eq_append_iff.mp heq with ⟨t, ht, -⟩ | ⟨t, ht, htail⟩
  · exact ⟨t, ht.symm⟩
  · cases t with
    | nil => exact ⟨[], by simpa using ht⟩
    | cons c t =>
      -- otherwise `b₀` starts after `b` ends
      simp only [List.cons_append, List.cons.injEq] at htail
      obtain ⟨rfl, hpost⟩ := htail
      rw [hpost] at hch
      obtain ⟨y, -, -, hy, hrest⟩ := chained_append.mp hch
      have := (hrest.bounds (b := b₀) (by simp)).1
      omega

/-- The index leads to a batch boundary at or before the target. -/
theorem floorPosition_ofPart (interval : ℤ) {o : ℤ} {p : Part} (hsmall : p.bytes.length < 2147483648)
    (hspan : p.stop - p.base < 2147483648) {pre post : List Bytes} {b : Bytes}
    (hbs : p.batches = pre ++ b :: post) (ho₀ : (header b).baseOffset ≤ o)
    (ho₁ : o < (header b).baseOffset + (header b).recordCount) :
    ∃ start, start <+: pre ∧
      floorPosition (Segment.ofPart interval p).index (wrap32 (o - p.base)) = start.flatten.length := by
  have hmem : b ∈ p.batches := by rw [hbs]; simp
  have hbnd := p.chained.bounds hmem
  rcases floorPosition_spec (Segment.ofPart interval p).index (wrap32 (o - p.base)) with
    h | ⟨e, he, hle, h⟩
  · exact ⟨[], List.nil_prefix, by rw [h]; rfl⟩
  · obtain ⟨pre₀, b₀, post₀, heq, hpos, hrel⟩ :=
      scanAll_onBoundary p.base interval p.chained.framed e he
    have hbnd₀ := p.chained.bounds (b := b₀) (by rw [heq]; simp)
    have hcnt₀ := (p.chained.wellFormed b₀ (by rw [heq]; simp)).2.2
    -- neither relative offset wraps, so the entry is not past the target
    rw [hrel, wrap32_eq (by omega) (by omega), wrap32_eq (by omega) (by omega)] at hle
    refine ⟨pre₀,
      isPrefix_of_base_le (hbs ▸ p.chained) (heq.symm.trans hbs) (o := o) (by omega) ho₁, ?_⟩
    have hlen : pre₀.flatten.length ≤ p.bytes.length := by
      rw [Part.bytes, heq]; simp
    rw [h, hpos, wrap32_eq (by omega) (by omega)]

/-- **The read specification of a segment.**  A read inside the run of a segment
returns the batch that contains the offset and then, greedily, the batches after
it. -/
theorem readBatchesFrom_ofPart (interval : ℤ) {o : ℤ} {p : Part}
    (hsmall : p.bytes.length < 2147483648) (hspan : p.stop - p.base < 2147483648)
    {pre post : List Bytes} {b : Bytes} (hbs : p.batches = pre ++ b :: post)
    (ho₀ : (header b).baseOffset ≤ o) (ho₁ : o < (header b).baseOffset + (header b).recordCount) :
    (Segment.ofPart interval p).readBatchesFrom o maxBytes
      = .ok (b ++ (greedy maxBytes b.length post).flatten, none) := by
  obtain ⟨start, ⟨skipped, rfl⟩, hpos⟩ :=
    floorPosition_ofPart interval hsmall hspan hbs ho₀ ho₁
  have hI := intact_ofPart interval hsmall
  have hlast : ∀ d ∈ p.batches,
      (header d).lastOffset = (header d).baseOffset + (header d).recordCount - 1 :=
    fun d hd => p.lastOffset hd
  have hch := p.chained
  rw [hbs] at hch hlast hI
  obtain ⟨y, hpre, hw, hy, hrest⟩ := chained_append.mp hch
  obtain ⟨x, -, hskip⟩ := chained_append.mp hpre
  -- the fuel is the size of the file, which bounds the number of batches
  have hcount := length_le_flatten_length hI.framed
  rw [← hI.file] at hcount
  simp only [List.length_append, List.length_cons] at hcount
  obtain ⟨fuel, hfuel⟩ : ∃ fuel, (Segment.ofPart interval p).logSize.toNat + 2
      = skipped.length + (post.length + fuel + 2) :=
    ⟨(Segment.ofPart interval p).logSize.toNat - (skipped.length + post.length),
      by rw [hI.size, Int.toNat_natCast]; omega⟩
  unfold Segment.readBatchesFrom
  rw [hfuel, ofPart_baseOffset, hpos]
  refine readLoop_spec o maxBytes fuel hI ?_ ?_ ?_
  · intro d hd
    have := (hskip.bounds hd).2
    rw [hlast d (by simp [hd])]; omega
  · rw [hlast b (by simp)]; omega
  · intro d hd
    have := (hrest.bounds hd).1
    have := (hrest.wellFormed d hd).2.2
    rw [hlast d (by simp [hd])]; omega

end Storage
end Mq
