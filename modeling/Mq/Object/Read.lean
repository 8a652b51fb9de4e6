import Mq.Object.Reopen
import Mq.Storage.Segment

/-!
# The read path of the object backend

`internal/storage/object/read.go` and `ObjectLog.Read`.  A read is answered from one
place: the pending part if the offset is in it, otherwise the object of the ref that
contains the offset.  Either way the place is a run of whole batches, and
`sliceBatches` cuts the answer out of it.

The sizes it adds up are 32-bit values and may wrap.  That decides where the answer
ends and nothing else: it starts with the batch that contains the offset, and goes on
batch by batch.

## Main definitions

* `sliceBatches`, `Storage.read`, `ObjectLog.read` — the read path.

## Main results

* `sliceBatches_flatten` — **the batches that a read takes from a run of batches.**
* `RefChain.refFor_eq` — the index finds the ref that contains an offset.
-/

namespace Mq
namespace Object

open Word Record

/-! ### Definitions -/

/-- The errors of a read. -/
inductive ReadErr
  /-- A batch header was refused. -/
  | record (e : Record.Err)
  /-- The requested offset is not retained, or beyond the log end. -/
  | offsetOutOfRange
  /-- The object store has no such object. -/
  | noObject
  deriving DecidableEq, Repr

/-- What a read returns, unless it panics or never ends. -/
abbrev ReadResult := Storage.Outcome (Bytes × Option ReadErr)

/-- The loop of `sliceBatches` from position `pos`, with `out` read so far. -/
def sliceLoop (data : Bytes) (wantOffset maxBytes : ℤ) : ℕ → ℤ → Bytes → ReadResult
  | 0, _, _ => .error .hang
  | fuel + 1, pos, out =>
    if pos < data.length then
      -- the slice `data[pos:]`
      if pos < 0 then .error .panic
      else
        match parseHeader (data.drop pos.toNat) with
        | .error e => .ok (out, some (.record e))
        | .ok h =>
          let total := h.totalSize
          if data.length < pos + total then .ok (out, none)
          -- a batch entirely before the target is skipped
          else if h.lastOffset < wantOffset then
            sliceLoop data wantOffset maxBytes fuel (pos + total) out
          else if out ≠ [] ∧ maxBytes < wrap32 (wrap32 out.length + wrap32 total) then
            .ok (out, none)
          else if total < 0 then .error .panic
          else
            let out := out ++ slice data pos.toNat total.toNat
            if maxBytes ≤ wrap32 out.length then .ok (out, none)
            else sliceLoop data wantOffset maxBytes fuel (pos + total) out
    else .ok (out, none)

/-- Whole batches from a run of them, starting at the first one whose last offset is
at least `wantOffset`, up to `maxBytes` but always at least one.  A position that is
visited twice is visited for ever, so more rounds than there are positions mean that
the loop does not end. -/
def sliceBatches (data : Bytes) (wantOffset maxBytes : ℤ) : ReadResult :=
  sliceLoop data wantOffset maxBytes (data.length + 2) 0 []

/-- `Get` with a range; a length that is not positive means up to the end. -/
def getRange (objects : Table Bytes Bytes) (key : Bytes) (off length : ℤ) : Option Bytes :=
  (objects.lookup key).map fun o =>
    if length ≤ 0 then o.drop off.toNat else slice o off.toNat length.toNat

/-- What the pending buffer has for a read, if the offset is in it. -/
def Storage.pendingData (s : Storage) (k : Bytes) (offset : ℤ) : Bytes :=
  match s.pending.lookup k with
  | none => []
  | some pp => if pp.batches ≠ [] ∧ pp.baseOffset ≤ offset then pp.batches.flatten else []

/-- An offset that neither the buffer nor the index has is taken for one that an
upload has just moved. -/
def Storage.read (s : Storage) (k : Bytes) (offset maxBytes : ℤ) : ReadResult :=
  if s.pendingData k offset ≠ [] then sliceBatches (s.pendingData k offset) offset maxBytes
  else
    match s.index.refFor k offset with
    | none => .ok ([], none)
    | some ref =>
      match getRange s.objects ref.key ref.position ref.length with
      | none => .ok ([], some .noObject)
      | some data => sliceBatches data offset maxBytes

def ObjectLog.read (l : ObjectLog) (s : Storage) (k : Bytes) (offset maxBytes : ℤ) : ReadResult :=
  if offset = l.nextOffset then .ok ([], none)
  else if l.nextOffset < offset ∨ offset < l.earliest then .ok ([], some .offsetOutOfRange)
  else s.read k offset maxBytes

/-! ### One round of the loop -/

section Rounds

variable {pre post : List Bytes} {b : Bytes}

/-- What the loop sees at the boundary of a batch. -/
theorem parseHeader_drop (hb : Framed b) :
    parseHeader ((pre ++ b :: post).flatten.drop pre.flatten.length) = .ok (header b) := by
  rw [List.flatten_append, List.drop_left, List.flatten_cons, parseHeader_append _ hb.1,
    hb.parseHeader]

theorem slice_boundary :
    slice (pre ++ b :: post).flatten pre.flatten.length b.length = b := by
  rw [slice, List.flatten_append, List.drop_left, List.flatten_cons, List.take_left]

theorem boundary_lt (pre post : List Bytes) {b : Bytes} (hb : Framed b) :
    (pre.flatten.length : ℤ) < (pre ++ b :: post).flatten.length ∧
      (pre.flatten.length : ℤ) + (header b).totalSize = (pre ++ [b]).flatten.length ∧
      (pre.flatten.length : ℤ) + (header b).totalSize ≤ (pre ++ b :: post).flatten.length := by
  have hpos := List.length_pos_of_ne_nil hb.ne_nil
  have hsize := hb.2.2
  simp only [List.flatten_append, List.flatten_cons, List.length_append, List.flatten_nil,
    List.length_nil]
  omega

/-- A batch before the target is skipped. -/
theorem sliceLoop_skip_one (hb : Framed b) {want : ℤ} (hlast : (header b).lastOffset < want)
    (maxBytes : ℤ) (fuel : ℕ) (out : Bytes) :
    sliceLoop (pre ++ b :: post).flatten want maxBytes (fuel + 1) pre.flatten.length out
      = sliceLoop (pre ++ b :: post).flatten want maxBytes fuel (pre ++ [b]).flatten.length out := by
  obtain ⟨hlt, hnext, hfits⟩ := boundary_lt pre post hb
  rw [sliceLoop, if_pos hlt, if_neg (by omega), Int.toNat_natCast, parseHeader_drop hb]
  dsimp only
  rw [if_neg (by omega), if_pos hlast, hnext]

/-- A batch at or after the target is the last one or is taken. -/
theorem sliceLoop_round (hb : Framed b) {want : ℤ} (hlast : want ≤ (header b).lastOffset)
    (maxBytes : ℤ) (fuel : ℕ) (out : Bytes) :
    sliceLoop (pre ++ b :: post).flatten want maxBytes (fuel + 1) pre.flatten.length out
      = if out ≠ [] ∧ maxBytes < wrap32 (wrap32 out.length + wrap32 (header b).totalSize) then
          .ok (out, none)
        else if maxBytes ≤ wrap32 (out ++ b).length then .ok (out ++ b, none)
        else sliceLoop (pre ++ b :: post).flatten want maxBytes fuel (pre ++ [b]).flatten.length
          (out ++ b) := by
  obtain ⟨hlt, hnext, hfits⟩ := boundary_lt pre post hb
  have hsize : (header b).totalSize.toNat = b.length := by
    have := hb.2.2; omega
  rw [sliceLoop, if_pos hlt, if_neg (by omega), Int.toNat_natCast, parseHeader_drop hb]
  dsimp only
  rw [if_neg (by omega), if_neg (by omega), if_neg (show ¬ (header b).totalSize < 0 by
    have := hb.2.2; omega), hsize, slice_boundary, hnext]

end Rounds

/-! ### The two phases of the loop -/

/-- The batches before the target are skipped. -/
theorem sliceLoop_skip (want maxBytes : ℤ) (fuel : ℕ) (out : Bytes) :
    ∀ (skipped pre post : List Bytes), (∀ b ∈ skipped, Framed b) →
      (∀ b ∈ skipped, (header b).lastOffset < want) →
      sliceLoop (pre ++ (skipped ++ post)).flatten want maxBytes (skipped.length + fuel)
          pre.flatten.length out
        = sliceLoop (pre ++ (skipped ++ post)).flatten want maxBytes fuel
          (pre ++ skipped).flatten.length out := by
  intro skipped
  induction skipped with
  | nil => intro pre post _ _; simp
  | cons b skipped ih =>
    intro pre post hframed hlast
    have hfuel : (b :: skipped).length + fuel = skipped.length + fuel + 1 := by
      simp only [List.length_cons]; omega
    have hih := ih (pre ++ [b]) post (fun c hc => hframed c (List.mem_cons_of_mem b hc))
      fun c hc => hlast c (List.mem_cons_of_mem b hc)
    rw [hfuel, List.cons_append, sliceLoop_skip_one (hframed b List.mem_cons_self)
      (hlast b List.mem_cons_self)]
    simpa using hih

/-- From the first wanted batch on, batches are taken one after the other.  Whether the
32-bit sums wrap only decides after which of them the loop stops. -/
theorem sliceLoop_collect (want maxBytes : ℤ) :
    ∀ (post pre : List Bytes) (fuel : ℕ) (out : Bytes), (∀ b ∈ post, Framed b) →
      (∀ b ∈ post, want ≤ (header b).lastOffset) →
      ∃ taken, taken <+: post ∧
        sliceLoop (pre ++ post).flatten want maxBytes (post.length + fuel + 1) pre.flatten.length
          out = .ok (out ++ taken.flatten, none) := by
  intro post
  induction post with
  | nil =>
    intro pre fuel out _ _
    refine ⟨[], List.nil_prefix, ?_⟩
    rw [sliceLoop, if_neg (by simp)]
    simp
  | cons b post ih =>
    intro pre fuel out hframed hlast
    have hfuel : (b :: post).length + fuel + 1 = (post.length + fuel + 1) + 1 := by
      simp only [List.length_cons]; omega
    rw [hfuel, sliceLoop_round (hframed b List.mem_cons_self) (hlast b List.mem_cons_self)]
    split
    · exact ⟨[], List.nil_prefix, by simp⟩
    · split
      · exact ⟨[b], by simp, by simp⟩
      · obtain ⟨taken, hpre, hloop⟩ := ih (pre ++ [b]) fuel (out ++ b)
          (fun c hc => hframed c (List.mem_cons_of_mem b hc))
          fun c hc => hlast c (List.mem_cons_of_mem b hc)
        refine ⟨b :: taken, List.cons_prefix_cons.mpr ⟨rfl, hpre⟩, ?_⟩
        simpa using hloop

/-- The read skips to the first batch that does not end before the offset, and takes it. -/
theorem sliceBatches_start {pre post : List Bytes} {b : Bytes} {want : ℤ}
    (hframed : ∀ c ∈ pre ++ b :: post, Framed c)
    (hskip : ∀ c ∈ pre, (header c).lastOffset < want) (hb : want ≤ (header b).lastOffset)
    (maxBytes : ℤ) :
    ∃ fuel, sliceBatches (pre ++ b :: post).flatten want maxBytes
      = if maxBytes ≤ wrap32 b.length then .ok (b, none)
        else sliceLoop (pre ++ b :: post).flatten want maxBytes (post.length + fuel + 1)
          (pre ++ [b]).flatten.length b := by
  -- the fuel is the size of the data, which bounds the number of batches
  have hcount := length_le_flatten_length hframed
  simp only [List.length_append, List.length_cons] at hcount
  obtain ⟨fuel, hfuel⟩ : ∃ fuel, (pre ++ b :: post).flatten.length + 2
      = pre.length + ((post.length + fuel + 1) + 1) :=
    ⟨(pre ++ b :: post).flatten.length - (pre.length + post.length), by omega⟩
  have hstart : sliceLoop (pre ++ b :: post).flatten want maxBytes
        (pre.length + ((post.length + fuel + 1) + 1)) 0 []
      = sliceLoop (pre ++ b :: post).flatten want maxBytes ((post.length + fuel + 1) + 1)
          pre.flatten.length [] :=
    sliceLoop_skip want maxBytes _ [] pre [] (b :: post)
      (fun c hc => hframed c (by simp [hc])) hskip
  refine ⟨fuel, ?_⟩
  rw [sliceBatches, hfuel, hstart, sliceLoop_round (hframed b (by simp)) hb, if_neg (by simp),
    List.nil_append]

/-- **The batches that a read takes from a run of batches**: the first one that does not
end before the offset, and a number of those after it. -/
theorem sliceBatches_flatten {pre post : List Bytes} {b : Bytes} {want : ℤ}
    (hframed : ∀ c ∈ pre ++ b :: post, Framed c)
    (hskip : ∀ c ∈ pre, (header c).lastOffset < want)
    (hwant : ∀ c ∈ b :: post, want ≤ (header c).lastOffset) (maxBytes : ℤ) :
    ∃ taken, taken <+: post ∧
      sliceBatches (pre ++ b :: post).flatten want maxBytes
        = .ok ((b :: taken).flatten, none) := by
  obtain ⟨fuel, hstart⟩ := sliceBatches_start hframed hskip (hwant b List.mem_cons_self) maxBytes
  rw [hstart]
  split
  · exact ⟨[], List.nil_prefix, by simp⟩
  · obtain ⟨taken, hpre, hloop⟩ := sliceLoop_collect want maxBytes post (pre ++ [b]) fuel b
      (fun c hc => hframed c (by simp [hc])) fun c hc => hwant c (List.mem_cons_of_mem b hc)
    refine ⟨taken, hpre, ?_⟩
    simpa using hloop

/-- The last offset of a batch that belongs to a run of batches. -/
theorem Contiguous.lastOffset_eq {bs : List Bytes} {a z : ℤ} (h : Contiguous a bs z) {b : Bytes}
    (hb : b ∈ bs) : (header b).lastOffset + 1 = nextOf b := by
  have hlt := (h.bounds hb).2.1
  have hbase := (wrap64_bounds (getUint b offBaseOffset 8)).1
  have hlast := wrap64_bounds ((header b).baseOffset + (header b).lastOffsetDelta)
  rw [nextOf] at hlt ⊢
  -- were the sum to wrap, the batch would end below every offset
  by_cases hmax : (header b).lastOffset + 1 < 9223372036854775808
  · exact (wrap64_eq (by have := hlast.1; unfold BatchHeader.lastOffset; omega) hmax).symm
  · have hend : (header b).lastOffset + 1 = 9223372036854775808 := by
      have := hlast.2; unfold BatchHeader.lastOffset at hmax ⊢; omega
    rw [hend] at hlt
    exact absurd (lt_of_le_of_lt hbase hlt) (by decide)

theorem Contiguous.exists_contains {bs : List Bytes} {a z o : ℤ} (h : Contiguous a bs z)
    (ho : a ≤ o) (ho' : o < z) :
    ∃ pre b post, bs = pre ++ b :: post ∧ (∀ c ∈ pre, nextOf c ≤ o) ∧
      (header b).baseOffset ≤ o ∧ ∀ c ∈ b :: post, o < nextOf c := by
  induction bs generalizing a with
  | nil => cases h; omega
  | cons c bs ih =>
    obtain ⟨hbase, -, hrest⟩ := h
    by_cases hc : o < nextOf c
    · refine ⟨[], c, bs, rfl, by simp, by omega, ?_⟩
      intro d hd
      rcases List.mem_cons.mp hd with rfl | hd
      · exact hc
      · have := hrest.bounds hd; omega
    · obtain ⟨pre, b, post, rfl, hpre, hb⟩ := ih hrest (by omega)
      refine ⟨c :: pre, b, post, rfl, ?_, hb⟩
      intro d hd
      rcases List.mem_cons.mp hd with rfl | hd
      · omega
      · exact hpre d hd

/-- A read inside a run of batches. -/
theorem Contiguous.sliceBatches {bs : List Bytes} {a z o : ℤ} (h : Contiguous a bs z)
    (hframed : ∀ b ∈ bs, Framed b) (ho : a ≤ o) (ho' : o < z) (maxBytes : ℤ) :
    ∃ b taken, b :: taken <:+: bs ∧ (header b).baseOffset ≤ o ∧ o ≤ (header b).lastOffset ∧
      Object.sliceBatches bs.flatten o maxBytes = .ok ((b :: taken).flatten, none) := by
  obtain ⟨pre, b, post, rfl, hpre, hbase, hpost⟩ := h.exists_contains ho ho'
  have hlast : ∀ c ∈ pre ++ b :: post, (header c).lastOffset + 1 = nextOf c :=
    fun c hc => h.lastOffset_eq hc
  have hskip : ∀ c ∈ pre, (header c).lastOffset < o := by
    intro c hc
    have := hlast c (List.mem_append_left _ hc)
    have := hpre c hc
    omega
  have hwant : ∀ c ∈ b :: post, o ≤ (header c).lastOffset := by
    intro c hc
    have := hlast c (List.mem_append_right _ hc)
    have := hpost c hc
    omega
  obtain ⟨taken, ⟨rest, rfl⟩, hslice⟩ := sliceBatches_flatten hframed hskip hwant maxBytes
  exact ⟨b, taken, ⟨pre, rest, by simp⟩, hbase, hwant b List.mem_cons_self, hslice⟩

/-! ### The ref of an offset -/

namespace RefChain

variable {a z o : ℤ} {refs pre post : List SegmentRef} {r : SegmentRef}

theorem exists_contains (h : RefChain a refs z) (ho : a ≤ o) (ho' : o < z) :
    ∃ pre r post, refs = pre ++ r :: post ∧ r.baseOffset ≤ o ∧ o < r.nextOffset := by
  induction refs generalizing a with
  | nil => cases h; omega
  | cons q refs ih =>
    obtain ⟨hbase, -, hrest⟩ := h
    by_cases hq : o < q.nextOffset
    · exact ⟨[], q, refs, rfl, by omega, hq⟩
    · obtain ⟨pre, r, post, rfl, hr⟩ := ih hrest (by omega)
      exact ⟨q :: pre, r, post, rfl, hr⟩

/-- The refs before one start no later than it, and those after it no earlier than it
ends. -/
theorem split (h : RefChain a (pre ++ r :: post) z) :
    (∀ q ∈ pre, q.baseOffset ≤ r.baseOffset) ∧ ∀ q ∈ post, r.nextOffset ≤ q.baseOffset := by
  induction pre generalizing a with
  | nil =>
    refine ⟨by simp, ?_⟩
    intro q hq
    exact (h.2.2.lower q hq).1
  | cons p pre ih =>
    obtain ⟨hbase, hlt, hrest⟩ := h
    obtain ⟨hpre, hpost⟩ := ih hrest
    refine ⟨?_, hpost⟩
    intro q hq
    rcases List.mem_cons.mp hq with rfl | hq
    · have := (hrest.lower r (by simp)).1; omega
    · exact hpre q hq

/-- The index finds the ref that contains an offset. -/
theorem refFor_eq {ix : Index} {k : Bytes} (hrefs : ix.refsFor k = pre ++ r :: post)
    (h : RefChain a (pre ++ r :: post) z) (ho : r.baseOffset ≤ o) (ho' : o < r.nextOffset) :
    ix.refFor k o = some r := by
  obtain ⟨hpre, hpost⟩ := h.split
  have hsearch : Search.search (ix.refsFor k).length
      (fun i => (ix.refsFor k)[i]?.any fun q => decide (o < q.baseOffset)) = pre.length + 1 := by
    rw [hrefs, ← List.singleton_append, ← List.append_assoc,
      Search.search_split (f := fun q => decide (o < q.baseOffset))]
    · simp
    · intro i q hq
      rw [hq, Option.any_some]
    · -- the refs up to `r` start at or before the offset, the others after it
      intro q hq
      rcases List.mem_append.mp hq with hq | hq
      · have := hpre q hq
        exact decide_eq_false (by omega)
      · obtain rfl := List.mem_singleton.mp hq
        exact decide_eq_false (by omega)
    · intro q hq
      have := hpost q hq
      exact decide_eq_true (by omega)
  simp only [Index.refFor, hsearch]
  rw [hrefs, List.getElem?_append_right le_rfl, Nat.sub_self, List.getElem?_cons_zero]
  exact if_neg (by omega)

/-- The index has no ref for an offset behind the chain. -/
theorem refFor_eq_none {ix : Index} {k : Bytes} (h : RefChain a (ix.refsFor k) z) (ho : z ≤ o) :
    ix.refFor k o = none := by
  have hsearch : Search.search (ix.refsFor k).length
      (fun i => (ix.refsFor k)[i]?.any fun q => decide (o < q.baseOffset))
        = (ix.refsFor k).length := by
    have hlook : ∀ (i : ℕ) (q : SegmentRef), (ix.refsFor k ++ [])[i]? = some q →
        ((ix.refsFor k)[i]?.any fun r => decide (o < r.baseOffset))
          = decide (o < q.baseOffset) := by
      intro i q hq
      rw [List.append_nil] at hq
      rw [hq, Option.any_some]
    have hbelow : ∀ q ∈ ix.refsFor k, decide (o < q.baseOffset) = false := by
      intro q hq
      have := h.upper.2 q hq
      exact decide_eq_false (by omega)
    simpa using Search.search_split hlook hbelow (by simp)
  simp only [Index.refFor, hsearch]
  cases hlen : (ix.refsFor k).length with
  | zero => rfl
  | succ i =>
    dsimp only
    have hi : i < (ix.refsFor k).length := by omega
    rw [List.getElem?_eq_getElem hi]
    have := h.upper.2 _ (List.getElem_mem hi)
    exact if_pos (by omega)

end RefChain

end Object
end Mq
