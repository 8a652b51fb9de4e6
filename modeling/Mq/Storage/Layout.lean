import Mq.Lib.Retention
import Mq.Storage.ReadPath

/-!
# The layout of a log

The abstract state of a partition log: the runs of batches in its closed
segments and the one in its active segment, following one another without a gap.
The operations of the log act on it in the way their names say.  `Refinement`
connects it to the code.

## Main definitions

* `Linked a ps z` — the runs `ps` follow one another from `a` to `z`.
* `Layout` — the runs of a log.
* `Layout.append`, `Layout.enforceRetention` — the operations on it.

## Main results

* `Layout.chained` — the batches of a layout cover its offsets.
* `Layout.append_batches`, `Layout.dropClosed_batches` — what the operations do to
  the batches.
-/

namespace Mq
namespace Storage

open Word Record

/-! ### Runs that follow one another -/

/-- The runs `ps` are nonempty and follow one another from `a` to `z`. -/
def Linked : ℤ → List Part → ℤ → Prop
  | a, [], z => a = z
  | a, p :: ps, z => p.base = a ∧ p.batches ≠ [] ∧ Linked p.stop ps z

variable {a z : ℤ} {ps : List Part}

theorem linked_snoc {p : Part} :
    Linked a (ps ++ [p]) z ↔ Linked a ps p.base ∧ p.batches ≠ [] ∧ p.stop = z := by
  induction ps generalizing a with
  | nil =>
    simp only [List.nil_append, Linked]
    exact ⟨fun ⟨h₁, h₂⟩ => ⟨h₁.symm, h₂⟩, fun ⟨h₁, h₂⟩ => ⟨h₁.symm, h₂⟩⟩
  | cons q ps ih => simp only [List.cons_append, Linked, ih, and_assoc]

theorem Linked.chained (h : Linked a ps z) : Chained a (ps.flatMap Part.batches) z := by
  induction ps generalizing a with
  | nil => exact h
  | cons p ps ih =>
    obtain ⟨rfl, -, hps⟩ := h
    exact chained_append.mpr ⟨p.stop, p.chained, ih hps⟩

theorem Linked.ne_nil (h : Linked a ps z) : ∀ p ∈ ps, p.batches ≠ [] := by
  induction ps generalizing a with
  | nil => simp
  | cons p ps ih =>
    intro q hq
    rcases List.mem_cons.mp hq with rfl | hq
    · exact h.2.1
    · exact ih h.2.2 q hq

theorem Linked.lt (h : Linked a ps z) : ∀ p ∈ ps, p.base < p.stop :=
  fun p hp => p.chained.lt (h.ne_nil p hp)

theorem Linked.bounds (h : Linked a ps z) : a ≤ z ∧ ∀ p ∈ ps, a ≤ p.base ∧ p.stop ≤ z := by
  induction ps generalizing a with
  | nil => exact ⟨le_of_eq h, by simp⟩
  | cons p ps ih =>
    have hp := p.chained.le
    obtain ⟨hle, hps⟩ := ih h.2.2
    refine ⟨by have := h.1; omega, fun q hq => ?_⟩
    rcases List.mem_cons.mp hq with rfl | hq
    · exact ⟨le_of_eq h.1.symm, hle⟩
    · have := hps q hq; have := h.1; omega

/-- A later run starts where, or after, an earlier one stops. -/
theorem Linked.pairwise (h : Linked a ps z) : ps.Pairwise fun p q => p.stop ≤ q.base := by
  induction ps generalizing a with
  | nil => exact List.Pairwise.nil
  | cons p ps ih => exact List.pairwise_cons.mpr ⟨fun q hq => (h.2.2.bounds.2 q hq).1, ih h.2.2⟩

/-! ### Layouts -/

/-- The runs of a log: those of the closed segments and that of the active one. -/
structure Layout where
  closed : List Part
  last : Part
  linked : Linked (closed.headD last).base closed last.base

namespace Layout

/-- All runs, in offset order. -/
def parts (y : Layout) : List Part := y.closed ++ [y.last]

/-- Where the log starts. -/
def start (y : Layout) : ℤ := (y.closed.headD y.last).base

/-- All batches, in offset order. -/
def batches (y : Layout) : List Bytes := y.parts.flatMap Part.batches

theorem batches_eq (y : Layout) : y.batches = y.closed.flatMap Part.batches ++ y.last.batches := by
  simp [batches, parts]

/-- The batches of a layout cover its offsets. -/
theorem chained (y : Layout) : Chained y.start y.batches y.last.stop := by
  rw [batches_eq]
  exact chained_append.mpr ⟨_, y.linked.chained, y.last.chained⟩

theorem pairwise (y : Layout) : y.parts.Pairwise fun p q => p.stop ≤ q.base := by
  refine List.pairwise_append.mpr ⟨y.linked.pairwise, List.pairwise_singleton _ _, ?_⟩
  intro p hp q hq
  obtain rfl := List.mem_singleton.mp hq
  exact (y.linked.bounds.2 p hp).2

theorem stop_nonneg (y : Layout) : 0 ≤ y.last.stop := y.last.nonneg.trans y.last.chained.le

/-- The layout of an empty log. -/
def empty (now : ℤ) : Layout := ⟨[], Part.empty 0 now le_rfl (by decide), rfl⟩

/-- The size of a layout, as the code adds it up. -/
def size (y : Layout) : ℤ := (y.parts.map fun p => wrap32 p.bytes.length).sum

/-- Whether a batch of `n` bytes goes into a new segment. -/
def needsRoll (y : Layout) (segmentBytes : ℤ) (n : ℕ) : Bool :=
  0 < wrap32 y.last.bytes.length &&
    decide (segmentBytes < wrap32 (wrap32 y.last.bytes.length + wrap32 n))

theorem batches_ne_nil_of_needsRoll {y : Layout} {segmentBytes : ℤ} {n : ℕ}
    (h : y.needsRoll segmentBytes n = true) : y.last.batches ≠ [] := by
  intro hnil
  simp [needsRoll, Part.bytes, hnil, wrap32] at h

/-- The layout with a new active segment. -/
def roll (y : Layout) (now : ℤ) (hne : y.last.batches ≠ []) : Layout where
  closed := y.closed ++ [y.last]
  last := Part.empty y.last.stop now y.stop_nonneg y.last.fits
  linked := by
    have hlink := y.linked
    cases hc : y.closed with
    | nil => exact ⟨rfl, hne, rfl⟩
    | cons p ps => rw [hc] at hlink; exact linked_snoc.mpr ⟨hlink, hne, rfl⟩

theorem roll_batches (y : Layout) (now : ℤ) (hne : y.last.batches ≠ []) :
    (y.roll now hne).batches = y.batches := by
  simp [roll, batches, parts, Part.empty]

/-- The layout with the roll an append of `n` bytes starts with. -/
def rollFor (y : Layout) (segmentBytes now : ℤ) (n : ℕ) : Layout :=
  if h : y.needsRoll segmentBytes n = true then y.roll now (batches_ne_nil_of_needsRoll h) else y

/-- The layout with one more batch in its active segment. -/
def write (y : Layout) (now : ℤ) (b : Bytes) (hw : WellFormed b)
    (hb : (header b).baseOffset = y.last.stop)
    (hf : y.last.stop + (header b).recordCount < 9223372036854775808) : Layout where
  closed := y.closed
  last := y.last.snoc now b hw hb hf
  linked := by
    have hlink := y.linked
    cases hc : y.closed with
    | nil => exact rfl
    | cons p ps => rw [hc] at hlink; exact hlink

theorem rollFor_stop (y : Layout) (segmentBytes now : ℤ) (n : ℕ) :
    (y.rollFor segmentBytes now n).last.stop = y.last.stop := by
  unfold rollFor; split <;> rfl

theorem rollFor_start (y : Layout) (segmentBytes now : ℤ) (n : ℕ) :
    (y.rollFor segmentBytes now n).start = y.start := by
  unfold rollFor
  split
  · simp only [start, roll]; cases y.closed <;> rfl
  · rfl

theorem rollFor_batches (y : Layout) (segmentBytes now : ℤ) (n : ℕ) :
    (y.rollFor segmentBytes now n).batches = y.batches := by
  unfold rollFor
  split
  · exact roll_batches _ _ _
  · rfl

theorem rollFor_bytes_le (y : Layout) (segmentBytes now : ℤ) (n : ℕ) :
    (y.rollFor segmentBytes now n).last.bytes.length ≤ y.last.bytes.length := by
  unfold rollFor
  split
  · exact Nat.zero_le _
  · exact le_rfl

/-- A batch is added at the end, after a roll if its segment would grow too
large. -/
def append (y : Layout) (segmentBytes now : ℤ) (b : Bytes) (hw : WellFormed b)
    (hb : (header b).baseOffset = y.last.stop)
    (hf : y.last.stop + (header b).recordCount < 9223372036854775808) : Layout :=
  (y.rollFor segmentBytes now b.length).write now b hw
    (by rw [rollFor_stop]; exact hb) (by rw [rollFor_stop]; exact hf)

section append

variable (y : Layout) (segmentBytes now : ℤ) {b : Bytes} (hw : WellFormed b)
  (hb : (header b).baseOffset = y.last.stop)
  (hf : y.last.stop + (header b).recordCount < 9223372036854775808)

theorem append_stop :
    (y.append segmentBytes now b hw hb hf).last.stop = y.last.stop + (header b).recordCount := by
  simp only [append, write, Part.snoc, rollFor_stop]

theorem append_batches : (y.append segmentBytes now b hw hb hf).batches = y.batches ++ [b] := by
  rw [← rollFor_batches y segmentBytes now b.length]
  simp [append, write, batches, parts, Part.snoc]

/-- Where an appended batch goes. -/
theorem append_cases :
    ((y.append segmentBytes now b hw hb hf).closed = y.closed ∧
      (y.append segmentBytes now b hw hb hf).last.base = y.last.base ∧
      (y.append segmentBytes now b hw hb hf).last.batches = y.last.batches ++ [b]) ∨
    (y.last.batches ≠ [] ∧
      (y.append segmentBytes now b hw hb hf).closed = y.closed ++ [y.last] ∧
      (y.append segmentBytes now b hw hb hf).last.base = y.last.stop ∧
      (y.append segmentBytes now b hw hb hf).last.batches = [b]) := by
  simp only [append, write, Part.snoc, rollFor]
  split
  · next hroll => exact Or.inr ⟨batches_ne_nil_of_needsRoll hroll, rfl, rfl, rfl⟩
  · exact Or.inl ⟨rfl, rfl, rfl⟩

theorem append_start : (y.append segmentBytes now b hw hb hf).start = y.start := by
  rw [← rollFor_start y segmentBytes now b.length]
  simp only [append, start, write]
  cases (y.rollFor segmentBytes now b.length).closed <;> rfl

end append

section produce

variable (y : Layout) {batch : Bytes} (hw : WellFormed batch)

include hw

theorem stamp_baseOffset : (header (stamp y.last.stop batch)).baseOffset = y.last.stop := by
  have h₀ := y.stop_nonneg
  have h₁ := y.last.fits
  rw [header_stamp hw.1.1]
  exact wrap64_eq (by omega) h₁

theorem stamp_recordCount :
    (header (stamp y.last.stop batch)).recordCount = (header batch).recordCount := by
  rw [header_stamp hw.1.1]

/-- A produced batch is stamped with the log end and added. -/
def produce (segmentBytes now : ℤ)
    (hf : y.last.stop + (header batch).recordCount < 9223372036854775808) : Layout :=
  y.append segmentBytes now (stamp y.last.stop batch) (wellFormed_stamp hw _)
    (y.stamp_baseOffset hw) (by rw [y.stamp_recordCount hw]; exact hf)

variable (segmentBytes now : ℤ)
  (hf : y.last.stop + (header batch).recordCount < 9223372036854775808)

theorem produce_batches :
    (y.produce hw segmentBytes now hf).batches = y.batches ++ [stamp y.last.stop batch] :=
  append_batches _ _ _ _ _ _

theorem produce_stop :
    (y.produce hw segmentBytes now hf).last.stop = y.last.stop + (header batch).recordCount := by
  rw [produce, append_stop, y.stamp_recordCount hw]

/-- Where a produced batch goes. -/
theorem produce_cases :
    ((y.produce hw segmentBytes now hf).closed = y.closed ∧
      (y.produce hw segmentBytes now hf).last.base = y.last.base ∧
      (y.produce hw segmentBytes now hf).last.batches
        = y.last.batches ++ [stamp y.last.stop batch]) ∨
    (y.last.batches ≠ [] ∧ (y.produce hw segmentBytes now hf).closed = y.closed ++ [y.last] ∧
      (y.produce hw segmentBytes now hf).last.base = y.last.stop ∧
      (y.produce hw segmentBytes now hf).last.batches = [stamp y.last.stop batch]) :=
  append_cases _ _ _ _ _ _

/-- A produced batch that fits stays in the active segment. -/
theorem produce_of_not_needsRoll (h : y.needsRoll segmentBytes batch.length = false) :
    (y.produce hw segmentBytes now hf).closed = y.closed ∧
      (y.produce hw segmentBytes now hf).last.base = y.last.base ∧
      (y.produce hw segmentBytes now hf).last.batches
        = y.last.batches ++ [stamp y.last.stop batch] := by
  have hroll : y.rollFor segmentBytes now (stamp y.last.stop batch).length = y := by
    rw [rollFor, length_stamp hw.1.1, dif_neg (by rw [h]; decide)]
  simp only [produce, append, write, Part.snoc, hroll]
  exact ⟨trivial, trivial, trivial⟩

/-- A produced batch that does not fit starts a new segment. -/
theorem produce_of_needsRoll (h : y.needsRoll segmentBytes batch.length = true) :
    (y.produce hw segmentBytes now hf).closed = y.closed ++ [y.last] ∧
      (y.produce hw segmentBytes now hf).last.base = y.last.stop ∧
      (y.produce hw segmentBytes now hf).last.batches = [stamp y.last.stop batch] := by
  have hroll : y.rollFor segmentBytes now (stamp y.last.stop batch).length
      = y.roll now (batches_ne_nil_of_needsRoll h) := by
    rw [rollFor, length_stamp hw.1.1, dif_pos h]
  simp only [produce, append, write, Part.snoc, hroll]
  exact ⟨rfl, rfl, rfl⟩

theorem produce_start : (y.produce hw segmentBytes now hf).start = y.start :=
  append_start _ _ _ _ _ _

end produce

end Layout

/-! ### Retention -/

/-- A file that was last written at this time is from before the cutoff. -/
def expired (now maxAgeMs modTime : ℤ) : Bool :=
  decide (0 < maxAgeMs ∧ modTime < now + wrap64 (-maxAgeMs * 1000000))

def Segment.expired (now maxAgeMs : ℤ) (s : Segment) : Bool :=
  Storage.expired now maxAgeMs s.modTime

/-- A size is beyond the limit. -/
def overSize (maxBytes total : ℤ) : Bool := decide (0 < maxBytes ∧ maxBytes < total)

/-- Retention is dropping the oldest closed segments. -/
theorem retentionLoop_eq_dropCount (now maxAgeMs maxBytes : ℤ) (total : ℤ) (ss : List Segment) :
    Log.retentionLoop (now + wrap64 (-maxAgeMs * 1000000)) maxAgeMs maxBytes total ss
      = ss.drop (Retention.dropCount (Segment.expired now maxAgeMs) (overSize maxBytes) (·.logSize)
          total ss) := by
  induction ss generalizing total with
  | nil => rfl
  | cons s ss ih =>
    rw [Retention.dropCount]
    change (if !s.expired now maxAgeMs && !overSize maxBytes total then s :: ss
      else Log.retentionLoop _ maxAgeMs maxBytes (total - s.logSize) ss) = _
    rw [ih]
    cases s.expired now maxAgeMs <;> cases overSize maxBytes total <;> rfl

theorem Linked.drop (h : Linked a ps z) (n : ℕ) : ∃ a', a ≤ a' ∧ Linked a' (ps.drop n) z := by
  induction n generalizing a ps with
  | zero => exact ⟨a, le_rfl, h⟩
  | succ n ih =>
    cases ps with
    | nil => exact ⟨a, le_rfl, h⟩
    | cons p ps =>
      obtain ⟨a', hle, h'⟩ := ih h.2.2
      have := p.chained.le
      exact ⟨a', by have := h.1; omega, h'⟩

/-- The start of a sequence of runs is the base of its first. -/
theorem Linked.start_eq {p : Part} (h : Linked a ps p.base) : (ps.headD p).base = a := by
  cases ps with
  | nil => exact h.symm
  | cons q ps => exact h.1

/-- The layout without its oldest `n` closed segments. -/
def Layout.dropClosed (y : Layout) (n : ℕ) : Layout where
  closed := y.closed.drop n
  last := y.last
  linked := by
    obtain ⟨a, -, h⟩ := y.linked.drop n
    rw [h.start_eq]; exact h

/-- The layout after retention. -/
def Layout.enforceRetention (y : Layout) (now maxAgeMs maxBytes : ℤ) : Layout :=
  y.dropClosed (Retention.dropCount (fun p => expired now maxAgeMs p.modTime) (overSize maxBytes)
    (fun p => wrap32 p.bytes.length) y.size y.closed)

/-- How an operation changes a layout: it adds the batch it was given, or deletes
old closed segments (or none). -/
inductive Layout.Moves : Layout → Option Bytes → Layout → Prop
  | produce (y : Layout) {batch : Bytes} (hw : WellFormed batch) (segmentBytes now : ℤ)
      (hf : y.last.stop + (header batch).recordCount < 9223372036854775808) :
      Moves y (some batch) (y.produce hw segmentBytes now hf)
  | drop (y : Layout) (n : ℕ) : Moves y none (y.dropClosed n)

theorem Layout.dropClosed_batches (y : Layout) (n : ℕ) : (y.dropClosed n).batches <:+ y.batches := by
  rw [batches_eq, batches_eq]
  refine ⟨(y.closed.take n).flatMap Part.batches, ?_⟩
  simp only [Layout.dropClosed]
  rw [← List.append_assoc, ← List.flatMap_append, List.take_append_drop]

end Storage
end Mq
