import Mathlib.Data.Prod.Lex
import Mq.Record.Walk
import Mq.Storage.Mutation

/-!
# What a log keeps of a call

An append that is refused may still leave its mark: the log rolls to a new segment before
it looks at the batch, and it adds an index entry before it writes.  A log is compared
with an earlier one by its *progress*, which goes up with every call that changes anything,
so that no later call can bring the earlier log back.

## Main definitions

* `Log.Accurate` — the size of the active segment is that of its file, or has become negative.
* `Log.progress`, `Log.Before` — the order of the states of a log.
* `Log.Declines` — the batches that a log refuses without a trace.
* `Log.Refuses` — an append that returns an error and leaves the log alone.

## Main results

* `Log.Accurate.before_append`, `Log.Accurate.append_of_declines` — **an append that the log
  does not decline moves it on**, and one that it declines changes nothing.
* `Log.setHighWatermark_cases`, `Log.holdHighWatermark_cases` — the same for the high
  watermark.
* `refuses_iff` — **which slices without a header are refused as they should be.**
-/

namespace Mq
namespace Storage

open Word Record

/-! ### The progress of a log -/

/-- How far a log has got: its segments, the bytes of the active one, the high watermark,
and whether that is on hold, the first of them first. -/
def Log.progress (l : Log) : ℕ ×ₗ ℕ ×ₗ ℤ ×ₗ Bool :=
  toLex (l.sealed.length, toLex (l.active.logFile.length + l.active.idxFile.length,
    toLex (l.highWatermark, l.holdHWM)))

/-- The log has got further. -/
def Log.Before (l l' : Log) : Prop := l.progress < l'.progress

instance : IsStrictOrder Log Log.Before where
  irrefl _ := lt_irrefl _
  trans _ _ _ := lt_trans

namespace Log.Before

variable {l l' : Log}

theorem of_sealed (h : l.sealed.length < l'.sealed.length) : l.Before l' :=
  Prod.Lex.toLex_lt_toLex.mpr (.inl h)

theorem of_bytes (hs : l.sealed.length = l'.sealed.length)
    (h : l.active.logFile.length + l.active.idxFile.length
      < l'.active.logFile.length + l'.active.idxFile.length) : l.Before l' :=
  Prod.Lex.toLex_lt_toLex.mpr (.inr ⟨hs, Prod.Lex.toLex_lt_toLex.mpr (.inl h)⟩)

/-- Only the high watermark and the hold have changed. -/
theorem of_mark {hwm : ℤ} {hold : Bool}
    (h : l.highWatermark < hwm ∨ l.highWatermark = hwm ∧ l.holdHWM < hold) :
    l.Before { l with highWatermark := hwm, holdHWM := hold } :=
  Prod.Lex.toLex_lt_toLex.mpr (.inr ⟨rfl, Prod.Lex.toLex_lt_toLex.mpr
    (.inr ⟨rfl, Prod.Lex.toLex_lt_toLex.mpr h⟩)⟩)

end Log.Before

/-- Moving the high watermark. -/
theorem Log.setHighWatermark_cases (l : Log) (x : ℤ) :
    (min l.nextOffset x ≤ l.highWatermark ∧ l.setHighWatermark x = l) ∨
      (l.highWatermark < min l.nextOffset x ∧ l.Before (l.setHighWatermark x) ∧
        (l.setHighWatermark x).sealed = l.sealed ∧ (l.setHighWatermark x).active = l.active) := by
  have hmin : (if l.nextOffset < x then l.nextOffset else x) = min l.nextOffset x := by
    split <;> omega
  unfold Log.setHighWatermark
  dsimp only
  rw [hmin]
  split
  · next h => exact .inr ⟨h, Log.Before.of_mark (.inl h), rfl, rfl⟩
  · next h => exact .inl ⟨not_lt.mp h, rfl⟩

/-- Putting it on hold. -/
theorem Log.holdHighWatermark_cases (l : Log) :
    l.holdHighWatermark = l ∨ l.Before l.holdHighWatermark := by
  cases hhold : l.holdHWM with
  | true => exact .inl (by rw [Log.holdHighWatermark, ← hhold])
  | false => exact .inr (Log.Before.of_mark (.inr ⟨rfl, by rw [hhold]; decide⟩))

/-! ### Segments -/

/-- The segment has no room for another byte, and its index would not get an entry. -/
def Segment.Full (s : Segment) : Prop :=
  s.logSize < 0 ∧ s.index ≠ [] ∧ s.bytesSinceIdx < s.indexInterval

instance (s : Segment) : Decidable s.Full := inferInstanceAs (Decidable (_ ∧ _ ∧ _))

/-- The index file does not get shorter, and stays as it is only if nothing changes. -/
theorem Segment.indexBatch_cases (s : Segment) (baseOffset : ℤ) :
    (s.indexBatch baseOffset = s ∧ s.index ≠ [] ∧ s.bytesSinceIdx < s.indexInterval) ∨
      (s.idxFile.length < (s.indexBatch baseOffset).idxFile.length ∧
        ¬ (s.index ≠ [] ∧ s.bytesSinceIdx < s.indexInterval)) := by
  unfold Segment.indexBatch
  split
  · next h =>
    refine .inr ⟨?_, fun hne => ?_⟩
    · simp [length_encodeIndexEntry]
    · rcases h with h | h
      · exact hne.1 h
      · exact absurd hne.2 (not_lt.mpr h)
  · next h =>
    rw [not_or, not_le] at h
    exact .inl ⟨rfl, h.1, h.2⟩

/-- **A write** is without a trace in a full segment, and leaves bytes in any other. -/
theorem Segment.append_cases {s : Segment}
    (hsize : 0 ≤ s.logSize → s.logSize = s.logFile.length) (now baseOffset : ℤ) {b : Bytes}
    (hb : b ≠ []) :
    (s.Full ∧ s.append now b baseOffset = (s, some .writeAt)) ∨
      (¬ s.Full ∧ s.logFile.length + s.idxFile.length
        < (s.append now b baseOffset).1.logFile.length
          + (s.append now b baseOffset).1.idxFile.length) := by
  have hpos := List.length_pos_iff.mpr hb
  obtain ⟨-, hfile, hlog⟩ := indexBatch_kept s baseOffset
  rcases happ : s.append now b baseOffset with ⟨s', _ | e⟩
  · -- the file gets the batch, and the index file does not get shorter
    obtain ⟨-, hnonneg, hfile', -⟩ := segment_append_ok hsize happ
    have hidx : s'.idxFile = (s.indexBatch baseOffset).idxFile := by
      unfold Segment.append at happ
      dsimp only at happ
      split at happ
      · exact absurd (Prod.mk.inj happ).2 (by simp)
      · rw [← (Prod.mk.inj happ).1]
    refine .inr ⟨fun hfull => absurd hfull.1 (not_lt.mpr hnonneg), ?_⟩
    dsimp only
    rw [hfile', hidx, List.length_append]
    rcases s.indexBatch_cases baseOffset with ⟨heq, -⟩ | ⟨hlt, -⟩
    · rw [heq]; omega
    · omega
  · -- nothing is written at a negative position, but the index comes first
    unfold Segment.append at happ
    dsimp only at happ
    split at happ
    · next hwrite =>
      obtain ⟨rfl, herr⟩ := Prod.mk.inj happ
      have hneg : s.logSize < 0 := by
        by_contra hge
        rw [hlog, writeAt, if_neg hge] at hwrite
        cases hwrite
      rcases s.indexBatch_cases baseOffset with ⟨heq, hidx⟩ | ⟨hlt, hidx⟩
      · exact .inl ⟨⟨hneg, hidx⟩, by rw [heq, herr]⟩
      · refine .inr ⟨fun hfull => hidx hfull.2, ?_⟩
        dsimp only
        rw [hfile]
        omega
    · exact absurd (Prod.mk.inj happ).2 (by simp)

/-! ### Appends -/

/-- The size of the active segment is that of its file, or has become negative, where
nothing can be written any more; and segments with one base offset have one file. -/
structure Log.Accurate (l : Log) : Prop where
  size : 0 ≤ l.active.logSize → l.active.logSize = l.active.logFile.length
  size_lt : l.active.logSize < 2147483648
  shared : ∀ s ∈ l.sealed, Log.shareFiles l.active s = s

/-- A batch that the log refuses without a trace: one that is too short to be stamped, one
whose header does not parse where no roll is due, and any batch for a full segment. -/
def Log.Declines (l : Log) (batch : Bytes) : Prop :=
  batch.length < offAttributes ∨ (¬ Parses batch ∧ l.needsRoll batch.length = false) ∨
    l.active.Full

instance (l : Log) (batch : Bytes) : Decidable (l.Declines batch) :=
  inferInstanceAs (Decidable (_ ∨ _ ∨ _))

theorem Parses.offAttributes_le {b : Bytes} (h : Parses b) : offAttributes ≤ b.length := by
  have := h.1
  unfold headerSize at this
  unfold offAttributes
  omega

theorem Parses.stamp_ne_nil {b : Bytes} (h : Parses b) (base : ℤ) : stamp base b ≠ [] := by
  rw [← List.length_pos_iff, length_stamp h.1]
  exact Nat.lt_of_lt_of_le (by decide) h.1

theorem shareFiles_shareFiles (s t : Segment) :
    Log.shareFiles s (Log.shareFiles s t) = Log.shareFiles s t := by
  unfold Log.shareFiles
  split
  · simp
  · simp

theorem accurate_create (cfg : Config) (now : ℤ) : (Log.create cfg now).Accurate :=
  ⟨fun _ => rfl, (by decide : (0 : ℤ) < 2147483648), fun s hs => absurd hs List.not_mem_nil⟩

/-- A log that needs no roll, or has just rolled. -/
theorem Log.rollFor_cases (l : Log) (now base : ℤ) (n : ℕ) :
    (l.needsRoll n = false ∧ l.rollFor now base n = l) ∨
      (l.needsRoll n = true ∧ l.rollFor now base n = l.roll now base) := by
  unfold Log.rollFor
  cases l.needsRoll n with
  | true => exact .inr ⟨rfl, rfl⟩
  | false => exact .inl ⟨rfl, rfl⟩

theorem Log.length_sealed_roll (l : Log) (now base : ℤ) :
    (l.roll now base).sealed.length = l.sealed.length + 1 := by
  simp [Log.roll, Log.segments]

namespace Log.Accurate

variable {l : Log}

theorem roll (l : Log) (now base : ℤ) : (l.roll now base).Accurate := by
  refine ⟨fun _ => rfl, by simp [Log.roll, createSegment], fun s hs => ?_⟩
  obtain ⟨t, -, rfl⟩ := List.mem_map.mp hs
  exact shareFiles_shareFiles _ t

theorem rollFor (h : l.Accurate) (now base : ℤ) (n : ℕ) : (l.rollFor now base n).Accurate := by
  rcases l.rollFor_cases now base n with ⟨-, heq⟩ | ⟨-, heq⟩
  · rwa [heq]
  · rw [heq]
    exact roll l now base

/-- Writing to the active segment. -/
theorem setActive {s : Segment} (hsize : 0 ≤ s.logSize → s.logSize = s.logFile.length)
    (hlt : s.logSize < 2147483648) (l : Log) : (l.setActive s).Accurate := by
  refine ⟨hsize, hlt, fun t ht => ?_⟩
  obtain ⟨u, -, rfl⟩ := List.mem_map.mp ht
  exact shareFiles_shareFiles _ u

theorem setActive_self (h : l.Accurate) : l.setActive l.active = l := by
  have hmap : l.sealed.map (Log.shareFiles l.active) = l.sealed :=
    (List.map_congr_left h.shared).trans (List.map_id _)
  rw [Log.setActive, hmap]

theorem of_mark (h : l.Accurate) (next hwm : ℤ) (hold dirty : Bool) :
    Log.Accurate { l with nextOffset := next, highWatermark := hwm, holdHWM := hold, dirty := dirty } :=
  ⟨h.size, h.size_lt, h.shared⟩

theorem setHighWatermark (h : l.Accurate) (x : ℤ) : (l.setHighWatermark x).Accurate := by
  unfold Log.setHighWatermark
  dsimp only
  generalize (if l.nextOffset < x then l.nextOffset else x) = hwm
  split
  · exact h.of_mark _ _ _ _
  · exact h

/-- What is written, or refused, leaves the sizes right. -/
theorem segment_append (h : l.Accurate) {now baseOffset : ℤ} {b : Bytes} (hb : b.length < 2147483648)
    (l' : Log) : (l'.setActive (l.active.append now b baseOffset).1).Accurate := by
  rcases happ : l.active.append now b baseOffset with ⟨s, _ | e⟩
  · obtain ⟨-, hpos, hfile, hsize⟩ := segment_append_ok h.size happ
    have hlen := h.size hpos
    have hlt := h.size_lt
    have hwrap := wrap32_bounds (l.active.logSize + wrap32 b.length)
    refine setActive (fun hpos' => ?_) (by dsimp only; omega) l'
    dsimp only at hpos' ⊢
    rw [hfile, List.length_append]
    rw [hsize] at hpos' ⊢
    unfold wrap32 at hpos' ⊢
    omega
  · obtain ⟨-, hfile, hsize⟩ := segment_append_error happ
    refine setActive (fun hpos' => ?_) (hsize ▸ h.size_lt) l'
    dsimp only at hpos' ⊢
    rw [hsize, hfile]
    exact h.size (hsize ▸ hpos')

variable {batch : Bytes}

/-- An append leaves the sizes right. -/
theorem append (h : l.Accurate) (now : ℤ) (hb : batch.length < 2147483648) :
    (l.append now batch).1.Accurate := by
  have hroll := h.rollFor now l.nextOffset batch.length
  have hwrite : Parses batch → ((l.rollFor now l.nextOffset batch.length).setActive
      ((l.rollFor now l.nextOffset batch.length).active.append now (stamp l.nextOffset batch)
        l.nextOffset).1).Accurate :=
    fun hparses => hroll.segment_append (by rwa [length_stamp hparses.1]) _
  rcases append_cases l now batch with
    ⟨-, hl⟩ | ⟨-, -, e, hl⟩ | ⟨s, e, hparses, hs, hl⟩ | ⟨s, hparses, hs, hl⟩ <;> rw [hl]
  · exact h
  · exact hroll
  · have := hwrite hparses
    rwa [hs] at this
  · have := hwrite hparses
    rw [hs] at this
    exact this.of_mark _ _ _ _

/-- Nothing that is declined makes the log roll. -/
theorem needsRoll_of_declines (hd : l.Declines batch) (hlong : offAttributes ≤ batch.length) :
    l.needsRoll batch.length = false := by
  rcases hd with hshort | ⟨-, hroll⟩ | hfull
  · omega
  · exact hroll
  · rw [Log.needsRoll, decide_eq_false (not_lt.mpr hfull.1.le), Bool.false_and]

/-- **What is declined leaves no trace.** -/
theorem append_of_declines (h : l.Accurate) (hd : l.Declines batch) (now : ℤ) :
    ∃ e, l.append now batch = (l, .error e) := by
  have hsame : offAttributes ≤ batch.length → l.rollFor now l.nextOffset batch.length = l := by
    intro hlong
    rw [Log.rollFor, needsRoll_of_declines hd hlong]
    rfl
  -- a batch whose header parses is declined by a full segment only
  have hfull : Parses batch → l.active.Full := by
    intro hparses
    rcases hd with hshort | ⟨hnot, -⟩ | hfull
    · exact absurd hparses.offAttributes_le (by omega)
    · exact absurd hparses hnot
    · exact hfull
  have hwrite : Parses batch →
      (l.rollFor now l.nextOffset batch.length).active.append now (stamp l.nextOffset batch)
        l.nextOffset = (l.active, some .writeAt) := by
    intro hparses
    rw [hsame (hparses.offAttributes_le)]
    rcases Segment.append_cases h.size now l.nextOffset
      (hparses.stamp_ne_nil l.nextOffset) with ⟨-, happ⟩ | ⟨hnot, -⟩
    · exact happ
    · exact absurd (hfull hparses) hnot
  rcases append_cases l now batch with
    ⟨-, hl⟩ | ⟨hlong, -, e, hl⟩ | ⟨s, e, hparses, hs, hl⟩ | ⟨s, hparses, hs, hl⟩
  · exact ⟨_, hl⟩
  · exact ⟨_, by rw [hl, hsame hlong]⟩
  · rw [hwrite hparses] at hs
    obtain ⟨rfl, -⟩ := Prod.mk.inj hs
    exact ⟨_, by rw [hl, hsame hparses.offAttributes_le, h.setActive_self]⟩
  · rw [hwrite hparses] at hs
    exact absurd (Prod.mk.inj hs).2 (by simp)

/-- **What is not declined moves the log on**, whether it is accepted or not. -/
theorem before_append (h : l.Accurate) (hd : ¬ l.Declines batch) (now : ℤ) :
    l.Before (l.append now batch).1 := by
  rw [Log.Declines, not_or, not_or, not_and, Bool.not_eq_false] at hd
  obtain ⟨hlong, hroll, hfull⟩ := hd
  -- a write counts by itself if there is no roll before it
  have hwrite : ∀ l' : Log, Parses batch →
      l'.sealed.length = (l.rollFor now l.nextOffset batch.length).sealed.length →
      l'.active = ((l.rollFor now l.nextOffset batch.length).active.append now
        (stamp l.nextOffset batch) l.nextOffset).1 → l.Before l' := by
    intro l' hparses hsealed hactive
    rcases l.rollFor_cases now l.nextOffset batch.length with ⟨-, hsame⟩ | ⟨-, hrolled⟩
    · rw [hsame] at hsealed hactive
      rcases Segment.append_cases h.size now l.nextOffset
        (hparses.stamp_ne_nil l.nextOffset) with ⟨hf, -⟩ | ⟨-, hlt⟩
      · exact absurd hf hfull
      · exact Log.Before.of_bytes hsealed.symm (by rw [hactive]; exact hlt)
    · refine Log.Before.of_sealed ?_
      rw [hsealed, hrolled, Log.length_sealed_roll]
      exact Nat.lt_succ_self _
  rcases append_cases l now batch with
    ⟨hshort, -⟩ | ⟨-, hnot, e, hl⟩ | ⟨s, e, hparses, hs, hl⟩ | ⟨s, hparses, hs, hl⟩
  · exact absurd hshort hlong
  · rw [hl, Log.rollFor, if_pos (hroll hnot)]
    exact Log.Before.of_sealed (by rw [Log.length_sealed_roll]; exact Nat.lt_succ_self _)
  · rw [hl]
    exact hwrite _ hparses (List.length_map _) (by rw [hs]; rfl)
  · rw [hl]
    exact hwrite _ hparses (List.length_map _) (by rw [hs]; rfl)

end Log.Accurate

/-! ### Slices whose header does not parse -/

/-- The append returns an error, and the log is what it was. -/
def Log.Refuses (l : Log) (now : ℤ) (batch : Bytes) : Prop :=
  ∃ e, l.append now batch = (l, .error (.error e))

theorem not_parses_of_error {b : Bytes} (h : ∀ hdr, parseHeader b ≠ .ok hdr) : ¬ Parses b :=
  fun hparses => h (header b) (parseHeader_eq_ok.mpr ⟨hparses.1, hparses.2, rfl⟩)

/-- **A slice whose header does not parse** is refused without a trace if and only if it
is long enough for the offset and the checksum that are written into it first, and there is
room for it in the active segment. -/
theorem refuses_iff (l : Log) (now : ℤ) {b : Bytes} (h : ∀ hdr, parseHeader b ≠ .ok hdr) :
    l.Refuses now b ↔ offAttributes ≤ b.length ∧ l.needsRoll b.length = false := by
  have hnot := not_parses_of_error h
  rcases append_cases l now b with
    ⟨hshort, hl⟩ | ⟨hlong, -, e, hl⟩ | ⟨s, e, hparses, -⟩ | ⟨s, hparses, -⟩
  · -- the checksum of a short slice panics
    refine ⟨?_, fun hcond => absurd hcond.1 (by omega)⟩
    rintro ⟨e, he⟩
    rw [hl] at he
    cases (Prod.mk.inj he).2
  · rcases l.rollFor_cases now l.nextOffset b.length with ⟨hroll, hsame⟩ | ⟨hroll, hrolled⟩
    · rw [hsame] at hl
      exact ⟨fun _ => ⟨hlong, hroll⟩, fun _ => ⟨_, hl⟩⟩
    · -- the new segment stays when the slice is refused
      refine ⟨?_, fun hcond => absurd (hroll.symm.trans hcond.2) (by decide)⟩
      rintro ⟨e', he⟩
      rw [hl, hrolled] at he
      have hlen := congrArg (fun r => r.1.sealed.length) he
      simp only [Log.length_sealed_roll] at hlen
      omega
  · exact absurd hparses hnot
  · exact absurd hparses hnot

/-- A slice of fifty bytes, on a log with room for it. -/
theorem short_slice_refused :
    (Log.create ⟨1000, 4096⟩ 0).Refuses 1 ((headerOf 38).take 50) :=
  (refuses_iff _ 1 fun hdr hparse =>
    absurd (parseHeader_eq_ok.mp hparse).1 (by decide +kernel)).mpr (by decide +kernel)

/-- **Two slices that a walk passes on**: with fifty bytes the log is left with a new
segment, and with twelve the append panics. -/
theorem short_slices_leave_traces :
    let l := ((Log.create ⟨100, 4096⟩ 0).append 1 (makeBatch 1 [])).1
    passed acceptAll (headerOf 38) () = [(headerOf 38).take 50] ∧
      (headerOf 0).take 12 ∈ passed acceptAll (headerOf 0) () ∧
      l.segments.map (·.baseOffset) = [0] ∧
      (l.append 2 ((headerOf 38).take 50)).1.segments.map (·.baseOffset) = [0, 1] ∧
      (l.append 2 ((headerOf 0).take 12)).2 = .error .panic ∧
      ¬ l.Refuses 2 ((headerOf 38).take 50) ∧ ¬ l.Refuses 2 ((headerOf 0).take 12) := by
  intro l
  have hone : l.segments.map (·.baseOffset) = [0] := by decide +kernel
  have htwo : (l.append 2 ((headerOf 38).take 50)).1.segments.map (·.baseOffset) = [0, 1] := by
    decide +kernel
  have hpanic : (l.append 2 ((headerOf 0).take 12)).2 = .error .panic := by decide +kernel
  refine ⟨by decide +kernel, by decide +kernel, hone, htwo, hpanic, ?_, ?_⟩
  · rintro ⟨e, he⟩
    rw [he, hone] at htwo
    exact absurd htwo (by decide)
  · rintro ⟨e, he⟩
    rw [he] at hpanic
    cases hpanic

end Storage
end Mq
