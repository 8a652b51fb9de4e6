import Mq.Storage.History

/-!
# The calls that change a log

What each call does to the segments and the offsets, for batches with arbitrary headers.
`append_cases` and `appendReplica_cases` say everything that an append can do.  Segments
are only added, with base offsets that go up, as long as every batch moves the log end up.

## Main definitions

* `Mutation`, `Log.mutate` — the calls.
* `Log.Rising` — the base offsets go up, and so will that of the next roll.
* `Log.Advances l m` — the batch of the call `m` moves the log end up, within 64 bits.
* `Log.Steps` — what a call has done to the offsets.

## Main results

* `append_cases`, `appendReplica_cases` — everything that the appends can do.
* `Log.Rising.mutate` — **a call keeps the order of the segments** and moves neither the
  log end nor the high watermark back.
-/

namespace Mq
namespace Storage

open Word Record Transition

/-! ### Calls -/

/-- The calls that change a log. -/
inductive Mutation where
  | append (now : ℤ) (batch : Bytes)
  | appendReplica (now : ℤ) (batch : Bytes)
  | setHighWatermark (hwm : ℤ)
  | holdHighWatermark
  | flush
  | enforceRetention (now maxAgeMs maxBytes : ℤ)
  deriving DecidableEq, Repr

/-- The log after a call. -/
def Log.mutate (l : Log) : Mutation → Log
  | .append now batch => (l.append now batch).1
  | .appendReplica now batch => (l.appendReplica now batch).1
  | .setHighWatermark hwm => l.setHighWatermark hwm
  | .holdHighWatermark => l.holdHighWatermark
  | .flush => l.flush
  | .enforceRetention now maxAgeMs maxBytes => l.enforceRetention now maxAgeMs maxBytes

/-! ### Writing a batch -/

theorem indexBatch_kept (s : Segment) (baseOffset : ℤ) :
    (s.indexBatch baseOffset).baseOffset = s.baseOffset ∧
      (s.indexBatch baseOffset).logFile = s.logFile ∧
      (s.indexBatch baseOffset).logSize = s.logSize := by
  unfold Segment.indexBatch
  split <;> exact ⟨rfl, rfl, rfl⟩

variable {s s' : Segment} {now baseOffset : ℤ} {b : Bytes}

/-- A write that fails leaves the file as it is. -/
theorem segment_append_error {e : Err} (hs : s.append now b baseOffset = (s', some e)) :
    s'.baseOffset = s.baseOffset ∧ s'.logFile = s.logFile ∧ s'.logSize = s.logSize := by
  unfold Segment.append at hs
  dsimp only at hs
  split at hs
  · obtain ⟨rfl, -⟩ := Prod.mk.inj hs
    exact indexBatch_kept s baseOffset
  · exact absurd (Prod.mk.inj hs).2 (by simp)

/-- A write does not change the base offset. -/
theorem segment_append_base {e : Option Err} (hs : s.append now b baseOffset = (s', e)) :
    s'.baseOffset = s.baseOffset := by
  have hkept := (indexBatch_kept s baseOffset).1
  unfold Segment.append at hs
  dsimp only at hs
  split at hs <;> obtain ⟨rfl, -⟩ := Prod.mk.inj hs <;> exact hkept

theorem slice_writeAt {f g : Bytes} {pos : ℤ} (h : writeAt f pos b = some g) :
    slice g pos.toNat b.length = b := by
  rw [writeAt] at h
  split at h
  · cases h
  · cases h
    have hlen : (f.take pos.toNat ++ List.replicate (pos.toNat - f.length) 0).length
        = pos.toNat := by simp; omega
    rw [slice, List.append_assoc, List.drop_left' hlen, List.take_left]

/-- A write that succeeds puts the bytes at the end of the segment. -/
theorem segment_append_written (hs : s.append now b baseOffset = (s', none)) :
    slice s'.logFile s.logSize.toNat b.length = b := by
  obtain ⟨-, -, hlog⟩ := indexBatch_kept s baseOffset
  unfold Segment.append at hs
  dsimp only at hs
  split at hs
  · exact absurd (Prod.mk.inj hs).2 (by simp)
  · next f hwrite =>
    obtain ⟨rfl, -⟩ := Prod.mk.inj hs
    rw [← hlog]
    exact slice_writeAt hwrite

/-- A segment whose size is right, or has become negative, can only extend its file. -/
theorem segment_append_ok (hsize : 0 ≤ s.logSize → s.logSize = s.logFile.length)
    (hs : s.append now b baseOffset = (s', none)) :
    s'.baseOffset = s.baseOffset ∧ 0 ≤ s.logSize ∧ s'.logFile = s.logFile ++ b ∧
      s'.logSize = wrap32 (s.logSize + wrap32 b.length) := by
  obtain ⟨hbase, hfile, hlog⟩ := indexBatch_kept s baseOffset
  unfold Segment.append at hs
  dsimp only at hs
  split at hs
  · exact absurd (Prod.mk.inj hs).2 (by simp)
  · next f hwrite =>
    rw [hlog, hfile] at hwrite
    have hpos : 0 ≤ s.logSize := by
      by_contra hneg
      rw [writeAt, if_pos (by omega)] at hwrite
      cases hwrite
    rw [hsize hpos, writeAt_length] at hwrite
    obtain ⟨rfl, -⟩ := Prod.mk.inj hs
    obtain rfl := Option.some.inj hwrite
    exact ⟨hbase, hpos, rfl, by rw [hlog]⟩

/-! ### The calls -/

/-- The header of the batch parses. -/
def Parses (b : Bytes) : Prop := headerSize ≤ b.length ∧ (header b).magic = 2

instance (b : Bytes) : Decidable (Parses b) := inferInstanceAs (Decidable (_ ∧ _))

theorem length_stamp_of_le (hb : offAttributes ≤ b.length) (base : ℤ) :
    (stamp base b).length = b.length := by
  unfold offAttributes at hb
  have hs : (setBaseOffset b base).length = b.length :=
    length_patch (by simp only [length_putInt64, offBaseOffset]; omega)
  rw [stamp, recomputeCRC, length_patch (by simp only [length_bePut, offCRC]; omega), hs]

/-- Everything that an append can do. -/
theorem append_cases (l : Log) (now : ℤ) (batch : Bytes) :
    (batch.length < offAttributes ∧ l.append now batch = (l, .error .panic)) ∨
    (offAttributes ≤ batch.length ∧ ¬ Parses batch ∧ ∃ e, l.append now batch =
      (l.rollFor now l.nextOffset batch.length, .error (.error (.record e)))) ∨
    (∃ s e, Parses batch ∧
      (l.rollFor now l.nextOffset batch.length).active.append now (stamp l.nextOffset batch)
        l.nextOffset = (s, some e) ∧
      l.append now batch =
        ((l.rollFor now l.nextOffset batch.length).setActive s, .error (.error e))) ∨
    ∃ s, Parses batch ∧
      (l.rollFor now l.nextOffset batch.length).active.append now (stamp l.nextOffset batch)
        l.nextOffset = (s, none) ∧
      l.append now batch =
        ({ (l.rollFor now l.nextOffset batch.length).setActive s with
            nextOffset := wrap64 (l.nextOffset + (header batch).recordCount)
            highWatermark := if l.holdHWM then l.highWatermark
              else wrap64 (l.nextOffset + (header batch).recordCount)
            dirty := true }, .ok l.nextOffset) := by
  by_cases hshort : batch.length < offAttributes
  · exact .inl ⟨hshort, by rw [Log.append, if_pos hshort]⟩
  have hlarge : offAttributes ≤ batch.length := by omega
  have hlen := length_stamp_of_le hlarge l.nextOffset
  right
  unfold Log.append
  rw [if_neg hshort]
  dsimp only
  rw [show recomputeCRC (setBaseOffset batch l.nextOffset) = stamp l.nextOffset batch from rfl, hlen]
  split
  · next e herr =>
    refine .inl ⟨hlarge, fun hparses => ?_, e, rfl⟩
    rw [parseHeader_eq_ok.mpr ⟨hlen ▸ hparses.1, by rw [header_stamp hparses.1]; exact hparses.2,
      rfl⟩] at herr
    cases herr
  · next hd hparse =>
    obtain ⟨hsize, hmagic, rfl⟩ := parseHeader_eq_ok.mp hparse
    have hsize := headerSize_le_of_stamp hlarge hsize
    rw [header_stamp hsize] at hmagic ⊢
    right
    split
    · next s e hs => exact .inl ⟨s, e, ⟨hsize, hmagic⟩, hs, rfl⟩
    · next s hs => exact .inr ⟨s, ⟨hsize, hmagic⟩, hs, rfl⟩

/-- Everything that a replica's append can do. -/
theorem appendReplica_cases (l : Log) (now : ℤ) (batch : Bytes) :
    (∃ e, l.appendReplica now batch = (l, .error (.error e)) ∧
      ((¬ Parses batch) ∨ l.nextOffset < (header batch).baseOffset)) ∨
    (Parses batch ∧ (header batch).baseOffset < l.nextOffset ∧
      l.appendReplica now batch = (l, .ok l.nextOffset)) ∨
    (Parses batch ∧ (header batch).baseOffset = l.nextOffset ∧
      ∃ s, ((∃ e, (l.rollFor now l.nextOffset batch.length).active.append now batch l.nextOffset
            = (s, some e) ∧
          l.appendReplica now batch =
            ((l.rollFor now l.nextOffset batch.length).setActive s, .error (.error e))) ∨
        ((l.rollFor now l.nextOffset batch.length).active.append now batch l.nextOffset
            = (s, none) ∧
          l.appendReplica now batch =
            ({ (l.rollFor now l.nextOffset batch.length).setActive s with
                nextOffset := wrap64 ((header batch).lastOffset + 1)
                dirty := true }, .ok (wrap64 ((header batch).lastOffset + 1)))))) := by
  unfold Log.appendReplica
  split
  · next e hparse =>
    refine .inl ⟨_, rfl, .inl fun hp => ?_⟩
    rw [parseHeader_eq_ok.mpr ⟨hp.1, hp.2, rfl⟩] at hparse
    cases hparse
  · next hd hparse =>
    obtain ⟨hsize, hmagic, rfl⟩ := parseHeader_eq_ok.mp hparse
    split
    · next hlt => exact .inr (.inl ⟨⟨hsize, hmagic⟩, hlt, rfl⟩)
    · split
      · next hgap => exact .inl ⟨_, rfl, .inr hgap⟩
      · next hge hle =>
        have hbase : (header batch).baseOffset = l.nextOffset := by omega
        refine .inr (.inr ⟨⟨hsize, hmagic⟩, hbase, ?_⟩)
        dsimp only
        rw [hbase]
        split
        · next s e hs => exact ⟨s, .inl ⟨e, hs, rfl⟩⟩
        · next s hs => exact ⟨s, .inr ⟨hs, rfl⟩⟩

theorem rollFor_kept (l : Log) (now base : ℤ) (n : ℕ) :
    (l.rollFor now base n).nextOffset = l.nextOffset ∧
      (l.rollFor now base n).highWatermark = l.highWatermark ∧
      (l.rollFor now base n).holdHWM = l.holdHWM := by
  unfold Log.rollFor
  split <;> exact ⟨rfl, rfl, rfl⟩

/-- The high watermark after an append that was accepted. -/
theorem highWatermark_append {l : Log} {base : ℤ} {batch : Bytes}
    (h : (l.append now batch).2 = .ok base) :
    (l.append now batch).1.holdHWM = l.holdHWM ∧
      (l.append now batch).1.highWatermark =
        if l.holdHWM then l.highWatermark else (l.append now batch).1.nextOffset := by
  rcases append_cases l now batch with
    ⟨-, hl⟩ | ⟨-, -, e, hl⟩ | ⟨s, e, -, -, hl⟩ | ⟨s, -, -, hl⟩ <;> rw [hl] at h ⊢
  · cases h
  · cases h
  · cases h
  · exact ⟨(rollFor_kept l now l.nextOffset batch.length).2.2, rfl⟩

/-! ### Segments in order -/

/-- The base offsets of the segments. -/
def Log.bases (l : Log) : List ℤ := l.segments.map (·.baseOffset)

/-- The base offsets go up, and the next roll would get one that is above them all. -/
structure Log.Rising (l : Log) : Prop where
  pairwise : l.bases.Pairwise (· < ·)
  base_le : l.active.baseOffset ≤ l.nextOffset
  base_lt : 0 < l.active.logSize → l.active.baseOffset < l.nextOffset
  nonneg : 0 ≤ l.nextOffset

/-- The batch of the call moves the log end up, within 64 bits. -/
def Log.Advances (l : Log) : Mutation → Prop
  | .append _ batch => 1 ≤ (header batch).recordCount ∧
      l.nextOffset + (header batch).recordCount < 9223372036854775808
  | .appendReplica _ batch => 0 ≤ (header batch).lastOffsetDelta ∧
      l.nextOffset + (header batch).lastOffsetDelta + 1 < 9223372036854775808
  | _ => True

instance (l : Log) (m : Mutation) : Decidable (l.Advances m) := by
  cases m <;> unfold Log.Advances <;> infer_instance

/-- What a call other than retention has done: segments were only added, and the log end
and the high watermark are the given ones. -/
structure Log.Steps (l l' : Log) (next hwm : ℤ) : Prop where
  rising : l'.Rising
  bases : l.bases <+: l'.bases
  next : l'.nextOffset = next
  hwm : l'.highWatermark = hwm

theorem bases_eq (l : Log) : l.bases = l.sealed.map (·.baseOffset) ++ [l.active.baseOffset] := by
  rw [Log.bases, Log.segments, List.map_append, List.map_singleton]

/-- Writing to the active segment changes no base offset. -/
theorem bases_setActive (l : Log) (hbase : s.baseOffset = l.active.baseOffset) :
    (l.setActive s).bases = l.bases := by
  have hshare : ∀ t, (Log.shareFiles s t).baseOffset = t.baseOffset := by
    intro t
    unfold Log.shareFiles
    split <;> rfl
  rw [bases_eq, bases_eq]
  change (l.sealed.map (Log.shareFiles s)).map _ ++ [s.baseOffset] = _
  rw [List.map_map, hbase]
  exact congrArg (· ++ _) (List.map_congr_left fun t _ => hshare t)

namespace Log.Rising

variable {l : Log} (h : l.Rising)
include h

theorem sealed_lt : ∀ s ∈ l.sealed, s.baseOffset < l.active.baseOffset := by
  intro s hs
  have := h.pairwise
  rw [bases_eq, List.pairwise_append] at this
  exact this.2.2 _ (List.mem_map_of_mem hs) _ (by simp)

theorem segments_lt (hsize : 0 < l.active.logSize) :
    ∀ s ∈ l.segments, s.baseOffset < l.nextOffset := by
  intro s hs
  have hactive := h.base_lt hsize
  rcases List.mem_append.mp hs with hs | hs
  · exact (h.sealed_lt s hs).trans hactive
  · rwa [List.mem_singleton.mp hs]

/-- A roll opens a file that no segment has. -/
theorem sealed_roll (hsize : 0 < l.active.logSize) (now : ℤ) :
    (l.roll now l.nextOffset).sealed = l.segments :=
  map_shareFiles fun s hs => (h.segments_lt hsize s hs).ne

theorem roll (hsize : 0 < l.active.logSize) (now : ℤ) :
    (l.roll now l.nextOffset).Rising ∧ l.bases <+: (l.roll now l.nextOffset).bases := by
  have hbases : (l.roll now l.nextOffset).bases = l.bases ++ [l.nextOffset] := by
    rw [bases_eq, h.sealed_roll hsize]
    rfl
  refine ⟨⟨?_, le_rfl, fun h => absurd h (lt_irrefl 0), h.nonneg⟩, hbases ▸ List.prefix_append _ _⟩
  rw [hbases]
  refine List.pairwise_append.mpr ⟨h.pairwise, List.pairwise_singleton _ _, ?_⟩
  intro a ha b hb
  obtain ⟨s, hs, rfl⟩ := List.mem_map.mp ha
  rw [List.mem_singleton.mp hb]
  exact h.segments_lt hsize s hs

theorem rollFor (now : ℤ) (n : ℕ) :
    (l.rollFor now l.nextOffset n).Rising ∧ l.bases <+: (l.rollFor now l.nextOffset n).bases := by
  unfold Log.rollFor
  split
  · next hroll =>
    rw [Log.needsRoll, Bool.and_eq_true] at hroll
    exact h.roll (of_decide_eq_true hroll.1) now
  · exact ⟨h, List.prefix_rfl⟩

/-- A write to the active segment, after the roll that it may have needed.  The log end
stays where it is, or moves up. -/
theorem steps_write {now : ℤ} {n : ℕ} {s : Segment} {l' : Log}
    (hbases : l'.bases = ((l.rollFor now l.nextOffset n).setActive s).bases)
    (hactive : l'.active = s)
    (hbase : s.baseOffset = (l.rollFor now l.nextOffset n).active.baseOffset)
    (hnext : l.nextOffset < l'.nextOffset ∨ l'.nextOffset = l.nextOffset ∧
      s.logSize = (l.rollFor now l.nextOffset n).active.logSize) :
    l.Steps l' l'.nextOffset l'.highWatermark := by
  obtain ⟨hroll, hgrown⟩ := h.rollFor now n
  have hkept := (rollFor_kept l now l.nextOffset n).1
  have hle := hroll.base_le
  have hlt := hroll.base_lt
  have hnonneg := h.nonneg
  rw [bases_setActive _ hbase] at hbases
  refine ⟨⟨hbases ▸ hroll.pairwise, ?_, ?_, ?_⟩, hbases ▸ hgrown, rfl, rfl⟩
  · rw [hactive]
    omega
  · rw [hactive]
    intro hpos
    rcases hnext with hnext | ⟨hnext, hsize⟩
    · omega
    · have := hlt (hsize ▸ hpos)
      omega
  · omega

theorem steps_self : l.Steps l l.nextOffset l.highWatermark :=
  ⟨h, List.prefix_rfl, rfl, rfl⟩

/-- A write that fails. -/
theorem steps_write_error {now baseOffset : ℤ} {n : ℕ} {s : Segment} {b : Bytes} {e : Err}
    (hs : (l.rollFor now l.nextOffset n).active.append now b baseOffset = (s, some e)) :
    l.Steps ((l.rollFor now l.nextOffset n).setActive s) l.nextOffset l.highWatermark := by
  obtain ⟨hbase, -, hsize⟩ := segment_append_error hs
  obtain ⟨hnext, hhwm, -⟩ := rollFor_kept l now l.nextOffset n
  have hsteps : l.Steps ((l.rollFor now l.nextOffset n).setActive s) _ _ :=
    h.steps_write rfl rfl hbase (.inr ⟨hnext, hsize⟩)
  exact ⟨hsteps.rising, hsteps.bases, hnext, hhwm⟩

/-- **An append** fails, or moves the log end up by the record count. -/
theorem append {now : ℤ} {batch : Bytes} (hadv : l.Advances (.append now batch)) :
    (∃ e, (l.append now batch).2 = .error e ∧
      l.Steps (l.append now batch).1 l.nextOffset l.highWatermark) ∨
    ((l.append now batch).2 = .ok l.nextOffset ∧
      l.Steps (l.append now batch).1 (l.nextOffset + (header batch).recordCount)
        (if l.holdHWM then l.highWatermark else l.nextOffset + (header batch).recordCount)) := by
  obtain ⟨hcount, hroom⟩ := hadv
  have hnonneg := h.nonneg
  obtain ⟨hroll, hbases⟩ := h.rollFor now batch.length
  obtain ⟨hnext, hhwm, -⟩ := rollFor_kept l now l.nextOffset batch.length
  rcases append_cases l now batch with
    ⟨-, hl⟩ | ⟨-, -, e, hl⟩ | ⟨s, e, -, hs, hl⟩ | ⟨s, -, hs, hl⟩ <;> rw [hl]
  · exact .inl ⟨_, rfl, h.steps_self⟩
  · exact .inl ⟨_, rfl, hroll, hbases, hnext, hhwm⟩
  · exact .inl ⟨_, rfl, h.steps_write_error hs⟩
  · have hwrap : wrap64 (l.nextOffset + (header batch).recordCount)
        = l.nextOffset + (header batch).recordCount := wrap64_eq (by omega) hroom
    rw [hwrap]
    exact .inr ⟨rfl, h.steps_write rfl rfl (segment_append_base hs) (.inl (by dsimp only; omega))⟩

/-- **A replica's append** leaves the offsets alone, or moves the log end past the batch. -/
theorem appendReplica {now : ℤ} {batch : Bytes} (hadv : l.Advances (.appendReplica now batch)) :
    l.Steps (l.appendReplica now batch).1 l.nextOffset l.highWatermark ∨
      l.Steps (l.appendReplica now batch).1 (l.nextOffset + (header batch).lastOffsetDelta + 1)
        l.highWatermark := by
  obtain ⟨hdelta, hroom⟩ := hadv
  have hnonneg := h.nonneg
  obtain ⟨hnext, hhwm, -⟩ := rollFor_kept l now l.nextOffset batch.length
  rcases appendReplica_cases l now batch with
    ⟨e, hl, -⟩ | ⟨-, -, hl⟩ | ⟨-, hbase, s, ⟨e, hs, hl⟩ | ⟨hs, hl⟩⟩ <;> rw [hl]
  · exact .inl h.steps_self
  · exact .inl h.steps_self
  · exact .inl (h.steps_write_error hs)
  · have hlast : wrap64 ((header batch).lastOffset + 1)
        = l.nextOffset + (header batch).lastOffsetDelta + 1 := by
      rw [BatchHeader.lastOffset, hbase,
        wrap64_eq (x := l.nextOffset + (header batch).lastOffsetDelta) (by omega) (by omega),
        wrap64_eq (by omega) hroom]
    rw [hlast]
    have hsteps : l.Steps { (l.rollFor now l.nextOffset batch.length).setActive s with
        nextOffset := l.nextOffset + (header batch).lastOffsetDelta + 1, dirty := true } _ _ :=
      h.steps_write rfl rfl (segment_append_base hs) (.inl (by dsimp only; omega))
    exact .inr ⟨hsteps.rising, hsteps.bases, rfl, hhwm⟩

/-- Dropping the oldest segments leaves the rest in order. -/
theorem of_drop {l' : Log} (hactive : l'.active = l.active)
    (hsealed : ∃ n, l'.sealed = l.sealed.drop n) (hnext : l'.nextOffset = l.nextOffset) :
    l'.Rising := by
  obtain ⟨n, hn⟩ := hsealed
  refine ⟨?_, hactive ▸ hnext ▸ h.base_le, ?_, hnext ▸ h.nonneg⟩
  · refine h.pairwise.sublist (List.Sublist.map _ ?_)
    rw [Log.segments, Log.segments, hactive, hn]
    exact (List.drop_sublist n _).append_right _
  · rw [hactive, hnext]
    exact h.base_lt

/-- A call that changes only the mode or the high watermark. -/
theorem steps_hwm (hwm : ℤ) (hold dirty : Bool) :
    l.Steps { l with highWatermark := hwm, holdHWM := hold, dirty := dirty } l.nextOffset hwm :=
  ⟨h.of_drop rfl ⟨0, rfl⟩ rfl, List.prefix_rfl, rfl, rfl⟩

theorem setHighWatermark (hwm : ℤ) :
    l.Steps (l.setHighWatermark hwm) l.nextOffset
      (if l.highWatermark < min l.nextOffset hwm then min l.nextOffset hwm
        else l.highWatermark) := by
  have hmin : (if l.nextOffset < hwm then l.nextOffset else hwm) = min l.nextOffset hwm := by
    split <;> omega
  unfold Log.setHighWatermark
  rw [hmin]
  dsimp only
  split
  · exact h.steps_hwm _ l.holdHWM l.dirty
  · exact h.steps_self

/-- **A call** other than retention moves neither the log end nor the high watermark back,
and an append that is accepted moves the log end up. -/
theorem mutate (hle : l.highWatermark ≤ l.nextOffset) {m : Mutation} (hadv : l.Advances m)
    (hm : ∀ now maxAgeMs maxBytes, m ≠ .enforceRetention now maxAgeMs maxBytes) :
    ∃ next hwm, l.Steps (l.mutate m) next hwm ∧ l.nextOffset ≤ next ∧ l.highWatermark ≤ hwm ∧
      hwm ≤ next ∧
      ∀ now batch base, m = .append now batch → (l.append now batch).2 = .ok base →
        l.nextOffset < next := by
  cases m with
  | append now batch =>
    have hcount := hadv.1
    rcases h.append hadv with ⟨e, hres, hsteps⟩ | ⟨hres, hsteps⟩
    · refine ⟨_, _, hsteps, le_rfl, le_rfl, hle, fun now' batch' base hm hok => ?_⟩
      obtain ⟨rfl, rfl⟩ := Mutation.append.inj hm
      rw [hres] at hok
      cases hok
    · refine ⟨_, _, hsteps, by omega, ?_, ?_, fun _ _ _ _ _ => by omega⟩ <;> split <;> omega
  | appendReplica now batch =>
    have hdelta := hadv.1
    rcases h.appendReplica hadv with hsteps | hsteps
    · exact ⟨_, _, hsteps, le_rfl, le_rfl, hle, fun _ _ _ hm => by cases hm⟩
    · exact ⟨_, _, hsteps, by omega, le_rfl, by omega, fun _ _ _ hm => by cases hm⟩
  | setHighWatermark hwm =>
    refine ⟨_, _, h.setHighWatermark hwm, le_rfl, ?_, ?_, fun _ _ _ hm => by cases hm⟩ <;>
      split <;> omega
  | holdHighWatermark =>
    exact ⟨_, _, h.steps_hwm l.highWatermark true l.dirty, le_rfl, le_rfl, hle,
      fun _ _ _ hm => by cases hm⟩
  | flush =>
    exact ⟨_, _, h.steps_hwm l.highWatermark l.holdHWM false, le_rfl, le_rfl, hle,
      fun _ _ _ hm => by cases hm⟩
  | enforceRetention now maxAgeMs maxBytes => exact absurd rfl (hm now maxAgeMs maxBytes)

end Log.Rising

theorem rising_create (cfg : Config) (now : ℤ) : (Log.create cfg now).Rising :=
  ⟨by simp [Log.bases, Log.segments, Log.create], le_rfl, fun h => absurd h (lt_irrefl 0), le_rfl⟩

end Storage
end Mq
