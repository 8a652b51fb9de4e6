import Mq.Storage.Recovery

/-!
# Logs that were never trimmed

A replicated partition without retention: its log holds every batch from offset 0 on, so
the batches alone say what the log is.  The operations are described here by what they do
to the batches, the high watermark and the mode of the log, and the layout of the segments
is not mentioned any more.

The sizes that the 32-bit fields of the code can hold are a condition on the appends,
`Log.Room`; a log that was only ever appended to under it stays within them.

## Main definitions

* `Log.Room l bs` — the active segment can take the batches `bs`.
* `Log.Whole` — the log holds everything from offset 0 on, in segments that are not too
  large.

## Main results

* `Log.Whole.append`, `Log.Whole.appendReplica`, `Log.Whole.read`, `Log.Whole.reopen` —
  **the operations in terms of the batches.**
-/

namespace Mq
namespace Storage

open Word Record

/-! ### Room in the active segment -/

/-- The active segment stays below `2 ^ 31` bytes and offsets when the batches are added
to it, and the log end stays below `2 ^ 63`. -/
def Log.Room (l : Log) (bs : List Bytes) : Prop :=
  l.active.logFile.length + bs.flatten.length < 2147483648 ∧
    l.nextOffset - l.active.baseOffset + offsetCount bs < 2147483648 ∧
    l.nextOffset + offsetCount bs < 9223372036854775808

instance (l : Log) (bs : List Bytes) : Decidable (l.Room bs) :=
  inferInstanceAs (Decidable (_ ∧ _ ∧ _))

/-- What the size of a part may be. -/
def Part.Small (p : Part) : Prop := p.bytes.length < 2147483648 ∧ p.stop - p.base < 2147483648

/-- An append that has room leaves small segments, and uses up no more room than the
batch takes. -/
theorem Layout.append_small (y : Layout) (segmentBytes now : ℤ) {b : Bytes} (hw : WellFormed b)
    (hb : (header b).baseOffset = y.last.stop)
    (hf : y.last.stop + (header b).recordCount < 9223372036854775808)
    (hsmall : ∀ p ∈ y.parts, p.Small) (hbytes : y.last.bytes.length + b.length < 2147483648)
    (hspan : y.last.stop - y.last.base + (header b).recordCount < 2147483648) :
    (∀ p ∈ (y.append segmentBytes now b hw hb hf).parts, p.Small) ∧
      (y.append segmentBytes now b hw hb hf).last.bytes.length ≤ y.last.bytes.length + b.length ∧
      y.last.base ≤ (y.append segmentBytes now b hw hb hf).last.base := by
  have hstop := y.append_stop segmentBytes now hw hb hf
  have hle := y.last.chained.le
  have hcount := hw.2.2
  rcases y.append_cases segmentBytes now hw hb hf with
    ⟨hclosed, hbase, hbatches⟩ | ⟨-, hclosed, hbase, hbatches⟩
  · have hlen : (y.append segmentBytes now b hw hb hf).last.bytes.length
        = y.last.bytes.length + b.length := by
      rw [Part.bytes, hbatches, Part.bytes, List.flatten_append, List.length_append]
      simp
    refine ⟨?_, by omega, by omega⟩
    intro p hp
    rw [Layout.parts, hclosed] at hp
    rcases List.mem_append.mp hp with hp | hp
    · exact hsmall p (List.mem_append_left _ hp)
    · rw [List.mem_singleton.mp hp]
      exact ⟨by omega, by rw [hstop, hbase]; omega⟩
  · have hlen : (y.append segmentBytes now b hw hb hf).last.bytes.length = b.length := by
      rw [Part.bytes, hbatches]
      simp
    refine ⟨?_, by omega, by omega⟩
    intro p hp
    rw [Layout.parts, hclosed] at hp
    rcases List.mem_append.mp hp with hp | hp
    · exact hsmall p hp
    · rw [List.mem_singleton.mp hp]
      exact ⟨by omega, by rw [hstop, hbase]; omega⟩

/-! ### Whole logs -/

/-- The log holds everything from offset 0 on, its segments are small, and its high
watermark lies between the two ends. -/
structure Log.Whole (l : Log) : Prop where
  layout : ∃ y : Layout, l.Holds y ∧ y.start = 0 ∧ ∀ p ∈ y.parts, p.Small
  nonneg : 0 ≤ l.highWatermark
  le_next : l.highWatermark ≤ l.nextOffset

theorem whole_create (cfg : Config) (now : ℤ) : (Log.create cfg now).Whole := by
  refine ⟨⟨Layout.empty now, (Log.Holds.of_open_nil (open_nil cfg now)).2, rfl, ?_⟩, le_rfl, le_rfl⟩
  intro p hp
  rw [List.mem_singleton.mp hp]
  show (0 : ℕ) < 2147483648 ∧ (0 : ℤ) - 0 < 2147483648
  exact ⟨by decide, by decide⟩

/-- A replica's append leaves the high watermark and the mode alone. -/
theorem appendReplica_kept (l : Log) (now : ℤ) (b : Bytes) :
    (l.appendReplica now b).1.highWatermark = l.highWatermark ∧
      (l.appendReplica now b).1.holdHWM = l.holdHWM := by
  have hroll : ∀ base n, (l.rollFor now base n).highWatermark = l.highWatermark ∧
      (l.rollFor now base n).holdHWM = l.holdHWM := by
    intro base n
    unfold Log.rollFor
    split <;> exact ⟨rfl, rfl⟩
  unfold Log.appendReplica
  split
  · exact ⟨rfl, rfl⟩
  · split
    · exact ⟨rfl, rfl⟩
    · split
      · exact ⟨rfl, rfl⟩
      · dsimp only
        split <;> exact hroll _ _

namespace Log.Whole

variable {l : Log} (h : l.Whole)
include h

/-- The batches of a whole log cover its offsets. -/
theorem chained : Chained 0 l.batches l.nextOffset := by
  obtain ⟨y, hy, hstart, -⟩ := h.layout
  have := y.chained
  rwa [hstart, ← hy.batches, ← hy.next] at this

theorem nextOffset_eq : l.nextOffset = offsetCount l.batches := by
  have := h.chained.stop_eq
  omega

theorem earliestOffset_eq : l.earliestOffset = 0 := by
  obtain ⟨y, hy, hstart, -⟩ := h.layout
  rw [hy.earliestOffset, hstart]

theorem lastOffset_eq {b : Bytes} (hb : b ∈ l.batches) :
    (header b).lastOffset = (header b).baseOffset + (header b).recordCount - 1 := by
  obtain ⟨y, hy, -, -⟩ := h.layout
  rw [hy.batches] at hb
  exact y.lastOffset hb

/-- The high watermark and the mode may be anything that they can be. -/
theorem of_eq {hwm : ℤ} (hold : Bool) (h₀ : 0 ≤ hwm) (h₁ : hwm ≤ l.nextOffset) :
    ({ l with highWatermark := hwm, holdHWM := hold } : Log).Whole := by
  obtain ⟨y, hy, hstart, hsmall⟩ := h.layout
  exact ⟨⟨y, ⟨hy.sealed, hy.active, hy.next⟩, hstart, hsmall⟩, h₀, h₁⟩

theorem holdHighWatermark : l.holdHighWatermark.Whole :=
  h.of_eq true h.nonneg h.le_next

/-- The high watermark only moves forward, and not past the log end. -/
theorem setHighWatermark (hwm : ℤ) :
    ∃ x, l.setHighWatermark hwm = { l with highWatermark := x } ∧ l.highWatermark ≤ x ∧
      x ≤ l.nextOffset ∧ (x = l.highWatermark ∨ x = min l.nextOffset hwm) := by
  have hle := h.le_next
  rw [Log.setHighWatermark]
  by_cases hlt : l.nextOffset < hwm
  · simp only [if_pos hlt, min_eq_left_of_lt hlt]
    split
    · exact ⟨_, rfl, hle, le_rfl, .inr rfl⟩
    · exact ⟨l.highWatermark, rfl, le_rfl, hle, .inl rfl⟩
  · simp only [if_neg hlt, min_eq_right (not_lt.mp hlt)]
    split
    · next h' => exact ⟨_, rfl, h'.le, not_lt.mp hlt, .inr rfl⟩
    · exact ⟨l.highWatermark, rfl, le_rfl, hle, .inl rfl⟩

/-! ### Appends -/

/-- **A leader's append** stores the batch, stamped with the log end. -/
theorem append (now : ℤ) {batch : Bytes} (hw : WellFormed batch) {rest : List Bytes}
    (hroom : l.Room (batch :: rest)) (hrest : 0 ≤ offsetCount rest) :
    ∃ l', l.append now batch = (l', .ok l.nextOffset) ∧ l'.Whole ∧ l'.Room rest ∧
      l'.batches = l.batches ++ [stamp l.nextOffset batch] ∧ l'.holdHWM = l.holdHWM ∧
      l'.highWatermark = if l.holdHWM then l.highWatermark else l'.nextOffset := by
  obtain ⟨y, hy, hstart, hsmall⟩ := h.layout
  obtain ⟨hbytes, hspan, hmax⟩ := hroom
  rw [List.flatten_cons, List.length_append] at hbytes
  rw [offsetCount_cons] at hspan hmax
  rw [hy.active, ofPart_logFile] at hbytes
  rw [hy.active, ofPart_baseOffset, hy.next] at hspan
  rw [hy.next] at hmax
  have hf : y.last.stop + (header batch).recordCount < 9223372036854775808 := by omega
  have hlast : y.last.bytes.length < 2147483648 := (hsmall y.last (by simp [Layout.parts])).1
  obtain ⟨s, -, -, heq⟩ := hy.append_eq now hw hlast
  obtain ⟨hok, hH⟩ := hy.append now hw hlast hf
  have hstamp := length_stamp hw.1.1 y.last.stop
  have hcount := y.stamp_recordCount hw
  obtain ⟨hsmall', hlen, hbase⟩ := y.append_small l.cfg.segmentBytes now
    (wellFormed_stamp hw y.last.stop) (y.stamp_baseOffset hw) (by rw [hcount]; exact hf) hsmall
    (by rw [hstamp]; omega) (by rw [hcount]; omega)
  have hstop := y.produce_stop hw l.cfg.segmentBytes now hf
  -- the fields that the layout does not speak of
  have hhwm : (l.append now batch).1.highWatermark
      = if l.holdHWM then l.highWatermark else (l.append now batch).1.nextOffset := by
    rw [heq]
  have hhold : (l.append now batch).1.holdHWM = l.holdHWM := by
    rw [heq]
    show (l.rollFor now y.last.stop batch.length).holdHWM = l.holdHWM
    unfold Log.rollFor
    split <;> rfl
  have hpos := hw.2.2
  have hle := h.le_next
  have hnonneg := h.nonneg
  rw [hy.next] at hle
  refine ⟨_, Prod.ext rfl (by rw [hok, hy.next]), ⟨⟨_, hH, ?_, hsmall'⟩, ?_, ?_⟩, ?_, ?_, hhold, hhwm⟩
  · rw [y.produce_start hw, hstart]
  · rw [hhwm, hH.next, hstop]
    split <;> omega
  · rw [hhwm, hH.next, hstop]
    split <;> omega
  · refine ⟨?_, ?_, ?_⟩
    · rw [hH.active, ofPart_logFile]
      show (y.produce hw l.cfg.segmentBytes now hf).last.bytes.length + _ < _
      have hlen : (y.produce hw l.cfg.segmentBytes now hf).last.bytes.length
          ≤ y.last.bytes.length + (stamp y.last.stop batch).length := hlen
      omega
    · rw [hH.active, ofPart_baseOffset, hH.next, hstop]
      have hbase : y.last.base ≤ (y.produce hw l.cfg.segmentBytes now hf).last.base := hbase
      omega
    · rw [hH.next, hstop]
      omega
  · rw [hH.batches, y.produce_batches hw, hy.batches, hy.next]

/-- **A replica's append**: a batch below the log end is skipped, one at the log end is
stored, one above is refused. -/
theorem appendReplica (now : ℤ) {b : Bytes} (hw : WellFormed b) {rest : List Bytes}
    (hroom : l.Room (b :: rest)) (hrest : 0 ≤ offsetCount rest) :
    ((header b).baseOffset < l.nextOffset ∧ l.Room rest ∧
        l.appendReplica now b = (l, .ok l.nextOffset)) ∨
      (l.nextOffset < (header b).baseOffset ∧
        ∃ e, l.appendReplica now b = (l, .error e)) ∨
      ((header b).baseOffset = l.nextOffset ∧ ∃ l' next, l.appendReplica now b = (l', .ok next) ∧
        l'.Whole ∧ l'.Room rest ∧ l'.batches = l.batches ++ [b] ∧ l'.holdHWM = l.holdHWM ∧
        l'.highWatermark = l.highWatermark) := by
  obtain ⟨y, hy, hstart, hsmall⟩ := h.layout
  have hroom' := hroom
  obtain ⟨hbytes, hspan, hmax⟩ := hroom
  rw [List.flatten_cons, List.length_append] at hbytes
  rw [offsetCount_cons] at hspan hmax
  have hpos := hw.2.2
  rcases lt_trichotomy (header b).baseOffset l.nextOffset with hlt | heq | hgt
  · refine .inl ⟨hlt, ⟨by omega, by omega, by omega⟩, Log.Holds.appendReplica_of_lt hw.1 now hlt⟩
  · refine .inr (.inr ⟨heq, ?_⟩)
    rw [hy.active, ofPart_logFile] at hbytes
    rw [hy.active, ofPart_baseOffset, hy.next] at hspan
    rw [hy.next] at hmax heq
    have hf : y.last.stop + (header b).recordCount < 9223372036854775808 := by omega
    have hlast : y.last.bytes.length < 2147483648 := (hsmall y.last (by simp [Layout.parts])).1
    obtain ⟨hok, hH⟩ := hy.appendReplica now hw heq hf hlast
    obtain ⟨hsmall', hlen, hbase⟩ := y.append_small l.cfg.segmentBytes now hw heq hf hsmall
      (by omega) (by omega)
    have hstop := y.append_stop l.cfg.segmentBytes now hw heq hf
    have hkept := appendReplica_kept l now b
    have hle := h.le_next
    rw [hy.next] at hle
    refine ⟨_, _, Prod.ext rfl hok, ⟨⟨_, hH, ?_, hsmall'⟩, ?_, ?_⟩, ⟨?_, ?_, ?_⟩, ?_, hkept.2, hkept.1⟩
    · rw [y.append_start, hstart]
    · rw [hkept.1]; exact h.nonneg
    · rw [hkept.1, hH.next, hstop]; omega
    · rw [hH.active, ofPart_logFile]; omega
    · rw [hH.active, ofPart_baseOffset, hH.next, hstop]; omega
    · rw [hH.next, hstop]; omega
    · rw [hH.batches, y.append_batches, hy.batches]
  · refine .inr (.inl ⟨hgt, ?_⟩)
    rw [Log.appendReplica, hw.1.parseHeader]
    dsimp only
    rw [if_neg (by omega), if_pos hgt]
    exact ⟨_, rfl⟩

/-! ### Reads and reopening -/

/-- **A read** inside the log returns consecutive batches, the first of which contains the
offset. -/
theorem read {o : ℤ} (ho₀ : 0 ≤ o) (ho₁ : o < l.nextOffset) (maxBytes : ℤ) :
    ∃ pre b bs post, l.batches = pre ++ b :: (bs ++ post) ∧
      (header b).baseOffset ≤ o ∧ o < (header b).baseOffset + (header b).recordCount ∧
      l.read o maxBytes = .ok ((b :: bs).flatten, none) := by
  obtain ⟨y, hy, hstart, hsmall⟩ := h.layout
  rw [hy.next] at ho₁
  obtain ⟨pre, p, post, bpre, b, bpost, hp, hbs, hb₀, hb₁⟩ :=
    y.exists_covers (o := o) (by omega) (by omega)
  obtain ⟨hbytes, hspan⟩ := hsmall p (by rw [hp]; simp)
  obtain ⟨rest, hrest⟩ := greedy_isPrefix maxBytes b.length bpost
  refine ⟨pre.flatMap Part.batches ++ bpre, b, greedy maxBytes b.length bpost,
    rest ++ post.flatMap Part.batches, ?_, hb₀, hb₁, ?_⟩
  · rw [hy.batches, Layout.batches, hp, ← List.append_assoc, hrest]
    simp [hbs]
  · rw [hy.read hp hbytes hspan hbs hb₀ hb₁]
    rfl

omit h in
theorem read_end (l : Log) (maxBytes : ℤ) : l.read l.nextOffset maxBytes = .ok ([], none) := by
  rw [Log.read, if_pos rfl]

theorem read_out {o : ℤ} (ho : o < 0 ∨ l.nextOffset < o) (maxBytes : ℤ) :
    l.read o maxBytes = .ok ([], some .offsetOutOfRange) := by
  have := h.nonneg
  have := h.le_next
  have := h.earliestOffset_eq
  rw [Log.read, if_neg (by omega), if_pos (by omega)]

/-- **Reopening** brings back the batches; the high watermark is then the log end, and the
log is not on hold. -/
theorem reopen (now : ℤ) :
    ∃ r, Log.open l.cfg now l.dir = .ok r ∧ r.Whole ∧ r.batches = l.batches ∧
      r.highWatermark = r.nextOffset ∧ r.holdHWM = false := by
  obtain ⟨y, hy, hstart, hsmall⟩ := h.layout
  have hlast : y.last.bytes.length < 2147483648 := (hsmall y.last (by simp [Layout.parts])).1
  obtain ⟨r, y', hr, -, hhwm, hhold, hH, hbatches, hstart', -, hparts⟩ := open_dir hy hlast now
  have hsmall' : ∀ p ∈ y'.parts, p.Small := by
    have := congrArg (fun xs => ∀ t ∈ xs, t.1.length < 2147483648 ∧ t.2.2 - t.2.1 < 2147483648) hparts
    simp only [List.forall_mem_map, eq_iff_iff] at this
    exact this.mpr hsmall
  refine ⟨r, hr, ⟨⟨y', hH, by rw [hstart', hstart], hsmall'⟩, ?_, hhwm.le⟩, ?_, hhwm, hhold⟩
  · rw [hhwm, hH.next]
    exact y'.stop_nonneg
  · rw [hH.batches, hbatches, hy.batches]

end Log.Whole

end Storage
end Mq
