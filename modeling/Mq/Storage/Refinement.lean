import Mq.Storage.Layout

/-!
# The log refines its layout

As long as no segment outgrows the 32-bit sizes and the offsets stay inside 64
bits, each operation of the code takes a log that holds a layout to one that
holds the layout after the abstract operation, and a read returns what the layout
says.

## Main definitions

* `Log.Holds l y` — the log `l` holds the layout `y`.

## Main results

* `Log.Holds.append`, `Log.Holds.appendReplica`, `Log.Holds.enforceRetention` —
  **the refinement**, one theorem for each operation.
* `Log.Holds.read` — **the read specification of a log.**
-/

namespace Mq
namespace Storage

open Word Record

/-! ### Closed segments -/

/-- What matters of a segment that is closed: its count of bytes since the last
index entry is not read again. -/
def Segment.settled (s : Segment) : Segment := { s with bytesSinceIdx := 0 }

variable {s : Segment}

/-- The scan of a segment depends on its file and size only. -/
theorem readLoop_congr {s' : Segment} (hfile : s.logFile = s'.logFile)
    (hsize : s.logSize = s'.logSize) (want maxBytes : ℤ) :
    ∀ (fuel : ℕ) (pos : ℤ) (out : Bytes),
      s.readLoop want maxBytes fuel pos out = s'.readLoop want maxBytes fuel pos out := by
  intro fuel
  induction fuel with
  | zero => intro pos out; rfl
  | succ fuel ih => intro pos out; simp only [Segment.readLoop, ih, hfile, hsize]

theorem readBatchesFrom_congr {s' : Segment} (hbase : s.baseOffset = s'.baseOffset)
    (hfile : s.logFile = s'.logFile) (hsize : s.logSize = s'.logSize)
    (hindex : s.index = s'.index) (want maxBytes : ℤ) :
    s.readBatchesFrom want maxBytes = s'.readBatchesFrom want maxBytes := by
  unfold Segment.readBatchesFrom
  rw [readLoop_congr hfile hsize, hbase, hsize, hindex]

/-- Reading does not depend on the counter. -/
theorem readBatchesFrom_settled (s : Segment) (want maxBytes : ℤ) :
    s.settled.readBatchesFrom want maxBytes = s.readBatchesFrom want maxBytes := by
  apply readBatchesFrom_congr <;> rfl

/-- Segments with other base offsets have other files. -/
theorem map_shareFiles {ts : List Segment} (h : ∀ t ∈ ts, t.baseOffset ≠ s.baseOffset) :
    ts.map (Log.shareFiles s) = ts := by
  conv_rhs => rw [← List.map_id ts]
  exact List.map_congr_left fun t ht => if_neg (h t ht)

/-- A segment whose size is right takes any batch. -/
theorem append_of_logSize (hs : s.logSize = s.logFile.length) (now : ℤ) (b : Bytes)
    (baseOffset : ℤ) :
    ∃ s', s.append now b baseOffset = (s', none) ∧ s'.baseOffset = s.baseOffset := by
  have hidx : (s.indexBatch baseOffset).baseOffset = s.baseOffset ∧
      writeAt (s.indexBatch baseOffset).logFile (s.indexBatch baseOffset).logSize b
        = some (s.logFile ++ b) := by
    unfold Segment.indexBatch
    split <;> exact ⟨rfl, by rw [hs]; exact writeAt_length _ _⟩
  unfold Segment.append
  simp only [hidx.2]
  exact ⟨_, rfl, hidx.1⟩

/-! ### Logs that hold a layout -/

/-- The log that opening an empty directory creates. -/
def Log.create (cfg : Config) (now : ℤ) : Log where
  cfg := cfg
  sealed := []
  active := createSegment 0 cfg.indexIntervalBytes now
  nextOffset := 0
  highWatermark := 0
  holdHWM := false
  dirty := false

theorem open_nil (cfg : Config) (now : ℤ) : Log.open cfg now [] = .ok (Log.create cfg now) := by
  simp only [Log.open, List.insertionSort_nil, List.getLast?_nil, Log.create]

/-- The log `l` holds the layout `y`. -/
structure Log.Holds (l : Log) (y : Layout) : Prop where
  sealed : l.sealed.map Segment.settled
    = y.closed.map fun p => (Segment.ofPart l.cfg.indexIntervalBytes p).settled
  active : l.active = Segment.ofPart l.cfg.indexIntervalBytes y.last
  next : l.nextOffset = y.last.stop

/-- **The segment search** finds the last segment that starts at or before the offset. -/
theorem Log.segmentFor_eq {l : Log} {pre post : List Segment} {o : ℤ}
    (h : l.segments = pre ++ s :: post) (hpre : ∀ t ∈ pre, t.baseOffset ≤ o)
    (hs : s.baseOffset ≤ o) (hpost : ∀ t ∈ post, o < t.baseOffset) : l.segmentFor o = s := by
  have hcut : l.segments = (pre ++ [s]) ++ post := by rw [h]; simp
  have hsearch : Search.search l.segments.length
      (fun i => decide (o < (l.segments.getD i l.active).baseOffset)) = pre.length + 1 := by
    rw [hcut, Search.search_split (f := fun t => decide (o < t.baseOffset))]
    · simp
    · intro i t ht
      rw [List.getD, ht, Option.getD_some]
    · intro t ht
      rcases List.mem_append.mp ht with ht | ht
      · exact decide_eq_false (not_lt.mpr (hpre t ht))
      · obtain rfl := List.mem_singleton.mp ht
        exact decide_eq_false (not_lt.mpr hs)
    · exact fun t ht => decide_eq_true (hpost t ht)
  rw [Log.segmentFor]
  simp only [hsearch]
  rw [if_neg (by omega), Nat.add_sub_cancel, h, List.getD, List.getElem?_append_right le_rfl,
    Nat.sub_self]
  rfl

namespace Log.Holds

variable {l : Log} {y : Layout} (h : l.Holds y)
include h

/-- A property of a closed segment that does not concern its counter is that of a
run. -/
theorem map_sealed {α : Type*} {f : Segment → α} (hf : ∀ s, f s.settled = f s) :
    l.sealed.map f = y.closed.map fun p => f (Segment.ofPart l.cfg.indexIntervalBytes p) := by
  have := congrArg (List.map f) h.sealed
  simpa [List.map_map, Function.comp_def, hf] using this

theorem map_segments {α : Type*} {f : Segment → α} (hf : ∀ s, f s.settled = f s) :
    l.segments.map f = y.parts.map fun p => f (Segment.ofPart l.cfg.indexIntervalBytes p) := by
  rw [Log.segments, Layout.parts, List.map_append, List.map_append, h.map_sealed hf, h.active]
  rfl

theorem bases : l.segments.map (·.baseOffset) = y.parts.map (·.base) :=
  h.map_segments fun _ => rfl

theorem logFiles : l.segments.map (·.logFile) = y.parts.map (·.bytes) :=
  h.map_segments fun _ => rfl

theorem logSizes : l.segments.map (·.logSize) = y.parts.map fun p => wrap32 p.bytes.length := by
  rw [h.map_segments fun _ => rfl]
  exact List.map_congr_left fun p _ => ofPart_logSize _ p

theorem earliestOffset : l.earliestOffset = y.start := by
  have hb := h.map_sealed (f := (·.baseOffset)) fun _ => rfl
  rw [Log.earliestOffset, Layout.start]
  cases hs : l.sealed with
  | nil =>
    rw [hs, List.map_nil] at hb
    rw [List.map_eq_nil_iff.mp hb.symm, h.active]; rfl
  | cons s ss =>
    cases hc : y.closed with
    | nil => simp [hs, hc] at hb
    | cons p ps => rw [hs, hc, List.map_cons, List.map_cons] at hb; exact (List.cons.inj hb).1

omit h in
/-- A log that was just created holds the empty layout. -/
theorem of_open_nil {cfg : Config} {now : ℤ} (h : Log.open cfg now [] = .ok l) :
    l.cfg = cfg ∧ l.Holds (Layout.empty now) := by
  rw [open_nil, Except.ok.injEq] at h
  subst h
  exact ⟨rfl, rfl, rfl, rfl⟩

/-- Every closed segment starts before the log's end. -/
theorem baseOffset_lt : ∀ s ∈ l.sealed, s.baseOffset < y.last.base := by
  intro s hs
  have hmem : s.baseOffset ∈ l.sealed.map (·.baseOffset) := List.mem_map_of_mem hs
  rw [h.map_sealed fun _ => rfl] at hmem
  obtain ⟨p, hp, hbase⟩ := List.mem_map.mp hmem
  have h₁ := y.linked.lt p hp
  have h₂ := (y.linked.bounds.2 p hp).2
  rw [← hbase, ofPart_baseOffset]
  omega

/-! ### Appends -/

theorem needsRoll (n : ℕ) : l.needsRoll n = y.needsRoll l.cfg.segmentBytes n := by
  rw [Log.needsRoll, Layout.needsRoll, h.active, ofPart_logSize]

/-- A roll refines the roll of the layout. -/
theorem roll (now : ℤ) (hne : y.last.batches ≠ []) :
    (l.roll now y.last.stop).Holds (y.roll now hne) := by
  have hlt := y.last.chained.lt hne
  have hshare : l.segments.map (shareFiles (createSegment y.last.stop l.cfg.indexIntervalBytes now))
      = l.segments := by
    refine map_shareFiles fun t ht => ?_
    rcases List.mem_append.mp ht with ht | ht
    · have := h.baseOffset_lt t ht
      exact ne_of_lt (this.trans hlt)
    · rw [List.mem_singleton.mp ht, h.active]
      exact ne_of_lt hlt
  refine ⟨?_, createSegment_eq_ofPart _ _ _ _ _, h.next⟩
  simp only [Log.roll, hshare]
  simp only [Log.segments, Layout.roll, List.map_append, h.sealed, h.active, List.map_cons,
    List.map_nil]

theorem rollFor (now : ℤ) (n : ℕ) :
    (l.rollFor now y.last.stop n).Holds (y.rollFor l.cfg.segmentBytes now n) := by
  unfold Log.rollFor Layout.rollFor
  rw [h.needsRoll]
  split
  · exact h.roll now _
  · exact h

variable {b : Bytes}

/-- Writing a batch to the active segment. -/
theorem write (now : ℤ) (hw : WellFormed b) (hb : (header b).baseOffset = y.last.stop)
    (hf : y.last.stop + (header b).recordCount < 9223372036854775808)
    (hsmall : y.last.bytes.length < 2147483648) {next : ℤ}
    (hnext : next = y.last.stop + (header b).recordCount) (hwm : ℤ) :
    ∃ s, l.active.append now b y.last.stop = (s, none) ∧
      ({ l.setActive s with
          nextOffset := next
          highWatermark := hwm
          dirty := true } : Log).Holds (y.write now b hw hb hf) := by
  refine ⟨Segment.ofPart l.cfg.indexIntervalBytes (y.last.snoc now b hw hb hf), ?_, ?_, rfl, hnext⟩
  · rw [h.active, append_ofPart _ _ _ hw hb hf hsmall]
  · have hshare : l.sealed.map
        (shareFiles (Segment.ofPart l.cfg.indexIntervalBytes (y.last.snoc now b hw hb hf)))
          = l.sealed :=
      map_shareFiles fun t ht => ne_of_lt (h.baseOffset_lt t ht)
    simp only [Log.setActive, hshare]
    exact h.sealed

/-- The batch an append stores and the state it leads to, before anything is known
about the new log end. -/
theorem append_eq (now : ℤ) {batch : Bytes} (hw : WellFormed batch)
    (hsmall : y.last.bytes.length < 2147483648) :
    ∃ s, 0 ≤ s.baseOffset ∧
      (l.rollFor now y.last.stop batch.length).active.append now (stamp y.last.stop batch)
        y.last.stop = (s, none) ∧
      l.append now batch
        = ({ (l.rollFor now y.last.stop batch.length).setActive s with
              nextOffset := wrap64 (y.last.stop + (header batch).recordCount)
              highWatermark := if l.holdHWM then l.highWatermark
                else wrap64 (y.last.stop + (header batch).recordCount)
              dirty := true }, .ok y.last.stop) := by
  have hlen := hw.1.1
  have hroll := h.rollFor now batch.length
  have hsmall' := (y.rollFor_bytes_le l.cfg.segmentBytes now batch.length).trans_lt hsmall
  have hsize : (l.rollFor now y.last.stop batch.length).active.logSize
      = (l.rollFor now y.last.stop batch.length).active.logFile.length := by
    rw [hroll.active, (intact_ofPart _ hsmall').size]
  obtain ⟨s, happ, hbase⟩ := append_of_logSize hsize now (stamp y.last.stop batch) y.last.stop
  refine ⟨s, ?_, happ, ?_⟩
  · rw [hbase, hroll.active]; exact Part.nonneg _
  · have hpanic : ¬ batch.length < offAttributes := by
      unfold headerSize at hlen
      unfold offAttributes
      omega
    have hparse := (framed_stamp hw.1 y.last.stop).parseHeader
    have hstamp : recomputeCRC (setBaseOffset batch y.last.stop) = stamp y.last.stop batch := rfl
    rw [Log.append, if_neg hpanic]
    simp only [h.next, hstamp, length_stamp hlen, hparse, happ, header_stamp hlen]

/-- **An append refines the append to the layout.** -/
theorem append (now : ℤ) {batch : Bytes} (hw : WellFormed batch)
    (hsmall : y.last.bytes.length < 2147483648)
    (hf : y.last.stop + (header batch).recordCount < 9223372036854775808) :
    (l.append now batch).2 = .ok y.last.stop ∧
      (l.append now batch).1.Holds (y.produce hw l.cfg.segmentBytes now hf) := by
  obtain ⟨s, -, happ, heq⟩ := h.append_eq now hw hsmall
  have hroll := h.rollFor now batch.length
  have hstop := y.rollFor_stop l.cfg.segmentBytes now batch.length
  have hsmall' := (y.rollFor_bytes_le l.cfg.segmentBytes now batch.length).trans_lt hsmall
  have hcount := y.stamp_recordCount hw
  have hnext : wrap64 (y.last.stop + (header batch).recordCount)
      = (y.rollFor l.cfg.segmentBytes now batch.length).last.stop
        + (header (stamp y.last.stop batch)).recordCount := by
    have := y.stop_nonneg
    have := hw.2.2
    rw [hstop, hcount, wrap64_eq (by omega) hf]
  obtain ⟨s', happ', hH⟩ := hroll.write now (wellFormed_stamp hw y.last.stop)
    (by rw [hstop]; exact y.stamp_baseOffset hw) (by rw [hstop, hcount]; exact hf) hsmall' hnext
    (if l.holdHWM then l.highWatermark else wrap64 (y.last.stop + (header batch).recordCount))
  rw [hstop] at happ'
  obtain rfl : s' = s := by rw [happ'] at happ; exact (Prod.mk.inj happ).1
  rw [heq]
  simp only [Layout.produce, Layout.append, length_stamp hw.1.1]
  exact ⟨trivial, hH⟩

/-- **A replica append refines the append to the layout.** -/
theorem appendReplica (now : ℤ) (hw : WellFormed b) (hb : (header b).baseOffset = y.last.stop)
    (hf : y.last.stop + (header b).recordCount < 9223372036854775808)
    (hsmall : y.last.bytes.length < 2147483648) :
    (l.appendReplica now b).2 = .ok (y.last.stop + (header b).recordCount) ∧
      (l.appendReplica now b).1.Holds (y.append l.cfg.segmentBytes now b hw hb hf) := by
  have hroll := h.rollFor now b.length
  have hstop := y.rollFor_stop l.cfg.segmentBytes now b.length
  have hsmall' := (y.rollFor_bytes_le l.cfg.segmentBytes now b.length).trans_lt hsmall
  have hlast : wrap64 ((header b).lastOffset + 1) = y.last.stop + (header b).recordCount := by
    have := y.stop_nonneg
    have := hw.2.2
    rw [lastOffset_eq hw (by omega) (by omega), wrap64_eq (by omega) (by omega)]
    omega
  obtain ⟨s, happ, hH⟩ := hroll.write now hw (by rw [hstop]; exact hb) (by rw [hstop]; exact hf)
    hsmall' (congrArg (· + (header b).recordCount) hstop.symm)
    (l.rollFor now y.last.stop b.length).highWatermark
  rw [hstop] at happ
  rw [Log.appendReplica, hw.1.parseHeader]
  simp only
  rw [if_neg (by rw [h.next, hb]; omega), if_neg (by rw [h.next, hb]; omega), hb]
  simp only [happ, hlast]
  exact ⟨trivial, hH⟩

omit h in
/-- A batch below the log end is not written again. -/
theorem appendReplica_of_lt (hb : Framed b) (now : ℤ) (hlt : (header b).baseOffset < l.nextOffset) :
    l.appendReplica now b = (l, .ok l.nextOffset) := by
  rw [Log.appendReplica, hb.parseHeader]
  simp only
  rw [if_pos hlt]

omit h in
/-- A replica batch that starts above the log end is refused. -/
theorem appendReplica_of_gt (hb : Framed b) (now : ℤ) (hlt : l.nextOffset < (header b).baseOffset) :
    l.appendReplica now b
      = (l, .error (.error (.replicaGap (header b).baseOffset l.nextOffset))) := by
  rw [Log.appendReplica, hb.parseHeader]
  simp only
  rw [if_neg (by omega), if_pos hlt]

/-! ### Retention -/

/-- **Retention refines the retention of the layout.** -/
theorem enforceRetention (now maxAgeMs maxBytes : ℤ) :
    (l.enforceRetention now maxAgeMs maxBytes).Holds
      (y.enforceRetention now maxAgeMs maxBytes) := by
  have hsize : l.size = y.size := by rw [Log.size, h.logSizes]; rfl
  have hkeys : l.sealed.map (fun s => (s.modTime, s.logSize))
      = y.closed.map fun p => (p.modTime, wrap32 p.bytes.length) := by
    rw [h.map_sealed fun _ => rfl]
    exact List.map_congr_left fun p _ => by rw [ofPart_logSize]; rfl
  -- how many segments go depends on their times and sizes only
  have hcount : Retention.dropCount (Segment.expired now maxAgeMs) (overSize maxBytes) (·.logSize)
      y.size l.sealed = Retention.dropCount (fun p => expired now maxAgeMs p.modTime)
        (overSize maxBytes) (fun p => wrap32 p.bytes.length) y.size y.closed := by
    calc _ = Retention.dropCount (fun x : ℤ × ℤ => expired now maxAgeMs x.1) (overSize maxBytes)
          (·.2) y.size (l.sealed.map fun s => (s.modTime, s.logSize)) :=
        (Retention.dropCount_map _ _ _).symm
      _ = _ := by rw [hkeys]; exact Retention.dropCount_map _ _ _
  refine ⟨?_, h.active, h.next⟩
  simp only [Log.enforceRetention, Layout.enforceRetention, Layout.dropClosed,
    retentionLoop_eq_dropCount, hsize, hcount, List.map_drop, h.sealed]

/-- The high watermark is no part of the layout. -/
theorem setHighWatermark (hwm : ℤ) : (l.setHighWatermark hwm).Holds y := by
  unfold Log.setHighWatermark
  generalize (if l.nextOffset < hwm then l.nextOffset else hwm) = x
  simp only
  split
  · exact ⟨h.sealed, h.active, h.next⟩
  · exact h

/-! ### Reads -/

/-- **The segment search** finds the run that contains the offset. -/
theorem segmentFor {pre post : List Part} {p : Part} {o : ℤ} (hp : y.parts = pre ++ p :: post)
    (ho₀ : p.base ≤ o) (ho₁ : o < p.stop) :
    (l.segmentFor o).settled = (Segment.ofPart l.cfg.indexIntervalBytes p).settled := by
  have hpair := y.pairwise
  rw [hp] at hpair
  obtain ⟨-, hpost, hpre⟩ := List.pairwise_append.mp hpair
  have hpost := (List.pairwise_cons.mp hpost).1
  -- the segments are cut where the layout is
  have hsettled : l.segments.map Segment.settled
      = y.parts.map fun p => (Segment.ofPart l.cfg.indexIntervalBytes p).settled :=
    h.map_segments fun _ => rfl
  rw [hp, List.map_append, List.map_cons] at hsettled
  obtain ⟨spre, srest, hsegs, hspre, hsrest⟩ := List.map_eq_append_iff.mp hsettled
  obtain ⟨s, spost, rfl, hs, hspost⟩ := List.map_eq_cons_iff.mp hsrest
  have hbase : ∀ {t : Segment} {q : Part},
      t.settled = (Segment.ofPart l.cfg.indexIntervalBytes q).settled → t.baseOffset = q.base :=
    fun heq => congrArg Segment.baseOffset heq
  rw [Log.segmentFor_eq hsegs, hs]
  · intro t ht
    obtain ⟨q, hq, htq⟩ := List.mem_map.mp (hspre ▸ List.mem_map_of_mem ht)
    have := hpre q hq p List.mem_cons_self
    have := q.chained.le
    rw [hbase htq.symm]
    omega
  · rw [hbase hs]
    exact ho₀
  · intro t ht
    obtain ⟨q, hq, htq⟩ := List.mem_map.mp (hspost ▸ List.mem_map_of_mem ht)
    have := hpost q hq
    rw [hbase htq.symm]
    omega

/-- **The read specification of a log.**  A read at an offset of the log returns
the batch that contains the offset and then, greedily, the batches after it in
the same segment. -/
theorem read {pre post : List Part} {p : Part} (hp : y.parts = pre ++ p :: post)
    (hsmall : p.bytes.length < 2147483648) (hspan : p.stop - p.base < 2147483648)
    {bpre bpost : List Bytes} (hbs : p.batches = bpre ++ b :: bpost) {o : ℤ}
    (ho₀ : (header b).baseOffset ≤ o) (ho₁ : o < (header b).baseOffset + (header b).recordCount)
    (maxBytes : ℤ) :
    l.read o maxBytes = .ok (b ++ (greedy maxBytes b.length bpost).flatten, none) := by
  have hbnd := p.chained.bounds (b := b) (by rw [hbs]; simp)
  have hpmem : p ∈ y.parts := by rw [hp]; simp
  have hrange : y.start ≤ p.base ∧ p.stop ≤ y.last.stop := by
    rcases List.mem_append.mp hpmem with hmem | hmem
    · have h₁ := y.linked.bounds.2 p hmem
      have h₂ := y.last.chained.le
      exact ⟨h₁.1, by omega⟩
    · obtain rfl := List.mem_singleton.mp hmem
      exact ⟨y.linked.bounds.1, le_rfl⟩
  have hseg := h.segmentFor hp (o := o) (by omega) (by omega)
  rw [Log.read, if_neg (by rw [h.next]; omega),
    if_neg (by rw [h.next, h.earliestOffset]; omega), ← readBatchesFrom_settled, hseg,
    readBatchesFrom_settled, readBatchesFrom_ofPart _ hsmall hspan hbs ho₀ ho₁]

end Log.Holds

end Storage
end Mq
