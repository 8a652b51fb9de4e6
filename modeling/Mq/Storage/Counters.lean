import Mq.Storage.History

/-!
# The counters of a segment

Sizes, positions and relative offsets are kept in 32 bits, while nothing bounds what a
segment may hold: the limit on its size is whatever the configuration says, and the test
against it is itself an addition in 32 bits.  This module says what the counters should be
and which appends keep them so.

## Main definitions

* `Segment.Counts` — the size and the index of a segment are those of its file.
* `Log.Counts l bs` — all segments are like that, and the log holds the batches `bs`.
* `Log.Fits l c` — the append `c` stays within 31 bits in the active segment, or rolls.

## Main results

* `Exactly.extend`, `Extends.fits_of_counts` — which batch leaves the counters of a segment
  right.
* `counts_iff` — **the counters are right in all states of a run if and only if every
  append fits.**
-/

namespace Mq
namespace Storage

open Word Record Transition

/-! ### What the counters should be -/

/-- The next batch gets an index entry. -/
def Segment.IndexDue (s : Segment) : Prop := s.index = [] ∨ s.indexInterval ≤ s.bytesSinceIdx

instance (s : Segment) : Decidable s.IndexDue := inferInstanceAs (Decidable (_ ∨ _))

/-- **The counters of a segment are right**: its size is the number of bytes written to it,
every index entry has the position of a batch and its offset from the base of the segment,
the entries are in strict order of both, and the search leads no further than the batch
that is looked for. -/
structure Segment.Counts (s : Segment) : Prop where
  size : s.logSize = s.logFile.length
  entries : ∀ e ∈ s.index, ∃ pre b post, split s.logFile = pre ++ b :: post ∧
    e.position = pre.flatten.length ∧ e.relOffset = (header b).baseOffset - s.baseOffset
  increasing : s.index.Pairwise fun d e => d.relOffset < e.relOffset ∧ d.position < e.position
  floor : ∀ pre b post o, split s.logFile = pre ++ b :: post → Contains b o →
    floorPosition s.index (wrap32 (o - s.baseOffset)) ≤ pre.flatten.length

/-- **The counters of a log are right** after appends of the batches `bs`: these are what its
segments hold, with offsets from zero on, and the counters of each segment are right. -/
structure Log.Counts (l : Log) (bs : List Bytes) : Prop where
  batches : l.batches = stampAll 0 bs
  next : l.nextOffset = offsetCount bs
  segments : ∀ s ∈ l.segments, s.Counts

/-! ### The counters of one segment -/

section part

variable {p q : Part} {interval : ℤ} {b : Bytes}

/-- The entries of the index of a run, without any wrapping. -/
def Exactly (p : Part) (interval : ℤ) : Prop :=
  ∀ e ∈ (scanAll p.base interval p.batches).index, ∃ pre b post, p.batches = pre ++ b :: post ∧
    e.position = pre.flatten.length ∧ e.relOffset = (header b).baseOffset - p.base

/-- The order of the entries and what the search finds follow from what the entries are. -/
theorem Exactly.counts (h : Exactly p interval) (hsmall : p.bytes.length < 2147483648) :
    (Segment.ofPart interval p).Counts := by
  refine ⟨?_, ?_, ?_, ?_⟩
  · rw [ofPart_logSize, ofPart_logFile, wrap32_eq (by omega) (by omega)]
  · rw [ofPart_logFile, p.split_bytes]
    exact h
  · refine (scanAll_increasing p.base interval p.chained.framed hsmall).imp_of_mem ?_
    intro d e hd he hlt
    refine ⟨?_, hlt⟩
    obtain ⟨pre, b, post, hbs, hpos, hrel⟩ := h d hd
    obtain ⟨pre', c, post', hbs', hpos', hrel'⟩ := h e he
    by_contra hge
    -- otherwise the later entry would be of an earlier batch
    have hcount := (p.chained.wellFormed b (by rw [hbs]; simp)).2.2
    have hpre := isPrefix_of_base_le (hbs ▸ p.chained) (hbs'.symm.trans hbs)
      (o := (header b).baseOffset) (by omega) (by omega)
    have hle := hpre.flatten.length_le
    omega
  · intro pre b post o hbs hcontains
    rw [ofPart_logFile, p.split_bytes] at hbs
    have hlast := p.lastOffset (b := b) (by rw [hbs]; simp)
    rcases floorPosition_spec (Segment.ofPart interval p).index
      (wrap32 (o - (Segment.ofPart interval p).baseOffset)) with hzero | ⟨e, he, hle, hpos⟩
    · rw [hzero]
      omega
    · obtain ⟨pre', c, post', hbs', hpos', hrel⟩ := h e he
      have hbase := (p.chained.bounds (b := b) (by rw [hbs]; simp)).1
      obtain ⟨ho₀, ho₁⟩ := hcontains
      -- a number of offsets that wraps becomes smaller
      have hwrap : wrap32 (o - p.base) ≤ o - p.base := by unfold wrap32; omega
      rw [ofPart_baseOffset] at hle
      have hpre := isPrefix_of_base_le (hbs ▸ p.chained) (hbs'.symm.trans hbs) (o := o)
        (by omega) (by omega)
      have hlen := hpre.flatten.length_le
      rw [hpos, hpos']
      exact_mod_cast hlen

/-- The run with one more batch. -/
structure Extends (p q : Part) (b : Bytes) : Prop where
  base : q.base = p.base
  batches : q.batches = p.batches ++ [b]
  stop : (header b).baseOffset = p.stop

theorem Extends.length (h : Extends p q b) : q.bytes.length = p.bytes.length + b.length := by
  rw [Part.bytes, h.batches, Part.bytes]
  simp

theorem Extends.scanAll (h : Extends p q b) (interval : ℤ) :
    scanAll q.base interval q.batches = (scanAll p.base interval p.batches).step p.base interval
      (header b) (wrap32 (header b).totalSize) := by
  rw [h.base, h.batches, scanAll_snoc]

theorem scanAll_pos_part (hsmall : p.bytes.length < 2147483648) :
    (scanAll p.base interval p.batches).pos = p.bytes.length := by
  rw [scanAll_pos _ _ p.chained.framed]
  exact wrap32_eq (by omega) (by exact_mod_cast hsmall)

/-- A batch whose relative offset fits, if it is needed, leaves the index right. -/
theorem Exactly.extend (h : Exactly p interval) (hq : Extends p q b)
    (hsmall : p.bytes.length < 2147483648)
    (hdue : (Segment.ofPart interval p).IndexDue → p.stop - p.base < 2147483648) :
    Exactly q interval := by
  intro e he
  have hold : ∀ e ∈ (scanAll p.base interval p.batches).index, ∃ pre c post,
      q.batches = pre ++ c :: post ∧ e.position = pre.flatten.length ∧
        e.relOffset = (header c).baseOffset - q.base := by
    intro e he
    obtain ⟨pre, c, post, hbs, hat, hrel⟩ := h e he
    exact ⟨pre, c, post ++ [b], by rw [hq.batches, hbs]; simp, hat, by rw [hq.base]; exact hrel⟩
  rw [hq.scanAll, Scan.step] at he
  split at he
  · next hd =>
    rcases List.mem_append.mp he with he | he
    · exact hold e he
    · obtain rfl := List.mem_singleton.mp he
      have hspan := p.chained.le
      refine ⟨p.batches, b, [], hq.batches, scanAll_pos_part hsmall, ?_⟩
      rw [hq.base, hq.stop]
      exact wrap32_eq (by omega) (hdue hd)
  · exact hold e he

/-- Where the counters are right with one more batch, nothing has been wrapped for it. -/
theorem Extends.fits_of_counts (hq : Extends p q b) (hsmall : p.bytes.length < 2147483648)
    (hcounts : (Segment.ofPart interval q).Counts) :
    p.bytes.length + b.length < 2147483648 ∧
      ((Segment.ofPart interval p).IndexDue → p.stop - p.base < 2147483648) := by
  have hsize := hcounts.size
  rw [ofPart_logSize, ofPart_logFile, hq.length] at hsize
  have hbounds := wrap32_bounds ((p.bytes.length + b.length : ℕ) : ℤ)
  refine ⟨by omega, fun hdue => ?_⟩
  -- the new entry is that of the new batch
  have hmem : (⟨wrap32 ((header b).baseOffset - p.base),
      (Storage.scanAll p.base interval p.batches).pos⟩ : IndexEntry)
        ∈ (Segment.ofPart interval q).index := by
    have hd : (Storage.scanAll p.base interval p.batches).index = [] ∨
        interval ≤ (Storage.scanAll p.base interval p.batches).bytesSinceIdx := hdue
    show _ ∈ (Storage.scanAll q.base interval q.batches).index
    rw [hq.scanAll, Scan.step, if_pos hd]
    simp
  obtain ⟨pre, c, post, hbs, hat, hrel⟩ := hcounts.entries _ hmem
  rw [ofPart_logFile, q.split_bytes, hq.batches] at hbs
  simp only [scanAll_pos_part hsmall, hq.stop, ofPart_baseOffset, hq.base] at hat hrel
  rcases List.eq_nil_or_concat post with rfl | ⟨post, d, rfl⟩
  · obtain ⟨-, hbc⟩ := List.append_inj' hbs rfl
    obtain rfl := List.singleton_inj.mp hbc
    have := wrap32_bounds (p.stop - p.base)
    rw [hq.stop] at hrel
    omega
  · -- an earlier batch has an earlier position
    rw [List.concat_eq_append, ← List.cons_append, ← List.append_assoc] at hbs
    have hpb := (List.append_inj' hbs rfl).1
    have hc := (p.chained.framed c (by rw [hpb]; simp)).1
    have hlen : p.bytes.length = pre.flatten.length + (c.length + post.flatten.length) := by
      rw [Part.bytes, hpb]
      simp
    unfold headerSize at hc
    omega

end part

/-! ### The counters of a log -/

/-- One append of a run: its time and its batch. -/
def Log.put (l : Log) (c : ℤ × Bytes) : Log := (l.append c.1 c.2).1

/-- **The append stays within its counters**: the log end within 63 bits, and, unless the
segment is rolled, its size and the relative offset of an index entry that is due within 31. -/
def Log.Fits (l : Log) (c : ℤ × Bytes) : Prop :=
  l.nextOffset + (header c.2).recordCount < 9223372036854775808 ∧
    (l.needsRoll c.2.length = true ∨
      (l.active.logFile.length + c.2.length < 2147483648 ∧
        (l.active.IndexDue → l.nextOffset - l.active.baseOffset < 2147483648)))

instance (l : Log) (c : ℤ × Bytes) : Decidable (l.Fits c) :=
  inferInstanceAs (Decidable (_ ∧ (_ ∨ (_ ∧ (_ → _)))))

/-- The layout of a log whose counters are right. -/
structure Log.Tracks (l : Log) (bs : List Bytes) (y : Layout) : Prop where
  holds : l.Holds y
  batches : y.batches = stampAll 0 bs
  stop : y.last.stop = offsetCount bs
  small : ∀ p ∈ y.parts, p.bytes.length < 2147483648
  exactly : ∀ p ∈ y.parts, Exactly p l.cfg.indexIntervalBytes

namespace Log.Tracks

variable {l : Log} {bs : List Bytes} {y : Layout}

theorem create (cfg : Config) (now : ℤ) : (Log.create cfg now).Tracks [] (Layout.empty now) := by
  refine ⟨(Log.Holds.of_open_nil (open_nil cfg now)).2, rfl, rfl, ?_, ?_⟩
  · intro p hp
    obtain rfl := List.mem_singleton.mp hp
    exact (by decide : 0 < 2147483648)
  · intro p hp e he
    obtain rfl := List.mem_singleton.mp hp
    cases he

theorem counts (h : l.Tracks bs y) : l.Counts bs := by
  refine ⟨h.holds.batches.trans h.batches, h.holds.next.trans h.stop, fun s hs => ?_⟩
  -- the closed segments are known up to a counter that does not matter
  have hmap := h.holds.map_segments (f := fun s => s.settled) fun _ => rfl
  have hmem : s.settled ∈ l.segments.map Segment.settled := List.mem_map_of_mem hs
  rw [hmap] at hmem
  obtain ⟨p, hp, hps⟩ := List.mem_map.mp hmem
  have hcounts := (h.exactly p hp).counts (h.small p hp)
  have hsettled : s.settled.Counts := by
    rw [← hps]
    exact ⟨hcounts.size, hcounts.entries, hcounts.increasing, hcounts.floor⟩
  exact ⟨hsettled.size, hsettled.entries, hsettled.increasing, hsettled.floor⟩

section append

variable {now : ℤ} {batch : Bytes}

theorem last_mem (h : l.Tracks bs y) :
    y.last.bytes.length < 2147483648 ∧ Exactly y.last l.cfg.indexIntervalBytes := by
  have hmem : y.last ∈ y.parts := by simp [Layout.parts]
  exact ⟨h.small _ hmem, h.exactly _ hmem⟩

/-- A run that is extended, with all others there already. -/
theorem of_extends (h : l.Tracks bs y) {l' : Log} {y' : Layout} {p : Part} {b : Bytes}
    (hholds : l'.Holds y') (hcfg : l'.cfg = l.cfg)
    (hbatches : y'.batches = stampAll 0 (bs ++ [batch]))
    (hstop : y'.last.stop = offsetCount (bs ++ [batch])) (hclosed : ∀ q ∈ y'.closed, q ∈ y.parts)
    (hlast : Extends p y'.last b) (hbytes : p.bytes.length + b.length < 2147483648)
    (hexact : Exactly p l.cfg.indexIntervalBytes)
    (hdue : (Segment.ofPart l.cfg.indexIntervalBytes p).IndexDue → p.stop - p.base < 2147483648) :
    l'.Tracks (bs ++ [batch]) y' := by
  refine ⟨hholds, hbatches, hstop, fun q hq => ?_, fun q hq => ?_⟩
  · rcases List.mem_append.mp hq with hq | hq
    · exact h.small q (hclosed q hq)
    · obtain rfl := List.mem_singleton.mp hq
      rw [hlast.length]
      exact hbytes
  · rw [hcfg]
    rcases List.mem_append.mp hq with hq | hq
    · exact h.exactly q (hclosed q hq)
    · obtain rfl := List.mem_singleton.mp hq
      exact hexact.extend hlast (by omega) hdue

/-- **An append that fits** leaves the counters right. -/
theorem append (h : l.Tracks bs y) (hw : WellFormed batch) (hlen : batch.length ≤ 104857600)
    (hfits : l.Fits (now, batch)) : ∃ y', (l.append now batch).1.Tracks (bs ++ [batch]) y' := by
  obtain ⟨hend, hroom⟩ := hfits
  rw [h.holds.next] at hend
  obtain ⟨hsmall, hexact⟩ := h.last_mem
  have hstamp : (stamp y.last.stop batch).length = batch.length := length_stamp hw.1.1 _
  have hholds := (h.holds.append now hw hsmall hend).2
  have hbatches : (y.produce hw l.cfg.segmentBytes now hend).batches
      = stampAll 0 (bs ++ [batch]) := by
    rw [y.produce_batches, stampAll_snoc, h.batches, h.stop, zero_add]
  have hstop : (y.produce hw l.cfg.segmentBytes now hend).last.stop
      = offsetCount (bs ++ [batch]) := by
    rw [y.produce_stop, h.stop]
    simp
  refine ⟨y.produce hw l.cfg.segmentBytes now hend, ?_⟩
  cases hroll : y.needsRoll l.cfg.segmentBytes batch.length with
  | true =>
    -- a new segment, with this batch only
    obtain ⟨hc, hb, hbs⟩ := y.produce_of_needsRoll hw l.cfg.segmentBytes now hend hroll
    refine h.of_extends (p := Part.empty y.last.stop now y.stop_nonneg y.last.fits) hholds
      (append_cfg l now batch) hbatches hstop ?_ ⟨hb, hbs, y.stamp_baseOffset hw⟩ ?_ ?_ ?_
    · rw [hc]
      exact fun q hq => hq
    · rw [hstamp]
      show 0 + batch.length < 2147483648
      omega
    · intro e he
      cases he
    · intro _
      show y.last.stop - y.last.stop < 2147483648
      omega
  | false =>
    obtain ⟨hc, hb, hbs⟩ := y.produce_of_not_needsRoll hw l.cfg.segmentBytes now hend hroll
    obtain ⟨hbytes, hdue⟩ := hroom.resolve_left (by rw [h.holds.needsRoll, hroll]; decide)
    rw [h.holds.active] at hbytes hdue
    refine h.of_extends hholds (append_cfg l now batch) hbatches hstop ?_
      ⟨hb, hbs, y.stamp_baseOffset hw⟩ ?_ hexact ?_
    · rw [hc]
      exact fun q hq => List.mem_append_left _ hq
    · rw [hstamp]
      exact hbytes
    · rwa [h.holds.next] at hdue

/-- **Only an append that fits** leaves the counters right. -/
theorem fits_of_counts (h : l.Tracks bs y) (hw : WellFormed batch)
    (hcounts : (l.append now batch).1.Counts (bs ++ [batch])) : l.Fits (now, batch) := by
  obtain ⟨hsmall, hexact⟩ := h.last_mem
  have hend : y.last.stop + (header batch).recordCount < 9223372036854775808 := by
    obtain ⟨s, -, -, heq⟩ := h.holds.append_eq now hw hsmall
    have hnext := hcounts.next
    rw [heq, offsetCount_append, ← h.stop] at hnext
    have := wrap64_bounds (y.last.stop + (header batch).recordCount)
    simp only [offsetCount_cons, offsetCount_nil] at hnext
    omega
  refine ⟨by rw [h.holds.next]; exact hend, ?_⟩
  cases hroll : y.needsRoll l.cfg.segmentBytes batch.length with
  | true => exact .inl (by rw [h.holds.needsRoll, hroll])
  | false =>
    right
    have hholds := (h.holds.append now hw hsmall hend).2
    obtain ⟨-, hb, hbs⟩ := y.produce_of_not_needsRoll hw l.cfg.segmentBytes now hend hroll
    have hactive := hcounts.segments (l.append now batch).1.active (by simp [Log.segments])
    rw [hholds.active, append_cfg] at hactive
    obtain ⟨hbytes, hdue⟩ := Extends.fits_of_counts ⟨hb, hbs, y.stamp_baseOffset hw⟩ hsmall hactive
    rw [length_stamp hw.1.1] at hbytes
    rw [h.holds.active, h.holds.next]
    exact ⟨hbytes, hdue⟩

end append

end Log.Tracks

/-! ### Runs -/

/-- A run whose appends all fit leaves the counters right. -/
theorem tracks_run {cfg : Config} {now : ℤ} {calls : List (ℤ × Bytes)}
    (hcalls : ∀ c ∈ calls, WellFormed c.2 ∧ c.2.length ≤ 104857600)
    (hfits : Along Log.put Log.Fits (Log.create cfg now) calls) :
    ∃ y, (run Log.put (Log.create cfg now) calls).Tracks (calls.map (·.2)) y := by
  induction calls using List.reverseRecOn with
  | nil => exact ⟨_, Log.Tracks.create cfg now⟩
  | append_singleton calls c ih =>
    obtain ⟨hbefore, hlast, -⟩ := along_append.mp hfits
    obtain ⟨y, hy⟩ := ih (fun d hd => hcalls d (by simp [hd])) hbefore
    obtain ⟨hw, hlen⟩ := hcalls c (by simp)
    rw [run_snoc, List.map_append]
    exact hy.append hw hlen hlast

/-- **The counters are right in all states of a run** of appends if and only if every append
of the run fits. -/
theorem counts_iff (cfg : Config) (now : ℤ) (calls : List (ℤ × Bytes))
    (hcalls : ∀ c ∈ calls, WellFormed c.2 ∧ c.2.length ≤ 104857600) :
    (∀ done, done <+: calls →
        (run Log.put (Log.create cfg now) done).Counts (done.map (·.2))) ↔
      Along Log.put Log.Fits (Log.create cfg now) calls := by
  constructor
  · induction calls using List.reverseRecOn with
    | nil => exact fun _ => trivial
    | append_singleton calls c ih =>
      intro hcounts
      have hcalls' : ∀ d ∈ calls, WellFormed d.2 ∧ d.2.length ≤ 104857600 :=
        fun d hd => hcalls d (by simp [hd])
      -- the appends before have fitted, so the layout is known
      have hbefore := ih hcalls' fun done hdone => hcounts done (hdone.trans (List.prefix_append _ _))
      obtain ⟨y, hy⟩ := tracks_run hcalls' hbefore
      have hlast := hcounts _ List.prefix_rfl
      rw [run_snoc, List.map_append] at hlast
      exact along_append.mpr ⟨hbefore, hy.fits_of_counts (hcalls c (by simp)).1 hlast, trivial⟩
  · rintro hfits done ⟨rest, rfl⟩
    obtain ⟨y, hy⟩ := tracks_run (fun c hc => hcalls c (by simp [hc])) (along_append.mp hfits).1
    exact hy.counts

/-- Two batches, with a roll between them. -/
theorem counts_rolled :
    (run Log.put (Log.create ⟨100, 0⟩ 0) [(1, makeBatch 3 [7]), (2, makeBatch 1 [])]).Counts
      [makeBatch 3 [7], makeBatch 1 []] :=
  (counts_iff ⟨100, 0⟩ 0 [(1, makeBatch 3 [7]), (2, makeBatch 1 [])] (by decide +kernel)).mpr
    (by decide +kernel) _ List.prefix_rfl

/-- **A relative offset that wraps**: the third of three batches with `2 ^ 31 - 1` records
each gets the relative offset `-2`, so that the search for the second one ends behind it. -/
theorem offset_wraps :
    let b := makeBatch 2147483647 []
    let l := run Log.put (Log.create ⟨1000000, 0⟩ 0) [(1, b), (2, b), (3, b)]
    WellFormed b ∧ b.length ≤ 104857600 ∧
      l.active.index = [⟨0, 0⟩, ⟨2147483647, 61⟩, ⟨-2, 122⟩] ∧ l.nextOffset = 6442450941 ∧
      floorPosition l.active.index (wrap32 (2147483647 - l.active.baseOffset)) = 122 ∧
      ¬ l.Counts [b, b, b] := by
  intro b l
  have hindex : l.active.index = [⟨0, 0⟩, ⟨2147483647, 61⟩, ⟨-2, 122⟩] := by decide +kernel
  refine ⟨by decide +kernel, by decide +kernel, hindex, by decide +kernel, by decide +kernel, ?_⟩
  intro hcounts
  have hincreasing := (hcounts.segments l.active (by simp [Log.segments])).increasing
  rw [hindex] at hincreasing
  revert hincreasing
  decide

end Storage
end Mq
