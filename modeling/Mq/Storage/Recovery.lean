import Mathlib.Algebra.Order.BigOperators.Group.List
import Mq.Storage.History
import Mq.Storage.Similar

/-!
# Crash recovery

Opening a directory after a crash that left the closed segments intact, cut the
active `.log` file to some length and did anything to the active `.index` file.
The recovery scan walks the batches that are whole, rebuilding the index as the
appends built it, and stops at the torn one.

## Main definitions

* `survivors cut bs` — the batches that lie within the first `cut` bytes.
* `Log.crash` — what a crash leaves on disk.
* `Log.Similar` — two logs that no read and no append can tell apart.

## Main results

* `recoverActive_spec` — **the recovery scan** finds the surviving batches.
* `open_crash` — opening what a crash left gives the surviving layout.
* `Log.Similar.append`, `Log.Similar.read` — **similar logs behave alike.**
-/

namespace Mq
namespace Storage

open Word Record Transition

/-! ### Surviving batches -/

/-- The batches that lie within the first `cut` bytes. -/
def survivors : ℕ → List Bytes → List Bytes
  | _, [] => []
  | cut, b :: bs => if b.length ≤ cut then b :: survivors (cut - b.length) bs else []

theorem survivors_isPrefix (cut : ℕ) (bs : List Bytes) : survivors cut bs <+: bs := by
  induction bs generalizing cut with
  | nil => exact List.nil_prefix
  | cons b bs ih =>
    rw [survivors]
    split
    · exact List.cons_prefix_cons.mpr ⟨rfl, ih _⟩
    · exact List.nil_prefix

variable {bs : List Bytes} {y : Layout}

theorem survivors_of_le {cut : ℕ} (h : bs.flatten.length ≤ cut) : survivors cut bs = bs := by
  induction bs generalizing cut with
  | nil => rfl
  | cons b bs ih =>
    simp only [List.flatten_cons, List.length_append] at h
    rw [survivors, if_pos (by omega), ih (by omega)]

/-- What is left of a batch of at most `room` bytes after a cut inside it, or
nothing. -/
def Torn (room : ℕ) (t : Bytes) : Prop :=
  t = [] ∨ ∃ b, Framed b ∧ t <+: b ∧ t.length < b.length ∧ b.length ≤ room

theorem Torn.mono {room room' : ℕ} {t : Bytes} (h : Torn room t) (hle : room ≤ room') :
    Torn room' t := by
  rcases h with h | ⟨b, h₁, h₂, h₃, h₄⟩
  · exact Or.inl h
  · exact Or.inr ⟨b, h₁, h₂, h₃, h₄.trans hle⟩

/-- The bytes before a cut are the surviving batches and a torn rest. -/
theorem exists_torn (cut : ℕ) (hbs : ∀ b ∈ bs, Framed b) :
    ∃ t, bs.flatten.take cut = (survivors cut bs).flatten ++ t ∧
      Torn (bs.flatten.length - (survivors cut bs).flatten.length) t := by
  induction bs generalizing cut with
  | nil => exact ⟨[], by simp [survivors], Or.inl rfl⟩
  | cons b bs ih =>
    rw [survivors]
    by_cases hle : b.length ≤ cut
    · obtain ⟨t, ht, htorn⟩ := ih (cut - b.length) fun c hc => hbs c (by simp [hc])
      rw [if_pos hle, List.flatten_cons, List.flatten_cons]
      refine ⟨t, ?_, htorn.mono (by simp only [List.length_append]; omega)⟩
      rw [List.take_append, ht, List.take_of_length_le hle, List.append_assoc]
    · rw [if_neg hle, List.flatten_cons]
      refine ⟨b.take cut, ?_, Or.inr ⟨b, hbs b (by simp), List.take_prefix _ _, ?_, ?_⟩⟩
      · rw [List.take_append_of_le_length (by omega)]; rfl
      · rw [List.length_take]; omega
      · simp

/-! ### The recovery scan -/

/-- The file of `s` holds whole batches and then a torn one. -/
structure Segment.Damaged (s : Segment) (bs : List Bytes) (t : Bytes) : Prop where
  file : s.logFile = bs.flatten ++ t
  size : s.logSize = s.logFile.length
  small : s.logFile.length < 2147483648
  framed : ∀ b ∈ bs, Framed b
  torn : Torn (2147483647 - bs.flatten.length) t

/-- The file of `s` holds whole batches, whatever follows them. -/
structure Segment.Holds (s : Segment) (bs : List Bytes) (t : Bytes) : Prop where
  file : s.logFile = bs.flatten ++ t
  size : s.logSize = s.logFile.length
  small : s.logFile.length < 2147483648
  framed : ∀ b ∈ bs, Framed b

/-- A scan cannot go on here: there is no header, or one of a batch that is longer than what
is there, though not longer than `room`. -/
def Stops (room : ℕ) (t : Bytes) : Prop :=
  ∀ h, parseHeader t = .ok h → t.length < h.totalSize ∧ h.totalSize ≤ room

theorem Segment.Damaged.holds {s : Segment} {t : Bytes} (h : s.Damaged bs t) :
    s.Holds bs t := ⟨h.file, h.size, h.small, h.framed⟩

theorem Torn.stops {room : ℕ} {t : Bytes} (h : Torn room t) : Stops room t := by
  intro hdr hparse
  have hlong := (parseHeader_eq_ok.mp hparse).1
  rcases h with rfl | ⟨b, hb, ⟨u, rfl⟩, hlt, hroom⟩
  · exact absurd hlong (by decide)
  · -- the header is whole, but the batch it announces is not
    rw [← parseHeader_append u hlong, hb.parseHeader] at hparse
    cases hparse
    have hlen := hb.2.2
    omega

section scan

variable {s : Segment} {pre post : List Bytes} {b t : Bytes}

/-- The scan takes a whole batch. -/
theorem recoverLoop_step (h : s.Holds (pre ++ b :: post) t) (fuel : ℕ) {c : Scan}
    (hc : c.pos = pre.flatten.length) :
    recoverLoop s (fuel + 1) c
      = recoverLoop s fuel (c.step s.baseOffset s.indexInterval (header b)
          (wrap32 (header b).totalSize)) := by
  have hb := h.framed b (by simp)
  have hsmall := h.small
  have hfile := h.file
  rw [List.flatten_append, List.flatten_cons, List.append_assoc, List.append_assoc] at hfile
  have hsize := h.size
  rw [hfile] at hsmall hsize
  simp only [List.length_append, Nat.cast_add] at hsmall hsize
  have hhdr := hb.1
  have htotal : wrap32 (header b).totalSize = b.length := by
    rw [← hb.2.2, wrap32_eq (by omega) (by omega)]
  unfold headerSize at hhdr
  have hlen : headerSize ≤ (b ++ (post.flatten ++ t)).length := by
    rw [List.length_append]; unfold headerSize; omega
  have hparse : parseHeader ((b ++ (post.flatten ++ t)).take headerSize) = .ok (header b) := by
    rw [parseHeader_take hlen, parseHeader_append _ hb.1, hb.parseHeader]
  have hremain : ¬ wrap32 (s.logSize - pre.flatten.length) < headerSize := by
    rw [wrap32_eq (by omega) (by omega)]; unfold headerSize; push_cast; omega
  have hnext : ¬ s.logSize < wrap32 (pre.flatten.length + b.length) := by
    rw [wrap32_eq (by omega) (by omega)]; omega
  rw [recoverLoop, if_pos (by rw [hc]; omega), hc, if_neg hremain, hfile, readAt_append hlen]
  simp only [hparse, htotal, if_neg hnext]

/-- The scan stops where it cannot go on. -/
theorem recoverLoop_stop (h : s.Holds pre t) (ht : Stops (2147483647 - pre.flatten.length) t)
    (fuel : ℕ) {c : Scan} (hc : c.pos = pre.flatten.length) :
    recoverLoop s (fuel + 1) c = .ok c := by
  have hsmall := h.small
  have hsize := h.size
  rw [h.file] at hsmall hsize
  simp only [List.length_append, Nat.cast_add] at hsmall hsize
  rw [recoverLoop]
  split
  · have hremain : wrap32 (s.logSize - c.pos) = t.length := by
      rw [hc, wrap32_eq (by omega) (by omega)]; omega
    split
    · rfl
    · next hlong =>
      rw [hremain] at hlong
      have hlong : headerSize ≤ t.length := by omega
      rw [hc, h.file, readAt_append hlong]
      dsimp only
      rw [parseHeader_take hlong]
      cases hparse : parseHeader t with
      | error e => rfl
      | ok hdr =>
        obtain ⟨hlt, hroom⟩ := ht hdr hparse
        dsimp only
        rw [if_pos]
        rw [wrap32_eq (x := hdr.totalSize) (by omega) (by omega), wrap32_eq (by omega) (by omega)]
        omega
  · rfl

theorem scanAll_pos_eq (h : s.Holds (pre ++ post) t) :
    (scanAll s.baseOffset s.indexInterval pre).pos = pre.flatten.length := by
  have hsmall := h.small
  rw [h.file] at hsmall
  simp only [List.length_append, List.flatten_append] at hsmall
  rw [scanAll_pos _ _ fun b hb => h.framed b (by simp [hb]), wrap32_eq (by omega) (by omega)]

/-- The scan walks the whole batches, with the counters and the index of a
segment that appended them. -/
theorem recoverLoop_all (ht : ∀ bs, s.Holds bs t → Stops (2147483647 - bs.flatten.length) t) :
    ∀ (post pre : List Bytes) (fuel : ℕ), s.Holds (pre ++ post) t →
      recoverLoop s (post.length + fuel + 1) (scanAll s.baseOffset s.indexInterval pre)
        = .ok (scanAll s.baseOffset s.indexInterval (pre ++ post)) := by
  intro post
  induction post with
  | nil =>
    intro pre fuel h
    rw [List.append_nil] at h ⊢
    exact recoverLoop_stop h (ht pre h) _ (scanAll_pos_eq (by rwa [List.append_nil]))
  | cons b post ih =>
    intro pre fuel h
    have hfuel : (b :: post).length + fuel + 1 = post.length + fuel + 1 + 1 := by
      simp only [List.length_cons]; omega
    have hpos : (scanAll s.baseOffset s.indexInterval pre).pos = pre.flatten.length :=
      scanAll_pos_eq h
    rw [hfuel, recoverLoop_step h _ hpos, ← scanAll_snoc, ih (pre ++ [b]) fuel (by simpa using h)]
    simp

/-- **The scan of a file** finds its whole batches. -/
theorem recoverLoop_holds {bs : List Bytes} (h : s.Holds bs t)
    (ht : Stops (2147483647 - bs.flatten.length) t) :
    recoverLoop s (s.logSize.toNat + 2) ⟨0, 0, [], 0⟩
      = .ok (scanAll s.baseOffset s.indexInterval bs) := by
  have hcount := length_le_flatten_length h.framed
  have hlen : s.logFile.length = bs.flatten.length + t.length := by
    rw [h.file, List.length_append]
  obtain ⟨fuel, hfuel⟩ : ∃ fuel, s.logSize.toNat + 2 = bs.length + fuel + 1 :=
    ⟨s.logSize.toNat + 1 - bs.length, by rw [h.size, Int.toNat_natCast]; omega⟩
  rw [hfuel]
  refine recoverLoop_all (fun cs hcs => ?_) bs [] fuel h
  -- the bytes before the rest are as many, however they are cut
  have heq : cs.flatten.length = bs.flatten.length := by
    have := congrArg List.length hcs.file
    rw [List.length_append] at this
    omega
  rwa [heq]

/-- The segment with the batches `bs` in its file and the index that they determine. -/
def Segment.rebuilt (s : Segment) (modTime : ℤ) (bs : List Bytes) : Segment :=
  let c := scanAll s.baseOffset s.indexInterval bs
  { s with
    logFile := bs.flatten
    idxFile := (c.index.map encodeIndexEntry).flatten
    modTime := modTime
    logSize := c.pos
    index := c.index
    bytesSinceIdx := c.bytesSinceIdx }

/-- The next offset that the scan finds behind the batches `bs`. -/
def Segment.nextAfter (s : Segment) (bs : List Bytes) : ℤ :=
  let c := scanAll s.baseOffset s.indexInterval bs
  if c.next = 0 then s.baseOffset else c.next

/-- **The recovery of a file** keeps its whole batches.  The file is written to only if there
is more in it. -/
theorem recoverActive_holds {bs : List Bytes} (h : s.Holds bs t)
    (ht : Stops (2147483647 - bs.flatten.length) t) (now : ℤ) :
    recoverActive s now
      = .ok (s.rebuilt (if t = [] then s.modTime else now) bs, s.nextAfter bs) := by
  have hlen : s.logFile.length = bs.flatten.length + t.length := by
    rw [h.file, List.length_append]
  have hpos : (scanAll s.baseOffset s.indexInterval bs).pos = bs.flatten.length :=
    scanAll_pos_eq (List.append_nil bs ▸ h)
  rw [recoverActive, recoverLoop_holds h ht]
  simp only [bind, Except.bind]
  by_cases hnil : t = []
  · -- nothing to cut off
    have hfile : s.logFile = bs.flatten := by rw [h.file, hnil, List.append_nil]
    have hsize : (scanAll s.baseOffset s.indexInterval bs).pos = s.logSize := by
      rw [hpos, h.size, hfile]
    rw [if_pos hsize, if_pos hnil]
    simp only [pure, Except.pure, Segment.rebuilt, Segment.nextAfter, ← hfile, ← hsize]
  · have hsize : (scanAll s.baseOffset s.indexInterval bs).pos ≠ s.logSize := by
      have := List.length_pos_of_ne_nil hnil
      rw [hpos, h.size, hlen]; omega
    have htrunc : truncate s.logFile (scanAll s.baseOffset s.indexInterval bs).pos
        = some bs.flatten := by
      rw [hpos, truncate_of_le (by omega), h.file, List.take_left]
    rw [if_neg hsize, if_neg hnil, htrunc]
    rfl

end scan

/-- A run with another modification time. -/
def Part.redated (p : Part) (modTime : ℤ) : Part := { p with modTime := modTime }

/-- **The recovery scan.**  What is left of a damaged segment is a segment that
holds its whole batches. -/
theorem recoverActive_spec {s : Segment} {p : Part} {t : Bytes} (h : s.Damaged p.batches t)
    (hbase : s.baseOffset = p.base) (now : ℤ) :
    ∃ m, recoverActive s now = .ok (Segment.ofPart s.indexInterval (p.redated m), p.stop) := by
  have hnext : s.nextAfter p.batches = p.stop := by
    rw [Segment.nextAfter, hbase]
    by_cases hnil : p.batches = []
    · have hch := p.chained
      rw [hnil] at hch ⊢
      exact hch
    · have hlt := p.chained.lt hnil
      have h₀ := p.nonneg
      rw [scanAll_next p _ hnil, if_neg (by omega)]
  refine ⟨if t = [] then s.modTime else now, ?_⟩
  rw [recoverActive_holds h.holds h.torn.stops, hnext, Segment.rebuilt, hbase]
  rfl

/-! ### Opening what a crash left -/

/-- What a crash leaves on disk: the closed segments, the active `.log` file cut
to `cut` bytes and anything in the active `.index` file. -/
def Log.crash (l : Log) (cut : ℕ) (idx : Bytes) (modTime : ℤ) : Dir :=
  l.sealed.map Segment.files ++ [⟨l.active.baseOffset, l.active.logFile.take cut, idx, modTime⟩]

/-- The layout with only the first batches of its active segment. -/
def Layout.cutTo (y : Layout) (modTime : ℤ) (bs : List Bytes) (h : bs <+: y.last.batches) :
    Layout where
  closed := y.closed
  last := y.last.upTo modTime bs h
  linked := by
    have hlink := y.linked
    cases hc : y.closed with
    | nil => exact rfl
    | cons p ps => rw [hc] at hlink; exact hlink

/-- A closed segment is reopened as it was, but for its counter. -/
theorem openSegment_files (interval : ℤ) (p : Part) :
    (openSegment (Segment.ofPart interval p).files interval).settled
      = (Segment.ofPart interval p).settled := by
  have hsize := ofPart_logSize interval p
  have hindex := decodeIndexEntries_encode (scanAll_fits p.base interval p.chained.framed)
  simp only [Segment.ofPart, Segment.files, openSegment, Segment.settled] at hsize ⊢
  rw [hindex, hsize]

theorem crash_sorted {l : Log} (h : l.Holds y) (cut : ℕ) (idx : Bytes) (modTime : ℤ) :
    (l.crash cut idx modTime).insertionSort (fun f g => f.baseOffset ≤ g.baseOffset)
      = l.crash cut idx modTime := by
  have hbases : (l.crash cut idx modTime).map (·.baseOffset) = y.parts.map (·.base) := by
    rw [← h.bases, Log.crash, Log.segments, List.map_append, List.map_append, List.map_map]
    rfl
  apply List.Pairwise.insertionSort_eq
  have hpair : (y.parts.map (·.base)).Pairwise (· ≤ ·) :=
    List.pairwise_map.mpr (y.pairwise.imp fun {p q} hpq => p.chained.le.trans hpq)
  rw [← hbases, List.pairwise_map] at hpair
  exact hpair

/-- **Opening what a crash left.**  The recovered log holds the closed segments
and the surviving batches of the active one. -/
theorem open_crash {l : Log} (h : l.Holds y) (hsmall : y.last.bytes.length < 2147483648) (cut : ℕ)
    (idx : Bytes) (modTime now : ℤ) :
    ∃ r m, Log.open l.cfg now (l.crash cut idx modTime) = .ok r ∧ r.cfg = l.cfg ∧
      r.highWatermark = r.nextOffset ∧ r.holdHWM = false ∧
      r.Holds (y.cutTo m (survivors cut y.last.batches) (survivors_isPrefix _ _)) := by
  have hpre := survivors_isPrefix cut y.last.batches
  obtain ⟨t, htake, htorn⟩ := exists_torn cut y.last.chained.framed
  set last : SegmentFiles := ⟨l.active.baseOffset, l.active.logFile.take cut, idx, modTime⟩ with hlast
  set iv := l.cfg.indexIntervalBytes with hiv
  have hfile : last.log = (survivors cut y.last.batches).flatten ++ t := by
    rw [← htake, hlast, h.active]; rfl
  have hlen : last.log.length ≤ y.last.bytes.length := by
    rw [hlast, h.active]; simp
  have hdamaged : (openSegment last iv).Damaged
      (y.last.upTo 0 (survivors cut y.last.batches) hpre).batches t := by
    refine ⟨hfile, ?_, by exact hlen.trans_lt hsmall, ?_, htorn.mono ?_⟩
    · exact wrap32_eq (by omega) (by exact_mod_cast hlen.trans_lt hsmall)
    · exact fun b hb => y.last.chained.framed b (hpre.subset hb)
    · have : (y.last.batches).flatten.length < 2147483648 := hsmall
      simp only [Part.upTo]; omega
  obtain ⟨m, hrec⟩ := recoverActive_spec hdamaged (by rw [hlast, h.active]; rfl) now
  have hopen : Log.open l.cfg now (l.crash cut idx modTime) = .ok
      { cfg := l.cfg
        sealed := (l.sealed.map Segment.files).map (openSegment · iv)
        active := Segment.ofPart iv
          ((y.last.upTo 0 (survivors cut y.last.batches) hpre).redated m)
        nextOffset := (y.last.upTo 0 (survivors cut y.last.batches) hpre).stop
        highWatermark := (y.last.upTo 0 (survivors cut y.last.batches) hpre).stop
        holdHWM := false
        dirty := false } := by
    rw [Log.open, crash_sorted h]
    simp only [Log.crash, ← hlast, List.getLast?_concat, List.dropLast_concat, ← hiv, hrec, bind,
      Except.bind, pure, Except.pure]
    rfl
  refine ⟨_, m, hopen, rfl, rfl, rfl, ?_, rfl, rfl⟩
  have hclosed := h.map_sealed (f := fun s => (openSegment s.files iv).settled) fun _ => rfl
  simp only [List.map_map, Function.comp_def, hclosed, openSegment_files, Layout.cutTo, ← hiv]

theorem crash_eq_dir (l : Log) :
    l.crash l.active.logFile.length l.active.idxFile l.active.modTime = l.dir := by
  simp [Log.crash, Log.dir, Log.segments, Segment.files]

/-- **Reopening a log** that was closed brings back the same batches in the same
segments. -/
theorem open_dir {l : Log} (h : l.Holds y) (hsmall : y.last.bytes.length < 2147483648) (now : ℤ) :
    ∃ r y', Log.open l.cfg now l.dir = .ok r ∧ r.cfg = l.cfg ∧ r.highWatermark = r.nextOffset ∧
      r.holdHWM = false ∧ r.Holds y' ∧ y'.batches = y.batches ∧ y'.start = y.start ∧
      y'.last.stop = y.last.stop ∧
      y'.parts.map (fun p => (p.bytes, p.base, p.stop))
        = y.parts.map fun p => (p.bytes, p.base, p.stop) := by
  obtain ⟨r, m, hr, hcfg, hhwm, hhold, hH⟩ :=
    open_crash h hsmall l.active.logFile.length l.active.idxFile l.active.modTime now
  rw [crash_eq_dir] at hr
  have hall : survivors l.active.logFile.length y.last.batches = y.last.batches := by
    refine survivors_of_le ?_
    rw [h.active]; exact le_rfl
  have hstop : y.last.base + offsetCount (survivors l.active.logFile.length y.last.batches)
      = y.last.stop := by rw [hall, ← y.last.chained.stop_eq]
  refine ⟨r, _, hr, hcfg, hhwm, hhold, hH, ?_, ?_, hstop, ?_⟩
  · rw [Layout.batches_eq, Layout.batches_eq]
    exact congrArg _ hall
  · simp only [Layout.start, Layout.cutTo]
    cases y.closed <;> rfl
  · simp only [Layout.parts, Layout.cutTo, List.map_append, List.map_singleton, Part.upTo,
      Part.bytes, hall]
    rw [← y.last.chained.stop_eq]

/-! ### The live log behind a recovered one -/

/-- Logs that hold the same batches in the same segments are similar. -/
theorem Log.Holds.similar {l l' : Log} {y' : Layout} (h : l.Holds y) (h' : l'.Holds y')
    (hcfg : l.cfg = l'.cfg) (hclosed : y.closed = y'.closed)
    (hlast : y.last.redated 0 = y'.last.redated 0) : l.Similar l' := by
  have hdate : ∀ (iv : ℤ) (p : Part),
      (Segment.ofPart iv p).undated = Segment.ofPart iv (p.redated 0) := fun _ _ => rfl
  refine ⟨hcfg, ?_, ?_, ?_⟩
  · rw [h.map_sealed fun _ => rfl, h'.map_sealed fun _ => rfl, hclosed, hcfg]
  · rw [h.active, h'.active, hdate, hdate, hlast, hcfg]
  · rw [h.next, h'.next]
    have := congrArg Part.stop hlast
    exact this

/-- The layout `y'` is where the first batches `bs` of the active segment of `y`
had been appended, and no later ones.  Without any, it may be the layout just
before the roll that started the segment. -/
def Layout.Origin (y y' : Layout) (bs : List Bytes) : Prop :=
  (y'.last.batches = bs ∧ y'.last.base = y.last.base ∧ y.closed <:+ y'.closed) ∨
    (bs = [] ∧ y'.last.batches ≠ [] ∧ y'.last.stop = y.last.base ∧
      y.closed <:+ y'.closed ++ [y'.last])

theorem Layout.Origin.refl (y : Layout) : y.Origin y y.last.batches :=
  Or.inl ⟨rfl, rfl, List.suffix_refl _⟩

/-- Whatever is deleted from the front, the origin stays. -/
theorem Layout.Origin.mono {z y' : Layout} (h : y.Origin y' bs)
    (hbase : z.last.base = y.last.base) (hclosed : z.closed <:+ y.closed) : z.Origin y' bs := by
  rcases h with ⟨h₁, h₂, h₃⟩ | ⟨h₁, h₂, h₃, h₄⟩
  · exact Or.inl ⟨h₁, by rw [hbase, h₂], hclosed.trans h₃⟩
  · exact Or.inr ⟨h₁, h₂, by rw [hbase, h₃], hclosed.trans h₄⟩

/-- The first batches of the active segment of `y` were all there was in some
earlier state of the run. -/
def HasOrigin (l₀ : Log) (ops : List Op) (y : Layout) (bs : List Bytes) : Prop :=
  ∃ ops' y', ops' <+: ops ∧ (l₀.run ops').Holds y' ∧ Follows ops' y' ∧ y.Origin y' bs

theorem HasOrigin.mono {l₀ : Log} {ops : List Op} {op : Op} {z : Layout}
    (h : HasOrigin l₀ ops y bs) (hbase : z.last.base = y.last.base)
    (hclosed : z.closed <:+ y.closed) : HasOrigin l₀ (ops ++ [op]) z bs := by
  obtain ⟨ops', y', hpre, hy', hf, ho⟩ := h
  exact ⟨ops', y', hpre.trans (List.prefix_append _ _), hy', hf, ho.mono hbase hclosed⟩

/-- **Origins.**  Every run leads to a layout that follows it, and every prefix of
its active segment has an origin in the run. -/
theorem run_origin {cfg : Config} {now : ℤ} {l₀ : Log} {ops : List Op}
    (hopen : Log.open cfg now [] = .ok l₀) (hwf : ∀ b ∈ appended ops, WellFormed b)
    (hsized : Always Log.step Log.Sized l₀ ops) :
    ∃ y, (l₀.run ops).Holds y ∧ Follows ops y ∧
      ∀ bs, bs <+: y.last.batches → HasOrigin l₀ ops y bs := by
  let P : List Op → Layout → Prop := fun ops y =>
    Follows ops y ∧ ∀ bs, bs <+: y.last.batches → HasOrigin l₀ ops y bs
  have hnil : P [] (Layout.empty now) := by
    refine ⟨follows_nil now, fun bs hbs => ?_⟩
    obtain rfl : bs = [] := List.prefix_nil.mp hbs
    exact ⟨[], Layout.empty now, List.prefix_refl _, (Log.Holds.of_open_nil hopen).2,
      follows_nil now, .refl _⟩
  have hmove : ∀ ops op y y', (l₀.run ops).Holds y → (l₀.run (ops ++ [op])).Holds y' →
      y.Moves op.batch? y' → P ops y → P (ops ++ [op]) y' := by
    rintro ops op y y' hy hy' hm ⟨hf, ho⟩
    have hf' := hf.moves hm
    refine ⟨hf', fun bs hbs => ?_⟩
    -- the whole active segment is its own origin
    have hself : HasOrigin l₀ (ops ++ [op]) y' y'.last.batches :=
      ⟨ops ++ [op], y', List.prefix_refl _, hy', hf', .refl _⟩
    revert hm
    generalize op.batch? = batch
    intro hm
    cases hm with
    | @produce batch hw segmentBytes now hfit =>
      rcases y.produce_cases hw segmentBytes now hfit with
        ⟨hclosed, hbase, hbatches⟩ | ⟨hne, hclosed, hbase, hbatches⟩
      · rw [hbatches, List.prefix_concat_iff] at hbs
        rcases hbs with rfl | hbs
        · rw [← hbatches]; exact hself
        · exact (ho bs hbs).mono hbase (by rw [hclosed])
      · rw [hbatches, ← List.nil_append [_], List.prefix_concat_iff] at hbs
        rcases hbs with rfl | hbs
        · rw [List.nil_append, ← hbatches]; exact hself
        · obtain rfl : bs = [] := List.prefix_nil.mp hbs
          exact ⟨ops, y, List.prefix_append _ _, hy, hf,
            Or.inr ⟨rfl, hne, hbase.symm, by rw [hclosed]⟩⟩
    | drop n => exact (ho bs hbs).mono rfl (List.drop_suffix _ _)
  obtain ⟨y, ⟨hf, ho⟩, hy⟩ := run_invariant hopen hwf hsized hnil hmove
  exact ⟨y, hy cfg.indexIntervalBytes l₀ hopen, hf, ho⟩

/-! ### Retention down to a size -/

/-- A size limit that deletes exactly the segments `d`. -/
theorem dropCount_exact {now : ℤ} {d r : List Part} {rest : ℤ}
    (hd : ∀ p ∈ d, 2 ≤ wrap32 p.bytes.length) (hrest : 0 ≤ rest) :
    Retention.dropCount (fun p => expired now 0 p.modTime) (overSize (max 1 rest))
      (fun p => wrap32 p.bytes.length) (rest + (d.map fun p => wrap32 p.bytes.length).sum) (d ++ r)
      = d.length := by
  induction d with
  | nil =>
    cases r with
    | nil => rfl
    | cons p r => simp [Retention.dropCount, expired, overSize]
  | cons p d ih =>
    have hp := hd p (by simp)
    have hsum : 0 ≤ (d.map fun p => wrap32 p.bytes.length).sum :=
      List.sum_nonneg fun z hz => by
        obtain ⟨w, hw, rfl⟩ := List.mem_map.mp hz
        have := hd w (by simp [hw]); omega
    have hover : overSize (max 1 rest) (rest + ((p :: d).map fun p => wrap32 p.bytes.length).sum)
        = true := by
      simp only [overSize, List.map_cons, List.sum_cons, decide_eq_true_eq]; omega
    have htotal : rest + ((p :: d).map fun p => wrap32 p.bytes.length).sum - wrap32 p.bytes.length
        = rest + (d.map fun p => wrap32 p.bytes.length).sum := by
      simp only [List.map_cons, List.sum_cons]; omega
    rw [List.cons_append, Retention.dropCount, hover, Bool.or_true, if_pos rfl, htotal,
      ih fun z hz => hd z (by simp [hz])]
    rfl

theorem Part.two_le_length (p : Part) (h : p.batches ≠ []) : 2 ≤ p.bytes.length := by
  obtain ⟨b, hb⟩ := List.exists_mem_of_ne_nil _ h
  have hlen := (p.chained.framed b hb).1
  have hle := (List.sublist_flatten_of_mem hb).length_le
  unfold headerSize at hlen
  have : (p.batches.flatten).length = p.bytes.length := rfl
  omega

/-- Retention can delete any number of the oldest closed segments, and no more. -/
theorem Layout.exists_retention (y : Layout) (now : ℤ)
    (hsmall : ∀ p ∈ y.parts, p.bytes.length < 2147483648) {ps : List Part} (hps : ps <:+ y.closed) :
    ∃ maxBytes, (y.enforceRetention now 0 maxBytes).closed = ps ∧
      (y.enforceRetention now 0 maxBytes).last = y.last := by
  obtain ⟨d, hd⟩ := hps
  have hwrap : ∀ p ∈ y.parts, wrap32 p.bytes.length = p.bytes.length := fun p hp => by
    have := hsmall p hp
    exact wrap32_eq (by omega) (by omega)
  have hmem : ∀ p ∈ d, p ∈ y.closed := fun p hp => by rw [← hd]; simp [hp]
  let rest : ℤ := ((ps ++ [y.last]).map fun p => wrap32 p.bytes.length).sum
  have hsize : y.size = rest + (d.map fun p => wrap32 p.bytes.length).sum := by
    rw [Layout.size, Layout.parts, ← hd, List.append_assoc, List.map_append, List.sum_append]
    exact add_comm _ _
  have hrest : 0 ≤ rest := by
    refine List.sum_nonneg fun z hz => ?_
    obtain ⟨p, hp, rfl⟩ := List.mem_map.mp hz
    have hp' : p ∈ y.parts := by
      rw [Layout.parts, ← hd, List.append_assoc]; exact List.mem_append_right _ hp
    rw [hwrap p hp']; omega
  have hpos : ∀ p ∈ d, 2 ≤ wrap32 p.bytes.length := by
    intro p hp
    have hne := y.linked.ne_nil p (hmem p hp)
    have := p.two_le_length hne
    have hw := hwrap p (List.mem_append_left _ (hmem p hp))
    omega
  refine ⟨max 1 rest, ?_, rfl⟩
  have hdrop := @dropCount_exact now d ps rest hpos hrest
  rw [hd, ← hsize] at hdrop
  change y.closed.drop (Retention.dropCount _ (overSize (max 1 rest)) _ y.size y.closed) = ps
  rw [hdrop, ← hd, List.drop_left]

end Storage
end Mq
