import Mq.Lib.Transition
import Mq.Storage.Refinement

/-!
# Runs of a log

A run of a partition log is a sequence of appends, flushes and retention passes
on a log opened in an empty directory.  Its history is the sequence of batches it
appended, each stamped with the offset it was given; the log holds a suffix of
it, because retention deletes from the front.

## Main definitions

* `Op`, `Log.step`, `Log.run` — runs.
* `history` — what a run appended, as stored.
* `Log.Sized`, `Log.Spans` — the sizes the code's 32-bit fields can hold.

## Main results

* `run_invariant` — **the run invariant rule**: what every move of a layout keeps
  holds of every run, and the layout does not depend on the index interval.
* `run_follows` — the log holds the most recent batches of the history.
* `read_correct` — **reads return the stored batches.**
-/

namespace Mq
namespace Storage

open Word Record Transition

/-! ### Operations and histories -/

/-- The operations on a log that appends on its own. -/
inductive Op where
  | append (now : ℤ) (batch : Bytes)
  | flush
  | enforceRetention (now maxAgeMs maxBytes : ℤ)
  deriving DecidableEq, Repr

/-- The log after an operation. -/
def Log.step (l : Log) : Op → Log
  | .append now batch => (l.append now batch).1
  | .flush => l.flush
  | .enforceRetention now maxAgeMs maxBytes => l.enforceRetention now maxAgeMs maxBytes

/-- The log after a sequence of operations. -/
def Log.run (l : Log) (ops : List Op) : Log := Transition.run Log.step l ops

/-- The batch an operation appends. -/
def Op.batch? : Op → Option Bytes
  | .append _ batch => some batch
  | _ => none

/-- The batches a run appends, as handed in. -/
def appended (ops : List Op) : List Bytes := ops.filterMap Op.batch?

/-- The batches stamped with consecutive offsets from `a` on. -/
def stampAll : ℤ → List Bytes → List Bytes
  | _, [] => []
  | a, b :: bs => stamp a b :: stampAll (a + (header b).recordCount) bs

/-- What a run appends, as stored. -/
def history (ops : List Op) : List Bytes := stampAll 0 (appended ops)

theorem stampAll_snoc (a : ℤ) (bs : List Bytes) (b : Bytes) :
    stampAll a (bs ++ [b]) = stampAll a bs ++ [stamp (a + offsetCount bs) b] := by
  induction bs generalizing a with
  | nil => simp [stampAll, offsetCount]
  | cons c bs ih => simp [stampAll, ih, offsetCount, add_assoc]

theorem exists_of_mem_stampAll {a : ℤ} {bs : List Bytes} {c : Bytes} (hc : c ∈ stampAll a bs) :
    ∃ b ∈ bs, ∃ base, c = stamp base b := by
  induction bs generalizing a with
  | nil => simp [stampAll] at hc
  | cons b bs ih =>
    rcases List.mem_cons.mp hc with rfl | hc
    · exact ⟨b, by simp, a, rfl⟩
    · obtain ⟨b', hb', h⟩ := ih hc
      exact ⟨b', by simp [hb'], h⟩

theorem appended_snoc (ops : List Op) (op : Op) :
    appended (ops ++ [op]) = appended ops ++ op.batch?.toList := by
  cases op <;> simp [appended, Op.batch?]

/-! ### The sizes of segments -/

/-- The segments of a log, each with the offset where it ends: the base of the
next one, or the end of the log. -/
def Log.extents (l : Log) : List (Segment × ℤ) :=
  l.segments.zip ((l.segments.map (·.baseOffset)).tail ++ [l.nextOffset])

/-- Every segment has fewer than `2 ^ 31` bytes, and none ends before its base. -/
def Log.Sized (l : Log) : Prop :=
  ∀ x ∈ l.extents, x.1.logFile.length < 2147483648 ∧ x.1.baseOffset ≤ x.2

/-- Every segment spans fewer than `2 ^ 31` bytes and `2 ^ 31` offsets. -/
def Log.Spans (l : Log) : Prop :=
  ∀ x ∈ l.extents, x.1.logFile.length < 2147483648 ∧ x.1.baseOffset ≤ x.2 ∧
    x.2 - x.1.baseOffset < 2147483648

instance (l : Log) : Decidable l.Sized :=
  inferInstanceAs (Decidable (∀ x ∈ l.extents, _ ∧ _))

instance (l : Log) : Decidable l.Spans :=
  inferInstanceAs (Decidable (∀ x ∈ l.extents, _ ∧ _ ∧ _))

variable {l : Log} {y : Layout}

theorem Log.Spans.sized (h : l.Spans) : l.Sized := fun x hx => ⟨(h x hx).1, (h x hx).2.1⟩

theorem active_mem_extents (l : Log) : (l.active, l.nextOffset) ∈ l.extents := by
  have hlen : l.sealed.length = ((l.sealed ++ [l.active]).map (·.baseOffset)).tail.length := by
    simp
  rw [Log.extents, Log.segments, List.zip_append hlen]
  simp

/-- In a linked sequence every run ends where the next one starts. -/
theorem Linked.stops {a : ℤ} {ps : List Part} {p : Part} (h : Linked a ps p.base) :
    ((ps ++ [p]).map (·.base)).tail = ps.map (·.stop) := by
  induction ps generalizing a with
  | nil => rfl
  | cons q ps ih =>
    have hnext : (ps.headD p).base = q.stop := h.2.2.start_eq
    have ih := ih h.2.2
    cases ps with
    | nil => simpa using hnext
    | cons r ps =>
      simp only [List.cons_append, List.map_cons, List.tail_cons, List.headD_cons] at ih hnext ⊢
      rw [hnext, ih]

theorem Log.Holds.extents (h : l.Holds y) :
    l.extents.map (fun x => (x.1.logFile, x.1.baseOffset, x.2))
      = y.parts.map fun p => (p.bytes, p.base, p.stop) := by
  have hends : (l.segments.map (·.baseOffset)).tail ++ [l.nextOffset] = y.parts.map (·.stop) := by
    rw [h.bases, h.next, Layout.parts, y.linked.stops, List.map_append]
    rfl
  have hzip : (l.segments.map fun s => (s.logFile, s.baseOffset)).zip (y.parts.map (·.stop))
      = (y.parts.map fun p => (p.bytes, p.base)).zip (y.parts.map (·.stop)) :=
    congrArg (List.zip · _) (h.map_segments fun _ => rfl)
  rw [List.zip_map', List.zip_map_left] at hzip
  have := congrArg (List.map fun x : (Bytes × ℤ) × ℤ => (x.1.1, x.1.2, x.2)) hzip
  simp only [List.map_map, Function.comp_def, Prod.map] at this
  rw [Log.extents, hends]
  exact this

/-- What holds of every extent of a log holds of every run of its layout. -/
theorem Log.Holds.forall_extents (h : l.Holds y) (P : Bytes → ℤ → ℤ → Prop) :
    (∀ x ∈ l.extents, P x.1.logFile x.1.baseOffset x.2) ↔
      ∀ p ∈ y.parts, P p.bytes p.base p.stop := by
  have := congrArg (fun xs => ∀ t ∈ xs, P t.1 t.2.1 t.2.2) h.extents
  simpa only [List.forall_mem_map, eq_iff_iff] using this

theorem Log.Holds.sized_iff (h : l.Holds y) :
    l.Sized ↔ ∀ p ∈ y.parts, p.bytes.length < 2147483648 := by
  rw [Log.Sized, h.forall_extents fun f a z => f.length < 2147483648 ∧ a ≤ z]
  exact forall₂_congr fun p _ => and_iff_left p.chained.le

theorem Log.Holds.spans_iff (h : l.Holds y) :
    l.Spans ↔ ∀ p ∈ y.parts, p.bytes.length < 2147483648 ∧ p.stop - p.base < 2147483648 := by
  rw [Log.Spans, h.forall_extents fun f a z => f.length < 2147483648 ∧ a ≤ z ∧ z - a < 2147483648]
  exact forall₂_congr fun p _ => and_congr_right fun _ => and_iff_right p.chained.le

/-! ### One step -/

theorem recordCount_lt (b : Bytes) : (header b).recordCount < 2147483648 := (wrap32_bounds _).2

/-- A log that ends no earlier than its active segment starts has not run out of
offsets. -/
theorem Log.Holds.fits_of_sized (h : l.Holds y) {now : ℤ} {batch : Bytes} (hw : WellFormed batch)
    (hs : l.Sized) (hs' : (l.append now batch).1.Sized) :
    y.last.stop + (header batch).recordCount < 9223372036854775808 := by
  have hsmall := h.sized_iff.mp hs y.last (by simp [Layout.parts])
  obtain ⟨s, hbase, -, heq⟩ := h.append_eq now hw hsmall
  have hend := (hs' _ (active_mem_extents _)).2
  rw [heq] at hend
  simp only [Log.setActive] at hend
  have h₀ := y.stop_nonneg
  have h₁ := y.last.fits
  have h₂ := recordCount_lt batch
  have h₃ := hw.2.2
  -- a sum past the largest offset would have wrapped to a negative one
  unfold wrap64 at hend
  omega

theorem append_cfg (l : Log) (now : ℤ) (batch : Bytes) : (l.append now batch).1.cfg = l.cfg := by
  have hroll : ∀ base n, (l.rollFor now base n).cfg = l.cfg := by
    intro base n; unfold Log.rollFor; split <;> rfl
  unfold Log.append
  split
  · rfl
  · simp only
    split
    · exact hroll _ _
    · split <;> exact hroll _ _

theorem step_cfg (l : Log) (op : Op) : (l.step op).cfg = l.cfg := by
  cases op with
  | append now batch => exact append_cfg l now batch
  | flush => rfl
  | enforceRetention now maxAgeMs maxBytes => rfl

/-- **The step lemma.**  One operation moves the layout of a log, and the move does
not depend on the index interval of the log. -/
theorem step_holds {op : Op} (h : l.Holds y) (hw : ∀ b, op.batch? = some b → WellFormed b)
    (hs : l.Sized) (hs' : (l.step op).Sized) :
    ∃ y', y.Moves op.batch? y' ∧
      ∀ l' : Log, l'.Holds y → l'.cfg.segmentBytes = l.cfg.segmentBytes → (l'.step op).Holds y' := by
  cases op with
  | append now batch =>
    have hw := hw batch rfl
    have hf := h.fits_of_sized hw hs hs'
    have hsmall := h.sized_iff.mp hs y.last (by simp [Layout.parts])
    refine ⟨_, .produce y hw l.cfg.segmentBytes now hf, fun l' hl' hcfg => ?_⟩
    rw [← hcfg]
    exact (hl'.append now hw hsmall hf).2
  | flush => exact ⟨y, .drop y 0, fun l' hl' _ => ⟨hl'.sealed, hl'.active, hl'.next⟩⟩
  | enforceRetention now maxAgeMs maxBytes =>
    exact ⟨_, .drop y _, fun l' hl' _ => hl'.enforceRetention now maxAgeMs maxBytes⟩

/-! ### Whole runs -/

theorem Log.run_snoc (l : Log) (ops : List Op) (op : Op) :
    l.run (ops ++ [op]) = (l.run ops).step op := Transition.run_snoc l ops op

theorem run_cfg (l : Log) (ops : List Op) : (l.run ops).cfg = l.cfg := by
  induction ops using List.reverseRecOn with
  | nil => rfl
  | append_singleton ops op ih => rw [Log.run_snoc, step_cfg, ih]

/-- **The run invariant rule.**  A property of the operations so far and the layout
that holds of the empty layout and that every move keeps holds of every run, with
one layout for all index intervals. -/
theorem run_invariant {cfg : Config} {now : ℤ} {l₀ : Log} {ops : List Op}
    (hopen : Log.open cfg now [] = .ok l₀) (hwf : ∀ b ∈ appended ops, WellFormed b)
    (hsized : Always Log.step Log.Sized l₀ ops) {P : List Op → Layout → Prop}
    (hnil : P [] (Layout.empty now))
    (hmove : ∀ ops op y y', (l₀.run ops).Holds y → (l₀.run (ops ++ [op])).Holds y' →
      y.Moves op.batch? y' → P ops y → P (ops ++ [op]) y') :
    ∃ y, P ops y ∧ ∀ (interval : ℤ) (l : Log),
      Log.open { cfg with indexIntervalBytes := interval } now [] = .ok l → (l.run ops).Holds y := by
  induction ops using List.reverseRecOn with
  | nil => exact ⟨Layout.empty now, hnil, fun interval l hl => (Log.Holds.of_open_nil hl).2⟩
  | append_singleton ops op ih =>
    obtain ⟨y, hP, hy⟩ :=
      ih (fun b hb => hwf b (by rw [appended_snoc]; exact List.mem_append_left _ hb))
        (always_append.mp hsized).1
    have hsized' := hsized.final
    rw [Transition.run_snoc] at hsized'
    have h₀ : (l₀.run ops).Holds y := hy cfg.indexIntervalBytes l₀ hopen
    obtain ⟨y', hmoves, hy'⟩ := step_holds h₀
      (fun b hb => hwf b (by rw [appended_snoc, hb]; simp)) (always_append.mp hsized).1.final hsized'
    refine ⟨y', hmove ops op y y' h₀ ?_ hmoves hP, fun interval l hl => ?_⟩
    · rw [Log.run_snoc]; exact hy' _ h₀ rfl
    · rw [Log.run_snoc]
      refine hy' _ (hy interval l hl) ?_
      rw [run_cfg, run_cfg, (Log.Holds.of_open_nil hl).1, (Log.Holds.of_open_nil hopen).1]

/-- The layout after `ops` ends where the offsets handed out end, and its batches
are the most recent ones. -/
def Follows (ops : List Op) (y : Layout) : Prop :=
  y.last.stop = offsetCount (appended ops) ∧ y.batches <:+ history ops

theorem follows_nil (now : ℤ) : Follows [] (Layout.empty now) := ⟨rfl, List.nil_suffix⟩

theorem Follows.moves {ops : List Op} {op : Op} {y' : Layout} (h : Follows ops y)
    (hm : y.Moves op.batch? y') : Follows (ops ++ [op]) y' := by
  obtain ⟨hstop, t, ht⟩ := h
  unfold Follows
  rw [history, appended_snoc, offsetCount_append]
  revert hm
  generalize op.batch? = batch
  intro hm
  cases hm with
  | @produce batch hw segmentBytes now hf =>
    refine ⟨?_, t, ?_⟩
    · rw [y.produce_stop hw, hstop]; simp
    · rw [y.produce_batches hw, ← List.append_assoc, ht, hstop]
      simp [history, stampAll_snoc]
  | drop n =>
    refine ⟨by simpa [Layout.dropClosed] using hstop, (y.dropClosed_batches n).trans ⟨t, ?_⟩⟩
    rw [ht]; simp [history]

/-- Every run leads to a layout that follows it. -/
theorem run_follows {cfg : Config} {now : ℤ} {l₀ : Log} {ops : List Op}
    (hopen : Log.open cfg now [] = .ok l₀) (hwf : ∀ b ∈ appended ops, WellFormed b)
    (hsized : Always Log.step Log.Sized l₀ ops) :
    ∃ y, Follows ops y ∧ ∀ (interval : ℤ) (l : Log),
      Log.open { cfg with indexIntervalBytes := interval } now [] = .ok l → (l.run ops).Holds y :=
  run_invariant hopen hwf hsized (follows_nil now) fun _ _ _ _ _ _ hm h => h.moves hm

/-! ### Reads after a run -/

/-- The batches in a log. -/
def Log.batches (l : Log) : List Bytes := l.segments.flatMap fun s => split s.logFile

/-- The batch covers the offset. -/
def Contains (b : Bytes) (o : ℤ) : Prop :=
  (header b).baseOffset ≤ o ∧ o ≤ (header b).lastOffset

instance (b : Bytes) (o : ℤ) : Decidable (Contains b o) := inferInstanceAs (Decidable (_ ∧ _))

theorem Part.split_bytes (p : Part) : split p.bytes = p.batches := split_flatten p.chained.framed

theorem Log.Holds.batches (h : l.Holds y) : l.batches = y.batches := by
  have hmap := h.map_segments (f := fun s => split s.logFile) fun _ => rfl
  rw [Log.batches, Layout.batches, List.flatMap_def, List.flatMap_def, hmap]
  exact congrArg List.flatten (List.map_congr_left fun p _ => p.split_bytes)

/-- Only one batch of a run covers an offset. -/
theorem Chained.eq_of_covers {a z o : ℤ} {bs : List Bytes} (h : Chained a bs z) {b c : Bytes}
    (hb : b ∈ bs) (hc : c ∈ bs)
    (hbo : (header b).baseOffset ≤ o ∧ o < (header b).baseOffset + (header b).recordCount)
    (hco : (header c).baseOffset ≤ o ∧ o < (header c).baseOffset + (header c).recordCount) :
    b = c := by
  induction bs generalizing a with
  | nil => simp at hb
  | cons d bs ih =>
    rcases List.mem_cons.mp hb with rfl | hb' <;> rcases List.mem_cons.mp hc with rfl | hc'
    · rfl
    · have := (h.2.2.bounds hc').1; have := h.2.1; omega
    · have := (h.2.2.bounds hb').1; have := h.2.1; omega
    · exact ih h.2.2 hb' hc'

/-- The offset of a layout lies in one batch of one run. -/
theorem Layout.exists_covers (y : Layout) {o : ℤ} (ho₀ : y.start ≤ o) (ho₁ : o < y.last.stop) :
    ∃ pre p post bpre b bpost, y.parts = pre ++ p :: post ∧ p.batches = bpre ++ b :: bpost ∧
      (header b).baseOffset ≤ o ∧ o < (header b).baseOffset + (header b).recordCount := by
  obtain ⟨_, b, _, hbs, -, hb₀, hb₁, -⟩ := y.chained.split ho₀ ho₁
  have hmem : b ∈ y.batches := by rw [hbs]; simp
  obtain ⟨p, hp, hbp⟩ := List.mem_flatMap.mp hmem
  obtain ⟨pre, post, hp⟩ := List.append_of_mem hp
  obtain ⟨bpre, bpost, hbp⟩ := List.append_of_mem hbp
  exact ⟨pre, p, post, bpre, b, bpost, hp, hbp, hb₀, hb₁⟩

theorem Layout.lastOffset (y : Layout) {b : Bytes} (hb : b ∈ y.batches) :
    (header b).lastOffset = (header b).baseOffset + (header b).recordCount - 1 := by
  obtain ⟨p, -, hbp⟩ := List.mem_flatMap.mp hb
  exact p.lastOffset hbp

/-- **Reads return the stored batches.**  In every run whose segments stay within
the 32-bit sizes, the log holds the most recent part of what was appended, with
only the base offset and the CRC of each batch patched.  A read at an offset of
the log returns the one batch that contains it and then, greedily, the batches
after it in its segment.  The index interval makes no difference. -/
theorem read_correct {cfg : Config} {now : ℤ} {l₀ : Log} {ops : List Op}
    (hopen : Log.open cfg now [] = .ok l₀) (hwf : ∀ b ∈ appended ops, WellFormed b)
    (hspans : Always Log.step Log.Spans l₀ ops) {o : ℤ} (ho₀ : (l₀.run ops).earliestOffset ≤ o)
    (ho₁ : o < (l₀.run ops).latestOffset) (maxBytes : ℤ) :
    (l₀.run ops).batches <:+ history ops ∧
      (∀ d ∈ (l₀.run ops).batches, ∃ b ∈ appended ops, d.length = b.length ∧
        ∀ i, 8 ≤ i → i < 17 ∨ 21 ≤ i → d[i]? = b[i]?) ∧
      (∃ s stop pre b post, (s, stop) ∈ (l₀.run ops).extents ∧ s.baseOffset ≤ o ∧ o < stop ∧
        split s.logFile = pre ++ b :: post ∧ Contains b o ∧
        (∀ c ∈ (l₀.run ops).batches, Contains c o → c = b) ∧
        (l₀.run ops).read o maxBytes = .ok (b ++ (greedy maxBytes b.length post).flatten, none)) ∧
      ∀ (interval : ℤ) (l₁ : Log),
        Log.open { cfg with indexIntervalBytes := interval } now [] = .ok l₁ →
        (l₁.run ops).read o maxBytes = (l₀.run ops).read o maxBytes := by
  obtain ⟨y, ⟨-, hbatches⟩, hy⟩ := run_follows hopen hwf (hspans.mono fun _ h => h.sized)
  have h : (l₀.run ops).Holds y := hy cfg.indexIntervalBytes l₀ hopen
  rw [h.earliestOffset] at ho₀
  rw [Log.latestOffset, h.next] at ho₁
  obtain ⟨pre, p, post, bpre, b, bpost, hp, hbs, hb₀, hb₁⟩ := y.exists_covers ho₀ ho₁
  have hpmem : p ∈ y.parts := by rw [hp]; simp
  have hbmem : b ∈ y.batches := List.mem_flatMap.mpr ⟨p, hpmem, by rw [hbs]; simp⟩
  obtain ⟨hsmall, hspan⟩ := h.spans_iff.mp hspans.final p hpmem
  have hread : ∀ l : Log, l.Holds y →
      l.read o maxBytes = .ok (b ++ (greedy maxBytes b.length bpost).flatten, none) :=
    fun l hl => hl.read hp hsmall hspan hbs hb₀ hb₁ maxBytes
  refine ⟨by rw [h.batches]; exact hbatches, fun c hc => ?_, ?_, fun interval l₁ hl₁ => ?_⟩
  · rw [h.batches] at hc
    obtain ⟨b, hb, base, rfl⟩ := exists_of_mem_stampAll (hbatches.subset hc)
    have hlen := (hwf b hb).1.1
    exact ⟨b, hb, length_stamp hlen base, fun i => getElem?_stamp hlen base⟩
  · have hext : (p.bytes, p.base, p.stop)
        ∈ (l₀.run ops).extents.map fun x => (x.1.logFile, x.1.baseOffset, x.2) := by
      rw [h.extents]; exact List.mem_map_of_mem hpmem
    obtain ⟨⟨s, stop⟩, hmem, heq⟩ := List.mem_map.mp hext
    obtain ⟨hfile, hbase, rfl⟩ : s.logFile = p.bytes ∧ s.baseOffset = p.base ∧ stop = p.stop := by
      simpa using heq
    have hbnd := p.chained.bounds (b := b) (by rw [hbs]; simp)
    refine ⟨s, p.stop, bpre, b, bpost, hmem, by omega, by omega, ?_, ?_, ?_, hread _ h⟩
    · rw [hfile, p.split_bytes, hbs]
    · exact ⟨hb₀, by rw [y.lastOffset hbmem]; omega⟩
    · intro c hc hco
      rw [h.batches] at hc
      have hlast := y.lastOffset hc
      exact y.chained.eq_of_covers hc hbmem ⟨hco.1, by have := hco.2; omega⟩ ⟨hb₀, hb₁⟩
  · rw [hread _ (hy interval l₁ hl₁), hread _ h]

/-- A run with a roll between its second and third batch. -/
def rolledOps : List Op :=
  [.append 1 (makeBatch 3 [7]), .flush, .append 2 (makeBatch 2 []), .append 3 (makeBatch 1 [8, 9]),
    .enforceRetention 4 0 500]

/-- That run, read in the middle of its first batch. -/
theorem read_correct_rolled :
    ∃ s stop pre b post, (s, stop) ∈ ((Log.create ⟨130, 0⟩ 0).run rolledOps).extents ∧
      s.baseOffset ≤ 1 ∧ 1 < stop ∧ split s.logFile = pre ++ b :: post ∧ Contains b 1 ∧
      ((Log.create ⟨130, 0⟩ 0).run rolledOps).read 1 62
        = .ok (b ++ (greedy 62 b.length post).flatten, none) := by
  have hwf : ∀ b ∈ appended rolledOps, WellFormed b := by decide +kernel
  have hspans : Always Log.step Log.Spans (Log.create ⟨130, 0⟩ 0) rolledOps := by decide +kernel
  obtain ⟨-, -, ⟨s, stop, pre, b, post, h₁, h₂, h₃, h₄, h₅, -, h₆⟩, -⟩ :=
    read_correct (open_nil ⟨130, 0⟩ 0) hwf hspans (o := 1) (by decide +kernel) (by decide +kernel) 62
  exact ⟨s, stop, pre, b, post, h₁, h₂, h₃, h₄, h₅, h₆⟩

end Storage
end Mq
