import Mq.Object.Handle
import Mq.Storage.AppendOnly
import Mq.Storage.Whole

/-!
# The two backends agree

The same calls are made to a file log that is not rolled and to a partition of the object
backend that is all pending, or all uploaded by one flush.  Every call has the same result
on both, the log end and the high watermark are the same after every call, and so is what
every read returns.

The two read loops are written separately: the file is scanned from a position of the
index, the object backend cuts the answer out of bytes in memory.  Both come down to
`greedy`.

## Main definitions

* `Request`, `Pair`, `Pair.step` — the calls, made to both backends.
* `Pair.SameReply`, `Pair.Alike` — the same result of a call, and the same reads.
* `Pair.Matched` — the two hold the same batches.

## Main results

* `sliceBatches_greedy` — what the object backend cuts out of a run of batches.
* `Pair.Matched.step` — a call keeps the two matched and has the same result.
* `backends_agree` — **the two backends agree**, as long as the offsets and positions of
  the segment fit 32 bits.
* `backends_disagree` — beyond that the file log loses its way.
-/

namespace Mq
namespace Backend

open Word Record Transition Storage
open Object (Handle HandleErr ReadErr ObjectLog Contiguous nextOf sliceLoop sliceBatches
  sliceBatches_start sliceLoop_round nextOf_eq)

/-! ### Calls on both backends -/

/-- The calls that the two backends have in common. -/
inductive Request
  | append (batch : Bytes)
  | appendReplica (batch : Bytes)
  | setHighWatermark (hwm : ℤ)
  | holdHighWatermark
  deriving DecidableEq, Repr

/-- The errors of the object backend in the terms of the file log. -/
def failure : HandleErr → Failure
  | .record e => .error (.record e)
  | .replicaGap base logEnd => .error (.replicaGap base logEnd)
  | .wal => .error .writeAt
  | .panic => .panic

def readError : ReadErr → Storage.Err
  | .record e => .record e
  | .offsetOutOfRange => .offsetOutOfRange
  | .noObject => .readAt

/-- The file log at a time; a call that returns nothing has no offset. -/
def fileServe (l : Log) (now : ℤ) : Request → Log × Outcome (Option ℤ)
  | .append batch => ((l.append now batch).1, (l.append now batch).2.map some)
  | .appendReplica batch => ((l.appendReplica now batch).1, (l.appendReplica now batch).2.map some)
  | .setHighWatermark hwm => (l.setHighWatermark hwm, .ok none)
  | .holdHighWatermark => (l.holdHighWatermark, .ok none)

def objectServe (h : Handle) : Request → Handle × Outcome (Option ℤ)
  | .append batch => ((h.append batch).1, ((h.append batch).2.map some).mapError failure)
  | .appendReplica batch =>
    ((h.appendReplica batch).1, ((h.appendReplica batch).2.map some).mapError failure)
  | .setHighWatermark hwm => (h.setHighWatermark hwm, .ok none)
  | .holdHighWatermark => (h.holdHighWatermark, .ok none)

/-- A read of the object backend in the terms of the file log. -/
def objectRead (h : Handle) (offset maxBytes : ℤ) : Outcome (Bytes × Option Storage.Err) :=
  (h.read offset maxBytes).map fun r => (r.1, r.2.map readError)

/-- The two backends. -/
structure Pair where
  file : Log
  object : Handle

namespace Pair

/-- A call at a time, made to both. -/
def step (p : Pair) (x : ℤ × Request) : Pair :=
  ⟨(fileServe p.file x.1 x.2).1, (objectServe p.object x.2).1⟩

/-- The call returns the same offset on both, or fails alike. -/
def SameReply (p : Pair) (x : ℤ × Request) : Prop :=
  (fileServe p.file x.1 x.2).2 = (objectServe p.object x.2).2

instance (p : Pair) (x : ℤ × Request) : Decidable (p.SameReply x) :=
  inferInstanceAs (Decidable (_ = _))

/-- Log end, high watermark and all reads are the same, whether the object backend has
everything pending or has uploaded it. -/
structure Alike (p : Pair) : Prop where
  latestOffset : p.object.log.nextOffset = p.file.latestOffset
  highWatermark : p.object.log.highWatermark = p.file.highWatermark
  read : ∀ offset maxBytes,
    objectRead p.object offset maxBytes = p.file.read offset maxBytes
  read_upload : ∀ nowMs offset maxBytes,
    objectRead (p.object.upload nowMs) offset maxBytes = p.file.read offset maxBytes

/-- The file has not been rolled, and what it holds fits the 32-bit fields of a segment. -/
def Fits (p : Pair) : Prop := p.file.sealed = [] ∧ p.file.Spans

instance (p : Pair) : Decidable p.Fits := inferInstanceAs (Decidable (_ ∧ _))

end Pair

/-- The batch of a call is well formed. -/
def Request.WellFormed : Request → Prop
  | .append batch => Record.WellFormed batch
  | .appendReplica batch => Record.WellFormed batch
  | _ => True

instance (r : Request) : Decidable r.WellFormed := by
  cases r <;> unfold Request.WellFormed <;> infer_instance

/-! ### Cutting an answer out of a run of batches -/

/-- The batches that follow the first one, while they fit. -/
theorem sliceLoop_greedy (want maxBytes : ℤ) :
    ∀ (post pre : List Bytes) (fuel : ℕ) (out : Bytes), (∀ b ∈ post, Framed b) →
      (∀ b ∈ post, want ≤ (header b).lastOffset) → out ≠ [] →
      out.length + post.flatten.length < 2147483648 → (out.length : ℤ) < maxBytes →
      sliceLoop (pre ++ post).flatten want maxBytes (post.length + fuel + 1) pre.flatten.length out
        = .ok (out ++ (greedy maxBytes out.length post).flatten, none) := by
  intro post
  induction post with
  | nil =>
    intro pre fuel out _ _ _ _ _
    rw [sliceLoop, if_neg (by simp)]
    simp [greedy]
  | cons b post ih =>
    intro pre fuel out hframed hwant hne hsmall hmax
    have hfuel : (b :: post).length + fuel + 1 = post.length + fuel + 1 + 1 := by
      simp only [List.length_cons]; omega
    have hb := hframed b List.mem_cons_self
    have htotal : (header b).totalSize = b.length := hb.2.2.symm
    simp only [List.flatten_cons, List.length_append] at hsmall
    -- no sum of sizes wraps
    have hsum : wrap32 (wrap32 out.length + wrap32 (header b).totalSize)
        = out.length + b.length := by
      rw [htotal, wrap32_eq (x := (out.length : ℤ)) (by omega) (by omega),
        wrap32_eq (x := (b.length : ℤ)) (by omega) (by omega), wrap32_eq (by omega) (by omega)]
    have hlen : wrap32 ((out ++ b).length : ℤ) = out.length + b.length := by
      rw [List.length_append, wrap32_eq (by omega) (by omega)]
      push_cast
      rfl
    rw [hfuel, sliceLoop_round hb (hwant b List.mem_cons_self), hsum, hlen, greedy]
    by_cases hfit : (out.length : ℤ) + b.length ≤ maxBytes
    · rw [if_neg (by omega), if_pos hfit]
      by_cases hfull : maxBytes ≤ out.length + b.length
      · rw [if_pos hfull, greedy_of_le hfull fun c hc => hframed c (List.mem_cons_of_mem b hc)]
        simp
      · have hrest := ih (pre ++ [b]) fuel (out ++ b)
          (fun c hc => hframed c (List.mem_cons_of_mem b hc))
          (fun c hc => hwant c (List.mem_cons_of_mem b hc)) (by simp [hne])
          (by rw [List.length_append]; omega) (by rw [List.length_append]; push_cast; omega)
        rw [if_neg hfull]
        simpa using hrest
    · rw [if_pos ⟨hne, by omega⟩, if_neg hfit]
      simp

/-- **What the object backend cuts out of a run of batches** is what the file log reads. -/
theorem sliceBatches_greedy {pre post : List Bytes} {b : Bytes} {want : ℤ}
    (hframed : ∀ c ∈ pre ++ b :: post, Framed c)
    (hsmall : (pre ++ b :: post).flatten.length < 2147483648)
    (hskip : ∀ c ∈ pre, (header c).lastOffset < want)
    (hwant : ∀ c ∈ b :: post, want ≤ (header c).lastOffset) (maxBytes : ℤ) :
    sliceBatches (pre ++ b :: post).flatten want maxBytes
      = .ok (b ++ (greedy maxBytes b.length post).flatten, none) := by
  have hpost : ∀ c ∈ post, Framed c := fun c hc => hframed c (by simp [hc])
  obtain ⟨fuel, hstart⟩ := sliceBatches_start hframed hskip (hwant b List.mem_cons_self) maxBytes
  simp only [List.flatten_append, List.flatten_cons, List.length_append] at hsmall
  rw [hstart, wrap32_eq (by omega) (by omega)]
  by_cases hfull : maxBytes ≤ b.length
  · rw [if_pos hfull, greedy_of_le hfull hpost]
    simp
  · have hrest := sliceLoop_greedy want maxBytes post (pre ++ [b]) fuel b hpost
      (fun c hc => hwant c (List.mem_cons_of_mem b hc)) (hframed b (by simp)).ne_nil (by omega)
      (by omega)
    rw [if_neg hfull]
    simpa using hrest

/-! ### The same batches on both -/

namespace Pair

/-- The two hold the same batches: the file in its one segment, the object backend in the
pending part. -/
structure Matched (p : Pair) (y : Layout) : Prop where
  holds : p.file.Holds y
  closed : y.closed = []
  base : y.last.base = 0
  buffers : p.object.Buffers y.last.batches
  next : p.object.log.nextOffset = y.last.stop
  hwm : p.object.log.highWatermark = p.file.highWatermark
  hold : p.object.log.holdHWM = p.file.holdHWM

theorem closed_of_sealed {l : Log} {y : Layout} (hy : l.Holds y) (h : l.sealed = []) :
    y.closed = [] := by
  have := hy.sealed
  rw [h, List.map_nil] at this
  exact List.map_eq_nil_iff.mp this.symm

theorem matched_fresh {cfg : Config} {now : ℤ} {l₀ : Log} {h : Handle}
    (hopen : Log.open cfg now [] = .ok l₀) (hh : h.Fresh) :
    Matched ⟨l₀, h⟩ (Layout.empty now) := by
  have hlog := hh.log
  have hholds := (Log.Holds.of_open_nil hopen).2
  rw [open_nil] at hopen
  obtain rfl := Except.ok.inj hopen
  exact ⟨hholds, rfl, rfl, hh.buffers, by rw [hlog]; rfl, by rw [hlog]; rfl, by rw [hlog]; rfl⟩

namespace Matched

variable {p : Pair} {y : Layout} (hm : p.Matched y)
include hm

theorem parts : y.parts = [] ++ y.last :: [] := by
  rw [Layout.parts, hm.closed]

theorem small (hfits : p.Fits) :
    y.last.bytes.length < 2147483648 ∧ y.last.stop - y.last.base < 2147483648 :=
  hm.holds.spans_iff.mp hfits.2 y.last (by rw [hm.parts]; simp)

/-- The offsets of a log that fits leave room for another batch. -/
theorem room (hfits : p.Fits) (batch : Bytes) :
    y.last.stop + (header batch).recordCount < 9223372036854775808 := by
  have hspan := (hm.small hfits).2
  have hcount := recordCount_lt batch
  have hbase := hm.base
  omega

/-- A read inside the log. -/
theorem read_inside (hfits : p.Fits) {o : ℤ} (ho₀ : 0 ≤ o) (ho₁ : o < y.last.stop) (maxBytes : ℤ) :
    ∃ out, p.file.read o maxBytes = .ok (out, none) ∧
      sliceBatches y.last.batches.flatten o maxBytes = .ok (out, none) := by
  obtain ⟨hsmall, hspan⟩ := hm.small hfits
  have hbase := hm.base
  obtain ⟨pre, b, post, hbs, hpre, hb₀, hb₁, hpost⟩ := y.last.chained.split (by omega) ho₁
  have hlast : ∀ c ∈ y.last.batches,
      (header c).lastOffset = (header c).baseOffset + (header c).recordCount - 1 :=
    fun c hc => y.last.lastOffset hc
  have hframed := y.last.chained.framed
  rw [hbs] at hlast hframed
  refine ⟨_, hm.holds.read hm.parts hsmall hspan hbs hb₀ hb₁ maxBytes, ?_⟩
  rw [Part.bytes, hbs] at hsmall
  rw [hbs]
  refine sliceBatches_greedy hframed hsmall ?_ ?_ maxBytes
  · intro c hc
    have := (hpre.bounds hc).2
    rw [hlast c (by simp [hc])]
    omega
  · intro c hc
    rw [hlast c (by simp [List.mem_cons.mp hc])]
    rcases List.mem_cons.mp hc with rfl | hc
    · omega
    · have := (hpost.bounds hc).1
      have := (hpost.wellFormed c hc).2.2
      omega

/-- Every read of a handle whose records are those of the pending part. -/
theorem objectRead_eq (hfits : p.Fits) {h : Handle}
    (hlog : h.log = p.object.log) {maxBytes : ℤ}
    (hin : ∀ o, 0 ≤ o → o < p.object.log.nextOffset →
      h.read o maxBytes = sliceBatches y.last.batches.flatten o maxBytes) (o : ℤ) :
    objectRead h o maxBytes = p.file.read o maxBytes := by
  have hnext := hm.next
  have hfile := hm.holds.next
  have hearliest : p.file.earliestOffset = 0 := by
    rw [hm.holds.earliestOffset, Layout.start, hm.closed]
    exact hm.base
  have hstart := hm.buffers.earliest
  by_cases hinside : 0 ≤ o ∧ o < y.last.stop
  · obtain ⟨out, hread, hslice⟩ := hm.read_inside hfits hinside.1 hinside.2 maxBytes
    rw [objectRead, hin o hinside.1 (by omega), hread, hslice]
    rfl
  · rw [objectRead, Handle.read, ObjectLog.read, hlog, Log.read, hearliest, hstart, hnext, hfile]
    by_cases hend : o = y.last.stop
    · rw [if_pos hend, if_pos hend]
      rfl
    · rw [if_neg hend, if_neg hend, if_pos (by omega), if_pos (by omega)]
      rfl

theorem alike (hfits : p.Fits) : p.Alike where
  latestOffset := hm.next.trans hm.holds.next.symm
  highWatermark := hm.hwm
  read offset maxBytes := hm.objectRead_eq hfits rfl
    (fun _ ho₀ ho₁ => hm.buffers.read ho₀ ho₁ maxBytes) offset
  read_upload nowMs offset maxBytes := hm.objectRead_eq (h := p.object.upload nowMs) hfits rfl
    (fun _ ho₀ ho₁ => hm.buffers.read_upload nowMs ho₀ ho₁ maxBytes) offset

/-! ### The calls -/

/-- A batch that both have stored, the file without a roll. -/
theorem stored {l : Log} {h : Handle} {y' : Layout} {b : Bytes} (hy' : l.Holds y')
    (hsealed : l.sealed = [])
    (hcases : (y'.closed = y.closed ∧ y'.last.base = y.last.base ∧
        y'.last.batches = y.last.batches ++ [b]) ∨
      (y.last.batches ≠ [] ∧ y'.closed = y.closed ++ [y.last] ∧ y'.last.base = y.last.stop ∧
        y'.last.batches = [b]))
    (hbuf : h.Buffers (y.last.batches ++ [b])) (hnext : h.log.nextOffset = y'.last.stop)
    (hhwm : h.log.highWatermark = l.highWatermark) (hhold : h.log.holdHWM = l.holdHWM) :
    Matched ⟨l, h⟩ y' := by
  have hclosed := closed_of_sealed hy' hsealed
  rcases hcases with ⟨-, hbase, hbs⟩ | ⟨-, hroll, -⟩
  · exact ⟨hy', hclosed, hbase.trans hm.base, hbs ▸ hbuf, hnext, hhwm, hhold⟩
  · rw [hclosed] at hroll
    exact absurd hroll.symm (by simp)

/-- An append goes to the end of both. -/
theorem append {now : ℤ} {batch : Bytes} (hw : Record.WellFormed batch) (hfits : p.Fits)
    (hfits' : (p.step (now, .append batch)).Fits) :
    p.SameReply (now, .append batch) ∧ ∃ y', (p.step (now, .append batch)).Matched y' := by
  have hroom := hm.room hfits batch
  obtain ⟨hres, hy'⟩ := hm.holds.append now hw (hm.small hfits).1 hroom
  obtain ⟨hores, hbuf, holog⟩ := hm.buffers.append hw (by rw [hm.next]; exact hroom)
  obtain ⟨hhold, hhwm⟩ := highWatermark_append hres
  rw [hm.next] at hores hbuf holog
  refine ⟨?_, _, hm.stored hy' hfits'.1 (y.produce_cases hw _ now hroom) hbuf ?_ ?_ ?_⟩
  · change Except.map some _ = (Except.map some _).mapError failure
    rw [hres, hores]
    rfl
  · change (p.object.append batch).1.log.nextOffset = _
    rw [y.produce_stop hw, holog]
    rfl
  · change (p.object.append batch).1.log.highWatermark = (p.file.append now batch).1.highWatermark
    rw [holog, hhwm, hy'.next, y.produce_stop hw, ObjectLog.advance, hm.hold, hm.hwm]
    rfl
  · change (p.object.append batch).1.log.holdHWM = (p.file.append now batch).1.holdHWM
    rw [holog, hhold]
    exact hm.hold

/-- A replica's append is skipped, refused or stored by both. -/
theorem appendReplica {now : ℤ} {batch : Bytes} (hw : Record.WellFormed batch) (hfits : p.Fits)
    (hfits' : (p.step (now, .appendReplica batch)).Fits) :
    p.SameReply (now, .appendReplica batch) ∧
      ∃ y', (p.step (now, .appendReplica batch)).Matched y' := by
  have hroom := hm.room hfits batch
  have hnext : p.object.log.nextOffset = p.file.nextOffset := hm.next.trans hm.holds.next.symm
  have hunchanged : ∀ {r : Outcome ℤ} {e : Except HandleErr ℤ},
      p.file.appendReplica now batch = (p.file, r) → p.object.appendReplica batch = (p.object, e) →
      r.map some = (e.map some).mapError failure →
      p.SameReply (now, .appendReplica batch) ∧
        ∃ y', (p.step (now, .appendReplica batch)).Matched y' := by
    intro r e hfile hobject hreply
    refine ⟨?_, y, ?_⟩
    · change Except.map some (p.file.appendReplica now batch).2
        = (Except.map some (p.object.appendReplica batch).2).mapError failure
      rw [hfile, hobject]
      exact hreply
    · change Matched ⟨(p.file.appendReplica now batch).1, (p.object.appendReplica batch).1⟩ y
      rw [hfile, hobject]
      exact hm
  rcases Handle.appendReplica_cases hm.buffers.handle hw.1 with ⟨hlt, hr⟩ | ⟨hlt, hr⟩ | ⟨heq, -⟩
  · refine hunchanged (Log.Holds.appendReplica_of_lt hw.1 now (hnext ▸ hlt)) hr ?_
    rw [hnext]
    rfl
  · refine hunchanged (Log.Holds.appendReplica_of_gt hw.1 now (hnext ▸ hlt)) hr ?_
    rw [hnext]
    rfl
  · rw [hm.next] at heq
    obtain ⟨hres, hy'⟩ := hm.holds.appendReplica now hw heq hroom (hm.small hfits).1
    obtain ⟨hores, hbuf, holog⟩ := hm.buffers.appendReplica hw (heq.trans hm.next.symm)
      (by rw [hm.next]; exact hroom)
    obtain ⟨hhwm, hhold⟩ := appendReplica_kept p.file now batch
    rw [hm.next] at hores holog
    refine ⟨?_, _, hm.stored hy' hfits'.1 (y.append_cases _ now hw heq hroom) hbuf ?_ ?_ ?_⟩
    · change Except.map some _ = (Except.map some _).mapError failure
      rw [hres, hores]
      rfl
    · change (p.object.appendReplica batch).1.log.nextOffset = _
      rw [y.append_stop _ _ hw, holog]
      rfl
    · change (p.object.appendReplica batch).1.log.highWatermark
        = (p.file.appendReplica now batch).1.highWatermark
      rw [holog, hhwm]
      exact hm.hwm
    · change (p.object.appendReplica batch).1.log.holdHWM = (p.file.appendReplica now batch).1.holdHWM
      rw [holog, hhold]
      exact hm.hold

/-- A call that changes only the mode or the high watermark. -/
theorem of_hwm {hwm : ℤ} {hold : Bool} {l : ObjectLog}
    (hnext : l.nextOffset = p.object.log.nextOffset)
    (hearliest : l.earliest = p.object.log.earliest) (hhwm : l.highWatermark = hwm)
    (hhold : l.holdHWM = hold) :
    Matched ⟨{ p.file with highWatermark := hwm, holdHWM := hold }, { p.object with log := l }⟩ y where
  holds := ⟨hm.holds.sealed, hm.holds.active, hm.holds.next⟩
  closed := hm.closed
  base := hm.base
  buffers := hm.buffers.of_log hnext hearliest
  next := hnext.trans hm.next
  hwm := hhwm
  hold := hhold

theorem setHighWatermark (hwm : ℤ) :
    Matched ⟨p.file.setHighWatermark hwm, p.object.setHighWatermark hwm⟩ y := by
  have hnext : p.object.log.nextOffset = p.file.nextOffset := hm.next.trans hm.holds.next.symm
  have hobject : p.object.setHighWatermark hwm = { p.object with log :=
      if p.file.highWatermark < (if p.file.nextOffset < hwm then p.file.nextOffset else hwm) then
        { p.object.log with
          highWatermark := if p.file.nextOffset < hwm then p.file.nextOffset else hwm }
      else p.object.log } := by
    rw [← hnext, ← hm.hwm]
    rfl
  rw [hobject, Log.setHighWatermark]
  dsimp only
  by_cases hlt : p.file.highWatermark
      < if p.file.nextOffset < hwm then p.file.nextOffset else hwm
  · rw [if_pos hlt, if_pos hlt]
    exact hm.of_hwm rfl rfl rfl hm.hold
  · rw [if_neg hlt, if_neg hlt]
    exact hm

/-- **A call** has the same result on both and leaves them with the same batches. -/
theorem step {x : ℤ × Request} (hwf : x.2.WellFormed) (hfits : p.Fits) (hfits' : (p.step x).Fits) :
    p.SameReply x ∧ ∃ y', (p.step x).Matched y' := by
  obtain ⟨now, r⟩ := x
  cases r with
  | append batch => exact hm.append hwf hfits hfits'
  | appendReplica batch => exact hm.appendReplica hwf hfits hfits'
  | setHighWatermark hwm => exact ⟨rfl, y, hm.setHighWatermark hwm⟩
  | holdHighWatermark => exact ⟨rfl, y, hm.of_hwm rfl rfl hm.hwm rfl⟩

end Matched

end Pair

/-! ### Runs -/

/-- **The two backends agree.**  As long as the file is not rolled and what it holds fits
the 32-bit fields of a segment, every call has the same result on both, and after every
call the log end, the high watermark and every read are the same. -/
theorem backends_agree {cfg : Config} {now : ℤ} {l₀ : Log} {h : Handle} {xs : List (ℤ × Request)}
    (hopen : Log.open cfg now [] = .ok l₀) (hh : h.Fresh) (hwf : ∀ x ∈ xs, x.2.WellFormed)
    (hfits : Always Pair.step Pair.Fits ⟨l₀, h⟩ xs) :
    Along Pair.step Pair.SameReply ⟨l₀, h⟩ xs ∧ Always Pair.step Pair.Alike ⟨l₀, h⟩ xs := by
  have hbatches : Along Pair.step (fun _ x => x.2.WellFormed) ⟨l₀, h⟩ xs := along_of_forall hwf
  have hcond := hfits.along.and hbatches
  have hmatched : Always Pair.step (fun p => p.Fits ∧ ∃ y, p.Matched y) ⟨l₀, h⟩ xs := by
    refine hcond.always ⟨hfits.head, _, Pair.matched_fresh hopen hh⟩ ?_
    rintro p x ⟨-, y, hm⟩ ⟨⟨hp, hp'⟩, hx⟩
    exact ⟨hp', (hm.step hx hp hp').2⟩
  refine ⟨(hmatched.along.and hcond).mono ?_, hmatched.mono ?_⟩
  · rintro p x ⟨⟨⟨-, y, hm⟩, -⟩, ⟨hp, hp'⟩, hx⟩
    exact (hm.step hx hp hp').1
  · rintro p ⟨hp, y, hm⟩
    exact hm.alike hp

/-- Appends, a repeated and a gapped replica batch, and the high watermark. -/
def mixedCalls : List (ℤ × Request) :=
  [(1, .append (makeBatch 2 [])), (2, .holdHighWatermark),
    (3, .appendReplica (stamp 2 (makeBatch 3 [7]))), (4, .appendReplica (stamp 2 (makeBatch 3 [7]))),
    (5, .appendReplica (stamp 9 (makeBatch 1 []))), (6, .setHighWatermark 4),
    (7, .append (makeBatch 1 [8, 9]))]

theorem backends_agree_mixed :
    ∃ l₀, Log.open ⟨1000, 0⟩ 0 [] = .ok l₀ ∧
      Along Pair.step Pair.SameReply ⟨l₀, Handle.empty⟩ mixedCalls ∧
      Always Pair.step Pair.Alike ⟨l₀, Handle.empty⟩ mixedCalls :=
  ⟨_, open_nil _ _, backends_agree (open_nil _ _) Handle.fresh_empty (by decide +kernel)
    (by decide +kernel)⟩

/-! ### Offsets beyond 32 bits -/

/-- Three well-formed batches of `2 ^ 31 - 1` records. -/
def wideCalls : List (ℤ × Request) :=
  [(1, .append (makeBatch 2147483647 [])), (2, .append (makeBatch 2147483647 [])),
    (3, .append (makeBatch 2147483647 []))]

/-- **The backends disagree.**  The relative offset of the third index entry wraps, and a
read of the second batch finds the third in the file. -/
theorem backends_disagree :
    ∃ l₀, Log.open ⟨1073741824, 0⟩ 0 [] = .ok l₀ ∧ Handle.empty.Fresh ∧
      (∀ x ∈ wideCalls, x.2.WellFormed) ∧
      let p := run Pair.step ⟨l₀, Handle.empty⟩ wideCalls
      p.file.sealed = [] ∧
        p.file.read 2147483647 1 = .ok (stamp 4294967294 (makeBatch 2147483647 []), none) ∧
        objectRead p.object 2147483647 1 = .ok (stamp 2147483647 (makeBatch 2147483647 []), none) ∧
        objectRead p.object 2147483647 1 ≠ p.file.read 2147483647 1 :=
  ⟨_, open_nil _ _, Handle.fresh_empty, by decide +kernel⟩

end Backend
end Mq
