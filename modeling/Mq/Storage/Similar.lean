import Mathlib.Data.List.GetD
import Mq.Lib.Transition
import Mq.Storage.Refinement

/-!
# Logs that behave alike

Two logs may differ in ways that no read and no append can tell: in the
modification times of their files, in the high watermark and the flags around it,
and in the byte counters of closed segments.  Such logs are similar, and similar
logs give the same replies for ever.

## Main definitions

* `Log.Similar` — the relation.
* `Call`, `Log.call` — a read or an append, with its reply.

## Main results

* `Log.Similar.read`, `Log.Similar.append` — one call.
* `Log.Similar.replies` — **similar logs behave alike.**
-/

namespace Mq
namespace Storage

open Word Record

/-! ### Segments without their times -/

/-- A segment without the modification time of its file. -/
def Segment.undated (s : Segment) : Segment := { s with modTime := 0 }

/-- What reads and appends can see of a closed segment. -/
def Segment.core (s : Segment) : Segment := s.settled.undated

theorem readBatchesFrom_core (s : Segment) (want maxBytes : ℤ) :
    s.core.readBatchesFrom want maxBytes = s.readBatchesFrom want maxBytes := by
  apply readBatchesFrom_congr <;> rfl

theorem baseOffset_of_core {s t : Segment} (h : s.core = t.core) : s.baseOffset = t.baseOffset := by
  have := congrArg Segment.baseOffset h
  exact this

theorem core_undated (s : Segment) : s.undated.core = s.core := rfl

theorem core_shareFiles (s t : Segment) :
    (Log.shareFiles s t).core = Log.shareFiles s.core t.core := by
  unfold Log.shareFiles
  by_cases h : t.baseOffset = s.baseOffset
  · rw [if_pos h, if_pos (show t.core.baseOffset = s.core.baseOffset from h)]; rfl
  · rw [if_neg h, if_neg (show ¬ t.core.baseOffset = s.core.baseOffset from h)]

theorem map_core_shareFiles (s : Segment) (ts : List Segment) :
    (ts.map (Log.shareFiles s)).map Segment.core
      = (ts.map Segment.core).map (Log.shareFiles s.core) := by
  simp only [List.map_map]
  exact List.map_congr_left fun t _ => core_shareFiles s t

theorem indexBatch_undated (s : Segment) (base : ℤ) :
    s.undated.indexBatch base = (s.indexBatch base).undated := by
  unfold Segment.indexBatch
  by_cases h : s.index = [] ∨ s.indexInterval ≤ s.bytesSinceIdx
  · have h' : s.undated.index = [] ∨ s.undated.indexInterval ≤ s.undated.bytesSinceIdx := h
    rw [if_pos h, if_pos h']; rfl
  · have h' : ¬ (s.undated.index = [] ∨ s.undated.indexInterval ≤ s.undated.bytesSinceIdx) := h
    rw [if_neg h, if_neg h']

/-- The modification time plays no part in an append. -/
theorem append_undated (s : Segment) (now : ℤ) (b : Bytes) (base : ℤ) :
    (s.undated.append now b base).2 = (s.append now b base).2 ∧
      (s.undated.append now b base).1.undated = (s.append now b base).1.undated := by
  unfold Segment.append
  rw [indexBatch_undated]
  simp only [Segment.undated]
  split <;> exact ⟨rfl, rfl⟩

theorem append_congr {s s' : Segment} (h : s.undated = s'.undated) (now : ℤ) (b : Bytes) (base : ℤ) :
    (s.append now b base).2 = (s'.append now b base).2 ∧
      (s.append now b base).1.undated = (s'.append now b base).1.undated := by
  obtain ⟨h₁, h₂⟩ := append_undated s now b base
  obtain ⟨h₁', h₂'⟩ := append_undated s' now b base
  exact ⟨by rw [← h₁, ← h₁', h], by rw [← h₂, ← h₂', h]⟩

/-! ### Similar logs -/

/-- Two logs that no read and no append can tell apart. -/
structure Log.Similar (l l' : Log) : Prop where
  cfg : l.cfg = l'.cfg
  sealed : l.sealed.map Segment.core = l'.sealed.map Segment.core
  active : l.active.undated = l'.active.undated
  next : l.nextOffset = l'.nextOffset

namespace Log.Similar

variable {l l' : Log} (h : l.Similar l')
include h

theorem core_active : l.active.core = l'.active.core := by
  rw [← core_undated, h.active, core_undated]

theorem segments : l.segments.map Segment.core = l'.segments.map Segment.core := by
  simp only [Log.segments, List.map_append, h.sealed, List.map_cons, h.core_active, List.map_nil]

theorem logSize : l.active.logSize = l'.active.logSize := by
  have := congrArg Segment.logSize h.active
  exact this

omit h in
/-- The first segment seen through `core`. -/
theorem core_headD (l : Log) :
    (l.sealed.headD l.active).core = (l.sealed.map Segment.core).headD l.active.core := by
  cases l.sealed <;> rfl

theorem headD : (l.sealed.headD l.active).core = (l'.sealed.headD l'.active).core := by
  rw [core_headD, core_headD, h.sealed, h.core_active]

theorem getD (i : ℕ) : (l.segments.getD i l.active).core = (l'.segments.getD i l'.active).core := by
  rw [← List.getD_map (f := Segment.core), ← List.getD_map (f := Segment.core), h.segments,
    h.core_active]

theorem segmentFor (o : ℤ) : (l.segmentFor o).core = (l'.segmentFor o).core := by
  have hlen : l.segments.length = l'.segments.length := by
    simpa using congrArg List.length h.segments
  have hbase : ∀ i, (l.segments.getD i l.active).baseOffset
      = (l'.segments.getD i l'.active).baseOffset := fun i => baseOffset_of_core (h.getD i)
  unfold Log.segmentFor
  simp only [hlen, hbase]
  split
  · exact h.headD
  · exact h.getD _

/-- Similar logs read alike. -/
theorem read (o maxBytes : ℤ) : l.read o maxBytes = l'.read o maxBytes := by
  have hfirst : l.earliestOffset = l'.earliestOffset := baseOffset_of_core h.headD
  unfold Log.read
  rw [h.next, hfirst, ← readBatchesFrom_core (l.segmentFor o), h.segmentFor,
    readBatchesFrom_core]

theorem setActive {s s' : Segment} (hs : s.undated = s'.undated) :
    (l.setActive s).Similar (l'.setActive s') := by
  have hcore : s.core = s'.core := by rw [← core_undated, hs, core_undated]
  refine ⟨h.cfg, ?_, hs, h.next⟩
  simp only [Log.setActive, map_core_shareFiles, h.sealed, hcore]

theorem rollFor (now base : ℤ) (n : ℕ) :
    (l.rollFor now base n).Similar (l'.rollFor now base n) := by
  have hneeds : l.needsRoll n = l'.needsRoll n := by
    rw [Log.needsRoll, Log.needsRoll, h.logSize, h.cfg]
  unfold Log.rollFor
  rw [hneeds]
  split
  · refine ⟨h.cfg, ?_, ?_, h.next⟩
    · simp only [Log.roll, map_core_shareFiles, h.segments, h.cfg]
    · simp only [Log.roll, h.cfg]
  · exact h

/-- Similar logs append alike and stay similar. -/
theorem append (now : ℤ) (batch : Bytes) :
    (l.append now batch).2 = (l'.append now batch).2 ∧
      (l.append now batch).1.Similar (l'.append now batch).1 := by
  unfold Log.append
  split
  · exact ⟨rfl, h⟩
  · simp only [h.next]
    have hroll := h.rollFor now l'.nextOffset
      (recomputeCRC (setBaseOffset batch l'.nextOffset)).length
    cases parseHeader (recomputeCRC (setBaseOffset batch l'.nextOffset)) with
    | error e => exact ⟨rfl, hroll⟩
    | ok hdr =>
      obtain ⟨herr, hact⟩ := append_congr hroll.active now
        (recomputeCRC (setBaseOffset batch l'.nextOffset)) l'.nextOffset
      have hset := hroll.setActive hact
      revert herr hset
      generalize (l.rollFor now l'.nextOffset _).active.append now _ l'.nextOffset = r
      generalize (l'.rollFor now l'.nextOffset _).active.append now _ l'.nextOffset = r'
      obtain ⟨s, e⟩ := r
      obtain ⟨s', e'⟩ := r'
      rintro rfl hset
      cases e with
      | some e => exact ⟨rfl, hset⟩
      | none => exact ⟨rfl, hset.cfg, hset.sealed, hset.active, rfl⟩

end Log.Similar

/-! ### Sequences of calls -/

/-- A read or an append. -/
inductive Call where
  | append (now : ℤ) (batch : Bytes)
  | read (offset maxBytes : ℤ)
  deriving DecidableEq, Repr

/-- What a call returns. -/
inductive Reply where
  | append (r : Outcome ℤ)
  | read (r : Outcome (Bytes × Option Err))

/-- The log after a call, and the reply. -/
def Log.call (l : Log) : Call → Log × Reply
  | .append now batch => ((l.append now batch).1, .append (l.append now batch).2)
  | .read offset maxBytes => (l, .read (l.read offset maxBytes))

/-- **Similar logs behave alike.** -/
theorem Log.Similar.replies {l l' : Log} (h : l.Similar l') (cs : List Call) :
    Transition.replies Log.call l cs = Transition.replies Log.call l' cs := by
  induction cs generalizing l l' with
  | nil => rfl
  | cons c cs ih =>
    cases c with
    | append now batch =>
      obtain ⟨hreply, hnext⟩ := h.append now batch
      rw [Transition.replies, Transition.replies, Log.call, Log.call, hreply]
      exact congrArg _ (ih hnext)
    | read offset maxBytes =>
      rw [Transition.replies, Transition.replies, Log.call, Log.call, h.read]
      exact congrArg _ (ih h)

end Storage
end Mq
