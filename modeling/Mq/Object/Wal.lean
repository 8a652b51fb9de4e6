import Mathlib.Data.List.Basic
import Mq.Lib.Word

/-!
# The write-ahead log of a node

`internal/storage/object/wal.go` at the level of whole records: one sequence of
segments for all partitions, of which the last is written to.  An upload seals
the active segment and, when its records are safe elsewhere, deletes it.

## Main definitions

* `WalRecord`, `Wal` — a record, and the segments on disk with the active one.
* `openWal`, `Wal.append`, `Wal.rotate`, `Wal.deleteThrough`, `Wal.replay`.
* `Wal.Tidy` — the active segment is the last one and has the highest number.
* `Wal.SealedAt` — what the segments up to a number hold.

## Main results

* `Tidy.append`, `Tidy.rotate`, `SealedAt.deleteThrough` — the operations keep the order,
  and what they leave for a replay.
-/

namespace Mq
namespace Object

open Word

/-- One partition's batch, tagged with the partition it belongs to. -/
structure WalRecord where
  topic : Bytes
  partition : ℤ
  baseOffset : ℤ
  batch : Bytes
  deriving DecidableEq, Repr

/-- A segment file: its sequence number and its records. -/
structure WalSegment where
  seq : ℕ
  records : List WalRecord
  deriving DecidableEq, Repr

/-- The segment files in the order of their numbers, and the open handle. -/
structure Wal where
  segments : List WalSegment
  activeSeq : ℕ
  /-- A rotation failed after it had closed the active file. -/
  closed : Bool
  deriving DecidableEq, Repr

/-- Leave the segments found in place and open a fresh one after them. -/
def openWal (segments : List WalSegment) : Wal :=
  let next := match segments.getLast? with
    | none => 1
    | some s => s.seq + 1
  ⟨segments ++ [⟨next, []⟩], next, false⟩

/-- The step at which a rotation fails. -/
inductive RotateFault
  /-- The active file cannot be synced. -/
  | sync
  /-- The active file is closed and the next one cannot be opened. -/
  | reopen
  deriving DecidableEq, Repr

namespace Wal

/-- Write a record to the active segment. -/
def append (w : Wal) (rec : WalRecord) : Option Wal :=
  if w.closed then none
  else some { w with segments := w.segments.map fun s =>
    if s.seq = w.activeSeq then { s with records := s.records ++ [rec] } else s }

/-- Seal the active segment and open a fresh one; the sealed number is returned.
A handle that is already closed cannot be synced. -/
def rotate (w : Wal) (fault : Option RotateFault) : Wal × Option ℕ :=
  if w.closed then (w, none)
  else match fault with
    | none =>
      ({ w with
          segments := w.segments ++ [⟨w.activeSeq + 1, []⟩], activeSeq := w.activeSeq + 1 },
        some w.activeSeq)
    | some .sync => (w, none)
    | some .reopen => ({ w with closed := true }, none)

/-- Remove every segment up to a number. -/
def deleteThrough (w : Wal) (sealedThrough : ℕ) : Wal :=
  { w with segments := w.segments.filter fun s => sealedThrough < s.seq }

/-- The records that a replay visits, segment after segment. -/
def replay (w : Wal) : List WalRecord := w.segments.flatMap (·.records)

/-! ### The active segment -/

/-- The active segment is the last one and has the highest number. -/
def Tidy (w : Wal) : Prop :=
  ∃ pre recs, w.segments = pre ++ [⟨w.activeSeq, recs⟩] ∧ ∀ s ∈ pre, s.seq < w.activeSeq

/-- The segments up to the number `q` hold the records `recs`, and others follow. -/
def SealedAt (w : Wal) (q : ℕ) (recs : List WalRecord) : Prop :=
  ∃ old new, w.segments = old ++ new ∧ new ≠ [] ∧ (∀ s ∈ old, s.seq ≤ q) ∧
    (∀ s ∈ new, q < s.seq) ∧ old.flatMap (·.records) = recs

variable {w w' : Wal} {rec : WalRecord} {recs : List WalRecord} {q : ℕ}

theorem mem_replay {r : WalRecord} : r ∈ w.replay ↔ ∃ s ∈ w.segments, r ∈ s.records :=
  List.mem_flatMap

theorem Tidy.le_active (h : w.Tidy) : ∀ s ∈ w.segments, s.seq ≤ w.activeSeq := by
  obtain ⟨pre, recs, hsegs, hpre⟩ := h
  intro s hs
  rw [hsegs] at hs
  rcases List.mem_append.mp hs with hs | hs
  · exact Nat.le_of_lt (hpre s hs)
  · rw [List.mem_singleton.mp hs]

theorem Tidy.congr (h : w.Tidy) (hsegs : w'.segments = w.segments)
    (hseq : w'.activeSeq = w.activeSeq) : w'.Tidy := by
  unfold Tidy
  rw [hsegs, hseq]
  exact h

/-- A log that is opened again has its records, and a fresh segment after them. -/
theorem Tidy.openWal (h : w.Tidy) :
    (Object.openWal w.segments).Tidy ∧ (Object.openWal w.segments).replay = w.replay := by
  have hlast : Object.openWal w.segments
      = ⟨w.segments ++ [⟨w.activeSeq + 1, []⟩], w.activeSeq + 1, false⟩ := by
    obtain ⟨pre, recs, hsegs, -⟩ := h
    rw [Object.openWal, hsegs, List.getLast?_concat]
  rw [hlast]
  refine ⟨⟨w.segments, [], rfl, fun s hs => Nat.lt_succ_of_le (h.le_active s hs)⟩, ?_⟩
  simp [replay]

/-! ### Writing -/

theorem append_eq_some (h : w.append rec = some w') :
    w' = { w with segments := w.segments.map fun s =>
      if s.seq = w.activeSeq then { s with records := s.records ++ [rec] } else s } := by
  rw [append] at h
  split at h
  · exact absurd h (by simp)
  · exact (Option.some.inj h).symm

theorem activeSeq_append (h : w.append rec = some w') : w'.activeSeq = w.activeSeq := by
  rw [append_eq_some h]

/-- A record goes to the end of the last segment. -/
theorem Tidy.append_eq (h : w.Tidy) (happend : w.append rec = some w') :
    ∃ pre recs, w.segments = pre ++ [⟨w.activeSeq, recs⟩] ∧ (∀ s ∈ pre, s.seq < w.activeSeq) ∧
      w' = { w with segments := pre ++ [⟨w.activeSeq, recs ++ [rec]⟩] } := by
  obtain ⟨pre, recs, hsegs, hpre⟩ := h
  refine ⟨pre, recs, hsegs, hpre, ?_⟩
  have hsame : (pre.map fun s =>
      if s.seq = w.activeSeq then { s with records := s.records ++ [rec] } else s) = pre := by
    conv_rhs => rw [← List.map_id pre]
    apply List.map_congr_left
    intro s hs
    exact if_neg (Nat.ne_of_lt (hpre s hs))
  rw [append_eq_some happend, hsegs, List.map_append, List.map_singleton, if_pos rfl, hsame]

theorem Tidy.append (h : w.Tidy) (happend : w.append rec = some w') :
    w'.Tidy ∧ w'.replay = w.replay ++ [rec] := by
  obtain ⟨pre, recs, hsegs, hpre, rfl⟩ := h.append_eq happend
  refine ⟨⟨pre, _, rfl, hpre⟩, ?_⟩
  rw [replay, replay, hsegs]
  simp

/-- What is sealed stays as it is. -/
theorem SealedAt.append (hs : w.SealedAt q recs) (h : w.Tidy) (happend : w.append rec = some w') :
    w'.SealedAt q recs := by
  obtain ⟨pre, last, hsegs, -, rfl⟩ := h.append_eq happend
  obtain ⟨old, new, hsplit, hne, hold, hnew, hrecs⟩ := hs
  -- the active segment is one of those that follow
  obtain ⟨mid, t, rfl⟩ := List.eq_nil_or_concat' new |>.resolve_left hne
  rw [hsplit, ← List.append_assoc] at hsegs
  obtain ⟨hpre, ht⟩ := List.append_inj' hsegs rfl
  cases ht
  refine ⟨old, mid ++ [⟨w.activeSeq, last ++ [rec]⟩], ?_, by simp, hold, ?_, hrecs⟩
  · rw [← hpre, List.append_assoc]
  · intro s hs
    rcases List.mem_append.mp hs with hs | hs
    · exact hnew s (List.mem_append_left _ hs)
    · rw [List.mem_singleton.mp hs]
      exact hnew ⟨w.activeSeq, last⟩ (by simp)

/-! ### Rotating and trimming -/

variable {fault : Option RotateFault}

theorem rotate_eq_some (h : w.rotate fault = (w', some q)) :
    q = w.activeSeq ∧
      w' = { w with
        segments := w.segments ++ [⟨w.activeSeq + 1, []⟩], activeSeq := w.activeSeq + 1 } := by
  unfold rotate at h
  split at h
  · exact absurd (congrArg Prod.snd h) (by simp)
  · cases fault with
    | none =>
      obtain ⟨hw, hn⟩ := Prod.mk.inj h
      exact ⟨(Option.some.inj hn).symm, hw.symm⟩
    | some f =>
      cases f with
      | sync => exact absurd (congrArg Prod.snd h) (by simp)
      | reopen => exact absurd (congrArg Prod.snd h) (by simp)

/-- A rotation that fails leaves the files alone. -/
theorem rotate_eq_none (h : w.rotate fault = (w', none)) :
    w'.segments = w.segments ∧ w'.activeSeq = w.activeSeq := by
  unfold rotate at h
  split at h
  · cases h; exact ⟨rfl, rfl⟩
  · cases fault with
    | none => exact absurd (congrArg Prod.snd h) (by simp)
    | some f =>
      cases f with
      | sync => cases h; exact ⟨rfl, rfl⟩
      | reopen => cases h; exact ⟨rfl, rfl⟩

theorem Tidy.rotate (h : w.Tidy) (hrot : w.rotate fault = (w', some q)) :
    w'.Tidy ∧ w'.replay = w.replay ∧ w'.SealedAt q w.replay := by
  obtain ⟨rfl, rfl⟩ := rotate_eq_some hrot
  refine ⟨⟨w.segments, [], rfl, fun s hs => Nat.lt_succ_of_le (h.le_active s hs)⟩, ?_, ?_⟩
  · simp [replay]
  · refine ⟨w.segments, _, rfl, by simp, h.le_active, ?_, rfl⟩
    intro s hs
    rw [List.mem_singleton.mp hs]
    exact Nat.lt_succ_self _

theorem mem_segments_deleteThrough {s : WalSegment} :
    s ∈ (w.deleteThrough q).segments ↔ s ∈ w.segments ∧ q < s.seq := by
  rw [deleteThrough, List.mem_filter, decide_eq_true_iff]

/-- A record in a segment up to the number is one of those that are sealed. -/
theorem SealedAt.mem (hs : w.SealedAt q recs) {s : WalSegment} (hmem : s ∈ w.segments)
    (hle : s.seq ≤ q) (hrec : rec ∈ s.records) : rec ∈ recs := by
  obtain ⟨old, new, hsplit, -, -, hnew, rfl⟩ := hs
  rw [hsplit] at hmem
  rcases List.mem_append.mp hmem with hmem | hmem
  · exact List.mem_flatMap.mpr ⟨s, hmem, hrec⟩
  · exact absurd hle (Nat.not_le_of_lt (hnew s hmem))

/-- Deleting the sealed segments takes their records away, and no others. -/
theorem SealedAt.deleteThrough (hs : w.SealedAt q recs) (h : w.Tidy) :
    (w.deleteThrough q).Tidy ∧ w.replay = recs ++ (w.deleteThrough q).replay := by
  obtain ⟨pre, last, hsegs, hpre⟩ := h
  obtain ⟨old, new, hsplit, hne, hold, hnew, rfl⟩ := hs
  have hkept : w.segments.filter (fun s => q < s.seq) = new := by
    rw [hsplit, List.filter_append, List.filter_eq_nil_iff.mpr, List.filter_eq_self.mpr,
      List.nil_append]
    · intro s hs; exact decide_eq_true (hnew s hs)
    · intro s hs
      have := hold s hs
      simp only [decide_eq_true_eq]
      omega
  obtain ⟨mid, t, rfl⟩ := List.eq_nil_or_concat' new |>.resolve_left hne
  have hsegs' := hsegs
  rw [hsplit, ← List.append_assoc] at hsegs'
  obtain ⟨hmid, ht⟩ := List.append_inj' hsegs' rfl
  cases ht
  refine ⟨⟨mid, last, hkept, ?_⟩, ?_⟩
  · intro s hs
    exact hpre s (hmid ▸ List.mem_append_right _ hs)
  · rw [replay, replay, Wal.deleteThrough, hkept, hsplit, List.flatMap_append]

/-- An upload that seals the log and deletes what it sealed leaves no record. -/
theorem Tidy.rotate_deleteThrough (h : w.Tidy) (hrot : w.rotate fault = (w', some q)) :
    (w'.deleteThrough q).Tidy ∧ (w'.deleteThrough q).replay = [] := by
  obtain ⟨htidy, hreplay, hsealed⟩ := h.rotate hrot
  obtain ⟨hdeleted, hsplit⟩ := hsealed.deleteThrough htidy
  exact ⟨hdeleted, List.append_right_eq_self.mp (hsplit.symm.trans hreplay)⟩

end Wal

end Object
end Mq
