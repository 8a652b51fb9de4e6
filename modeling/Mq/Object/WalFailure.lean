import Mq.Object.WalStore

/-!
# Writes to the write-ahead log that fail

An append that fails may leave the beginning of its frame in the active segment
(`internal/storage/object/wal.go`).  The file stays open for appending, and a replay stops at
the first frame that is not whole, so what is written to the same segment afterwards is behind
the torn frame.

## Main definitions

* `WalCall`, `WalFiles.call` — appends that succeed or fail, and rotations, with the records
  that were accepted.
* `TrackedWal` — the files, and whether the active one ends in a part of a frame.
* `TrackedWal.Spares` — nothing is written behind a torn frame.

## Main results

* `Keeps.call`, `Keeps.run` — the segments hold what was accepted, after a call and after a
  run.
* `accepted_replayed` — **a replay delivers every accepted record** if nothing is written
  behind a torn frame.
* `torn_append_hides_record` — an accepted record that is never delivered.
-/

namespace Mq
namespace Object

open Word Framing Transition

/-! ### Calls -/

/-- A call on an open log.  `short` is the number of bytes that a failed write leaves. -/
inductive WalCall
  | append (rec : WalRecord) (short : Option ℕ)
  | rotate (fault : Option RotateFault)
  deriving DecidableEq, Repr

namespace WalCall

/-- Records fit the format, and a write that fails leaves less than the whole frame. -/
def Fits : WalCall → Prop
  | .append rec none => rec.Valid
  | .append rec (some n) => rec.Valid ∧ n < (walFrame rec).length
  | .rotate _ => True

instance : DecidablePred Fits
  | .append rec none => inferInstanceAs (Decidable rec.Valid)
  | .append _ (some _) => inferInstanceAs (Decidable (_ ∧ _))
  | .rotate _ => inferInstanceAs (Decidable True)

/-- Bytes come to the active file, if it is open. -/
def writes : WalCall → Bool
  | .append _ none => true
  | .append _ (some n) => n ≠ 0
  | .rotate _ => false

end WalCall

/-- The files after a call, and the records that were accepted. -/
def WalFiles.call (f : WalFiles) : WalCall → WalFiles × List WalRecord
  | .append rec short => ((f.append rec short).1, if (f.append rec short).2 then [rec] else [])
  | .rotate fault => ((f.rotate fault).1, [])

/-- The files, and whether the active one ends in a part of a frame. -/
structure TrackedWal where
  files : WalFiles
  torn : Bool

namespace TrackedWal

/-- A failed write tears the active file, and a rotation leaves that file behind. -/
def step (s : TrackedWal) (c : WalCall) : TrackedWal where
  files := (s.files.call c).1
  torn := match c with
    | .append _ none => s.torn
    | .append _ (some n) => s.torn || (!s.files.closed && n ≠ 0)
    | .rotate fault => s.torn && (s.files.rotate fault).2.isNone

/-- Nothing is written behind a torn frame, and the numbers of the segments do not run out. -/
def Spares (s : TrackedWal) (c : WalCall) : Prop :=
  (c.writes = true → s.files.closed = false → s.torn = false) ∧ s.files.activeSeq + 1 < 2 ^ 64

instance (s : TrackedWal) (c : WalCall) : Decidable (s.Spares c) :=
  inferInstanceAs (Decidable (_ ∧ _))

theorem files_run (s : TrackedWal) (calls : List WalCall) :
    (run step s calls).files = run (effect WalFiles.call) s.files calls := by
  induction calls generalizing s with
  | nil => rfl
  | cons c calls ih => exact ih (s.step c)

/-- The segments hold these records, and the active one is whole unless it is torn. -/
structure Keeps (s : TrackedWal) (older : List TornSegment) (active : TornSegment)
    (recs : List WalRecord) : Prop where
  holds : s.files.dir.Holds (older ++ [active])
  seq : s.files.activeSeq = active.seq
  whole : s.torn = false → active.torn = []
  records : (older ++ [active]).flatMap (·.records) = recs

variable {s : TrackedWal} {older : List TornSegment} {active : TornSegment}
  {recs : List WalRecord} {rec : WalRecord}

/-! ### One call -/

theorem Keeps.append (h : s.Keeps older active recs) (hrec : rec.Valid)
    (hopen : s.files.closed = false) (htorn : s.torn = false) :
    (s.step (.append rec none)).Keeps older (active.snoc rec hrec) (recs ++ [rec]) := by
  have happend : s.files.append rec none = (s.files.write (walFrame rec), true) := by
    simp [WalFiles.append, hopen]
  have hwhole := h.whole htorn
  constructor
  · simpa [step, WalFiles.call, happend] using
      WalFiles.holds_write (b := active.snoc rec hrec) h.holds h.seq rfl
        (TornSegment.data_snoc hwhole hrec)
  · simpa [step, WalFiles.call, happend, TornSegment.snoc] using h.seq
  · exact fun _ => rfl
  · rw [← h.records]
    simp [TornSegment.snoc]

/-- A failed write of some bytes tears the active segment, and of none does nothing. -/
theorem Keeps.short (h : s.Keeps older active recs) (hrec : rec.Valid) {n : ℕ}
    (hn : n < (walFrame rec).length) (hopen : s.files.closed = false)
    (htorn : n ≠ 0 → s.torn = false) :
    ∃ active', (s.step (.append rec (some n))).Keeps older active' recs := by
  have happend : s.files.append rec (some n) = (s.files.write ((walFrame rec).take n), false) := by
    simp [WalFiles.append, hopen]
  by_cases hzero : n = 0
  · subst hzero
    have hnil : active.data = active.data ++ [] := (List.append_nil _).symm
    refine ⟨active, ?_, ?_, ?_, h.records⟩
    · simpa [step, WalFiles.call, happend] using WalFiles.holds_write h.holds h.seq rfl hnil
    · simpa [step, WalFiles.call, happend] using h.seq
    · simpa [step] using h.whole
  · refine ⟨active.tear rec hrec n hn, ?_, ?_, ?_, ?_⟩
    · simpa [step, WalFiles.call, happend] using
        WalFiles.holds_write (b := active.tear rec hrec n hn) h.holds h.seq rfl
          (TornSegment.data_tear (h.whole (htorn hzero)) hrec hn)
    · simpa [step, WalFiles.call, happend, TornSegment.tear] using h.seq
    · simp [step, hopen, hzero]
    · rw [← h.records]
      simp [TornSegment.tear]

theorem Keeps.rotate (h : s.Keeps older active recs) (hseq : s.files.activeSeq + 1 < 2 ^ 64)
    (fault : Option RotateFault) :
    ∃ older' active', (s.step (.rotate fault)).Keeps older' active' recs := by
  cases hclosed : s.files.closed with
  | true =>
    have hrotate : s.files.rotate fault = (s.files, none) := by simp [WalFiles.rotate, hclosed]
    exact ⟨older, active, by simpa [step, WalFiles.call, hrotate] using h.holds,
      by simpa [step, WalFiles.call, hrotate] using h.seq,
      by simpa [step, hrotate] using h.whole, h.records⟩
  | false =>
    cases fault with
    | none =>
      have hnext : nextSeq (older ++ [active]) = s.files.activeSeq + 1 := by
        rw [nextSeq_concat, h.seq]
      have hrotate : s.files.rotate none
          = (openActive s.files.dir (s.files.activeSeq + 1), some s.files.activeSeq) := by
        simp only [WalFiles.rotate, hclosed, Bool.false_eq_true, if_false, Nat.mod_eq_of_lt hseq]
      refine ⟨older ++ [active], .fresh _ hseq, ?_, ?_, fun _ => rfl, ?_⟩
      · simpa [step, WalFiles.call, hrotate] using
          h.holds.openActive hseq (hnext ▸ h.holds.lt_nextSeq)
      · simp [step, WalFiles.call, hrotate, openActive, TornSegment.fresh]
      · rw [← h.records]
        simp [TornSegment.fresh]
    | some fault =>
      -- a rotation that fails leaves the files alone
      have hrotate : (s.files.rotate (some fault)).1.dir = s.files.dir ∧
          (s.files.rotate (some fault)).1.activeSeq = s.files.activeSeq ∧
          (s.files.rotate (some fault)).2 = none := by
        cases fault <;> simp [WalFiles.rotate, hclosed]
      exact ⟨older, active, by simpa [step, WalFiles.call, hrotate.1] using h.holds,
        by simpa [step, WalFiles.call, hrotate.2.1] using h.seq,
        by simpa [step, hrotate.2.2] using h.whole, h.records⟩

/-- **The segments hold what was accepted**, after a call that writes nothing behind a torn
frame. -/
theorem Keeps.call (h : s.Keeps older active recs) {c : WalCall} (hc : c.Fits)
    (hspares : s.Spares c) :
    ∃ older' active', (s.step c).Keeps older' active' (recs ++ (s.files.call c).2) := by
  cases c with
  | rotate fault => simpa [WalFiles.call] using h.rotate hspares.2 fault
  | append rec short =>
    cases hclosed : s.files.closed with
    | true =>
      -- nothing is written through a closed handle
      have happend : s.files.append rec short = (s.files, false) := by
        simp [WalFiles.append, hclosed]
      have htorn : (s.step (.append rec short)).torn = s.torn := by
        cases short <;> simp [step, hclosed]
      exact ⟨older, active, by simpa [step, WalFiles.call, happend] using h.holds,
        by simpa [step, WalFiles.call, happend] using h.seq, by simpa [htorn] using h.whole,
        by simpa [WalFiles.call, happend] using h.records⟩
    | false =>
      cases short with
      | none =>
        have hkept := h.append hc hclosed (hspares.1 rfl hclosed)
        exact ⟨older, _, by simpa [WalFiles.call, WalFiles.append, hclosed] using hkept⟩
      | some n =>
        obtain ⟨active', hkept⟩ := h.short hc.1 hc.2 hclosed
          fun hn => hspares.1 (by simpa [WalCall.writes] using hn) hclosed
        exact ⟨older, active', by simpa [WalFiles.call, WalFiles.append, hclosed] using hkept⟩

/-! ### Runs -/

theorem Keeps.run (h : s.Keeps older active recs) {calls : List WalCall}
    (hfits : ∀ c ∈ calls, c.Fits) (hspares : Along step Spares s calls) :
    ∃ older' active', (Transition.run step s calls).Keeps older' active'
      (recs ++ (replies WalFiles.call s.files calls).flatten) := by
  induction calls generalizing s older active recs with
  | nil => exact ⟨older, active, by simpa [replies] using h⟩
  | cons c calls ih =>
    obtain ⟨hc, hrest⟩ := List.forall_mem_cons.mp hfits
    obtain ⟨older', active', hkept⟩ := h.call hc hspares.1
    obtain ⟨older'', active'', hrun⟩ := ih hkept hrest hspares.2
    rw [List.append_assoc] at hrun
    exact ⟨older'', active'', hrun⟩

end TrackedWal

/-- The log of a directory is opened behind its segments. -/
theorem WalDir.Holds.keeps_open {dir : WalDir} {segs : List TornSegment} (h : dir.Holds segs)
    (hnext : nextSeq segs < 2 ^ 64) :
    TrackedWal.Keeps ⟨openWalFiles dir, false⟩ segs (.fresh (nextSeq segs) hnext)
      (segs.flatMap (·.records)) where
  holds := by
    rw [h.openWalFiles_eq hnext]
    exact h.openActive hnext h.lt_nextSeq
  seq := by
    rw [h.openWalFiles_eq hnext]
    rfl
  whole _ := rfl
  records := by simp [TornSegment.fresh]

/-- **A replay delivers every accepted record**, in order and after the records that were there
before, if nothing is written behind a torn frame. -/
theorem accepted_replayed {dir : WalDir} {segs : List TornSegment} (h : dir.Holds segs)
    (hnext : nextSeq segs < 2 ^ 64) (calls : List WalCall) (hfits : ∀ c ∈ calls, c.Fits)
    (hspares : Along TrackedWal.step TrackedWal.Spares ⟨openWalFiles dir, false⟩ calls) :
    replay (ε := Empty) (fun recs rec => (recs ++ [rec], none))
        (run (effect WalFiles.call) (openWalFiles dir) calls).dir []
      = (segs.flatMap (·.records)
          ++ (replies WalFiles.call (openWalFiles dir) calls).flatten, none) := by
  obtain ⟨older, active, hkept⟩ := (h.keeps_open hnext).run hfits hspares
  have hholds := hkept.holds
  rw [TrackedWal.files_run] at hholds
  rw [hholds.replay_calls, hkept.records]

/-- A record of one byte in a partition. -/
def walRecordOf (b : UInt8) : WalRecord := ⟨[97], 0, 0, [b]⟩

/-- A write fails inside the header of its frame, and the log is rotated before the next. -/
def rotatedCalls : List WalCall :=
  [.append (walRecordOf 1) none, .append (walRecordOf 2) (some 3), .rotate none,
    .append (walRecordOf 3) none]

theorem accepted_replayed_rotated :
    replay (ε := Empty) (fun recs rec => (recs ++ [rec], none))
        (run (effect WalFiles.call) (openWalFiles ∅) rotatedCalls).dir []
      = ([walRecordOf 1, walRecordOf 3], none) :=
  (accepted_replayed WalDir.holds_empty (by decide) rotatedCalls (by decide +kernel)
    (by decide +kernel)).trans (by decide +kernel)

/-- A write fails inside the header of its frame, and the next one succeeds. -/
def tornCalls : List WalCall :=
  [.append (walRecordOf 1) none, .append (walRecordOf 2) (some 3), .append (walRecordOf 3) none]

/-- **An accepted record is hidden** behind the torn frame. -/
theorem torn_append_hides_record :
    (∀ c ∈ tornCalls, c.Fits) ∧
      (replies WalFiles.call (openWalFiles ∅) tornCalls).flatten
        = [walRecordOf 1, walRecordOf 3] ∧
      replay (ε := Empty) (fun recs rec => (recs ++ [rec], none))
          (run (effect WalFiles.call) (openWalFiles ∅) tornCalls).dir []
        = ([walRecordOf 1], none) := by
  decide +kernel

end Object
end Mq
