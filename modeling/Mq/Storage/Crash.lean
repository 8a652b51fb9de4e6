import Mq.Storage.Recovery

/-!
# What a crash loses

The crash theorem for whole runs: opening what a crash left gives the surviving
batches and a log that behaves, from then on, as a live log that appended these
batches and no later ones.  The live log is a state of the run itself, with old
segments deleted where the run had deleted them.  One trace of the lost batches
remains: the recovered log keeps the file of its active segment, so when none of
its batches survives the live log is the one that has rolled already.

## Main results

* `recovery_correct` — **crash recovery.**
* `recovery_after_roll_differs` — a log whose active segment lost everything is
  not the log that never rolled, and a segment of `2 ^ 31` bytes loses all of its
  batches.
-/

namespace Mq
namespace Storage

open Word Record Transition

/-! ### The live log -/

/-- A run is determined by its base, its batches and its time. -/
theorem Part.redated_eq {p q : Part} (hbase : p.base = q.base) (hbatches : p.batches = q.batches) :
    p.redated 0 = q.redated 0 := by
  have hstop : p.stop = q.stop := by
    rw [p.chained.stop_eq, q.chained.stop_eq, hbase, hbatches]
  exact Part.ext hbase hstop rfl hbatches

/-- The live log of an origin: with the batches `bs` in its active segment, or
rolled to an empty one. -/
def LiveLog (l₀ : Log) (now : ℤ) (ops' : List Op) (bs : List Bytes) (live : Log) : Prop :=
  live = l₀.run ops' ∨ bs = [] ∧ live = (l₀.run ops').roll now (l₀.run ops').nextOffset

/-- A log that holds the first batches of a layout is similar to a live log. -/
theorem exists_live {l₀ r : Log} {ops : List Op} {y : Layout} {bs : List Bytes} {m : ℤ}
    (hsized : Always Log.step Log.Sized l₀ ops) (hcfg : r.cfg = l₀.cfg) (hbs : bs <+: y.last.batches)
    (hr : r.Holds (y.cutTo m bs hbs)) (ho : HasOrigin l₀ ops y bs) (now : ℤ) :
    ∃ ops' live maxBytes, ops' <+: ops ∧ LiveLog l₀ now ops' bs live ∧
      r.batches <:+ history ops' ∧ r.Similar (live.enforceRetention now 0 maxBytes) := by
  obtain ⟨ops', y', hpre, hy', ⟨-, hbatches⟩, ho⟩ := ho
  have hsmall := hy'.sized_iff.mp (hsized.of_prefix hpre).final
  -- the layout of the live log, before retention
  obtain ⟨live, z, hlive, hcfg', hz, hzsmall, hzbatches, hzbase, hzlast, hzclosed⟩ :
      ∃ live z, LiveLog l₀ now ops' bs live ∧ live.cfg = l₀.cfg ∧ live.Holds z ∧
        (∀ p ∈ z.parts, p.bytes.length < 2147483648) ∧ z.batches = y'.batches ∧
        z.last.base = y.last.base ∧ z.last.batches = bs ∧ y.closed <:+ z.closed := by
    rcases ho with ⟨h₁, h₂, h₃⟩ | ⟨h₁, h₂, h₃, h₄⟩
    · exact ⟨_, y', Or.inl rfl, run_cfg _ _, hy', hsmall, rfl, h₂, h₁, h₃⟩
    · refine ⟨_, y'.roll now h₂, Or.inr ⟨h₁, rfl⟩, run_cfg _ _, ?_, ?_, y'.roll_batches now h₂, h₃,
        h₁.symm, h₄⟩
      · rw [hy'.next]; exact hy'.roll now h₂
      · intro p hp
        rcases List.mem_append.mp hp with hp | hp
        · exact hsmall p hp
        · rw [List.mem_singleton.mp hp]; simp [Layout.roll, Part.empty, Part.bytes]
  obtain ⟨maxBytes, hclosed, hlast⟩ := z.exists_retention now hzsmall hzclosed
  have hz' := hz.enforceRetention now 0 maxBytes
  refine ⟨ops', live, maxBytes, hpre, hlive, ?_, hr.similar hz' ?_ ?_ ?_⟩
  · have hsame : (y.cutTo m bs hbs).batches = (z.enforceRetention now 0 maxBytes).batches := by
      rw [Layout.batches_eq, Layout.batches_eq, hclosed, hlast, hzlast]; rfl
    rw [hr.batches, hsame]
    refine (z.dropClosed_batches _).trans ?_
    rw [hzbatches]; exact hbatches
  · rw [hcfg, ← hcfg']; rfl
  · rw [hclosed]; rfl
  · rw [hlast]
    exact Part.redated_eq hzbase.symm hzlast.symm

/-! ### The crash theorem -/

/-- The offset after the batches `bs` of a segment based at `base`. -/
def nextAfter (base : ℤ) (bs : List Bytes) : ℤ :=
  (bs.getLast?.map fun b => (header b).lastOffset + 1).getD base

theorem Part.nextAfter_eq (p : Part) : nextAfter p.base p.batches = p.stop := by
  rcases List.eq_nil_or_concat p.batches with hnil | ⟨bs, b, hb⟩
  · have hch := p.chained
    rw [hnil] at hch ⊢
    exact hch
  · have hlast := p.lastOffset (b := b) (by rw [hb]; simp)
    have hch := p.chained
    rw [hb, List.concat_eq_append, chained_append] at hch
    obtain ⟨x, -, -, hx, hstop⟩ := hch
    have hstop : x + (header b).recordCount = p.stop := hstop
    rw [hb, List.concat_eq_append, nextAfter, List.getLast?_concat, Option.map_some,
      Option.getD_some, hlast]
    omega

/-- **Crash recovery.**  After a crash that leaves the closed segments intact and
cuts the active one anywhere, opening succeeds.  The recovered log holds exactly
the batches that survived, ends after the last of them, and is similar to a live
log that appended these batches and no later ones.  When nothing was cut off it
is similar to the log that crashed. -/
theorem recovery_correct {cfg : Config} {now : ℤ} {l₀ : Log} {ops : List Op}
    (hopen : Log.open cfg now [] = .ok l₀) (hwf : ∀ b ∈ appended ops, WellFormed b)
    (hsized : Always Log.step Log.Sized l₀ ops) (cut : ℕ) (idx : Bytes) (modTime now' : ℤ) :
    ∃ r, Log.open cfg now' ((l₀.run ops).crash cut idx modTime) = .ok r ∧
      r.batches = (l₀.run ops).sealed.flatMap (fun s => split s.logFile)
        ++ survivors cut (split (l₀.run ops).active.logFile) ∧
      r.nextOffset = nextAfter (l₀.run ops).active.baseOffset
        (survivors cut (split (l₀.run ops).active.logFile)) ∧
      (∃ ops' live maxBytes, ops' <+: ops ∧
        LiveLog l₀ now' ops' (survivors cut (split (l₀.run ops).active.logFile)) live ∧
        r.batches <:+ history ops' ∧ r.Similar (live.enforceRetention now' 0 maxBytes) ∧
        ∀ calls, replies Log.call r calls
          = replies Log.call (live.enforceRetention now' 0 maxBytes) calls) ∧
      ((l₀.run ops).active.logFile.length ≤ cut → r.Similar (l₀.run ops) ∧
        ∀ calls, replies Log.call r calls = replies Log.call (l₀.run ops) calls) := by
  obtain ⟨y, hy, -, ho⟩ := run_origin hopen hwf hsized
  have hcfg : (l₀.run ops).cfg = cfg := by rw [run_cfg, (Log.Holds.of_open_nil hopen).1]
  have hsmall := hy.sized_iff.mp hsized.final y.last (by simp [Layout.parts])
  have hsplit : split (l₀.run ops).active.logFile = y.last.batches := by
    rw [hy.active, ofPart_logFile, Part.split_bytes]
  have hpre := survivors_isPrefix cut y.last.batches
  obtain ⟨r, m, hr, hrcfg, -, -, hrH⟩ := open_crash hy hsmall cut idx modTime now'
  rw [hcfg] at hr hrcfg
  rw [hsplit]
  refine ⟨r, hr, ?_, ?_, ?_, fun hcut => ?_⟩
  · have hsealed := hy.map_sealed (f := fun s => split s.logFile) fun _ => rfl
    rw [hrH.batches, Layout.batches_eq, List.flatMap_def, List.flatMap_def, hsealed]
    congr 2
    exact List.map_congr_left fun p _ => p.split_bytes.symm
  · rw [hrH.next, hy.active]
    exact (y.last.upTo m _ hpre).nextAfter_eq.symm
  · obtain ⟨ops', live, maxBytes, h₁, h₂, h₃, h₄⟩ := exists_live hsized
      (by rw [hrcfg, (Log.Holds.of_open_nil hopen).1]) hpre hrH (ho _ hpre) now'
    exact ⟨ops', live, maxBytes, h₁, h₂, h₃, h₄, h₄.replies⟩
  · have hall : survivors cut y.last.batches = y.last.batches := by
      rw [hy.active] at hcut
      exact survivors_of_le hcut
    have hsim : r.Similar (l₀.run ops) :=
      hrH.similar hy (by rw [hrcfg, hcfg]) rfl (Part.redated_eq rfl hall)
    exact ⟨hsim, hsim.replies⟩

/-- A run with a roll, cut inside its second segment. -/
theorem recovery_correct_torn :
    ∃ r, Log.open ⟨122, 0⟩ 9 (((Log.create ⟨122, 0⟩ 0).run
        [.append 1 (makeBatch 1 []), .append 2 (makeBatch 2 [0])]).crash 40 [1, 2] 5) = .ok r ∧
      r.nextOffset = nextAfter ((Log.create ⟨122, 0⟩ 0).run
        [.append 1 (makeBatch 1 []), .append 2 (makeBatch 2 [0])]).active.baseOffset
          (survivors 40 (split ((Log.create ⟨122, 0⟩ 0).run
            [.append 1 (makeBatch 1 []), .append 2 (makeBatch 2 [0])]).active.logFile)) := by
  have hwf : ∀ b ∈ appended [.append 1 (makeBatch 1 []), .append 2 (makeBatch 2 [0])],
      WellFormed b := by decide +kernel
  have hsized : Always Log.step Log.Sized (Log.create ⟨122, 0⟩ 0)
      [.append 1 (makeBatch 1 []), .append 2 (makeBatch 2 [0])] := by decide +kernel
  obtain ⟨r, h₁, -, h₂, -⟩ := recovery_correct (open_nil ⟨122, 0⟩ 0) hwf hsized 40 [1, 2] 5 9
  exact ⟨r, h₁, h₂⟩

/-! ### Where recovery differs -/

section overflow

variable {big : Bytes} (hw : WellFormed big) (hlen : big.length = 67108864)
  (hcount : (header big).recordCount = 1)

include hw hlen hcount

/-- With the largest segment size no append ever rolls, so the active segment
grows past what its 32-bit size can hold. -/
theorem run_big (k : ℕ) (hk : k ≤ 32) :
    ∃ y, ((Log.create ⟨2147483647, 4096⟩ 0).run (List.replicate k (.append 0 big))).Holds y ∧
      y.closed = [] ∧ y.last.base = 0 ∧ y.last.stop = k ∧ y.last.batches.length = k ∧
      y.last.bytes.length = k * 67108864 := by
  induction k with
  | zero =>
    exact ⟨Layout.empty 0, (Log.Holds.of_open_nil (open_nil _ _)).2, rfl, rfl, rfl, rfl, rfl⟩
  | succ k ih =>
    obtain ⟨y, hy, hclosed, hbase, hstop, hcnt, hsize⟩ := ih (by omega)
    have hf : y.last.stop + (header big).recordCount < 9223372036854775808 := by omega
    have hroll : ∀ n, y.needsRoll 2147483647 n = false := by
      intro n
      have := (wrap32_bounds (wrap32 y.last.bytes.length + wrap32 n)).2
      simp only [Layout.needsRoll, Bool.and_eq_false_iff, decide_eq_false_iff_not]
      right; omega
    have happ := (hy.append 0 hw (by omega) hf).2
    rw [run_cfg] at happ
    obtain ⟨h₁, h₂, h₃⟩ := y.produce_of_not_needsRoll hw 2147483647 0 hf (hroll _)
    refine ⟨y.produce hw 2147483647 0 hf, ?_, by rw [h₁, hclosed], by rw [h₂, hbase], ?_, ?_, ?_⟩
    · rw [List.replicate_succ', Log.run_snoc]; exact happ
    · rw [y.produce_stop hw, hstop, hcount]; push_cast; rfl
    · rw [h₃, List.length_append, hcnt]; rfl
    · rw [Part.bytes, h₃, List.flatten_append, List.length_append, List.flatten_singleton,
        length_stamp hw.1.1, hlen, ← Part.bytes, hsize]
      omega

omit hw hlen hcount in
/-- A segment whose size has wrapped is taken for one without a whole batch. -/
theorem recoverActive_of_neg {s : Segment} (hs : s.logSize < 0) (now : ℤ) :
    ∃ s', recoverActive s now = .ok (s', s.baseOffset) ∧ s'.logFile = [] := by
  have hloop : recoverLoop s (s.logSize.toNat + 2) ⟨0, 0, [], 0⟩ = .ok ⟨0, 0, [], 0⟩ := by
    rw [recoverLoop, if_neg (by simp only; omega)]
  have hne : ¬ (0 : ℤ) = s.logSize := by omega
  rw [recoverActive, hloop]
  simp only [bind, Except.bind, if_neg hne, truncate, pure, Except.pure]
  exact ⟨_, rfl, by simp⟩

/-- After 32 batches of 64 MiB, a reopen loses all of them. -/
theorem open_big :
    ((Log.create ⟨2147483647, 4096⟩ 0).run (List.replicate 32 (.append 0 big))).batches.length = 32 ∧
      ∃ r, Log.open ⟨2147483647, 4096⟩ 1 (((Log.create ⟨2147483647, 4096⟩ 0).run
          (List.replicate 32 (.append 0 big))).crash 2147483648 [] 0) = .ok r ∧
        r.batches = [] ∧ r.nextOffset = 0 := by
  obtain ⟨y, hy, hclosed, hbase, hstop, hcnt, hsize⟩ := run_big hw hlen hcount 32 le_rfl
  generalize (Log.create ⟨2147483647, 4096⟩ 0).run (List.replicate 32 (.append 0 big)) = l at hy ⊢
  have hsealed : l.sealed = [] := by
    have hmap := hy.sealed
    rw [hclosed] at hmap
    exact List.map_eq_nil_iff.mp hmap
  have hfile : l.active.logFile = y.last.bytes := by rw [hy.active]; rfl
  have hwrapped : (openSegment ⟨l.active.baseOffset, l.active.logFile.take 2147483648, [], 0⟩
      4096).logSize < 0 := by
    simp only [openSegment]
    rw [List.take_of_length_le (by rw [hfile, hsize]), hfile, hsize]
    decide
  obtain ⟨s, hrec, hempty⟩ := recoverActive_of_neg hwrapped 1
  refine ⟨?_, ⟨⟨2147483647, 4096⟩, [], s, l.active.baseOffset, l.active.baseOffset, false, false⟩,
    ?_, ?_, ?_⟩
  · rw [hy.batches, Layout.batches_eq, hclosed]; exact hcnt
  · rw [Log.open, Log.crash, hsealed]
    simp only [List.map_nil, List.nil_append, List.insertionSort_cons, List.insertionSort_nil,
      List.orderedInsert_nil, List.getLast?_singleton, hrec, bind, Except.bind, pure, Except.pure,
      List.dropLast_singleton]
    rfl
  · simp only [Log.batches, Log.segments, List.nil_append, List.flatMap_cons, hempty,
      List.flatMap_nil, List.append_nil]
    rfl
  · show l.active.baseOffset = 0
    rw [hy.active]; exact hbase

end overflow

/-- **Where recovery differs.**  A log that rolled for its second batch and lost it
keeps the empty segment, so a later append and read do not come out as on the
live log that appended the first batch only.  And a log that filled its active
segment with `2 ^ 31` bytes recovers none of its 32 batches, although nothing was
cut off. -/
theorem recovery_after_roll_differs :
    (∃ r, Log.open ⟨122, 0⟩ 9 (((Log.create ⟨122, 0⟩ 0).run
          [.append 1 (makeBatch 1 []), .append 2 (makeBatch 1 [0])]).crash 0 [] 0) = .ok r ∧
        r.batches = [stamp 0 (makeBatch 1 [])] ∧
        ((Log.create ⟨122, 0⟩ 0).run [.append 1 (makeBatch 1 [])]).batches
          = [stamp 0 (makeBatch 1 [])] ∧
        (r.append 3 (makeBatch 1 [])).1.read 0 1000
          ≠ (((Log.create ⟨122, 0⟩ 0).run [.append 1 (makeBatch 1 [])]).append 3
              (makeBatch 1 [])).1.read 0 1000) ∧
      ((Log.create ⟨2147483647, 4096⟩ 0).run (List.replicate 32
          (.append 0 (makeBatch 1 (List.replicate 67108803 0))))).batches.length = 32 ∧
      ∃ r, Log.open ⟨2147483647, 4096⟩ 1 (((Log.create ⟨2147483647, 4096⟩ 0).run
          (List.replicate 32 (.append 0 (makeBatch 1 (List.replicate 67108803 0))))).crash
            2147483648 [] 0) = .ok r ∧ r.batches = [] ∧ r.nextOffset = 0 := by
  refine ⟨⟨⟨⟨122, 0⟩, (((Log.create ⟨122, 0⟩ 0).run
    [.append 1 (makeBatch 1 []), .append 2 (makeBatch 1 [0])]).sealed.map Segment.files).map
      (openSegment · 0), createSegment 1 0 0, 1, 1, false, false⟩, ?_, ?_, ?_, ?_⟩, ?_⟩
  · decide +kernel
  · decide +kernel
  · decide +kernel
  · decide +kernel
  · have hlen : (List.replicate 67108803 (0 : UInt8)).length = 67108803 := List.length_replicate
    exact open_big (wellFormed_makeBatch (by decide) (by decide) (by rw [hlen]; decide))
      (by rw [length_makeBatch, hlen]) (recordCount_makeBatch _ (by decide) (by decide))

end Storage
end Mq
