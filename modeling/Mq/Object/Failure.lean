import Mq.Object.Trim

/-!
# Uploads that fail

An upload can fail when it seals the write-ahead log, when it puts its object, and
when it commits a ref.  The first two put what was taken back into the buffer.  The
last does not: the batches of the partitions that have no ref yet are in no place
that a later upload looks at, and a later upload deletes their records.  A commit can also
fail after the index store has recorded the ref; then this partition has its ref, and the
ones after it have none.

## Main definitions

* `FailedUpload` — an upload that fails, with appends between its steps.
* `Node.buffered` — the batches that a run puts into the buffer.
* `NothingLost` — what a failed upload has to leave.
* `LeavesNoPart` — every part that the upload took has been put back or has its ref.

## Main results

* `failed_upload_loses_nothing_iff` — **a failed upload loses nothing exactly when it
  leaves no part without a ref**.
* `failed_commit_loses_batch` — the loss, and the later upload that makes it final.
-/

namespace Mq
namespace Object

open Word Record Transition

/-! ### Failing uploads -/

/-- What the upload took from the buffer. -/
def Phase.snap : Phase → Option (Table Bytes PendingPart)
  | .idle => none
  | .swapped snap _ => some snap
  | .rotated snap _ _ => some snap
  | .committing snap _ _ => some snap

namespace Node

/-- The action ends the upload under way with an error. -/
def Fails (n : Node) (a : Action) : Prop :=
  match a, n.phase with
  | .rotate fault, .swapped _ _ => (n.storage.wal.rotate fault).2 = none
  | .putFail _ _, .rotated _ _ _ => True
  | .commitFail _, .committing _ (_ :: _) _ => True
  | _, _ => False

instance : ∀ (n : Node) (a : Action), Decidable (n.Fails a)
  | ⟨_, _, _, .swapped _ _, _⟩, .rotate _ => inferInstanceAs (Decidable (_ = _))
  | ⟨_, _, _, .rotated _ _ _, _⟩, .putFail _ _ => inferInstanceAs (Decidable True)
  | ⟨_, _, _, .committing _ (_ :: _) _, _⟩, .commitFail _ => inferInstanceAs (Decidable True)
  | ⟨_, _, _, .idle, _⟩, .rotate _ | ⟨_, _, _, .rotated _ _ _, _⟩, .rotate _
  | ⟨_, _, _, .committing _ _ _, _⟩, .rotate _ | ⟨_, _, _, .idle, _⟩, .putFail _ _
  | ⟨_, _, _, .swapped _ _, _⟩, .putFail _ _ | ⟨_, _, _, .committing _ _ _, _⟩, .putFail _ _
  | ⟨_, _, _, .idle, _⟩, .commitFail _ | ⟨_, _, _, .swapped _ _, _⟩, .commitFail _
  | ⟨_, _, _, .rotated _ _ _, _⟩, .commitFail _ | ⟨_, _, _, .committing _ [] _, _⟩, .commitFail _
  | _, .openLog _ _ | _, .append _ _ _ | _, .appendReplica _ _ _ | _, .addPending _ _ | _, .swap
  | _, .put _ | _, .commit | _, .trim | _, .enforceRetention _ _ _ _ _ | _, .restart =>
    inferInstanceAs (Decidable False)

/-- The batch that an action puts into the buffer, with the key of its partition. -/
def buffers (n : Node) (a : Action) : List (Bytes × Bytes) :=
  match a with
  | .addPending topic partition =>
    match n.up, n.appending.lookup (indexKey topic partition) with
    | true, some f => [(indexKey topic partition, f.record.batch)]
    | _, _ => []
  | _ => []

/-- The batches that a run puts into the buffer. -/
def buffered : Node → List Action → List (Bytes × Bytes)
  | _, [] => []
  | n, a :: as => n.buffers a ++ buffered (n.step a) as

theorem buffered_eq_nil {as : List Action} :
    ∀ {n : Node}, (∀ a ∈ as, ∀ topic partition, a ≠ .addPending topic partition) →
      n.buffered as = [] := by
  induction as with
  | nil => exact fun _ => rfl
  | cons a as ih =>
    intro n h
    rw [buffered, ih fun b hb => h b (List.mem_cons_of_mem _ hb), List.append_nil]
    cases a with
    | addPending topic partition => exact absurd rfl (h _ List.mem_cons_self topic partition)
    | _ => rfl

end Node

/-- Appends, and the steps of an upload up to its last commit. -/
def Action.During : Action → Prop
  | .openLog _ _ | .append _ _ _ | .appendReplica _ _ _ | .addPending _ _ => True
  | .rotate _ | .put _ | .commit => True
  | _ => False

instance : ∀ a : Action, Decidable a.During
  | .openLog _ _ | .append _ _ _ | .appendReplica _ _ _ | .addPending _ _ | .rotate _ | .put _
  | .commit => inferInstanceAs (Decidable True)
  | .swap | .putFail _ _ | .commitFail _ | .trim | .enforceRetention _ _ _ _ _ | .restart =>
    inferInstanceAs (Decidable False)

theorem Action.During.lossless {a : Action} (h : a.During) : a.Lossless := by
  cases a <;> trivial

theorem Action.Lossless.ne_restart {a : Action} (h : a.Lossless) : a ≠ .restart := by
  rintro rfl
  exact h

/-- An upload that takes the buffer of `n`, goes on through `mid` with any appends in
between, and fails at `last`. -/
structure FailedUpload (n : Node) (mid : List Action) (last : Action) : Prop where
  up : n.up = true
  idle : n.phase = .idle
  pending : n.storage.pending.entries ≠ []
  during : Along Node.step (fun n a => a.During ∧ n.Advances a ∧ ¬ n.Fails a) (n.step .swap) mid
  fails : (run Node.step (n.step .swap) mid).Fails last

/-- The failing step is no commit, or it is that of the last ref and the index store has
recorded it. -/
def LeavesNoPart (n : Node) (mid : List Action) (last : Action) : Prop :=
  ∀ stored, last = .commitFail stored →
    stored = true ∧ (run Node.step (n.step .swap) mid).phase.commits.length = 1

/-- The batch was pending before the upload, or appended during it. -/
def AtStake (n : Node) (mid : List Action) (k b : Bytes) : Prop :=
  InPart (n.storage.pending.lookup k) b ∨ (k, b) ∈ (n.step .swap).buffered mid

/-- What an upload of `n` that ended with an error in `n'` has to leave: every batch at
stake is pending or covered, the parts are in order with the right offsets, the byte
counter is right, and no later upload deletes the record of a batch at stake that is
in neither place.  Later failed commits and retention, which take batches away
themselves, are left out of what comes later. -/
structure NothingLost (n : Node) (mid : List Action) (n' : Node) : Prop where
  kept : ∀ k b, AtStake n mid k b → n'.Kept k b
  contiguous : ∀ k pp, n'.storage.pending.lookup k = some pp →
    Contiguous pp.baseOffset pp.batches pp.nextOffset
  bytes : n'.storage.pendingBytes
    = Table.total (fun pp => batchBytes pp.batches) n'.storage.pending
  trimmed : ∀ later, Along Node.step (fun n a => a.Lossless ∧ n.Advances a) n' later →
    Along Node.step (fun m a => ∀ s ∈ m.trimmed a, ∀ rec ∈ s.records,
      AtStake n mid rec.indexKey rec.batch → m.Kept rec.indexKey rec.batch) n' later

/-! ### Following the batches -/

namespace Node

variable {n : Node} {a : Action} {k b : Bytes}

/-- What an action buffers is then pending. -/
theorem tracked_of_mem_buffers (h : n.Inv) (hb : (k, b) ∈ n.buffers a) :
    (n.step a).Tracked k b := by
  cases a with
  | addPending topic partition =>
    unfold buffers at hb
    dsimp only at hb
    split at hb
    · next f hup hf =>
      cases List.mem_singleton.mp hb
      have hkey : f.record.indexKey = indexKey topic partition :=
        ((h.parts _).appending f hf).key
      right; left
      rw [step, if_pos hup, act, addPending, hf]
      exact ⟨_, lookup_appendPending_self n.storage hkey,
        List.mem_append_right _ (List.mem_singleton.mpr rfl)⟩
    · cases hb
  | openLog | append | appendReplica | swap | rotate | put | putFail | commit | commitFail | trim |
      enforceRetention | restart => cases hb

theorem Tracked.step (ht : n.Tracked k b) (h : n.Inv) (ha : a.Lossless) :
    (n.step a).Tracked k b :=
  (h.move ha k).tracked (h.parts k) ht

/-- A batch that is tracked at the start, or buffered on the way, is tracked at the
end. -/
theorem tracked_run {as : List Action} {n : Node} (h : n.Inv)
    (ha : Along Node.step (fun n a => a.Lossless ∧ n.Advances a) n as)
    (hb : n.Tracked k b ∨ (k, b) ∈ n.buffered as) :
    (run Node.step n as).Inv ∧ (run Node.step n as).Tracked k b := by
  induction as generalizing n with
  | nil =>
    rcases hb with hb | hb
    · exact ⟨h, hb⟩
    · cases hb
  | cons a as ih =>
    obtain ⟨⟨hless, hadv⟩, ha⟩ := ha
    refine ih (h.step hadv hless.ne_restart) ha ?_
    rcases hb with hb | hb
    · exact .inl (hb.step h hless)
    · rcases List.mem_append.mp hb with hb | hb
      · exact .inl (tracked_of_mem_buffers h hb)
      · exact .inr hb

/-- Outside an upload, what is tracked is kept. -/
theorem Tracked.kept (ht : n.Tracked k b) (hnone : n.phase.outstanding k = none) : n.Kept k b := by
  rcases ht with ht | ht
  · rw [hnone] at ht; exact absurd ht not_inPart_none
  · exact ht

/-- An upload that fails is over. -/
theorem Fails.phase_step (hf : n.Fails a) (hup : n.up = true) : (n.step a).phase = .idle := by
  rw [step, if_pos hup]
  unfold Fails at hf
  split at hf
  · next fault snap seq hp =>
    rw [act, rotate, hp]
    rcases hr : n.storage.wal.rotate fault with ⟨w, _ | q⟩
    · rfl
    · rw [hr] at hf; cases hf
  · next hp => rw [act, putFail, hp]
  · next stored _ _ _ _ hp => rw [act, commitFail, hp]
  · exact absurd hf id

/-- During an upload the process runs on, and the upload keeps what it took. -/
theorem during_step {t : Table Bytes PendingPart} (hd : a.During) (hf : ¬ n.Fails a)
    (hup : n.up = true) (hs : n.phase.snap = some t) :
    (n.step a).up = true ∧ (n.step a).phase.snap = some t := by
  rw [step, if_pos hup]
  have hsame : a.Local → SameObjects n (n.act a) := SameObjects.act n
  cases a with
  | openLog | append | appendReplica | addPending =>
    rw [(hsame trivial).up, (hsame trivial).phase]
    exact ⟨hup, hs⟩
  | rotate fault =>
    rw [act]
    rcases n.rotate_cases fault with hn | ⟨snap, seq, hp, ⟨w, hr, -⟩ | ⟨w, q, -, hn⟩⟩
    · rw [hn]; exact ⟨hup, hs⟩
    · exact absurd (by unfold Fails; rw [hp]; exact congrArg Prod.snd hr) hf
    · rw [hn]
      rw [hp] at hs
      exact ⟨hup, hs⟩
  | put nowMs =>
    rw [act]
    rcases n.put_cases nowMs with hn | ⟨snap, seq, q, hp, hn⟩ <;> rw [hn]
    · exact ⟨hup, hs⟩
    · rw [hp] at hs; exact ⟨hup, hs⟩
  | commit =>
    rw [act]
    rcases n.commit_cases with hn | ⟨snap, c, cs, q, hp, hn⟩ <;> rw [hn]
    · exact ⟨hup, hs⟩
    · rw [hp] at hs; exact ⟨hup, hs⟩
  | swap | putFail | commitFail | trim | enforceRetention | restart => exact absurd hd id

theorem during_run {t : Table Bytes PendingPart} {as : List Action} {n : Node}
    (h : Along Node.step (fun n a => a.During ∧ n.Advances a ∧ ¬ n.Fails a) n as)
    (hup : n.up = true) (hs : n.phase.snap = some t) :
    (run Node.step n as).up = true ∧ (run Node.step n as).phase.snap = some t := by
  induction as generalizing n with
  | nil => exact ⟨hup, hs⟩
  | cons a as ih =>
    obtain ⟨⟨hd, -, hf⟩, h⟩ := h
    obtain ⟨hup, hs⟩ := during_step hd hf hup hs
    exact ih h hup hs

end Node

/-! ### The upload as a whole -/

namespace FailedUpload

variable {n : Node} {mid : List Action} {last : Action} {k b : Bytes} (h : FailedUpload n mid last)
include h

theorem swap_eq :
    n.step .swap = { n with
      storage := { n.storage with
        pending := ∅, pendingBytes := 0, uploadSeq := n.storage.uploadSeq + 1 }
      phase := .swapped n.storage.pending (n.storage.uploadSeq + 1) } := by
  rw [Node.step, if_pos h.up, Node.act, Node.swap, h.idle]
  dsimp only
  rw [Storage.takePending, if_neg h.pending]

theorem lossless_during :
    Along Node.step (fun n a => a.Lossless ∧ n.Advances a) (n.step .swap) mid :=
  h.during.mono fun _ _ ha => ⟨ha.1.lossless, ha.2.1⟩

/-- Until it fails, the upload keeps what it took from the buffer. -/
theorem during_last :
    (run Node.step (n.step .swap) mid).up = true ∧
      (run Node.step (n.step .swap) mid).phase.snap = some n.storage.pending := by
  have hswap := h.swap_eq
  refine Node.during_run h.during ?_ ?_
  · rw [hswap]; exact h.up
  · rw [hswap]; rfl

/-- The actions that fail move nothing but the batches of the upload. -/
theorem advances_last : (run Node.step (n.step .swap) mid).Advances last ∧ last ≠ .restart := by
  have hf := h.fails
  unfold Node.Fails at hf
  split at hf
  · exact ⟨trivial, by simp⟩
  · exact ⟨trivial, by simp⟩
  · exact ⟨trivial, by simp⟩
  · exact absurd hf id

omit h in
theorem inv_swap (hn : n.Inv) : (n.step .swap).Inv := by
  apply hn.step
  · trivial
  · simp

theorem inv_last (hn : n.Inv) : (run Node.step (n.step .swap) mid).Inv :=
  (Node.inv_run (inv_swap hn)
    (h.lossless_during.mono fun _ _ ha => ⟨ha.2, ha.1.ne_restart⟩)).final

/-- A batch at stake is followed up to the failing step. -/
theorem tracked_last (hn : n.Inv) (hb : AtStake n mid k b) :
    (run Node.step (n.step .swap) mid).Tracked k b := by
  refine (Node.tracked_run (inv_swap hn) h.lossless_during ?_).2
  rcases hb with hb | hb
  · exact .inl (Node.Tracked.step (.inr (.inl hb)) hn trivial)
  · exact .inr hb

/-- The failing step leaves every batch in one of its places, unless it is a commit that
leaves a part without a ref. -/
theorem move_last (hn : n.Inv) (hlast : LeavesNoPart n mid last) (k : Bytes) :
    Move (run Node.step (n.step .swap) mid)
      ((run Node.step (n.step .swap) mid).step last) k := by
  have hinv := h.inv_last hn
  have hup := h.during_last.1
  have hf := h.fails
  unfold LeavesNoPart at hlast
  generalize run Node.step (n.step .swap) mid = m at hinv hup hf hlast ⊢
  unfold Node.Fails at hf
  split at hf
  · exact hinv.move (a := .rotate _) trivial k
  · exact hinv.move (a := .putFail _ _) trivial k
  · next stored _ _ _ _ _ =>
    obtain ⟨rfl, hone⟩ := hlast stored rfl
    rw [Node.step, if_pos hup]
    exact hinv.move_commitFail hone k
  · exact absurd hf id

omit h in
theorem run_eq (n : Node) (mid : List Action) (last : Action) :
    run Node.step n (.swap :: (mid ++ [last]))
      = (run Node.step (n.step .swap) mid).step last := by
  rw [run_cons, run_snoc]

theorem inv_run (hn : n.Inv) : (run Node.step n (.swap :: (mid ++ [last]))).Inv := by
  rw [run_eq]
  exact (h.inv_last hn).step h.advances_last.1 h.advances_last.2

/-- What was put back, or committed before, is kept. -/
theorem kept (hn : n.Inv) (hlast : LeavesNoPart n mid last) (hb : AtStake n mid k b) :
    (run Node.step n (.swap :: (mid ++ [last]))).Kept k b := by
  rw [run_eq]
  have ht := (h.move_last hn hlast k).tracked ((h.inv_last hn).parts k) (h.tracked_last hn hb)
  apply ht.kept
  rw [h.fails.phase_step h.during_last.1]
  rfl

/-- When a commit fails, the batches of a partition that has no ref then are in no place any
more. -/
theorem not_kept (hn : n.Inv) (hlast : ¬ LeavesNoPart n mid last) :
    ∃ k b, AtStake n mid k b ∧ ¬ (run Node.step n (.swap :: (mid ++ [last]))).Kept k b := by
  simp only [LeavesNoPart, not_forall] at hlast
  obtain ⟨stored, rfl, hlast⟩ := hlast
  have hinv := h.inv_last hn
  obtain ⟨hup, hsnap⟩ := h.during_last
  have hf := h.fails
  rw [run_eq]
  generalize run Node.step (n.step .swap) mid = m at hinv hup hsnap hf hlast
  -- the upload is committing, and took its parts from the buffer of `n`
  obtain ⟨snap, c, cs, q, hp⟩ : ∃ snap c cs q, m.phase = .committing snap (c :: cs) q := by
    unfold Node.Fails at hf
    split at hf
    · next heq _ => cases heq
    · next heq _ => cases heq
    · next hp => exact ⟨_, _, _, _, hp⟩
    · exact absurd hf id
  rw [hp] at hsnap
  cases hsnap
  have hok : CommitsOk n.storage.pending (c :: cs) := by have := hinv.phase; rwa [hp] at this
  have hstep : m.step (.commitFail stored) = { m with
      storage := if stored then m.storage.storeRef c else m.storage, phase := .idle } := by
    rw [Node.step, if_pos hup, Node.act, Node.commitFail, hp]
  -- the part of the ref itself, or of the next one if the ref is stored
  obtain ⟨d, hd, hrefs⟩ : ∃ d ∈ c :: cs,
      (m.step (.commitFail stored)).committed d.indexKey = m.committed d.indexKey := by
    rw [hstep]
    cases stored with
    | false => exact ⟨c, List.mem_cons_self, rfl⟩
    | true =>
      cases cs with
      | nil => exact absurd ⟨rfl, by rw [hp]; rfl⟩ hlast
      | cons d cs =>
        refine ⟨d, List.mem_cons_of_mem c List.mem_cons_self, ?_⟩
        refine (IndexStore.load_commit m.storage.index.store c.indexKey d.indexKey c.ref).trans
          (if_neg fun heq => ?_)
        exact (List.nodup_cons.mp hok.nodup).1 (heq ▸ List.mem_cons_self)
  obtain ⟨S, hS, -, -⟩ := hok.parts d hd
  have hout : m.phase.outstanding d.indexKey = some S := by
    rw [hp, Phase.outstanding, if_pos (List.mem_map_of_mem hd), hS]
  obtain ⟨b, hb⟩ := List.exists_mem_of_ne_nil _ ((hinv.parts d.indexKey).taken S hout).1.ne_nil
  refine ⟨d.indexKey, b, .inl ⟨S, hS, hb⟩, ?_⟩
  obtain ⟨hpend, hcov⟩ := (hinv.parts d.indexKey).not_kept ⟨S, hout, hb⟩
  rintro (hkept | hkept)
  · rw [hstep] at hkept
    cases stored <;> exact hpend hkept
  · rw [Node.Covered, hrefs] at hkept
    exact hcov hkept

end FailedUpload

/-- When segments are deleted, the upload has committed all its parts. -/
theorem outstanding_of_mem_trimmed {n : Node} {a : Action} {s : WalSegment}
    (hs : s ∈ n.trimmed a) (k : Bytes) : n.phase.outstanding k = none := by
  unfold Node.trimmed at hs
  split at hs
  · next hp => rw [hp]; rfl
  · cases hs

/-- **A failed upload loses nothing exactly when it leaves no part without a ref**, from
every state in which the invariant holds and whatever is appended meanwhile. -/
theorem failed_upload_loses_nothing_iff (n : Node) (hn : n.Inv) (mid : List Action) (last : Action)
    (h : FailedUpload n mid last) :
    NothingLost n mid (run Node.step n (.swap :: (mid ++ [last]))) ↔ LeavesNoPart n mid last := by
  constructor
  · intro hlost
    by_contra hlast
    obtain ⟨k, b, hb, hnot⟩ := h.not_kept hn hlast
    exact hnot (hlost.kept k b hb)
  · intro hlast
    have hinv := h.inv_run hn
    refine ⟨fun k b hb => h.kept hn hlast hb, ?_, ?_, ?_⟩
    · intro k pp hpp
      exact ((hinv.parts k).pending pp hpp).1.contiguous
    · rw [hinv.bytes]
      apply Table.total_congr
      intro k pp hpp
      exact ((hinv.parts k).pending pp hpp).1.bytes
    · intro later hlater
      -- the batches at stake are followed through the later actions
      have halways : Always Node.step
          (fun m => m.Inv ∧ ∀ k b, AtStake n mid k b → m.Tracked k b)
          (run Node.step n (.swap :: (mid ++ [last]))) later := by
        refine hlater.always ⟨hinv, fun k b hb => .inr (h.kept hn hlast hb)⟩ ?_
        rintro m a ⟨hm, ht⟩ ⟨hless, hadv⟩
        exact ⟨hm.step hadv hless.ne_restart, fun k b hb => (ht k b hb).step hm hless⟩
      refine halways.along.mono ?_
      rintro m a ⟨⟨-, ht⟩, -⟩ s hs rec - hb
      exact (ht _ _ hb).kept (outstanding_of_mem_trimmed hs _)

/-- Two partitions with a pending batch each. -/
def twoPending : Node :=
  run Node.step (Node.fresh [49])
    [.openLog [116] 0, .openLog [116] 1, .append [116] 0 (makeBatch 1 []), .addPending [116] 0,
      .append [116] 1 (makeBatch 1 []), .addPending [116] 1]

theorem inv_twoPending : twoPending.Inv :=
  (Node.inv_run (Node.inv_fresh [49]) (by decide +kernel)).final

theorem idle_twoPending : twoPending.phase = .idle := rfl

/-- A put that fails, with an append before it; and a commit of the last ref that fails after
the ref is stored. -/
theorem failed_upload_loses_nothing_put :
    NothingLost twoPending [.rotate none, .append [116] 0 (makeBatch 2 []), .addPending [116] 0]
        (run Node.step twoPending (.swap ::
          ([.rotate none, .append [116] 0 (makeBatch 2 []), .addPending [116] 0] ++
            [.putFail 5 true]))) ∧
      NothingLost twoPending [.rotate none, .put 5, .commit]
        (run Node.step twoPending (.swap ::
          ([.rotate none, .put 5, .commit] ++ [.commitFail true]))) := by
  constructor
  · refine (failed_upload_loses_nothing_iff twoPending inv_twoPending _ (.putFail 5 true) ?_).mpr
      (fun _ hlast => by cases hlast)
    exact ⟨by decide +kernel, idle_twoPending, by decide +kernel, by decide +kernel,
      by decide +kernel⟩
  · refine (failed_upload_loses_nothing_iff twoPending inv_twoPending _ (.commitFail true) ?_).mpr ?_
    · exact ⟨by decide +kernel, idle_twoPending, by decide +kernel, by decide +kernel,
        by decide +kernel⟩
    · rintro stored ⟨⟩
      exact ⟨rfl, by decide +kernel⟩

/-- The batch whose partition comes second in the upload. -/
def secondBatch : Bytes := stamp 0 (makeBatch 1 [])

/-- The second commit fails.  The batch is then neither pending nor covered, and the
next upload, which succeeds, deletes its record. -/
theorem failed_commit_loses_batch :
    FailedUpload twoPending [.rotate none, .put 5, .commit] (.commitFail false) ∧
      ¬ NothingLost twoPending [.rotate none, .put 5, .commit]
        (run Node.step twoPending
          (.swap :: ([.rotate none, .put 5, .commit] ++ [.commitFail false]))) ∧
      ¬ (run Node.step twoPending
        (.swap :: ([.rotate none, .put 5, .commit] ++ [.commitFail false]) ++
          [.append [116] 0 (makeBatch 1 []), .addPending [116] 0, .swap, .rotate none, .put 6,
            .commit, .trim])).Durable ⟨[116], 1, 0, secondBatch⟩ := by
  refine ⟨?_, ?_, by decide +kernel⟩
  · exact ⟨by decide +kernel, idle_twoPending, by decide +kernel, by decide +kernel,
      by decide +kernel⟩
  · intro h
    have hstake : InPart (twoPending.storage.pending.lookup (indexKey [116] 1)) secondBatch := by
      decide +kernel
    have hlost : ¬ (run Node.step twoPending
        (.swap :: ([.rotate none, .put 5, .commit] ++ [.commitFail false]))).Kept (indexKey [116] 1)
        secondBatch := by decide +kernel
    exact hlost (h.kept _ _ (.inl hstake))

end Object
end Mq
