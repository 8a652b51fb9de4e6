import Mq.Object.Journal

/-!
# Trimming the write-ahead log

An upload deletes the segments it sealed.  That is safe for the records whose
batches it took from the buffer.  But the buffer is taken before the log is sealed,
under another lock: a record that is written in between is in a sealed segment and
its batch is not in the object.

## Main definitions

* `Node.trimmed` — the segments that an action deletes.
* `Node.TrimSafe` — every record in them is covered by a committed ref.
* `Node.Accounted` — what an upload has taken it still holds, or a ref covers it.
* `Node.written` — the records that a run writes.

## Main results

* `trim_keeps_durable` — **no only copy is deleted**, in runs that seal the log only
  when nothing was appended since the buffer was taken.
* `trim_drops_record` — an append between the two steps loses its batch.
-/

namespace Mq
namespace Object

open Word Record Transition

/-! ### What is deleted and what is written -/

/-- Actions in which neither a store nor a file fails, and no ref is dropped. -/
def Action.FaultFree : Action → Prop
  | .rotate fault => fault = none
  | .putFail _ _ | .commitFail _ | .enforceRetention _ _ _ _ _ | .restart => False
  | _ => True

instance : ∀ a : Action, Decidable a.FaultFree
  | .rotate fault => inferInstanceAs (Decidable (fault = none))
  | .putFail _ _ | .commitFail _ | .enforceRetention _ _ _ _ _ | .restart =>
    inferInstanceAs (Decidable False)
  | .openLog _ _ | .append _ _ _ | .appendReplica _ _ _ | .addPending _ _ | .swap | .put _
  | .commit | .trim => inferInstanceAs (Decidable True)

theorem Action.FaultFree.lossless {a : Action} (h : a.FaultFree) : a.Lossless := by
  cases a <;> trivial

namespace Node

/-- The segments that an action deletes. -/
def trimmed (n : Node) (a : Action) : List WalSegment :=
  match a, n.phase with
  | .trim, .committing _ [] q =>
    if n.up then n.storage.wal.segments.filter fun s => s.seq ≤ q else []
  | _, _ => []

/-- Every record in a deleted segment is covered by a committed ref. -/
def TrimSafe (n : Node) (a : Action) : Prop :=
  ∀ s ∈ n.trimmed a, ∀ rec ∈ s.records, n.Covered rec.indexKey rec.batch

/-- The record that an action writes to the write-ahead log. -/
def wrote (n : Node) (a : Action) : List WalRecord :=
  match a with
  | .append topic partition _ | .appendReplica topic partition _ =>
    match n.appending.lookup (indexKey topic partition),
      (n.step a).appending.lookup (indexKey topic partition) with
    | none, some f => [f.record]
    | _, _ => []
  | _ => []

/-- The records that a run writes to the write-ahead log. -/
def written : Node → List Action → List WalRecord
  | _, [] => []
  | n, a :: as => n.wrote a ++ written (n.step a) as

/-! ### What an upload has taken -/

/-- What an upload has taken from the buffer is still to be committed, or covered by a ref. -/
def Accounted (n : Node) : Prop :=
  ∀ k b, InPart (n.phase.taken k) b → InPart (n.phase.outstanding k) b ∨ n.Covered k b

variable {n : Node} {a : Action}

theorem Accounted.of_taken (h : ∀ k, n.phase.taken k = n.phase.outstanding k) : n.Accounted :=
  fun k _ hb => .inl (h k ▸ hb)

/-- A ref is committed: it covers the part that is not outstanding any more. -/
theorem Accounted.commit (hacc : n.Accounted) (h : n.Inv) : n.commit.Accounted := by
  have hmove := h.move_commit
  rcases n.commit_cases with hn | ⟨snap, c, cs, q, hp, hn⟩ <;> rw [hn] at hmove ⊢
  · exact hacc
  · obtain ⟨S, hS, hbase, hnext, hout⟩ := h.next_commit hp
    intro k b hb
    have hb : InPart (n.phase.taken k) b := by rw [hp]; exact hb
    rcases hacc k b hb with hb | hcov
    · by_cases hk : k = c.indexKey
      · subst hk
        rw [hS] at hb
        obtain ⟨T, hT, hb⟩ := hb
        cases hT
        right
        show Covers ((n.storage.index.store.commit c.indexKey c.ref).load c.indexKey) b
        rw [IndexStore.load_commit, if_pos rfl]
        exact (h.parts c.indexKey).covers_of_inPart hS hbase hnext hb
      · left
        dsimp only
        rwa [hout, if_neg hk]
    · exact .inr ((hmove k).covered hcov)

theorem Accounted.step (hacc : n.Accounted) (h : n.Inv) (ha : a.Lossless) :
    (n.step a).Accounted := by
  have hmove := h.move ha
  rw [Node.step] at hmove ⊢
  split
  · next hup =>
    rw [if_pos hup] at hmove
    have hsame : (n.act a).phase = n.phase → (n.act a).Accounted := by
      intro hp k b hb
      rw [hp] at hb ⊢
      exact (hacc k b hb).imp id (hmove k).covered
    cases a with
    | openLog | append | appendReplica | addPending =>
      exact hsame (SameObjects.phase (.act n trivial))
    | swap =>
      rw [Node.act]
      rcases n.swap_cases with hn | ⟨-, -, hn⟩ <;> rw [hn]
      · exact hacc
      · exact .of_taken fun _ => rfl
    | rotate fault =>
      rw [Node.act]
      rcases n.rotate_cases fault with hn | ⟨snap, seq, -, ⟨w, -, hn⟩ | ⟨w, q, -, hn⟩⟩ <;> rw [hn]
      · exact hacc
      · exact .of_taken fun _ => rfl
      · exact .of_taken fun _ => rfl
    | put nowMs =>
      rw [Node.act]
      rcases n.put_cases nowMs with hn | ⟨snap, seq, q, hp, hn⟩ <;> rw [hn]
      · exact hacc
      · have hsnap : ∀ k, n.phase.outstanding k = snap.lookup k := fun k => by rw [hp]; rfl
        have hkeys := h.keys_of_outstanding hsnap
        exact .of_taken fun k => (outstanding_assemble hkeys _ _ _ k).symm
    | putFail nowMs stored =>
      rw [Node.act]
      rcases n.putFail_cases nowMs stored with hn | ⟨snap, seq, q, -, s, -, hn⟩ <;> rw [hn]
      · exact hacc
      · exact .of_taken fun _ => rfl
    | commit => exact hacc.commit h
    | trim =>
      rw [Node.act]
      rcases n.trim_cases with hn | ⟨snap, q, -, hn⟩ <;> rw [hn]
      · exact hacc
      · exact .of_taken fun _ => rfl
    | commitFail | enforceRetention | restart => exact absurd ha id
  · split
    · next hr => subst hr; exact absurd ha id
    · exact hacc

/-- **What an upload deletes is covered.** -/
theorem Accounted.trimSafe (hacc : n.Accounted) (hj : Journal n) (a : Action) : n.TrimSafe a := by
  intro s hs rec hrec
  unfold trimmed at hs
  split at hs
  · next snap q hp =>
    split at hs
    · obtain ⟨hs, hle⟩ := List.mem_filter.mp hs
      obtain ⟨recs, hrecs, htaken⟩ := hj.sealed q (by rw [hp]; rfl)
      -- the record is one of those that are sealed, so its batch was taken
      have hmem := hrecs.mem hs (of_decide_eq_true hle) hrec
      have hb : rec.batch ∈ batchesOf recs rec.indexKey := by
        rw [batchesOf_eq]
        exact List.mem_map_of_mem (List.mem_filter.mpr ⟨hmem, decide_eq_true rfl⟩)
      rw [htaken, mem_partBatches] at hb
      rcases hacc _ _ hb with hout | hcov
      · rw [hp] at hout; exact absurd hout not_inPart_none
      · exact hcov
    · cases hs
  · cases hs

/-! ### Durability -/

/-- A record that a crash does not lose: it is replayed, or a ref covers its batch. -/
def Durable (n : Node) (rec : WalRecord) : Prop :=
  rec ∈ n.storage.wal.replay ∨ n.Covered rec.indexKey rec.batch

instance (n : Node) (rec : WalRecord) : Decidable (n.Durable rec) :=
  inferInstanceAs (Decidable (rec ∈ n.storage.wal.replay ∨ n.Covered rec.indexKey rec.batch))

theorem wrote_of_step_eq (h : n.step a = n) : n.wrote a = [] := by
  unfold wrote
  rw [h]
  split
  all_goals first
    | rfl
    | split
      · next hnone hsome => rw [hnone] at hsome; cases hsome
      · rfl

variable {rec : WalRecord}

/-- A write puts its record at the end of the log. -/
theorem replay_write (hw : n.storage.wal.Tidy) {k : Bytes} {l : ObjectLog}
    {next : ℤ} {replica : Bool} (hfree : n.free k = some l) (hk : rec.indexKey = k)
    (hstep : n.step a = n.write rec next replica)
    (hwrote : n.wrote a = match n.appending.lookup k, (n.step a).appending.lookup k with
      | none, some f => [f.record]
      | _, _ => []) :
    (n.step a).storage.wal.replay = n.storage.wal.replay ++ n.wrote a := by
  subst hk
  rcases n.write_cases rec next replica with hn | ⟨w, happend, hn⟩ <;> rw [hn] at hstep
  · rw [wrote_of_step_eq hstep, hstep, List.append_nil]
  · rw [hwrote, hstep, (free_eq_some hfree).1, AList.lookup_insert]
    exact (hw.append happend).2

/-- But for trimming the log grows by what an action writes. -/
theorem replay_step (hw : n.storage.wal.Tidy) (ha : a.FaultFree) (htrim : a ≠ .trim) :
    (n.step a).storage.wal.replay = n.storage.wal.replay ++ n.wrote a := by
  have hsame : n.step a = n →
      (n.step a).storage.wal.replay = n.storage.wal.replay ++ n.wrote a := by
    intro h
    rw [wrote_of_step_eq h, h, List.append_nil]
  by_cases hup : n.up = true
  · have hstep : n.step a = n.act a := if_pos hup
    cases a with
    | append topic partition batch =>
      rcases n.append_cases topic partition batch with hn | ⟨l, hfree, -, -, hn⟩
      · exact hsame (hstep.trans hn)
      · exact replay_write hw hfree rfl (hstep.trans hn) rfl
    | appendReplica topic partition batch =>
      rcases n.appendReplica_cases topic partition batch with hn | ⟨l, hfree, -, -, hn⟩
      · exact hsame (hstep.trans hn)
      · exact replay_write hw hfree rfl (hstep.trans hn) rfl
    | openLog topic partition =>
      rw [hstep, act, openLog]
      split <;> exact (List.append_nil _).symm
    | addPending topic partition =>
      rw [hstep, act, addPending]
      split <;> exact (List.append_nil _).symm
    | swap =>
      rw [hstep, act]
      rcases n.swap_cases with hn | ⟨-, -, hn⟩ <;> rw [hn] <;> exact (List.append_nil _).symm
    | rotate fault =>
      rw [hstep, act]
      rcases n.rotate_cases fault with hn | ⟨snap, seq, -, ⟨w, hr, hn⟩ | ⟨w, q, hr, hn⟩⟩ <;> rw [hn]
      · exact (List.append_nil _).symm
      · show w.replay = _
        rw [Wal.replay, (Wal.rotate_eq_none hr).1]
        exact (List.append_nil _).symm
      · exact (hw.rotate hr).2.1.trans (List.append_nil _).symm
    | put nowMs =>
      rw [hstep, act]
      rcases n.put_cases nowMs with hn | ⟨snap, seq, q, -, hn⟩ <;> rw [hn] <;>
        exact (List.append_nil _).symm
    | commit =>
      rw [hstep, act]
      rcases n.commit_cases with hn | ⟨snap, c, cs, q, -, hn⟩ <;> rw [hn] <;>
        exact (List.append_nil _).symm
    | trim => exact absurd rfl htrim
    | putFail | commitFail | enforceRetention | restart => exact absurd ha id
  · refine hsame ((if_neg hup).trans (if_neg ?_))
    rintro rfl
    exact ha

/-- Trimming takes a record away only with its segment. -/
theorem mem_replay_trim (hrec : rec ∈ n.storage.wal.replay) :
    rec ∈ (n.step .trim).storage.wal.replay ∨ ∃ s ∈ n.trimmed .trim, rec ∈ s.records := by
  rw [step]
  split
  · next hup =>
    rw [act]
    rcases n.trim_cases with hn | ⟨snap, q, hp, hn⟩ <;> rw [hn]
    · exact .inl hrec
    · obtain ⟨s, hs, hrec⟩ := Wal.mem_replay.mp hrec
      by_cases hle : s.seq ≤ q
      · refine .inr ⟨s, ?_, hrec⟩
        simp only [trimmed, hp, hup, if_true]
        exact List.mem_filter.mpr ⟨hs, decide_eq_true hle⟩
      · refine .inl (Wal.mem_replay.mpr ⟨s, ?_, hrec⟩)
        exact Wal.mem_segments_deleteThrough.mpr ⟨hs, Nat.lt_of_not_le hle⟩
  · exact .inl hrec

/-- What the steps keep: the invariant, the journal, and where the parts of the upload are. -/
structure WalInv (n : Node) : Prop where
  inv : n.Inv
  journal : Journal n
  accounted : n.Accounted

theorem walInv_fresh (nodeID : Bytes) : (fresh nodeID).WalInv :=
  ⟨inv_fresh nodeID, journal_fresh nodeID, .of_taken fun _ => rfl⟩

theorem WalInv.step (h : n.WalInv) (ha : a.FaultFree) (hadv : n.Advances a)
    (hclean : n.RotatesClean a) : (n.step a).WalInv := by
  refine ⟨h.inv.step hadv ?_, h.journal.step h.inv ha.lossless hclean,
    h.accounted.step h.inv ha.lossless⟩
  rintro rfl
  exact ha

/-- A record that is durable stays so, and one that is written is durable. -/
theorem WalInv.durable_step (h : n.WalInv) (ha : a.FaultFree)
    (hrec : n.Durable rec ∨ rec ∈ n.wrote a) : (n.step a).Durable rec := by
  have hcovered := fun hcov => Move.covered (b := rec.batch) (h.inv.move ha.lossless rec.indexKey) hcov
  by_cases htrim : a = .trim
  · subst htrim
    rcases hrec with (hrec | hcov) | hrec
    · rcases mem_replay_trim hrec with hrec | ⟨s, hs, hrec⟩
      · exact .inl hrec
      · -- a record that is deleted was covered before
        exact .inr (hcovered (h.accounted.trimSafe h.journal .trim s hs rec hrec))
    · exact .inr (hcovered hcov)
    · cases hrec
  · unfold Durable
    rw [replay_step h.journal.tidy ha htrim]
    rcases hrec with (hrec | hcov) | hrec
    · exact .inl (List.mem_append_left _ hrec)
    · exact .inr (hcovered hcov)
    · exact .inl (List.mem_append_right _ hrec)

/-- What is durable at the start, and what the run writes, is durable at the end. -/
theorem durable_run {as : List Action} {n : Node} (hinv : Always Node.step WalInv n as)
    (ha : ∀ a ∈ as, a.FaultFree) (hrec : n.Durable rec ∨ rec ∈ n.written as) :
    (run Node.step n as).Durable rec := by
  induction as generalizing n with
  | nil => exact hrec.resolve_right List.not_mem_nil
  | cons a as ih =>
    have hstep : n.Durable rec ∨ rec ∈ n.wrote a → (n.step a).Durable rec :=
      hinv.1.durable_step (ha a List.mem_cons_self)
    refine ih hinv.2 (fun b hb => ha b (List.mem_cons_of_mem a hb)) ?_
    rcases hrec with hrec | hrec
    · exact .inl (hstep (.inl hrec))
    · exact (List.mem_append.mp hrec).imp (fun hrec => hstep (.inr hrec)) id

end Node

/-! ### Runs -/

/-- **Trimming never deletes the only durable copy** in a run in which nothing fails
and every upload seals the log before anything more is appended: the records of a
deleted segment are covered by committed refs, and at the end every record written is
covered or still in the log. -/
theorem trim_keeps_durable (nodeID : Bytes) (as : List Action)
    (h : Along Node.step (fun n a => a.FaultFree ∧ n.Advances a ∧ n.RotatesClean a)
      (Node.fresh nodeID) as) :
    Along Node.step Node.TrimSafe (Node.fresh nodeID) as ∧
      ∀ rec ∈ (Node.fresh nodeID).written as, (run Node.step (Node.fresh nodeID) as).Durable rec := by
  have hinv : Always Node.step Node.WalInv (Node.fresh nodeID) as :=
    h.always (Node.walInv_fresh nodeID) fun n a hn ha => hn.step ha.1 ha.2.1 ha.2.2
  refine ⟨hinv.along.mono fun n a hn => hn.1.accounted.trimSafe hn.1.journal a, ?_⟩
  intro rec hrec
  exact Node.durable_run hinv (h.forall_of_action fun _ _ ha => ha.1) (.inr hrec)

/-- Two uploads, and an append that begins before the first upload ends. -/
def cleanRun : List Action :=
  [.openLog [116] 0, .openLog [116] 1, .append [116] 0 (makeBatch 1 []), .addPending [116] 0,
    .swap, .rotate none, .append [116] 1 (makeBatch 2 []), .put 5, .addPending [116] 1, .commit,
    .trim, .swap, .rotate none, .put 6, .commit, .trim]

theorem trim_keeps_durable_clean :
    Along Node.step Node.TrimSafe (Node.fresh [49]) cleanRun ∧
      ∀ rec ∈ (Node.fresh [49]).written cleanRun,
        (run Node.step (Node.fresh [49]) cleanRun).Durable rec :=
  trim_keeps_durable [49] cleanRun (by decide +kernel)

/-- An append whose two steps come between the upload's first two. -/
def lateRun : List Action :=
  [.openLog [116] 0, .openLog [116] 1, .append [116] 0 (makeBatch 1 []), .addPending [116] 0,
    .swap, .append [116] 1 (makeBatch 1 []), .addPending [116] 1, .rotate none, .put 5, .commit]

/-- The record of the late append. -/
def lateRecord : WalRecord := ⟨[116], 1, 0, stamp 0 (makeBatch 1 [])⟩

/-- The late append has returned and its batch is in no object, but its segment is
deleted: nothing is left of it on disk. -/
theorem trim_drops_record :
    Along Node.step (fun n a => a.FaultFree ∧ n.Advances a) (Node.fresh [49]) (lateRun ++ [.trim]) ∧
      ¬ (run Node.step (Node.fresh [49]) lateRun).TrimSafe .trim ∧
      lateRecord ∈ (Node.fresh [49]).written lateRun ∧
      ¬ (run Node.step (Node.fresh [49]) (lateRun ++ [.trim])).Durable lateRecord := by
  refine ⟨by decide +kernel, ?_, by decide +kernel, by decide +kernel⟩
  intro hsafe
  have hdeleted : ∃ s ∈ (run Node.step (Node.fresh [49]) lateRun).trimmed .trim,
      lateRecord ∈ s.records := by decide +kernel
  have hlost : ¬ (run Node.step (Node.fresh [49]) lateRun).Covered lateRecord.indexKey
      lateRecord.batch := by decide +kernel
  obtain ⟨s, hs, hrec⟩ := hdeleted
  exact hlost (hsafe s hs lateRecord hrec)

end Object
end Mq
