import Mq.Object.Moves

/-!
# The write-ahead log, record by record

The records of a partition are, in this order, those of the part an upload has taken, of the
pending part, and of the append under way.  Once the log is sealed, the sealed ones are those
of the part that is taken, if nothing was appended between the two steps.

## Main definitions

* `Phase.taken` — the part of a partition that an upload holds, committed or not.
* `Node.RotatesClean` — nothing was appended since the upload took the buffer.
* `Journal` — the records are those of the batches on their way.

## Main results

* `Journal.step` — **the actions of a process keep the journal**.
-/

namespace Mq
namespace Object

open Word Record Transition

/-- The number up to which the upload under way is going to delete segments. -/
def Phase.sealedThrough : Phase → Option ℕ
  | .rotated _ _ q => some q
  | .committing _ _ q => some q
  | _ => none

namespace Node

/-- The log is sealed when no batch was buffered, and no append has begun, since the
upload took the buffer. -/
def RotatesClean (n : Node) (a : Action) : Prop :=
  match a, n.phase with
  | .rotate _, .swapped _ _ => n.storage.pending.entries = [] ∧ n.appending.entries = []
  | _, _ => True

instance : ∀ (n : Node) (a : Action), Decidable (n.RotatesClean a)
  | ⟨_, _, _, .swapped _ _, _⟩, .rotate _ => inferInstanceAs (Decidable (_ ∧ _))
  | ⟨_, _, _, .idle, _⟩, .rotate _ | ⟨_, _, _, .rotated _ _ _, _⟩, .rotate _
  | ⟨_, _, _, .committing _ _ _, _⟩, .rotate _ | _, .openLog _ _ | _, .append _ _ _
  | _, .appendReplica _ _ _ | _, .addPending _ _ | _, .swap | _, .put _ | _, .putFail _ _
  | _, .commit | _, .commitFail _ | _, .trim | _, .enforceRetention _ _ _ _ _ | _, .restart =>
    inferInstanceAs (Decidable True)

end Node

/-! ### The records of a partition -/

/-- The batches of a partition among some records. -/
def batchesOf (recs : List WalRecord) (k : Bytes) : List Bytes :=
  inPartition k (recs.map fun rec => (rec.indexKey, rec.batch))

theorem batchesOf_append (recs recs' : List WalRecord) (k : Bytes) :
    batchesOf (recs ++ recs') k = batchesOf recs k ++ batchesOf recs' k := by
  rw [batchesOf, List.map_append, inPartition_append]
  rfl

theorem batchesOf_eq (recs : List WalRecord) (k : Bytes) :
    batchesOf recs k = (recs.filter (·.indexKey = k)).map (·.batch) := by
  simp [batchesOf, inPartition, List.filter_map, Function.comp_def]

/-- The batch of an append under way. -/
def flyingBatch (f : Option InFlight) : List Bytes := (f.map (·.record.batch)).toList

/-- The part of a partition that an upload holds, whether its ref is committed or not. -/
def Phase.taken : Phase → Bytes → Option PendingPart
  | .idle, _ => none
  | .swapped snap _, k => snap.lookup k
  | .rotated snap _ _, k => snap.lookup k
  | .committing snap _ _, k => snap.lookup k

/-- The records in the log are those of the batches on their way, in their order. -/
structure Journal (n : Node) : Prop where
  tidy : n.storage.wal.Tidy
  content : ∀ k, batchesOf n.storage.wal.replay k = partBatches (n.phase.taken k) ++
    partBatches (n.storage.pending.lookup k) ++ flyingBatch (n.appending.lookup k)
  sealed : ∀ q, n.phase.sealedThrough = some q → ∃ recs, n.storage.wal.SealedAt q recs ∧
    ∀ k, batchesOf recs k = partBatches (n.phase.taken k)
  sound : ∀ rec ∈ n.storage.wal.replay, parseHeader rec.batch = .ok (header rec.batch) ∧
    rec.baseOffset = (header rec.batch).baseOffset

theorem journal_fresh (nodeID : Bytes) : Journal (Node.fresh nodeID) where
  tidy := ⟨[], [], rfl, by simp⟩
  content := fun _ => rfl
  sealed := by intro q hq; cases hq
  sound := by intro rec hrec; cases hrec

namespace Journal

variable {n n' : Node}

/-- A step that leaves the log, the buffer and the appends alone. -/
theorem of_same (h : Journal n) (hwal : n'.storage.wal = n.storage.wal)
    (hpend : n'.storage.pending = n.storage.pending) (happ : n'.appending = n.appending)
    (htaken : ∀ k, n'.phase.taken k = n.phase.taken k)
    (hseal : ∀ q, n'.phase.sealedThrough = some q → n.phase.sealedThrough = some q) :
    Journal n' := by
  refine ⟨hwal ▸ h.tidy, ?_, ?_, hwal ▸ h.sound⟩
  · intro k
    rw [hwal, hpend, happ, htaken k]
    exact h.content k
  · intro q hq
    obtain ⟨recs, hrecs, hk⟩ := h.sealed q (hseal q hq)
    refine ⟨recs, hwal ▸ hrecs, ?_⟩
    intro k
    rw [htaken k]
    exact hk k

theorem write (h : Journal n) (rec : WalRecord) (next : ℤ) (replica : Bool) {l : ObjectLog}
    (hfree : n.free rec.indexKey = some l)
    (hparse : parseHeader rec.batch = .ok (header rec.batch))
    (hbase : rec.baseOffset = (header rec.batch).baseOffset) :
    Journal (n.write rec next replica) := by
  obtain ⟨hnone, -⟩ := Node.free_eq_some hfree
  rcases n.write_cases rec next replica with hn | ⟨w, happend, hn⟩ <;> rw [hn]
  · exact h
  · obtain ⟨htidy, hreplay⟩ := h.tidy.append happend
    refine ⟨htidy, ?_, ?_, ?_⟩
    · intro k
      dsimp only
      rw [hreplay, batchesOf_append, h.content k, Table.lookup_insert_ite,
        show batchesOf [rec] k = _ from inPartition_singleton rec.indexKey rec.batch k]
      by_cases hk : k = rec.indexKey
      · subst hk
        rw [if_pos rfl, if_pos rfl, hnone, flyingBatch, Option.map_none, Option.toList_none,
          List.append_nil]
        rfl
      · rw [if_neg hk, if_neg (Ne.symm hk), List.append_nil]
    · intro q hq
      obtain ⟨recs, hrecs, hk⟩ := h.sealed q hq
      exact ⟨recs, hrecs.append h.tidy happend, hk⟩
    · intro r hr
      dsimp only at hr
      rw [hreplay] at hr
      rcases List.mem_append.mp hr with hr | hr
      · exact h.sound r hr
      · rw [List.mem_singleton.mp hr]
        exact ⟨hparse, hbase⟩

/-- The batch of the append moves from the append to the buffer. -/
theorem addPending (h : Journal n) (hinv : n.Inv) (k : Bytes) : Journal (n.addPending k) := by
  rw [Node.addPending]
  cases hf : n.appending.lookup k with
  | none => exact h
  | some f =>
    have hkey : f.record.indexKey = k := ((hinv.parts k).appending f hf).key
    refine ⟨h.tidy, ?_, h.sealed, h.sound⟩
    intro j
    show batchesOf n.storage.wal.replay j = partBatches (n.phase.taken j)
      ++ partBatches ((n.storage.appendPending f.record f.next).pending.lookup j)
      ++ flyingBatch ((n.appending.erase k).lookup j)
    rw [h.content j, lookup_appendPending n.storage hkey, Table.lookup_erase_ite]
    by_cases hj : j = k
    · subst hj
      rw [if_pos rfl, if_pos rfl, hf, partBatches_addTo]
      simp [flyingBatch]
    · rw [if_neg hj, if_neg hj]

/-- The upload takes the buffer. -/
theorem swap (h : Journal n) : Journal n.swap := by
  rcases n.swap_cases with hn | ⟨hidle, -, hn⟩ <;> rw [hn]
  · exact h
  · refine ⟨h.tidy, ?_, ?_, h.sound⟩
    · intro k
      have hk := h.content k
      rw [hidle] at hk
      show batchesOf n.storage.wal.replay k = partBatches (n.storage.pending.lookup k)
        ++ partBatches none ++ _
      rw [hk]
      simp [Phase.taken, partBatches]
    · intro q hq; cases hq

/-- A failed upload puts its parts back in front of the buffer, and the records stay. -/
theorem restore (h : Journal n) {snap : Table Bytes PendingPart}
    (hsnap : ∀ k, n.phase.taken k = snap.lookup k) {s : Storage}
    (hsegs : s.wal.segments = n.storage.wal.segments)
    (hseq : s.wal.activeSeq = n.storage.wal.activeSeq) (hpend : s.pending = n.storage.pending) :
    Journal { n with storage := s.restore snap, phase := .idle } := by
  have hreplay : s.wal.replay = n.storage.wal.replay := by rw [Wal.replay, hsegs, Wal.replay]
  refine ⟨?_, ?_, ?_, ?_⟩
  · exact h.tidy.congr hsegs hseq
  · intro k
    show batchesOf s.wal.replay k
      = partBatches none ++ partBatches ((s.restore snap).pending.lookup k) ++ _
    rw [hreplay, h.content k, hsnap k, Storage.restore, Table.lookup_overlay, hpend,
      partBatches_merge]
    rfl
  · intro q hq; cases hq
  · intro rec hrec
    apply h.sound rec
    rw [← hreplay]
    exact hrec

/-- **The sealed records are those of the parts that are taken**, if nothing was appended
since. -/
theorem rotate (h : Journal n) {fault : Option RotateFault}
    (hclean : n.RotatesClean (.rotate fault)) : Journal (n.rotate fault) := by
  rcases n.rotate_cases fault with hn | ⟨snap, seq, hp, ⟨w, hr, hn⟩ | ⟨w, q, hr, hn⟩⟩ <;> rw [hn]
  · exact h
  · obtain ⟨hsegs, hseq⟩ := Wal.rotate_eq_none hr
    exact h.restore (fun k => by rw [hp]; rfl) hsegs hseq rfl
  · obtain ⟨htidy, hreplay, hsealed⟩ := h.tidy.rotate hr
    unfold Node.RotatesClean at hclean
    rw [hp] at hclean
    have hcontent : ∀ k, batchesOf n.storage.wal.replay k = partBatches (snap.lookup k) := by
      intro k
      have hk := h.content k
      rw [hp, Table.lookup_of_entries_nil hclean.1, Table.lookup_of_entries_nil hclean.2] at hk
      simpa [partBatches, flyingBatch, Phase.taken] using hk
    refine ⟨htidy, ?_, ?_, ?_⟩
    · intro k
      show batchesOf w.replay k = _
      rw [hreplay, h.content k, hp]
      rfl
    · intro q' hq'
      cases hq'
      exact ⟨_, hsealed, hcontent⟩
    · intro rec hrec
      apply h.sound rec
      rw [← hreplay]
      exact hrec

/-- The upload ends, and the records of what it took are deleted. -/
theorem trim (h : Journal n) : Journal n.trim := by
  rcases n.trim_cases with hn | ⟨snap, q, hp, hn⟩ <;> rw [hn]
  · exact h
  · obtain ⟨recs, hrecs, htaken⟩ := h.sealed q (by rw [hp]; rfl)
    obtain ⟨htidy, hreplay⟩ := hrecs.deleteThrough h.tidy
    refine ⟨htidy, ?_, ?_, ?_⟩
    · intro k
      have hk := h.content k
      rw [hreplay, batchesOf_append, htaken k, List.append_assoc] at hk
      exact List.append_cancel_left hk
    · intro q hq; cases hq
    · intro rec hrec
      apply h.sound rec
      rw [hreplay]
      exact List.mem_append_right _ hrec

/-- **The actions of a process keep the journal.** -/
theorem step (h : Journal n) (hinv : n.Inv) {a : Action} (ha : a.Lossless)
    (hclean : n.RotatesClean a) : Journal (n.step a) := by
  rw [Node.step]
  split
  · cases a with
    | openLog topic partition =>
      show Journal (n.openLog topic partition)
      apply h.of_same <;> rw [Node.openLog] <;> split
      all_goals first | rfl | exact fun _ => rfl | exact fun _ => id
    | append topic partition batch =>
      show Journal (n.append topic partition batch)
      rcases n.append_cases topic partition batch with hn | ⟨l, hfree, hparse, hlen, hn⟩ <;> rw [hn]
      · exact h
      · refine h.write _ _ _ hfree hparse ?_
        have hrange : wrap64 l.nextOffset = l.nextOffset :=
          Node.logEnd_of_lookup (Node.free_eq_some hfree).2 ▸
            (hinv.parts (indexKey topic partition)).range
        dsimp only
        rw [header_stamp hlen, hrange]
    | appendReplica topic partition batch =>
      show Journal (n.appendReplica topic partition batch)
      rcases n.appendReplica_cases topic partition batch with hn | ⟨l, hfree, hparse, hbase, hn⟩ <;>
        rw [hn]
      · exact h
      · exact h.write _ _ _ hfree hparse rfl
    | addPending topic partition => exact h.addPending hinv _
    | swap => exact h.swap
    | rotate fault => exact h.rotate hclean
    | put nowMs =>
      show Journal (n.put nowMs)
      rcases n.put_cases nowMs with hn | ⟨snap, seq, q, hp, hn⟩ <;> rw [hn]
      · exact h
      · exact h.of_same rfl rfl rfl (by rw [hp]; exact fun _ => rfl) (by rw [hp]; exact fun _ => id)
    | commit =>
      show Journal n.commit
      rcases n.commit_cases with hn | ⟨snap, c, cs, q, hp, hn⟩ <;> rw [hn]
      · exact h
      · exact h.of_same rfl rfl rfl (by rw [hp]; exact fun _ => rfl) (by rw [hp]; exact fun _ => id)
    | putFail nowMs stored =>
      show Journal (n.putFail nowMs stored)
      rcases n.putFail_cases nowMs stored with hn | ⟨snap, seq, q, hp, s, rfl | rfl, hn⟩ <;> rw [hn]
      · exact h
      · exact h.restore (fun k => by rw [hp]; rfl) rfl rfl rfl
      · exact h.restore (fun k => by rw [hp]; rfl) rfl rfl rfl
    | trim => exact h.trim
    | commitFail | enforceRetention | restart => exact absurd ha id
  · split
    · next hr => subst hr; exact absurd ha id
    · exact h

end Journal

end Object
end Mq
