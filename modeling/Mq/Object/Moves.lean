import Mq.Object.Uploader

/-!
# How a batch moves

Every action that neither drops refs nor gives up an upload moves the batches of a
partition in one of three ways.  So a batch that is taken, pending or covered by a
committed ref stays in one of these places.

Most actions touch neither the handles nor the refs.  They only regroup what has no ref yet,
between the buffer and the upload, which is said once.

## Main definitions

* `Node.Covered`, `Node.Kept`, `Node.Tracked` — the places that a batch can be in.
* `Regroup` — how the batches without a ref are regrouped.
* `Frame` — an action that leaves handles and refs.
* `Move` — what an action can do to the places of one partition.

## Main results

* `Frame.act` — what the steps of an append and of an upload leave.
* `Node.Inv.move` — **the actions make no other moves**.
* `Move.tracked` — a batch stays in one of its places.
-/

namespace Mq
namespace Object

open Word Record Transition

namespace Node

/-- A committed ref covers the offsets of the batch. -/
def Covered (n : Node) (k b : Bytes) : Prop := Covers (n.committed k) b

instance (n : Node) (k b : Bytes) : Decidable (n.Covered k b) :=
  inferInstanceAs (Decidable (Covers (n.committed k) b))

/-- The batch is pending, or covered by a committed ref. -/
def Kept (n : Node) (k b : Bytes) : Prop :=
  InPart (n.storage.pending.lookup k) b ∨ n.Covered k b

instance (n : Node) (k b : Bytes) : Decidable (n.Kept k b) :=
  inferInstanceAs (Decidable (InPart (n.storage.pending.lookup k) b ∨ n.Covered k b))

/-- The batch is kept, or the upload under way has taken it. -/
def Tracked (n : Node) (k b : Bytes) : Prop :=
  InPart (n.phase.outstanding k) b ∨ n.Kept k b

/-- The batches of a partition that are in the buffer. -/
def pendingBatches (n : Node) (k : Bytes) : List Bytes := partBatches (n.storage.pending.lookup k)

/-- What an upload has taken from the buffer and not yet committed. -/
def takenBatches (n : Node) (k : Bytes) : List Bytes := partBatches (n.phase.outstanding k)

/-- Where the batches without a ref begin. -/
def refEnd (n : Node) (k : Bytes) (logEnd : ℤ) : ℤ :=
  baseOr (n.phase.outstanding k) (baseOr (n.storage.pending.lookup k) logEnd)

theorem tracked_iff {n : Node} {k b : Bytes} :
    n.Tracked k b ↔ b ∈ n.takenBatches k ++ n.pendingBatches k ∨ n.Covered k b := by
  rw [Tracked, Kept, ← or_assoc, List.mem_append, takenBatches, pendingBatches, mem_partBatches,
    mem_partBatches]

end Node

/-- Actions other than a retention pass, a commit that fails and a restart. -/
def Action.Lossless : Action → Prop
  | .enforceRetention _ _ _ _ _ | .commitFail _ | .restart => False
  | _ => True

instance : ∀ a : Action, Decidable a.Lossless
  | .enforceRetention _ _ _ _ _ | .commitFail _ | .restart => inferInstanceAs (Decidable False)
  | .openLog _ _ | .append _ _ _ | .appendReplica _ _ _ | .addPending _ _ | .swap | .rotate _
  | .put _ | .putFail _ _ | .commit | .trim => inferInstanceAs (Decidable True)

/-! ### Between the buffer and the upload -/

/-- How the batches of the partition `k` that have no ref are regrouped from `n` to `n'`. -/
inductive Regroup (n n' : Node) (k : Bytes) : Prop
  | stay (hout : n'.phase.outstanding k = n.phase.outstanding k)
      (hpend : n'.storage.pending.lookup k = n.storage.pending.lookup k)
  /-- An upload takes the part. -/
  | take (hnone : n.phase.outstanding k = none)
      (hout : n'.phase.outstanding k = n.storage.pending.lookup k)
      (hpend : n'.storage.pending.lookup k = none)
  /-- An upload that failed puts it back. -/
  | restore (hout : n'.phase.outstanding k = none)
      (hpend : n'.storage.pending.lookup k = Table.mergeValues PendingPart.merge
        (n.phase.outstanding k) (n.storage.pending.lookup k))

namespace Regroup

variable {n n' m : Node} {k : Bytes}

theorem refEnd (h : Regroup n n' k) (logEnd : ℤ) : n'.refEnd k logEnd = n.refEnd k logEnd := by
  cases h with
  | stay hout hpend => rw [Node.refEnd, hout, hpend]; rfl
  | take hnone hout hpend => rw [Node.refEnd, Node.refEnd, hnone, hout, hpend]; rfl
  | restore hout hpend =>
    rw [Node.refEnd, Node.refEnd, hout, hpend]
    cases n.phase.outstanding k <;> cases n.storage.pending.lookup k <;> rfl

/-- They are the same batches, in the same order. -/
theorem batches (h : Regroup n n' k) :
    n'.takenBatches k ++ n'.pendingBatches k = n.takenBatches k ++ n.pendingBatches k := by
  cases h with
  | stay hout hpend => rw [Node.takenBatches, Node.pendingBatches, hout, hpend]; rfl
  | take hnone hout hpend =>
    simp [Node.takenBatches, Node.pendingBatches, partBatches, hnone, hout, hpend]
  | restore hout hpend =>
    rw [Node.takenBatches, Node.pendingBatches, hout, hpend, partBatches_merge]
    rfl

theorem none (h : Regroup n n' k) (h₁ : n.phase.outstanding k = none)
    (h₂ : n.storage.pending.lookup k = none) :
    n'.phase.outstanding k = none ∧ n'.storage.pending.lookup k = none := by
  cases h with
  | stay hout hpend => exact ⟨hout.trans h₁, hpend.trans h₂⟩
  | take _ hout hpend => exact ⟨hout.trans h₂, hpend⟩
  | restore hout hpend => rw [h₁, h₂] at hpend; exact ⟨hout, hpend⟩

theorem congr (h : Regroup n m k) (hout : n'.phase.outstanding k = m.phase.outstanding k)
    (hpend : n'.storage.pending.lookup k = m.storage.pending.lookup k) : Regroup n n' k := by
  cases h with
  | stay ho hp => exact .stay (hout.trans ho) (hpend.trans hp)
  | take hnone ho hp => exact .take hnone (hout.trans ho) (hpend.trans hp)
  | restore ho hp => exact .restore (hout.trans ho) (hpend.trans hp)

end Regroup

/-- A step that leaves the handles and the refs. -/
structure Frame (n n' : Node) : Prop where
  up : n'.up = n.up
  logs : n'.logs = n.logs
  index : n'.storage.index = n.storage.index
  recovered : n'.storage.recNext = n.storage.recNext ∧ n'.storage.recBase = n.storage.recBase
  group : ∀ k, Regroup n n' k

/-- The steps of an append up to the buffer, and those of an upload but for its commits. -/
def Action.Regroups : Action → Prop
  | .append _ _ _ | .appendReplica _ _ _ => True
  | .swap | .rotate _ | .put _ | .putFail _ _ | .trim => True
  | _ => False

namespace Frame

variable {n n' : Node}

theorem refl (n : Node) : Frame n n := ⟨rfl, rfl, rfl, ⟨rfl, rfl⟩, fun _ => .stay rfl rfl⟩

theorem committed (h : Frame n n') (k : Bytes) : n'.committed k = n.committed k := by
  rw [Node.committed, h.index]
  rfl

theorem logEnd (h : Frame n n') (k : Bytes) : n'.logEnd k = n.logEnd k :=
  Node.logEnd_congr (by rw [h.logs]) (h.committed k) h.recovered.1

theorem write (n : Node) (rec : WalRecord) (next : ℤ) (replica : Bool) :
    Frame n (n.write rec next replica) := by
  rcases n.write_cases rec next replica with hn | ⟨w, -, hn⟩ <;> rw [hn]
  · exact .refl n
  · exact ⟨rfl, rfl, rfl, ⟨rfl, rfl⟩, fun _ => .stay rfl rfl⟩

/-- **What the steps of an append and of an upload leave.** -/
theorem act (h : n.Inv) {a : Action} (ha : a.Regroups) : Frame n (n.act a) := by
  cases a with
  | append topic partition batch =>
    rw [Node.act]
    rcases n.append_cases topic partition batch with hn | ⟨l, -, -, -, hn⟩ <;> rw [hn]
    · exact .refl n
    · exact .write n _ _ _
  | appendReplica topic partition batch =>
    rw [Node.act]
    rcases n.appendReplica_cases topic partition batch with hn | ⟨l, -, -, -, hn⟩ <;> rw [hn]
    · exact .refl n
    · exact .write n _ _ _
  | swap =>
    rw [Node.act]
    rcases n.swap_cases with hn | ⟨hidle, -, hn⟩ <;> rw [hn]
    · exact .refl n
    · exact ⟨rfl, rfl, rfl, ⟨rfl, rfl⟩, fun _ => .take (by rw [hidle]; rfl) rfl rfl⟩
  | rotate fault =>
    rw [Node.act]
    rcases n.rotate_cases fault with hn | ⟨snap, seq, hp, ⟨w, -, hn⟩ | ⟨w, q, -, hn⟩⟩ <;> rw [hn]
    · exact .refl n
    · refine ⟨rfl, rfl, rfl, ⟨rfl, rfl⟩, fun _ => .restore rfl ?_⟩
      rw [hp]
      exact Table.lookup_overlay _ _ _ _
    · exact ⟨rfl, rfl, rfl, ⟨rfl, rfl⟩, fun _ => .stay (by rw [hp]; rfl) rfl⟩
  | put nowMs =>
    rw [Node.act]
    rcases n.put_cases nowMs with hn | ⟨snap, seq, q, hp, hn⟩ <;> rw [hn]
    · exact .refl n
    · have hout : ∀ k, n.phase.outstanding k = snap.lookup k := fun k => by rw [hp]; rfl
      exact ⟨rfl, rfl, rfl, ⟨rfl, rfl⟩, fun k => .stay
        ((outstanding_assemble (h.keys_of_outstanding hout) _ nowMs q k).trans (hout k).symm) rfl⟩
  | putFail nowMs stored =>
    rw [Node.act]
    rcases n.putFail_cases nowMs stored with hn | ⟨snap, seq, q, hp, s, hs, hn⟩ <;> rw [hn]
    · exact .refl n
    · rcases hs with rfl | rfl <;>
      · refine ⟨rfl, rfl, rfl, ⟨rfl, rfl⟩, fun _ => .restore rfl ?_⟩
        rw [hp]
        exact Table.lookup_overlay _ _ _ _
  | trim =>
    rw [Node.act]
    rcases n.trim_cases with hn | ⟨snap, q, hp, hn⟩ <;> rw [hn]
    · exact .refl n
    · exact ⟨rfl, rfl, rfl, ⟨rfl, rfl⟩, fun _ => .stay (by rw [hp]; rfl) rfl⟩
  | _ => exact absurd ha id

end Frame

/-! ### Moves -/

/-- What an action from `n` to `n'` does to the places of the partition `k`. -/
inductive Move (n n' : Node) (k : Bytes) : Prop
  | regroup (h : Regroup n n' k) (hrefs : n'.committed k = n.committed k)
  /-- An append puts its batch into the buffer. -/
  | add (f : InFlight) (hf : n.appending.lookup k = some f)
      (hout : n'.phase.outstanding k = n.phase.outstanding k)
      (hpend : n'.storage.pending.lookup k = some (addTo (n.storage.pending.lookup k) f))
      (hrefs : n'.committed k = n.committed k)
  /-- The ref of its part is committed. -/
  | commit (S : PendingPart) (r : SegmentRef) (hS : n.phase.outstanding k = some S)
      (hbase : r.baseOffset = S.baseOffset) (hnext : r.nextOffset = S.nextOffset)
      (hout : n'.phase.outstanding k = none)
      (hpend : n'.storage.pending.lookup k = n.storage.pending.lookup k)
      (hrefs : n'.committed k = n.committed k ++ [r])

namespace Move

variable {n n' m : Node} {k b : Bytes}

theorem refl (n : Node) (k : Bytes) : Move n n k := .regroup (.stay rfl rfl) rfl

/-- A move is about the places of the partition only. -/
theorem congr (h : Move n m k) (hout : n'.phase.outstanding k = m.phase.outstanding k)
    (hpend : n'.storage.pending.lookup k = m.storage.pending.lookup k)
    (hrefs : n'.committed k = m.committed k) : Move n n' k := by
  cases h with
  | regroup h hr => exact .regroup (h.congr hout hpend) (hrefs.trans hr)
  | add f hf ho hp hr => exact .add f hf (hout.trans ho) (hpend.trans hp) (hrefs.trans hr)
  | commit S r hS hbase hnext ho hp hr =>
    exact .commit S r hS hbase hnext (hout.trans ho) (hpend.trans hp) (hrefs.trans hr)

theorem covered (h : Move n n' k) (hb : n.Covered k b) : n'.Covered k b := by
  unfold Node.Covered at hb ⊢
  cases h with
  | regroup _ hrefs => rwa [hrefs]
  | add _ _ _ _ hrefs => rwa [hrefs]
  | commit _ _ _ _ _ _ _ hrefs =>
    obtain ⟨r, hr, hle⟩ := hb
    exact ⟨r, hrefs ▸ List.mem_append_left _ hr, hle⟩

/-- **A batch stays in one of its places.** -/
theorem tracked (h : Move n n' k) (hn : n.PartOk k) (hb : n.Tracked k b) : n'.Tracked k b := by
  rw [Node.tracked_iff] at hb ⊢
  rcases hb with hb | hcov
  · cases h with
    | regroup h _ => rw [h.batches]; exact .inl hb
    | add f _ hout hpend _ =>
      rw [Node.takenBatches, Node.pendingBatches, hout, hpend, partBatches_addTo,
        ← List.append_assoc]
      exact .inl (List.mem_append_left _ hb)
    | commit S r hS hbase hnext hout hpend hrefs =>
      rw [Node.takenBatches, Node.pendingBatches, hS] at hb
      rw [Node.takenBatches, Node.pendingBatches, hout, hpend, Node.Covered, hrefs]
      rcases List.mem_append.mp hb with hb | hb
      · exact .inr (hn.covers_of_inPart hS hbase hnext hb)
      · exact .inl hb
  · exact .inr (h.covered hcov)

end Move

theorem Frame.move {n n' : Node} (h : Frame n n') (k : Bytes) : Move n n' k :=
  .regroup (h.group k) (h.committed k)

/-! ### The moves of the actions -/

namespace Node
namespace Inv

variable {n : Node}

theorem move_openLog (n : Node) (topic : Bytes) (partition : ℤ) (k : Bytes) :
    Move n (n.openLog topic partition) k := by
  rw [Node.openLog]
  split
  · exact .refl n k
  · exact .regroup (.stay rfl rfl) rfl

theorem move_addPending (h : n.Inv) (k j : Bytes) : Move n (n.addPending k) j := by
  rw [Node.addPending]
  cases hf : n.appending.lookup k with
  | none => exact .refl n j
  | some f =>
    have hkey : f.record.indexKey = k := ((h.parts k).appending f hf).key
    have hlook := lookup_appendPending n.storage hkey j
    by_cases hj : j = k
    · subst hj
      rw [if_pos rfl] at hlook
      exact .add f hf rfl hlook rfl
    · rw [if_neg hj] at hlook
      exact .regroup (.stay rfl hlook) rfl

theorem move_commit (h : n.Inv) (k : Bytes) : Move n n.commit k := by
  rcases n.commit_cases with hn | ⟨snap, c, cs, q, hp, hn⟩ <;> rw [hn]
  · exact .refl n k
  · obtain ⟨S, hS, hbase, hnext, hout⟩ := h.next_commit hp
    have hload := IndexStore.load_commit n.storage.index.store c.indexKey k c.ref
    by_cases hk : k = c.indexKey
    · subst hk
      exact .commit S c.ref hS hbase hnext ((hout _).trans (if_pos rfl)) rfl
        (hload.trans (if_pos rfl))
    · exact .regroup (.stay ((hout k).trans (if_neg hk)) rfl) (hload.trans (if_neg hk))

/-- Where the last ref is stored although the commit fails, the batches are where they would
be after the commit. -/
theorem move_commitFail (h : n.Inv) (hone : n.phase.commits.length = 1) (k : Bytes) :
    Move n (n.commitFail true) k := by
  have hmove := h.move_commit k
  rcases n.commitFail_cases true with hn | ⟨snap, c, cs, q, hp, -⟩
  · rw [hn]
    exact .refl n k
  · obtain rfl : cs = [] := by simpa [hp, Phase.commits] using hone
    rw [Node.commit, hp] at hmove
    rw [Node.commitFail, hp]
    exact hmove.congr rfl rfl rfl

/-- **The actions make no other moves.** -/
theorem move (h : n.Inv) {a : Action} (ha : a.Lossless) (k : Bytes) : Move n (n.step a) k := by
  rw [Node.step]
  split
  · cases a with
    | openLog topic partition => exact move_openLog n topic partition k
    | addPending topic partition => exact h.move_addPending _ k
    | commit => exact h.move_commit k
    | commitFail | enforceRetention | restart => exact absurd ha id
    | _ =>
      apply Frame.move
      exact .act h trivial
  · split
    · next hr => subst hr; exact absurd ha id
    · exact .refl n k

end Inv
end Node

end Object
end Mq
