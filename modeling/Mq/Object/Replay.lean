import Mq.Object.Reopen
import Mq.Object.Trim

/-!
# Crashes in the middle of an upload

A new process puts every record of the write-ahead log back into the buffer, whatever
the index says.  That is right as long as the records of a partition are exactly those
of the batches that no ref covers.  An upload that has committed a ref and not yet
deleted the segments it sealed leaves records that are covered, and a record that was
sealed without being uploaded (see `Mq.Object.Trim`) leaves a gap.

## Main definitions

* `Node.Linked` — the refs are without gaps and end where the uncommitted batches begin.
* `Node.CrashesClean` — a process ends only while its upload has committed nothing.

## Main results

* `load_replay` — what a replay leaves in the buffer.
* `Steady.step` — the steps keep the refs linked.
* `index_contiguous` — **the refs of a partition stay disjoint and contiguous, and the
  buffer begins where they end**, across clean crashes.
* `crash_overlaps_refs` — a crash between the commits and the deletion makes two refs
  cover the same offsets.
-/

namespace Mq
namespace Object

open Word Record Transition

/-! ### Replaying the log -/

/-- The part that a partition's records make. -/
def loadedPart (recs : List WalRecord) : Option PendingPart :=
  recs.foldl (fun pp rec => some ((pp.getD rec.part).add rec.batch (nextOf rec.batch))) none

theorem loadedPart_snoc (recs : List WalRecord) (rec : WalRecord) :
    loadedPart (recs ++ [rec])
      = some (((loadedPart recs).getD rec.part).add rec.batch (nextOf rec.batch)) := by
  rw [loadedPart, List.foldl_append]
  rfl

/-- The part of records that follow each other. -/
theorem loadedPart_ok {k : Bytes} {x : ℤ} :
    ∀ (recs : List WalRecord) {y : ℤ}, recs ≠ [] → (∀ rec ∈ recs, rec.indexKey = k) →
      (∀ rec ∈ recs, rec.baseOffset = (header rec.batch).baseOffset) →
      Contiguous x (recs.map (·.batch)) y →
      ∃ pp, loadedPart recs = some pp ∧ pp.Ok k ∧ pp.baseOffset = x ∧ pp.nextOffset = y ∧
        pp.batches = recs.map (·.batch) := by
  intro recs
  -- a record is added at the end, so the list is taken apart from there
  induction recs using List.reverseRecOn with
  | nil => intro y hne; exact absurd rfl hne
  | append_singleton recs rec ih =>
    intro y _ hkey hbase hcont
    rw [List.map_append, List.map_singleton] at hcont
    obtain ⟨z, hfirst, hb, hlt, rfl⟩ := contiguous_append.mp hcont
    rw [loadedPart_snoc]
    refine ⟨_, rfl, ?_⟩
    cases recs using List.reverseRecOn with
    | nil =>
      cases hfirst
      have hrec : rec.baseOffset = (header rec.batch).baseOffset := hbase rec (by simp)
      refine ⟨⟨hkey rec (by simp), by simp [PendingPart.add], ?_, ?_⟩, hrec.trans hb, rfl, rfl⟩
      · refine contiguous_singleton hrec.symm ?_
        show rec.baseOffset < nextOf rec.batch
        omega
      · show (0 : ℤ) + rec.batch.length = batchBytes [rec.batch]
        rw [batchBytes_singleton, Int.zero_add]
    | append_singleton recs last =>
      obtain ⟨pp, hpp, hok, hpbase, hnext, hbatches⟩ := ih (by simp)
        (fun r hr => hkey r (List.mem_append_left _ hr))
        (fun r hr => hbase r (List.mem_append_left _ hr)) hfirst
      rw [hpp, Option.getD_some]
      refine ⟨hok.add (hb.trans hnext.symm) (hnext ▸ hlt), hpbase, rfl, ?_⟩
      rw [List.map_append, ← hbatches]
      rfl

/-- What a replay of some records leaves. -/
structure Loaded (s₀ s : Storage) (recs : List WalRecord) : Prop where
  wal : s.wal = s₀.wal
  index : s.index = s₀.index
  pending : ∀ k, s.pending.lookup k = loadedPart (recs.filter (·.indexKey = k))
  recNext : ∀ k, s.recNext.lookup k
    = (loadedPart (recs.filter (·.indexKey = k))).map (·.nextOffset)
  bytes : s.pendingBytes = Table.total PendingPart.bytes s.pending

/-- One more record. -/
theorem Loaded.replayRecord {s₀ s : Storage} {recs : List WalRecord} (h : Loaded s₀ s recs)
    {rec : WalRecord} (hparse : parseHeader rec.batch = .ok (header rec.batch)) :
    ∃ s', s.replayRecord rec = .ok s' ∧ Loaded s₀ s' (recs ++ [rec]) := by
  have hfilter : ∀ k, (recs ++ [rec]).filter (·.indexKey = k)
      = if k = rec.indexKey then recs.filter (·.indexKey = k) ++ [rec]
        else recs.filter (·.indexKey = k) := by
    intro k
    rw [List.filter_append, List.filter_singleton]
    by_cases hk : k = rec.indexKey
    · rw [if_pos hk, hk]; simp
    · rw [if_neg hk]; simp [Ne.symm hk]
  have hpart : (s.pending.lookup rec.indexKey).getD rec.part
      = (loadedPart (recs.filter (·.indexKey = rec.indexKey))).getD rec.part := by
    rw [h.pending]
  rw [Storage.replayRecord, hparse]
  refine ⟨_, rfl, h.wal, h.index, ?_, ?_, ?_⟩
  · intro k
    show (s.pending.insert rec.indexKey _).lookup k = _
    rw [Table.lookup_insert_ite, hfilter k]
    by_cases hk : k = rec.indexKey
    · subst hk
      rw [if_pos rfl, if_pos rfl, loadedPart_snoc, hpart]
      rfl
    · rw [if_neg hk, if_neg hk]
      exact h.pending k
  · intro k
    show (s.recNext.insert rec.indexKey (nextOf rec.batch)).lookup k = _
    rw [Table.lookup_insert_ite, hfilter k]
    by_cases hk : k = rec.indexKey
    · subst hk
      rw [if_pos rfl, if_pos rfl, loadedPart_snoc]
      rfl
    · rw [if_neg hk, if_neg hk]
      exact h.recNext k
  · exact appendPending_bytes h.bytes rec (nextOf rec.batch)

/-- **What a replay leaves**, when the records can all be read. -/
theorem load_replay (s₀ : Storage) (hpend : s₀.pending = ∅) (hbytes : s₀.pendingBytes = 0)
    (hrec : s₀.recNext = ∅) :
    ∀ recs : List WalRecord, (∀ rec ∈ recs, parseHeader rec.batch = .ok (header rec.batch)) →
      ∃ s, recs.foldlM Storage.replayRecord s₀ = .ok s ∧ Loaded s₀ s recs := by
  intro recs
  induction recs using List.reverseRecOn with
  | nil =>
    intro _
    refine ⟨s₀, rfl, rfl, rfl, ?_, ?_, ?_⟩
    · intro k; rw [hpend]; rfl
    · intro k; rw [hrec]; rfl
    · rw [hbytes, hpend]; rfl
  | append_singleton recs rec ih =>
    intro hparse
    obtain ⟨s, hs, hloaded⟩ := ih fun r hr => hparse r (List.mem_append_left _ hr)
    obtain ⟨s', hs', hloaded'⟩ := hloaded.replayRecord (hparse rec (by simp))
    refine ⟨s', ?_, hloaded'⟩
    rw [List.foldlM_append, hs]
    show (List.foldlM Storage.replayRecord s [rec]) = .ok s'
    rw [List.foldlM_cons, hs']
    rfl

/-! ### The refs and the batches on their way -/

namespace Node

/-- The refs of a partition are without gaps and end where the batches begin that have
none. -/
def Linked (n : Node) (k : Bytes) : Prop :=
  ∃ a, RefChain a (n.committed k)
    (baseOr (n.phase.outstanding k) (baseOr (n.storage.pending.lookup k) (n.logEnd k)))

/-- The log end of a partition moves only when a batch is buffered. -/
theorem Inv.logEnd_step {n : Node} (h : n.Inv) {a : Action} (ha : a.Lossless) {k : Bytes}
    (hk : (n.step a).storage.pending.lookup k = none) : (n.step a).logEnd k = n.logEnd k := by
  rw [Node.step] at hk ⊢
  split
  · next hup =>
    rw [if_pos hup] at hk
    cases a with
    | openLog topic partition => exact n.logEnd_openLog topic partition k
    | addPending topic partition =>
      rw [Node.act, Node.addPending] at hk ⊢
      cases hf : n.appending.lookup (indexKey topic partition) with
      | none => rfl
      | some f =>
        rw [hf] at hk
        have hkey : f.record.indexKey = indexKey topic partition :=
          ((h.parts _).appending f hf).key
        -- the partition whose batch is buffered now has a pending part
        have hne : k ≠ indexKey topic partition := by
          rintro rfl
          dsimp only at hk
          rw [lookup_appendPending_self n.storage hkey] at hk
          cases hk
        obtain ⟨l, hl⟩ := h.opened _ f hf
        rw [hl]
        exact logEnd_congr (AList.lookup_insert_ne hne) rfl rfl
    | commit => exact h.logEnd_commit k
    | commitFail | enforceRetention | restart => exact absurd ha id
    | _ =>
      apply Frame.logEnd
      exact .act h trivial
  · split
    · next hr => subst hr; exact absurd ha id
    · rfl

/-- **The moves of the actions keep the refs linked.** -/
theorem Linked.step {n : Node} {k : Bytes} (hl : n.Linked k) (h : n.Inv) {a : Action}
    (ha : a.Lossless) : (n.step a).Linked k := by
  obtain ⟨x, hchain⟩ := hl
  have hend : baseOr ((n.step a).storage.pending.lookup k) ((n.step a).logEnd k)
      = baseOr ((n.step a).storage.pending.lookup k) (n.logEnd k) := by
    cases hp : (n.step a).storage.pending.lookup k with
    | none => exact h.logEnd_step ha hp
    | some pp => rfl
  refine ⟨x, ?_⟩
  rw [hend]
  exact (h.move ha k).refChain (h.parts k) hchain

end Node

/-! ### Crashes -/

/-- The batches of a partition that have no ref follow each other, from where the refs
end. -/
theorem PartOk.contiguous {k : Bytes} {logEnd : ℤ} {refs : List SegmentRef}
    {out pend : Option PendingPart} {flying : Option InFlight}
    (h : PartOk k logEnd refs out pend flying) :
    ∃ z, wrap64 z = z ∧ Contiguous (baseOr out (baseOr pend logEnd))
      (partBatches out ++ partBatches pend ++ flyingBatch flying) z := by
  have hpend : Contiguous (baseOr pend logEnd) (partBatches pend) logEnd := by
    cases pend with
    | none => rfl
    | some P => obtain ⟨hok, rfl⟩ := h.pending P rfl; exact hok.contiguous
  have hout : Contiguous (baseOr out (baseOr pend logEnd)) (partBatches out)
      (baseOr pend logEnd) := by
    cases out with
    | none => rfl
    | some S =>
      obtain ⟨hok, hnext⟩ := h.taken S rfl
      rw [← hnext]
      exact hok.contiguous
  have hboth := contiguous_append.mpr ⟨_, hout, hpend⟩
  cases flying with
  | none =>
    refine ⟨logEnd, h.range, ?_⟩
    rwa [flyingBatch, Option.map_none, Option.toList_none, List.append_nil]
  | some f =>
    have hf := h.appending f rfl
    refine ⟨nextOf f.record.batch, by rw [nextOf, wrap64_wrap64], ?_⟩
    exact contiguous_append.mpr ⟨logEnd, hboth,
      contiguous_singleton hf.header_base (hf.next ▸ hf.advances)⟩

/-- The end that the refs of a partition give its handle. -/
theorem RefChain.latest_eq {a x : ℤ} {refs : List SegmentRef} (h : RefChain a refs x)
    (hne : refs ≠ []) : ((sortRefs refs).getLast?.map (·.nextOffset)).getD 0 = x := by
  rw [h.sortRefs_eq, h.last_next hne, Option.getD_some]

namespace Loaded

variable {s₀ s : Storage} {recs : List WalRecord} {k : Bytes} {a x z : ℤ}

/-- A partition without records is opened where its refs end. -/
theorem partOk_nil (h : Loaded s₀ s recs) (hnil : recs.filter (·.indexKey = k) = [])
    (hrange : wrap64 x = x) (hx : 0 ≤ x) (hchain : RefChain a (s₀.index.store.load k) x)
    (hbelow : ∀ r ∈ s₀.index.store.load k, r.baseOffset ≤ r.nextOffset ∧ r.nextOffset ≤ x) :
    Node.PartOk ⟨s, ∅, ∅, .idle, true⟩ k ∧ Node.Linked ⟨s, ∅, ∅, .idle, true⟩ k := by
  have hpend : s.pending.lookup k = none := by rw [h.pending, hnil]; rfl
  have hrec : s.recNext.lookup k = none := by rw [h.recNext, hnil]; rfl
  have hend : Node.logEnd ⟨s, ∅, ∅, .idle, true⟩ k
      = ((sortRefs (s₀.index.store.load k)).getLast?.map (·.nextOffset)).getD 0 := by
    show s.openEnd k = _
    rw [Storage.openEnd_eq, h.index, hrec]
  rw [← h.index] at hchain hbelow hend
  unfold Node.PartOk Node.Linked Node.committed
  dsimp only
  rw [hpend, hend]
  by_cases hne : s.index.store.load k = []
  · rw [hne]
    exact ⟨Object.PartOk.empty k, 0, rfl⟩
  · rw [hchain.latest_eq hne]
    refine ⟨⟨hrange, ?_, ?_, hbelow, hx, ?_⟩, a, hchain⟩
    · intro pp hpp; cases hpp
    · intro pp hpp; cases hpp
    · intro f hf; cases hf

/-- A partition with records is opened where they end. -/
theorem partOk_cons (h : Loaded s₀ s recs) (hne : recs.filter (·.indexKey = k) ≠ [])
    (hbase : ∀ rec ∈ recs, rec.baseOffset = (header rec.batch).baseOffset)
    (hcont : Contiguous x (batchesOf recs k) z)
    (hrange : wrap64 z = z) (hx : 0 ≤ x) (hchain : RefChain a (s₀.index.store.load k) x)
    (hbelow : ∀ r ∈ s₀.index.store.load k, r.baseOffset ≤ r.nextOffset ∧ r.nextOffset ≤ x) :
    Node.PartOk ⟨s, ∅, ∅, .idle, true⟩ k ∧ Node.Linked ⟨s, ∅, ∅, .idle, true⟩ k ∧
      partBatches (s.pending.lookup k) = batchesOf recs k := by
  obtain ⟨pp, hpp, hok, hppbase, hppnext, hbatches⟩ := loadedPart_ok (k := k) _ hne
    (fun rec hrec => of_decide_eq_true (List.mem_filter.mp hrec).2)
    (fun rec hrec => hbase rec (List.mem_filter.mp hrec).1) (batchesOf_eq recs k ▸ hcont)
  have hpend : s.pending.lookup k = some pp := (h.pending k).trans hpp
  have hrec : s.recNext.lookup k = some z := by rw [h.recNext, hpp, Option.map_some, hppnext]
  have hlt : x < z := hcont.lt (by rw [batchesOf_eq]; simpa using hne)
  have hrefs : ((sortRefs (s₀.index.store.load k)).getLast?.map (·.nextOffset)).getD 0 < z := by
    by_cases hnil : s₀.index.store.load k = []
    · rw [hnil]
      exact hx.trans_lt hlt
    · rw [hchain.latest_eq hnil]
      exact hlt
  have hend : Node.logEnd ⟨s, ∅, ∅, .idle, true⟩ k = z := by
    show s.openEnd k = _
    rw [Storage.openEnd_eq, h.index, hrec]
    exact if_pos hrefs
  rw [← h.index] at hchain hbelow
  unfold Node.PartOk Node.Linked Node.committed
  dsimp only
  rw [hpend, hend]
  refine ⟨⟨hrange, ?_, ?_, ?_, ?_, ?_⟩, ⟨a, ?_⟩, hbatches.trans (batchesOf_eq recs k).symm⟩
  · rintro _ ⟨⟩
    exact ⟨hok, hppnext⟩
  · intro pp hpp; cases hpp
  · show ∀ r ∈ _, _ ∧ _ ≤ pp.baseOffset
    rwa [hppbase]
  · show 0 ≤ pp.baseOffset
    rwa [hppbase]
  · intro f hf; cases hf
  · show RefChain a _ pp.baseOffset
    rwa [hppbase]

end Loaded

namespace Node

/-- A process ends only while the upload under way has committed none of its refs. -/
def CrashesClean (n : Node) (a : Action) : Prop :=
  match a, n.phase with
  | .restart, .committing snap commits _ => ∀ k ∈ snap.keys, k ∈ commits.map Commit.indexKey
  | _, _ => True

instance : ∀ (n : Node) (a : Action), Decidable (n.CrashesClean a)
  | ⟨_, _, _, .committing snap commits _, _⟩, .restart =>
    inferInstanceAs (Decidable (∀ k ∈ snap.keys, k ∈ commits.map Commit.indexKey))
  | ⟨_, _, _, .idle, _⟩, .restart | ⟨_, _, _, .swapped _ _, _⟩, .restart
  | ⟨_, _, _, .rotated _ _ _, _⟩, .restart | _, .openLog _ _ | _, .append _ _ _
  | _, .appendReplica _ _ _ | _, .addPending _ _ | _, .swap | _, .rotate _ | _, .put _
  | _, .putFail _ _ | _, .commit | _, .commitFail _ | _, .trim | _, .enforceRetention _ _ _ _ _ =>
    inferInstanceAs (Decidable True)

theorem taken_eq_outstanding {n : Node} (h : n.CrashesClean .restart) (k : Bytes) :
    n.phase.taken k = n.phase.outstanding k := by
  unfold CrashesClean at h
  cases hp : n.phase with
  | idle | swapped | rotated => rfl
  | committing snap commits q =>
    rw [hp] at h
    rw [Phase.taken, Phase.outstanding]
    split
    · rfl
    · next hk =>
      apply AList.lookup_eq_none.mpr
      intro hmem
      exact hk (h k (AList.mem_keys.mp hmem))

/-- Everything that the steps keep. -/
structure Steady (n : Node) : Prop where
  inv : n.Inv
  journal : Journal n
  linked : ∀ k, n.Linked k

theorem steady_fresh (nodeID : Bytes) : (fresh nodeID).Steady := by
  refine ⟨inv_fresh nodeID, journal_fresh nodeID, fun k => ⟨_, rfl⟩⟩

/-- **A new process takes up where the old one was**, if no ref was committed that the
log still has the records of. -/
theorem Steady.restart {n : Node} (h : n.Steady) (hclean : n.CrashesClean .restart) :
    n.restart.Steady := by
  obtain ⟨htidy, hreplay⟩ := h.journal.tidy.openWal
  obtain ⟨s, hs, hloaded⟩ := load_replay
    { nodeID := n.storage.nodeID, objects := n.storage.objects
      index := ⟨n.storage.index.store, ∅⟩, wal := openWal n.storage.wal.segments
      pending := ∅, pendingBytes := 0, uploadSeq := 0, recBase := ∅, recNext := ∅ }
    rfl rfl rfl n.storage.wal.replay fun rec hrec => (h.journal.sound rec hrec).1
  have hopen : newStorage n.storage.nodeID n.storage.objects n.storage.index.store
      n.storage.wal.segments = .ok s := by
    rw [newStorage]
    dsimp only
    rw [hreplay]
    exact hs
  have hparts : ∀ k, Node.PartOk ⟨s, ∅, ∅, .idle, true⟩ k ∧ Node.Linked ⟨s, ∅, ∅, .idle, true⟩ k ∧
      partBatches (s.pending.lookup k) = batchesOf n.storage.wal.replay k := by
    intro k
    have hpart := h.inv.parts k
    unfold Node.PartOk at hpart
    obtain ⟨z, hrange, hcont⟩ := hpart.contiguous
    rw [← taken_eq_outstanding hclean k, ← h.journal.content k,
      taken_eq_outstanding hclean k] at hcont
    obtain ⟨a, hchain⟩ := h.linked k
    by_cases hnil : n.storage.wal.replay.filter (·.indexKey = k) = []
    · have hbatches : batchesOf n.storage.wal.replay k = [] := by rw [batchesOf_eq, hnil]; rfl
      rw [hbatches] at hcont ⊢
      obtain ⟨hok, hlinked⟩ := hloaded.partOk_nil hnil (hcont ▸ hrange) hpart.nonneg hchain
        hpart.below
      refine ⟨hok, hlinked, ?_⟩
      rw [hloaded.pending, hnil]
      rfl
    · exact hloaded.partOk_cons hnil (fun rec hrec => (h.journal.sound rec hrec).2) hcont hrange
        hpart.nonneg hchain hpart.below
  rw [Node.restart, hopen]
  refine ⟨⟨fun k => (hparts k).1, hloaded.bytes, trivial, ?_⟩, ⟨?_, ?_, ?_, ?_⟩,
    fun k => (hparts k).2.1⟩
  · intro k f hf; cases hf
  · show s.wal.Tidy
    rw [hloaded.wal]
    exact htidy
  · intro k
    show batchesOf s.wal.replay k = [] ++ partBatches (s.pending.lookup k) ++ []
    rw [hloaded.wal, hreplay, (hparts k).2.2, List.nil_append, List.append_nil]
  · intro q hq; cases hq
  · show ∀ rec ∈ s.wal.replay, _
    rw [hloaded.wal, hreplay]
    exact h.journal.sound

/-- The steps that leave the index in order: the appends move the log end, an upload
seals the log before anything more is appended, and a process ends before its upload
has committed anything. -/
def Orderly (n : Node) (a : Action) : Prop :=
  (a.Lossless ∨ a = .restart) ∧ n.Advances a ∧ n.RotatesClean a ∧ n.CrashesClean a

instance (n : Node) (a : Action) : Decidable (n.Orderly a) := by
  unfold Orderly; infer_instance

theorem Steady.step {n : Node} (h : n.Steady) {a : Action} (ha : n.Orderly a) :
    (n.step a).Steady := by
  obtain ⟨hact | rfl, hadv, hrot, hcrash⟩ := ha
  · refine ⟨h.inv.step hadv ?_, h.journal.step h.inv hact hrot, fun k => (h.linked k).step h.inv hact⟩
    rintro rfl
    exact hact
  · have hstep : n.step .restart = n.restart := by
      rw [Node.step]
      split <;> rfl
    rw [hstep]
    exact h.restart hcrash

/-- The refs of the partition are in order, each begins where the one before it ends,
and, unless an upload holds a part of the partition, the buffer begins where the last one
ends. -/
def Gapless (n : Node) (k : Bytes) : Prop :=
  (n.committed k).Pairwise (fun r q => r.nextOffset ≤ q.baseOffset) ∧
    (n.committed k).IsChain (fun r q => r.nextOffset = q.baseOffset) ∧
    (n.phase.outstanding k = none → ∀ r ∈ (n.committed k).getLast?,
      ∀ pp ∈ n.storage.pending.lookup k, pp.baseOffset = r.nextOffset)

instance (n : Node) (k : Bytes) : Decidable (n.Gapless k) := by
  unfold Gapless; infer_instance

theorem Linked.gapless {n : Node} {k : Bytes} (h : n.Linked k) : n.Gapless k := by
  obtain ⟨a, hchain⟩ := h
  refine ⟨hchain.pairwise, hchain.isChain, ?_⟩
  intro hout r hr pp hpp
  have hne : n.committed k ≠ [] := by
    intro hnil
    rw [hnil] at hr
    cases hr
  have hlast := hchain.last_next hne
  rw [hout, show n.storage.pending.lookup k = some pp from hpp, baseOr_none, baseOr_some,
    show (n.committed k).getLast? = some r from hr, Option.map_some, Option.some.injEq] at hlast
  exact hlast.symm

end Node

/-! ### Runs -/

/-- **The index stays without gaps and overlaps, and the buffer begins where it ends**, in
every state of a run of appends, uploads and crashes in which no ref is refused by the
store, the appends move the log end, an upload seals the log before anything more is
appended, and no process ends between an upload's first commit and its deletion of the
sealed segments. -/
theorem index_contiguous (nodeID : Bytes) (as : List Action)
    (h : Along Node.step Node.Orderly (Node.fresh nodeID) as) :
    Always Node.step (fun n => ∀ k, n.Gapless k) (Node.fresh nodeID) as := by
  have hsteady : Always Node.step Node.Steady (Node.fresh nodeID) as :=
    h.always (Node.steady_fresh nodeID) fun n a hn ha => hn.step ha
  exact hsteady.mono fun n hn k => (hn.linked k).gapless

/-- Two partitions, an upload, and a crash after the object of a second one was put and
while a third append was under way; the new process uploads what it recovered. -/
def crashRun : List Action :=
  [.openLog [116] 0, .openLog [116] 1, .append [116] 0 (makeBatch 1 []), .addPending [116] 0,
    .swap, .rotate none, .put 5, .commit, .trim,
    .append [116] 0 (makeBatch 2 []), .addPending [116] 0, .append [116] 1 (makeBatch 1 []),
    .addPending [116] 1, .swap, .rotate none, .put 6, .append [116] 0 (makeBatch 1 []), .restart,
    .openLog [116] 0, .append [116] 0 (makeBatch 1 []), .addPending [116] 0, .swap, .rotate none,
    .put 7, .commit, .commit, .trim]

/-- The refs at the end cover the four appends of the first partition. -/
theorem index_contiguous_crash :
    Always Node.step (fun n => ∀ k, n.Gapless k) (Node.fresh [49]) crashRun ∧
      ((run Node.step (Node.fresh [49]) crashRun).committed (indexKey [116] 0)).map
        (fun r => (r.baseOffset, r.nextOffset)) = [(0, 1), (1, 5)] :=
  ⟨index_contiguous [49] crashRun (by decide +kernel), by decide +kernel⟩

/-- One append, and a process that ends after its upload has committed the ref. -/
def overlapRun : List Action :=
  [.openLog [116] 0, .append [116] 0 (makeBatch 1 []), .addPending [116] 0, .swap, .rotate none,
    .put 5, .commit, .restart]

/-- An append and an upload of the process that follows. -/
def overlapNext : List Action :=
  [.openLog [116] 0, .append [116] 0 (makeBatch 1 []), .addPending [116] 0, .swap, .rotate none,
    .put 6, .commit, .trim]

/-- The new process buffers the batch that has a ref, and uploads it again: the buffer
begins before the last ref ends, and then two refs cover the same offset. -/
theorem crash_overlaps_refs :
    Along Node.step (fun n a => (a.FaultFree ∨ a = .restart) ∧ n.Advances a ∧ n.RotatesClean a)
        (Node.fresh [49]) (overlapRun ++ overlapNext) ∧
      ((run Node.step (Node.fresh [49]) overlapRun).committed (indexKey [116] 0)).map
        (fun r => (r.baseOffset, r.nextOffset)) = [(0, 1)] ∧
      ((run Node.step (Node.fresh [49]) overlapRun).storage.pending.lookup (indexKey [116] 0)).map
        (·.baseOffset) = some 0 ∧
      ¬ (run Node.step (Node.fresh [49]) overlapRun).Gapless (indexKey [116] 0) ∧
      ((run Node.step (Node.fresh [49]) (overlapRun ++ overlapNext)).committed
        (indexKey [116] 0)).map (fun r => (r.baseOffset, r.nextOffset)) = [(0, 1), (0, 2)] ∧
      ¬ (run Node.step (Node.fresh [49]) (overlapRun ++ overlapNext)).Gapless (indexKey [116] 0) := by
  refine ⟨by decide +kernel, by decide +kernel, by decide +kernel, by decide +kernel,
    by decide +kernel, by decide +kernel⟩

end Object
end Mq
