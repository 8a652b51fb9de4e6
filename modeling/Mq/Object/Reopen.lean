import Mq.Object.Chained

/-!
# Closing and reopening the object backend

The log end of a partition is not stored.  When the storage is opened again it is
put together from the committed refs and the records left in the write-ahead log.  A
clean shutdown leaves no records, so everything depends on the refs.

## Main definitions

* `Call`, `Node.call` — the calls of a run without concurrency.
* `SeqInv` — what holds between the calls.

## Main results

* `run_upload` — the steps of an upload with nothing in between are `Storage.upload`.
* `SeqInv.call` — every call keeps the invariant.
* `reopen_agrees_iff` — **the reopened handle agrees with the old one exactly when a
  ref or a pending batch was left**, or nothing had been appended.
* `reopen_forgets_offsets` — after retention has dropped the last ref, the offsets
  start at zero again.
-/

namespace Mq
namespace Object

open Word Record Transition

/-! ### Calls -/

/-- The calls of a run in which each call returns before the next is made and every
upload succeeds. -/
inductive Call
  | openLog (topic : Bytes) (partition : ℤ)
  | append (topic : Bytes) (partition : ℤ) (batch : Bytes)
  | appendReplica (topic : Bytes) (partition : ℤ) (batch : Bytes)
  | upload (nowMs : ℤ)
  | enforceRetention (topic : Bytes) (partition : ℤ) (nowMs maxAgeMs maxBytes : ℤ)
  deriving DecidableEq, Repr

namespace Node

/-- What a call does. -/
def call (n : Node) : Call → Node
  | .openLog topic partition => n.openLog topic partition
  | .append topic partition batch =>
    (n.append topic partition batch).addPending (indexKey topic partition)
  | .appendReplica topic partition batch =>
    (n.appendReplica topic partition batch).addPending (indexKey topic partition)
  | .upload nowMs => { n with storage := n.storage.upload nowMs }
  | .enforceRetention topic partition nowMs maxAgeMs maxBytes =>
    n.enforceRetention (indexKey topic partition) nowMs maxAgeMs maxBytes

/-- The batch of an append covers at least one offset. -/
def CallAdvances (n : Node) : Call → Prop
  | .append topic partition batch => n.Advances (.append topic partition batch)
  | .appendReplica topic partition batch => n.Advances (.appendReplica topic partition batch)
  | _ => True

instance (n : Node) (c : Call) : Decidable (n.CallAdvances c) := by
  cases c <;> unfold CallAdvances <;> infer_instance

/-! ### An upload without interruption -/

/-- The actions of an upload that takes `parts` parts. -/
def uploadActions (nowMs : ℤ) (parts : ℕ) : List Action :=
  [.swap, .rotate none, .put nowMs] ++ List.replicate parts .commit ++ [.trim]

theorem of_mem_uploadActions {nowMs : ℤ} {parts : ℕ} {a : Action}
    (ha : a ∈ uploadActions nowMs parts) :
    a = .swap ∨ a = .rotate none ∨ a = .put nowMs ∨ a = .commit ∨ a = .trim := by
  simp only [uploadActions, List.cons_append, List.nil_append, List.mem_cons, List.mem_append,
    List.mem_replicate, List.not_mem_nil, or_false] at ha
  tauto

theorem run_commits {n : Node} (hup : n.up = true) (snap : Table Bytes PendingPart) (q : ℕ) :
    ∀ (cs : List Commit) (s : Storage),
      run Node.step { n with storage := s, phase := .committing snap cs q }
          (List.replicate cs.length .commit)
        = { n with storage := cs.foldl Storage.commitRef s, phase := .committing snap [] q } := by
  intro cs
  induction cs with
  | nil => intro s; rfl
  | cons c cs ih =>
    intro s
    rw [List.length_cons, List.replicate_succ, run_cons, List.foldl_cons, ← ih]
    rw [step, if_pos hup]
    rfl

theorem rotate_open {w : Wal} (h : w.closed = false) :
    w.rotate none =
      ({ w with segments := w.segments ++ [⟨w.activeSeq + 1, []⟩], activeSeq := w.activeSeq + 1 },
        some w.activeSeq) := by
  rw [Wal.rotate, h]
  rfl

/-- **The steps of an upload with nothing in between are `Storage.upload`.** -/
theorem run_upload {n : Node} (hup : n.up = true) (hidle : n.phase = .idle)
    (hne : n.storage.pending.entries ≠ []) (hopen : n.storage.wal.closed = false) (nowMs : ℤ) :
    run Node.step n (uploadActions nowMs (assemble
        (objectKey n.storage.nodeID (n.storage.uploadSeq + 1)) nowMs n.storage.pending).2.length)
      = { n with storage := n.storage.upload nowMs } := by
  -- up to the put
  have hput : run Node.step n [.swap, .rotate none, .put nowMs] = { n with
      storage := Storage.put { n.storage with
        pending := ∅, pendingBytes := 0, uploadSeq := n.storage.uploadSeq + 1
        wal := (n.storage.wal.rotate none).1 }
        (objectKey n.storage.nodeID (n.storage.uploadSeq + 1))
        (assemble (objectKey n.storage.nodeID (n.storage.uploadSeq + 1)) nowMs
          n.storage.pending).1
      phase := .committing n.storage.pending
        (assemble (objectKey n.storage.nodeID (n.storage.uploadSeq + 1)) nowMs
          n.storage.pending).2 n.storage.wal.activeSeq } := by
    simp only [run_cons, run_nil, step, hup, if_true, act, swap, hidle, Storage.takePending,
      if_neg hne, rotate, rotate_open hopen, put]
  rw [uploadActions, run_append, run_append, hput, run_commits hup]
  simp only [run_cons, run_nil, step, hup, if_true, act, trim, Storage.upload, Storage.takePending,
    if_neg hne, rotate_open hopen, hidle]

end Node

/-! ### What an upload commits -/

theorem foldl_commitRef (cs : List Commit) (s : Storage) :
    cs.foldl Storage.commitRef s
      = { s with index := cs.foldl (fun ix c => ix.commit c.indexKey c.ref) s.index } := by
  induction cs generalizing s with
  | nil => rfl
  | cons c cs ih => rw [List.foldl_cons, ih]; rfl

/-- Each partition gets its refs, in the store and in the cache. -/
theorem load_foldl_commit (cs : List Commit) (ix : Index) (k : Bytes) :
    (cs.foldl (fun ix c => ix.commit c.indexKey c.ref) ix).store.load k
        = ix.store.load k ++ (cs.filter (·.indexKey = k)).map (·.ref) ∧
      (cs.foldl (fun ix c => ix.commit c.indexKey c.ref) ix).refsFor k
        = ix.refsFor k ++ (cs.filter (·.indexKey = k)).map (·.ref) := by
  induction cs generalizing ix with
  | nil => exact ⟨(List.append_nil _).symm, (List.append_nil _).symm⟩
  | cons c cs ih =>
    obtain ⟨h₁, h₂⟩ := ih (ix.commit c.indexKey c.ref)
    rw [List.foldl_cons, h₁, h₂]
    simp only [Index.commit, Index.refsFor, IndexStore.load_commit, List.filter_cons]
    by_cases hk : c.indexKey = k
    · subst hk
      simp
    · simp [hk, Ne.symm hk]

theorem filter_eq_singleton {cs : List Commit} (hnd : (cs.map Commit.indexKey).Nodup) {c : Commit}
    (hc : c ∈ cs) : cs.filter (·.indexKey = c.indexKey) = [c] := by
  induction cs with
  | nil => cases hc
  | cons d cs ih =>
    obtain ⟨hd, hnd⟩ := List.nodup_cons.mp hnd
    have hrest : ∀ {e : Commit}, e ∈ cs → e.indexKey ≠ d.indexKey := by
      intro e he heq
      exact hd (heq ▸ List.mem_map_of_mem he)
    rcases List.mem_cons.mp hc with rfl | hc
    · rw [List.filter_cons_of_pos (by simp), List.filter_eq_nil_iff.mpr]
      intro e he
      simpa using hrest he
    · rw [List.filter_cons_of_neg (by simpa using (hrest hc).symm), ih hnd hc]

/-- The refs that an object is cut into: one for each part, to its batches. -/
theorem filter_assemble {snap : Table Bytes PendingPart}
    (hkeys : ∀ k pp, snap.lookup k = some pp → pp.indexKey = k) (key : Bytes) (nowMs : ℤ)
    (k : Bytes) :
    match snap.lookup k with
    | none => (assemble key nowMs snap).2.filter (·.indexKey = k) = []
    | some pp => ∃ c, (assemble key nowMs snap).2.filter (·.indexKey = k) = [c] ∧
        pp.FiledAs key nowMs (assemble key nowMs snap).1 c := by
  have hcommits := commitsOk_assemble hkeys key nowMs
  cases hsnap : snap.lookup k with
  | none =>
    refine List.filter_eq_nil_iff.mpr fun c hc heq => ?_
    obtain ⟨pp, hpp, -, -⟩ := hcommits.parts c hc
    rw [of_decide_eq_true heq, hsnap] at hpp
    cases hpp
  | some pp =>
    have hmem : k ∈ (assemble key nowMs snap).2.map Commit.indexKey := by
      rw [map_indexKey_assemble hkeys]
      apply (List.mem_insertionSort _).mpr
      apply AList.mem_keys.mp
      apply AList.lookup_isSome.mp
      rw [hsnap]
      rfl
    obtain ⟨c, hc, rfl⟩ := List.mem_map.mp hmem
    obtain ⟨pp', hpp', hfiled⟩ := exists_of_mem_assemble hc
    obtain ⟨j, -, hj⟩ := List.mem_filterMap.mp hpp'
    obtain ⟨pos, hcommit, -⟩ := id hfiled
    have hkey : c.indexKey = j := by rw [hcommit]; exact hkeys j pp' hj
    rw [hkey, hj] at hsnap
    cases hsnap
    exact ⟨c, filter_eq_singleton hcommits.nodup hc, hfiled⟩

/-- An upload that has something to upload, but for its object and its refs. -/
theorem upload_eq {s : Storage} (hopen : s.wal.closed = false) (hne : s.pending.entries ≠ [])
    (nowMs : ℤ) :
    let o := assemble (objectKey s.nodeID (s.uploadSeq + 1)) nowMs s.pending
    s.upload nowMs = { s with
      objects := s.objects.insert (objectKey s.nodeID (s.uploadSeq + 1)) o.1
      index := o.2.foldl (fun ix c => ix.commit c.indexKey c.ref) s.index
      wal := ((s.wal.rotate none).1).deleteThrough s.wal.activeSeq
      pending := ∅, pendingBytes := 0, uploadSeq := s.uploadSeq + 1 } := by
  rw [Storage.upload, Storage.takePending, if_neg hne]
  dsimp only
  rw [Node.rotate_open hopen]
  dsimp only
  rw [foldl_commitRef]
  rfl

/-- Each part of the buffer becomes a ref to its batches in the object of the upload. -/
theorem refs_upload {s : Storage}
    (hkeys : ∀ k pp, s.pending.lookup k = some pp → pp.indexKey = k)
    (hopen : s.wal.closed = false) (hne : s.pending.entries ≠ []) (nowMs : ℤ) (k : Bytes) :
    ∃ new, (s.upload nowMs).index.store.load k = s.index.store.load k ++ new ∧
      (s.upload nowMs).index.refsFor k = s.index.refsFor k ++ new ∧
      match s.pending.lookup k with
      | none => new = []
      | some pp => ∃ c, new = [c.ref] ∧ pp.FiledAs (objectKey s.nodeID (s.uploadSeq + 1)) nowMs
          (assemble (objectKey s.nodeID (s.uploadSeq + 1)) nowMs s.pending).1 c := by
  rw [upload_eq hopen hne]
  obtain ⟨hstore, hcache⟩ := load_foldl_commit
    (assemble (objectKey s.nodeID (s.uploadSeq + 1)) nowMs s.pending).2 s.index k
  have hfilter := filter_assemble hkeys (objectKey s.nodeID (s.uploadSeq + 1)) nowMs k
  refine ⟨_, hstore, hcache, ?_⟩
  cases hpend : s.pending.lookup k with
  | none => rw [hpend] at hfilter; rw [hfilter]; rfl
  | some pp =>
    rw [hpend] at hfilter
    obtain ⟨c, hc, hfiled⟩ := hfilter
    exact ⟨c, by rw [hc]; rfl, hfiled⟩

/-! ### What an append leaves -/

namespace Storage

/-- The storage after a write that succeeded. -/
def appended (s : Storage) (rec : WalRecord) (next : ℤ) : Storage :=
  Storage.appendPending { s with wal := (s.wal.append rec).getD s.wal } rec next

variable {s : Storage}

/-- A write leaves the write-ahead log open. -/
theorem closed_appended (rec : WalRecord) (next : ℤ) :
    (s.appended rec next).wal.closed = s.wal.closed := by
  change ((s.wal.append rec).getD s.wal).closed = s.wal.closed
  cases hw : s.wal.append rec with
  | none => rfl
  | some w => rw [Option.getD_some, Wal.append_eq_some hw]

theorem tidy_appended (h : s.wal.Tidy) (rec : WalRecord) (next : ℤ) :
    (s.appended rec next).wal.Tidy := by
  change ((s.wal.append rec).getD s.wal).Tidy
  cases hw : s.wal.append rec with
  | none => exact h
  | some w => exact (h.append hw).1

/-- The batch is at the end of the part of its partition. -/
theorem lookup_appended (rec : WalRecord) (next : ℤ) (k : Bytes) :
    (s.appended rec next).pending.lookup k =
      if k = rec.indexKey then
        some (((s.pending.lookup rec.indexKey).getD rec.part).add rec.batch next)
      else s.pending.lookup k :=
  Table.lookup_insert_ite _ _ _ _

end Storage

theorem Node.lookup_erase_insert {n : Node} (hquiet : ∀ k, n.appending.lookup k = none) (j : Bytes)
    (f : InFlight) (k : Bytes) : ((n.appending.insert j f).erase j).lookup k = none := by
  rw [Table.lookup_erase_ite]
  split
  · rfl
  · next hk => rw [AList.lookup_insert_ne hk, hquiet]

/-! ### Between the calls -/

/-- What holds between the calls of a run that began on an empty disk. -/
structure SeqInv (n : Node) : Prop extends Chained n where
  idle : n.phase = .idle
  quiet : ∀ k, n.appending.lookup k = none
  handle : n.storage.wal.closed = false
  tidy : n.storage.wal.Tidy
  trimmed : n.storage.pending.entries = [] → n.storage.wal.replay = []

theorem seqInv_fresh (nodeID : Bytes) : SeqInv (Node.fresh nodeID) where
  toChained := chained_fresh nodeID
  idle := rfl
  quiet := fun _ => rfl
  handle := rfl
  tidy := ⟨[], [], rfl, by simp⟩
  trimmed := fun _ => rfl

namespace SeqInv

variable {n : Node} (h : SeqInv n)
include h

theorem keys {k : Bytes} {pp : PendingPart} (hpp : n.storage.pending.lookup k = some pp) :
    pp.indexKey = k :=
  ((h.inv.parts k).pending pp hpp).1.key

/-- Between the calls no part is on its way, and the refs go up to the pending one. -/
theorem chain {k : Bytes} {l : ObjectLog} (hl : n.logs.lookup k = some l) :
    RefChain l.earliest (n.committed k) (baseOr (n.storage.pending.lookup k) l.nextOffset) := by
  have hrefs := h.refs k l hl
  rwa [Node.refEnd, h.idle] at hrefs

theorem openLog (topic : Bytes) (partition : ℤ) : SeqInv (n.openLog topic partition) := by
  have hchained := h.toChained.openLog topic partition
  rw [Node.openLog] at hchained ⊢
  cases hl : n.logs.lookup (indexKey topic partition) with
  | some l => exact h
  | none =>
    rw [hl] at hchained
    exact ⟨hchained, h.idle, h.quiet, h.handle, h.tidy, h.trimmed⟩

omit h in
/-- The two halves of an append, one after the other. -/
theorem write_addPending (rec : WalRecord) (next : ℤ) (replica : Bool) {l : ObjectLog}
    (hfree : n.free rec.indexKey = some l) (hopen : n.storage.wal.closed = false) :
    (n.write rec next replica).addPending rec.indexKey = { n with
      storage := n.storage.appended rec next
      logs := n.logs.insert rec.indexKey (l.advance next replica)
      appending := (n.appending.insert rec.indexKey ⟨rec, next, replica⟩).erase rec.indexKey } := by
  obtain ⟨hnone, hl⟩ := Node.free_eq_some hfree
  obtain ⟨w, happend⟩ : ∃ w, n.storage.wal.append rec = some w := by
    rw [Wal.append, hopen]
    exact ⟨_, rfl⟩
  rw [Node.write, Storage.appended, happend]
  dsimp only
  rw [Node.addPending, AList.lookup_insert]
  dsimp only
  rw [hl]
  rfl

/-- An append leaves a pending part and no append under way. -/
theorem write {rec : WalRecord} {next : ℤ} {replica : Bool} {l : ObjectLog}
    (hfree : n.free rec.indexKey = some l)
    (hchained : Chained ((n.write rec next replica).addPending rec.indexKey)) :
    SeqInv ((n.write rec next replica).addPending rec.indexKey) := by
  rw [write_addPending rec next replica hfree h.handle] at hchained ⊢
  refine ⟨hchained, h.idle, Node.lookup_erase_insert h.quiet _ _,
    (Storage.closed_appended _ _).trans h.handle, Storage.tidy_appended h.tidy _ _,
    fun hempty => ?_⟩
  have hself := Table.lookup_of_entries_nil hempty rec.indexKey
  rw [Storage.lookup_appended, if_pos rfl] at hself
  cases hself

theorem append {topic : Bytes} {partition : ℤ} {batch : Bytes}
    (ha : n.Advances (.append topic partition batch)) :
    SeqInv (n.call (.append topic partition batch)) := by
  have hchained : Chained ((n.append topic partition batch).addPending (indexKey topic partition)) :=
    (h.toChained.act (a := .append topic partition batch) fun _ => ha).addPending _
  show SeqInv ((n.append topic partition batch).addPending (indexKey topic partition))
  rcases n.append_cases topic partition batch with hn | ⟨l, hfree, -, -, hn⟩ <;>
    rw [hn] at hchained ⊢
  · rw [Node.addPending, h.quiet]; exact h
  · exact h.write hfree hchained

theorem appendReplica {topic : Bytes} {partition : ℤ} {batch : Bytes}
    (ha : n.Advances (.appendReplica topic partition batch)) :
    SeqInv (n.call (.appendReplica topic partition batch)) := by
  have hchained : Chained
      ((n.appendReplica topic partition batch).addPending (indexKey topic partition)) :=
    (h.toChained.act (a := .appendReplica topic partition batch) fun _ => ha).addPending _
  show SeqInv ((n.appendReplica topic partition batch).addPending (indexKey topic partition))
  rcases n.appendReplica_cases topic partition batch with hn | ⟨l, hfree, -, -, hn⟩ <;>
    rw [hn] at hchained ⊢
  · rw [Node.addPending, h.quiet]; exact h
  · exact h.write hfree hchained

omit h in
theorem upload_of_empty {s : Storage} (h : s.pending.entries = []) (nowMs : ℤ) :
    s.upload nowMs = s := by
  rw [Storage.upload, Storage.takePending, if_pos h]

theorem wal_upload (hne : n.storage.pending.entries ≠ []) (nowMs : ℤ) :
    (n.storage.upload nowMs).wal.Tidy ∧ (n.storage.upload nowMs).wal.replay = [] := by
  rw [upload_eq h.handle hne, Node.rotate_open h.handle]
  exact h.tidy.rotate_deleteThrough (Node.rotate_open h.handle)

/-- An upload leaves the log of records empty, with the buffer. -/
theorem upload (nowMs : ℤ) : SeqInv (n.call (.upload nowMs)) := by
  show SeqInv { n with storage := n.storage.upload nowMs }
  by_cases hne : n.storage.pending.entries = []
  · rw [upload_of_empty hne]; exact h
  · have hchained : Chained { n with storage := n.storage.upload nowMs } := by
      rw [← Node.run_upload h.up h.idle hne h.handle nowMs]
      refine h.toChained.run ((along_of_forall fun a ha => Node.of_mem_uploadActions ha).mono ?_)
      rintro m a (rfl | rfl | rfl | rfl | rfl) <;> trivial
    obtain ⟨htidy, hreplay⟩ := h.wal_upload hne nowMs
    refine ⟨hchained, h.idle, h.quiet, ?_, htidy, fun _ => hreplay⟩
    show (n.storage.upload nowMs).wal.closed = false
    rw [upload_eq h.handle hne, Node.rotate_open h.handle]
    exact h.handle

theorem enforceRetention (k : Bytes) (nowMs maxAgeMs maxBytes : ℤ) :
    SeqInv (n.enforceRetention k nowMs maxAgeMs maxBytes) := by
  have hchained := h.toChained.enforceRetention k nowMs maxAgeMs maxBytes
  rcases n.enforceRetention_cases k nowMs maxAgeMs maxBytes with
    hn | ⟨l, -, hn | ⟨d, r, -, -, hn⟩⟩ <;> rw [hn] at hchained ⊢
  · exact h
  · exact ⟨hchained, h.idle, h.quiet, h.handle, h.tidy, h.trimmed⟩
  · exact ⟨hchained, h.idle, h.quiet, h.handle, h.tidy, h.trimmed⟩

/-- **Every call keeps the invariant.** -/
theorem call {c : Call} (hc : n.CallAdvances c) : SeqInv (n.call c) := by
  cases c with
  | openLog topic partition => exact h.openLog topic partition
  | append topic partition batch => exact h.append hc
  | appendReplica topic partition batch => exact h.appendReplica hc
  | upload nowMs => exact h.upload nowMs
  | enforceRetention topic partition nowMs maxAgeMs maxBytes =>
    exact h.enforceRetention _ nowMs maxAgeMs maxBytes

/-! ### Reopening -/

/-- A clean shutdown leaves a storage that opens without anything to replay. -/
theorem newStorage_close (nowMs : ℤ) :
    newStorage n.storage.nodeID (n.storage.close nowMs).objects
        (n.storage.close nowMs).index.store (n.storage.close nowMs).wal.segments
      = .ok { nodeID := n.storage.nodeID, objects := (n.storage.close nowMs).objects
              index := ⟨(n.storage.close nowMs).index.store, ∅⟩
              wal := openWal (n.storage.close nowMs).wal.segments
              pending := ∅, pendingBytes := 0, uploadSeq := 0, recBase := ∅, recNext := ∅ } := by
  have hreplay : (n.storage.close nowMs).wal.replay = [] := by
    by_cases hne : n.storage.pending.entries = []
    · rw [Storage.close, upload_of_empty hne]
      exact h.trimmed hne
    · exact (h.wal_upload hne nowMs).2
  have hopened : (openWal (n.storage.close nowMs).wal.segments).replay = [] := by
    rw [Wal.replay, openWal, List.flatMap_append]
    exact (congrArg (· ++ _) hreplay).trans rfl
  rw [newStorage]
  dsimp only
  rw [hopened]
  rfl

omit h in
/-- A handle on refs without gaps, and with no recovered record: it starts and ends
where they do, or at zero. -/
theorem log_of_refChain {s : Storage} (topic : Bytes) (partition : ℤ) {a z : ℤ}
    (hchain : RefChain a (s.index.store.load (indexKey topic partition)) z)
    (hnext : s.recNext = ∅) (hbase : s.recBase = ∅) :
    ((s.log topic partition).2.nextOffset, (s.log topic partition).2.earliest)
      = if s.index.store.load (indexKey topic partition) = [] then (0, 0) else (z, a) := by
  have hrefs : (s.index.load (indexKey topic partition)).refsFor (indexKey topic partition)
      = s.index.store.load (indexKey topic partition) := by
    rw [Index.refsFor, Index.load, IndexStore.load_insert, if_pos rfl, hchain.sortRefs_eq]
  simp only [Storage.log, Storage.seedNext, Storage.seedEarliest, Index.latest, Index.earliest,
    hrefs, hnext, hbase, AList.lookup_empty]
  by_cases hnil : s.index.store.load (indexKey topic partition) = []
  · rw [if_pos hnil, hnil]; rfl
  · rw [if_neg hnil, hchain.last_next hnil, hchain.head_base hnil]; rfl

/-- After a clean shutdown nothing is pending, and a partition has refs if it had refs
or pending batches before. -/
theorem close_refs (nowMs : ℤ) (k : Bytes) :
    (n.storage.close nowMs).pending.lookup k = none ∧
      ((n.storage.close nowMs).index.store.load k = [] ↔
        n.committed k = [] ∧ n.storage.pending.lookup k = none) := by
  by_cases hne : n.storage.pending.entries = []
  · have hnone := Table.lookup_of_entries_nil hne k
    rw [Storage.close, upload_of_empty hne]
    exact ⟨hnone, fun hnil => ⟨hnil, hnone⟩, fun hnil => hnil.1⟩
  · obtain ⟨new, hstore, -, hnew⟩ := refs_upload (fun _ _ => h.keys) h.handle hne nowMs k
    refine ⟨by rw [Storage.close, upload_eq h.handle hne]; rfl, ?_⟩
    rw [Storage.close, hstore, List.append_eq_nil_iff]
    cases hp : n.storage.pending.lookup k with
    | none => rw [hp] at hnew; cases hnew; simp [Node.committed]
    | some pp =>
      rw [hp] at hnew
      obtain ⟨r, rfl, -, -⟩ := hnew
      simp

end SeqInv

/-- **The reopened handle has the log end and the earliest offset of the old one
exactly when the partition had a ref or a pending batch left at the shutdown**, or its
log end was zero. -/
theorem reopen_agrees_iff (nodeID : Bytes) (calls : List Call)
    (h : Along Node.call Node.CallAdvances (Node.fresh nodeID) calls)
    (topic : Bytes) (partition nowMs : ℤ) (l : ObjectLog)
    (hl : (run Node.call (Node.fresh nodeID) calls).logs.lookup (indexKey topic partition)
      = some l) :
    let n := run Node.call (Node.fresh nodeID) calls
    let closed := n.storage.close nowMs
    ∃ s, newStorage n.storage.nodeID closed.objects closed.index.store closed.wal.segments = .ok s ∧
      (((s.log topic partition).2.nextOffset = l.nextOffset ∧
          (s.log topic partition).2.earliest = l.earliest) ↔
        n.committed (indexKey topic partition) ≠ [] ∨
          n.storage.pending.lookup (indexKey topic partition) ≠ none ∨ l.nextOffset = 0) := by
  intro n closed
  have hn : SeqInv n := (h.always (seqInv_fresh nodeID) fun m c hm hc => hm.call hc).final
  have hn' : SeqInv { n with storage := closed } := hn.upload nowMs
  refine ⟨_, hn.newStorage_close nowMs, ?_⟩
  obtain ⟨hnone, hrefs⟩ := hn.close_refs nowMs (indexKey topic partition)
  have hchain := hn'.chain hl
  have hchain : RefChain l.earliest (closed.index.store.load (indexKey topic partition))
      l.nextOffset := by
    rwa [show closed.pending.lookup (indexKey topic partition) = none from hnone, baseOr_none]
      at hchain
  have hlog := SeqInv.log_of_refChain (s := { nodeID := n.storage.nodeID, objects := closed.objects
                                              index := ⟨closed.index.store, ∅⟩
                                              wal := openWal closed.wal.segments
                                              pending := ∅, pendingBytes := 0, uploadSeq := 0
                                              recBase := ∅, recNext := ∅ })
    topic partition hchain rfl rfl
  obtain ⟨hnext, hearliest⟩ := Prod.ext_iff.mp hlog
  dsimp only at hnext hearliest
  rw [hnext, hearliest]
  by_cases hnil : closed.index.store.load (indexKey topic partition) = []
  · -- without a ref the handle is empty, and starts where it ends
    obtain ⟨hempty, hpend⟩ := hrefs.mp hnil
    rw [hnil] at hchain
    rw [if_pos hnil, show l.earliest = l.nextOffset from hchain]
    constructor
    · rintro ⟨hzero, -⟩; exact .inr (.inr hzero.symm)
    · rintro (hc | hp | hzero)
      · exact absurd hempty hc
      · exact absurd hpend hp
      · exact ⟨hzero.symm, hzero.symm⟩
  · rw [if_neg hnil]
    constructor
    · intro _
      by_contra hnot
      push Not at hnot
      exact hnil (hrefs.mpr ⟨hnot.1, hnot.2.1⟩)
    · intro _; exact ⟨rfl, rfl⟩

/-- Two uploads, of which retention drops the first, and a batch that is pending. -/
def keptCalls : List Call :=
  [.openLog [116] 0, .append [116] 0 (makeBatch 2 []), .upload 5, .append [116] 0 (makeBatch 1 []),
    .upload 7, .enforceRetention [116] 0 7 1 0, .append [116] 0 (makeBatch 3 [])]

/-- The handle before the shutdown. -/
def keptLog : ObjectLog := ⟨6, 6, false, 2⟩

theorem reopen_agrees_kept :
    let n := run Node.call (Node.fresh [49]) keptCalls
    let closed := n.storage.close 9
    ∃ s, newStorage n.storage.nodeID closed.objects closed.index.store closed.wal.segments = .ok s ∧
      (((s.log [116] 0).2.nextOffset = keptLog.nextOffset ∧
          (s.log [116] 0).2.earliest = keptLog.earliest) ↔
        n.committed (indexKey [116] 0) ≠ [] ∨
          n.storage.pending.lookup (indexKey [116] 0) ≠ none ∨ keptLog.nextOffset = 0) :=
  reopen_agrees_iff [49] keptCalls (by decide +kernel) [116] 0 9 keptLog (by decide +kernel)

/-- An upload whose only ref retention drops. -/
def droppedCalls : List Call :=
  [.openLog [116] 0, .append [116] 0 (makeBatch 2 []), .upload 5, .enforceRetention [116] 0 7 1 0]

/-- The log end was two.  After a clean shutdown the handle is opened at zero, so the
offsets zero and one are given out again. -/
theorem reopen_forgets_offsets :
    let n := run Node.call (Node.fresh [49]) droppedCalls
    let closed := n.storage.close 9
    Along Node.call Node.CallAdvances (Node.fresh [49]) droppedCalls ∧
      n.logs.lookup (indexKey [116] 0) = some ⟨2, 2, false, 2⟩ ∧
      ((newStorage n.storage.nodeID closed.objects closed.index.store closed.wal.segments).toOption.map
        fun s => (s.log [116] 0).2) = some ⟨0, 0, false, 0⟩ := by
  decide +kernel

end Object
end Mq
