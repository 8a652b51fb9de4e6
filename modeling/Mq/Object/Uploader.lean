import Mq.Object.Parts

/-!
# The uploader's invariant

Whatever the schedule of appends, uploads and retention passes, every partition's
batches stay in order on their way to the index, and the byte counter of the buffer
is right.  It does not matter whether the uploads succeed or fail.

## Main definitions

* `Phase.outstanding` — the part of a partition that the upload under way has taken
  and not committed.
* `Node.Inv` — the invariant.
* `Node.Advances` — an append moves the log end.

## Main results

* `Node.Inv.step` — **every action keeps the invariant**, one lemma for each.
* `inv_run` — it holds in every state of a run.
-/

namespace Mq
namespace Object

open Word Record Transition

/-! ### The invariant -/

/-- The part of a partition that an upload has taken and not committed. -/
def Phase.outstanding : Phase → Bytes → Option PendingPart
  | .idle, _ => none
  | .swapped snap _, k => snap.lookup k
  | .rotated snap _ _, k => snap.lookup k
  | .committing snap commits _, k =>
    if k ∈ commits.map Commit.indexKey then snap.lookup k else none

/-- The refs to commit are one for each part that is left, with its offsets. -/
structure CommitsOk (snap : Table Bytes PendingPart) (commits : List Commit) : Prop where
  nodup : (commits.map Commit.indexKey).Nodup
  parts : ∀ c ∈ commits, ∃ pp, snap.lookup c.indexKey = some pp ∧
    c.ref.baseOffset = pp.baseOffset ∧ c.ref.nextOffset = pp.nextOffset

def Phase.Ok : Phase → Prop
  | .committing snap commits _ => CommitsOk snap commits
  | _ => True

namespace Node

/-- The log end of a partition: that of its handle, or the one that a handle would be
opened at. -/
def logEnd (n : Node) (k : Bytes) : ℤ :=
  match n.logs.lookup k with
  | some l => l.nextOffset
  | none => n.storage.openEnd k

/-- The places of a partition fit together. -/
def PartOk (n : Node) (k : Bytes) : Prop :=
  Object.PartOk k (n.logEnd k) (n.committed k) (n.phase.outstanding k)
    (n.storage.pending.lookup k) (n.appending.lookup k)

/-- What holds while a process runs. -/
structure Inv (n : Node) : Prop where
  parts : ∀ k, n.PartOk k
  bytes : n.storage.pendingBytes = Table.total PendingPart.bytes n.storage.pending
  phase : n.phase.Ok
  opened : ∀ k f, n.appending.lookup k = some f → ∃ l, n.logs.lookup k = some l

theorem logEnd_of_lookup {n : Node} {k : Bytes} {l : ObjectLog} (h : n.logs.lookup k = some l) :
    n.logEnd k = l.nextOffset := by rw [logEnd, h]

/-- The log end depends on the handle, the committed refs and what was recovered. -/
theorem logEnd_congr {n n' : Node} {k : Bytes} (hlogs : n'.logs.lookup k = n.logs.lookup k)
    (hrefs : n'.committed k = n.committed k)
    (hrec : n'.storage.recNext = n.storage.recNext) : n'.logEnd k = n.logEnd k := by
  unfold committed at hrefs
  rw [logEnd, logEnd, hlogs, Storage.openEnd_eq, Storage.openEnd_eq, hrefs, hrec]

/-- A partition that a step does not touch. -/
theorem PartOk.of_eq {n n' : Node} {k : Bytes} (h : n.PartOk k)
    (hlogs : n'.logs.lookup k = n.logs.lookup k) (hrefs : n'.committed k = n.committed k)
    (hrec : n'.storage.recNext = n.storage.recNext)
    (hout : n'.phase.outstanding k = n.phase.outstanding k)
    (hpend : n'.storage.pending.lookup k = n.storage.pending.lookup k)
    (happ : n'.appending.lookup k = n.appending.lookup k) : n'.PartOk k := by
  unfold PartOk at h ⊢
  rwa [logEnd_congr hlogs hrefs hrec, hrefs, hout, hpend, happ]

theorem logEnd_fresh (nodeID k : Bytes) : (fresh nodeID).logEnd k = 0 := by
  show (fresh nodeID).storage.openEnd k = 0
  rw [Storage.openEnd_eq]
  rfl

theorem inv_fresh (nodeID : Bytes) : (fresh nodeID).Inv where
  parts := by
    intro k
    unfold PartOk
    rw [logEnd_fresh]
    exact Object.PartOk.empty k
  bytes := rfl
  phase := trivial
  opened := by intro k f h; cases h

/-! ### Appends -/

/-- The batch of an append covers at least one offset, so that the log end moves.  A
replica's batch is only written if it starts at the log end. -/
def Advances (n : Node) : Action → Prop
  | .append topic partition batch =>
    ∀ l ∈ n.logs.lookup (indexKey topic partition),
      l.nextOffset < nextOf (stamp l.nextOffset batch)
  | .appendReplica topic partition batch =>
    ∀ l ∈ n.logs.lookup (indexKey topic partition),
      (header batch).baseOffset = l.nextOffset → l.nextOffset < nextOf batch
  | _ => True

instance (n : Node) (a : Action) : Decidable (n.Advances a) := by
  cases a <;> unfold Advances <;> infer_instance

/-- A handle is opened at the log end there was. -/
theorem logEnd_openLog (n : Node) (topic : Bytes) (partition : ℤ) (k : Bytes) :
    (n.openLog topic partition).logEnd k = n.logEnd k := by
  rw [Node.openLog]
  cases hl : n.logs.lookup (indexKey topic partition) with
  | some l => rfl
  | none =>
    by_cases hk : k = indexKey topic partition
    · subst hk
      rw [logEnd_of_lookup (AList.lookup_insert _), Storage.nextOffset_log, logEnd, hl]
    · exact logEnd_congr (AList.lookup_insert_ne hk) rfl rfl

namespace Inv

variable {n : Node} (h : n.Inv)
include h

theorem openLog (topic : Bytes) (partition : ℤ) : (n.openLog topic partition).Inv := by
  have hend := n.logEnd_openLog topic partition
  rw [Node.openLog] at hend ⊢
  cases hl : n.logs.lookup (indexKey topic partition) with
  | some l => exact h
  | none =>
    rw [hl] at hend
    refine ⟨?_, h.bytes, h.phase, ?_⟩
    · intro k
      have hend := hend k
      dsimp only at hend
      have hk := h.parts k
      unfold Node.PartOk at hk ⊢
      rwa [hend]
    · intro k f hf
      obtain ⟨l, hlk⟩ := h.opened k f hf
      refine ⟨l, ?_⟩
      rw [Table.lookup_insert_ite, if_neg, hlk]
      rintro rfl
      rw [hl] at hlk
      cases hlk

theorem write {rec : WalRecord} {next : ℤ} {replica : Bool} {l : ObjectLog}
    (hfree : n.free rec.indexKey = some l)
    (hf : InFlight.Ok ⟨rec, next, replica⟩ rec.indexKey l.nextOffset) :
    (n.write rec next replica).Inv := by
  obtain ⟨hnone, hl⟩ := free_eq_some hfree
  rcases n.write_cases rec next replica with hn | ⟨w, -, hn⟩ <;> rw [hn]
  · exact h
  · refine ⟨?_, h.bytes, h.phase, ?_⟩
    · intro k
      have hk := h.parts k
      unfold Node.PartOk at hk ⊢
      dsimp only
      rw [Table.lookup_insert_ite]
      split
      · next heq =>
        subst heq
        rw [hnone] at hk
        exact hk.write (by rw [logEnd_of_lookup hl]; exact hf)
      · exact hk
    · exact Table.forall_lookup_insert ⟨l, hl⟩ fun k f _ hk => h.opened k f hk

theorem append {topic : Bytes} {partition : ℤ} {batch : Bytes}
    (ha : n.Advances (.append topic partition batch)) : (n.append topic partition batch).Inv := by
  rcases n.append_cases topic partition batch with hn | ⟨l, hfree, -, hlen, hn⟩ <;> rw [hn]
  · exact h
  · obtain ⟨-, hl⟩ := free_eq_some hfree
    have hrange : wrap64 l.nextOffset = l.nextOffset :=
      logEnd_of_lookup hl ▸ (h.parts (indexKey topic partition)).range
    refine h.write hfree ⟨rfl, rfl, ?_, rfl, ha l hl⟩
    rw [header_stamp hlen, hrange]

theorem appendReplica {topic : Bytes} {partition : ℤ} {batch : Bytes}
    (ha : n.Advances (.appendReplica topic partition batch)) :
    (n.appendReplica topic partition batch).Inv := by
  rcases n.appendReplica_cases topic partition batch with hn | ⟨l, hfree, -, hbase, hn⟩ <;> rw [hn]
  · exact h
  · obtain ⟨-, hl⟩ := free_eq_some hfree
    exact h.write hfree ⟨rfl, hbase, hbase, rfl, ha l hl hbase⟩

theorem addPending (k : Bytes) : (n.addPending k).Inv := by
  rw [Node.addPending]
  cases hf : n.appending.lookup k with
  | none => exact h
  | some f =>
    obtain ⟨l, hl⟩ := h.opened k f hf
    have hk := h.parts k
    unfold Node.PartOk at hk
    rw [hf] at hk
    have hkey : f.record.indexKey = k := (hk.appending f rfl).key
    obtain ⟨hadd, -⟩ := hk.add
    rw [hl]
    dsimp only
    refine ⟨?_, ?_, h.phase, ?_⟩
    · intro j
      have hlook := lookup_appendPending n.storage hkey j
      by_cases hj : j = k
      · subst hj
        rw [if_pos rfl] at hlook
        unfold Node.PartOk
        dsimp only
        rw [hlook, AList.lookup_erase, logEnd_of_lookup (AList.lookup_insert _)]
        exact hadd
      · rw [if_neg hj] at hlook
        exact (h.parts j).of_eq (AList.lookup_insert_ne hj) rfl rfl rfl hlook
          (AList.lookup_erase_ne hj)
    · exact appendPending_bytes h.bytes f.record f.next
    · intro j g hg
      rw [Table.lookup_insert_ite]
      split
      · exact ⟨_, rfl⟩
      · next hj => rw [AList.lookup_erase_ne hj] at hg; exact h.opened j g hg

end Inv

/-! ### Uploads -/

end Node

variable {snap : Table Bytes PendingPart}

section Keys

variable (hkeys : ∀ k pp, snap.lookup k = some pp → pp.indexKey = k)
include hkeys

theorem map_indexKey_filterMap :
    ∀ ks : List Bytes, (∀ k ∈ ks, k ∈ snap) →
      (ks.filterMap fun k => snap.lookup k).map PendingPart.indexKey = ks := by
  intro ks
  induction ks with
  | nil => intro _; rfl
  | cons k ks ih =>
    intro hmem
    obtain ⟨pp, hpp⟩ := Option.isSome_iff_exists.mp
      (AList.lookup_isSome.mpr (hmem k List.mem_cons_self))
    rw [List.filterMap_cons_some (f := fun k => snap.lookup k) hpp, List.map_cons, hkeys k pp hpp,
      ih fun j hj => hmem j (List.mem_cons_of_mem k hj)]

/-- The refs of an upload are filed under the keys of its parts, in order. -/
theorem map_indexKey_assemble (key : Bytes) (nowMs : ℤ) :
    (assemble key nowMs snap).2.map Commit.indexKey = snap.keys.insertionSort (· ≤ ·) := by
  have hmap : (assemble key nowMs snap).2.map Commit.indexKey
      = (sortedParts snap).map PendingPart.indexKey := by
    have hall := assemble_commits key nowMs snap
    generalize (assemble key nowMs snap).1 = buf at hall
    generalize (assemble key nowMs snap).2 = cs at hall ⊢
    generalize sortedParts snap = parts at hall ⊢
    induction hall with
    | nil => rfl
    | cons hd _ ih =>
      obtain ⟨pos, rfl, -⟩ := hd
      rw [List.map_cons, List.map_cons, ih]
      rfl
  rw [hmap, sortedParts, map_indexKey_filterMap hkeys]
  intro k hk
  exact AList.mem_keys.mpr ((List.mem_insertionSort _).mp hk)

/-- Every part gets its ref. -/
theorem commitsOk_assemble (key : Bytes) (nowMs : ℤ) :
    CommitsOk snap (assemble key nowMs snap).2 := by
  constructor
  · rw [map_indexKey_assemble hkeys]
    exact (List.perm_insertionSort _ _).nodup_iff.mpr snap.keys_nodup
  · intro c hc
    obtain ⟨pp, hpp, pos, rfl, -⟩ := exists_of_mem_assemble hc
    obtain ⟨k, -, hk⟩ := List.mem_filterMap.mp hpp
    refine ⟨pp, ?_, rfl, rfl⟩
    show snap.lookup pp.indexKey = some pp
    rw [hkeys k pp hk, hk]

theorem outstanding_assemble (key : Bytes) (nowMs : ℤ) (sealedThrough : ℕ) (k : Bytes) :
    (Phase.committing snap (assemble key nowMs snap).2 sealedThrough).outstanding k
      = snap.lookup k := by
  rw [Phase.outstanding, map_indexKey_assemble hkeys]
  split
  · rfl
  · next hk =>
    symm
    apply AList.lookup_eq_none.mpr
    intro hmem
    exact hk ((List.mem_insertionSort _).mpr (AList.mem_keys.mp hmem))

end Keys

namespace Node

/-- A commit for a partition without a handle does not move the log end that a handle
would be opened at. -/
theorem openEnd_commitRef {s : Storage} {c : Commit} {S : PendingPart} {pend : Option PendingPart}
    {flying : Option InFlight}
    (h : Object.PartOk c.indexKey (s.openEnd c.indexKey) (s.index.store.load c.indexKey) (some S)
      pend flying)
    (hbase : c.ref.baseOffset = S.baseOffset) (hnext : c.ref.nextOffset = S.nextOffset) :
    (s.commitRef c).openEnd c.indexKey = s.openEnd c.indexKey := by
  obtain ⟨hS, hlast⟩ := h.taken S rfl
  have hsort : sortRefs ((s.commitRef c).index.store.load c.indexKey)
      = sortRefs (s.index.store.load c.indexKey) ++ [c.ref] := by
    show sortRefs ((s.index.store.commit c.indexKey c.ref).load c.indexKey) = _
    rw [IndexStore.load_commit, if_pos rfl]
    apply sortRefs_snoc
    intro r hr
    obtain ⟨h₁, h₂⟩ := h.below r hr
    rw [hbase]
    exact h₁.trans h₂
  -- the refs end before the part, so the end of the log comes from what was recovered
  have hrefs : ((sortRefs (s.index.store.load c.indexKey)).getLast?.map (·.nextOffset)).getD 0
      ≤ S.baseOffset := by
    cases hlast : (sortRefs (s.index.store.load c.indexKey)).getLast? with
    | none => exact h.nonneg
    | some r => exact (h.below r ((List.mem_insertionSort _).mp (List.mem_of_getLast? hlast))).2
  have hlt : S.baseOffset < S.nextOffset := hS.contiguous.lt hS.ne_nil
  have hle : S.nextOffset ≤ s.openEnd c.indexKey := by
    rw [hlast]
    cases pend with
    | none => exact le_rfl
    | some P =>
      obtain ⟨hP, hend⟩ := h.pending P rfl
      rw [baseOr_some, ← hend]
      exact hP.contiguous.le
  rw [Storage.openEnd_eq] at hle ⊢
  have hrecNext : (s.commitRef c).recNext = s.recNext := rfl
  rw [Storage.openEnd_eq, hsort, List.getLast?_append, List.getLast?_singleton, Option.some_or,
    Option.map_some, Option.getD_some, hnext, hrecNext]
  cases hrec : s.recNext.lookup c.indexKey with
  | none => rw [hrec] at hle; dsimp only at hle ⊢; omega
  | some r => rw [hrec] at hle; dsimp only at hle ⊢; split at hle <;> split <;> omega

theorem logEnd_commitRef {n : Node} {c : Commit} {S : PendingPart} {pend : Option PendingPart}
    {flying : Option InFlight} {phase : Phase}
    (h : Object.PartOk c.indexKey (n.logEnd c.indexKey) (n.committed c.indexKey) (some S)
      pend flying)
    (hbase : c.ref.baseOffset = S.baseOffset) (hnext : c.ref.nextOffset = S.nextOffset) :
    Node.logEnd { n with storage := n.storage.commitRef c, phase := phase } c.indexKey
      = n.logEnd c.indexKey := by
  unfold logEnd at h ⊢
  dsimp only
  cases hl : n.logs.lookup c.indexKey with
  | some l => rfl
  | none =>
    rw [hl] at h
    exact openEnd_commitRef h hbase hnext

namespace Inv

variable {n : Node} (h : n.Inv)
include h

/-- A step that leaves the parts where they are. -/
theorem of_outstanding {w : Wal} {objects : Table Bytes Bytes} {uploadSeq : ℕ} {phase : Phase}
    (hout : ∀ k, phase.outstanding k = n.phase.outstanding k) (hphase : phase.Ok) :
    Inv { n with
      storage := { n.storage with wal := w, objects := objects, uploadSeq := uploadSeq }
      phase := phase } := by
  refine ⟨?_, h.bytes, hphase, h.opened⟩
  intro k
  exact (h.parts k).of_eq rfl rfl rfl (hout k) rfl rfl

variable {snap : Table Bytes PendingPart}

/-- The parts that an upload has taken are filed under their own keys. -/
theorem keys_of_outstanding (hsnap : ∀ k, n.phase.outstanding k = snap.lookup k) :
    ∀ k pp, snap.lookup k = some pp → pp.indexKey = k := by
  intro k pp hpp
  exact ((h.parts k).taken pp ((hsnap k).trans hpp)).1.key

theorem swap : n.swap.Inv := by
  rcases n.swap_cases with hn | ⟨hidle, -, hn⟩ <;> rw [hn]
  · exact h
  · refine ⟨?_, rfl, trivial, h.opened⟩
    intro k
    have hk := h.parts k
    unfold Node.PartOk at hk
    rw [hidle] at hk
    exact Object.PartOk.swap hk

/-- A failed upload puts its parts back. -/
theorem restore (hsnap : ∀ k, n.phase.outstanding k = snap.lookup k) (w : Wal)
    (objects : Table Bytes Bytes) :
    Inv { n with
      storage := Storage.restore { n.storage with wal := w, objects := objects } snap
      phase := .idle } := by
  refine ⟨?_, rfl, trivial, h.opened⟩
  intro k
  have hk := h.parts k
  unfold Node.PartOk at hk ⊢
  rw [hsnap k] at hk
  have hrest := hk.restore
  rwa [← Table.lookup_overlay] at hrest

theorem rotate (fault : Option RotateFault) : (n.rotate fault).Inv := by
  rcases n.rotate_cases fault with hn | ⟨snap, seq, hp, ⟨w, -, hn⟩ | ⟨w, sealedThrough, -, hn⟩⟩ <;>
    rw [hn]
  · exact h
  · exact h.restore (fun k => by rw [hp]; rfl) w n.storage.objects
  · exact h.of_outstanding (fun k => by rw [hp]; rfl) trivial

theorem put (nowMs : ℤ) : (n.put nowMs).Inv := by
  rcases n.put_cases nowMs with hn | ⟨snap, seq, sealedThrough, hp, hn⟩ <;> rw [hn]
  · exact h
  · have hout : ∀ k, n.phase.outstanding k = snap.lookup k := fun k => by rw [hp]; rfl
    have hkeys := h.keys_of_outstanding hout
    refine h.of_outstanding (fun k => ?_) (commitsOk_assemble hkeys _ nowMs)
    rw [outstanding_assemble hkeys, hp]
    rfl

theorem putFail (nowMs : ℤ) (stored : Bool) : (n.putFail nowMs stored).Inv := by
  rcases n.putFail_cases nowMs stored with hn | ⟨snap, seq, sealedThrough, hp, s, hs, hn⟩ <;> rw [hn]
  · exact h
  · have hsnap : ∀ k, n.phase.outstanding k = snap.lookup k := fun k => by rw [hp]; rfl
    rcases hs with rfl | rfl
    · exact h.restore hsnap n.storage.wal n.storage.objects
    · exact h.restore hsnap n.storage.wal _

/-- The ref that is committed next is that of a part, and no other part has its key. -/
theorem next_commit {c : Commit} {cs : List Commit} {q : ℕ}
    (hp : n.phase = .committing snap (c :: cs) q) :
    ∃ S, n.phase.outstanding c.indexKey = some S ∧ c.ref.baseOffset = S.baseOffset ∧
      c.ref.nextOffset = S.nextOffset ∧
      ∀ k, (Phase.committing snap cs q).outstanding k
        = if k = c.indexKey then none else n.phase.outstanding k := by
  have hok : CommitsOk snap (c :: cs) := by have := h.phase; rwa [hp] at this
  obtain ⟨S, hS, hbase, hnext⟩ := hok.parts c List.mem_cons_self
  rw [hp]
  refine ⟨S, by simp [Phase.outstanding, hS], hbase, hnext, fun k => ?_⟩
  split
  · next hk => rw [hk]; exact if_neg (List.nodup_cons.mp hok.nodup).1
  · next hk => simp only [Phase.outstanding, List.map_cons, List.mem_cons, hk, false_or]

theorem logEnd_commit (k : Bytes) : n.commit.logEnd k = n.logEnd k := by
  rcases n.commit_cases with hn | ⟨snap, c, cs, q, hp, hn⟩ <;> rw [hn]
  obtain ⟨S, hS, hbase, hnext, -⟩ := h.next_commit hp
  by_cases hk : k = c.indexKey
  · subst hk
    have hpart := h.parts c.indexKey
    unfold Node.PartOk at hpart
    rw [hS] at hpart
    exact logEnd_commitRef hpart hbase hnext
  · exact logEnd_congr rfl ((IndexStore.load_commit ..).trans (if_neg hk)) rfl

theorem commit : n.commit.Inv := by
  have hend := h.logEnd_commit
  rcases n.commit_cases with hn | ⟨snap, c, cs, q, hp, hn⟩ <;> rw [hn] at hend ⊢
  · exact h
  · obtain ⟨S, hS, hbase, hnext, hout⟩ := h.next_commit hp
    have hok : CommitsOk snap (c :: cs) := by have := h.phase; rwa [hp] at this
    refine ⟨?_, h.bytes, ⟨(List.nodup_cons.mp hok.nodup).2,
      fun d hd => hok.parts d (List.mem_cons_of_mem c hd)⟩, h.opened⟩
    intro k
    have hload := IndexStore.load_commit n.storage.index.store c.indexKey k c.ref
    by_cases hk : k = c.indexKey
    · have hpart := h.parts c.indexKey
      subst hk
      unfold Node.PartOk at hpart ⊢
      rw [hend]
      rw [hS] at hpart
      show Object.PartOk _ _ ((n.storage.index.store.commit c.indexKey c.ref).load c.indexKey)
        ((Phase.committing snap cs q).outstanding c.indexKey) _ _
      rw [hload, hout, if_pos rfl, if_pos rfl]
      exact hpart.commit hbase hnext
    · exact (h.parts k).of_eq rfl (hload.trans (if_neg hk)) rfl ((hout k).trans (if_neg hk)) rfl rfl

theorem commitFail (stored : Bool) : (n.commitFail stored).Inv := by
  rcases n.commitFail_cases stored with hn | ⟨snap, c, cs, sealedThrough, hp, hn | hn⟩ <;> rw [hn]
  · exact h
  · exact ⟨fun k => (h.parts k).drop, h.bytes, trivial, h.opened⟩
  · -- as after the commit, with the parts that are left dropped
    have hcommit := h.commit
    rw [Node.commit, hp] at hcommit
    refine ⟨fun k => ?_, h.bytes, trivial, h.opened⟩
    have hpart : Node.PartOk { n with storage := n.storage.commitRef c, phase := .idle } k :=
      Object.PartOk.drop (hcommit.parts k)
    exact hpart.of_eq rfl rfl rfl rfl rfl rfl

theorem trim : n.trim.Inv := by
  rcases n.trim_cases with hn | ⟨snap, sealedThrough, hp, hn⟩ <;> rw [hn]
  · exact h
  · exact h.of_outstanding (fun k => by rw [hp]; rfl) trivial

/-- Retention takes refs away and leaves the log end alone. -/
theorem enforceRetention (k : Bytes) (nowMs maxAgeMs maxBytes : ℤ) :
    (n.enforceRetention k nowMs maxAgeMs maxBytes).Inv := by
  rcases n.enforceRetention_cases k nowMs maxAgeMs maxBytes with
    hn | ⟨l, hfree, hn⟩
  · rw [hn]; exact h
  · obtain ⟨-, hl⟩ := free_eq_some hfree
    have hopened : ∀ l', ∀ j f, n.appending.lookup j = some f →
        ∃ l, (n.logs.insert k l').lookup j = some l := by
      intro l' j f hf
      rw [Table.lookup_insert_ite]
      split
      · exact ⟨l', rfl⟩
      · exact h.opened j f hf
    rcases hn with hn | ⟨d, r, -, -, hn⟩ <;> rw [hn]
    · refine ⟨?_, h.bytes, h.phase, hopened l⟩
      intro j
      refine (h.parts j).of_eq ?_ rfl rfl rfl rfl rfl
      by_cases hj : j = k
      · rw [hj, hl]; exact AList.lookup_insert _
      · exact AList.lookup_insert_ne hj
    · refine ⟨?_, h.bytes, h.phase, hopened _⟩
      intro j
      have hload := IndexStore.load_prune n.storage.index.store k j r.nextOffset
      by_cases hj : j = k
      · subst hj
        have hsub : ∀ q ∈ (n.storage.index.store.prune j r.nextOffset).1.load j,
            q ∈ n.storage.index.store.load j := fun q hq => IndexStore.mem_load_of_mem_prune hq
        have hpart := (h.parts j).prune hsub
        rw [logEnd_of_lookup hl, ← l.nextOffset_raiseEarliest (some r.nextOffset)] at hpart
        unfold Node.PartOk
        rw [logEnd_of_lookup (AList.lookup_insert _)]
        exact hpart
      · rw [if_neg hj] at hload
        exact (h.parts j).of_eq (AList.lookup_insert_ne hj) hload rfl rfl rfl rfl

/-- **Every action of the process keeps the invariant.** -/
theorem act {a : Action} (ha : n.Advances a) (hr : a ≠ .restart) : (n.act a).Inv := by
  cases a with
  | openLog topic partition => exact h.openLog topic partition
  | append topic partition batch => exact h.append ha
  | appendReplica topic partition batch => exact h.appendReplica ha
  | addPending topic partition => exact h.addPending _
  | swap => exact h.swap
  | rotate fault => exact h.rotate fault
  | put nowMs => exact h.put nowMs
  | putFail nowMs stored => exact h.putFail nowMs stored
  | commit => exact h.commit
  | commitFail stored => exact h.commitFail stored
  | trim => exact h.trim
  | enforceRetention topic partition nowMs maxAgeMs maxBytes =>
    exact h.enforceRetention _ nowMs maxAgeMs maxBytes
  | restart => exact absurd rfl hr

theorem step {a : Action} (ha : n.Advances a) (hr : a ≠ .restart) : (n.step a).Inv := by
  rw [Node.step]
  split
  · exact h.act ha hr
  · exact h

end Inv

/-- **The invariant holds throughout the life of a process.** -/
theorem inv_run {n : Node} (hn : n.Inv) {as : List Action}
    (h : Along Node.step (fun n a => n.Advances a ∧ a ≠ .restart) n as) :
    Always Node.step Node.Inv n as :=
  h.always hn fun _ _ hn ha => hn.step ha.1 ha.2

end Node

end Object
end Mq
