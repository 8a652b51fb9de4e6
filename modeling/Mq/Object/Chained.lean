import Mq.Object.Moves
import Mq.Storage.Mutation

/-!
# Refs without gaps, at every step

The refs of a partition follow each other without a gap, from the earliest offset to where
the batches begin that have no ref yet.  These are in the part that an upload has taken, or
pending.  Appends, retention passes and the steps of an upload come in any order.

## Main definitions

* `RefChain a refs z` — the refs cover the offsets from `a` to `z` in order.
* `Node.Orders` — the steps that keep the refs in order.
* `Chained` — what holds between the steps.

## Main results

* `Move.refChain` — the refs end where the batches without a ref begin, after any move.
* `Chained.act`, `Chained.run` — **the refs are without gaps at every step**.
-/

namespace Mq
namespace Object

open Word Record Transition

/-! ### Contiguous refs -/

/-- The refs cover the offsets `[a, z)` in order. -/
def RefChain : ℤ → List SegmentRef → ℤ → Prop
  | a, [], z => a = z
  | a, r :: refs, z => r.baseOffset = a ∧ a < r.nextOffset ∧ RefChain r.nextOffset refs z

namespace RefChain

variable {a z : ℤ} {refs : List SegmentRef} {r : SegmentRef} (h : RefChain a refs z)
include h

theorem snoc (hbase : r.baseOffset = z) (hlt : z < r.nextOffset) :
    RefChain a (refs ++ [r]) r.nextOffset := by
  induction refs generalizing a with
  | nil => cases h; exact ⟨hbase, hlt, rfl⟩
  | cons q refs ih => exact ⟨h.1, h.2.1, ih h.2.2⟩

theorem lower : ∀ q ∈ refs, a ≤ q.baseOffset ∧ a < q.nextOffset := by
  induction refs generalizing a with
  | nil => intro q hq; cases hq
  | cons r refs ih =>
    intro q hq
    obtain ⟨hbase, hlt, h⟩ := h
    rcases List.mem_cons.mp hq with rfl | hq
    · exact ⟨hbase.ge, hlt⟩
    · have := ih h q hq; omega

theorem upper : a ≤ z ∧ ∀ q ∈ refs, q.baseOffset < q.nextOffset ∧ q.nextOffset ≤ z := by
  induction refs generalizing a with
  | nil => exact ⟨h.le, by simp⟩
  | cons r refs ih =>
    obtain ⟨hbase, hlt, h⟩ := h
    obtain ⟨hle, hrest⟩ := ih h
    refine ⟨by omega, fun q hq => ?_⟩
    rcases List.mem_cons.mp hq with rfl | hq
    · omega
    · exact hrest q hq

theorem pairwise : refs.Pairwise fun r q => r.nextOffset ≤ q.baseOffset := by
  induction refs generalizing a with
  | nil => exact .nil
  | cons r refs ih => exact .cons (fun q hq => (h.2.2.lower q hq).1) (ih h.2.2)

theorem isChain : refs.IsChain fun r q => r.nextOffset = q.baseOffset := by
  induction refs generalizing a with
  | nil => exact .nil
  | cons r refs ih =>
    cases refs with
    | nil => exact .singleton r
    | cons q refs => exact .cons_cons h.2.2.1.symm (ih h.2.2)

/-- They are in order already. -/
theorem sortRefs_eq : sortRefs refs = refs := by
  apply List.Pairwise.insertionSort_eq
  induction refs generalizing a with
  | nil => exact .nil
  | cons r refs ih =>
    obtain ⟨hbase, hlt, h⟩ := h
    refine .cons ?_ (ih h)
    intro q hq
    have := (h.lower q hq).1
    omega

theorem head_base (hne : refs ≠ []) : refs.head?.map (·.baseOffset) = some a := by
  cases refs with
  | nil => exact absurd rfl hne
  | cons r refs => exact congrArg some h.1

theorem last_next (hne : refs ≠ []) : refs.getLast?.map (·.nextOffset) = some z := by
  induction refs generalizing a with
  | nil => exact absurd rfl hne
  | cons r refs ih =>
    cases refs with
    | nil => exact congrArg some h.2.2
    | cons q refs => rw [List.getLast?_cons_cons]; exact ih h.2.2 (List.cons_ne_nil q refs)

/-- What comes after a ref is a chain from its end on. -/
theorem drop {i : ℕ} (hi : refs[i]? = some r) :
    a < r.nextOffset ∧ RefChain r.nextOffset (refs.drop (i + 1)) z := by
  induction refs generalizing a i with
  | nil => cases hi
  | cons q refs ih =>
    obtain ⟨hbase, hlt, h⟩ := h
    cases i with
    | zero =>
      cases hi
      exact ⟨hlt, h⟩
    | succ i =>
      obtain ⟨hr, hrest⟩ := ih h hi
      exact ⟨by omega, hrest⟩

/-- The refs that end at or before the end of one of them are those up to it. -/
theorem filter_eq_drop {i : ℕ} (hi : refs[i]? = some r) :
    (refs.filter fun q => ¬ q.nextOffset ≤ r.nextOffset) = refs.drop (i + 1) := by
  induction refs generalizing a i with
  | nil => cases hi
  | cons q refs ih =>
    obtain ⟨hbase, hlt, h⟩ := h
    cases i with
    | zero =>
      cases hi
      rw [List.filter_cons_of_neg (by simp), List.filter_eq_self.mpr]
      · rfl
      · intro p hp
        have := (h.lower p hp).2
        simp only [decide_eq_true_eq]
        omega
    | succ i =>
      have := (h.drop hi).1
      rw [List.filter_cons_of_neg (by simp only [decide_eq_true_eq]; omega), ih h hi]
      rfl

omit h in
/-- A cut at the end of a ref leaves the refs behind it, in the store as in the cache. -/
theorem pruned_eq_drop {s : Storage} {k : Bytes} {i : ℕ} (h : RefChain a (s.index.store.load k) z)
    (hcache : s.index.refsFor k = s.index.store.load k)
    (hi : (s.index.store.load k)[i]? = some r) :
    (s.pruned k r.nextOffset).index.store.load k = (s.index.store.load k).drop (i + 1) ∧
      (s.pruned k r.nextOffset).index.refsFor k = (s.index.store.load k).drop (i + 1) := by
  rw [Storage.store_pruned, Storage.refsFor_pruned, if_pos rfl, if_pos rfl, hcache]
  exact ⟨h.filter_eq_drop hi, h.filter_eq_drop hi⟩

end RefChain

/-- The refs go up to where the batches without a ref begin, before a move and after it. -/
theorem Move.refChain {n n' : Node} {k : Bytes} (h : Move n n' k) (hpart : n.PartOk k) {x : ℤ}
    (hchain : RefChain x (n.committed k) (n.refEnd k (n.logEnd k))) :
    RefChain x (n'.committed k) (n'.refEnd k (n.logEnd k)) := by
  cases h with
  | regroup h hrefs => rw [hrefs, h.refEnd]; exact hchain
  | add f hf hout hpend hrefs =>
    unfold Node.PartOk at hpart
    rw [hf] at hpart
    rw [hrefs, Node.refEnd, hout, hpend, baseOr_some, hpart.add.2]
    exact hchain
  | commit S r hS hbase hnext hout hpend hrefs =>
    obtain ⟨hok, hlast⟩ := hpart.taken S hS
    rw [Node.refEnd, hS, baseOr_some] at hchain
    rw [hrefs, Node.refEnd, hout, hpend, baseOr_none, ← hlast, ← hnext]
    refine hchain.snoc hbase ?_
    rw [hnext]
    exact hok.contiguous.lt hok.ne_nil

/-! ### The steps -/

namespace Node

/-- **The steps that keep the refs in order.**  A batch that is not refused moves the log end
up, the index store takes every ref, and the process does not end. -/
def Orders (n : Node) : Action → Prop
  | .append topic partition batch =>
    Mq.Storage.Parses batch → n.Advances (.append topic partition batch)
  | .appendReplica topic partition batch =>
    Mq.Storage.Parses batch → n.Advances (.appendReplica topic partition batch)
  | .commitFail _ => n.phase.commits = []
  | .restart => False
  | _ => True

instance (n : Node) : ∀ a, Decidable (n.Orders a)
  | .append _ _ _ | .appendReplica _ _ _ => inferInstanceAs (Decidable (_ → _))
  | .commitFail _ => inferInstanceAs (Decidable (_ = _))
  | .restart => inferInstanceAs (Decidable False)
  | .openLog _ _ | .addPending _ _ | .swap | .rotate _ | .put _ | .putFail _ _ | .commit | .trim
  | .enforceRetention _ _ _ _ _ => inferInstanceAs (Decidable True)

/-- An append that is refused does nothing, and every other step keeps the invariant. -/
theorem Inv.act_of_orders {n : Node} (h : n.Inv) {a : Action} (ha : n.Orders a) :
    (n.act a).Inv := by
  by_cases hadv : n.Advances a
  · exact h.act hadv (by rintro rfl; exact ha)
  · cases a with
    | append topic partition batch =>
      rw [Node.act, n.append_of_not_parses fun hb => hadv (ha hb)]
      exact h
    | appendReplica topic partition batch =>
      rw [Node.act, n.appendReplica_of_not_parses fun hb => hadv (ha hb)]
      exact h
    | _ => exact absurd trivial hadv

theorem logEnd_enforceRetention (n : Node) (j : Bytes) (nowMs maxAgeMs maxBytes : ℤ) (k : Bytes) :
    (n.enforceRetention j nowMs maxAgeMs maxBytes).logEnd k = n.logEnd k := by
  rcases n.enforceRetention_cases j nowMs maxAgeMs maxBytes with hn | ⟨l, hfree, hn⟩
  · rw [hn]
  · obtain ⟨-, hl⟩ := free_eq_some hfree
    by_cases hk : k = j
    · subst hk
      rcases hn with hn | ⟨d, r, -, -, hn⟩ <;>
        rw [hn, logEnd_of_lookup hl, logEnd_of_lookup (AList.lookup_insert _)]
      exact l.nextOffset_raiseEarliest _
    · rcases hn with hn | ⟨d, r, -, -, hn⟩ <;> rw [hn]
      · exact logEnd_congr (AList.lookup_insert_ne hk) rfl rfl
      · exact logEnd_congr (AList.lookup_insert_ne hk)
          ((Storage.store_pruned ..).trans (if_neg hk)) rfl

end Node

/-- What holds between the steps.  A partition that is not open has nothing. -/
structure Chained (n : Node) : Prop where
  inv : n.Inv
  up : n.up = true
  recovered : n.storage.recNext = ∅ ∧ n.storage.recBase = ∅
  cache : ∀ k l, n.logs.lookup k = some l → n.storage.index.refsFor k = n.committed k
  refs : ∀ k l, n.logs.lookup k = some l →
    RefChain l.earliest (n.committed k) (n.refEnd k l.nextOffset)
  unopened : ∀ k, n.logs.lookup k = none → n.committed k = [] ∧
    n.phase.outstanding k = none ∧ n.storage.pending.lookup k = none

theorem chained_fresh (nodeID : Bytes) : Chained (Node.fresh nodeID) where
  inv := Node.inv_fresh nodeID
  up := rfl
  recovered := ⟨rfl, rfl⟩
  cache := by intro k l hl; cases hl
  refs := by intro k l hl; cases hl
  unopened := fun _ _ => ⟨rfl, rfl, rfl⟩

namespace Chained

variable {n n' : Node}

theorem frame (h : Chained n) (hf : Frame n n') (hinv : n'.Inv) : Chained n' where
  inv := hinv
  up := hf.up.trans h.up
  recovered := ⟨hf.recovered.1.trans h.recovered.1, hf.recovered.2.trans h.recovered.2⟩
  cache k l hl := by rw [hf.index, hf.committed, h.cache k l (hf.logs ▸ hl)]
  refs k l hl := by
    rw [hf.committed, (hf.group k).refEnd]
    exact h.refs k l (hf.logs ▸ hl)
  unopened k hl := by
    obtain ⟨hnil, hout, hpend⟩ := h.unopened k (hf.logs ▸ hl)
    exact ⟨(hf.committed k).trans hnil, (hf.group k).none hout hpend⟩

/-- A new handle has nothing behind it and starts at its own end. -/
theorem openLog (h : Chained n) (topic : Bytes) (partition : ℤ) :
    Chained (n.openLog topic partition) := by
  have hinv := h.inv.openLog topic partition
  rw [Node.openLog] at hinv ⊢
  cases hl : n.logs.lookup (indexKey topic partition) with
  | some l => exact h
  | none =>
    rw [hl] at hinv
    obtain ⟨hnil, hout, hpend⟩ := h.unopened _ hl
    have hcache : ∀ k, (n.storage.index.load (indexKey topic partition)).refsFor k
        = if k = indexKey topic partition then [] else n.storage.index.refsFor k := by
      intro k
      rw [Index.refsFor, Index.load, IndexStore.load_insert,
        show n.storage.index.store.load (indexKey topic partition) = [] from hnil]
      rfl
    have hnew := (hcache _).trans (if_pos rfl)
    refine ⟨hinv, h.up, h.recovered, Table.forall_lookup_insert (hnew.trans hnil.symm)
        fun k l hk hlk => ((hcache k).trans (if_neg hk)).trans (h.cache k l hlk),
      Table.forall_lookup_insert ?_ fun k l _ hlk => h.refs k l hlk,
      fun k hk => h.unopened k (Table.of_lookup_insert_eq_none hk).2⟩
    show RefChain _ (n.committed (indexKey topic partition))
      (baseOr (n.phase.outstanding _) (baseOr (n.storage.pending.lookup _) _))
    rw [hnil, hout, hpend]
    show Storage.seedEarliest _ _ = Storage.seedNext _ _
    simp only [Storage.seedEarliest, Index.earliest, hnew, List.head?_nil, Option.map_none,
      h.recovered.2, AList.lookup_empty, Option.getD_none]

/-- The new part starts where the log ended, an old one where it did. -/
theorem addPending (h : Chained n) (j : Bytes) : Chained (n.addPending j) := by
  have hinv := h.inv.addPending j
  cases hf : n.appending.lookup j with
  | none =>
    rw [Node.addPending, hf]
    exact h
  | some f =>
    obtain ⟨l, hl⟩ := h.inv.opened j f hf
    have hpart := h.inv.parts j
    unfold Node.PartOk at hpart
    rw [hf, Node.logEnd_of_lookup hl] at hpart
    have hbase := hpart.add.2
    have hlook := lookup_appendPending n.storage (hpart.appending f rfl).key
    simp only [Node.addPending, hf, hl] at hinv ⊢
    refine ⟨hinv, h.up, h.recovered,
      Table.forall_lookup_insert (h.cache j l hl) fun k l' _ hl' => h.cache k l' hl',
      Table.forall_lookup_insert ?_ fun k l' hk hl' => ?_, fun k hk => ?_⟩
    · show RefChain l.earliest (n.committed j) (baseOr (n.phase.outstanding j)
        (baseOr ((n.storage.appendPending f.record f.next).pending.lookup j) f.next))
      rw [hlook, if_pos rfl, baseOr_some, hbase]
      exact h.refs j l hl
    · show RefChain l'.earliest (n.committed k) (baseOr (n.phase.outstanding k)
        (baseOr ((n.storage.appendPending f.record f.next).pending.lookup k) l'.nextOffset))
      rw [hlook, if_neg hk]
      exact h.refs k l' hl'
    · obtain ⟨hne, hk⟩ := Table.of_lookup_insert_eq_none hk
      obtain ⟨hnil, hout, hpend⟩ := h.unopened k hk
      refine ⟨hnil, hout, ?_⟩
      show (n.storage.appendPending f.record f.next).pending.lookup k = none
      rw [hlook k, if_neg hne, hpend]

/-- A ref is committed: it goes to the end of the chain. -/
theorem commit (h : Chained n) : Chained n.commit := by
  have hinv := h.inv.commit
  have hmove := h.inv.move_commit
  rcases n.commit_cases with hn | ⟨snap, c, cs, q, hp, hn⟩ <;> rw [hn] at hinv hmove ⊢
  · exact h
  · obtain ⟨S, hS, -, -, hout⟩ := h.inv.next_commit hp
    have hstore := fun k => IndexStore.load_commit n.storage.index.store c.indexKey k c.ref
    have hrefs := fun k => IndexStore.load_commit n.storage.index.refs c.indexKey k c.ref
    refine ⟨hinv, h.up, h.recovered, fun k l hl => ?_, fun k l hl => ?_, fun k hk => ?_⟩
    · show (n.storage.index.refs.commit c.indexKey c.ref).load k
        = (n.storage.index.store.commit c.indexKey c.ref).load k
      rw [hstore, hrefs]
      split
      · next hk => exact congrArg (· ++ [c.ref]) (hk ▸ h.cache k l hl)
      · exact h.cache k l hl
    · have hlog : n.logEnd k = l.nextOffset := Node.logEnd_of_lookup hl
      have hchain := (hmove k).refChain (h.inv.parts k) (hlog.symm ▸ h.refs k l hl)
      rwa [hlog] at hchain
    · obtain ⟨hnil, hnone, hpend⟩ := h.unopened k hk
      have hne : k ≠ c.indexKey := by
        rintro rfl
        rw [hS] at hnone
        cases hnone
      exact ⟨(hstore k).trans ((if_neg hne).trans hnil), (hout k).trans ((if_neg hne).trans hnone),
        hpend⟩

/-- Retention drops the front of the chain, up to the new earliest offset. -/
theorem enforceRetention (h : Chained n) (j : Bytes) (nowMs maxAgeMs maxBytes : ℤ) :
    Chained (n.enforceRetention j nowMs maxAgeMs maxBytes) := by
  have hinv := h.inv.enforceRetention j nowMs maxAgeMs maxBytes
  rcases n.enforceRetention_cases j nowMs maxAgeMs maxBytes with
    hn | ⟨l, hfree, hn | ⟨d, r, hr, -, hn⟩⟩ <;> rw [hn] at hinv ⊢
  · exact h
  · obtain ⟨-, hl⟩ := Node.free_eq_some hfree
    exact ⟨hinv, h.up, h.recovered,
      Table.forall_lookup_insert (h.cache _ l hl) fun k l' _ hl' => h.cache k l' hl',
      Table.forall_lookup_insert (h.refs _ l hl) fun k l' _ hl' => h.refs k l' hl',
      fun k hk => h.unopened k (Table.of_lookup_insert_eq_none hk).2⟩
  · obtain ⟨-, hl⟩ := Node.free_eq_some hfree
    have hcache := h.cache j l hl
    have hchain := h.refs j l hl
    rw [hcache] at hr
    obtain ⟨hlt, hrest⟩ := hchain.drop hr
    obtain ⟨hstore', hcache'⟩ := hchain.pruned_eq_drop hcache hr
    have hother : ∀ k, k ≠ j → (n.storage.pruned j r.nextOffset).index.store.load k
        = n.committed k := fun k hk => (Storage.store_pruned ..).trans (if_neg hk)
    refine ⟨hinv, h.up, h.recovered,
      Table.forall_lookup_insert (hcache'.trans hstore'.symm) fun k l' hk hl' => ?_,
      Table.forall_lookup_insert ?_ fun k l' hk hl' => ?_, fun k hk => ?_⟩
    · exact ((Storage.refsFor_pruned ..).trans (if_neg hk)).trans
        ((h.cache k l' hl').trans (hother k hk).symm)
    · show RefChain _ ((n.storage.pruned j r.nextOffset).index.store.load j) _
      rw [ObjectLog.raiseEarliest, if_pos hlt, hstore']
      exact hrest
    · show RefChain l'.earliest ((n.storage.pruned j r.nextOffset).index.store.load k) _
      rw [hother k hk]
      exact h.refs k l' hl'
    · obtain ⟨hne, hk⟩ := Table.of_lookup_insert_eq_none hk
      obtain ⟨hnil, hrest⟩ := h.unopened k hk
      exact ⟨(hother k hne).trans hnil, hrest⟩

/-- **Every step that keeps the refs in order keeps them without gaps.** -/
theorem act (h : Chained n) {a : Action} (ha : n.Orders a) : Chained (n.act a) := by
  have hinv := h.inv.act_of_orders ha
  cases a with
  | openLog topic partition => exact h.openLog topic partition
  | addPending topic partition => exact h.addPending _
  | commit => exact h.commit
  | commitFail stored =>
    rw [Node.act] at hinv ⊢
    rcases n.commitFail_cases stored with hn | ⟨snap, c, cs, q, hp, -⟩
    · rw [hn]
      exact h
    · rw [Node.Orders, hp] at ha
      cases ha
  | enforceRetention topic partition nowMs maxAgeMs maxBytes =>
    exact h.enforceRetention _ nowMs maxAgeMs maxBytes
  | restart => exact absurd ha id
  | _ => exact h.frame (.act h.inv trivial) hinv

theorem run (h : Chained n) {as : List Action} (has : Along Node.step Node.Orders n as) :
    Chained (Transition.run Node.step n as) := by
  refine (has.always h fun m a hm ha => ?_).final
  rw [Node.step, if_pos hm.up]
  exact hm.act ha

end Chained

end Object
end Mq
