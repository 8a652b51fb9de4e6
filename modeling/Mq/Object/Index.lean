import Mathlib.Data.List.Induction
import Mathlib.Data.List.Sort
import Mq.Lib.Decimal
import Mq.Lib.Search
import Mq.Lib.Table

/-!
# The object index

`internal/storage/object/index.go`: which object holds which offsets of a
partition, in a store that outlives the process and in a cache over it.

## Main definitions

* `SegmentRef` — where a slice of a partition's records lies.
* `IndexStore` — the durable home of the refs, and its operations.
* `Index` — the store and the cache over it.

## Main results

* `indexKey_inj` — partitions are filed under different keys.
* `IndexStore.load_commit`, `IndexStore.load_prune` — what the operations leave.
* `IndexStore.referenced_iff` — an object is referenced when a loaded ref names it.
-/

namespace Mq
namespace Object

open Word

/-! ### Refs -/

/-- The byte span of an object that holds the offsets from `baseOffset` up to
`nextOffset` of one partition. -/
structure SegmentRef where
  key : Bytes
  baseOffset : ℤ
  nextOffset : ℤ
  position : ℤ
  length : ℤ
  uploadedMs : ℤ
  deriving DecidableEq, Repr

/-- The key that the index and the pending buffer file a partition under. -/
def indexKey (topic : Bytes) (partition : ℤ) : Bytes := topic ++ [0] ++ itoa partition

/-- Two words that end alike after their last separator are equal before it too. -/
theorem append_zero_inj {s t a b : Bytes} (ha : (0 : UInt8) ∉ a) (hb : (0 : UInt8) ∉ b)
    (h : s ++ [0] ++ a = t ++ [0] ++ b) : s = t ∧ a = b := by
  induction a using List.reverseRecOn generalizing b with
  | nil =>
    cases b using List.reverseRecOn with
    | nil => exact ⟨List.append_cancel_right (List.append_cancel_right h), rfl⟩
    | append_singleton b y =>
      rw [List.append_nil, ← List.append_assoc] at h
      have hy := (List.append_inj' h rfl).2
      exact absurd (List.mem_append_right b (hy ▸ List.mem_singleton.mpr rfl)) hb
  | append_singleton a x ih =>
    rw [← List.append_assoc] at h
    cases b using List.reverseRecOn with
    | nil =>
      rw [List.append_nil] at h
      have hx := (List.append_inj' h rfl).2
      exact absurd (List.mem_append_right a (hx ▸ List.mem_singleton.mpr rfl)) ha
    | append_singleton b y =>
      rw [← List.append_assoc] at h
      obtain ⟨hrest, hxy⟩ := List.append_inj' h rfl
      obtain ⟨hst, hab⟩ := ih (fun hm => ha (List.mem_append_left _ hm))
        (fun hm => hb (List.mem_append_left _ hm)) hrest
      exact ⟨hst, by rw [hab, hxy]⟩

/-- **Partitions are filed under different keys.**  A topic may hold the separator,
but a printed number does not, so the last one ends the topic. -/
theorem indexKey_inj {s t : Bytes} {p q : ℤ} (h : indexKey s p = indexKey t q) :
    s = t ∧ p = q := by
  have hfree : ∀ z, (0 : UInt8) ∉ itoa z := by
    intro z hz
    exact absurd (sign_le_of_mem_itoa hz) (by decide)
  obtain ⟨htopic, hnum⟩ := append_zero_inj (hfree p) (hfree q) h
  exact ⟨htopic, itoa_inj hnum⟩

/-! ### The store -/

/-- The committed refs of every partition, in the order they were committed. -/
abbrev IndexStore := Table Bytes (List SegmentRef)

namespace IndexStore

/-- The refs of one partition. -/
def load (m : IndexStore) (k : Bytes) : List SegmentRef := (m.lookup k).getD []

/-- Record one more ref. -/
def commit (m : IndexStore) (k : Bytes) (ref : SegmentRef) : IndexStore :=
  m.insert k (m.load k ++ [ref])

/-- Drop the refs that end at or below the cutoff, and return them. -/
def prune (m : IndexStore) (k : Bytes) (cutoff : ℤ) : IndexStore × List SegmentRef :=
  (m.insert k ((m.load k).filter fun r => ¬ r.nextOffset ≤ cutoff),
    (m.load k).filter fun r => r.nextOffset ≤ cutoff)

/-- Whether a ref of any partition points into the object. -/
def referenced (m : IndexStore) (key : Bytes) : Bool :=
  m.entries.any fun e => e.2.any fun r => r.key == key

theorem load_insert (m : IndexStore) (k j : Bytes) (refs : List SegmentRef) :
    load (m.insert k refs) j = if j = k then refs else m.load j := by
  rw [load, Table.lookup_insert_ite]
  split
  · rfl
  · rfl

theorem load_commit (m : IndexStore) (k j : Bytes) (ref : SegmentRef) :
    (m.commit k ref).load j = if j = k then m.load k ++ [ref] else m.load j :=
  load_insert m k j _

theorem load_prune (m : IndexStore) (k j : Bytes) (cutoff : ℤ) :
    (m.prune k cutoff).1.load j
      = if j = k then (m.load k).filter fun r => ¬ r.nextOffset ≤ cutoff else m.load j :=
  load_insert m k j _

theorem mem_load_of_mem_prune {m : IndexStore} {k j : Bytes} {cutoff : ℤ} {r : SegmentRef}
    (h : r ∈ (m.prune k cutoff).1.load j) : r ∈ m.load j := by
  rw [load_prune] at h
  split at h
  · next hj => rw [hj]; exact (List.mem_filter.mp h).1
  · exact h

theorem load_eq_nil {m : IndexStore} (h : ∀ e ∈ m.entries, e.2 = []) (k : Bytes) :
    m.load k = [] := by
  cases hlook : m.lookup k with
  | none => rw [load, hlook]; rfl
  | some refs => rw [load, hlook]; exact h ⟨k, refs⟩ (AList.mem_lookup_iff.mp hlook)

theorem referenced_iff (m : IndexStore) (key : Bytes) :
    m.referenced key = true ↔ ∃ k, ∃ r ∈ m.load k, r.key = key := by
  rw [referenced, List.any_eq_true]
  constructor
  · rintro ⟨⟨k, refs⟩, he, hany⟩
    obtain ⟨r, hr, hkey⟩ := List.any_eq_true.mp hany
    have hlook : m.lookup k = some refs := AList.mem_lookup_iff.mpr he
    refine ⟨k, r, ?_, beq_iff_eq.mp hkey⟩
    rw [load, hlook]
    exact hr
  · rintro ⟨k, r, hr, hkey⟩
    cases hlook : m.lookup k with
    | none => rw [load, hlook] at hr; exact absurd hr List.not_mem_nil
    | some refs =>
      rw [load, hlook] at hr
      exact ⟨⟨k, refs⟩, AList.mem_lookup_iff.mp hlook,
        List.any_eq_true.mpr ⟨r, hr, beq_iff_eq.mpr hkey⟩⟩

end IndexStore

/-- Refs sorted by base offset. -/
def sortRefs (refs : List SegmentRef) : List SegmentRef :=
  refs.insertionSort fun a b => a.baseOffset ≤ b.baseOffset

/-- A ref that starts no earlier than the others is sorted to the end. -/
theorem sortRefs_snoc {refs : List SegmentRef} {r : SegmentRef}
    (h : ∀ r' ∈ refs, r'.baseOffset ≤ r.baseOffset) :
    sortRefs (refs ++ [r]) = sortRefs refs ++ [r] := by
  have hinsert : ∀ (a : SegmentRef) (l : List SegmentRef), a.baseOffset ≤ r.baseOffset →
      (l ++ [r]).orderedInsert (fun a b => a.baseOffset ≤ b.baseOffset) a
        = l.orderedInsert (fun a b => a.baseOffset ≤ b.baseOffset) a ++ [r] := by
    intro a l ha
    induction l with
    | nil => simp [List.orderedInsert, ha]
    | cons b l ih =>
      rw [List.cons_append, List.orderedInsert, List.orderedInsert, ih]
      split <;> rfl
  induction refs with
  | nil => rfl
  | cons a refs ih =>
    rw [List.cons_append, sortRefs, List.insertionSort_cons]
    have := ih fun r' hr' => h r' (List.mem_cons_of_mem a hr')
    rw [sortRefs] at this
    rw [this, hinsert a _ (h a List.mem_cons_self)]
    rfl

/-! ### The cache -/

/-- The store, and the refs that the process has loaded or committed itself. -/
structure Index where
  store : IndexStore
  refs : IndexStore

namespace Index

/-- Load a partition's refs into the cache, sorted by base offset. -/
def load (ix : Index) (k : Bytes) : Index :=
  { ix with refs := ix.refs.insert k (sortRefs (ix.store.load k)) }

/-- Record a ref in the store and in the cache. -/
def commit (ix : Index) (k : Bytes) (ref : SegmentRef) : Index :=
  ⟨ix.store.commit k ref, ix.refs.commit k ref⟩

/-- The cached refs of a partition. -/
def refsFor (ix : Index) (k : Bytes) : List SegmentRef := ix.refs.load k

/-- Drop refs from the store and from the cache; the ones the store dropped are
returned. -/
def prune (ix : Index) (k : Bytes) (cutoff : ℤ) : Index × List SegmentRef :=
  (⟨(ix.store.prune k cutoff).1, (ix.refs.prune k cutoff).1⟩, (ix.store.prune k cutoff).2)

/-- The cached ref whose offsets contain the one given.  The search is for the first
ref that starts after it. -/
def refFor (ix : Index) (k : Bytes) (offset : ℤ) : Option SegmentRef :=
  let refs := ix.refsFor k
  match Search.search refs.length fun i => refs[i]?.any fun r => offset < r.baseOffset with
  | 0 => none
  | i + 1 =>
    match refs[i]? with
    | none => none
    | some ref => if ref.nextOffset ≤ offset then none else some ref

/-- The store is asked whether an object is still in use. -/
def referenced (ix : Index) (key : Bytes) : Bool := ix.store.referenced key

/-- The lowest offset still in the index. -/
def earliest (ix : Index) (k : Bytes) : Option ℤ := (ix.refsFor k).head?.map (·.baseOffset)

/-- The offset after the last ref. -/
def latest (ix : Index) (k : Bytes) : Option ℤ := (ix.refsFor k).getLast?.map (·.nextOffset)

end Index

end Object
end Mq
