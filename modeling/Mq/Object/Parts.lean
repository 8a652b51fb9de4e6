import Mq.Object.Node

/-!
# One partition's batches on their way to the index

At any time a partition's offsets are divided, in this order, among the committed
refs, the part that an upload has taken, the pending part, and the append under
way.  The steps of the node move a batch from one of these places to the next.

## Main definitions

* `Contiguous a bs z` — the batches `bs` cover the offsets from `a` to `z` in order.
* `PendingPart.Ok` — a part is not empty, its batches are contiguous, and its
  counters are right.
* `PartOk` — the places of one partition fit together.

## Main results

* `PartOk.write`, `PartOk.add`, `PartOk.swap`, `PartOk.restore`, `PartOk.commit`,
  `PartOk.prune` — the steps keep the places together.
* `PartOk.not_kept` — a batch of a part that is taken is in no other place.
-/

namespace Mq
namespace Object

open Word Record

/-! ### Contiguous batches -/

/-- The batches cover the offsets `[a, z)` in order, and each has at least one. -/
def Contiguous : ℤ → List Bytes → ℤ → Prop
  | a, [], z => a = z
  | a, b :: bs, z => (header b).baseOffset = a ∧ a < nextOf b ∧ Contiguous (nextOf b) bs z

variable {bs : List Bytes} {a : ℤ} {b : Bytes}

theorem contiguous_append {cs : List Bytes} {z : ℤ} :
    Contiguous a (bs ++ cs) z ↔ ∃ y, Contiguous a bs y ∧ Contiguous y cs z := by
  induction bs generalizing a with
  | nil => simp [Contiguous]
  | cons b bs ih =>
    simp only [List.cons_append, Contiguous, ih]
    constructor
    · rintro ⟨hb, hlt, y, h₁, h₂⟩; exact ⟨y, ⟨hb, hlt, h₁⟩, h₂⟩
    · rintro ⟨y, ⟨hb, hlt, h₁⟩, h₂⟩; exact ⟨hb, hlt, y, h₁, h₂⟩

theorem contiguous_singleton (hb : (header b).baseOffset = a) (hlt : a < nextOf b) :
    Contiguous a [b] (nextOf b) := ⟨hb, hlt, rfl⟩

theorem Contiguous.le {z : ℤ} (h : Contiguous a bs z) : a ≤ z := by
  induction bs generalizing a with
  | nil => exact le_of_eq h
  | cons b bs ih => have := ih h.2.2; have := h.2.1; omega

theorem Contiguous.lt {z : ℤ} (h : Contiguous a bs z) (hne : bs ≠ []) : a < z := by
  cases bs with
  | nil => exact absurd rfl hne
  | cons b bs => have := h.2.1; have := h.2.2.le; omega

/-- The offsets of a batch lie inside those of the run it belongs to. -/
theorem Contiguous.bounds {z : ℤ} (h : Contiguous a bs z) (hb : b ∈ bs) :
    a ≤ (header b).baseOffset ∧ (header b).baseOffset < nextOf b ∧ nextOf b ≤ z := by
  induction bs generalizing a with
  | nil => cases hb
  | cons c bs ih =>
    obtain ⟨hc, hlt, h⟩ := h
    rcases List.mem_cons.mp hb with rfl | hb
    · have := h.le; omega
    · have := ih h hb; omega

/-- The total size of some batches. -/
def batchBytes (bs : List Bytes) : ℤ := (bs.map fun b => (b.length : ℤ)).sum

@[simp] theorem batchBytes_append (bs cs : List Bytes) :
    batchBytes (bs ++ cs) = batchBytes bs + batchBytes cs := by simp [batchBytes]

@[simp] theorem batchBytes_singleton (b : Bytes) : batchBytes [b] = b.length := by
  simp [batchBytes]

/-! ### Parts and appends under way -/

/-- A part holds at least one batch, and what it says about its batches is right. -/
structure PendingPart.Ok (pp : PendingPart) (k : Bytes) : Prop where
  key : pp.indexKey = k
  ne_nil : pp.batches ≠ []
  contiguous : Contiguous pp.baseOffset pp.batches pp.nextOffset
  bytes : pp.bytes = batchBytes pp.batches

/-- An append that starts at the log end and moves it. -/
structure InFlight.Ok (f : InFlight) (k : Bytes) (logEnd : ℤ) : Prop where
  key : f.record.indexKey = k
  base : f.record.baseOffset = logEnd
  header_base : (header f.record.batch).baseOffset = logEnd
  next : f.next = nextOf f.record.batch
  advances : logEnd < f.next

/-- The offset that an optional part starts at, or else the one given. -/
def baseOr (pp : Option PendingPart) (offset : ℤ) : ℤ := (pp.map (·.baseOffset)).getD offset

@[simp] theorem baseOr_none (offset : ℤ) : baseOr none offset = offset := rfl

@[simp] theorem baseOr_some (pp : PendingPart) (offset : ℤ) :
    baseOr (some pp) offset = pp.baseOffset := rfl

/-- The places of the partition with the key `k` and the given log end: the committed
refs, the part taken by an upload, the pending part and the append under way. -/
structure PartOk (k : Bytes) (logEnd : ℤ) (refs : List SegmentRef)
    (out pend : Option PendingPart) (flying : Option InFlight) : Prop where
  range : wrap64 logEnd = logEnd
  pending : ∀ pp, pend = some pp → pp.Ok k ∧ pp.nextOffset = logEnd
  taken : ∀ pp, out = some pp → pp.Ok k ∧ pp.nextOffset = baseOr pend logEnd
  below : ∀ r ∈ refs, r.baseOffset ≤ r.nextOffset ∧
    r.nextOffset ≤ baseOr out (baseOr pend logEnd)
  nonneg : 0 ≤ baseOr out (baseOr pend logEnd)
  appending : ∀ f, flying = some f → f.Ok k logEnd

/-- A ref covers the offsets of a batch. -/
def Covers (refs : List SegmentRef) (b : Bytes) : Prop :=
  ∃ r ∈ refs, r.baseOffset ≤ (header b).baseOffset ∧ nextOf b ≤ r.nextOffset

instance (refs : List SegmentRef) (b : Bytes) : Decidable (Covers refs b) :=
  inferInstanceAs (Decidable (∃ r ∈ refs, r.baseOffset ≤ (header b).baseOffset ∧
    nextOf b ≤ r.nextOffset))

/-- An optional part holds a batch. -/
def InPart (pp : Option PendingPart) (b : Bytes) : Prop := ∃ p, pp = some p ∧ b ∈ p.batches

instance (pp : Option PendingPart) (b : Bytes) : Decidable (InPart pp b) :=
  match pp with
  | none => isFalse fun ⟨_, h, _⟩ => by cases h
  | some p => decidable_of_iff (b ∈ p.batches)
      ⟨fun h => ⟨p, rfl, h⟩, fun ⟨_, h, hb⟩ => by cases h; exact hb⟩

theorem not_inPart_none : ¬ InPart none b := by
  rintro ⟨p, hp, -⟩; cases hp

theorem PendingPart.Ok.add {pp : PendingPart} {k : Bytes} (h : pp.Ok k)
    (hb : (header b).baseOffset = pp.nextOffset) (hlt : pp.nextOffset < nextOf b) :
    (pp.add b (nextOf b)).Ok k := by
  refine ⟨h.key, by simp [PendingPart.add], ?_, ?_⟩
  · exact contiguous_append.mpr ⟨pp.nextOffset, h.contiguous, contiguous_singleton hb hlt⟩
  · show pp.bytes + b.length = batchBytes (pp.batches ++ [b])
    rw [h.bytes, batchBytes_append, batchBytes_singleton]

theorem PendingPart.Ok.merge {pp cur : PendingPart} {k : Bytes} (h : pp.Ok k) (hcur : cur.Ok k)
    (hlink : pp.nextOffset = cur.baseOffset) : (pp.merge cur).Ok k := by
  refine ⟨h.key, by simp [PendingPart.merge, h.ne_nil], ?_, ?_⟩
  · exact contiguous_append.mpr ⟨pp.nextOffset, h.contiguous, hlink ▸ hcur.contiguous⟩
  · show pp.bytes + cur.bytes = batchBytes (pp.batches ++ cur.batches)
    rw [h.bytes, hcur.bytes, batchBytes_append]

/-- The pending part of a partition after one more batch. -/
def addTo (pend : Option PendingPart) (f : InFlight) : PendingPart :=
  (pend.getD f.record.part).add f.record.batch f.next

/-- The batches of an optional part. -/
def partBatches (pp : Option PendingPart) : List Bytes := (pp.map (·.batches)).getD []

theorem mem_partBatches {pp : Option PendingPart} : b ∈ partBatches pp ↔ InPart pp b := by
  cases pp <;> simp [partBatches, InPart]

theorem partBatches_addTo (pend : Option PendingPart) (f : InFlight) :
    partBatches (some (addTo pend f)) = partBatches pend ++ [f.record.batch] := by
  cases pend <;> rfl

theorem partBatches_merge (out pend : Option PendingPart) :
    partBatches (Table.mergeValues PendingPart.merge out pend)
      = partBatches out ++ partBatches pend := by
  cases out with
  | none => rfl
  | some S => cases pend with
    | none => exact (List.append_nil S.batches).symm
    | some P => rfl

/-- The batches of a partition, of pairs of a key and a batch. -/
def inPartition (k : Bytes) (bs : List (Bytes × Bytes)) : List Bytes :=
  (bs.filter (·.1 = k)).map (·.2)

theorem inPartition_append (k : Bytes) (bs cs : List (Bytes × Bytes)) :
    inPartition k (bs ++ cs) = inPartition k bs ++ inPartition k cs := by
  simp [inPartition]

theorem inPartition_singleton (j b k : Bytes) :
    inPartition k [(j, b)] = if j = k then [b] else [] := by
  by_cases hk : j = k <;> simp [inPartition, hk]

theorem lookup_appendPending (s : Storage) {f : InFlight} {k : Bytes}
    (hkey : f.record.indexKey = k) (j : Bytes) :
    (s.appendPending f.record f.next).pending.lookup j
      = if j = k then some (addTo (s.pending.lookup k) f) else s.pending.lookup j := by
  subst hkey
  exact Table.lookup_insert_ite _ _ _ _

theorem lookup_appendPending_self (s : Storage) {f : InFlight} {k : Bytes}
    (hkey : f.record.indexKey = k) :
    (s.appendPending f.record f.next).pending.lookup k = some (addTo (s.pending.lookup k) f) := by
  rw [lookup_appendPending s hkey, if_pos rfl]

/-- The byte count follows the buffer. -/
theorem appendPending_bytes {s : Storage}
    (h : s.pendingBytes = Table.total PendingPart.bytes s.pending) (rec : WalRecord) (next : ℤ) :
    (s.appendPending rec next).pendingBytes
      = Table.total PendingPart.bytes (s.appendPending rec next).pending := by
  have htotal := Table.total_insert PendingPart.bytes s.pending rec.indexKey
    (((s.pending.lookup rec.indexKey).getD rec.part).add rec.batch next)
  have hbytes : (((s.pending.lookup rec.indexKey).getD rec.part).add rec.batch next).bytes
      = ((s.pending.lookup rec.indexKey).map PendingPart.bytes).getD 0 + rec.batch.length := by
    cases s.pending.lookup rec.indexKey with
    | none => rfl
    | some pp => rfl
  show s.pendingBytes + rec.batch.length
    = Table.total PendingPart.bytes (s.pending.insert rec.indexKey _)
  rw [h]
  omega

namespace PartOk

variable {k : Bytes} {logEnd : ℤ} {refs refs' : List SegmentRef} {out pend : Option PendingPart}
  {flying : Option InFlight} {b : Bytes}

theorem empty (k : Bytes) : PartOk k 0 [] none none none := by
  refine ⟨by decide, ?_, ?_, ?_, le_rfl, ?_⟩
  · intro pp h; cases h
  · intro pp h; cases h
  · intro r h; cases h
  · intro f h; cases h

theorem write (h : PartOk k logEnd refs out pend none) {f : InFlight} (hf : f.Ok k logEnd) :
    PartOk k logEnd refs out pend (some f) := by
  refine ⟨h.range, h.pending, h.taken, h.below, h.nonneg, ?_⟩
  intro f' hf'
  cases hf'
  exact hf

/-- The batch goes to the end of the pending part, or starts one at the log end. -/
theorem add {f : InFlight} (h : PartOk k logEnd refs out pend (some f)) :
    PartOk k f.next refs out (some (addTo pend f)) none ∧
      (addTo pend f).baseOffset = baseOr pend logEnd := by
  have hf := h.appending f rfl
  have hbase : (addTo pend f).baseOffset = baseOr pend logEnd := by
    cases pend with
    | none => exact hf.base
    | some pp => rfl
  have hok : (addTo pend f).Ok k := by
    rw [addTo, hf.next]
    cases pend with
    | none =>
      refine ⟨hf.key, by simp [PendingPart.add], ?_, ?_⟩
      · exact contiguous_singleton (hf.header_base.trans hf.base.symm)
          (by rw [← hf.next]; exact hf.base.trans_lt hf.advances)
      · show (0 : ℤ) + f.record.batch.length = batchBytes [f.record.batch]
        rw [batchBytes_singleton, Int.zero_add]
    | some pp =>
      obtain ⟨hpp, hnext⟩ := h.pending pp rfl
      exact hpp.add (hf.header_base.trans hnext.symm) (by rw [← hf.next, hnext]; exact hf.advances)
  refine ⟨⟨?_, ?_, ?_, ?_, ?_, ?_⟩, hbase⟩
  · rw [hf.next, nextOf, wrap64_wrap64]
  · intro pp hpp
    cases hpp
    exact ⟨hok, rfl⟩
  · intro pp hpp
    rw [baseOr_some, hbase]
    exact h.taken pp hpp
  · intro r hr
    rw [baseOr_some, hbase]
    exact h.below r hr
  · rw [baseOr_some, hbase]
    exact h.nonneg
  · intro f' hf'; cases hf'

/-- An upload takes the pending part. -/
theorem swap (h : PartOk k logEnd refs none pend flying) :
    PartOk k logEnd refs pend none flying := by
  refine ⟨h.range, ?_, h.pending, h.below, h.nonneg, h.appending⟩
  intro pp hpp; cases hpp

/-- A failed upload puts the part back in front. -/
theorem restore (h : PartOk k logEnd refs out pend flying) :
    PartOk k logEnd refs none (Table.mergeValues PendingPart.merge out pend) flying := by
  cases out with
  | none => exact h
  | some S =>
    obtain ⟨hS, hnext⟩ := h.taken S rfl
    cases pend with
    | none =>
      refine ⟨h.range, ?_, ?_, h.below, h.nonneg, h.appending⟩
      · intro pp hpp; cases hpp; exact ⟨hS, hnext⟩
      · intro pp hpp; cases hpp
    | some P =>
      obtain ⟨hP, hlast⟩ := h.pending P rfl
      refine ⟨h.range, ?_, ?_, h.below, h.nonneg, h.appending⟩
      · intro pp hpp; cases hpp; exact ⟨hS.merge hP hnext, hlast⟩
      · intro pp hpp; cases hpp

/-- The part that is taken starts no later than what comes after it. -/
theorem baseOr_le (h : PartOk k logEnd refs out pend flying) :
    baseOr out (baseOr pend logEnd) ≤ baseOr pend logEnd := by
  cases out with
  | none => exact le_rfl
  | some S =>
    obtain ⟨hS, hnext⟩ := h.taken S rfl
    rw [baseOr_some, ← hnext]
    exact hS.contiguous.le

/-- An upload that fails to commit gives the part up. -/
theorem drop (h : PartOk k logEnd refs out pend flying) :
    PartOk k logEnd refs none pend flying := by
  refine ⟨h.range, h.pending, ?_, ?_, h.nonneg.trans h.baseOr_le, h.appending⟩
  · intro pp hpp; cases hpp
  · intro r hr
    exact ⟨(h.below r hr).1, (h.below r hr).2.trans h.baseOr_le⟩

/-- A ref is committed for the part. -/
theorem commit {S : PendingPart} (h : PartOk k logEnd refs (some S) pend flying) {r : SegmentRef}
    (hbase : r.baseOffset = S.baseOffset) (hnext : r.nextOffset = S.nextOffset) :
    PartOk k logEnd (refs ++ [r]) none pend flying := by
  obtain ⟨hS, hlast⟩ := h.taken S rfl
  obtain ⟨hrange, hpend, hout, hrefs, hnonneg, hflying⟩ := h.drop
  refine ⟨hrange, hpend, hout, ?_, hnonneg, hflying⟩
  intro r' hr'
  rcases List.mem_append.mp hr' with hr' | hr'
  · exact hrefs r' hr'
  · rw [List.mem_singleton.mp hr', hbase, hnext, baseOr_none]
    exact ⟨hS.contiguous.le, le_of_eq hlast⟩

theorem prune (h : PartOk k logEnd refs out pend flying) (hsub : ∀ r ∈ refs', r ∈ refs) :
    PartOk k logEnd refs' out pend flying :=
  ⟨h.range, h.pending, h.taken, fun r hr => h.below r (hsub r hr), h.nonneg, h.appending⟩

/-! ### Where a batch is -/

/-- The ref of a part covers its batches. -/
theorem covers_of_inPart (h : PartOk k logEnd refs out pend flying) {S : PendingPart}
    (hS : out = some S) {r : SegmentRef} (hbase : r.baseOffset = S.baseOffset)
    (hnext : r.nextOffset = S.nextOffset) (hb : b ∈ S.batches) : Covers (refs ++ [r]) b := by
  obtain ⟨h₁, -, h₂⟩ := (h.taken S hS).1.contiguous.bounds hb
  exact ⟨r, List.mem_append_right _ (List.mem_singleton.mpr rfl), hbase ▸ h₁, hnext ▸ h₂⟩

/-- **A batch that an upload has taken is in no other place**: it is not pending, and
no committed ref covers it. -/
theorem not_kept (h : PartOk k logEnd refs out pend flying) (hb : InPart out b) :
    ¬ InPart pend b ∧ ¬ Covers refs b := by
  obtain ⟨S, rfl, hb⟩ := hb
  obtain ⟨hS, hnext⟩ := h.taken S rfl
  obtain ⟨h₁, h₂, h₃⟩ := hS.contiguous.bounds hb
  constructor
  · rintro ⟨P, rfl, hbP⟩
    have hP := ((h.pending P rfl).1.contiguous.bounds hbP).1
    rw [baseOr_some] at hnext
    omega
  · rintro ⟨r, hr, -, hle⟩
    have := (h.below r hr).2
    rw [baseOr_some] at this
    omega

end PartOk

end Object
end Mq
