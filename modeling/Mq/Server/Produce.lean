import Mq.Server.Handlers
import Mq.Storage.AppendOnly

/-!
# The response to a produce request

What the response for one partition says, against what the log has stored.  The handler
logs an error of the loop over the batches and fills in the response as if there had been
none, so a record set that is cut off, or one that the log refuses in the middle, is
answered with error code 0.

## Main definitions

* `appendAll` — the batches that the log accepts, with the offsets it assigns.
* `produceResponse` — the partition response of `produce`, after `awaitCommit`.
* `Gained` — what one log has in addition to another.
* `ProducePartitionResp.Honest` — the response does not claim more than was stored.

## Main results

* `no_false_success` — **a response is honest exactly if all batches were stored** and the
  first of their offsets is the one that the loop reports.
* `cut_set_acknowledged` — a batch that is cut off after a whole one is acknowledged.
-/

namespace Mq
namespace Server

open Word Record Storage Controller
open Framing (feed)

/-! ### The response -/

/-- The response for one partition of a produce request. -/
structure ProducePartitionResp where
  errorCode : ErrorCode
  baseOffset : ℤ
  logStartOffset : ℤ
  deriving DecidableEq, Repr

/-- The response for one partition.  With `acks = 0` there is none, and with `acks = -1` it
waits for the high watermark: `timely` says whether that reaches the target before the
deadline. -/
def produceResponse (b : Broker) (self now : ℤ) (pv : Option PartitionMeta) (acks : ℤ)
    (timely : Bool) (records : Bytes) : Option ProducePartitionResp :=
  let (b', produced) := produce b self now pv records
  if acks = 0 then none
  else
    match produced with
    | .refused code => some ⟨code, -1, 0⟩
    | .wait base _ _ =>
      if acks = -1 ∧ timely = false then some ⟨.requestTimedOut, -1, b'.log.earliestOffset⟩
      else some ⟨.none, base, b'.log.earliestOffset⟩
    | .respond base _ => some ⟨.none, base, b'.log.earliestOffset⟩
    | .stuck => none

/-! ### What is stored -/

/-- The batches that the log accepts, up to the first one that it refuses, with the offsets
that it assigns to them. -/
def appendAll (now : ℤ) : Log → List Bytes → List (Bytes × ℤ)
  | _, [] => []
  | l, batch :: bs =>
    match l.append now batch with
    | (l', .ok off) => (batch, off) :: appendAll now l' bs
    | (_, .error _) => []

/-- The base offset that the loop ends with: an offset replaces it as long as it is
negative. -/
def reported : ℤ → List ℤ → ℤ
  | base, [] => base
  | base, off :: offs => reported (if base < 0 then off else base) offs

theorem taken_appendBatch (now : ℤ) (a : Appended) (bs : List Bytes) :
    taken (appendBatch now) a bs = (appendAll now a.log bs).map Prod.fst := by
  induction bs generalizing a with
  | nil => rfl
  | cons batch bs ih =>
    rw [taken, appendBatch, appendAll]
    rcases a.log.append now batch with ⟨l, _ | off⟩
    · rfl
    · exact congrArg (batch :: ·) (ih _)

variable {now : ℤ} {records : Bytes}

/-- The loop takes all batches exactly if the log accepts them all. -/
theorem feed_appendBatch_eq_none {a : Appended} {bs : List Bytes} :
    (feed (appendBatch now) a bs).2 = none ↔ (appendAll now a.log bs).length = bs.length := by
  induction bs generalizing a with
  | nil => simp [feed, appendAll]
  | cons batch bs ih =>
    rw [feed, appendBatch, appendAll]
    rcases a.log.append now batch with ⟨l, _ | off⟩
    · simp
    · simp [ih]

theorem feed_appendBatch_base {a : Appended} {bs : List Bytes}
    (h : (feed (appendBatch now) a bs).2 = none) :
    (feed (appendBatch now) a bs).1.base
      = reported a.base ((appendAll now a.log bs).map Prod.snd) := by
  induction bs generalizing a with
  | nil => rfl
  | cons batch bs ih =>
    rw [feed, appendBatch] at h ⊢
    rw [appendAll]
    rcases happ : a.log.append now batch with ⟨l, _ | off⟩
    · rw [happ] at h
      cases h
    · rw [happ] at h
      exact ih h

theorem reported_of_nonneg {base : ℤ} (h : 0 ≤ base) (offs : List ℤ) :
    reported base offs = base := by
  induction offs with
  | nil => rfl
  | cons off offs ih => rw [reported, if_neg (by omega), ih]

/-- As long as there are only negative offsets, the last one is reported. -/
theorem reported_of_neg {base : ℤ} (hbase : base < 0) {offs : List ℤ} (h : ∀ off ∈ offs, off < 0) :
    reported base offs = offs.getLast?.getD base := by
  induction offs generalizing base with
  | nil => rfl
  | cons off offs ih =>
    rw [reported, if_pos hbase, ih (h off List.mem_cons_self) fun x hx => h x (.tail _ hx)]
    cases offs <;> simp [List.getLast?_cons]

theorem reported_nonneg {base : ℤ} {offs : List ℤ} :
    0 ≤ reported base offs ↔ 0 ≤ base ∨ ∃ off ∈ offs, 0 ≤ off := by
  induction offs generalizing base with
  | nil => simp [reported]
  | cons off offs ih =>
    rw [reported, ih, List.exists_mem_cons_iff]
    split
    · next h => simp [not_le.mpr h]
    · next h => simp [not_lt.mp h]

/-- The first of the offsets is the one that the loop reports: it is not negative, or all
others are negative and the last of them is the same. -/
def FirstReported : List ℤ → Prop
  | [] => True
  | off :: offs => 0 ≤ off ∨ (∀ x ∈ offs, x < 0) ∧ offs.getLast?.getD off = off

instance : (offs : List ℤ) → Decidable (FirstReported offs)
  | [] => inferInstanceAs (Decidable True)
  | off :: offs => inferInstanceAs (Decidable (0 ≤ off ∨ (∀ x ∈ offs, x < 0) ∧
      offs.getLast?.getD off = off))

theorem firstReported_iff {offs : List ℤ} :
    FirstReported offs ↔ ∀ off ∈ offs.head?, reported (-1) offs = off := by
  cases offs with
  | nil => simp [FirstReported]
  | cons off offs =>
    simp only [FirstReported, List.head?_cons, Option.mem_some_iff, forall_eq']
    rw [reported, if_pos (by decide)]
    rcases lt_or_ge off 0 with hneg | hnonneg
    · by_cases hall : ∀ x ∈ offs, x < 0
      · rw [reported_of_neg hneg hall]
        exact ⟨fun h => h.elim (fun h0 => by omega) And.right, fun h => .inr ⟨hall, h⟩⟩
      · -- a later offset that is not negative is reported instead
        have hrep : 0 ≤ reported off offs := reported_nonneg.mpr (.inr (by simpa using hall))
        exact ⟨fun h => h.elim (fun h0 => by omega) fun h1 => absurd h1.1 hall,
          fun h => by omega⟩
    · exact ⟨fun _ => reported_of_nonneg hnonneg offs, fun _ => .inl hnonneg⟩

/-! ### Honest responses -/

/-- The records are a sequence of whole batches, and the log accepts all of them. -/
def StoresAll (now : ℤ) (l : Log) (records : Bytes) : Prop :=
  (split records).flatten = records ∧
    (appendAll now l (split records)).length = (split records).length

instance (now : ℤ) (l : Log) (records : Bytes) : Decidable (StoresAll now l records) :=
  inferInstanceAs (Decidable (_ ∧ _))

/-- **What a log has gained**: the batches have been appended to `l` one after the other, each
was written into its file under its offset, and nothing else has happened before `l'`. -/
inductive Gained (now : ℤ) : Log → List (Bytes × ℤ) → Log → Prop
  | nil (l : Log) : Gained now l [] l
  | cons {l l' : Log} {batch : Bytes} {off : ℤ} {added : List (Bytes × ℤ)}
      (append : (l.append now batch).2 = .ok off)
      (stored : ((l.rollFor now off batch.length).place (stamp off batch)).Stored
        (l.append now batch).1)
      (rest : Gained now (l.append now batch).1 added l') :
      Gained now l ((batch, off) :: added) l'

/-- What the log `l'` has in addition to `l` is all of the records, batch by batch. -/
structure Holds (now : ℤ) (records : Bytes) (l l' : Log) (added : List (Bytes × ℤ)) : Prop where
  consumed : (split records).flatten = records
  batches : added.map Prod.fst = split records
  gained : Gained now l added l'

/-- With error code 0 every byte belongs to a batch that the log after the request has in
addition to the log before, and the base offset is that of the first one; if a part of the
records was not appended, there is an error. -/
def ProducePartitionResp.Honest (r : ProducePartitionResp) (now : ℤ) (records : Bytes)
    (l l' : Log) : Prop :=
  (r.errorCode = .none → ∃ added, Holds now records l l' added ∧
    ∀ a ∈ added.head?, r.baseOffset = a.2) ∧
  ((¬ ∃ added, Holds now records l l' added) → r.errorCode ≠ .none)

theorem honest_of_error {r : ProducePartitionResp} (h : r.errorCode ≠ .none) (now : ℤ)
    (records : Bytes) (l l' : Log) : r.Honest now records l l' :=
  ⟨fun h0 => absurd h0 h, fun _ => h⟩

/-- Appending is deterministic: what is gained is what the loop appends. -/
theorem gained_iff {a : Appended} {l' : Log} {bs : List Bytes} {added : List (Bytes × ℤ)} :
    (added.map Prod.fst = bs ∧ Gained now a.log added l') ↔
      (feed (appendBatch now) a bs).2 = none ∧ added = appendAll now a.log bs ∧
        l' = (feed (appendBatch now) a bs).1.log := by
  induction bs generalizing a added with
  | nil =>
    constructor
    · rintro ⟨hmap, hgained⟩
      obtain rfl := List.map_eq_nil_iff.mp hmap
      cases hgained
      exact ⟨rfl, rfl, rfl⟩
    · rintro ⟨-, rfl, rfl⟩
      exact ⟨rfl, .nil _⟩
  | cons batch bs ih =>
    rw [feed, appendBatch, appendAll]
    rcases happ : a.log.append now batch with ⟨l, e | off⟩
    · -- a batch that is refused is not gained
      refine ⟨?_, fun h => by cases h.1⟩
      rintro ⟨hmap, hgained⟩
      cases hgained with
      | nil => cases hmap
      | cons happend =>
        cases hmap
        rw [happ] at happend
        cases happend
    · have hrest := @ih ⟨l, if a.base < 0 then off else a.base, a.stored ++ [stamp off batch]⟩
      constructor
      · rintro ⟨hmap, hgained⟩
        cases hgained with
        | nil => cases hmap
        | cons happend _ hmore =>
          rw [List.map_cons, List.cons.injEq] at hmap
          obtain ⟨rfl, hmap⟩ := hmap
          rw [happ] at happend hmore
          cases happend
          obtain ⟨hnone, rfl, hlog⟩ := hrest.mp ⟨hmap, hmore⟩
          exact ⟨hnone, rfl, hlog⟩
      · rintro ⟨hnone, rfl, hlog⟩
        obtain ⟨hmap, hmore⟩ := hrest.mpr ⟨hnone, rfl, hlog⟩
        have hok : (a.log.append now batch).2 = .ok off := by rw [happ]
        refine ⟨congrArg (batch :: ·) hmap, .cons hok (Log.stored_append hok) ?_⟩
        rw [happ]
        exact hmore

theorem holds_iff {l l' : Log} {added : List (Bytes × ℤ)} :
    Holds now records l l' added ↔ StoresAll now l records ∧
      added = appendAll now l (split records) ∧ l' = (appendRecords now l records).1 := by
  have hiff := @gained_iff now ⟨l, -1, []⟩ l' (split records) added
  rw [feed_appendBatch_eq_none] at hiff
  rw [log_appendRecords]
  constructor
  · intro h
    obtain ⟨hlen, hadded, hlog⟩ := hiff.mp ⟨h.batches, h.gained⟩
    exact ⟨⟨h.consumed, hlen⟩, hadded, hlog⟩
  · rintro ⟨⟨hflat, hlen⟩, hadded, hlog⟩
    obtain ⟨hbatches, hgained⟩ := hiff.mpr ⟨hlen, hadded, hlog⟩
    exact ⟨hflat, hbatches, hgained⟩

theorem honest_iff {base start : ℤ} {l : Log} :
    (ProducePartitionResp.mk .none base start).Honest now records l
        (appendRecords now l records).1 ↔
      StoresAll now l records ∧
        ∀ off ∈ ((appendAll now l (split records)).map Prod.snd).head?, base = off := by
  have hhead : (∀ off ∈ ((appendAll now l (split records)).map Prod.snd).head?, base = off) ↔
      ∀ a ∈ (appendAll now l (split records)).head?, base = a.2 := by
    cases appendAll now l (split records) <;> simp
  rw [hhead]
  constructor
  · intro h
    obtain ⟨added, hholds, hbase⟩ := h.1 rfl
    obtain ⟨hstores, rfl, -⟩ := holds_iff.mp hholds
    exact ⟨hstores, hbase⟩
  · rintro ⟨hstores, hbase⟩
    have hholds := holds_iff.mpr ⟨hstores, rfl, rfl⟩
    exact ⟨fun _ => ⟨_, hholds, hbase⟩, fun hnot => absurd ⟨_, hholds⟩ hnot⟩

/-- What the response says if the walk returns. -/
theorem produceResponse_cases (b : Broker) {self : ℤ} (now : ℤ) {pv : Option PartitionMeta}
    (hlead : Broker.leads self pv = true) {acks : ℤ} (hacks : acks ≠ 0) (timely : Bool)
    (hret : Wedged now b.log records = false) :
    let offs := (appendAll now b.log (split records)).map Prod.snd
    ∃ start, (StoresAll now b.log records ∧
        produceResponse b self now pv acks timely records
          = if acks = -1 ∧ timely = false ∧ 0 ≤ reported (-1) offs
            then some ⟨.requestTimedOut, -1, start⟩
            else some ⟨.none, reported (-1) offs, start⟩) ∨
      ¬ StoresAll now b.log records ∧
        ∃ base, produceResponse b self now pv acks timely records = some ⟨.none, base, start⟩ := by
  intro offs
  obtain ⟨hstate, hend⟩ := iterate_explains (appendBatch now) records ⟨b.log, -1, []⟩
  rw [taken_appendBatch] at hend
  simp only [produceResponse, produce, if_pos hlead, if_neg hacks]
  rw [Wedged, appendRecords] at hret
  rw [appendRecords]
  rcases hit : iterate (appendBatch now) records ⟨b.log, -1, []⟩ with ⟨a, n, e⟩
  rw [hit] at hstate hend hret
  dsimp only at hstate hend hret
  -- a walk that stops early has not stored everything
  have hpart : ((appendAll now b.log (split records)).map Prod.fst).flatten ≠ records →
      ¬ StoresAll now b.log records := by
    rintro hne ⟨hflat, hlen⟩
    have hall := feed_appendBatch_eq_none (a := ⟨b.log, -1, []⟩).mpr hlen
    rw [← taken_appendBatch now ⟨b.log, -1, []⟩, taken_of_feed hall] at hne
    exact hne hflat
  cases e with
  | done =>
    obtain ⟨hflat, hnone⟩ := hend
    have hbase : a.base = reported (-1) offs := by rw [hstate, feed_appendBatch_base hnone]
    have hstores : StoresAll now b.log records := by
      refine ⟨?_, feed_appendBatch_eq_none.mp hnone⟩
      rw [← taken_appendBatch now ⟨b.log, -1, []⟩, taken_of_feed hnone] at hflat
      exact hflat
    refine ⟨a.log.earliestOffset, .inl ⟨hstores, ?_⟩⟩
    rw [← hbase]
    by_cases h0 : 0 ≤ a.base
    · simp [h0]
    · simp [h0]
  | malformed e => exact ⟨_, .inr ⟨hpart hend.1, _, rfl⟩⟩
  | refused f =>
    cases f with
    | error e => exact ⟨_, .inr ⟨hpart hend.1, _, rfl⟩⟩
    | panic | hang => cases hret
  | panic | hang => cases hret

/-- There is no response if the walk does not return. -/
theorem produceResponse_wedged (b : Broker) {self : ℤ} (now : ℤ) {pv : Option PartitionMeta}
    (hlead : Broker.leads self pv = true) (acks : ℤ) (timely : Bool)
    (h : Wedged now b.log records = true) :
    produceResponse b self now pv acks timely records = none := by
  have hstuck : (appendRecords now b.log records).2 = .stuck := of_decide_eq_true h
  simp [produceResponse, produce, if_pos hlead, hstuck]

/-- **A response is honest exactly if all batches were stored.**  The node that leads the
partition answers honestly, about what its log has after the request in addition to what it
had before, if and only if the walk over the records does not return, or the records are whole
batches that the log accepts one and all and the loop reports the first of their offsets (or
the wait for the high watermark times out). -/
theorem no_false_success (b : Broker) (self now : ℤ) (pv : Option PartitionMeta)
    (hlead : Broker.leads self pv = true) (acks : ℤ) (hacks : acks ≠ 0) (timely : Bool)
    (records : Bytes) :
    (∀ r, produceResponse b self now pv acks timely records = some r →
        r.Honest now records b.log (produce b self now pv records).1.log) ↔
      Wedged now b.log records = true ∨
        StoresAll now b.log records ∧
          (FirstReported ((appendAll now b.log (split records)).map Prod.snd) ∨
            acks = -1 ∧ timely = false ∧
              ∃ off ∈ (appendAll now b.log (split records)).map Prod.snd, 0 ≤ off) := by
  have hlog : (produce b self now pv records).1.log = (appendRecords now b.log records).1 := by
    rw [produce, if_pos hlead]
  rw [hlog]
  cases hw : Wedged now b.log records with
  | true => simp [produceResponse_wedged b now hlead acks timely hw]
  | false =>
    obtain ⟨start, ⟨hstores, hresp⟩ | ⟨hnot, base, hresp⟩⟩ :=
      produceResponse_cases b now hlead hacks timely hw
    · have hnonneg : 0 ≤ reported (-1) ((appendAll now b.log (split records)).map Prod.snd) ↔
          ∃ off ∈ (appendAll now b.log (split records)).map Prod.snd, 0 ≤ off := by
        rw [reported_nonneg]
        simp
      simp only [hresp, hnonneg, firstReported_iff]
      by_cases htimeout : acks = -1 ∧ timely = false ∧
          ∃ off ∈ (appendAll now b.log (split records)).map Prod.snd, 0 ≤ off
      · simp only [if_pos htimeout, Option.some.injEq, forall_eq']
        exact ⟨fun _ => .inr ⟨hstores, .inr htimeout⟩,
          fun _ => honest_of_error (by simp) _ _ _ _⟩
      · simp only [htimeout, if_false, Option.some.injEq, forall_eq', honest_iff, hstores,
          true_and, or_false, Bool.false_eq_true, false_or]
    · simp only [hresp, Option.some.injEq, forall_eq', honest_iff, hnot, false_and,
        Bool.false_eq_true, or_self]

/-- The node 0 leads the partition. -/
def leading : Option PartitionMeta := some ⟨[0], 0, [0], 0⟩

/-- Two whole batches, stored at the offsets 0 and 2. -/
theorem no_false_success_two :
    let b := Broker.fresh ⟨1000, 0⟩ 0
    let records := makeBatch 2 [] ++ makeBatch 1 [7]
    produceResponse b 0 1 leading 1 true records = some ⟨.none, 0, 0⟩ ∧
      (produce b 0 1 leading records).1.log.batches
        = [stamp 0 (makeBatch 2 []), stamp 2 (makeBatch 1 [7])] ∧
      ∀ r, produceResponse b 0 1 leading 1 true records = some r →
        r.Honest 1 records b.log (produce b 0 1 leading records).1.log :=
  ⟨by decide +kernel, by decide +kernel,
    (no_false_success _ 0 1 leading (by decide) 1 (by decide) true _).mpr (by decide +kernel)⟩

/-- **A cut set is acknowledged.**  The second batch lacks its last byte; the response has
error code 0 and the base offset of the first batch, which is all that was stored. -/
theorem cut_set_acknowledged :
    let b := Broker.fresh ⟨1000, 0⟩ 0
    let records := makeBatch 2 [] ++ (makeBatch 1 [7]).dropLast
    produceResponse b 0 1 leading 1 true records = some ⟨.none, 0, 0⟩ ∧
      (produce b 0 1 leading records).1.log.batches = [stamp 0 (makeBatch 2 [])] ∧
      ¬ (ProducePartitionResp.mk .none 0 0).Honest 1 records b.log
          (produce b 0 1 leading records).1.log := by
  refine ⟨by decide +kernel, by decide +kernel, fun h => ?_⟩
  obtain ⟨added, hholds, -⟩ := h.1 rfl
  exact absurd hholds.consumed (by decide +kernel)

end Server
end Mq
