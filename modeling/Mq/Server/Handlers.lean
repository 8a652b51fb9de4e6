import Mq.Broker.Replica
import Mq.Wire.ApiKeys

/-!
# Serving produce and fetch requests

The part of `internal/server/handlers.go` that concerns one partition of a request.  A
producer's batches go to the end of the log, and with `acks = all` the response waits for
the high watermark.  A follower is served up to the log end; a consumer is served what
lies below the high watermark.

## Main definitions

* `appendRecords`, `produce` — the batches of a produce request.
* `committed` — the condition that the response of an `acks = all` request waits for.
* `buildFetch`, `clampToHighWatermark` — the records of a fetch response.

## Main results

* `produce_spec` — **well-formed batches are stored at the log end**, stamped.
* `clampToHighWatermark_flatten` — **the clamp drops whole batches**, from the first one
  that reaches the high watermark on.
-/

namespace Mq
namespace Server

open Word Record Storage Controller
open Framing (feed)

/-- The code for a partition that this node does not lead: it is not there, or another node
leads it. -/
def refusal (pv : Option PartitionMeta) : ErrorCode :=
  if pv.isNone then .unknownTopicOrPart else .notLeader

/-! ### Produce requests -/

/-- What the loop over the batches of a request closes over: the log, the base offset to
report (negative before the first batch), and the batches as they were stored. -/
structure Appended where
  log : Log
  base : ℤ
  stored : List Bytes

/-- The callback that `Iterate` is called with.  A failing append returns the offset 0. -/
def appendBatch (now : ℤ) (a : Appended) (batch : Bytes) : Appended × Option Failure :=
  match a.log.append now batch with
  | (l, .ok off) => (⟨l, if a.base < 0 then off else a.base, a.stored ++ [stamp off batch]⟩, none)
  | (l, .error e) => (⟨l, if a.base < 0 then 0 else a.base, a.stored⟩, some e)

/-- What becomes of the records of one partition of an `acks = all` request. -/
inductive Produced
  /-- The node does not serve the partition. -/
  | refused (code : ErrorCode)
  /-- The response waits until the high watermark reaches `target`. -/
  | wait (base target : ℤ) (stored : List Bytes)
  /-- The response goes out at once, without an error code: there was no batch, or one of
  them failed. -/
  | respond (base : ℤ) (stored : List Bytes)
  /-- A batch that is too short for its own header ends the process, and one of length
  zero is visited for ever. -/
  | stuck
  deriving DecidableEq

/-- The loop over the batches, on the log of a partition that the node leads. -/
def appendRecords (now : ℤ) (l : Log) (records : Bytes) : Log × Produced :=
  match iterate (appendBatch now) records ⟨l, -1, []⟩ with
  | (a, _, .done) =>
    (a.log, if 0 ≤ a.base then .wait a.base a.log.latestOffset a.stored else .respond a.base a.stored)
  | (a, _, .malformed _) | (a, _, .refused (.error _)) => (a.log, .respond a.base a.stored)
  | (a, _, _) => (a.log, .stuck)

def produce (b : Broker) (self now : ℤ) (pv : Option PartitionMeta) (records : Bytes) :
    Broker × Produced :=
  if Broker.leads self pv then
    ({ b with log := (appendRecords now b.log records).1 }, (appendRecords now b.log records).2)
  else (b, .refused (refusal pv))

/-- The walk over the records does not return: a batch size is negative, or a batch is too
short for the fields that the log writes into it. -/
def Wedged (now : ℤ) (l : Log) (records : Bytes) : Bool :=
  decide ((appendRecords now l records).2 = .stuck)

/-- The log after the loop. -/
theorem log_appendRecords (now : ℤ) (l : Log) (records : Bytes) :
    (appendRecords now l records).1
      = (feed (appendBatch now) ⟨l, -1, []⟩ (split records)).1.log := by
  rw [← iterate_eq_feed, appendRecords]
  rcases iterate (appendBatch now) records ⟨l, -1, []⟩ with ⟨a, n, e⟩
  cases e with
  | refused f => cases f <;> rfl
  | _ => rfl

/-- One look at the high watermark. -/
def committed (l : Log) (target : ℤ) : Bool := target ≤ l.highWatermark

/-! ### Fetch requests -/

/-- Why the clamp stops. -/
inductive ClampStop
  | malformed (e : Record.Err)
  | atHighWatermark
  deriving DecidableEq, Repr

/-- One batch of the clamp: it is kept if it lies below the high watermark. -/
def clampBatch (hwm keep : ℤ) (batch : Bytes) : ℤ × Option ClampStop :=
  match parseHeader batch with
  | .error e => (keep, some (.malformed e))
  | .ok h => if hwm ≤ h.lastOffset then (keep, some .atHighWatermark) else (keep + h.totalSize, none)

/-- Trim a record set to the batches below the high watermark. -/
def clampToHighWatermark (data : Bytes) (hwm : ℤ) : Bytes :=
  if data = [] then data else data.take (iterate (clampBatch hwm) data 0).1.toNat

def defaultFetchBytes : ℤ := 1048576

/-- The response for one partition of a fetch request. -/
structure FetchPartitionResp where
  errorCode : ErrorCode
  highWatermark : ℤ
  logStartOffset : ℤ
  records : Bytes
  deriving DecidableEq, Repr

/-- A replica's fetch (its id is not negative) is recorded, a consumer's is clamped.  There
is no response if the read does not return. -/
def buildFetch (b : Broker) (self now : ℤ) (pv : Option PartitionMeta)
    (replicaID offset maxBytes : ℤ) : Broker × Option FetchPartitionResp :=
  if Broker.leads self pv then
    match b.log.read offset (if maxBytes ≤ 0 then defaultFetchBytes else maxBytes) with
    | .error _ => (b, none)
    | .ok (data, err) =>
      let code := if err = some .offsetOutOfRange then .offsetOutOfRange else .none
      let hwm := b.log.highWatermark
      if 0 ≤ replicaID then
        (b.recordReplicaFetch self now pv replicaID offset,
          some ⟨code, hwm, b.log.earliestOffset, data⟩)
      else (b, some ⟨code, hwm, b.log.earliestOffset, clampToHighWatermark data hwm⟩)
  else (b, some ⟨refusal pv, 0, 0, []⟩)

/-! ### What a produce request stores -/

variable {bs : List Bytes}

theorem recordCount_nonneg (h : ∀ b ∈ bs, WellFormed b) : 0 ≤ offsetCount bs := by
  induction bs with
  | nil => exact le_rfl
  | cons b bs ih =>
    have := (h b List.mem_cons_self).2.2
    have := ih fun c hc => h c (List.mem_cons_of_mem b hc)
    rw [offsetCount_cons]
    omega

/-- The loop over well-formed batches that there is room for. -/
theorem feed_appendBatch (now : ℤ) (hwf : ∀ b ∈ bs, WellFormed b) {l : Log} (hl : l.Whole)
    (hroom : l.Room bs) (base : ℤ) (stored : List Bytes) :
    ∃ l', feed (appendBatch now) ⟨l, base, stored⟩ bs
        = (⟨l', if base < 0 ∧ bs ≠ [] then l.nextOffset else base,
            stored ++ stampAll l.nextOffset bs⟩, none) ∧
      l'.Whole ∧ l'.batches = l.batches ++ stampAll l.nextOffset bs ∧ l'.holdHWM = l.holdHWM ∧
      l'.highWatermark
        = if l.holdHWM = true ∨ bs = [] then l.highWatermark else l'.nextOffset := by
  induction bs generalizing l base stored with
  | nil =>
    refine ⟨l, ?_, hl, by simp [stampAll], rfl, (if_pos (.inr rfl)).symm⟩
    simp [feed, stampAll]
  | cons b bs ih =>
    have hw := hwf b List.mem_cons_self
    have hrest := fun c hc => hwf c (List.mem_cons_of_mem b hc)
    obtain ⟨l₁, happ, hl₁, hroom₁, hbatches, hhold, hhwm⟩ :=
      hl.append now hw hroom (recordCount_nonneg hrest)
    have hnext : l₁.nextOffset = l.nextOffset + (header b).recordCount := by
      rw [hl₁.nextOffset_eq, hbatches, offsetCount_append, offsetCount_cons, offsetCount_nil,
        header_stamp hw.1.1, hl.nextOffset_eq]
      dsimp only
      omega
    obtain ⟨l', hfeed, hl', hbatches', hhold', hhwm'⟩ := ih hrest hl₁ hroom₁
      (if base < 0 then l.nextOffset else base) (stored ++ [stamp l.nextOffset b])
    have hnonneg : 0 ≤ l.nextOffset := hl.nonneg.trans hl.le_next
    refine ⟨l', ?_, hl', ?_, hhold'.trans hhold, ?_⟩
    · rw [feed, appendBatch, happ]
      dsimp only
      rw [hfeed, hnext, if_neg (by split <;> omega), stampAll, List.append_assoc]
      simp
    · rw [hbatches', hbatches, hnext, stampAll, List.append_assoc]
      rfl
    · rw [hhwm', hhwm, hhold]
      by_cases h : l.holdHWM = true
      · simp [h]
      · by_cases hnil : bs = []
        · have : l₁.nextOffset = l'.nextOffset := by
            rw [hl₁.nextOffset_eq, hl'.nextOffset_eq, hbatches', hnil]
            simp [stampAll]
          simp [h, hnil, this]
        · simp [h, hnil]

/-- The records are a concatenation of well-formed batches. -/
def WellFormedSet (records : Bytes) : Prop :=
  (∀ b ∈ split records, WellFormed b) ∧ (split records).flatten = records

instance (records : Bytes) : Decidable (WellFormedSet records) :=
  inferInstanceAs (Decidable (_ ∧ _))

theorem wellFormedSet_flatten (h : ∀ b ∈ bs, WellFormed b) : WellFormedSet bs.flatten := by
  rw [WellFormedSet, split_flatten fun b hb => (h b hb).1]
  exact ⟨h, rfl⟩

/-- **Well-formed batches are stored at the log end**, and the response waits for the high
watermark to pass them. -/
theorem produce_spec {b : Broker} (hb : b.log.Whole) {self : ℤ} {pv : Option PartitionMeta}
    (hlead : Broker.leads self pv = true) (now : ℤ) {records : Bytes} (hwf : WellFormedSet records)
    (hroom : b.log.Room (split records)) :
    ∃ l', l'.Whole ∧ l'.batches = b.log.batches ++ stampAll b.log.nextOffset (split records) ∧
      l'.holdHWM = b.log.holdHWM ∧
      l'.highWatermark = (if b.log.holdHWM = true ∨ split records = [] then b.log.highWatermark
        else l'.nextOffset) ∧
      produce b self now pv records = ({ b with log := l' },
        if split records = [] then .respond (-1) []
        else .wait b.log.nextOffset l'.nextOffset (stampAll b.log.nextOffset (split records))) := by
  obtain ⟨hall, hflat⟩ := hwf
  obtain ⟨l', hfeed, hl', hbatches, hhold, hhwm⟩ := feed_appendBatch now hall hb hroom (-1) []
  refine ⟨l', hl', hbatches, hhold, hhwm, ?_⟩
  obtain ⟨hstate, hend⟩ := iterate_flatten (appendBatch now) ⟨b.log, -1, []⟩
    fun c hc => (hall c hc).1
  rw [hflat, hfeed] at hstate hend
  rw [produce, if_pos hlead, appendRecords]
  rcases hit : iterate (appendBatch now) records ⟨b.log, -1, []⟩ with ⟨a, n, e⟩
  rw [hit] at hstate hend
  dsimp only at hstate hend
  subst hstate hend
  dsimp only [Option.elim]
  have hnonneg : 0 ≤ b.log.nextOffset := hb.nonneg.trans hb.le_next
  by_cases hnil : split records = []
  · rw [if_pos hnil, if_neg (by simp [hnil]), hnil]
    simp [stampAll]
  · rw [if_neg hnil, if_pos (by simp [hnil]; exact hnonneg)]
    simp [hnil, Log.latestOffset]

/-! ### What a consumer is given -/

/-- The clamp of a list of batches. -/
def below (hwm : ℤ) (bs : List Bytes) : List Bytes :=
  bs.takeWhile fun b => decide ((header b).lastOffset < hwm)

theorem feed_clampBatch (hwm : ℤ) (hbs : ∀ b ∈ bs, Framed b) (keep : ℤ) :
    (feed (clampBatch hwm) keep bs).1 = keep + (below hwm bs).flatten.length := by
  induction bs generalizing keep with
  | nil => simp [feed, below]
  | cons b bs ih =>
    have hb := hbs b List.mem_cons_self
    rw [feed, clampBatch, hb.parseHeader]
    by_cases hlt : (header b).lastOffset < hwm
    · have hkeep : below hwm (b :: bs) = b :: below hwm bs :=
        List.takeWhile_cons_of_pos (decide_eq_true hlt)
      dsimp only
      rw [if_neg (by omega)]
      dsimp only
      rw [ih (fun c hc => hbs c (List.mem_cons_of_mem b hc)), hkeep, List.flatten_cons,
        List.length_append, ← hb.2.2]
      push_cast
      omega
    · have hstop : below hwm (b :: bs) = [] :=
        List.takeWhile_cons_of_neg (by simpa using hlt)
      dsimp only
      rw [if_pos (by omega), hstop]
      simp

/-- **The clamp drops whole batches.** -/
theorem clampToHighWatermark_flatten (hwm : ℤ) (hbs : ∀ b ∈ bs, Framed b) :
    clampToHighWatermark bs.flatten hwm = (below hwm bs).flatten := by
  have hpre : below hwm bs <+: bs := List.takeWhile_prefix _
  obtain ⟨rest, hrest⟩ := hpre
  rw [clampToHighWatermark]
  split
  · next hnil =>
    have hle := congrArg (fun cs => cs.flatten.length) hrest
    simp only [List.flatten_append, List.length_append, hnil, List.length_nil] at hle
    rw [hnil, List.eq_nil_of_length_eq_zero (l := (below hwm bs).flatten) (by omega)]
  · rw [iterate_eq_feed, split_flatten hbs, feed_clampBatch hwm hbs, zero_add, Int.toNat_natCast]
    have hflat : bs.flatten = (below hwm bs).flatten ++ rest.flatten := by
      rw [← List.flatten_append, hrest]
    rw [hflat]
    exact List.take_left

end Server
end Mq
