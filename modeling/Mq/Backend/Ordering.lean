import Mq.Object.Handle
import Mq.Storage.Mutation

/-!
# Earliest offset, high watermark and log end

Three counters of a log that six calls move: the earliest retained offset, the high
watermark and the log end.  The appends and `SetHighWatermark` keep them in order.
Retention looks at age and size only, and so it keeps them in order as long as what it
drops ends at or below the high watermark.

## Main definitions

* `Log.Spares`, `Handle.Spares` — the oldest segment (ref) that ends above the high
  watermark is neither expired nor asked for by the size limit.
* `Log.Keeps`, `Handle.Keeps` — the condition on a call.

## Main results

* `Log.Spares.earliestOffset_le`, `Handle.Spares.cutoff_le` — such a pass stays below the
  high watermark.
* `offsets_ordered` — **the three offsets stay in order and never go back**, on both
  backends.
* `retention_passes_hwm` — retention removes records above the high watermark.
-/

namespace Mq

/-! ### The file log -/

namespace Storage

open Word Record Transition

/-- The closed segments, each with the offset that it ends at. -/
def Log.closedExtents (l : Log) : List (Segment × ℤ) := l.sealed.zip l.bases.tail

/-- The oldest closed segment that ends above the high watermark is not expired, and from
it on the log is not too large. -/
def Log.Spares (l : Log) (now maxAgeMs maxBytes : ℤ) : Prop :=
  Retention.Spares (fun x => x.1.expired now maxAgeMs) (overSize maxBytes) (fun x => x.1.logSize)
    (fun x => decide (x.2 ≤ l.highWatermark)) l.size l.closedExtents

instance (l : Log) (now maxAgeMs maxBytes : ℤ) : Decidable (l.Spares now maxAgeMs maxBytes) :=
  inferInstanceAs (Decidable (Retention.Spares ..))

theorem head_bases (l : Log) : l.bases.head? = some l.earliestOffset := by
  rw [Log.bases, Log.segments, Log.earliestOffset]
  cases l.sealed with
  | nil => rfl
  | cons s ss => rfl

/-- How many segments a retention pass drops. -/
def Log.dropped (l : Log) (now maxAgeMs maxBytes : ℤ) : ℕ :=
  Retention.dropCount (fun x => x.1.expired now maxAgeMs) (overSize maxBytes) (fun x => x.1.logSize)
    l.size l.closedExtents

/-- The base offsets that a retention pass leaves. -/
theorem bases_enforceRetention (l : Log) (now maxAgeMs maxBytes : ℤ) :
    (l.enforceRetention now maxAgeMs maxBytes).bases
      = l.bases.drop (l.dropped now maxAgeMs maxBytes) := by
  have hlen : l.sealed.length ≤ l.bases.tail.length := by
    rw [List.length_tail, bases_eq, List.length_append, List.length_map]
    simp
  have hfst : l.closedExtents.map Prod.fst = l.sealed := List.map_fst_zip hlen
  have hcount : Retention.dropCount (Segment.expired now maxAgeMs) (overSize maxBytes) (·.logSize)
      l.size l.sealed = l.dropped now maxAgeMs maxBytes := by
    rw [← hfst, Retention.dropCount_map]
    rfl
  have hle : l.dropped now maxAgeMs maxBytes ≤ l.sealed.length := by
    rw [← hcount]
    exact Retention.dropCount_le_length _ _
  have hsealed : (l.enforceRetention now maxAgeMs maxBytes).sealed
      = l.sealed.drop (l.dropped now maxAgeMs maxBytes) := by
    rw [← hcount]
    exact retentionLoop_eq_dropCount now maxAgeMs maxBytes l.size l.sealed
  rw [bases_eq, bases_eq, hsealed, List.map_drop, List.drop_append_of_le_length (by simpa using hle)]
  rfl

/-- **A pass that spares what is above the high watermark** leaves the earliest offset at or
below it. -/
theorem Log.Spares.earliestOffset_le {l : Log} {now maxAgeMs maxBytes : ℤ}
    (h : l.Spares now maxAgeMs maxBytes) (hle : l.earliestOffset ≤ l.highWatermark) :
    (l.enforceRetention now maxAgeMs maxBytes).earliestOffset ≤ l.highWatermark := by
  have hhead := head_bases (l.enforceRetention now maxAgeMs maxBytes)
  rw [bases_enforceRetention, List.head?_drop] at hhead
  cases hn : l.dropped now maxAgeMs maxBytes with
  | zero =>
    rw [hn, ← List.head?_eq_getElem?, head_bases] at hhead
    exact (Option.some.inj hhead) ▸ hle
  | succ n =>
    -- the last segment that was dropped ends where the log now starts
    rw [hn, ← List.getElem?_tail] at hhead
    have hsealed : n < l.sealed.length := by
      have : l.dropped now maxAgeMs maxBytes ≤ l.closedExtents.length :=
        Retention.dropCount_le_length _ _
      rw [Log.closedExtents, List.length_zip] at this
      omega
    have hitem : l.closedExtents[n]? = some (l.sealed[n], _) :=
      List.getElem?_zip_eq_some.mpr ⟨List.getElem?_eq_getElem hsealed, hhead⟩
    exact of_decide_eq_true (Retention.Spares.getElem_below h
      (by change n < l.dropped now maxAgeMs maxBytes; omega) hitem)

/-- The earliest offset does not go back where the bases are a suffix, or grow at the end. -/
theorem Log.Rising.earliestOffset_mono {l l' : Log} (h : l.Rising)
    (hbases : l.bases <+: l'.bases ∨ ∃ n, l'.bases = l.bases.drop n) :
    l.earliestOffset ≤ l'.earliestOffset := by
  have hhead := head_bases l
  have hhead' := head_bases l'
  rcases hbases with ⟨t, ht⟩ | ⟨n, hn⟩
  · rw [← ht, List.head?_append, hhead] at hhead'
    exact le_of_eq (Option.some.inj hhead')
  · obtain ⟨bs, hbs⟩ : ∃ bs, l.bases = l.earliestOffset :: bs := by
      cases hb : l.bases with
      | nil => rw [hb] at hhead; cases hhead
      | cons b bs => rw [hb] at hhead; exact ⟨bs, by rw [Option.some.inj hhead]⟩
    have hmem : l'.earliestOffset ∈ l.bases := by
      have := List.mem_of_mem_head? (show l'.earliestOffset ∈ l'.bases.head? from hhead')
      rw [hn] at this
      exact List.mem_of_mem_drop this
    have hpair := h.pairwise
    rw [hbs] at hmem hpair
    rcases List.mem_cons.mp hmem with heq | hmem
    · exact heq.ge
    · exact (List.rel_of_pairwise_cons hpair hmem).le

/-- The condition on a call: a batch is well formed and its offsets fit 64 bits, and a
retention pass spares what ends above the high watermark. -/
def Log.Keeps (l : Log) : Mutation → Prop
  | .append _ batch => WellFormed batch ∧
      l.nextOffset + (header batch).recordCount < 9223372036854775808
  | .appendReplica _ batch => WellFormed batch ∧
      l.nextOffset + (header batch).recordCount < 9223372036854775808
  | .enforceRetention now maxAgeMs maxBytes => l.Spares now maxAgeMs maxBytes
  | _ => True

instance (l : Log) : DecidablePred l.Keeps
  | .append .. => inferInstanceAs (Decidable (_ ∧ _))
  | .appendReplica .. => inferInstanceAs (Decidable (_ ∧ _))
  | .enforceRetention .. => inferInstanceAs (Decidable (Log.Spares ..))
  | .setHighWatermark _ => .isTrue trivial
  | .holdHighWatermark => .isTrue trivial
  | .flush => .isTrue trivial

theorem Log.Keeps.advances {l : Log} {m : Mutation} (h : l.Keeps m) : l.Advances m := by
  cases m with
  | append now batch => exact ⟨h.1.2.2, h.2⟩
  | appendReplica now batch =>
    obtain ⟨⟨-, hdelta, hcount⟩, hroom⟩ := h
    exact ⟨by omega, by omega⟩
  | _ => trivial

/-- Earliest offset, high watermark and log end are in order. -/
def Log.InOrder (l : Log) : Prop :=
  l.earliestOffset ≤ l.highWatermark ∧ l.highWatermark ≤ l.latestOffset

/-- None of the three goes back. -/
def Log.Forward (l l' : Log) : Prop :=
  l.earliestOffset ≤ l'.earliestOffset ∧ l.highWatermark ≤ l'.highWatermark ∧
    l.latestOffset ≤ l'.latestOffset

/-- **One call** on the file log. -/
theorem Log.InOrder.mutate {l : Log} (hr : l.Rising) (h : l.InOrder) {m : Mutation}
    (hm : l.Keeps m) : (l.mutate m).Rising ∧ (l.mutate m).InOrder ∧ l.Forward (l.mutate m) := by
  by_cases hret : ∃ now maxAgeMs maxBytes, m = .enforceRetention now maxAgeMs maxBytes
  · obtain ⟨now, maxAgeMs, maxBytes, rfl⟩ := hret
    have hbases := bases_enforceRetention l now maxAgeMs maxBytes
    have hle : (l.enforceRetention now maxAgeMs maxBytes).earliestOffset ≤ l.highWatermark :=
      Log.Spares.earliestOffset_le hm h.1
    exact ⟨hr.of_drop rfl ⟨_, retentionLoop_eq_dropCount _ _ _ _ _⟩ rfl, ⟨hle, h.2⟩,
      hr.earliestOffset_mono (.inr ⟨_, hbases⟩), le_rfl, le_rfl⟩
  · push Not at hret
    obtain ⟨next, hwm, hsteps, hnext, hhwm, hle, -⟩ := hr.mutate h.2 hm.advances hret
    have hearliest : (l.mutate m).earliestOffset = l.earliestOffset := by
      obtain ⟨t, ht⟩ := hsteps.bases
      have hhead := head_bases (l.mutate m)
      rw [← ht, List.head?_append, head_bases] at hhead
      exact (Option.some.inj hhead).symm
    refine ⟨hsteps.rising, ⟨?_, ?_⟩, hearliest.ge, ?_, ?_⟩
    · rw [hearliest, hsteps.hwm]
      exact h.1.trans hhwm
    · rw [Log.latestOffset, hsteps.hwm, hsteps.next]
      exact hle
    · rw [hsteps.hwm]
      exact hhwm
    · rw [Log.latestOffset, Log.latestOffset, hsteps.next]
      exact hnext

end Storage

/-! ### The object backend -/

namespace Object

open Word Record Transition

/-- The ref is older than the limit. -/
def SegmentRef.expired (nowMs maxAgeMs : ℤ) (r : SegmentRef) : Bool :=
  decide (0 < maxAgeMs ∧ maxAgeMs < nowMs - r.uploadedMs)

/-- Retention is dropping the oldest refs. -/
theorem retentionLoop_eq_dropCount (nowMs maxAgeMs maxBytes total : ℤ) (refs : List SegmentRef) :
    Storage.retentionLoop nowMs maxAgeMs maxBytes total refs
      = Retention.dropCount (SegmentRef.expired nowMs maxAgeMs) (Mq.Storage.overSize maxBytes)
          (·.length) total refs := by
  induction refs generalizing total with
  | nil => rfl
  | cons r refs ih =>
    rw [Storage.retentionLoop, Retention.dropCount, ih, SegmentRef.expired, Mq.Storage.overSize,
      ← Bool.decide_or]
    simp only [decide_eq_true_eq]

namespace Handle

/-- The oldest ref that ends above the high watermark is not expired, and from it on the
partition is not too large. -/
def Spares (h : Handle) (nowMs maxAgeMs maxBytes : ℤ) : Prop :=
  Retention.Spares (SegmentRef.expired nowMs maxAgeMs) (Mq.Storage.overSize maxBytes) (·.length)
    (fun r => decide (r.nextOffset ≤ h.log.highWatermark)) (h.storage.size h.key)
    (h.storage.index.refsFor h.key)

instance (h : Handle) (nowMs maxAgeMs maxBytes : ℤ) :
    Decidable (h.Spares nowMs maxAgeMs maxBytes) :=
  inferInstanceAs (Decidable (Retention.Spares ..))

/-- **A pass that spares what is above the high watermark** has its cutoff at or below it. -/
theorem Spares.cutoff_le {h : Handle} {nowMs maxAgeMs maxBytes : ℤ}
    (hs : h.Spares nowMs maxAgeMs maxBytes) {e : ℤ}
    (he : (h.storage.enforceRetention h.key nowMs maxAgeMs maxBytes).2 = some e) :
    e ≤ h.log.highWatermark := by
  unfold Storage.enforceRetention at he
  dsimp only at he
  rw [retentionLoop_eq_dropCount] at he
  split at he
  · cases he
  · next n hn =>
    split at he
    · cases he
    · next r hr =>
      obtain rfl := Option.some.inj he
      exact of_decide_eq_true (Retention.Spares.getElem_below hs
        (show n < Retention.dropCount _ _ _ (h.storage.size h.key) _ by
          rw [Storage.size, hn]; exact Nat.lt_succ_self n) hr)

/-! ### Calls -/

/-- The calls on a partition of the object backend. -/
inductive Request
  | append (batch : Bytes)
  | appendReplica (batch : Bytes)
  | setHighWatermark (hwm : ℤ)
  | holdHighWatermark
  | upload (nowMs : ℤ)
  | enforceRetention (nowMs maxAgeMs maxBytes : ℤ)
  deriving DecidableEq, Repr

def serve (h : Handle) : Request → Handle
  | .append batch => (h.append batch).1
  | .appendReplica batch => (h.appendReplica batch).1
  | .setHighWatermark hwm => h.setHighWatermark hwm
  | .holdHighWatermark => h.holdHighWatermark
  | .upload nowMs => h.upload nowMs
  | .enforceRetention nowMs maxAgeMs maxBytes => h.enforceRetention nowMs maxAgeMs maxBytes

/-- The condition on a call, as for the file log. -/
def Keeps (h : Handle) : Request → Prop
  | .append batch => Record.WellFormed batch ∧
      h.log.nextOffset + (header batch).recordCount < 9223372036854775808
  | .appendReplica batch => Record.WellFormed batch ∧
      h.log.nextOffset + (header batch).recordCount < 9223372036854775808
  | .enforceRetention nowMs maxAgeMs maxBytes => h.Spares nowMs maxAgeMs maxBytes
  | _ => True

instance (h : Handle) : DecidablePred h.Keeps
  | .append _ => inferInstanceAs (Decidable (_ ∧ _))
  | .appendReplica _ => inferInstanceAs (Decidable (_ ∧ _))
  | .enforceRetention .. => inferInstanceAs (Decidable (Spares ..))
  | .setHighWatermark _ => .isTrue trivial
  | .holdHighWatermark => .isTrue trivial
  | .upload _ => .isTrue trivial

/-- Earliest offset, high watermark and log end are in order. -/
def InOrder (h : Handle) : Prop :=
  h.log.earliest ≤ h.log.highWatermark ∧ h.log.highWatermark ≤ h.log.nextOffset

/-- None of the three goes back. -/
def Forward (h h' : Handle) : Prop :=
  h.log.earliest ≤ h'.log.earliest ∧ h.log.highWatermark ≤ h'.log.highWatermark ∧
    h.log.nextOffset ≤ h'.log.nextOffset

variable {h : Handle}

/-- The log end moves up, and the high watermark may follow. -/
theorem InOrder.advance (hi : h.InOrder) {next : ℤ} (hnext : h.log.nextOffset ≤ next)
    (s : Storage) (replica : Bool) :
    InOrder { h with storage := s, log := h.log.advance next replica } ∧
      h.Forward { h with storage := s, log := h.log.advance next replica } := by
  obtain ⟨h₁, h₂⟩ := hi
  simp only [InOrder, Forward, ObjectLog.advance]
  refine ⟨⟨?_, ?_⟩, le_rfl, ?_, hnext⟩ <;> split <;> omega

theorem InOrder.self (hi : h.InOrder) : h.InOrder ∧ h.Forward h := ⟨hi, le_rfl, le_rfl, le_rfl⟩

/-- A batch that is stored. -/
theorem InOrder.store (hi : h.InOrder) {base next : ℤ} {batch : Bytes} {replica : Bool}
    {h' : Handle} (hs : h.store base batch next replica = some h')
    (hnext : h.log.nextOffset ≤ next) : h'.InOrder ∧ h.Forward h' := by
  rw [Handle.store] at hs
  obtain ⟨s, -, rfl⟩ := Option.map_eq_some_iff.mp hs
  exact hi.advance hnext s replica

theorem InOrder.append (hpos : 0 ≤ h.log.nextOffset) (hi : h.InOrder) {batch : Bytes}
    (hk : h.Keeps (.append batch)) : (h.append batch).1.InOrder ∧ h.Forward (h.append batch).1 := by
  obtain ⟨hw, hroom⟩ := hk
  obtain ⟨-, hnext⟩ := stamp_offsets hpos hw hroom
  have hcount := hw.2.2
  unfold Handle.append
  split
  · exact hi.self
  · dsimp only
    split
    · exact hi.self
    · next hd hparse =>
      obtain ⟨-, -, rfl⟩ := parseHeader_eq_ok.mp hparse
      split
      · exact hi.self
      · next h' hs =>
        refine hi.store hs ?_
        change h.log.nextOffset ≤ nextOf (stamp h.log.nextOffset batch)
        omega

theorem InOrder.appendReplica (hi : h.InOrder) {batch : Bytes}
    (hk : h.Keeps (.appendReplica batch)) :
    (h.appendReplica batch).1.InOrder ∧ h.Forward (h.appendReplica batch).1 := by
  obtain ⟨hw, hroom⟩ := hk
  have hcount := hw.2.2
  rw [Handle.appendReplica, hw.1.parseHeader]
  dsimp only
  split
  · exact hi.self
  · split
    · exact hi.self
    · next hge hle =>
      have hbase : (header batch).baseOffset = h.log.nextOffset := by omega
      split
      · exact hi.self
      · next h' hs =>
        refine hi.store hs ?_
        change h.log.nextOffset ≤ nextOf batch
        rw [nextOf_eq hw (hbase ▸ hroom)]
        omega

/-- **One call** on the object backend. -/
theorem InOrder.serve (hpos : 0 ≤ h.log.nextOffset) (hi : h.InOrder) {r : Request}
    (hk : h.Keeps r) : (h.serve r).InOrder ∧ h.Forward (h.serve r) := by
  cases r with
  | append batch => exact hi.append hpos hk
  | appendReplica batch => exact hi.appendReplica hk
  | setHighWatermark hwm =>
    obtain ⟨h₁, h₂⟩ := hi
    simp only [Handle.serve, Handle.setHighWatermark, ObjectLog.setHighWatermark_eq, InOrder,
      Forward]
    omega
  | holdHighWatermark => exact hi.self
  | upload nowMs => exact hi.self
  | enforceRetention nowMs maxAgeMs maxBytes =>
    obtain ⟨h₁, h₂⟩ := hi
    have hcut : ∀ e, (h.storage.enforceRetention h.key nowMs maxAgeMs maxBytes).2 = some e →
        e ≤ h.log.highWatermark := fun e he => Spares.cutoff_le hk he
    simp only [Handle.serve, Handle.enforceRetention, InOrder, Forward]
    cases he : (h.storage.enforceRetention h.key nowMs maxAgeMs maxBytes).2 with
    | none => exact ⟨⟨h₁, h₂⟩, le_rfl, le_rfl, le_rfl⟩
    | some e =>
      have := hcut e he
      simp only [ObjectLog.raiseEarliest_some]
      omega

end Handle
end Object

/-! ### Both backends -/

namespace Backend

open Word Record Transition Storage
open Object (Handle)

/-- **The three offsets stay in order and never go back**, in every run of either backend in
which the batches are well formed, the log end fits 64 bits and retention passes spare what
ends above the high watermark. -/
theorem offsets_ordered (cfg : Config) (now : ℤ) (l₀ : Log) (hopen : Log.open cfg now [] = .ok l₀)
    (ms : List Mutation) (hms : Along Log.mutate Log.Keeps l₀ ms) (h₀ : Handle) (hfresh : h₀.Fresh)
    (rs : List Handle.Request) (hrs : Along Handle.serve Handle.Keeps h₀ rs) :
    (Always Log.mutate Log.InOrder l₀ ms ∧
        Along Log.mutate (fun l m => l.Forward (l.mutate m)) l₀ ms) ∧
      Always Handle.serve Handle.InOrder h₀ rs ∧
        Along Handle.serve (fun h r => h.Forward (h.serve r)) h₀ rs := by
  constructor
  · rw [open_nil] at hopen
    obtain rfl := Except.ok.inj hopen
    have hinv : Always Log.mutate (fun l => l.Rising ∧ l.InOrder) (Log.create cfg now) ms :=
      hms.always ⟨rising_create cfg now, le_rfl, le_rfl⟩ fun l m hl hm =>
        ⟨(hl.2.mutate hl.1 hm).1, (hl.2.mutate hl.1 hm).2.1⟩
    refine ⟨hinv.mono fun l hl => hl.2, (hinv.along.and hms).mono fun l m hl => ?_⟩
    exact (hl.1.1.2.mutate hl.1.1.1 hl.2).2.2
  · have hlog := hfresh.log
    have hinv : Always Handle.serve (fun h => 0 ≤ h.log.nextOffset ∧ h.InOrder) h₀ rs := by
      refine hrs.always ?_ fun h r hh hr => ?_
      · rw [Handle.InOrder, hlog]
        exact ⟨le_rfl, le_rfl, le_rfl⟩
      · obtain ⟨hin, hfwd⟩ := hh.2.serve hh.1 hr
        exact ⟨hh.1.trans hfwd.2.2, hin⟩
    refine ⟨hinv.mono fun h hh => hh.2, (hinv.along.and hrs).mono fun h r hh => ?_⟩
    exact (hh.1.1.2.serve hh.1.1.1 hh.2).2

/-- Replication mode, with retention passes that drop what is below the high watermark. -/
def sparedCalls : List Mutation :=
  [.holdHighWatermark, .append 1 (makeBatch 2 []), .append 2 (makeBatch 3 [7]),
    .appendReplica 3 (stamp 5 (makeBatch 1 [])), .setHighWatermark 4, .enforceRetention 4 0 150,
    .setHighWatermark 9, .enforceRetention 5 1 0]

def sparedRequests : List Handle.Request :=
  [.holdHighWatermark, .append (makeBatch 2 []), .upload 1, .append (makeBatch 3 [7]), .upload 2,
    .setHighWatermark 4, .enforceRetention 3 0 100, .setHighWatermark 9, .enforceRetention 9 1 0]

theorem offsets_ordered_spared :
    ∃ l₀, Log.open ⟨100, 4096⟩ 0 [] = .ok l₀ ∧ Always Log.mutate Log.InOrder l₀ sparedCalls ∧
      Always Handle.serve Handle.InOrder Handle.empty sparedRequests :=
  have hordered := offsets_ordered ⟨100, 4096⟩ 0 _ (open_nil _ _) sparedCalls (by decide +kernel)
    Handle.empty Handle.fresh_empty sparedRequests (by decide +kernel)
  ⟨_, open_nil _ _, hordered.1.1, hordered.2.1⟩

/-! ### Retention above the high watermark -/

/-- **Retention passes the high watermark.**  In replication mode nothing has been committed
when the size limit drops the first batch; a read at the high watermark is out of range. -/
theorem retention_passes_hwm :
    (∃ l₀, Log.open ⟨100, 4096⟩ 0 [] = .ok l₀ ∧
      let l := run Log.mutate l₀
        [.holdHighWatermark, .append 1 (makeBatch 1 []), .append 2 (makeBatch 1 []),
          .enforceRetention 3 0 100]
      l.highWatermark = 0 ∧ l.earliestOffset = 1 ∧
        l.read l.highWatermark 100 = .ok ([], some .offsetOutOfRange)) ∧
      Handle.empty.Fresh ∧
      let h := run Handle.serve Handle.empty
        [.holdHighWatermark, .append (makeBatch 1 []), .upload 1, .enforceRetention 3 0 1]
      h.log.highWatermark = 0 ∧ h.log.earliest = 1 ∧
        h.read h.log.highWatermark 100 = .ok ([], some .offsetOutOfRange) :=
  ⟨⟨_, open_nil _ _, by decide +kernel⟩, Handle.fresh_empty, by decide +kernel⟩

end Backend
end Mq
