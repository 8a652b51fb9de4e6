import Mq.Backend.Ordering
import Mq.Storage.Growth

/-!
# What retention removes

A retention pass removes the oldest closed segments (of the object backend: the oldest
uploaded refs) as long as the next one has expired or the size of what is left is beyond the
limit.  It should remove no more than that and no less, and nobody should notice but the one
who reads below the new earliest offset.

The file log computes the age limit in nanoseconds, where a large limit wraps, so that
everything has expired.  The object backend passes the number of refs that it has counted to
the index as an offset, which is right if each ref moves the offsets on.

## Main definitions

* `Log.Trimmed`, `Node.Trimmed` — what a pass should have done.
* `Log.Orderly` — the segments are in order, and their sizes are those of their files.
* `Log.Orders`, `Node.Serves` — the condition on a call.

## Main results

* `Log.Orderly.trimmed`, `Chained.retention_trimmed` — one pass.
* `retention_exact` — **retention removes exactly the necessary prefix**, on both backends.
* `retention_overflows` — a very large age limit removes all closed segments.
-/

namespace Mq

/-! ### The file log -/

namespace Storage

open Word Record Transition

/-- The file was last written more than `maxAgeMs` ago; times are in nanoseconds. -/
def Segment.outdated (now maxAgeMs : ℤ) (s : Segment) : Bool :=
  decide (0 < maxAgeMs ∧ maxAgeMs * 1000000 < now - s.modTime)

/-- The number of bytes in the file. -/
def Segment.bytes (s : Segment) : ℤ := s.logFile.length

/-- **What a retention pass should have done.**  The closed segments that are gone are as few
as leave no closed segment, or one that is not too old with a total size within the limit. -/
structure Log.Trimmed (l l' : Log) (now maxAgeMs maxBytes : ℤ) : Prop where
  removed : ∃ k, Retention.Least (Segment.outdated now maxAgeMs) (overSize maxBytes) Segment.bytes
      (l.segments.map Segment.bytes).sum l.sealed k ∧
    l'.segments = l.segments.drop k ∧
    l'.size = l.size - ((l.sealed.take k).map Segment.bytes).sum
  earliest : ∃ s, l'.segments.head? = some s ∧ l'.earliestOffset = s.baseOffset
  latest : l'.latestOffset = l.latestOffset
  highWatermark : l'.highWatermark = l.highWatermark
  reads : ∀ o maxBytes, l'.earliestOffset ≤ o → l'.read o maxBytes = l.read o maxBytes

/-- The segments are in order, and their sizes are those of their files. -/
structure Log.Orderly (l : Log) : Prop where
  rising : l.Rising
  sizes : ∀ s ∈ l.segments, s.logSize = s.bytes ∧ s.bytes < 2147483648

theorem head_segments (l : Log) : l.segments.head? = some (l.sealed.headD l.active) := by
  rw [Log.segments]
  cases l.sealed <;> rfl

/-- Segments in order are cut at an offset. -/
theorem exists_split_at {ss : List Segment} {o : ℤ}
    (hsorted : ss.Pairwise fun s t => s.baseOffset < t.baseOffset) {s₀ : Segment}
    (hhead : ss.head? = some s₀) (ho : s₀.baseOffset ≤ o) :
    ∃ pre s post, ss = pre ++ s :: post ∧ (∀ t ∈ pre, t.baseOffset ≤ o) ∧ s.baseOffset ≤ o ∧
      ∀ t ∈ post, o < t.baseOffset := by
  induction ss generalizing s₀ with
  | nil => cases hhead
  | cons s ss ih =>
    obtain rfl := Option.some.inj hhead
    obtain ⟨hs, hrest⟩ := List.pairwise_cons.mp hsorted
    cases ss with
    | nil => exact ⟨[], s, [], rfl, by simp, ho, by simp⟩
    | cons t ss =>
      by_cases ht : t.baseOffset ≤ o
      · obtain ⟨pre, u, post, heq, hpre, hu, hpost⟩ := ih hrest rfl ht
        exact ⟨s :: pre, u, post, by rw [heq]; rfl, List.forall_mem_cons.mpr ⟨ho, hpre⟩, hu, hpost⟩
      · -- all later segments start after the offset
        refine ⟨[], s, t :: ss, rfl, by simp, ho, fun u hu => ?_⟩
        rcases List.mem_cons.mp hu with rfl | hu
        · omega
        · have := (List.pairwise_cons.mp hrest).1 u hu
          omega

namespace Log.Orderly

variable {l : Log}

theorem pairwise (h : l.Orderly) :
    l.segments.Pairwise fun s t => s.baseOffset < t.baseOffset :=
  List.pairwise_map.mp h.rising.pairwise

/-- Reads do not notice segments that are gone before the offset. -/
theorem read_drop (h : l.Orderly) {l' : Log} {k : ℕ} (hsegs : l'.segments = l.segments.drop k)
    (hnext : l'.nextOffset = l.nextOffset) {o : ℤ} (ho : l'.earliestOffset ≤ o) (maxBytes : ℤ) :
    l'.read o maxBytes = l.read o maxBytes := by
  have hpair := h.pairwise
  have hsplit : l.segments = l.segments.take k ++ l'.segments := by
    rw [hsegs, List.take_append_drop]
  rw [hsplit] at hpair
  obtain ⟨-, hpair', hbefore⟩ := List.pairwise_append.mp hpair
  obtain ⟨pre, s, post, hcut, hpre, hs, hpost⟩ := exists_split_at hpair' (head_segments l') ho
  have hold : ∀ t ∈ l.segments.take k, t.baseOffset ≤ o := by
    intro t ht
    have := hbefore t ht _ (List.mem_of_mem_head? (head_segments l'))
    exact this.le.trans ho
  have hfull : l.segments = (l.segments.take k ++ pre) ++ s :: post := by
    rw [List.append_assoc, ← hcut]
    exact hsplit
  -- the search finds the same segment
  have hseg : l'.segmentFor o = l.segmentFor o := by
    rw [Log.segmentFor_eq hcut hpre hs hpost, Log.segmentFor_eq hfull
      (List.forall_mem_append.mpr ⟨hold, hpre⟩) hs hpost]
  have hearliest : l.earliestOffset ≤ o := by
    have hhead := head_segments l
    rw [hfull] at hhead
    cases hpres : l.segments.take k ++ pre with
    | nil =>
      rw [hpres] at hhead
      rw [Log.earliestOffset, ← Option.some.inj hhead]
      exact hs
    | cons t ts =>
      rw [hpres] at hhead
      rw [Log.earliestOffset, ← Option.some.inj hhead]
      exact List.forall_mem_append.mpr ⟨hold, hpre⟩ t (by rw [hpres]; simp)
  simp only [Log.read, hnext, hseg]
  have h₁ : (l.nextOffset < o ∨ o < l'.earliestOffset) ↔ l.nextOffset < o := by omega
  have h₂ : (l.nextOffset < o ∨ o < l.earliestOffset) ↔ l.nextOffset < o := by omega
  simp only [h₁, h₂]

/-- The limit in nanoseconds does not wrap. -/
theorem expired_eq {now maxAgeMs : ℤ} (hage : maxAgeMs * 1000000 ≤ 9223372036854775808)
    (s : Segment) : s.expired now maxAgeMs = s.outdated now maxAgeMs := by
  rw [Segment.expired, expired, Segment.outdated, decide_eq_decide]
  constructor
  · rintro ⟨hpos, hlt⟩
    rw [wrap64_eq (by omega) (by omega)] at hlt
    exact ⟨hpos, by omega⟩
  · rintro ⟨hpos, hlt⟩
    rw [wrap64_eq (by omega) (by omega)]
    exact ⟨hpos, by omega⟩

/-- **One pass** over a file log. -/
theorem trimmed (h : l.Orderly) {now maxAgeMs maxBytes : ℤ}
    (hage : maxAgeMs * 1000000 ≤ 9223372036854775808) :
    l.Trimmed (l.enforceRetention now maxAgeMs maxBytes) now maxAgeMs maxBytes := by
  have hbytes : ∀ s ∈ l.segments, s.logSize = s.bytes := fun s hs => (h.sizes s hs).1
  have hsize : l.size = (l.segments.map Segment.bytes).sum :=
    congrArg List.sum (List.map_congr_left hbytes)
  have hclosed : ∀ s ∈ l.sealed, s ∈ l.segments := fun s hs => List.mem_append_left _ hs
  obtain ⟨k, hk⟩ : ∃ k, k = Retention.dropCount (Segment.outdated now maxAgeMs) (overSize maxBytes)
      Segment.bytes (l.segments.map Segment.bytes).sum l.sealed := ⟨_, rfl⟩
  have hleast : Retention.Least (Segment.outdated now maxAgeMs) (overSize maxBytes) Segment.bytes
      (l.segments.map Segment.bytes).sum l.sealed k := hk ▸ Retention.least_dropCount _ _
  have hsealed : (l.enforceRetention now maxAgeMs maxBytes).sealed = l.sealed.drop k := by
    have hloop := retentionLoop_eq_dropCount now maxAgeMs maxBytes l.size l.sealed
    rw [Retention.dropCount_congr (fun s _ => expired_eq hage s) fun s hs => hbytes s (hclosed s hs),
      hsize, ← hk] at hloop
    rw [← hloop, ← hsize]
    rfl
  have hsegs : (l.enforceRetention now maxAgeMs maxBytes).segments = l.segments.drop k := by
    rw [Log.segments, hsealed, Log.segments, List.drop_append_of_le_length hleast.le_length]
    rfl
  have hsum : l.size = ((l.sealed.take k).map Segment.bytes).sum
      + (l.enforceRetention now maxAgeMs maxBytes).size := by
    have htake : l.segments.take k = l.sealed.take k := List.take_append_of_le_length hleast.le_length
    rw [hsize, ← htake, Log.size, hsegs, List.map_congr_left
      fun s hs => hbytes s (List.mem_of_mem_drop hs), ← List.sum_append, ← List.map_append,
      List.take_append_drop]
  exact ⟨⟨k, hleast, hsegs, by omega⟩, ⟨_, head_segments _, rfl⟩, rfl, rfl,
    fun o m ho => h.read_drop hsegs rfl ho m⟩

/-! ### Calls on the file log -/

theorem rollFor (h : l.Orderly) (now : ℤ) (n : ℕ) : (l.rollFor now l.nextOffset n).Orderly := by
  refine ⟨(h.rising.rollFor now n).1, ?_⟩
  unfold Log.rollFor
  split
  · next hroll =>
    have hpos : 0 < l.active.logSize := by
      rw [Log.needsRoll, Bool.and_eq_true, decide_eq_true_eq] at hroll
      exact hroll.1
    rw [Log.segments, h.rising.sealed_roll hpos]
    refine List.forall_mem_append.mpr ⟨h.sizes, ?_⟩
    intro s hs
    obtain rfl := List.mem_singleton.mp hs
    exact ⟨rfl, (by decide : (0 : ℤ) < 2147483648)⟩
  · exact h.sizes

/-- The active segment is replaced by one with the right size. -/
theorem sizes_setActive (h : l.Orderly) {s : Segment} (hbase : s.baseOffset = l.active.baseOffset)
    (hs : s.logSize = s.bytes ∧ s.bytes < 2147483648) :
    ∀ t ∈ (l.setActive s).segments, t.logSize = t.bytes ∧ t.bytes < 2147483648 := by
  have hmap : l.sealed.map (Log.shareFiles s) = l.sealed :=
    map_shareFiles fun t ht => by
      have := h.rising.sealed_lt t ht
      omega
  rw [Log.segments, Log.setActive]
  dsimp only
  rw [hmap]
  refine List.forall_mem_append.mpr ⟨fun t ht => h.sizes t (List.mem_append_left _ ht), ?_⟩
  simpa using hs

end Log.Orderly

/-- There is room for a batch of `n` bytes: in the active segment, or in a new one. -/
def Log.HasRoom (l : Log) (n : ℕ) : Prop :=
  n < 2147483648 ∧ (l.needsRoll n = true ∨ l.active.logFile.length + n < 2147483648)

instance (l : Log) (n : ℕ) : Decidable (l.HasRoom n) := inferInstanceAs (Decidable (_ ∧ (_ ∨ _)))

/-- **The condition on a call**: a batch that is not refused moves the log end up, within 64
bits, and there is room for it. -/
def Log.Orders (l : Log) : Mutation → Prop
  | .append now batch => Parses batch → l.Advances (.append now batch) ∧ l.HasRoom batch.length
  | .appendReplica now batch =>
    Parses batch → l.Advances (.appendReplica now batch) ∧ l.HasRoom batch.length
  | _ => True

instance (l : Log) : ∀ m, Decidable (l.Orders m)
  | .append _ _ | .appendReplica _ _ => inferInstanceAs (Decidable (_ → _ ∧ _))
  | .setHighWatermark _ | .holdHighWatermark | .flush | .enforceRetention _ _ _ =>
    inferInstanceAs (Decidable True)

namespace Log.Orderly

variable {l : Log} (h : l.Orderly)
include h

/-- The sizes after a write, whether it has failed or not. -/
theorem sizes_write {now : ℤ} {b : Bytes} {n : ℕ} (hlen : b.length = n) (hroom : l.HasRoom n)
    {s : Segment} {e : Option Err}
    (hs : (l.rollFor now l.nextOffset n).active.append now b l.nextOffset = (s, e)) :
    ∀ t ∈ ((l.rollFor now l.nextOffset n).setActive s).segments,
      t.logSize = t.bytes ∧ t.bytes < 2147483648 := by
  have hroll := h.rollFor now n
  obtain ⟨hsize, hsmall⟩ := hroll.sizes (l.rollFor now l.nextOffset n).active
    (by simp [Log.segments])
  refine hroll.sizes_setActive (segment_append_base hs) ?_
  cases e with
  | some e =>
    obtain ⟨-, hfile, hlog⟩ := segment_append_error hs
    rw [Segment.bytes, hfile, hlog]
    exact ⟨hsize, hsmall⟩
  | none =>
    obtain ⟨-, -, hfile, hlog⟩ := segment_append_ok (fun _ => hsize) hs
    have hfits : (l.rollFor now l.nextOffset n).active.logFile.length + n < 2147483648 := by
      rcases l.rollFor_cases now l.nextOffset n with ⟨hno, hsame⟩ | ⟨-, hrolled⟩
      · rw [hsame]
        exact hroom.2.resolve_left (by rw [hno]; decide)
      · rw [hrolled]
        show 0 + n < 2147483648
        have := hroom.1
        omega
    rw [Segment.bytes] at hsize ⊢
    rw [hfile, hlog, hsize, List.length_append, hlen, wrap32_eq (x := n) (by omega) (by omega),
      wrap32_eq (by omega) (by omega)]
    exact ⟨by push_cast; rfl, by omega⟩

theorem append {now : ℤ} {batch : Bytes} (hc : l.Orders (.append now batch)) :
    (l.append now batch).1.Orderly := by
  rcases append_cases l now batch with
    ⟨-, hl⟩ | ⟨-, -, e, hl⟩ | ⟨s, e, hparses, hs, hl⟩ | ⟨s, hparses, hs, hl⟩
  · rw [hl]; exact h
  · rw [hl]; exact h.rollFor now _
  all_goals
    obtain ⟨hadv, hroom⟩ := hc hparses
    have hrising : (l.append now batch).1.Rising := by
      rcases h.rising.append hadv with ⟨-, -, hsteps⟩ | ⟨-, hsteps⟩
      · exact hsteps.rising
      · exact hsteps.rising
    refine ⟨hrising, ?_⟩
    rw [hl]
    exact h.sizes_write (length_stamp hparses.1 _) hroom hs

theorem appendReplica {now : ℤ} {batch : Bytes} (hc : l.Orders (.appendReplica now batch)) :
    (l.appendReplica now batch).1.Orderly := by
  rcases appendReplica_cases l now batch with
    ⟨e, hl, -⟩ | ⟨-, -, hl⟩ | ⟨hparses, -, s, hcases⟩
  · rw [hl]; exact h
  · rw [hl]; exact h
  · obtain ⟨hadv, hroom⟩ := hc hparses
    have hrising : (l.appendReplica now batch).1.Rising := by
      rcases h.rising.appendReplica hadv with hsteps | hsteps
      · exact hsteps.rising
      · exact hsteps.rising
    refine ⟨hrising, ?_⟩
    rcases hcases with ⟨e, hs, hl⟩ | ⟨hs, hl⟩ <;> rw [hl] <;> exact h.sizes_write rfl hroom hs

/-- **Every call keeps the segments in order.** -/
theorem mutate {m : Mutation} (hc : l.Orders m) : (l.mutate m).Orderly := by
  cases m with
  | append now batch => exact h.append hc
  | appendReplica now batch => exact h.appendReplica hc
  | setHighWatermark hwm =>
    refine ⟨(h.rising.setHighWatermark hwm).rising, ?_⟩
    show ∀ s ∈ (l.setHighWatermark hwm).segments, _
    unfold Log.setHighWatermark
    dsimp only
    split <;> split <;> exact h.sizes
  | holdHighWatermark => exact ⟨h.rising.of_drop rfl ⟨0, rfl⟩ rfl, h.sizes⟩
  | flush => exact ⟨h.rising.of_drop rfl ⟨0, rfl⟩ rfl, h.sizes⟩
  | enforceRetention now maxAgeMs maxBytes =>
    have hsealed := retentionLoop_eq_dropCount now maxAgeMs maxBytes l.size l.sealed
    refine ⟨h.rising.of_drop rfl ⟨_, hsealed⟩ rfl, fun s hs => h.sizes s ?_⟩
    rcases List.mem_append.mp hs with hs | hs
    · have hs : s ∈ Log.retentionLoop _ maxAgeMs maxBytes l.size l.sealed := hs
      rw [hsealed] at hs
      exact List.mem_append_left _ (List.mem_of_mem_drop hs)
    · exact List.mem_append_right _ hs

end Log.Orderly

theorem orderly_create (cfg : Config) (now : ℤ) : (Log.create cfg now).Orderly := by
  refine ⟨rising_create cfg now, fun s hs => ?_⟩
  obtain rfl := List.mem_singleton.mp hs
  exact ⟨rfl, (by decide : (0 : ℤ) < 2147483648)⟩

end Storage

/-! ### The object backend -/

namespace Object

open Word Record Transition

/-- The handle after a pass that has dropped the given refs. -/
def ObjectLog.after (l : ObjectLog) (gone : List SegmentRef) : ObjectLog :=
  { l with earliest := (gone.getLast?.map (·.nextOffset)).getD l.earliest }

/-- **What a retention pass should have done** to the partition with the key `k`, if no append
holds its lock, and to the others.  The committed refs that are gone are as few as leave none,
or one that is not too old with a total size within the limit. -/
structure Node.Trimmed (n n' : Node) (k : Bytes) (nowMs maxAgeMs maxBytes : ℤ) : Prop where
  removed : ∀ l, n.free k = some l → ∃ i,
    Retention.Least (SegmentRef.expired nowMs maxAgeMs) (Mq.Storage.overSize maxBytes) (·.length)
        (n.storage.size k) (n.committed k) i ∧
      n'.committed k = (n.committed k).drop i ∧
      n'.storage.index.refsFor k = (n.committed k).drop i ∧
      n'.storage.size k
        = n.storage.size k - (((n.committed k).take i).map (·.length)).sum ∧
      n'.logs.lookup k = some (l.after ((n.committed k).take i)) ∧
      ∀ o maxBytes, (l.after ((n.committed k).take i)).earliest ≤ o →
        (l.after ((n.committed k).take i)).read n'.storage k o maxBytes
          = l.read n.storage k o maxBytes
  others : ∀ j, j ≠ k → n'.logs.lookup j = n.logs.lookup j ∧ n'.committed j = n.committed j ∧
    ∀ l, n.logs.lookup j = some l → ∀ o maxBytes,
      l.read n'.storage j o maxBytes = l.read n.storage j o maxBytes

/-- Reads that find the same ref, in an object that is still there. -/
theorem Storage.read_congr {s s' : Storage} {k : Bytes} {o : ℤ}
    (hpend : s'.pending.lookup k = s.pending.lookup k)
    (href : s'.index.refFor k o = s.index.refFor k o)
    (hobj : ∀ r ∈ s.index.refFor k o, s'.objects.lookup r.key = s.objects.lookup r.key)
    (maxBytes : ℤ) : s'.read k o maxBytes = s.read k o maxBytes := by
  have hdata : s'.pendingData k o = s.pendingData k o := by
    rw [Storage.pendingData, hpend]
    rfl
  rw [Storage.read, Storage.read, hdata, href]
  split
  · rfl
  · cases hr : s.index.refFor k o with
    | none => rfl
    | some r =>
      dsimp only
      rw [getRange, getRange, hobj r hr]

/-- The ref of an offset is the same without the refs before it. -/
theorem RefChain.refFor_drop {ix ix' : Index} {k : Bytes} {a a' z o : ℤ} {i : ℕ}
    (h : RefChain a (ix.refsFor k) z) (h' : RefChain a' (ix'.refsFor k) z)
    (hdrop : ix'.refsFor k = (ix.refsFor k).drop i) (ho : a' ≤ o) :
    ix'.refFor k o = ix.refFor k o ∧ ∀ r ∈ ix.refFor k o, r ∈ ix'.refsFor k := by
  by_cases hz : o < z
  · obtain ⟨pre, r, post, hrefs', hr, hr'⟩ := h'.exists_contains ho hz
    have hrefs : ix.refsFor k = ((ix.refsFor k).take i ++ pre) ++ r :: post := by
      rw [List.append_assoc, ← hrefs', hdrop, List.take_append_drop]
    have hfound := RefChain.refFor_eq hrefs (hrefs ▸ h) hr hr'
    rw [hfound, RefChain.refFor_eq hrefs' (hrefs' ▸ h') hr hr']
    refine ⟨rfl, fun q hq => ?_⟩
    obtain rfl := Option.some.inj hq
    rw [hrefs']
    simp
  · rw [h.refFor_eq_none (not_lt.mp hz), h'.refFor_eq_none (not_lt.mp hz)]
    exact ⟨rfl, by simp⟩

theorem Index.mem_refsFor_of_refFor {ix : Index} {k : Bytes} {o : ℤ} {r : SegmentRef}
    (h : ix.refFor k o = some r) : r ∈ ix.refsFor k := by
  rw [Index.refFor] at h
  split at h
  · cases h
  · split at h
    · cases h
    · next hget =>
      split at h
      · cases h
      · rw [← Option.some.inj h]
        exact List.mem_of_getElem? hget

/-! ### Cutting off refs -/

namespace Storage

variable {s : Storage} {k : Bytes} {cutoff : ℤ}

/-- Another partition reads what it has read, from objects that it may share. -/
theorem read_pruned_of_ne {j : Bytes} (hj : j ≠ k)
    (hcache : s.index.refsFor j = s.index.store.load j) (o maxBytes : ℤ) :
    (s.pruned k cutoff).read j o maxBytes = s.read j o maxBytes := by
  have hrefs : (s.pruned k cutoff).index.refsFor j = s.index.refsFor j := by
    rw [refsFor_pruned, if_neg hj]
  have hpend : (s.pruned k cutoff).pending.lookup j = s.pending.lookup j := rfl
  refine Storage.read_congr hpend ?_ (fun r hr => ?_) maxBytes
  · rw [Index.refFor, Index.refFor, hrefs]
  · refine lookup_pruned (j := j) ?_
    rw [store_pruned, if_neg hj, ← hcache]
    exact Index.mem_refsFor_of_refFor hr

variable {a z : ℤ} {d : ℕ} {r : SegmentRef}

theorem size_pruned (hchain : RefChain a (s.index.store.load k) z)
    (hcache : s.index.refsFor k = s.index.store.load k)
    (hr : (s.index.store.load k)[d]? = some r) :
    (s.pruned k r.nextOffset).size k
      = s.size k - (((s.index.store.load k).take (d + 1)).map (·.length)).sum := by
  have hpend : (s.pruned k r.nextOffset).pending = s.pending := rfl
  have hsum : ((s.index.store.load k).map (·.length)).sum
      = (((s.index.store.load k).take (d + 1)).map (·.length)).sum
        + (((s.index.store.load k).drop (d + 1)).map (·.length)).sum := by
    rw [← List.sum_append, ← List.map_append, List.take_append_drop]
  rw [Storage.size, Storage.size, (hchain.pruned_eq_drop hcache hr).2, hcache, hpend, hsum]
  ring

/-- The partition reads what it has read, from the cut on. -/
theorem read_pruned (hchain : RefChain a (s.index.store.load k) z)
    (hcache : s.index.refsFor k = s.index.store.load k)
    (hr : (s.index.store.load k)[d]? = some r) {o : ℤ} (ho : r.nextOffset ≤ o)
    (maxBytes : ℤ) : (s.pruned k r.nextOffset).read k o maxBytes = s.read k o maxBytes := by
  obtain ⟨hstore', hcache'⟩ := hchain.pruned_eq_drop hcache hr
  obtain ⟨href, hmem⟩ := RefChain.refFor_drop (hcache ▸ hchain)
    (hcache' ▸ (hchain.drop hr).2) (hcache'.trans (congrArg _ hcache.symm)) ho
  have hpend : (s.pruned k r.nextOffset).pending.lookup k = s.pending.lookup k := rfl
  refine Storage.read_congr hpend href (fun q hq => lookup_pruned (j := k) ?_) maxBytes
  rw [hstore', ← hcache']
  exact hmem q hq

/-- What a pass does: nothing, or it cuts the refs off behind the last one that goes. -/
theorem enforceRetention_least (s : Storage) (k : Bytes) (nowMs maxAgeMs maxBytes : ℤ) :
    ∃ i, Retention.Least (SegmentRef.expired nowMs maxAgeMs) (Mq.Storage.overSize maxBytes)
        (·.length) (s.size k) (s.index.refsFor k) i ∧
      (i = 0 ∧ s.enforceRetention k nowMs maxAgeMs maxBytes = (s, none) ∨
        ∃ d r, i = d + 1 ∧ (s.index.refsFor k)[d]? = some r ∧
          s.enforceRetention k nowMs maxAgeMs maxBytes
            = (s.pruned k r.nextOffset, some r.nextOffset)) := by
  have hleast : Retention.Least (SegmentRef.expired nowMs maxAgeMs) (Mq.Storage.overSize maxBytes)
      (·.length) (s.size k) (s.index.refsFor k) _ := Retention.least_dropCount _ _
  refine ⟨_, hleast, ?_⟩
  rw [Storage.enforceRetention]
  dsimp only
  rw [retentionLoop_eq_dropCount, ← Storage.size]
  cases hcount : Retention.dropCount (SegmentRef.expired nowMs maxAgeMs)
      (Mq.Storage.overSize maxBytes) (·.length) (s.size k) (s.index.refsFor k) with
  | zero => exact .inl ⟨rfl, rfl⟩
  | succ d =>
    have hlt : d < (s.index.refsFor k).length := by
      have hle := hleast.le_length
      omega
    have hget : (s.index.refsFor k)[d]? = some _ := List.getElem?_eq_getElem hlt
    refine .inr ⟨d, _, rfl, hget, ?_⟩
    dsimp only
    rw [hget]
    rfl

end Storage

/-- The handle's earliest offset is the end of the last ref that went. -/
theorem ObjectLog.after_take (l : ObjectLog) {refs : List SegmentRef} {d : ℕ} {r : SegmentRef}
    (hr : refs[d]? = some r) :
    l.after (refs.take (d + 1)) = { l with earliest := r.nextOffset } := by
  rw [ObjectLog.after, List.take_add_one, hr]
  simp

/-- **One pass** over a partition of the object backend, between any two steps. -/
theorem Chained.retention_trimmed {n : Node} (h : Chained n) (k : Bytes)
    (nowMs maxAgeMs maxBytes : ℤ) :
    n.Trimmed (n.enforceRetention k nowMs maxAgeMs maxBytes) k nowMs maxAgeMs maxBytes := by
  rw [Node.enforceRetention]
  cases hfree : n.free k with
  | none => exact ⟨by simp [hfree], fun j _ => ⟨rfl, rfl, fun _ _ _ _ => rfl⟩⟩
  | some l =>
    obtain ⟨-, hl⟩ := Node.free_eq_some hfree
    have hcache := h.cache k l hl
    have hchain := h.refs k l hl
    have hlogs : ∀ (l' : ObjectLog) j, j ≠ k →
        (n.logs.insert k l').lookup j = n.logs.lookup j := fun l' j hj => by
      rw [Table.lookup_insert_ite, if_neg hj]
    have hcases := n.storage.enforceRetention_least k nowMs maxAgeMs maxBytes
    rw [hcache] at hcases
    obtain ⟨i, hleast, ⟨rfl, he⟩ | ⟨d, r, rfl, hr, he⟩⟩ := hcases
    · -- nothing goes
      dsimp only
      rw [he]
      refine ⟨fun l' hl' => ?_, fun j hj => ⟨hlogs _ j hj, rfl, fun _ _ _ _ => rfl⟩⟩
      obtain rfl := Option.some.inj (hfree.symm.trans hl')
      exact ⟨0, hleast, rfl, hcache, by simp, AList.lookup_insert _, fun _ _ _ => rfl⟩
    · dsimp only
      rw [he]
      obtain ⟨hstore', hcache'⟩ := hchain.pruned_eq_drop hcache hr
      have hlt := (hchain.drop hr).1
      refine ⟨fun l' hl' => ?_, fun j hj => ⟨hlogs _ j hj, ?_, fun l' hl' o maxBytes => ?_⟩⟩
      · obtain rfl := Option.some.inj (hfree.symm.trans hl')
        refine ⟨d + 1, hleast, hstore', hcache', Storage.size_pruned hchain hcache hr, ?_, ?_⟩
        · rw [l.after_take hr, AList.lookup_insert, ObjectLog.raiseEarliest, if_pos hlt]
        · intro o maxBytes ho
          rw [l.after_take hr] at ho ⊢
          have hout : (l.nextOffset < o ∨ o < r.nextOffset) ↔ (l.nextOffset < o ∨ o < l.earliest) := by
            have ho : r.nextOffset ≤ o := ho
            omega
          rw [ObjectLog.read, ObjectLog.read]
          dsimp only
          simp only [hout, Storage.read_pruned hchain hcache hr ho]
      · exact (Storage.store_pruned ..).trans (if_neg hj)
      · rw [ObjectLog.read, ObjectLog.read, Storage.read_pruned_of_ne hj (h.cache j l' hl')]

/-! ### Steps of the object backend -/

/-- Change the handle of a partition, when no append holds its lock. -/
def Node.updateLog (n : Node) (k : Bytes) (f : ObjectLog → ObjectLog) : Node :=
  match n.free k with
  | none => n
  | some l => { n with logs := n.logs.insert k (f l) }

/-- The steps of a node, and the calls that move the high watermark. -/
inductive Service
  | act (a : Action)
  | setHighWatermark (topic : Bytes) (partition hwm : ℤ)
  | holdHighWatermark (topic : Bytes) (partition : ℤ)
  deriving DecidableEq, Repr

namespace Node

def serve (n : Node) : Service → Node
  | .act a => n.step a
  | .setHighWatermark topic partition hwm =>
    n.updateLog (indexKey topic partition) (·.setHighWatermark hwm)
  | .holdHighWatermark topic partition =>
    n.updateLog (indexKey topic partition) ObjectLog.holdHighWatermark

/-- **The condition on a step**: the one under which the refs stay in order. -/
def Serves (n : Node) : Service → Prop
  | .act a => n.Orders a
  | _ => True

instance (n : Node) (x : Service) : Decidable (n.Serves x) := by
  cases x <;> unfold Serves <;> infer_instance

end Node

namespace Chained

variable {n : Node}

/-- A handle may change but for its two ends. -/
theorem updateLog (h : Chained n) (k : Bytes) {f : ObjectLog → ObjectLog}
    (hnext : ∀ l, (f l).nextOffset = l.nextOffset) (hearliest : ∀ l, (f l).earliest = l.earliest) :
    Chained (n.updateLog k f) := by
  rw [Node.updateLog]
  cases hfree : n.free k with
  | none => exact h
  | some l =>
    obtain ⟨-, hl⟩ := Node.free_eq_some hfree
    have hend : ∀ j, ({ n with logs := n.logs.insert k (f l) } : Node).logEnd j = n.logEnd j := by
      intro j
      by_cases hj : j = k
      · rw [hj, Node.logEnd_of_lookup hl, Node.logEnd_of_lookup (AList.lookup_insert _), hnext]
      · exact Node.logEnd_congr (AList.lookup_insert_ne hj) rfl rfl
    refine ⟨⟨fun j => ?_, h.inv.bytes, h.inv.phase, fun j g hg => ?_⟩, h.up, h.recovered,
      Table.forall_lookup_insert (h.cache k l hl) fun j l' _ hl' => h.cache j l' hl',
      Table.forall_lookup_insert ?_ fun j l' _ hl' => h.refs j l' hl',
      fun j hj => h.unopened j (Table.of_lookup_insert_eq_none hj).2⟩
    · have hpart := h.inv.parts j
      unfold Node.PartOk at hpart ⊢
      rw [hend]
      exact hpart
    · obtain ⟨l', hl'⟩ := h.inv.opened j g hg
      rw [Table.lookup_insert_ite]
      split
      · exact ⟨_, rfl⟩
      · exact ⟨l', hl'⟩
    · show RefChain (f l).earliest (n.committed k) (n.refEnd k (f l).nextOffset)
      rw [hnext, hearliest]
      exact h.refs k l hl

theorem serve (h : Chained n) {x : Service} (hx : n.Serves x) : Chained (n.serve x) := by
  cases x with
  | act a =>
    rw [Node.serve, Node.step, if_pos h.up]
    exact h.act hx
  | setHighWatermark topic partition hwm =>
    refine h.updateLog _ (fun l => ?_) fun l => ?_
    all_goals rw [ObjectLog.setHighWatermark_eq]
  | holdHighWatermark topic partition => exact h.updateLog _ (fun _ => rfl) fun _ => rfl

end Chained

end Object

/-! ### Both backends -/

namespace Backend

open Word Record Transition Storage
open Object (Node Service indexKey)

/-- **Retention removes exactly the necessary prefix**, on both backends: after every run in
which the batches that are not refused move the log end up and fit their segments, in a pass
whose age limit fits 64 bits in nanoseconds.  The file log is new, or its segments were found
in order.  In the object backend a run consists of the steps of appends, uploads and passes in
any order; uploads may fail, but not at a commit, and the process does not restart. -/
theorem retention_exact (cfg : Config) (now : ℤ) (dir : Dir) (l₀ : Log)
    (hopen : Log.open cfg now dir = .ok l₀) (hstart : dir ≠ [] → l₀.Orderly) (ms : List Mutation)
    (hms : Along Log.mutate Log.Orders l₀ ms) (now' maxAgeMs maxBytes : ℤ)
    (hage : maxAgeMs * 1000000 ≤ 9223372036854775808) (nodeID : Bytes) (xs : List Service)
    (hxs : Along Node.serve Node.Serves (Node.fresh nodeID) xs) (topic : Bytes)
    (partition nowMs maxAgeMs' maxBytes' : ℤ) :
    let l := run Log.mutate l₀ ms
    let n := run Node.serve (Node.fresh nodeID) xs
    l.Trimmed (l.enforceRetention now' maxAgeMs maxBytes) now' maxAgeMs maxBytes ∧
      n.Trimmed (n.enforceRetention (indexKey topic partition) nowMs maxAgeMs' maxBytes')
        (indexKey topic partition) nowMs maxAgeMs' maxBytes' := by
  intro l n
  have hfirst : l₀.Orderly := by
    by_cases hdir : dir = []
    · rw [hdir, open_nil] at hopen
      exact Except.ok.inj hopen ▸ orderly_create cfg now
    · exact hstart hdir
  have hl : l.Orderly := (hms.always hfirst fun l m hl hm => hl.mutate hm).final
  have hn : Object.Chained n :=
    (hxs.always (Object.chained_fresh nodeID) fun n x hn hx => hn.serve hx).final
  exact ⟨hl.trimmed hage, hn.retention_trimmed _ nowMs maxAgeMs' maxBytes'⟩

/-- Three segments, of which the pass has to remove one for its age and one for its size. -/
def agedCalls : List Mutation :=
  [.append 1 (makeBatch 2 []), .append 9000001 (makeBatch 3 [7]), .append 9000002 [3],
    .holdHighWatermark, .append 9000003 (makeBatch 1 []), .setHighWatermark 4]

/-- The steps of an append that is not interrupted. -/
def appendSteps (topic batch : Bytes) : List Service :=
  [.act (.append topic 0 batch), .act (.addPending topic 0)]

/-- Two partitions that share the first object.  An upload fails, and one is under way at the
end. -/
def agedServices : List Service :=
  [.act (.openLog [116] 0), .act (.openLog [117] 0)] ++ appendSteps [116] (makeBatch 2 [7]) ++
    appendSteps [117] (makeBatch 1 [8]) ++
    [.act .swap, .act (.rotate none), .act (.putFail 4 true)] ++
    [.act .swap, .act (.rotate none), .act (.put 5), .act .commit, .act .commit, .act .trim] ++
    appendSteps [116] (makeBatch 3 []) ++
    [.act .swap, .act (.rotate none), .act (.put 6), .act .commit, .act .trim,
      .holdHighWatermark [116] 0, .setHighWatermark [116] 0 4] ++
    appendSteps [116] (makeBatch 1 [9]) ++ [.act .swap]

theorem retention_exact_aged :
    ∃ l₀, Log.open ⟨100, 4096⟩ 0 [] = .ok l₀ ∧
      (run Log.mutate l₀ agedCalls).sealed.length = 2 ∧
      (run Log.mutate l₀ agedCalls).Trimmed
        ((run Log.mutate l₀ agedCalls).enforceRetention 9000003 5 100) 9000003 5 100 ∧
      (run Node.serve (Node.fresh [49]) agedServices).Trimmed
        ((run Node.serve (Node.fresh [49]) agedServices).enforceRetention (indexKey [116] 0) 9 3 0)
        (indexKey [116] 0) 9 3 0 :=
  have hexact := retention_exact ⟨100, 4096⟩ 0 [] _ (open_nil _ _) (fun h => absurd rfl h)
    agedCalls (by decide +kernel) 9000003 5 100 (by decide) [49] agedServices (by decide +kernel)
    [116] 0 9 3 0
  ⟨_, open_nil _ _, by decide +kernel, hexact.1, hexact.2⟩

/-! ### An age limit that is never reached -/

/-- A pass that has removed more than is enough. -/
theorem not_trimmed_of_enough {l l' : Log} {now maxAgeMs maxBytes : ℤ} {j : ℕ}
    (henough : Retention.Enough (Segment.outdated now maxAgeMs) (overSize maxBytes) Segment.bytes
      (l.segments.map Segment.bytes).sum l.sealed j)
    (hlt : l'.segments.length + j < l.segments.length) :
    ¬ l.Trimmed l' now maxAgeMs maxBytes := by
  rintro ⟨⟨k, hleast, hsegs, -⟩, -⟩
  have hlen := congrArg List.length hsegs
  rw [List.length_drop] at hlen
  exact hleast.minimal j (by omega) henough

theorem not_node_trimmed_of_enough {n n' : Node} {k : Bytes} {l : Object.ObjectLog}
    {nowMs maxAgeMs maxBytes : ℤ} {j : ℕ} (hl : n.free k = some l)
    (henough : Retention.Enough (Object.SegmentRef.expired nowMs maxAgeMs) (overSize maxBytes)
      (·.length) (n.storage.size k) (n.committed k) j)
    (hlt : (n'.committed k).length + j < (n.committed k).length) :
    ¬ n.Trimmed n' k nowMs maxAgeMs maxBytes := by
  intro h
  obtain ⟨i, hleast, hrefs, -⟩ := h.removed l hl
  have hlen := congrArg List.length hrefs
  rw [List.length_drop] at hlen
  exact hleast.minimal j (by omega) henough

/-- **A very large age limit removes all closed segments.**  Neither segment of the first log
has reached the age of `2 ^ 63 - 1` milliseconds, and still the closed one is removed.  On
the object backend a batch without records has no offset of its own, and its ref goes with
the one before it, however new it is. -/
theorem retention_overflows :
    (∃ l₀, Log.open ⟨100, 4096⟩ 0 [] = .ok l₀ ∧
      let l := run Log.mutate l₀ [.append 1 (makeBatch 1 []), .append 2 (makeBatch 1 [])]
      (∀ s ∈ l.segments, s.outdated 3 9223372036854775807 = false) ∧
        l.sealed ≠ [] ∧ (l.enforceRetention 3 9223372036854775807 0).sealed = [] ∧
        ¬ l.Trimmed (l.enforceRetention 3 9223372036854775807 0) 3 9223372036854775807 0) ∧
      let n := run Node.serve (Node.fresh [49])
        ([.act (.openLog [116] 0)] ++ appendSteps [116] (makeBatch 1 []) ++
          [.act .swap, .act (.rotate none), .act (.put 1), .act .commit, .act .trim] ++
          appendSteps [116] (makeBatch 0 []) ++
          [.act .swap, .act (.rotate none), .act (.put 8), .act .commit, .act .trim])
      (n.committed (indexKey [116] 0)).map (·.uploadedMs) = [1, 8] ∧
        (n.enforceRetention (indexKey [116] 0) 10 5 0).committed (indexKey [116] 0) = [] ∧
        ¬ n.Trimmed (n.enforceRetention (indexKey [116] 0) 10 5 0) (indexKey [116] 0) 10 5 0 := by
  constructor
  · refine ⟨_, open_nil _ _, by decide +kernel, by decide +kernel, by decide +kernel, ?_⟩
    refine not_trimmed_of_enough (j := 0) ?_ (by decide +kernel)
    unfold Retention.Enough
    decide +kernel
  · refine ⟨by decide +kernel, by decide +kernel, ?_⟩
    refine not_node_trimmed_of_enough (j := 1) (l := ⟨1, 1, false, 0⟩) ?_ ?_ ?_
    · decide +kernel
    · unfold Retention.Enough
      decide +kernel
    · decide +kernel

end Backend
end Mq
