import Mq.Object.Located

/-!
# The lookup of an offset by time

`offsetForTimestamp` of `internal/storage/object/read.go` scans the uploaded refs in offset
order and then the pending buffer for the first batch whose largest timestamp is not below
the time asked for.  Between the moment that an upload takes the buffer and the moment that
it commits a partition's ref, the batches it has taken are in neither place, and the lookup
passes over them.

## Main definitions

* `scanTimestamp`, `Storage.offsetForTimestamp` — the lookup.
* `firstAt` — what it is to find: the first batch that reaches a time.
* `ObjectLog.retained` — the batches between the earliest offset and the log end.

## Main results

* `scanTimestamp_flatten` — the scan of a run of batches.
* `Located.offsetForTimestamp` — what the lookup finds, at every step.
* `time_lookup_iff` — **the lookup is right if and only if no batch that an upload has taken
  is the first to reach the time**.
* `lookup_skips_upload` — during an upload the lookup misses a batch, or finds a later one.
-/

namespace Mq
namespace Object

open Word Record Transition

/-! ### Definitions -/

/-- The loop of `scanTimestamp` from position `pos` on. -/
def scanTimestampLoop (data : Bytes) (ts : ℤ) : ℕ → ℤ → Mq.Storage.Outcome (Option ℤ)
  | 0, _ => .error .hang
  | fuel + 1, pos =>
    if pos < data.length then
      -- the slice `data[pos:]`
      if pos < 0 then .error .panic
      else
        match parseHeader (data.drop pos.toNat) with
        | .error _ => .ok none
        | .ok h =>
          if ts ≤ h.maxTimestamp then .ok (some h.baseOffset)
          else scanTimestampLoop data ts fuel (pos + h.totalSize)
    else .ok none

/-- The base offset of the first batch in `data` whose largest timestamp is not below `ts`.  A
scan that visits a position twice does not end, so that the fuel is enough for any other. -/
def scanTimestamp (data : Bytes) (ts : ℤ) : Mq.Storage.Outcome (Option ℤ) :=
  scanTimestampLoop data ts (data.length + 1) 0

/-- The uploaded refs are scanned in order; an object that cannot be read ends the lookup.
Then the pending part is scanned. -/
def Storage.offsetForTimestamp (s : Storage) (k : Bytes) (ts : ℤ) :
    Mq.Storage.Outcome (Option ℤ) :=
  let rec go : List SegmentRef → Mq.Storage.Outcome (Option ℤ)
    | [] => scanTimestamp (((s.pending.lookup k).map (·.batches)).getD []).flatten ts
    | ref :: refs =>
      match getRange s.objects ref.key ref.position ref.length with
      | none => .ok none
      | some data =>
        match scanTimestamp data ts with
        | .error e => .error e
        | .ok (some off) => .ok (some off)
        | .ok none => go refs
  go (s.index.refsFor k)

/-- The base offset of the first batch that reaches the time `ts`. -/
def firstAt (ts : ℤ) (bs : List Bytes) : Option ℤ :=
  (bs.find? fun b => ts ≤ (header b).maxTimestamp).map fun b => (header b).baseOffset

/-- The batches of a history between the earliest offset and the log end. -/
def ObjectLog.retained (l : ObjectLog) (log : List Bytes) : List Bytes :=
  log.filter fun b => l.earliest ≤ (header b).baseOffset ∧ (header b).baseOffset < l.nextOffset

/-! ### The scan -/

theorem firstAt_append (ts : ℤ) (bs cs : List Bytes) :
    firstAt ts (bs ++ cs) = (firstAt ts bs).or (firstAt ts cs) := by
  rw [firstAt, List.find?_append]
  cases hb : bs.find? fun b => ts ≤ (header b).maxTimestamp <;> simp [firstAt, hb]

variable {bs : List Bytes}

theorem firstAt_eq_none {ts : ℤ} :
    firstAt ts bs = none ↔ ∀ b ∈ bs, (header b).maxTimestamp < ts := by
  simp [firstAt]

theorem exists_of_firstAt {ts : ℤ} {o : ℤ} (h : firstAt ts bs = some o) :
    ∃ b ∈ bs, ts ≤ (header b).maxTimestamp ∧ (header b).baseOffset = o := by
  obtain ⟨b, hb, ho⟩ := Option.map_eq_some_iff.mp h
  exact ⟨b, List.mem_of_find?_eq_some hb, by simpa using List.find?_some hb, ho⟩

/-- The scan of the batches from a boundary on. -/
theorem scanTimestampLoop_flatten (ts : ℤ) :
    ∀ (post pre : List Bytes) (fuel : ℕ), (∀ b ∈ post, Framed b) →
      scanTimestampLoop (pre ++ post).flatten ts (post.length + fuel + 1) pre.flatten.length
        = .ok (firstAt ts post) := by
  intro post
  induction post with
  | nil =>
    intro pre fuel _
    rw [List.append_nil, scanTimestampLoop, if_neg (lt_irrefl _)]
    rfl
  | cons b post ih =>
    intro pre fuel hframed
    obtain ⟨hb, hpost⟩ := List.forall_mem_cons.mp hframed
    obtain ⟨hlt, hnext, -⟩ := boundary_lt pre post hb
    rw [scanTimestampLoop, if_pos hlt, if_neg (by omega), Int.toNat_natCast, parseHeader_drop hb]
    dsimp only
    by_cases hts : ts ≤ (header b).maxTimestamp
    · rw [if_pos hts]
      simp [firstAt, hts]
    · have hrest := ih (pre ++ [b]) fuel hpost
      rw [if_neg hts, hnext, List.length_cons, show post.length + 1 + fuel = post.length + fuel + 1
        from by omega]
      rw [List.append_assoc, List.singleton_append] at hrest
      rw [hrest]
      simp [firstAt, hts]

/-- **The scan of a run of batches.** -/
theorem scanTimestamp_flatten (ts : ℤ) (hbs : ∀ b ∈ bs, Framed b) :
    scanTimestamp bs.flatten ts = .ok (firstAt ts bs) := by
  obtain ⟨fuel, hfuel⟩ := Nat.exists_eq_add_of_le (length_le_flatten_length hbs)
  have hscan := scanTimestampLoop_flatten ts bs [] fuel hbs
  rw [scanTimestamp, hfuel]
  exact hscan

theorem go_eq (s : Storage) (k : Bytes) (ts : ℤ) {n : Node} (hn : n.storage = s)
    {refs : List SegmentRef} {parts : List (List Bytes)}
    (hparts : List.Forall₂ n.Spans refs parts) (hframed : ∀ bs ∈ parts, ∀ b ∈ bs, Framed b)
    (hpend : ∀ b ∈ n.pendingBatches k, Framed b) :
    Storage.offsetForTimestamp.go s k ts refs
      = .ok (firstAt ts (parts.flatten ++ n.pendingBatches k)) := by
  subst hn
  induction hparts with
  | nil => exact scanTimestamp_flatten ts hpend
  | @cons r bs refs parts hspan _ ih =>
    obtain ⟨hbs, hrest⟩ := List.forall_mem_cons.mp hframed
    rw [Storage.offsetForTimestamp.go, hspan.1]
    dsimp only
    rw [scanTimestamp_flatten ts hbs, List.flatten_cons, List.append_assoc, firstAt_append]
    cases hfirst : firstAt ts bs with
    | some off => rfl
    | none => simpa using ih hrest

/-! ### Batches in order -/

/-- Leaving out batches in the middle leaves the first one that reaches a time, if and only
if it is not one of those. -/
theorem firstAt_skip_iff {a z ts : ℤ} {out cs : List Bytes}
    (h : Contiguous a (bs ++ (out ++ cs)) z) :
    firstAt ts (bs ++ cs) = firstAt ts (bs ++ (out ++ cs)) ↔
      (∀ b ∈ out, (header b).maxTimestamp < ts) ∨
        ∃ b ∈ bs ++ (out ++ cs), ts ≤ (header b).maxTimestamp ∧
          ∀ t ∈ out, (header b).baseOffset < (header t).baseOffset := by
  obtain ⟨y, hbs, hrest⟩ := contiguous_append.mp h
  obtain ⟨x, hout, hcs⟩ := contiguous_append.mp hrest
  simp only [firstAt_append]
  constructor
  · intro heq
    by_contra hcon
    push Not at hcon
    obtain ⟨⟨t, ht, hts⟩, hnone⟩ := hcon
    -- nothing before reaches the time, and what is found behind is another batch
    have hbefore : firstAt ts bs = none := by
      rw [firstAt_eq_none]
      intro b hb
      by_contra hge
      obtain ⟨u, hu, hle⟩ := hnone b (List.mem_append_left _ hb) (by omega)
      have := hbs.bounds hb
      have := hout.bounds hu
      omega
    rw [hbefore, Option.none_or, Option.none_or] at heq
    cases hfirst : firstAt ts out with
    | none =>
      have := firstAt_eq_none.mp hfirst t ht
      omega
    | some o =>
      rw [hfirst, Option.some_or] at heq
      obtain ⟨u, hu, -, hubase⟩ := exists_of_firstAt hfirst
      obtain ⟨c, hc, -, hcbase⟩ := exists_of_firstAt heq
      have := hout.bounds hu
      have := hcs.bounds hc
      omega
  · rintro (hnone | ⟨b, hb, hts, hlt⟩)
    · rw [firstAt_eq_none.mpr hnone, Option.none_or]
    · rcases List.mem_append.mp hb with hb | hb
      · cases hfirst : firstAt ts bs with
        | some o => rfl
        | none =>
          have := firstAt_eq_none.mp hfirst b hb
          omega
      · rcases List.mem_append.mp hb with hmem | hmem
        · exact absurd (hlt b hmem) (lt_irrefl _)
        · -- a batch behind all of them, so there are none
          cases out with
          | nil => rfl
          | cons t out =>
            have := hlt t List.mem_cons_self
            have := hout.bounds (List.mem_cons_self (a := t) (l := out))
            have := hcs.bounds hmem
            omega

theorem Contiguous.start_unique {a a' z : ℤ} (h : Contiguous a bs z) (h' : Contiguous a' bs z) :
    a = a' := by
  cases bs with
  | nil => exact h.trans h'.symm
  | cons b bs => exact h.1.symm.trans h'.1

/-- The batches behind a chain of refs. -/
theorem RefChain.contiguous {n : Node} {a z : ℤ} {refs : List SegmentRef}
    {parts : List (List Bytes)} (h : RefChain a refs z) (hparts : List.Forall₂ n.Spans refs parts) :
    Contiguous a parts.flatten z := by
  induction hparts generalizing a with
  | nil => exact h
  | @cons r bs refs parts hspan _ ih =>
    obtain ⟨hbase, -, hrest⟩ := h
    exact contiguous_append.mpr ⟨r.nextOffset, hbase ▸ hspan.2, ih hrest⟩

/-! ### The lookup at every step -/

namespace Located

variable {n : Node} {log : Bytes → List Bytes} {k : Bytes} {l : ObjectLog}

/-- What is retained is behind the refs, taken or pending, in this order, and covers the
offsets from the earliest one to the log end. -/
theorem retained_eq (h : Located n log) (hl : n.logs.lookup k = some l) :
    ∃ parts, List.Forall₂ n.Spans (n.committed k) parts ∧
      l.retained (log k) = parts.flatten ++ (n.takenBatches k ++ n.pendingBatches k) ∧
      Contiguous l.earliest (l.retained (log k)) l.nextOffset := by
  have hchain := h.chained.refs k l hl
  have hwhole := h.whole k
  obtain ⟨dropped, parts, hlog, hparts⟩ := h.places k
  have hpart := h.chained.inv.parts k
  unfold Node.PartOk at hpart
  rw [Node.logEnd_of_lookup hl] at hpart hwhole
  have htaken : Contiguous
      (baseOr (n.phase.outstanding k) (baseOr (n.storage.pending.lookup k) l.nextOffset))
      (n.takenBatches k) (baseOr (n.storage.pending.lookup k) l.nextOffset) := by
    rw [Node.takenBatches]
    cases hout : n.phase.outstanding k with
    | none => rfl
    | some pp =>
      obtain ⟨hok, hnext⟩ := hpart.taken pp hout
      exact hnext ▸ hok.contiguous
  have hpending : Contiguous (baseOr (n.storage.pending.lookup k) l.nextOffset)
      (n.pendingBatches k) l.nextOffset := by
    rw [Node.pendingBatches]
    cases hpend : n.storage.pending.lookup k with
    | none => rfl
    | some pp =>
      obtain ⟨hok, hnext⟩ := hpart.pending pp hpend
      exact hnext ▸ hok.contiguous
  have hkept : Contiguous l.earliest (parts.flatten ++ (n.takenBatches k ++ n.pendingBatches k))
      l.nextOffset :=
    contiguous_append.mpr ⟨_, hchain.contiguous hparts, contiguous_append.mpr ⟨_, htaken, hpending⟩⟩
  -- the whole history is in order, so what was dropped ends at the earliest offset
  rw [hlog, List.append_assoc] at hwhole
  obtain ⟨y, hdropped, hrest⟩ := contiguous_append.mp hwhole
  obtain rfl := hkept.start_unique hrest
  have hretained : l.retained (log k)
      = parts.flatten ++ (n.takenBatches k ++ n.pendingBatches k) := by
    rw [ObjectLog.retained, hlog, List.append_assoc, List.filter_append,
      List.filter_eq_nil_iff.mpr, List.filter_eq_self.mpr, List.nil_append]
    · intro b hb
      have := hkept.bounds hb
      exact decide_eq_true ⟨this.1, by omega⟩
    · intro b hb
      have := hdropped.bounds hb
      simp only [decide_eq_true_eq]
      omega
  exact ⟨parts, hparts, hretained, hretained ▸ hkept⟩

/-- What the lookup finds: the first batch behind the refs or in the buffer. -/
theorem offsetForTimestamp (h : Located n log) (hl : n.logs.lookup k = some l)
    {parts : List (List Bytes)} (hparts : List.Forall₂ n.Spans (n.committed k) parts)
    (hretained : l.retained (log k) = parts.flatten ++ (n.takenBatches k ++ n.pendingBatches k))
    (ts : ℤ) :
    n.storage.offsetForTimestamp k ts
      = .ok (firstAt ts (parts.flatten ++ n.pendingBatches k)) := by
  have hframed : ∀ b ∈ parts.flatten ++ (n.takenBatches k ++ n.pendingBatches k), Framed b := by
    intro b hb
    rw [← hretained] at hb
    exact h.framed k b (List.mem_of_mem_filter hb)
  rw [Storage.offsetForTimestamp, h.chained.cache k l hl]
  refine go_eq n.storage k ts rfl hparts (fun bs hbs b hb => hframed b ?_) fun b hb => hframed b ?_
  · exact List.mem_append_left _ (List.mem_flatten.mpr ⟨bs, hbs, hb⟩)
  · exact List.mem_append_right _ (List.mem_append_right _ hb)

end Located

/-- **The lookup is right if and only if no batch that an upload has taken and not committed
is the first to reach the time**: none of them reaches it, or an earlier batch does.  It is
stated for every state of a run of regular steps, between the steps of an upload too. -/
theorem time_lookup_iff (nodeID : Bytes) (as : List Action)
    (has : Along Node.step Node.Regular (Node.fresh nodeID) as) (topic : Bytes) (partition : ℤ)
    (l : ObjectLog)
    (hl : (run Node.step (Node.fresh nodeID) as).logs.lookup (indexKey topic partition) = some l)
    (ts : ℤ) :
    let n := run Node.step (Node.fresh nodeID) as
    let k := indexKey topic partition
    let retained := l.retained ((Node.fresh nodeID).history as k)
    n.storage.offsetForTimestamp k ts = .ok (firstAt ts retained) ↔
      (∀ t ∈ n.takenBatches k, (header t).maxTimestamp < ts) ∨
        ∃ b ∈ retained, ts ≤ (header b).maxTimestamp ∧
          ∀ t ∈ n.takenBatches k, (header b).baseOffset < (header t).baseOffset := by
  intro n k retained
  have hlocated := located_run nodeID has
  obtain ⟨parts, hparts, hretained, hcontiguous⟩ := hlocated.retained_eq hl
  rw [hlocated.offsetForTimestamp hl hparts hretained ts]
  show _ = Except.ok (firstAt ts (l.retained _)) ↔ _ ∨ ∃ b ∈ l.retained _, _
  rw [hretained] at hcontiguous ⊢
  rw [Except.ok.injEq]
  exact firstAt_skip_iff hcontiguous

/-- A batch of `count` records the last of which is from the time `maxTs`. -/
def makeTimedBatch (count maxTs : ℤ) : Bytes :=
  patch (makeBatch count []) offMaxTimestamp (putInt64 maxTs)

/-- One batch is uploaded, one is on its way, and one has been appended since. -/
def timedRun : List Action :=
  [.openLog [116] 0, .append [116] 0 (makeTimedBatch 3 100), .addPending [116] 0, .swap,
    .rotate none, .put 5, .commit, .trim, .append [116] 0 (makeTimedBatch 2 200),
    .addPending [116] 0, .swap, .append [116] 0 (makeTimedBatch 1 300), .addPending [116] 0]

theorem time_lookup_iff_timed :
    ∃ l, (run Node.step (Node.fresh [49]) timedRun).logs.lookup (indexKey [116] 0) = some l ∧
      (run Node.step (Node.fresh [49]) timedRun).storage.offsetForTimestamp (indexKey [116] 0) 50
        = .ok (firstAt 50 (l.retained ((Node.fresh [49]).history timedRun (indexKey [116] 0)))) :=
  ⟨⟨6, 6, false, 0⟩, by decide +kernel, (time_lookup_iff [49] timedRun (by decide +kernel) [116] 0
    ⟨6, 6, false, 0⟩ (by decide +kernel) 50).mpr (by decide +kernel)⟩

/-- **During an upload the lookup skips batches.**  The batch at offset 3 reaches the time
150, and it is retained.  While it is on its way the lookup finds the next one, and before
there is a next one, nothing. -/
theorem lookup_skips_upload :
    firstAt 150 ((⟨6, 6, false, 0⟩ : ObjectLog).retained
        ((Node.fresh [49]).history timedRun (indexKey [116] 0))) = some 3 ∧
      (run Node.step (Node.fresh [49]) timedRun).logs.lookup (indexKey [116] 0)
        = some ⟨6, 6, false, 0⟩ ∧
      (run Node.step (Node.fresh [49]) timedRun).storage.offsetForTimestamp (indexKey [116] 0) 150
        = .ok (some 5) ∧
      (run Node.step (Node.fresh [49]) (timedRun.take 11)).storage.offsetForTimestamp
        (indexKey [116] 0) 150 = .ok none := by
  decide +kernel

end Object
end Mq
