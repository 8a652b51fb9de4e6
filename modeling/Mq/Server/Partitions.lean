import Mq.Broker.Holdings
import Mq.Server.Handlers
import Mq.Wire.Requests

/-!
# The partitions of a request

The loops of `internal/server/handlers.go` over the topics and partitions of a request, on
the whole broker.  A partition is looked up, which may open its log or register its topic,
and then served.  A partition that makes the process end, or never returns, is the last one
to be served.

## Main definitions

* `atLeader` — look a partition up, and serve it.
* `producePartition`, `fetchPartition`, `listOffsetsPartition` — one partition of a request.
* `Quiet` — the partition can be served without leaving a trace.

## Main results

* `le_run_atLeader_iff` — **a request on partitions leaves the holdings where they were
  exactly if each partition that it comes to is quiet**, judged where the request starts.
-/

namespace Mq
namespace Server

open Word Record Storage Controller Wire Transition
open Framing (feed)

variable (set : Setting)

/-! ### Serving a partition -/

/-- Serve a partition that this node leads.  The flag says that the process does not get
any further. -/
def atLeader (b : Holdings) (topic : Bytes) (p : ℤ) (act : Holdings → Log → Holdings × Bool) :
    Holdings × Bool :=
  match b.localLog set topic p with
  | (b', .error _) => (b', false)
  | (b', .ok l) => act b' l

/-- What a produce request does to the log of one partition. -/
def produceTo (x : Bytes × ProducePartition) (b : Holdings) (l : Log) : Holdings × Bool :=
  ({ b with logs := b.logs.insert (x.1, x.2.index) (appendRecords set.now l x.2.records).1 },
    Wedged set.now l x.2.records)

def producePartition (b : Holdings) (x : Bytes × ProducePartition) : Holdings × Bool :=
  atLeader set b x.1 x.2.index (produceTo set x)

def clampPanics : IterateEnd ClampStop → Bool
  | .done | .malformed _ | .refused _ => false
  | _ => true

/-- The bytes to read for one partition of a fetch request. -/
def fetchBytes (p : FetchPartition) : ℤ := if p.maxBytes ≤ 0 then defaultFetchBytes else p.maxBytes

/-- What a fetch request does to one partition. -/
def fetchFrom (replicaID : ℤ) (x : Bytes × FetchPartition) (b : Holdings) (l : Log) :
    Holdings × Bool :=
  match l.read x.2.fetchOffset (fetchBytes x.2) with
  | .error _ => (b, true)
  | .ok (data, _) =>
    if 0 ≤ replicaID then
      (b.recordReplicaFetch set x.1 x.2.partition replicaID x.2.fetchOffset, false)
    else (b, clampPanics (iterate (clampBatch l.highWatermark) data 0).2.2)

def fetchPartition (replicaID : ℤ) (b : Holdings) (x : Bytes × FetchPartition) : Holdings × Bool :=
  atLeader set b x.1 x.2.partition (fetchFrom set replicaID x)

/-- `TimestampLatest` -/
def timestampLatest : ℤ := -1

/-- `TimestampEarliest` -/
def timestampEarliest : ℤ := -2

/-- Looking for an offset never returns. -/
def seekHangs (l : Log) (timestamp : ℤ) : Bool :=
  if timestamp = timestampEarliest ∨ timestamp = timestampLatest then false
  else
    match l.offsetForTimestamp timestamp with
    | .error _ => true
    | .ok _ => false

/-- What a `ListOffsets` request does with one partition. -/
def seekIn (x : Bytes × ListOffsetsPartition) (b : Holdings) (l : Log) : Holdings × Bool :=
  (b, seekHangs l x.2.timestamp)

def listOffsetsPartition (b : Holdings) (x : Bytes × ListOffsetsPartition) : Holdings × Bool :=
  atLeader set b x.1 x.2.index (seekIn x)

/-! ### Partitions that leave no trace -/

/-- The log that this node has for a partition that it serves. -/
def servedLog (b : Holdings) (topic : Bytes) (p : ℤ) : Option Log :=
  if 0 ≤ p ∧ p < b.numPartitions set topic ∧ b.leads set topic p = true then
    b.logs.lookup (topic, p)
  else none

/-- The partition is not served, or its log is there and serving it is idle. -/
def Quiet (b : Holdings) (topic : Bytes) (p : ℤ) (Idle : Log → Prop) : Prop :=
  b.Unserved set topic p ∨ ∃ l, b.Serves set topic p l ∧ Idle l

variable {set}
variable {b : Holdings} {topic : Bytes} {p : ℤ} {l : Log}

theorem serves_iff_servedLog : b.Serves set topic p l ↔ servedLog set b topic p = some l := by
  unfold servedLog
  constructor
  · intro h
    rw [if_pos ⟨h.nonneg, h.lt, h.leads⟩, h.log]
  · intro h
    split at h
    · next hcond => exact ⟨hcond.1, hcond.2.1, hcond.2.2, h⟩
    · cases h

theorem servedLog_of_unserved (h : b.Unserved set topic p) : servedLog set b topic p = none :=
  Option.eq_none_iff_forall_ne_some.mpr fun _ hl => (serves_iff_servedLog.mpr hl).not_unserved h

/-- Serving keeps the logs accurate and moves the holdings on. -/
structure Advances (set : Setting) (b b' : Holdings) : Prop where
  le : Holdings.Le set b b'
  accurate : b'.Accurate

/-- **The rule for one partition**: where the partition is not served nothing happens, and a
log that has to be opened is a trace. -/
theorem atLeader_cases (hb : b.Accurate)
    {act : Holdings → Log → Holdings × Bool}
    (hact : ∀ b' l, b'.Accurate → b'.logs.lookup (topic, p) = some l →
      Advances set b' (act b' l).1) :
    Advances set b (atLeader set b topic p act).1 ∧
      ((b.Unserved set topic p ∧ atLeader set b topic p act = (b, false)) ∨
        (∃ l, b.Serves set topic p l ∧ atLeader set b topic p act = act b l) ∨
        (¬ b.Unserved set topic p ∧ b.logs.lookup (topic, p) = none ∧
          ¬ Holdings.Le set (atLeader set b topic p act).1 b)) := by
  unfold atLeader
  rcases Holdings.localLog_cases b topic p with
    ⟨hun, e, heq⟩ | ⟨l, hserves, heq⟩ | ⟨hun, hnone, hgrown⟩
  · rw [heq]
    exact ⟨⟨refl_of _ b, hb⟩, .inl ⟨hun, rfl⟩⟩
  · rw [heq]
    exact ⟨hact b l hb hserves.log, .inr (.inl ⟨l, hserves, rfl⟩)⟩
  · rcases hlocal : b.localLog set topic p with ⟨b', e | l⟩ <;> rw [hlocal] at hgrown
    · exact ⟨⟨hgrown.le, hgrown.accurate hb⟩, .inr (.inr ⟨hun, hnone, hgrown.not_le⟩)⟩
    · -- whatever is done to the log, it stays open
      have hthen := hact b' l (hgrown.accurate hb) (Holdings.lookup_of_localLog hlocal)
      exact ⟨⟨trans_of _ hgrown.le hthen.le, hthen.accurate⟩, .inr (.inr ⟨hun, hnone,
        fun hback => hgrown.not_le (trans_of _ hthen.le hback)⟩)⟩

/-- **A request on partitions leaves the holdings where they were exactly if each partition
that it comes to is quiet.**  `F` is what else the partitions served so far keep. -/
theorem le_run_atLeader_iff {α : Type} {topic : α → Bytes} {part : α → ℤ}
    {act : α → Holdings → Log → Holdings × Bool} {D : α → Prop}
    (hact : ∀ a, D a → ∀ b' l, b'.Accurate → b'.logs.lookup (topic a, part a) = some l →
      Advances set b' (act a b' l).1)
    {b : Holdings} (hb : b.Accurate) {F : Holdings → Prop} (hF : F b) {Idle : α → Log → Prop}
    {stuck : α → Log → Bool}
    (hidle : ∀ t a l, b.Same t → F t → t.Accurate → D a → b.Serves set (topic a) (part a) l →
      Idle a l → (b.Same (act a t l).1 ∧ F (act a t l).1) ∧ (act a t l).2 = stuck a l)
    (hmove : ∀ t a l, b.Same t → F t → t.Accurate → D a → b.Serves set (topic a) (part a) l →
      ¬ Idle a l → ¬ Holdings.Le set (act a t l).1 b)
    {as : List α} (has : ∀ a ∈ as, D a) :
    Holdings.Le set
        (runUntil (fun t a => atLeader set t (topic a) (part a) (act a)) b as) b ↔
      ∀ a ∈ reached (fun a => (servedLog set b (topic a) (part a)).any (stuck a)) as,
        Quiet set b (topic a) (part a) (Idle a) := by
  have hcases := fun (t : Holdings) a (ht : t.Accurate) (ha : D a) => atLeader_cases ht (hact a ha)
  refine runUntil_le_iff (P := Holdings.Accurate) (R := fun t => b.Same t ∧ F t)
    (fun t a ht ha => (hcases t a ht ha).1.accurate) (fun t a ht ha => (hcases t a ht ha).1.le)
    (fun t ht => ht.1.le) ?_ ?_ hb ⟨Holdings.Same.refl b, hF⟩ has
  · rintro t a ht ⟨hsame, hFt⟩ ha hquiet
    unfold atLeader
    rcases Holdings.localLog_cases t (topic a) (part a) with
      ⟨hun, e, heq⟩ | ⟨l, hserves, heq⟩ | ⟨hun, hnone, -⟩
    · rw [heq, servedLog_of_unserved (hsame.unserved.mp hun)]
      exact ⟨⟨hsame, hFt⟩, rfl⟩
    · rw [hsame.serves] at hserves
      rw [heq, serves_iff_servedLog.mp hserves]
      rcases hquiet with hun | ⟨l', hserves', hl'⟩
      · exact absurd hun hserves.not_unserved
      · obtain rfl := Option.some.inj (hserves.log.symm.trans hserves'.log)
        exact hidle t a l hsame hFt ht ha hserves hl'
    · exfalso
      rcases hquiet with hun' | ⟨l, hserves, -⟩
      · exact hun (hsame.unserved.mpr hun')
      · exact absurd (hsame.serves.mpr hserves).log (by simp [hnone])
  · rintro t a ht ⟨hsame, hFt⟩ ha hquiet
    rcases (hcases t a ht ha).2 with ⟨hun, -⟩ | ⟨l, hserves, heq⟩ | ⟨-, -, hnot⟩
    · exact absurd (.inl (hsame.unserved.mp hun)) hquiet
    · rw [hsame.serves] at hserves
      rw [heq]
      exact hmove t a l hsame hFt ht ha hserves fun hidle => hquiet (.inr ⟨l, hserves, hidle⟩)
    · -- what is above `t` and not below it is not below `b` either
      exact fun hback => hnot (trans_of _ hback hsame.symm.le)

/-- What a request on partitions does to the holdings. -/
theorem advances_run_atLeader {α : Type} {topic : α → Bytes} {part : α → ℤ}
    {act : α → Holdings → Log → Holdings × Bool} {D : α → Prop}
    (hact : ∀ a, D a → ∀ b' l, b'.Accurate → b'.logs.lookup (topic a, part a) = some l →
      Advances set b' (act a b' l).1)
    {b : Holdings} (hb : b.Accurate) {as : List α} (has : ∀ a ∈ as, D a) :
    Advances set b (runUntil (fun t a => atLeader set t (topic a) (part a) (act a)) b as) := by
  refine runUntil_induct (P := Advances set b) (fun t a ht ha => ?_) ⟨refl_of _ b, hb⟩ has
  have hone := (atLeader_cases ht.accurate (hact a ha)).1
  exact ⟨trans_of _ ht.le hone.le, hone.accurate⟩

/-! ### Replacing a log -/

theorem advances_insert (hb : b.Accurate) {k : Bytes × ℤ} {l' : Log}
    (hl : b.logs.lookup k = some l) (hl' : l'.Accurate) (hle : l = l' ∨ l.Before l')
    (followers : Table (Bytes × ℤ) (Table ℤ FollowerProgress)) :
    Advances set b ⟨b.catalog, b.ctrl, b.logs.insert k l', followers⟩ := by
  refine ⟨⟨.refl _, rfl, .refl _, .insert fun v hv => ?_⟩, hb.insert k hl' _ _ _⟩
  obtain rfl := Option.some.inj (hl.symm.trans hv)
  exact hle

theorem not_le_insert {t : Holdings} {k : Bytes × ℤ} {l' : Log} (hl : b.logs.lookup k = some l)
    (hlt : l.Before l') (followers : Table (Bytes × ℤ) (Table ℤ FollowerProgress)) :
    ¬ Holdings.Le set ⟨t.catalog, t.ctrl, t.logs.insert k l', followers⟩ b :=
  fun hback => Table.Grows.not_of_later hl (AList.lookup_insert t.logs) hlt hback.logs

/-! ### Produce requests -/

/-- The first batch, if there is one, is declined: the loop ends there. -/
def ProduceIdle (records : Bytes) (l : Log) : Prop := ∀ batch ∈ (split records).head?, l.Declines batch

/-- **The loop over the batches** stops at once without a trace, or moves the log on. -/
theorem feed_appendBatch_cases (now : ℤ) {bs : List Bytes}
    (hbs : ∀ b ∈ bs, b.length < 2147483648) {a : Appended} (ha : a.log.Accurate) :
    (feed (appendBatch now) a bs).1.log.Accurate ∧
      ((∀ batch ∈ bs.head?, a.log.Declines batch) ∧ a.log = (feed (appendBatch now) a bs).1.log ∨
        (¬ ∀ batch ∈ bs.head?, a.log.Declines batch) ∧
          a.log.Before (feed (appendBatch now) a bs).1.log) := by
  induction bs generalizing a with
  | nil => exact ⟨ha, .inl ⟨by simp, rfl⟩⟩
  | cons batch bs ih =>
    rw [feed, appendBatch]
    simp only [List.head?_cons, Option.mem_some_iff, forall_eq']
    by_cases hd : a.log.Declines batch
    · obtain ⟨e, he⟩ := ha.append_of_declines hd now
      rw [he]
      exact ⟨ha, .inl ⟨hd, rfl⟩⟩
    · have hlt := ha.before_append hd now
      have hacc := ha.append now (hbs batch List.mem_cons_self)
      rcases happ : a.log.append now batch with ⟨l, e | off⟩ <;> rw [happ] at hlt hacc
      · exact ⟨hacc, .inr ⟨hd, hlt⟩⟩
      · -- the rest of the loop does not go back
        obtain ⟨hacc', hrest⟩ := ih (fun b hb => hbs b (List.mem_cons_of_mem batch hb))
          (a := ⟨l, if a.base < 0 then off else a.base, a.stored ++ [stamp off batch]⟩) hacc
        refine ⟨hacc', .inr ⟨hd, ?_⟩⟩
        rcases hrest with ⟨-, heq⟩ | ⟨-, hlt'⟩
        · rw [← heq]
          exact hlt
        · exact trans_of Log.Before hlt hlt'

theorem producePartition_cases (now : ℤ) {records : Bytes} (hfit : records.length < 2147483648)
    (hl : l.Accurate) :
    (appendRecords now l records).1.Accurate ∧
      (ProduceIdle records l ∧ l = (appendRecords now l records).1 ∨
        ¬ ProduceIdle records l ∧ l.Before (appendRecords now l records).1) := by
  rw [log_appendRecords]
  exact feed_appendBatch_cases now
    (fun b hb => (length_le_of_mem_split hb).trans_lt hfit) (a := ⟨l, -1, []⟩) hl

theorem advances_produceTo {x : Bytes × ProducePartition} (hx : x.2.records.length < 2147483648)
    {b : Holdings} (hb : b.Accurate) {l : Log} (hl : b.logs.lookup (x.1, x.2.index) = some l) :
    Advances set b (produceTo set x b l).1 := by
  obtain ⟨hacc, hcases⟩ := producePartition_cases set.now hx (hb _ l hl)
  exact advances_insert hb hl hacc (hcases.imp And.right And.right) _

theorem advances_produce (hb : b.Accurate) {xs : List (Bytes × ProducePartition)}
    (hxs : ∀ x ∈ xs, x.2.records.length < 2147483648) :
    Advances set b (runUntil (producePartition set) b xs) :=
  advances_run_atLeader (fun _ hx _ _ hb' hl => advances_produceTo hx hb' hl) hb hxs

/-- **A produce request leaves no trace exactly if each partition that it comes to is not
served or gets a first batch that is declined.** -/
theorem le_produce_iff (hb : b.Accurate) {xs : List (Bytes × ProducePartition)}
    (hxs : ∀ x ∈ xs, x.2.records.length < 2147483648) :
    Holdings.Le set (runUntil (producePartition set) b xs) b ↔
      ∀ x ∈ reached (fun x => (servedLog set b x.1 x.2.index).any fun l =>
          (produceTo set x b l).2) xs,
        Quiet set b x.1 x.2.index (ProduceIdle x.2.records) := by
  refine le_run_atLeader_iff (fun x hx b' l hb' hl => advances_produceTo hx hb' hl) hb
    (F := fun _ => True) trivial ?_ ?_ hxs
  · intro t x l hsame _ ht hx hserves hidle
    refine ⟨⟨?_, trivial⟩, rfl⟩
    rcases (producePartition_cases set.now hx (hb _ l hserves.log)).2 with ⟨-, heq⟩ | ⟨hnot, -⟩
    · rw [produceTo, ← heq]
      exact hsame.insert hserves.log _
    · exact absurd hidle hnot
  · intro t x l hsame _ ht hx hserves hidle
    rcases (producePartition_cases set.now hx (hb _ l hserves.log)).2 with ⟨h, -⟩ | ⟨-, hlt⟩
    · exact absurd h hidle
    · exact not_le_insert hserves.log hlt _

/-! ### Fetch requests -/

/-- What is known about the followers of a partition. -/
def progressOf (b : Holdings) (topic : Bytes) (p : ℤ) : Table ℤ FollowerProgress :=
  (b.followers.lookup (topic, p)).getD ∅

/-- The high watermark that a follower's fetch makes the leader set, if it sets one. -/
def fetchMark (set : Setting) (b : Holdings) (topic : Bytes) (p replicaID fetchOffset : ℤ)
    (l : Log) : Option ℤ :=
  (b.ctrl.bind fun m => m.part topic p).bind fun pv =>
    if pv.leader = set.self then
      some (Broker.leastReplicated set.self
        ((progressOf b topic p).insert replicaID ⟨fetchOffset, set.now⟩) l.nextOffset pv.isr)
    else none

/-- Nothing that the fetch is for moves the high watermark: it is a consumer's fetch, the
read does not return, or the follower is not what the high watermark waits for. -/
def FetchIdle (set : Setting) (b : Holdings) (replicaID : ℤ) (x : Bytes × FetchPartition)
    (l : Log) : Prop :=
  replicaID < 0 ∨ (∀ r, l.read x.2.fetchOffset (fetchBytes x.2) ≠ .ok r) ∨
    ∀ mark ∈ fetchMark set b x.1 x.2.partition replicaID x.2.fetchOffset l,
      mark ≤ l.highWatermark

theorem leastReplicated_congr {self : ℤ} {prog prog' : Table ℤ FollowerProgress}
    (h : ∀ id, prog.lookup id = prog'.lookup id) (isr : List ℤ) (hwm : ℤ) :
    Broker.leastReplicated self prog hwm isr = Broker.leastReplicated self prog' hwm isr := by
  induction isr generalizing hwm with
  | nil => rfl
  | cons id isr ih =>
    rw [Broker.leastReplicated, Broker.leastReplicated, h id]
    split <;> exact ih _

theorem fetchMark_le {replicaID fetchOffset mark : ℤ}
    (h : fetchMark set b topic p replicaID fetchOffset l = some mark) : mark ≤ l.nextOffset := by
  obtain ⟨pv, -, hmark⟩ := Option.bind_eq_some_iff.mp h
  split at hmark
  · cases hmark
    exact (Broker.leastReplicated_spec ⟨l, _, none, true⟩ set.self pv.isr l.nextOffset).1
  · cases hmark

/-- **A follower's fetch** sets the mark. -/
theorem recordReplicaFetch_eq (hl : b.logs.lookup (topic, p) = some l) (replicaID fetchOffset : ℤ) :
    b.recordReplicaFetch set topic p replicaID fetchOffset =
      if b.ctrl.isSome then
        { b with
          logs := b.logs.insert (topic, p)
            ((fetchMark set b topic p replicaID fetchOffset l).elim l l.setHighWatermark)
          followers := b.followers.insert (topic, p)
            ((progressOf b topic p).insert replicaID ⟨fetchOffset, set.now⟩) }
      else b := by
  unfold Holdings.recordReplicaFetch fetchMark progressOf
  cases hctrl : b.ctrl with
  | none => rfl
  | some m =>
    dsimp only
    rw [hl]
    dsimp only [Option.bind_some, Broker.recordReplicaFetch, Broker.advanceHighWatermark]
    cases m.part topic p with
    | none => rfl
    | some pv =>
      dsimp only [Option.bind_some]
      by_cases hlead : pv.leader = set.self
      · rw [if_neg (not_not.mpr hlead), if_pos hlead]
        rfl
      · rw [if_pos hlead, if_neg hlead]
        rfl

/-- Setting the mark leaves no trace, or moves the log on. -/
theorem setMark_cases (hl : l.Accurate) {mark : Option ℤ} (hle : ∀ x ∈ mark, x ≤ l.nextOffset) :
    (mark.elim l l.setHighWatermark).Accurate ∧
      ((∀ x ∈ mark, x ≤ l.highWatermark) ∧ l = mark.elim l l.setHighWatermark ∨
        (¬ ∀ x ∈ mark, x ≤ l.highWatermark) ∧ l.Before (mark.elim l l.setHighWatermark)) := by
  cases mark with
  | none => exact ⟨hl, .inl ⟨by simp, rfl⟩⟩
  | some x =>
    have hx : x ≤ l.nextOffset := hle x rfl
    simp only [Option.mem_some_iff, forall_eq', Option.elim_some]
    refine ⟨hl.setHighWatermark x, ?_⟩
    rcases l.setHighWatermark_cases x with ⟨hmin, heq⟩ | ⟨hmin, hlt, -⟩
    · exact .inl ⟨by omega, heq.symm⟩
    · exact .inr ⟨by omega, hlt⟩

theorem advances_fetchFrom (replicaID : ℤ) (x : Bytes × FetchPartition) (hb : b.Accurate)
    (hl : b.logs.lookup (x.1, x.2.partition) = some l) :
    Advances set b (fetchFrom set replicaID x b l).1 := by
  have hsame : Advances set b b := ⟨refl_of _ b, hb⟩
  unfold fetchFrom
  split
  · exact hsame
  · split
    · rw [recordReplicaFetch_eq hl]
      split
      · obtain ⟨hacc, hcases⟩ := setMark_cases (hb _ l hl) fun mark => fetchMark_le
        exact advances_insert hb hl hacc (hcases.imp And.right And.right) _
      · exact hsame
    · exact hsame

theorem advances_fetch (replicaID : ℤ) (hb : b.Accurate) (xs : List (Bytes × FetchPartition)) :
    Advances set b (runUntil (fetchPartition set replicaID) b xs) :=
  advances_run_atLeader (D := fun _ => True)
    (fun x _ _ _ hb' hl => advances_fetchFrom replicaID x hb' hl) hb fun _ _ => trivial

/-- The followers other than the one that fetches are where they were. -/
def OthersKept (replicaID : ℤ) (b t : Holdings) : Prop :=
  ∀ topic p id, id ≠ replicaID → (progressOf t topic p).lookup id = (progressOf b topic p).lookup id

theorem OthersKept.insert {replicaID : ℤ} {t : Holdings} (h : OthersKept replicaID b t)
    (topic : Bytes) (p : ℤ) (f : FollowerProgress) (catalog : Table Bytes ℤ)
    (ctrl : Option MetaState) (logs : Table (Bytes × ℤ) Log) :
    OthersKept replicaID b ⟨catalog, ctrl, logs,
      t.followers.insert (topic, p) ((progressOf t topic p).insert replicaID f)⟩ := by
  intro topic' p' id hid
  rw [← h topic' p' id hid]
  unfold progressOf
  dsimp only
  rw [Table.lookup_insert_ite]
  split
  · next heq =>
    cases heq
    rw [Option.getD_some, Table.lookup_insert_ite, if_neg hid]
  · rfl

/-- The mark depends on the other followers only. -/
theorem fetchMark_congr {replicaID : ℤ} {t : Holdings} (hsame : b.Same t)
    (h : OthersKept replicaID b t) (topic : Bytes) (p fetchOffset : ℤ) (l : Log) :
    fetchMark set t topic p replicaID fetchOffset l
      = fetchMark set b topic p replicaID fetchOffset l := by
  have hprog : ∀ (isr : List ℤ) (hwm : ℤ),
      Broker.leastReplicated set.self
          ((progressOf t topic p).insert replicaID ⟨fetchOffset, set.now⟩) hwm isr
        = Broker.leastReplicated set.self
          ((progressOf b topic p).insert replicaID ⟨fetchOffset, set.now⟩) hwm isr := by
    intro isr hwm
    refine leastReplicated_congr (fun id => ?_) isr hwm
    rw [Table.lookup_insert_ite, Table.lookup_insert_ite]
    split
    · rfl
    · next hid => exact h topic p id hid
  unfold fetchMark
  rw [hsame.ctrl]
  simp only [hprog]

/-- **A fetch request leaves no trace exactly if each partition that it comes to is not
served or does not have its high watermark moved.** -/
theorem le_fetch_iff (replicaID : ℤ) (hb : b.Accurate) (xs : List (Bytes × FetchPartition)) :
    Holdings.Le set (runUntil (fetchPartition set replicaID) b xs) b ↔
      ∀ x ∈ reached (fun x => (servedLog set b x.1 x.2.partition).any fun l =>
          (fetchFrom set replicaID x b l).2) xs,
        Quiet set b x.1 x.2.partition (FetchIdle set b replicaID x) := by
  have hstuck : ∀ t x l, (fetchFrom set replicaID x t l).2 = (fetchFrom set replicaID x b l).2 := by
    intro t x l
    unfold fetchFrom
    split
    · rfl
    · split <;> rfl
  refine le_run_atLeader_iff (D := fun _ => True)
    (fun x _ b' l hb' hl => advances_fetchFrom replicaID x hb' hl) hb
    (F := OthersKept replicaID b) (fun _ _ _ _ => rfl) ?_ ?_ fun _ _ => trivial
  · intro t x l hsame hkept ht _ hserves hidle
    refine ⟨?_, hstuck t x l⟩
    have hlog : t.logs.lookup (x.1, x.2.partition) = some l := (hsame.logs _).trans hserves.log
    unfold fetchFrom
    split
    · exact ⟨hsame, hkept⟩
    · next data err hread =>
      split
      · next hpos =>
        have hmark : ∀ mark ∈ fetchMark set t x.1 x.2.partition replicaID x.2.fetchOffset l,
            mark ≤ l.highWatermark := by
          rw [fetchMark_congr hsame hkept]
          rcases hidle with hneg | hfails | hmark
          · omega
          · exact absurd hread (hfails _)
          · exact hmark
        rcases (setMark_cases (ht _ l hlog) fun mark => fetchMark_le).2 with
          ⟨-, heq⟩ | ⟨hnot, -⟩
        · dsimp only
          rw [recordReplicaFetch_eq hlog, ← heq]
          split
          · exact ⟨hsame.insert hserves.log _, hkept.insert _ _ _ _ _ _⟩
          · exact ⟨hsame, hkept⟩
        · exact absurd hmark hnot
      · exact ⟨hsame, hkept⟩
  · intro t x l hsame hkept ht _ hserves hidle
    have hlog : t.logs.lookup (x.1, x.2.partition) = some l := (hsame.logs _).trans hserves.log
    rw [FetchIdle, not_or, not_or, not_lt] at hidle
    obtain ⟨hpos, hread, hmark⟩ := hidle
    rw [not_forall] at hread
    obtain ⟨⟨data, err⟩, hread⟩ := hread
    rw [not_not] at hread
    rw [← fetchMark_congr hsame hkept] at hmark
    rcases (setMark_cases (ht _ l hlog) fun mark => fetchMark_le).2 with ⟨h, -⟩ | ⟨-, hlt⟩
    · exact absurd h hmark
    · -- there is a mark, so there is a controller
      have hctrl : t.ctrl.isSome = true := by
        cases hc : t.ctrl with
        | some m => rfl
        | none => exact absurd (by simp [fetchMark, hc]) hmark
      rw [fetchFrom, hread]
      dsimp only
      rw [if_pos hpos, recordReplicaFetch_eq hlog, if_pos hctrl]
      exact not_le_insert hserves.log hlt _

/-! ### ListOffsets requests -/

theorem advances_seekIn (x : Bytes × ListOffsetsPartition) (hb : b.Accurate) (l : Log) :
    Advances set b (seekIn x b l).1 := ⟨refl_of _ b, hb⟩

theorem advances_listOffsets (hb : b.Accurate) (xs : List (Bytes × ListOffsetsPartition)) :
    Advances set b (runUntil (listOffsetsPartition set) b xs) :=
  advances_run_atLeader (D := fun _ => True) (fun x _ _ l hb' _ => advances_seekIn x hb' l) hb
    fun _ _ => trivial

/-- **A `ListOffsets` request** leaves a trace only by opening logs. -/
theorem le_listOffsets_iff (hb : b.Accurate) (xs : List (Bytes × ListOffsetsPartition)) :
    Holdings.Le set (runUntil (listOffsetsPartition set) b xs) b ↔
      ∀ x ∈ reached (fun x => (servedLog set b x.1 x.2.index).any (seekHangs · x.2.timestamp)) xs,
        Quiet set b x.1 x.2.index fun _ => True := by
  refine le_run_atLeader_iff (D := fun _ => True) (F := fun _ => True)
    (fun x _ _ l hb' _ => advances_seekIn x hb' l) hb trivial ?_ ?_ fun _ _ => trivial
  · intro t x l hsame _ _ _ _ _
    exact ⟨⟨hsame, trivial⟩, rfl⟩
  · intro t x l _ _ _ _ _ hidle
    exact absurd trivial hidle

end Server
end Mq
