import Mq.Storage.Recovery

/-!
# Replicating one partition from a fixed leader

The fetch loop of `internal/replication` against a leader that does not change:
the follower asks for what comes after its own log end, the leader reads its log
there, and the follower appends the batches of the response one after another.
The network may lose, delay and repeat what it carries, so every request ever
sent can be served at any time and every response ever given can be received at
any time, also after the connection was dropped or the follower reopened its log.

## Main definitions

* `System`, `Action`, `System.step` — the leader, the follower and what is between
  them.
* `Served history leo bs` — what a response may carry.

## Main results

* `follower_is_prefix` — **the follower's log is a prefix of the leader's
  history**, as long as the segments stay within the 32-bit sizes.
* `follower_gap` — a leader segment that spans more offsets makes the leader skip
  a batch.
-/

namespace Mq
namespace Replication

open Word Record Storage Transition
open Framing (feed)

/-! ### The system -/

/-- The leader's log and the follower's log, and what is between them. -/
structure System where
  leader : Log
  follower : Log
  /-- Every batch the leader appended, as stored. -/
  history : List Bytes
  /-- The offsets of the requests sent. -/
  requests : List ℤ
  /-- The records of the responses given. -/
  responses : List Bytes
  /-- The batches of the response being applied that are still to come. -/
  applying : List Bytes
  /-- What `AppendReplica` failed with. -/
  failures : List Failure

/-- Two logs that have not talked yet. -/
def System.init (leader follower : Log) : System := ⟨leader, follower, [], [], [], [], []⟩

inductive Action where
  /-- A producer's batch is appended by the leader. -/
  | append (now : ℤ) (batch : Bytes)
  /-- The leader deletes old segments. -/
  | enforceRetention (now maxAgeMs maxBytes : ℤ)
  /-- The follower asks for what comes after its log end. -/
  | request
  /-- The leader answers a request. -/
  | serve (i : ℕ) (maxBytes : ℤ)
  /-- The follower starts applying a response, and gives up on the one before. -/
  | receive (i : ℕ)
  /-- The follower applies the next batch. -/
  | applyNext (now : ℤ)
  /-- The follower adopts a high watermark. -/
  | setHighWatermark (hwm : ℤ)
  /-- The connection is dropped. -/
  | disconnect
  /-- The follower closes its log and opens it again. -/
  | reopen (now : ℤ)
  deriving DecidableEq, Repr

/-- A produced batch is recorded as the leader stored it. -/
def System.append (s : System) (now : ℤ) (batch : Bytes) : System :=
  match s.leader.append now batch with
  | (l, .ok base) => { s with leader := l, history := s.history ++ [stamp base batch] }
  | (l, .error _) => { s with leader := l }

/-- The leader reads at the offset asked for.  An offset out of range is answered
with an error code and no records. -/
def System.serve (s : System) (i : ℕ) (maxBytes : ℤ) : System :=
  match s.requests[i]? with
  | none => s
  | some offset =>
    match s.leader.read offset maxBytes with
    | .ok (_, some .offsetOutOfRange) => s
    | .ok (data, _) => { s with responses := s.responses ++ [data] }
    | .error _ => s

/-- The callback that `Iterate` is called with. -/
def applyBatch (now : ℤ) (f : Log) (batch : Bytes) : Log × Option Failure :=
  match f.appendReplica now batch with
  | (f, .ok _) => (f, none)
  | (f, .error e) => (f, some e)

/-- One call of the callback.  An error ends the session. -/
def System.applyNext (s : System) (now : ℤ) : System :=
  match s.applying with
  | [] => s
  | b :: rest =>
    match applyBatch now s.follower b with
    | (f, none) => { s with follower := f, applying := rest }
    | (f, some e) => { s with follower := f, applying := [], failures := s.failures ++ [e] }

/-- The follower's process is restarted on the same directory. -/
def System.reopen (s : System) (now : ℤ) : System :=
  match Log.open s.follower.cfg now s.follower.dir with
  | .ok f => { s with follower := f, applying := [] }
  | .error e => { s with applying := [], failures := s.failures ++ [e] }

def System.step (s : System) : Action → System
  | .append now batch => s.append now batch
  | .enforceRetention now maxAgeMs maxBytes =>
    { s with leader := s.leader.enforceRetention now maxAgeMs maxBytes }
  | .request => { s with requests := s.requests ++ [s.follower.latestOffset] }
  | .serve i maxBytes => s.serve i maxBytes
  | .receive i =>
    match s.responses[i]? with
    | none => s
    | some records => { s with applying := split records }
  | .applyNext now => s.applyNext now
  | .setHighWatermark hwm => { s with follower := s.follower.setHighWatermark hwm }
  | .disconnect => { s with applying := [] }
  | .reopen now => s.reopen now

/-- Applying a response batch by batch is walking its records with the callback. -/
theorem run_applyNext (now : ℤ) (s : System) :
    ∀ n, s.applying.length ≤ n →
      (run System.step s (List.replicate n (.applyNext now))).follower
        = (feed (applyBatch now) s.follower s.applying).1 := by
  intro n
  induction n generalizing s with
  | zero =>
    intro hn
    rw [List.eq_nil_of_length_eq_zero (Nat.le_zero.mp hn)]; rfl
  | succ n ih =>
    intro hn
    rw [List.replicate_succ, run_cons, System.step, System.applyNext]
    cases hq : s.applying with
    | nil => simp only; rw [ih s (by rw [hq]; exact Nat.zero_le _), hq]
    | cons b rest =>
      rw [hq, List.length_cons] at hn
      simp only [feed]
      rcases applyBatch now s.follower b with ⟨f, _ | e⟩
      · simp only; rw [ih]; exact Nat.le_of_succ_le_succ hn
      · simp only; rw [ih]; rfl; exact Nat.zero_le _

theorem run_receive {s : System} {i : ℕ} {records : Bytes} (hi : s.responses[i]? = some records)
    (now : ℤ) {n : ℕ} (hn : (split records).length ≤ n) :
    (run System.step s (.receive i :: List.replicate n (.applyNext now))).follower
      = (iterate (applyBatch now) records s.follower).1 := by
  rw [run_cons, System.step]
  simp only [hi]
  rw [run_applyNext now _ n hn, iterate_eq_feed]

/-- Only well-formed batches are produced. -/
def Action.WellFormed : Action → Prop
  | .append _ batch => Record.WellFormed batch
  | _ => True

instance : DecidablePred Action.WellFormed := fun a => by
  cases a <;> unfold Action.WellFormed <;> infer_instance

/-- The leader's segments span fewer than `2 ^ 31` bytes and offsets, and the
follower's fewer than `2 ^ 31` bytes. -/
def System.Bounded (s : System) : Prop :=
  s.leader.Spans ∧ ∀ f ∈ s.follower.segments, f.logFile.length < 2147483648

instance : DecidablePred System.Bounded := fun _ => inferInstanceAs (Decidable (_ ∧ _))

/-! ### What a response carries -/

/-- The batches `bs` are consecutive ones of the history, and the first of them
starts at or below the log end `leo`. -/
def Served (history : List Bytes) (leo : ℤ) (bs : List Bytes) : Prop :=
  ∃ pre post, history = pre ++ bs ++ post ∧ offsetCount pre ≤ leo

theorem served_nil {history : List Bytes} {leo : ℤ} (h : 0 ≤ leo) : Served history leo [] :=
  ⟨[], history, rfl, h⟩

theorem Served.mono {history : List Bytes} {leo leo' : ℤ} {bs : List Bytes}
    (h : Served history leo bs) (hle : leo ≤ leo') : Served history leo' bs := by
  obtain ⟨pre, post, heq, hpre⟩ := h
  exact ⟨pre, post, heq, hpre.trans hle⟩

theorem Served.extend {history longer : List Bytes} {leo : ℤ} {bs : List Bytes}
    (h : Served history leo bs) (hlonger : history <+: longer) : Served longer leo bs := by
  obtain ⟨pre, post, rfl, hpre⟩ := h
  obtain ⟨rest, rfl⟩ := hlonger
  exact ⟨pre, post ++ rest, by simp, hpre⟩

/-- What the next batch of a response is to a log that holds a prefix of the
history: one it has already, or the very next one. -/
theorem Served.next {history done rest : List Bytes} {z leo : ℤ} {b : Bytes}
    (hch : Chained 0 history z) (hdone : done <+: history) (hleo : leo = offsetCount done)
    (h : Served history leo (b :: rest)) :
    ((header b).baseOffset < leo ∧ Served history leo rest) ∨
      ((header b).baseOffset = leo ∧ done ++ [b] <+: history ∧
        Served history (leo + (header b).recordCount) rest) := by
  obtain ⟨pre, post, heq, hpre⟩ := h
  obtain ⟨tail, htail⟩ := hdone
  rw [List.append_assoc, List.cons_append] at heq
  have hch' := hch
  rw [heq] at hch'
  obtain ⟨x, hx, hw, hbase, -⟩ := chained_append.mp hch'
  have hx : x = offsetCount pre := by rw [hx.stop_eq, zero_add]
  have hrest : Served history (offsetCount (pre ++ [b])) rest :=
    ⟨pre ++ [b], post, by rw [heq]; simp, le_rfl⟩
  have hcount : offsetCount (pre ++ [b]) = (header b).baseOffset + (header b).recordCount := by
    rw [offsetCount_append, offsetCount_cons, offsetCount_nil, hbase, hx, add_zero]
  have hpos := hw.2.2
  have hnonneg : ∀ bs : List Bytes, (∃ cs ds, history = cs ++ bs ++ ds) →
      (bs.length : ℤ) ≤ offsetCount bs := by
    rintro bs ⟨cs, ds, hbs⟩
    rw [hbs, List.append_assoc] at hch
    obtain ⟨u, -, hu⟩ := chained_append.mp hch
    obtain ⟨v, hv, -⟩ := chained_append.mp hu
    have h₁ := hv.stop_eq
    have h₂ := hv.add_length_le
    omega
  have hboth : done ++ tail = pre ++ b :: (rest ++ post) := htail.trans heq
  rcases List.append_eq_append_iff.mp hboth with ⟨t, ht, -⟩ | ⟨t, ht, ht'⟩
  · -- the response starts at or past the log end, so at it
    have hlen := hnonneg t ⟨done, b :: (rest ++ post), by rw [heq, ht]⟩
    rw [ht, offsetCount_append] at hpre
    obtain rfl : t = [] := List.eq_nil_of_length_eq_zero (by omega)
    rw [List.append_nil] at ht
    subst ht
    exact Or.inr ⟨by omega, ⟨rest ++ post, by rw [heq]; simp⟩, hrest.mono (by omega)⟩
  · cases t with
    | nil =>
      rw [List.append_nil] at ht
      subst ht
      exact Or.inr ⟨by omega, ⟨rest ++ post, by rw [heq]; simp⟩, hrest.mono (by omega)⟩
    | cons c t =>
      -- the log holds the batch already
      obtain ⟨rfl, ht''⟩ := List.cons.inj ht'
      have hlen := hnonneg t ⟨pre ++ [b], tail, by rw [← htail, ht]; simp⟩
      rw [ht, offsetCount_append, offsetCount_cons] at hleo
      exact Or.inl ⟨by omega, hrest.mono (by omega)⟩

/-! ### The invariant -/

/-- The leader holds the end of the history and the follower a prefix of it; what
was asked for and what was served starts at or below the follower's log end. -/
structure Inv (s : System) (yl yf : Layout) : Prop where
  leader : s.leader.Holds yl
  suffix : yl.batches <:+ s.history
  chained : Chained 0 s.history yl.last.stop
  follower : s.follower.Holds yf
  start : yf.start = 0
  isPrefix : yf.batches <+: s.history
  requests : ∀ o ∈ s.requests, o ≤ yf.last.stop
  responses : ∀ r ∈ s.responses, ∃ bs, r = bs.flatten ∧ Served s.history yf.last.stop bs
  applying : Served s.history yf.last.stop s.applying
  failures : s.failures = []

namespace Inv

variable {s : System} {yl yf : Layout} (h : Inv s yl yf)
include h

theorem stop_eq : yf.last.stop = offsetCount yf.batches := by
  have := yf.chained.stop_eq
  rw [h.start] at this
  omega

/-- The follower's log grows, or is opened again. -/
theorem setFollower {f : Log} {yf' : Layout} {applying : List Bytes} (hf : f.Holds yf')
    (hstart : yf'.start = 0) (hpre : yf'.batches <+: s.history)
    (hle : yf.last.stop ≤ yf'.last.stop) (happ : Served s.history yf'.last.stop applying) :
    Inv { s with follower := f, applying := applying } yl yf' where
  leader := h.leader
  suffix := h.suffix
  chained := h.chained
  follower := hf
  start := hstart
  isPrefix := hpre
  requests := fun o ho => (h.requests o ho).trans hle
  responses := fun r hr => by
    obtain ⟨bs, hbs, hserved⟩ := h.responses r hr
    exact ⟨bs, hbs, hserved.mono hle⟩
  applying := happ
  failures := h.failures

/-! ### One action of the leader -/

theorem append {now : ℤ} {batch : Bytes} (hw : Record.WellFormed batch) (hs : s.leader.Sized)
    (hs' : (s.append now batch).leader.Sized) : ∃ yl', Inv (s.append now batch) yl' yf := by
  have hsmall := h.leader.sized_iff.mp hs yl.last (by simp [Layout.parts])
  have hleader : (s.append now batch).leader = (s.leader.append now batch).1 := by
    unfold System.append
    rcases s.leader.append now batch with ⟨l, o⟩
    cases o <;> rfl
  rw [hleader] at hs'
  have hf := h.leader.fits_of_sized hw hs hs'
  obtain ⟨hok, hH⟩ := h.leader.append now hw hsmall hf
  have hstep : s.append now batch = { s with
      leader := (s.leader.append now batch).1
      history := s.history ++ [stamp yl.last.stop batch] } := by
    unfold System.append
    rcases hr : s.leader.append now batch with ⟨l, o⟩
    rw [hr] at hok
    subst hok
    rfl
  have hbase := yl.stamp_baseOffset hw
  have hcount := yl.stamp_recordCount hw
  rw [hstep]
  refine ⟨_, hH, ?_, ?_, h.follower, h.start, h.isPrefix.trans (List.prefix_append _ _), h.requests,
    fun r hr => ?_, h.applying.extend (List.prefix_append _ _), h.failures⟩
  · rw [yl.produce_batches hw]
    obtain ⟨t, ht⟩ := h.suffix
    exact ⟨t, by simp only; rw [← List.append_assoc, ht]⟩
  · rw [yl.produce_stop hw]
    exact chained_append.mpr ⟨_, h.chained, wellFormed_stamp hw _, hbase, by rw [hcount]; rfl⟩
  · obtain ⟨bs, hbs, hserved⟩ := h.responses r hr
    exact ⟨bs, hbs, hserved.extend (List.prefix_append _ _)⟩

theorem enforceRetention (now maxAgeMs maxBytes : ℤ) :
    Inv { s with leader := s.leader.enforceRetention now maxAgeMs maxBytes }
      (yl.enforceRetention now maxAgeMs maxBytes) yf where
  leader := h.leader.enforceRetention now maxAgeMs maxBytes
  suffix := (yl.dropClosed_batches _).trans h.suffix
  chained := h.chained
  follower := h.follower
  start := h.start
  isPrefix := h.isPrefix
  requests := h.requests
  responses := h.responses
  applying := h.applying
  failures := h.failures

/-- What the leader reads for a request is a served list of batches. -/
theorem read_served (hspans : s.leader.Spans) {o : ℤ} (ho : o ≤ yf.last.stop) (maxBytes : ℤ) :
    (∃ data, s.leader.read o maxBytes = .ok (data, some .offsetOutOfRange)) ∨
      ∃ bs, s.leader.read o maxBytes = .ok (bs.flatten, none) ∧
        Served s.history yf.last.stop bs := by
  by_cases hend : o = s.leader.nextOffset
  · refine Or.inr ⟨[], by rw [Log.read, if_pos hend]; rfl, served_nil yf.stop_nonneg⟩
  by_cases hout : s.leader.nextOffset < o ∨ o < s.leader.earliestOffset
  · exact Or.inl ⟨[], by rw [Log.read, if_neg hend, if_pos hout]⟩
  rw [h.leader.earliestOffset, h.leader.next] at hout
  rw [h.leader.next] at hend
  obtain ⟨pre, p, post, bpre, b, bpost, hp, hbs, hb₀, hb₁⟩ :=
    yl.exists_covers (o := o) (by omega) (by omega)
  obtain ⟨hsmall, hspan⟩ := h.leader.spans_iff.mp hspans p (by rw [hp]; simp)
  obtain ⟨rest, hrest⟩ := greedy_isPrefix maxBytes b.length bpost
  obtain ⟨t, ht⟩ := h.suffix
  refine Or.inr ⟨b :: greedy maxBytes b.length bpost, ?_,
    t ++ (pre.flatMap Part.batches ++ bpre), rest ++ post.flatMap Part.batches, ?_, ?_⟩
  · rw [h.leader.read hp hsmall hspan hbs hb₀ hb₁]; rfl
  · have hall : yl.batches
        = pre.flatMap Part.batches ++ (bpre ++ b :: (greedy maxBytes b.length bpost ++ rest))
          ++ post.flatMap Part.batches := by
      rw [hrest, Layout.batches, hp]; simp [hbs]
    rw [← ht, hall]; simp
  · -- the batch starts where the batches before it end
    have hch := h.chained
    have hall : s.history = t ++ (pre.flatMap Part.batches ++ bpre)
        ++ (b :: (bpost ++ post.flatMap Part.batches)) := by
      rw [← ht, Layout.batches, hp]; simp [hbs]
    rw [hall] at hch
    obtain ⟨x, hx, -, hbase, -⟩ := chained_append.mp hch
    have := hx.stop_eq
    omega

theorem serve (hspans : s.leader.Spans) (i : ℕ) (maxBytes : ℤ) :
    Inv (s.serve i maxBytes) yl yf := by
  unfold System.serve
  cases hi : s.requests[i]? with
  | none => exact h
  | some o =>
    have ho := h.requests o (List.mem_of_getElem? hi)
    rcases h.read_served hspans ho maxBytes with ⟨data, hread⟩ | ⟨bs, hread, hserved⟩
    · simp only [hread]; exact h
    · simp only [hread]
      refine ⟨h.leader, h.suffix, h.chained, h.follower, h.start, h.isPrefix, h.requests,
        fun r hr => ?_, h.applying, h.failures⟩
      rcases List.mem_append.mp hr with hr | hr
      · exact h.responses r hr
      · exact ⟨bs, List.mem_singleton.mp hr, hserved⟩

/-! ### One action of the follower -/

theorem applyNext (hsmall : yf.last.bytes.length < 2147483648) (now : ℤ) :
    ∃ yf', Inv (s.applyNext now) yl yf' := by
  unfold System.applyNext
  have happ := h.applying
  cases hq : s.applying with
  | nil => exact ⟨yf, h⟩
  | cons b rest =>
    rw [hq] at happ
    have hmem : b ∈ s.history := by
      obtain ⟨pre, post, heq, -⟩ := happ
      rw [heq]; simp
    have hw := h.chained.wellFormed b hmem
    rcases Served.next h.chained h.isPrefix h.stop_eq happ with
      ⟨hlt, hserved⟩ | ⟨hbase, hpre, hserved⟩
    · have hdup := Log.Holds.appendReplica_of_lt hw.1 now (l := s.follower)
        (by rw [h.follower.next]; exact hlt)
      simp only [applyBatch, hdup]
      exact ⟨yf, h.setFollower h.follower h.start h.isPrefix le_rfl hserved⟩
    · have hfit : yf.last.stop + (header b).recordCount < 9223372036854775808 := by
        obtain ⟨t, ht⟩ := hpre
        have hch := h.chained
        rw [← ht] at hch
        obtain ⟨x, hx, hrest⟩ := chained_append.mp hch
        have h₁ := hx.stop_eq
        have h₂ := hrest.le
        have h₃ := yl.last.fits
        rw [offsetCount_append, offsetCount_cons, offsetCount_nil, ← h.stop_eq] at h₁
        omega
      obtain ⟨hok, hH⟩ := h.follower.appendReplica now hw hbase hfit hsmall
      have hle : yf.last.stop ≤ yf.last.stop + (header b).recordCount := by
        have := hw.2.2; omega
      rcases hr : s.follower.appendReplica now b with ⟨f, o⟩
      rw [hr] at hok hH
      simp only at hok hH
      subst hok
      simp only [applyBatch, hr]
      refine ⟨_, h.setFollower hH ?_ ?_ ?_ ?_⟩
      · rw [Layout.append_start, h.start]
      · rw [Layout.append_batches]; exact hpre
      · rw [Layout.append_stop]; exact hle
      · rw [Layout.append_stop]; exact hserved

theorem reopen (hsmall : yf.last.bytes.length < 2147483648) (now : ℤ) :
    ∃ yf', Inv (s.reopen now) yl yf' := by
  obtain ⟨r, y', hr, -, -, -, hH, hbatches, hstart, hstop, -⟩ := open_dir h.follower hsmall now
  unfold System.reopen
  simp only [hr]
  refine ⟨y', h.setFollower hH (by rw [hstart, h.start]) (by rw [hbatches]; exact h.isPrefix)
    (le_of_eq hstop.symm) (served_nil y'.stop_nonneg)⟩

/-- **The step lemma.** -/
theorem step {a : Action} (hw : a.WellFormed) (hb : s.Bounded) (hb' : (s.step a).Bounded) :
    ∃ yl' yf', Inv (s.step a) yl' yf' := by
  have hsmall : yf.last.bytes.length < 2147483648 := by
    have hmem : yf.last.bytes ∈ s.follower.segments.map (·.logFile) := by
      rw [h.follower.logFiles]; exact List.mem_map_of_mem (by simp [Layout.parts])
    obtain ⟨f, hf, hfile⟩ := List.mem_map.mp hmem
    rw [← hfile]
    exact hb.2 f hf
  cases a with
  | append now batch =>
    obtain ⟨yl', h'⟩ := h.append hw hb.1.sized hb'.1.sized
    exact ⟨yl', yf, h'⟩
  | enforceRetention now maxAgeMs maxBytes => exact ⟨_, yf, h.enforceRetention now maxAgeMs maxBytes⟩
  | request =>
    refine ⟨yl, yf, h.leader, h.suffix, h.chained, h.follower, h.start, h.isPrefix,
      fun o ho => ?_, h.responses, h.applying, h.failures⟩
    rcases List.mem_append.mp ho with ho | ho
    · exact h.requests o ho
    · rw [List.mem_singleton.mp ho, Log.latestOffset, h.follower.next]
  | serve i maxBytes => exact ⟨yl, yf, h.serve hb.1 i maxBytes⟩
  | receive i =>
    simp only [System.step]
    cases hi : s.responses[i]? with
    | none => exact ⟨yl, yf, h⟩
    | some records =>
      obtain ⟨bs, rfl, hserved⟩ := h.responses records (List.mem_of_getElem? hi)
      have hsplit : split bs.flatten = bs := by
        refine split_flatten fun b hb => h.chained.framed b ?_
        obtain ⟨pre, post, heq, -⟩ := hserved
        rw [heq]; simp [hb]
      simp only [hsplit]
      exact ⟨yl, yf, h.setFollower h.follower h.start h.isPrefix le_rfl hserved⟩
  | applyNext now =>
    obtain ⟨yf', h'⟩ := h.applyNext hsmall now
    exact ⟨yl, yf', h'⟩
  | setHighWatermark hwm =>
    exact ⟨yl, yf, h.setFollower (h.follower.setHighWatermark hwm) h.start h.isPrefix le_rfl h.applying⟩
  | disconnect =>
    exact ⟨yl, yf, h.setFollower h.follower h.start h.isPrefix le_rfl (served_nil yf.stop_nonneg)⟩
  | reopen now =>
    obtain ⟨yf', h'⟩ := h.reopen hsmall now
    exact ⟨yl, yf', h'⟩

end Inv

/-! ### Whole runs -/

/-- The follower's log is a prefix of what the leader appended, and
`AppendReplica` has never seen a gap. -/
def System.Prefixed (s : System) : Prop :=
  s.follower.batches <+: s.history ∧
    ∀ base logEnd, Failure.error (.replicaGap base logEnd) ∉ s.failures

/-- **The follower's log is a prefix of the leader's history**, in every state of
every run in which the leader's segments stay below `2 ^ 31` bytes and offsets and
the follower's below `2 ^ 31` bytes. -/
theorem follower_is_prefix {cfg cfg' : Config} {now now' : ℤ} {l f : Log}
    (hl : Log.open cfg now [] = .ok l) (hf : Log.open cfg' now' [] = .ok f) {as : List Action}
    (hw : ∀ a ∈ as, a.WellFormed) (hb : Always System.step System.Bounded (.init l f) as) :
    Always System.step System.Prefixed (.init l f) as := by
  have hinv : Always System.step (fun s => ∃ yl yf, Inv s yl yf) (.init l f) as := by
    refine ((along_of_forall hw).and hb.along).always ?_ ?_
    · exact ⟨Layout.empty now, Layout.empty now', (Log.Holds.of_open_nil hl).2, List.nil_suffix, rfl,
        (Log.Holds.of_open_nil hf).2, rfl, List.nil_prefix, by simp [System.init],
        by simp [System.init], served_nil le_rfl, rfl⟩
    · rintro s a ⟨yl, yf, h⟩ ⟨hw, hb, hb'⟩
      exact h.step hw hb hb'
  refine hinv.mono fun s hs => ?_
  obtain ⟨yl, yf, h⟩ := hs
  refine ⟨by rw [h.follower.batches]; exact h.isPrefix, fun base logEnd => ?_⟩
  rw [h.failures]; simp

/-- Two fetch rounds with a retention pass, a repeated response and a reopening of
the follower between them. -/
def sampleRun : List Action :=
  [.append 1 (makeBatch 2 []), .request, .serve 0 100, .receive 0, .applyNext 2,
    .append 3 (makeBatch 1 [5]), .enforceRetention 4 0 500, .reopen 5, .request, .receive 0,
    .applyNext 6, .serve 1 100, .receive 1, .applyNext 7, .setHighWatermark 3, .disconnect]

theorem follower_is_prefix_sample :
    (run System.step (.init (Log.create ⟨100, 0⟩ 0) (Log.create ⟨1000, 0⟩ 0))
      sampleRun).follower.batches = history [.append 1 (makeBatch 2 []), .append 3 (makeBatch 1 [5])] ∧
    Always System.step System.Prefixed
      (.init (Log.create ⟨100, 0⟩ 0) (Log.create ⟨1000, 0⟩ 0)) sampleRun := by
  refine ⟨by decide +kernel, follower_is_prefix (open_nil ⟨100, 0⟩ 0) (open_nil ⟨1000, 0⟩ 0) ?_ ?_⟩
  · decide +kernel
  · decide +kernel

/-- Three batches of `2 ^ 31 - 1` records in one segment, fetched one by one. -/
def gapRun : List Action :=
  [.append 1 (makeBatch 2147483647 []), .append 2 (makeBatch 2147483647 []),
    .append 3 (makeBatch 2147483647 []), .request, .serve 0 1, .receive 0, .applyNext 4,
    .request, .serve 1 1, .receive 1, .applyNext 5]

/-- **Where replication fails.**  The offset of the third batch, relative to the
segment, does not fit in 32 bits and its index entry has a negative one.  The
index search for the second batch then ends at the third, so the leader skips one
and the follower sees a gap. -/
theorem follower_gap :
    (∀ a ∈ gapRun, a.WellFormed) ∧
      Failure.error (.replicaGap 4294967294 2147483647) ∈
        (run System.step (.init (Log.create ⟨67108864, 0⟩ 0) (Log.create ⟨67108864, 0⟩ 0))
          gapRun).failures := by
  decide +kernel

end Replication
end Mq
