import Mq.Storage.Mutation

/-!
# Appending does not touch what is stored

The bytes of the segment files under every call that changes a log, for batches
with arbitrary headers.  The record count of a batch decides where the next one goes,
and a roll creates its file with truncation, so that what is stored is safe only as
long as the log end moves up.

## Main definitions

* `Placed`, `Placed.Stored` — a batch at the place in a segment file where it was
  written.
* `Tracked` — a log together with the batches that it accepted and retention has not
  removed.
* `Log.Distinct` — no two segments share a file, and the next roll gets a file of its
  own.

## Main results

* `Log.Distinct.mutate` — **a call keeps the files apart** and only extends them, as
  long as the batches it is given move the log end up.
* `append_only` — along every such run the log end moves up with every append, the high
  watermark follows, and every accepted batch stays where it was written.
* `truncated_by_roll` — a batch of no records is overwritten by the next roll.
-/

namespace Mq
namespace Storage

open Word Record Transition

/-! ### Accepted batches -/

/-- A batch that was written at `position` of the segment file named by `segment`. -/
structure Placed where
  segment : ℤ
  position : ℕ
  bytes : Bytes
  deriving DecidableEq, Repr

/-- The batch is in the file, byte for byte, where it was written. -/
def Placed.Stored (x : Placed) (l : Log) : Prop :=
  ∃ s ∈ l.segments, s.baseOffset = x.segment ∧ slice s.logFile x.position x.bytes.length = x.bytes

instance (x : Placed) (l : Log) : Decidable (x.Stored l) :=
  inferInstanceAs (Decidable (∃ s ∈ l.segments, _ ∧ _))

/-- Where the active segment writes next. -/
def Log.place (l : Log) (b : Bytes) : Placed :=
  ⟨l.active.baseOffset, l.active.logSize.toNat, b⟩

/-- The batch that a call accepts, at the place it is written to. -/
def Log.accepts (l : Log) : Mutation → Option Placed
  | .append now batch =>
    match (l.append now batch).2 with
    | .error _ => none
    | .ok base => some ((l.rollFor now base batch.length).place (stamp base batch))
  | .appendReplica now batch =>
    match (l.appendReplica now batch).2 with
    | .error _ => none
    | .ok _ =>
      -- a batch below the log end is acknowledged and not written
      if (header batch).baseOffset < l.nextOffset then none
      else some ((l.rollFor now (header batch).baseOffset batch.length).place batch)
  | _ => none

/-- **A batch that an append has accepted is in its file** when the call returns, whatever the
log was before. -/
theorem Log.stored_append {l : Log} {now : ℤ} {batch : Bytes} {off : ℤ}
    (h : (l.append now batch).2 = .ok off) :
    ((l.rollFor now off batch.length).place (stamp off batch)).Stored (l.append now batch).1 := by
  rcases append_cases l now batch with
    ⟨-, hl⟩ | ⟨-, -, e, hl⟩ | ⟨s, e, -, -, hl⟩ | ⟨s, -, hs, hl⟩ <;> rw [hl] at h ⊢
  · cases h
  · cases h
  · cases h
  · cases h
    exact ⟨s, List.mem_append_right _ List.mem_cons_self, segment_append_base hs,
      segment_append_written hs⟩

/-- A log and the batches that it has accepted, without those whose file retention has
deleted. -/
structure Tracked where
  log : Log
  placed : List Placed
  deriving DecidableEq, Repr

def Tracked.step (t : Tracked) (m : Mutation) : Tracked where
  log := t.log.mutate m
  placed := match m with
    | .enforceRetention .. =>
      t.placed.filter fun x => x.segment ∈ (t.log.mutate m).segments.map (·.baseOffset)
    | _ => t.placed ++ (t.log.accepts m).toList

/-! ### Segments with files of their own -/

/-- The base offsets go up, and the size of the active segment is that of its file, or has
become negative, where nothing can be written any more. -/
structure Log.Distinct (l : Log) : Prop where
  rising : l.Rising
  size : 0 ≤ l.active.logSize → l.active.logSize = l.active.logFile.length
  size_lt : l.active.logSize < 2147483648

/-- Every segment file of `l` is still there, and begins with what it held. -/
def Log.Extends (l l' : Log) : Prop :=
  ∀ s ∈ l.segments, ∃ s' ∈ l'.segments, s'.baseOffset = s.baseOffset ∧ s.logFile <+: s'.logFile

theorem Log.Extends.refl (l : Log) : l.Extends l := fun s hs => ⟨s, hs, rfl, List.prefix_rfl⟩

theorem Log.Extends.trans {l l' l'' : Log} (h : l.Extends l') (h' : l'.Extends l'') :
    l.Extends l'' := by
  intro s hs
  obtain ⟨s', hs', hbase, hfile⟩ := h s hs
  obtain ⟨s'', hs'', hbase', hfile'⟩ := h' s' hs'
  exact ⟨s'', hs'', hbase'.trans hbase, hfile.trans hfile'⟩

theorem slice_of_isPrefix {f g : Bytes} (h : f <+: g) {pos : ℕ} {b : Bytes}
    (hb : slice f pos b.length = b) : slice g pos b.length = b := by
  obtain ⟨t, rfl⟩ := h
  rcases Nat.lt_or_ge f.length (pos + b.length) with hlt | hle
  · -- the field is cut off by the end of the file, so it is empty
    have hlen := congrArg List.length hb
    simp only [slice, List.length_take, List.length_drop] at hlen
    have hnil : b = [] := List.length_eq_zero_iff.mp (by omega)
    subst hnil
    simp [slice]
  · rw [slice_append_left hle, hb]

/-- What is stored stays stored in files that are only extended. -/
theorem Placed.Stored.mono {x : Placed} {l l' : Log} (h : x.Stored l) (hext : l.Extends l') :
    x.Stored l' := by
  obtain ⟨s, hs, hbase, hbytes⟩ := h
  obtain ⟨s', hs', hbase', hfile⟩ := hext s hs
  exact ⟨s', hs', hbase'.trans hbase, slice_of_isPrefix hfile hbytes⟩

namespace Log.Distinct

variable {l : Log} (h : l.Distinct)
include h

/-- A roll opens a file that no segment has. -/
theorem rollFor (now : ℤ) (n : ℕ) :
    (l.rollFor now l.nextOffset n).Distinct ∧ l.Extends (l.rollFor now l.nextOffset n) := by
  have hrising := (h.rising.rollFor now n).1
  unfold Log.rollFor at hrising ⊢
  split
  · next hroll =>
    rw [if_pos hroll] at hrising
    rw [Log.needsRoll, Bool.and_eq_true] at hroll
    have hsealed := h.rising.sealed_roll (of_decide_eq_true hroll.1) now
    refine ⟨⟨hrising, fun _ => rfl, ?_⟩, fun s hs => ?_⟩
    · change (0 : ℤ) < 2147483648
      decide
    · exact ⟨s, by rw [Log.segments, hsealed]; exact List.mem_append_left _ hs, rfl,
        List.prefix_rfl⟩
  · exact ⟨h, Log.Extends.refl l⟩

/-- Writing to the active segment leaves the other files alone. -/
theorem setActive {s : Segment} (hbase : s.baseOffset = l.active.baseOffset)
    (hfile : l.active.logFile <+: s.logFile) :
    (l.setActive s).segments = l.sealed ++ [s] ∧ l.Extends (l.setActive s) := by
  have hsealed : l.sealed.map (Log.shareFiles s) = l.sealed :=
    map_shareFiles fun t ht => by rw [hbase]; exact (h.rising.sealed_lt t ht).ne
  have hsegments : (l.setActive s).segments = l.sealed ++ [s] := by
    rw [Log.segments, Log.setActive, hsealed]
  refine ⟨hsegments, fun t ht => ?_⟩
  rw [hsegments]
  rcases List.mem_append.mp ht with ht | ht
  · exact ⟨t, List.mem_append_left _ ht, rfl, List.prefix_rfl⟩
  · rw [List.mem_singleton.mp ht]
    exact ⟨s, List.mem_append_right _ List.mem_cons_self, hbase, hfile⟩

/-- What a write that succeeds does to the active file: the batch is at its end. -/
theorem write {s : Segment} {b : Bytes} (hbase : s.baseOffset = l.active.baseOffset)
    (hpos : 0 ≤ l.active.logSize) (hfile : s.logFile = l.active.logFile ++ b)
    (hsize : s.logSize = wrap32 (l.active.logSize + wrap32 b.length)) (hb : b.length < 2147483648) :
    (0 ≤ s.logSize → s.logSize = s.logFile.length) ∧ s.logSize < 2147483648 ∧
      l.Extends (l.setActive s) ∧ (l.place b).Stored (l.setActive s) := by
  obtain ⟨hsegments, hext⟩ := h.setActive hbase (hfile ▸ List.prefix_append _ _)
  have hlen := h.size hpos
  have hwrap := wrap32_bounds (l.active.logSize + wrap32 b.length)
  refine ⟨?_, by omega, hext, s, ?_, hbase, ?_⟩
  · intro hpos'
    have hbound := h.size_lt
    rw [hfile, List.length_append]
    rw [hsize] at hpos' ⊢
    unfold wrap32 at hpos' ⊢
    omega
  · rw [hsegments]
    exact List.mem_append_right _ List.mem_cons_self
  · have hplace : (l.place b).position = l.active.logFile.length := by
      change l.active.logSize.toNat = _
      omega
    change slice s.logFile (l.place b).position b.length = b
    rw [hplace, hfile, slice, List.drop_left, List.take_length]

end Log.Distinct

/-! ### What a call keeps -/

/-- What a call has done: the files are kept apart and only extended, and a batch may have
been written. -/
structure Log.Kept (l l' : Log) (x : Option Placed) : Prop where
  distinct : l'.Distinct
  grown : l.Extends l'
  stored : ∀ y ∈ x, y.Stored l'

/-- The batch of the call is shorter than 2 GiB. -/
def Mutation.Short : Mutation → Prop
  | .append _ batch | .appendReplica _ batch => batch.length < 2147483648
  | _ => True

instance : DecidablePred Mutation.Short
  | .append _ _ | .appendReplica _ _ => inferInstanceAs (Decidable (_ < _))
  | .setHighWatermark _ | .holdHighWatermark | .flush | .enforceRetention _ _ _ =>
    inferInstanceAs (Decidable True)

/-- The batch of the call is short, and it moves the log end up, within 64 bits. -/
def Log.Admits (l : Log) (m : Mutation) : Prop := m.Short ∧ l.Advances m

instance (l : Log) (m : Mutation) : Decidable (l.Admits m) :=
  inferInstanceAs (Decidable (_ ∧ _))

namespace Log.Distinct

variable {l : Log} (h : l.Distinct)
include h

theorem kept_self : l.Kept l none :=
  ⟨h, Log.Extends.refl l, by simp⟩

/-- A write that fails changes no file. -/
theorem write_error {now baseOffset : ℤ} {n : ℕ} {s : Segment} {b : Bytes} {e : Err}
    (hs : (l.rollFor now l.nextOffset n).active.append now b baseOffset = (s, some e)) :
    l.Kept ((l.rollFor now l.nextOffset n).setActive s) none := by
  obtain ⟨hroll, hgrown⟩ := h.rollFor now n
  obtain ⟨hbase, hfile, hsize⟩ := segment_append_error hs
  obtain ⟨-, hext⟩ := hroll.setActive hbase (hfile ▸ List.prefix_rfl)
  refine ⟨⟨(h.rising.steps_write_error hs).rising, ?_, hsize ▸ hroll.size_lt⟩, hgrown.trans hext,
    by simp⟩
  intro hpos
  change s.logSize = s.logFile.length
  rw [hsize, hfile]
  exact hroll.size (hsize ▸ hpos)

/-- A write that succeeds. -/
theorem write_ok {now baseOffset : ℤ} {s : Segment} {b : Bytes} (hb : b.length < 2147483648)
    (hs : (l.rollFor now l.nextOffset b.length).active.append now b baseOffset = (s, none))
    {l' : Log} (hrising : l'.Rising)
    (hsegments : l'.segments = ((l.rollFor now l.nextOffset b.length).setActive s).segments)
    (hactive : l'.active = s) :
    l.Kept l' (some ((l.rollFor now l.nextOffset b.length).place b)) := by
  obtain ⟨hroll, hgrown⟩ := h.rollFor now b.length
  obtain ⟨hbase, hpos, hfile, hsize⟩ := segment_append_ok hroll.size hs
  obtain ⟨hlen, hlt, hext, hstored⟩ := hroll.write hbase hpos hfile hsize hb
  refine ⟨⟨hrising, hactive ▸ hlen, hactive ▸ hlt⟩, hgrown.trans ?_, ?_⟩
  · intro t ht
    rw [hsegments]
    exact hext t ht
  · intro y hy
    rw [← Option.mem_some.mp hy, Placed.Stored, hsegments]
    exact hstored

/-- **An append** fails, or writes the stamped batch at the end of the active segment. -/
theorem append {now : ℤ} {batch : Bytes} (hadm : l.Admits (.append now batch)) :
    l.Kept (l.append now batch).1 (l.accepts (.append now batch)) := by
  have hrising : (l.append now batch).1.Rising := by
    rcases h.rising.append hadm.2 with ⟨e, -, hsteps⟩ | ⟨-, hsteps⟩ <;> exact hsteps.rising
  obtain ⟨hroll, hgrown⟩ := h.rollFor now batch.length
  rcases append_cases l now batch with
    ⟨-, hl⟩ | ⟨-, -, e, hl⟩ | ⟨s, e, -, hs, hl⟩ | ⟨s, hparses, hs, hl⟩ <;> rw [Log.accepts, hl]
  · exact h.kept_self
  · exact ⟨hroll, hgrown, by simp⟩
  · exact h.write_error hs
  · have hstamp := length_stamp hparses.1 l.nextOffset
    rw [hl] at hrising
    dsimp only
    rw [← hstamp] at hs hrising ⊢
    exact h.write_ok (by rw [hstamp]; exact hadm.1) hs hrising rfl rfl

/-- **A replica's append** changes nothing but the index, or writes the batch as it is. -/
theorem appendReplica {now : ℤ} {batch : Bytes} (hadm : l.Admits (.appendReplica now batch)) :
    l.Kept (l.appendReplica now batch).1 (l.accepts (.appendReplica now batch)) := by
  have hrising : (l.appendReplica now batch).1.Rising := by
    rcases h.rising.appendReplica hadm.2 with hsteps | hsteps <;> exact hsteps.rising
  rcases appendReplica_cases l now batch with
    ⟨e, hl, -⟩ | ⟨-, hlt, hl⟩ | ⟨-, hbase, s, ⟨e, hs, hl⟩ | ⟨hs, hl⟩⟩ <;> rw [Log.accepts, hl]
  · exact h.kept_self
  · simp only [if_pos hlt]
    exact h.kept_self
  · exact h.write_error hs
  · rw [hl] at hrising
    simp only [hbase, lt_irrefl, if_false]
    exact h.write_ok hadm.1 hs hrising rfl rfl

/-- Dropping the oldest segments keeps the rest apart. -/
theorem of_eq {l' : Log} (hactive : l'.active = l.active)
    (hsealed : ∃ n, l'.sealed = l.sealed.drop n) (hnext : l'.nextOffset = l.nextOffset) :
    l'.Distinct :=
  ⟨h.rising.of_drop hactive hsealed hnext, hactive ▸ h.size, hactive ▸ h.size_lt⟩

/-- A call that changes only the mode or the high watermark. -/
theorem kept_hwm (hwm : ℤ) (hold dirty : Bool) :
    l.Kept { l with highWatermark := hwm, holdHWM := hold, dirty := dirty } none :=
  ⟨h.of_eq rfl ⟨0, rfl⟩ rfl, fun s hs => ⟨s, hs, rfl, List.prefix_rfl⟩, by simp⟩

theorem setHighWatermark (hwm : ℤ) : l.Kept (l.setHighWatermark hwm) none := by
  unfold Log.setHighWatermark
  dsimp only
  generalize (if l.nextOffset < hwm then l.nextOffset else hwm) = w
  split
  · exact h.kept_hwm w l.holdHWM l.dirty
  · exact h.kept_self

/-- **A call** other than retention only extends the files. -/
theorem mutate {m : Mutation} (hadm : l.Admits m)
    (hm : ∀ now maxAgeMs maxBytes, m ≠ .enforceRetention now maxAgeMs maxBytes) :
    l.Kept (l.mutate m) (l.accepts m) := by
  cases m with
  | append now batch => exact h.append hadm
  | appendReplica now batch => exact h.appendReplica hadm
  | setHighWatermark hwm => exact h.setHighWatermark hwm
  | holdHighWatermark => exact h.kept_hwm l.highWatermark true l.dirty
  | flush => exact h.kept_hwm l.highWatermark l.holdHWM false
  | enforceRetention now maxAgeMs maxBytes => exact absurd rfl (hm now maxAgeMs maxBytes)

end Log.Distinct

/-! ### Runs -/

/-- The invariant of a run: distinct files, a high watermark within the log, and every
batch where it was written. -/
structure Tracked.Inv (t : Tracked) : Prop where
  distinct : t.log.Distinct
  hwm_le : t.log.highWatermark ≤ t.log.nextOffset
  stored : ∀ x ∈ t.placed, x.Stored t.log

theorem distinct_create (cfg : Config) (now : ℤ) : (Log.create cfg now).Distinct := by
  refine ⟨rising_create cfg now, fun _ => rfl, ?_⟩
  change (0 : ℤ) < 2147483648
  decide

/-- Retention deletes whole files; a batch whose file is left is still in it. -/
theorem Tracked.Inv.enforceRetention {t : Tracked} (h : t.Inv) (now maxAgeMs maxBytes : ℤ) :
    (t.step (.enforceRetention now maxAgeMs maxBytes)).Inv := by
  have hdrop : ∃ n, (t.log.enforceRetention now maxAgeMs maxBytes).sealed = t.log.sealed.drop n :=
    ⟨_, retentionLoop_eq_dropCount _ _ _ _ _⟩
  refine ⟨h.distinct.of_eq rfl hdrop rfl, h.hwm_le, fun x hx => ?_⟩
  obtain ⟨hx, hleft⟩ := List.mem_filter.mp hx
  obtain ⟨s', hs', hbase'⟩ := List.mem_map.mp (of_decide_eq_true hleft)
  obtain ⟨s, hs, hbase, hbytes⟩ := h.stored x hx
  have hmem : s' ∈ t.log.segments := by
    obtain ⟨n, hn⟩ := hdrop
    rcases List.mem_append.mp hs' with hs' | hs'
    · change s' ∈ (t.log.enforceRetention now maxAgeMs maxBytes).sealed at hs'
      rw [hn] at hs'
      exact List.mem_append_left _ (List.mem_of_mem_drop hs')
    · exact List.mem_append_right _ hs'
  -- the file is that of one segment only
  have hnodup : (t.log.segments.map (·.baseOffset)).Nodup :=
    h.distinct.rising.pairwise.imp fun hlt => hlt.ne
  have hsame : s = s' := List.inj_on_of_nodup_map hnodup hs hmem (hbase.trans hbase'.symm)
  exact ⟨s', hs', hbase', hsame ▸ hbytes⟩

/-- An append that is accepted moves the log end up, and the high watermark neither back
nor past it. -/
def Tracked.Grows (t : Tracked) (m : Mutation) : Prop :=
  ∀ now batch base, m = .append now batch → (t.log.append now batch).2 = .ok base →
    t.log.nextOffset < (t.step m).log.nextOffset ∧
      t.log.highWatermark ≤ (t.step m).log.highWatermark ∧
      (t.step m).log.highWatermark ≤ (t.step m).log.nextOffset

/-- **One call** keeps the invariant. -/
theorem Tracked.Inv.step {t : Tracked} (h : t.Inv) {m : Mutation} (hadm : t.log.Admits m) :
    (t.step m).Inv ∧ t.Grows m := by
  by_cases hm : ∃ now maxAgeMs maxBytes, m = .enforceRetention now maxAgeMs maxBytes
  · obtain ⟨now, maxAgeMs, maxBytes, rfl⟩ := hm
    exact ⟨h.enforceRetention now maxAgeMs maxBytes, fun _ _ _ hm => by cases hm⟩
  push Not at hm
  have hkept := h.distinct.mutate hadm hm
  obtain ⟨next, hwm, hsteps, hnext, hhwm, hle, hup⟩ :=
    h.distinct.rising.mutate h.hwm_le hadm.2 hm
  have hplaced : (t.step m).placed = t.placed ++ (t.log.accepts m).toList := by
    cases m with
    | enforceRetention now maxAgeMs maxBytes => exact absurd rfl (hm now maxAgeMs maxBytes)
    | _ => rfl
  constructor
  · refine ⟨hkept.distinct, ?_, fun x hx => ?_⟩
    · change (t.log.mutate m).highWatermark ≤ (t.log.mutate m).nextOffset
      rw [hsteps.next, hsteps.hwm]
      exact hle
    · rw [hplaced] at hx
      rcases List.mem_append.mp hx with hx | hx
      · exact (h.stored x hx).mono hkept.grown
      · exact hkept.stored x (by simpa using hx)
  · intro now batch base hm hok
    change t.log.nextOffset < (t.log.mutate m).nextOffset ∧
      t.log.highWatermark ≤ (t.log.mutate m).highWatermark ∧
      (t.log.mutate m).highWatermark ≤ (t.log.mutate m).nextOffset
    rw [hsteps.next, hsteps.hwm]
    exact ⟨hup now batch base hm hok, hhwm, hle⟩

/-- **Appending is append-only.**  In every run of calls that are given batches which move
the log end up, an accepted append moves the log end up and the high watermark not back,
and in every state each accepted batch that retention has not removed is stored, byte for
byte, where it was written. -/
theorem append_only {cfg : Config} {now : ℤ} {l₀ : Log} {ms : List Mutation}
    (hopen : Log.open cfg now [] = .ok l₀)
    (hadm : Along Tracked.step (fun t m => t.log.Admits m) ⟨l₀, []⟩ ms) :
    Along Tracked.step Tracked.Grows ⟨l₀, []⟩ ms ∧
      Always Tracked.step (fun t => ∀ x ∈ t.placed, x.Stored t.log) ⟨l₀, []⟩ ms := by
  rw [open_nil] at hopen
  obtain rfl := Except.ok.inj hopen
  have hinv : Tracked.Inv ⟨Log.create cfg now, []⟩ :=
    ⟨distinct_create cfg now, le_rfl, by simp⟩
  have halways : Always Tracked.step Tracked.Inv ⟨Log.create cfg now, []⟩ ms :=
    hadm.always hinv fun t m ht hm => (ht.step hm).1
  refine ⟨?_, halways.mono fun t ht => ht.stored⟩
  exact (halways.along.and hadm).mono fun t m ht => (ht.1.1.step ht.2).2

/-- Three batches, the second of which is rolled into a segment of its own. -/
theorem append_only_rolled :
    ∃ l₀, Log.open ⟨100, 4096⟩ 0 [] = .ok l₀ ∧
      Always Tracked.step (fun t => ∀ x ∈ t.placed, x.Stored t.log) ⟨l₀, []⟩
        [.append 1 (makeBatch 2 []), .append 2 (makeBatch 1 [7]), .setHighWatermark 9,
          .appendReplica 3 (makeBatch 1 [])] :=
  ⟨_, open_nil _ _, (append_only (open_nil _ _) (by decide +kernel)).2⟩

/-! ### A batch of no records -/

/-- A batch of no records is accepted and the log end stays where it is, so the next roll
opens, and truncates, the file that the batch is in. -/
theorem truncated_by_roll :
    ∃ l₀, Log.open ⟨100, 4096⟩ 0 [] = .ok l₀ ∧
      Framed (makeBatch 0 []) ∧ Framed (makeBatch 1 []) ∧
      let t₁ := Tracked.step ⟨l₀, []⟩ (.append 1 (makeBatch 0 []))
      let t₂ := t₁.step (.append 2 (makeBatch 1 []))
      (l₀.append 1 (makeBatch 0 [])).2 = .ok 0 ∧ (t₁.log.append 2 (makeBatch 1 [])).2 = .ok 0 ∧
        t₁.log.latestOffset = l₀.latestOffset ∧
        (∀ x ∈ t₁.placed, x.Stored t₁.log) ∧ ¬ ∀ x ∈ t₁.placed, x.Stored t₂.log :=
  ⟨_, open_nil _ _, by decide +kernel⟩

end Storage
end Mq
