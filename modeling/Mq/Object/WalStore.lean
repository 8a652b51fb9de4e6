import Mq.Lib.Transition
import Mq.Object.WalFile

/-!
# The write-ahead log on disk

The operations of `internal/storage/object/wal.go` on the files, and that they refine the log
of whole records: whatever is appended, rotated and trimmed, and wherever a write is cut short
by a crash, a replay of the files visits the records that the other model has.

## Main definitions

* `WalFiles`, `openActive`, `openWalFiles`, `WalFiles.append`, `WalFiles.rotate`,
  `WalFiles.deleteThrough` — the files and the open handle.
* `WalFiles.Stores` — the files hold the segments, and the active one ends in a whole frame.
* `WalOp`, `WalFiles.step`, `Wal.step` — an operation, on the files and on the records.
* `WalFiles.Refines` — the files hold the log.

## Main results

* `Stores.append`, `Stores.rotate`, `Stores.deleteThrough`, `Stores.crash` — the operations
  keep the relation.
* `Refines.run` — **the files refine the log of records** along every run.
* `replay_run` — what a replay finds after a run.
-/

namespace Mq
namespace Object

open Word Framing

/-! ### The operations -/

/-- The directory, and the handle of the active file. -/
structure WalFiles where
  dir : WalDir
  activeSeq : ℕ
  closed : Bool

/-- Open a segment for appending; it is created if it is not there. -/
def openActive (dir : WalDir) (seq : ℕ) : WalFiles :=
  ⟨dir.insert (segPath seq) ((dir.lookup (segPath seq)).getD []), seq, false⟩

/-- Leave the segments found in place and open the one after the last. -/
def openWalFiles (dir : WalDir) : WalFiles :=
  openActive dir <| match (segmentSeqs dir).getLast? with
    | none => 1
    | some seq => (seq + 1) % 2 ^ 64

namespace WalFiles

/-- Write to the end of the active file.  What is written to a file that was removed is in no
directory. -/
def write (f : WalFiles) (data : Bytes) : WalFiles :=
  match f.dir.lookup (segPath f.activeSeq) with
  | none => f
  | some old => { f with dir := f.dir.insert (segPath f.activeSeq) (old ++ data) }

/-- Write the frame of a record; `short` is the number of its bytes that a failed write leaves
in the file. -/
def append (f : WalFiles) (rec : WalRecord) (short : Option ℕ) : WalFiles × Bool :=
  if f.closed then (f, false)
  else match short with
    | none => (f.write (walFrame rec), true)
    | some n => (f.write ((walFrame rec).take n), false)

@[simp] theorem activeSeq_write (f : WalFiles) (data : Bytes) :
    (f.write data).activeSeq = f.activeSeq := by
  rw [write]
  split <;> rfl

@[simp] theorem closed_write (f : WalFiles) (data : Bytes) :
    (f.write data).closed = f.closed := by
  rw [write]
  split <;> rfl

/-- Seal the active segment and open a fresh one. -/
def rotate (f : WalFiles) (fault : Option RotateFault) : WalFiles × Option ℕ :=
  if f.closed then (f, none)
  else match fault with
    | none => (openActive f.dir ((f.activeSeq + 1) % 2 ^ 64), some f.activeSeq)
    | some .sync => (f, none)
    | some .reopen => ({ f with closed := true }, none)

/-- Remove every segment up to a number. -/
def deleteThrough (f : WalFiles) (sealedThrough : ℕ) : WalFiles :=
  let names := ((segmentSeqs f.dir).filter (· ≤ sealedThrough)).map segPath
  { f with dir := names.foldl (fun dir name => dir.erase name) f.dir }

end WalFiles

/-! ### Segments that grow -/

theorem exists_torn_nil :
    ∃ rec : WalRecord, rec.Valid ∧ [] <+: walFrame rec ∧ [] ≠ walFrame rec :=
  ⟨⟨[], 0, 0, []⟩, by decide +kernel⟩

namespace TornSegment

/-- The segment without the bytes of its file. -/
def segment (t : TornSegment) : WalSegment := ⟨t.seq, t.records⟩

/-- A segment that was just opened. -/
def fresh (seq : ℕ) (h : seq < 2 ^ 64) : TornSegment :=
  ⟨seq, [], [], h, fun _ hrec => absurd hrec List.not_mem_nil, exists_torn_nil⟩

variable {t : TornSegment} {rec : WalRecord}

/-- One more record. -/
def snoc (t : TornSegment) (rec : WalRecord) (hrec : rec.Valid) : TornSegment where
  seq := t.seq
  records := t.records ++ [rec]
  torn := []
  seq_lt := t.seq_lt
  valid r hr := (List.mem_append.mp hr).elim (t.valid r) fun h => List.mem_singleton.mp h ▸ hrec
  isTorn := exists_torn_nil

/-- The first bytes of one more frame. -/
def tear (t : TornSegment) (rec : WalRecord) (hrec : rec.Valid) (n : ℕ)
    (hn : n < (walFrame rec).length) : TornSegment where
  seq := t.seq
  records := t.records
  torn := (walFrame rec).take n
  seq_lt := t.seq_lt
  valid := t.valid
  isTorn := by
    refine ⟨rec, hrec, List.take_prefix _ _, fun heq => ?_⟩
    have := congrArg List.length heq
    rw [List.length_take] at this
    omega

theorem data_snoc (ht : t.torn = []) (hrec : rec.Valid) :
    (t.snoc rec hrec).data = t.data ++ walFrame rec := by
  simp [data, snoc, ht]

theorem data_tear (ht : t.torn = []) (hrec : rec.Valid) {n : ℕ} (hn : n < (walFrame rec).length) :
    (t.tear rec hrec n hn).data = t.data ++ (walFrame rec).take n := by
  simp [data, tear, ht]

end TornSegment

/-! ### Files that are written and removed -/

namespace WalDir

variable {dir : WalDir} {segs : List TornSegment} {a b : TornSegment}

theorem lt_last_of_sorted (hsorted : ((segs ++ [a]).map (·.seq)).Pairwise (· < ·)) :
    ∀ t ∈ segs, t.seq < a.seq := by
  intro t ht
  rw [List.map_append] at hsorted
  exact (List.pairwise_append.mp hsorted).2.2 _ (List.mem_map_of_mem ht) _
    (List.mem_singleton.mpr rfl)

/-- A file is written that comes last, new or not. -/
theorem Holds.of_insert {old : List TornSegment} (h : dir.Holds old)
    (hsorted : ((segs ++ [a]).map (·.seq)).Pairwise (· < ·)) (hsub : ∀ t ∈ segs, t ∈ old)
    (hold : ∀ t ∈ old, t ∈ segs ∨ t.seq = a.seq) :
    WalDir.Holds (dir.insert (segPath a.seq) a.data) (segs ++ [a]) := by
  refine ⟨hsorted, fun t ht => ?_, fun name hname seq hseq => ?_⟩
  · rw [Table.lookup_insert_ite]
    rcases List.mem_append.mp ht with ht | ht
    · have hlt := lt_last_of_sorted hsorted t ht
      rw [if_neg fun hpath => hlt.ne (segPath_inj hpath)]
      exact h.lookup_segPath t (hsub t ht)
    · rw [List.mem_singleton.mp ht, if_pos rfl]
  · rw [Table.mem_keys_iff, Table.lookup_insert_ite] at hname
    split at hname
    · next hpath =>
      rw [hpath, segmentSeq_segPath a.seq_lt] at hseq
      cases hseq
      exact ⟨hpath, a, by simp, rfl⟩
    · obtain ⟨hpath, t, ht, rfl⟩ :=
        h.eq_segPath name ((Table.mem_keys_iff _ _).mpr hname) seq hseq
      refine ⟨hpath, ?_⟩
      rcases hold t ht with ht | heq
      · exact ⟨t, List.mem_append_left _ ht, rfl⟩
      · exact ⟨a, by simp, heq.symm⟩

/-- The last file is written again. -/
theorem Holds.replace_last (h : dir.Holds (segs ++ [a])) (hseq : b.seq = a.seq) :
    WalDir.Holds (dir.insert (segPath a.seq) b.data) (segs ++ [b]) := by
  rw [← hseq]
  refine h.of_insert ?_ (fun t ht => List.mem_append_left _ ht) fun t ht => ?_
  · have hsorted := h.sorted
    simp only [List.map_append, List.map_cons, List.map_nil] at hsorted ⊢
    rwa [hseq]
  · rcases List.mem_append.mp ht with ht | ht
    · exact .inl ht
    · exact .inr (by rw [List.mem_singleton.mp ht, hseq])

/-- One more file, with a higher number than the others. -/
theorem Holds.snoc (h : dir.Holds segs) (hlt : ∀ t ∈ segs, t.seq < a.seq) :
    WalDir.Holds (dir.insert (segPath a.seq) a.data) (segs ++ [a]) := by
  refine h.of_insert ?_ (fun t ht => ht) fun t ht => .inl ht
  rw [List.map_append, List.pairwise_append]
  refine ⟨h.sorted, List.pairwise_singleton _ _, ?_⟩
  intro m hm n hn
  obtain ⟨t, ht, rfl⟩ := List.mem_map.mp hm
  rw [List.mem_singleton.mp hn]
  exact hlt t ht

theorem Holds.lt_last (h : dir.Holds (segs ++ [a])) : ∀ t ∈ segs, t.seq < a.seq :=
  lt_last_of_sorted h.sorted

/-- The files up to a number are removed. -/
theorem Holds.deleteThrough {f : WalFiles} (h : f.dir.Holds segs) (n : ℕ) :
    (f.deleteThrough n).dir.Holds (segs.filter fun t => n < t.seq) := by
  have hnames : ∀ name, name ∈ ((segmentSeqs f.dir).filter (· ≤ n)).map segPath ↔
      ∃ t ∈ segs, t.seq ≤ n ∧ segPath t.seq = name := by
    intro name
    rw [h.segmentSeqs_eq]
    simp [and_assoc]
  have hlookup := Table.lookup_foldl_erase (((segmentSeqs f.dir).filter (· ≤ n)).map segPath) f.dir
  refine ⟨h.sorted.sublist (List.filter_sublist.map _), fun t ht => ?_,
    fun name hname seq hseq => ?_⟩
  · obtain ⟨ht, hn⟩ := List.mem_filter.mp ht
    refine (hlookup _).trans ?_
    rw [if_neg ?_, h.lookup_segPath t ht]
    rw [hnames]
    rintro ⟨u, -, hu, hpath⟩
    rw [segPath_inj hpath] at hu
    exact absurd (of_decide_eq_true hn) (by omega)
  · rw [Table.mem_keys_iff] at hname
    have hfile := (hlookup name).symm.trans_ne hname
    split at hfile
    · exact absurd rfl hfile
    · next hkept =>
      obtain ⟨hpath, t, ht, rfl⟩ :=
        h.eq_segPath name ((Table.mem_keys_iff _ _).mpr hfile) seq hseq
      refine ⟨hpath, t, List.mem_filter.mpr ⟨ht, decide_eq_true ?_⟩, rfl⟩
      rw [hnames] at hkept
      by_contra hle
      exact hkept ⟨t, ht, by omega, hpath.symm⟩

end WalDir

/-! ### The files and the records -/

/-- The files hold the segments of the log, and the active one ends in a whole frame. -/
structure WalFiles.Stores (f : WalFiles) (w : Wal) (older : List TornSegment)
    (active : TornSegment) : Prop where
  holds : f.dir.Holds (older ++ [active])
  segments : w.segments = (older ++ [active]).map TornSegment.segment
  files_active : f.activeSeq = active.seq
  wal_active : w.activeSeq = active.seq
  closed : f.closed = w.closed
  whole : active.torn = []

namespace WalFiles

variable {f : WalFiles} {w w' : Wal} {older : List TornSegment} {active : TornSegment}
  {rec : WalRecord}

/-- What is written goes to the end of the last file. -/
theorem holds_write (h : f.dir.Holds (older ++ [active])) (hactive : f.activeSeq = active.seq)
    {b : TornSegment} (hseq : b.seq = active.seq) {data : Bytes}
    (hdata : b.data = active.data ++ data) : (f.write data).dir.Holds (older ++ [b]) := by
  have hfile : f.dir.lookup (segPath f.activeSeq) = some active.data := by
    rw [hactive]
    exact h.lookup_segPath active (by simp)
  rw [WalFiles.write, hfile]
  dsimp only
  rw [hactive, ← hdata]
  exact h.replace_last hseq

/-- The record goes to the active segment and to no other. -/
theorem Stores.segments_append (h : f.Stores w older active) (hrec : rec.Valid)
    (happend : w.append rec = some w') :
    w'.segments = (older ++ [active.snoc rec hrec]).map TornSegment.segment := by
  rw [Wal.append_eq_some happend]
  dsimp only
  rw [h.segments, h.wal_active, List.map_map, List.map_append, List.map_append]
  congr 1
  · refine List.map_congr_left fun t ht => if_neg ?_
    exact (h.holds.lt_last t ht).ne
  · simp [TornSegment.segment, TornSegment.snoc]

theorem not_closed_of_append (happend : w.append rec = some w') :
    w.closed = false ∧ w'.closed = false := by
  rw [Wal.append] at happend
  split at happend
  · cases happend
  · next hclosed =>
    cases happend
    exact ⟨eq_false_of_ne_true hclosed, eq_false_of_ne_true hclosed⟩

/-- A record is written to the active file. -/
theorem Stores.append (h : f.Stores w older active) (hrec : rec.Valid)
    (happend : w.append rec = some w') :
    (f.append rec none).1.Stores w' older (active.snoc rec hrec) := by
  obtain ⟨hopen, hopen'⟩ := not_closed_of_append happend
  have hfiles : f.append rec none = (f.write (walFrame rec), true) := by
    rw [WalFiles.append, if_neg (by simp [h.closed, hopen])]
  rw [hfiles]
  exact
    { holds := holds_write (b := active.snoc rec hrec) h.holds h.files_active rfl
        (TornSegment.data_snoc h.whole hrec)
      segments := h.segments_append hrec happend
      files_active := (activeSeq_write f _).trans h.files_active
      wal_active := (Wal.activeSeq_append happend).trans h.wal_active
      closed := by simp [h.closed, hopen, hopen']
      whole := rfl }

/-- A write that is cut short tears the active file. -/
theorem Stores.holds_short (h : f.Stores w older active) (hrec : rec.Valid) {n : ℕ}
    (hn : n < (walFrame rec).length) :
    ∃ last : TornSegment, last.segment = active.segment ∧
      (f.append rec (some n)).1.dir.Holds (older ++ [last]) := by
  rw [WalFiles.append]
  split
  · exact ⟨active, rfl, h.holds⟩
  · exact ⟨active.tear rec hrec n hn, rfl, holds_write (b := active.tear rec hrec n hn) h.holds
      h.files_active rfl (TornSegment.data_tear h.whole hrec hn)⟩

end WalFiles

/-- The next segment is opened after the ones there are. -/
theorem WalDir.Holds.openActive {dir : WalDir} {segs : List TornSegment} (h : dir.Holds segs)
    {seq : ℕ} (hseq : seq < 2 ^ 64) (hlt : ∀ t ∈ segs, t.seq < seq) :
    (Object.openActive dir seq).dir.Holds (segs ++ [.fresh seq hseq]) := by
  have hnew : dir.lookup (segPath seq) = none := by
    by_contra hfile
    obtain ⟨-, t, ht, heq⟩ := h.eq_segPath _ ((Table.mem_keys_iff _ _).mpr hfile) seq
      (segmentSeq_segPath hseq)
    exact (hlt t ht).ne heq
  have hdir : (Object.openActive dir seq).dir
      = dir.insert (segPath seq) (TornSegment.fresh seq hseq).data := by
    rw [Object.openActive, hnew]
    rfl
  rw [hdir]
  exact h.snoc (a := .fresh seq hseq) hlt

/-- The number of the segment after these. -/
def nextSeq (segs : List TornSegment) : ℕ := (segs.getLast?.map (·.seq + 1)).getD 1

theorem nextSeq_concat (segs : List TornSegment) (t : TornSegment) :
    nextSeq (segs ++ [t]) = t.seq + 1 := by
  simp [nextSeq]

theorem WalDir.Holds.lt_nextSeq {dir : WalDir} {segs : List TornSegment} (h : dir.Holds segs) :
    ∀ t ∈ segs, t.seq < nextSeq segs := by
  intro t ht
  rcases List.eq_nil_or_concat' segs with rfl | ⟨older, last, rfl⟩
  · simp at ht
  · rw [nextSeq_concat, Nat.lt_succ_iff]
    rcases List.mem_append.mp ht with ht | ht
    · exact (h.lt_last t ht).le
    · rw [List.mem_singleton.mp ht]

theorem WalDir.Holds.openWalFiles_eq {dir : WalDir} {segs : List TornSegment} (h : dir.Holds segs)
    (hnext : nextSeq segs < 2 ^ 64) :
    openWalFiles dir = Object.openActive dir (nextSeq segs) := by
  rw [openWalFiles, h.segmentSeqs_eq]
  rcases List.eq_nil_or_concat' segs with rfl | ⟨older, last, rfl⟩
  · rfl
  · rw [nextSeq_concat] at hnext ⊢
    rw [List.map_append, List.map_singleton, List.getLast?_concat]
    dsimp only
    rw [Nat.mod_eq_of_lt hnext]

theorem WalDir.Holds.stores_openActive {dir : WalDir} {segs : List TornSegment}
    (h : dir.Holds segs) {seq : ℕ} (hseq : seq < 2 ^ 64) (hlt : ∀ t ∈ segs, t.seq < seq) :
    (Object.openActive dir seq).Stores
      ⟨segs.map TornSegment.segment ++ [⟨seq, []⟩], seq, false⟩ segs (.fresh seq hseq) where
  holds := h.openActive hseq hlt
  segments := by rw [List.map_append]; rfl
  files_active := rfl
  wal_active := rfl
  closed := rfl
  whole := rfl

namespace WalFiles

variable {f : WalFiles} {w w' : Wal} {older : List TornSegment} {active : TornSegment}
  {rec : WalRecord}

theorem Stores.nextSeq_eq (h : f.Stores w older active) :
    nextSeq (older ++ [active]) = w.activeSeq + 1 := by
  rw [nextSeq_concat, h.wal_active]

theorem Stores.rotate (h : f.Stores w older active) (hseq : w.activeSeq + 1 < 2 ^ 64)
    (fault : Option RotateFault) :
    (∃ older' active', (f.rotate fault).1.Stores (w.rotate fault).1 older' active') ∧
      (f.rotate fault).2 = (w.rotate fault).2 := by
  have hactive : f.activeSeq = w.activeSeq := h.files_active.trans h.wal_active.symm
  simp only [WalFiles.rotate, Wal.rotate, h.closed]
  cases hclosed : w.closed with
  | true => exact ⟨⟨older, active, h⟩, rfl⟩
  | false =>
    cases fault with
    | none =>
      have hnext := h.holds.stores_openActive hseq (h.nextSeq_eq ▸ h.holds.lt_nextSeq)
      rw [← h.segments] at hnext
      simp only [Bool.false_eq_true, if_false, hactive, Nat.mod_eq_of_lt hseq, and_true]
      exact ⟨_, _, hnext⟩
    | some fault =>
      cases fault with
      | sync => exact ⟨⟨older, active, h⟩, rfl⟩
      | reopen => exact ⟨⟨older, active, { h with closed := rfl }⟩, rfl⟩

theorem Stores.deleteThrough (h : f.Stores w older active) {n : ℕ} (hn : n < w.activeSeq) :
    (f.deleteThrough n).Stores (w.deleteThrough n) (older.filter fun t => n < t.seq) active := by
  have hfilter : (older ++ [active]).filter (fun t => n < t.seq)
      = older.filter (fun t => n < t.seq) ++ [active] := by
    rw [List.filter_append]
    congr 1
    simpa [h.wal_active] using hn
  exact
    { h with
      holds := hfilter ▸ h.holds.deleteThrough n
      segments := by
        rw [← hfilter, Wal.deleteThrough, h.segments, List.filter_map]
        rfl }

/-- The log is opened again, after a write that may have been cut short. -/
theorem Stores.crash (h : f.Stores w older active) (hseq : w.activeSeq + 1 < 2 ^ 64)
    (hrec : rec.Valid) {n : ℕ} (hn : n < (walFrame rec).length) :
    ∃ older' active', (openWalFiles (f.append rec (some n)).1.dir).Stores (openWal w.segments)
      older' active' := by
  obtain ⟨last, hlast, hdir⟩ := h.holds_short hrec hn
  have hlastSeq : last.seq = w.activeSeq := (congrArg WalSegment.seq hlast).trans h.wal_active.symm
  have hnext : nextSeq (older ++ [last]) = w.activeSeq + 1 := by rw [nextSeq_concat, hlastSeq]
  have hsegments : w.segments = (older ++ [last]).map TornSegment.segment := by
    rw [h.segments, List.map_append, List.map_append, List.map_singleton, List.map_singleton, hlast]
  have hwal : openWal w.segments
      = ⟨(older ++ [last]).map TornSegment.segment ++ [⟨w.activeSeq + 1, []⟩], w.activeSeq + 1,
        false⟩ := by
    rw [hsegments]
    simp [openWal, TornSegment.segment, hlastSeq]
  rw [hdir.openWalFiles_eq (by omega), hwal, hnext]
  exact ⟨_, _, hdir.stores_openActive hseq (hnext ▸ hdir.lt_nextSeq)⟩

end WalFiles

/-! ### Runs -/

/-- What happens to the log. -/
inductive WalOp
  | append (rec : WalRecord)
  | rotate (fault : Option RotateFault)
  | deleteThrough (sealedThrough : ℕ)
  /-- The node stops after `n` bytes of a write, and opens the log again. -/
  | crash (rec : WalRecord) (n : ℕ)
  deriving DecidableEq, Repr

def WalFiles.step (f : WalFiles) : WalOp → WalFiles
  | .append rec => (f.append rec none).1
  | .rotate fault => (f.rotate fault).1
  | .deleteThrough sealedThrough => f.deleteThrough sealedThrough
  | .crash rec n => openWalFiles (f.append rec (some n)).1.dir

/-- A record whose write was cut short is not in the log. -/
def Wal.step (w : Wal) : WalOp → Wal
  | .append rec => (w.append rec).getD w
  | .rotate fault => (w.rotate fault).1
  | .deleteThrough sealedThrough => w.deleteThrough sealedThrough
  | .crash _ _ => openWal w.segments

/-- Records fit the format, a write that a crash cuts short is not whole, only sealed segments
are removed, and the numbers of the segments do not run out. -/
def Wal.Allows (w : Wal) : WalOp → Prop
  | .append rec => rec.Valid
  | .rotate _ => w.activeSeq + 1 < 2 ^ 64
  | .deleteThrough sealedThrough => sealedThrough < w.activeSeq
  | .crash rec n => rec.Valid ∧ n < (walFrame rec).length ∧ w.activeSeq + 1 < 2 ^ 64

/-- The files hold the log. -/
def WalFiles.Refines (f : WalFiles) (w : Wal) : Prop := ∃ older active, f.Stores w older active

namespace WalFiles

variable {f : WalFiles} {w : Wal}

/-- A closed handle takes no record, in the files and in the log. -/
theorem Refines.append (h : f.Refines w) {rec : WalRecord} (hrec : rec.Valid) :
    (f.append rec none).1.Refines ((w.append rec).getD w) := by
  obtain ⟨older, active, h⟩ := h
  cases happend : w.append rec with
  | some w' => exact ⟨older, active.snoc rec hrec, h.append hrec happend⟩
  | none =>
    have hclosed : w.closed = true := by
      rw [Wal.append] at happend
      split at happend
      · next hclosed => exact hclosed
      · cases happend
    rw [WalFiles.append, if_pos (h.closed.trans hclosed)]
    exact ⟨older, active, h⟩

theorem Refines.step (h : f.Refines w) {op : WalOp} (hop : w.Allows op) :
    (f.step op).Refines (w.step op) := by
  cases op with
  | append rec => exact h.append hop
  | rotate fault =>
    obtain ⟨older, active, h⟩ := h
    exact (h.rotate hop fault).1
  | deleteThrough n =>
    obtain ⟨older, active, h⟩ := h
    exact ⟨_, _, h.deleteThrough hop⟩
  | crash rec n =>
    obtain ⟨older, active, h⟩ := h
    exact h.crash hop.2.2 hop.1 hop.2.1

/-- **The files refine the log of records** along every run. -/
theorem Refines.run (h : f.Refines w) {ops : List WalOp}
    (hops : Transition.Along Wal.step Wal.Allows w ops) :
    (Transition.run WalFiles.step f ops).Refines (Transition.run Wal.step w ops) := by
  induction ops generalizing f w with
  | nil => exact h
  | cons op ops ih => exact ih (h.step hops.1) hops.2

/-- The replay of the files visits the records of the log. -/
theorem Refines.replay_eq (h : f.Refines w) {σ ε : Type} (fn : σ → WalRecord → σ × Option ε)
    (s : σ) : replay fn f.dir s = feed (callback fn) s w.replay := by
  obtain ⟨older, active, h⟩ := h
  rw [h.holds.replay_eq, Wal.replay, h.segments, List.flatMap_map]
  rfl

end WalFiles

theorem WalDir.holds_empty : WalDir.Holds ∅ [] :=
  ⟨List.Pairwise.nil, fun _ ht => absurd ht List.not_mem_nil,
    fun _ hname => absurd hname List.not_mem_nil⟩

theorem refines_openWal : (openWalFiles ∅).Refines (openWal []) :=
  ⟨[], _, WalDir.holds_empty.stores_openActive (by decide : 1 < 2 ^ 64)
    fun _ ht => absurd ht List.not_mem_nil⟩

/-- **What a replay finds after a run** that started with an empty directory: the records of
the log, in order, whichever writes a crash cut short. -/
theorem replay_run {ops : List WalOp}
    (hops : Transition.Along Wal.step Wal.Allows (openWal []) ops) {σ ε : Type}
    (fn : σ → WalRecord → σ × Option ε) (s : σ) :
    replay fn (Transition.run WalFiles.step (openWalFiles ∅) ops).dir s
      = feed (callback fn) s (Transition.run Wal.step (openWal []) ops).replay :=
  (refines_openWal.run hops).replay_eq fn s

/-- A record is written, the write of the next one is cut short after nine bytes, and a third one
goes to a new segment. -/
def tornOps : List WalOp :=
  [.append ⟨[116], 0, 0, [1]⟩, .crash ⟨[116], 0, 1, [2]⟩ 9, .append ⟨[116], 0, 1, [3]⟩]

/-- **Witness**: the replay visits the first and the third. -/
theorem replay_run_torn :
    (Transition.run Wal.step (openWal []) tornOps).replay
      = [⟨[116], 0, 0, [1]⟩, ⟨[116], 0, 1, [3]⟩] ∧
    replay (fun s rec => (s ++ [rec], (none : Option Unit)))
        (Transition.run WalFiles.step (openWalFiles ∅) tornOps).dir []
      = feed (callback fun s rec => (s ++ [rec], (none : Option Unit))) []
          (Transition.run Wal.step (openWal []) tornOps).replay := by
  refine ⟨by decide +kernel, @replay_run tornOps ?_ _ _ _ _⟩
  exact ⟨(by decide +kernel : WalRecord.Valid _), ⟨(by decide +kernel : WalRecord.Valid _),
    by decide +kernel, by decide +kernel⟩, (by decide +kernel : WalRecord.Valid _), trivial⟩

end Object
end Mq
