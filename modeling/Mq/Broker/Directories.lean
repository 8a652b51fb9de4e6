import Mq.Broker.Registration
import Mq.Group.Offsets

/-!
# The directories of the partitions

`openLocked` of `internal/broker/broker.go` calls `storage.Open` for a log that is not open,
and the first thing that `storage.Open` does is to make the directory of the partition.  The
directory stays when the log cannot be opened after all.  So the directories that a call of the
broker makes follow from the logs that it tries to open.

The calls of a broker without a controller are followed here: those that administer topics, and
the look for a log that every data request starts with.  With an object store there are no
directories.

## Main definitions

* `Disk`, `Disk.openDir` — where the directories are, and what `storage.Open` does to them.
* `Holdings.openAllTries`, `Holdings.registerTries`, `Holdings.callTries`,
  `Holdings.localLogTries` — the logs that a call tries to open.
* `Disk.Makes` — opening the log makes a directory.
* `Disk.Tidy` — a commit of a consumer group makes no directory of a partition.

## Main results

* `Holdings.localLog_free_cases` — **everything that looking for a log does on a broker without
  a controller**, with the logs that it tries to open.
-/

namespace Mq

open Word Files Storage

/-! ### The disk -/

/-- Where a broker keeps its partitions. -/
structure Disk where
  logDirs : Path
  /-- The logs are in an object store. -/
  objStore : Bool

namespace Disk

variable (disk : Disk) (fs : FileSystem)

/-- `<data-dir>/<topic>-<partition>` -/
def partitionDir (x : Bytes × ℤ) : Path := join disk.logDirs (numbered x.1 x.2)

/-- There is a directory of the partition. -/
def Has (x : Bytes × ℤ) : Prop := fs.lookup (disk.partitionDir x) = some .dir

instance (x : Bytes × ℤ) : Decidable (disk.Has fs x) := inferInstanceAs (Decidable (_ = _))

/-- The directories after `storage.Open`.  If the directory cannot be made then the log cannot
be opened, and nothing has changed. -/
def openDir (x : Bytes × ℤ) : FileSystem :=
  if disk.objStore then fs else (fs.mkdirAll (disk.partitionDir x)).getD fs

/-- The directories after several calls. -/
def openDirs (xs : List (Bytes × ℤ)) : FileSystem := xs.foldl disk.openDir fs

/-- `storage.Open` makes a directory that was not there. -/
def Makes (x : Bytes × ℤ) : Prop :=
  disk.objStore = false ∧ ¬ disk.Has fs x ∧ (fs.mkdirAll (disk.partitionDir x)).isSome = true

instance (x : Bytes × ℤ) : Decidable (disk.Makes fs x) :=
  inferInstanceAs (Decidable (_ ∧ _ ∧ _))

variable {disk fs}

theorem openDir_of_not_makes {x : Bytes × ℤ} (h : ¬ disk.Makes fs x) : disk.openDir fs x = fs := by
  unfold openDir
  split
  · rfl
  · next hobj =>
    by_cases hhas : disk.Has fs x
    · rw [FileSystem.mkdirAll_of_dir hhas, Option.getD_some]
    · -- the directory is neither there nor can it be made
      have hnone : fs.mkdirAll (disk.partitionDir x) = none := by
        simpa [Makes, hobj, hhas] using h
      rw [hnone, Option.getD_none]

theorem has_openDir_of_makes {x : Bytes × ℤ} (h : disk.Makes fs x) :
    disk.Has (disk.openDir fs x) x := by
  obtain ⟨fs', hmk⟩ := Option.isSome_iff_exists.mp h.2.2
  rw [openDir, h.1, hmk, Has]
  simp [FileSystem.lookup_mkdirAll hmk]

/-- Directories stay. -/
theorem has_openDir {y : Bytes × ℤ} (h : disk.Has fs y) (x : Bytes × ℤ) :
    disk.Has (disk.openDir fs x) y := by
  unfold openDir
  split
  · exact h
  · cases hmk : fs.mkdirAll (disk.partitionDir x) with
    | none => exact h
    | some fs' =>
      rw [Option.getD_some, Has, FileSystem.lookup_mkdirAll hmk]
      split
      · rfl
      · exact h

theorem has_openDirs {y : Bytes × ℤ} (h : disk.Has fs y) (xs : List (Bytes × ℤ)) :
    disk.Has (disk.openDirs fs xs) y := by
  induction xs generalizing fs with
  | nil => exact h
  | cons x xs ih => exact ih (has_openDir h x)

end Disk

/-! ### Directories of consumer groups -/

/-- **A commit makes no directory of a partition**: on the way to the directory of its group,
which is on the same disk, there is none that is missing. -/
def Disk.Tidy (disk : Disk) (h : Mq.Group.Host)
    (x : Mq.Group.OffsetKey × Mq.Group.Committed) : Prop :=
  (h.fs.mkdirAll (join h.store.root x.1.group)).isSome = true →
    ∀ k, disk.partitionDir k <+: join h.store.root x.1.group → disk.Has h.fs k

/-- A plain group id that does not end in a number is tidy, once there is a root. -/
theorem Disk.tidy_of_plain (disk : Disk) {h : Mq.Group.Host}
    {x : Mq.Group.OffsetKey × Mq.Group.Committed} (hroot : h.fs.lookup h.store.root = some .dir)
    (hplain : Files.Plain x.1.group) (hname : ∀ t z, numbered t z ≠ x.1.group) :
    disk.Tidy h x := by
  intro _ k hpre
  obtain ⟨d, n, t, hdir, hn⟩ := exists_join_numbered disk.logDirs k.1 k.2
  rw [join_plain _ hplain, List.prefix_concat_iff, partitionDir, hdir] at hpre
  rw [Disk.Has, partitionDir, hdir]
  rcases hpre with heq | ⟨cs, hcs⟩
  · -- the directory of the group has another name
    have hlast := congrArg Subtype.val (List.singleton_inj.mp (List.append_inj' heq rfl).2)
    exact absurd (hn.symm.trans hlast) (hname t k.2)
  · rw [← hcs] at hroot
    exact FileSystem.lookup_of_append hroot

/-! ### The logs that a call tries to open -/

namespace Holdings

variable (set : Setting)

/-- The calls of `storage.Open` while several logs are opened, up to the first that fails. -/
def openAllTries (b : Holdings) : List (Bytes × ℤ) → List (Bytes × ℤ)
  | [] => []
  | x :: xs =>
    match b.logs.lookup x with
    | some _ => openAllTries b xs
    | none =>
      match set.openLog x.1 x.2 with
      | none => [x]
      | some l => x :: openAllTries { b with logs := b.logs.insert x l } xs

def registerTries (b : Holdings) (name : Bytes) (partitions : ℤ) : List (Bytes × ℤ) :=
  let n := countFor set partitions
  openAllTries set { b with catalog := b.catalog.insert name n }
    (((List.range n.toNat).map fun (p : ℕ) => (name, (p : ℤ))).filter fun x => set.isLeader x.1 x.2)

/-- The logs that the administration of topics tries to open. -/
def callTries (b : Holdings) (c : Catalog.Call) : List (Bytes × ℤ) :=
  match b.registers set c with
  | none => []
  | some (name, n) => registerTries set b name n

/-- The logs that looking for a log tries to open. -/
def localLogTries (b : Holdings) (topic : Bytes) (p : ℤ) : List (Bytes × ℤ) :=
  if p < 0 ∨ b.numPartitions set topic ≤ p then []
  else if b.leads set topic p = false then []
  else
    match b.logs.lookup (topic, p) with
    | some _ => []
    | none =>
      if b.ctrl = none ∧ b.catalog.lookup topic = none then
        registerTries set b topic (b.numPartitions set topic) ++
          match registerLocked set b topic (b.numPartitions set topic) with
          | (_, false) => []
          | (b', true) => openAllTries set b' [(topic, p)]
      else openAllTries set b [(topic, p)]

variable {set}

theorem openAllTries_singleton {b : Holdings} {x : Bytes × ℤ} (h : b.logs.lookup x = none) :
    openAllTries set b [x] = [x] := by
  rw [openAllTries, h]
  cases set.openLog x.1 x.2 <;> rfl

/-! ### Looking for a log without a controller -/

/-- Opening one log leaves the catalog alone. -/
theorem catalog_served (b : Holdings) (topic : Bytes) (p : ℤ) :
    (served (openLocked set b topic p)).1.catalog = b.catalog ∧
      (served (openLocked set b topic p)).1.ctrl = b.ctrl := by
  rw [fst_served]
  exact ⟨(opens_openLocked b topic p).catalog, (opens_openLocked b topic p).ctrl⟩

/-- **Everything that looking for a log does on a broker without a controller.**  The index is
out of range, another node leads the partition, the log is open, it is to be opened, or the
topic is registered. -/
theorem localLog_free_cases {b : Holdings} (hctrl : b.ctrl = none) (topic : Bytes) (p : ℤ) :
    ((p < 0 ∨ b.numPartitions set topic ≤ p) ∧ localLogTries set b topic p = [] ∧
      localLog set b topic p = (b, .error .unknownPartition)) ∨
    ((0 ≤ p ∧ p < b.numPartitions set topic) ∧
      ((b.leads set topic p = false ∧ localLogTries set b topic p = [] ∧
          localLog set b topic p = (b, .error .notLeader)) ∨
        (∃ l, b.leads set topic p = true ∧ b.logs.lookup (topic, p) = some l ∧
          localLogTries set b topic p = [] ∧ localLog set b topic p = (b, .ok l)) ∨
        (b.leads set topic p = true ∧ b.logs.lookup (topic, p) = none ∧ b.knows topic = true ∧
          localLogTries set b topic p = [(topic, p)] ∧
          localLog set b topic p = served (openLocked set b topic p)) ∨
        (b.leads set topic p = true ∧ b.knows topic = false ∧
          (localLog set b topic p).1.ctrl = none ∧
          (localLog set b topic p).1.catalog
            = b.catalog.insert topic (b.numPartitions set topic)))) := by
  unfold localLog localLogTries
  by_cases hrange : p < 0 ∨ b.numPartitions set topic ≤ p
  · exact .inl ⟨hrange, by rw [if_pos hrange], by rw [if_pos hrange]⟩
  rw [if_neg hrange, if_neg hrange]
  refine .inr ⟨by omega, ?_⟩
  cases hlead : b.leads set topic p with
  | false => exact .inl ⟨rfl, rfl, rfl⟩
  | true =>
    have hleads : ¬ true = false := by simp
    rw [if_neg hleads, if_neg hleads]
    cases hlog : b.logs.lookup (topic, p) with
    | some l => exact .inr (.inl ⟨l, rfl, rfl, rfl, rfl⟩)
    | none =>
      dsimp only
      cases hknown : b.catalog.lookup topic with
      | some n =>
        have hold : ¬ (b.ctrl = none ∧ some n = none) := by simp
        rw [if_neg hold, if_neg hold, openAllTries_singleton hlog]
        exact .inr (.inr (.inl ⟨rfl, rfl, by simp [knows, hctrl, hknown], rfl, rfl⟩))
      | none =>
        have hnew : b.ctrl = none ∧ (none : Option ℤ) = none := ⟨hctrl, rfl⟩
        rw [if_pos hnew, if_pos hnew]
        refine .inr (.inr (.inr ⟨rfl, by simp [knows, hctrl, hknown], ?_⟩))
        -- the count is positive, so it is what the topic is registered with
        have hcount : countFor set (b.numPartitions set topic) = b.numPartitions set topic := by
          rw [countFor, if_neg (by omega)]
        have hopens : Opens
            ⟨b.catalog.insert topic (countFor set (b.numPartitions set topic)), b.ctrl, b.logs,
              b.followers⟩
            (registerLocked set b topic (b.numPartitions set topic)).1 := opens_openAll _ _
        rw [hcount] at hopens
        rcases hreg : registerLocked set b topic (b.numPartitions set topic) with ⟨b', _ | _⟩ <;>
          rw [hreg] at hopens
        · exact ⟨hopens.ctrl.trans hctrl, hopens.catalog⟩
        · obtain ⟨hcatalog, hctrl'⟩ := @catalog_served set b' topic p
          exact ⟨hctrl'.trans (hopens.ctrl.trans hctrl), hcatalog.trans hopens.catalog⟩

end Holdings

end Mq
