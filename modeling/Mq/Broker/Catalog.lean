import Mq.Lib.Files
import Mq.Lib.Transition

/-!
# The topic catalog of a single node across a restart

The part of `internal/broker/broker.go` that keeps the topics of a node without a
controller.  The catalog is never written: a new broker infers it from the directories
`<topic>-<partition>` of its data directory, of which it skips those whose names start with
two underscores.  A single node leads every partition, and it stores them in files.

## Main definitions

* `Registry`, `registerLocked`, `openLocked` — the catalog, the open logs and the disk.
* `createTopic`, `createPartitions`, `ensureTopic` — the calls.
* `Registry.new`, `loadExisting` — what a new broker finds.
* `Good` — the topic's name has no slash and does not start with two underscores, and it
  gets at least one partition.

## Main results

* `Restorable.survives` — **directories and catalog agree**, so a new broker finds every
  topic with its count.
* `catalog_survives` — **the catalog survives a restart exactly if every call is good.**
* `slashed_topic_lost` — a topic with a slash in its name is another one after a restart.
-/

namespace Mq
namespace Catalog

open Word Files Transition

/-! ### The registry -/

structure Config where
  logDirs : Path
  /-- The partitions of a topic whose count is not given. -/
  numPartitions : ℤ

structure Registry where
  fs : FileSystem
  catalog : Table Bytes ℤ
  /-- The partitions whose logs are open. -/
  logs : List (Bytes × ℤ)

variable (cfg : Config)

def partitionDir (topic : Bytes) (p : ℤ) : Path := join cfg.logDirs (numbered topic p)

/-- `00000000000000000000.log` -/
def firstLog : Name := ⟨zeroPad 20 (decimal 0) ++ [46, 108, 111, 103], by decide⟩

/-- `00000000000000000000.index` -/
def firstIndex : Name := ⟨zeroPad 20 (decimal 0) ++ [46, 105, 110, 100, 101, 120], by decide⟩

/-- The name is that of a segment: a number, and `.log`. -/
def isSegment (n : Name) : Bool :=
  [46, 108, 111, 103] <:+ n.val ∧ (atoi (n.val.take (n.val.length - 4))).isSome

def hasSegment (fs : FileSystem) (dir : Path) : Bool := (fs.readDir dir).any fun e => isSegment e.1

/-- What opening a log does to the disk: it makes the directory, and the files of a first
segment if there is none. -/
def openLog (fs : FileSystem) (dir : Path) : Option FileSystem :=
  (fs.mkdirAll dir).bind fun fs₁ =>
    if hasSegment fs₁ dir then some fs₁
    else (fs₁.writeFile dir firstLog []).bind fun fs₂ => fs₂.writeFile dir firstIndex []

/-- Open the log of a partition, unless it is open; the flag is false on an error. -/
def openLocked (b : Registry) (topic : Bytes) (p : ℤ) : Registry × Bool :=
  if (topic, p) ∈ b.logs then (b, true)
  else
    match openLog b.fs (partitionDir cfg topic p) with
    | none => (b, false)
    | some fs => ({ b with fs := fs, logs := (topic, p) :: b.logs }, true)

/-- Open several logs, up to the first error. -/
def openAll (b : Registry) : List (Bytes × ℤ) → Registry × Bool
  | [] => (b, true)
  | x :: xs =>
    match openLocked cfg b x.1 x.2 with
    | (b', false) => (b', false)
    | (b', true) => openAll b' xs

/-- The count that a topic is registered with. -/
def countFor (partitions : ℤ) : ℤ := if partitions ≤ 0 then cfg.numPartitions else partitions

def registerLocked (b : Registry) (name : Bytes) (partitions : ℤ) : Registry × Bool :=
  let n := countFor cfg partitions
  openAll cfg { b with catalog := b.catalog.insert name n }
    ((List.range n.toNat).map fun (p : ℕ) => (name, (p : ℤ)))

/-! ### The calls -/

def createTopic (b : Registry) (name : Bytes) (partitions : ℤ) : Registry × Bool :=
  match b.catalog.lookup name with
  | some _ => (b, false)
  | none => registerLocked cfg b name partitions

def createPartitions (b : Registry) (name : Bytes) (newCount : ℤ) : Registry × Bool :=
  match b.catalog.lookup name with
  | none => (b, false)
  | some cur => if newCount ≤ cur then (b, false) else registerLocked cfg b name newCount

def ensureTopic (b : Registry) (name : Bytes) : Registry × Bool :=
  match b.catalog.lookup name with
  | some _ => (b, true)
  | none => registerLocked cfg b name cfg.numPartitions

inductive Call
  | createTopic (name : Bytes) (partitions : ℤ)
  | createPartitions (name : Bytes) (newCount : ℤ)
  | ensureTopic (name : Bytes)
  deriving DecidableEq, Repr

def Registry.call (b : Registry) : Call → Registry × Bool
  | .createTopic name n => Catalog.createTopic cfg b name n
  | .createPartitions name n => Catalog.createPartitions cfg b name n
  | .ensureTopic name => Catalog.ensureTopic cfg b name

/-! ### A new broker -/

/-- What a new broker makes of the name of a directory: a topic and a partition. -/
def readPartition (d : Name) : Option (Bytes × ℤ) :=
  if [95, 95] <+: d.val then none else (readNumbered d.val).map fun x => (x.1, wrap32 x.2)

/-- The partitions of which there are directories. -/
def found (fs : FileSystem) : List (Bytes × ℤ) :=
  (fs.readDir cfg.logDirs).filterMap fun e =>
    match e.2 with
    | .dir => readPartition e.1
    | .file _ => none

/-- The highest partition that was found, and 0 without one. -/
def maxPart (parts : List (Bytes × ℤ)) (topic : Bytes) : ℤ :=
  parts.foldl (fun m x => if x.1 = topic ∧ m < x.2 then x.2 else m) 0

/-- The catalog that the directories make. -/
def foundCatalog (parts : List (Bytes × ℤ)) : Table Bytes ℤ :=
  (∅ : Table Bytes ℤ).insertAll (parts.map fun x => (x.1, wrap32 (maxPart parts x.1 + 1)))

def loadExisting (fs : FileSystem) : Option Registry :=
  match openAll cfg ⟨fs, foundCatalog (found cfg fs), []⟩ (found cfg fs) with
  | (b, true) => some b
  | (_, false) => none

def Registry.new (fs : FileSystem) : Option Registry :=
  (fs.mkdirAll cfg.logDirs).bind (loadExisting cfg)

/-- The topics in the order of their names, with their counts. -/
def Registry.knownTopics (b : Registry) : List (Bytes × ℤ) := b.catalog.listing (· ≤ ·)

theorem knownTopics_eq_iff {b b' : Registry} :
    b.knownTopics = b'.knownTopics ↔ ∀ name, b.catalog.lookup name = b'.catalog.lookup name :=
  Table.listing_eq_iff _

/-- A new broker knows the same topics. -/
def Survives (b : Registry) : Prop :=
  ∃ b', Registry.new cfg b.fs = some b' ∧ b'.knownTopics = b.knownTopics

variable {cfg}

/-! ### Opening logs -/

/-- The directory exists, with a segment in it. -/
def Opened (fs : FileSystem) (dir : Path) : Prop :=
  fs.lookup dir = some .dir ∧ hasSegment fs dir = true

variable {fs : FileSystem} {topic : Bytes} {parts : List (Bytes × ℤ)}

theorem hasSegment_iff {dir : Path} :
    hasSegment fs dir = true ↔ ∃ n, isSegment n = true ∧ fs.lookup (dir ++ [n]) ≠ none := by
  simp only [hasSegment, List.any_eq_true]
  constructor
  · rintro ⟨⟨n, e⟩, hmem, hseg⟩
    exact ⟨n, hseg, by simp [FileSystem.mem_readDir.mp hmem]⟩
  · rintro ⟨n, hseg, hne⟩
    obtain ⟨e, he⟩ := Option.ne_none_iff_exists'.mp hne
    exact ⟨(n, e), FileSystem.mem_readDir.mpr he, hseg⟩

theorem openLog_cases {fs' : FileSystem} {dir : Path} (h : openLog fs dir = some fs') :
    hasSegment fs' dir = true ∧
      (∀ q, fs'.lookup q = some .dir ↔ q <+: dir ∨ fs.lookup q = some .dir) ∧
      ∀ q, fs.lookup q ≠ none → fs'.lookup q ≠ none := by
  obtain ⟨fs₁, hmk, h⟩ := Option.bind_eq_some_iff.mp h
  have hdirs : ∀ q, fs₁.lookup q = some .dir ↔ q <+: dir ∨ fs.lookup q = some .dir := by
    intro q
    rw [FileSystem.lookup_mkdirAll hmk]
    split
    · next hpre => simp [hpre]
    · next hpre => simp [hpre]
  split at h
  · next hseg =>
    cases h
    exact ⟨hseg, hdirs, fun q => FileSystem.lookup_mkdirAll_ne_none hmk⟩
  · obtain ⟨fs₂, hlog, hindex⟩ := Option.bind_eq_some_iff.mp h
    have hkept : ∀ q, fs₁.lookup q ≠ none → fs'.lookup q ≠ none := fun q hq =>
      FileSystem.lookup_writeFile_ne_none hindex (FileSystem.lookup_writeFile_ne_none hlog hq)
    refine ⟨hasSegment_iff.mpr ⟨firstLog, by decide +kernel, ?_⟩, fun q => ?_, fun q hq => ?_⟩
    · apply FileSystem.lookup_writeFile_ne_none hindex
      rw [FileSystem.lookup_writeFile hlog, if_pos rfl]
      simp
    · rw [FileSystem.isDir_writeFile hindex, FileSystem.isDir_writeFile hlog, hdirs]
    · exact hkept q (FileSystem.lookup_mkdirAll_ne_none hmk hq)

/-- A log that was opened before is opened without a change to the disk. -/
theorem openLog_of_opened {dir : Path} (h : Opened fs dir) : openLog fs dir = some fs := by
  rw [openLog, FileSystem.mkdirAll_of_dir h.1, Option.bind_some, if_pos h.2]

/-- The open logs have their directories. -/
def LogsOpened (cfg : Config) (b : Registry) : Prop :=
  ∀ x ∈ b.logs, Opened b.fs (partitionDir cfg x.1 x.2)

/-- What opening the logs of `xs` changes. -/
structure Opens (cfg : Config) (xs : List (Bytes × ℤ)) (b b' : Registry) : Prop where
  catalog : b'.catalog = b.catalog
  opened : LogsOpened cfg b'
  logs : ∀ x, x ∈ b'.logs ↔ x ∈ b.logs ∨ x ∈ xs
  dirs : ∀ q, b'.fs.lookup q = some .dir ↔
    b.fs.lookup q = some .dir ∨ ∃ x ∈ xs, q <+: partitionDir cfg x.1 x.2

theorem opens_openLocked {b b' : Registry} (hb : LogsOpened cfg b) {p : ℤ}
    (h : openLocked cfg b topic p = (b', true)) : Opens cfg [(topic, p)] b b' := by
  rw [openLocked] at h
  split at h
  · next hmem =>
    cases h
    refine ⟨rfl, hb, fun x => ?_, fun q => ?_⟩
    · rw [List.mem_singleton]
      exact ⟨.inl, fun hx => hx.elim id fun heq => heq ▸ hmem⟩
    · constructor
      · exact .inl
      · rintro (hq | ⟨x, hx, cs, hcs⟩)
        · exact hq
        · rw [List.mem_singleton.mp hx] at hcs
          exact FileSystem.lookup_of_append (hcs ▸ (hb _ hmem).1)
  · split at h
    · cases h
    · next fs hopen =>
      cases h
      obtain ⟨hseg, hdirs, hkept⟩ := openLog_cases hopen
      refine ⟨rfl, ?_, fun x => ?_, fun q => ?_⟩
      · intro x hx
        rcases List.mem_cons.mp hx with rfl | hx
        · exact ⟨(hdirs _).mpr (.inl (List.prefix_refl _)), hseg⟩
        · obtain ⟨hdir, hxseg⟩ := hb x hx
          obtain ⟨n, hn, hne⟩ := hasSegment_iff.mp hxseg
          exact ⟨(hdirs _).mpr (.inr hdir), hasSegment_iff.mpr ⟨n, hn, hkept _ hne⟩⟩
      · rw [List.mem_cons, List.mem_singleton]
        exact or_comm
      · rw [hdirs]
        simp [or_comm]

theorem opens_openAll {xs : List (Bytes × ℤ)} {b b' : Registry} (hb : LogsOpened cfg b)
    (h : openAll cfg b xs = (b', true)) : Opens cfg xs b b' := by
  induction xs generalizing b with
  | nil =>
    cases h
    exact ⟨rfl, hb, by simp, by simp⟩
  | cons x xs ih =>
    rw [openAll] at h
    split at h
    · cases h
    · next b₁ hopen =>
      have hone := opens_openLocked hb hopen
      have hrest := ih hone.opened h
      refine ⟨hrest.catalog.trans hone.catalog, hrest.opened, fun y => ?_, fun q => ?_⟩
      · rw [hrest.logs, hone.logs, List.mem_singleton, List.mem_cons, or_assoc]
      · rw [hrest.dirs, hone.dirs, List.exists_mem_cons_iff]
        simp [or_assoc]

theorem subset_logs_openAll (b : Registry) (xs : List (Bytes × ℤ)) :
    b.logs ⊆ (openAll cfg b xs).1.logs := by
  induction xs generalizing b with
  | nil => exact List.Subset.refl _
  | cons x xs ih =>
    rw [openAll, openLocked]
    split_ifs
    · exact ih b
    · cases openLog b.fs (partitionDir cfg x.1 x.2) with
      | none => exact List.Subset.refl _
      | some fs =>
        exact List.Subset.trans (List.subset_cons_self x b.logs) (ih ⟨fs, b.catalog, x :: b.logs⟩)

/-- Logs that were opened before are opened without a change to the disk. -/
theorem openAll_of_opened {xs : List (Bytes × ℤ)} {b : Registry}
    (hxs : ∀ x ∈ xs, Opened b.fs (partitionDir cfg x.1 x.2)) :
    ∃ b', openAll cfg b xs = (b', true) ∧ b'.catalog = b.catalog := by
  induction xs generalizing b with
  | nil => exact ⟨b, rfl, rfl⟩
  | cons x xs ih =>
    have hrest := fun y hy => hxs y (List.mem_cons_of_mem x hy)
    rw [openAll, openLocked, openLog_of_opened (hxs x List.mem_cons_self)]
    split_ifs
    · exact ih hrest
    · exact ih hrest

/-! ### What a new broker finds -/

theorem mem_found {x : Bytes × ℤ} :
    x ∈ found cfg fs ↔
      ∃ d, fs.lookup (cfg.logDirs ++ [d]) = some .dir ∧ readPartition d = some x := by
  rw [found, List.mem_filterMap]
  constructor
  · rintro ⟨⟨d, e⟩, hmem, hread⟩
    cases e with
    | file => cases hread
    | dir => exact ⟨d, FileSystem.mem_readDir.mp hmem, hread⟩
  · rintro ⟨d, hdir, hread⟩
    exact ⟨(d, .dir), FileSystem.mem_readDir.mpr hdir, hread⟩

theorem maxPart_snoc (parts : List (Bytes × ℤ)) (x : Bytes × ℤ) (topic : Bytes) :
    maxPart (parts ++ [x]) topic
      = if x.1 = topic ∧ maxPart parts topic < x.2 then x.2 else maxPart parts topic := by
  rw [maxPart, List.foldl_append]
  rfl

theorem le_maxPart {p : ℤ} (h : (topic, p) ∈ parts) : p ≤ maxPart parts topic := by
  induction parts using List.reverseRecOn with
  | nil => cases h
  | append_singleton parts x ih =>
    rw [maxPart_snoc]
    rcases List.mem_append.mp h with h | h
    · have := ih h
      split <;> omega
    · rw [← List.mem_singleton.mp h]
      simp only [true_and]
      split <;> omega

theorem maxPart_le {m : ℤ} (hm : 0 ≤ m) (h : ∀ p, (topic, p) ∈ parts → p ≤ m) :
    maxPart parts topic ≤ m := by
  induction parts using List.reverseRecOn with
  | nil => exact hm
  | append_singleton parts x ih =>
    rw [maxPart_snoc]
    split
    · next hx => exact h x.2 (List.mem_append_right _ (by simp [← hx.1]))
    · exact ih fun p hp => h p (List.mem_append_left _ hp)

/-- A topic in the found catalog is one that a partition was found of. -/
theorem lookup_foundCatalog {n : ℤ} :
    (foundCatalog parts).lookup topic = some n ↔
      (∃ p, (topic, p) ∈ parts) ∧ n = wrap32 (maxPart parts topic + 1) := by
  have hentry : ∀ v, (topic, v) ∈ parts.map (fun x => (x.1, wrap32 (maxPart parts x.1 + 1))) ↔
      (∃ p, (topic, p) ∈ parts) ∧ v = wrap32 (maxPart parts topic + 1) := by
    intro v
    rw [List.mem_map]
    constructor
    · rintro ⟨⟨t, p⟩, hmem, heq⟩
      cases heq
      exact ⟨⟨p, hmem⟩, rfl⟩
    · rintro ⟨⟨p, hmem⟩, rfl⟩
      exact ⟨(topic, p), hmem, rfl⟩
  constructor
  · intro h
    exact (hentry n).mp ((Table.mem_of_lookup_insertAll h).resolve_right (by simp))
  · rintro ⟨hp, rfl⟩
    have hne : (foundCatalog parts).lookup topic ≠ none :=
      Table.lookup_insertAll_ne_none (.inr ⟨_, (hentry _).mpr ⟨hp, rfl⟩⟩)
    obtain ⟨v, hv⟩ := Option.ne_none_iff_exists'.mp hne
    rw [hv, ((hentry v).mp ((Table.mem_of_lookup_insertAll hv).resolve_right (by simp))).2]

/-- A new broker has the catalog that the directories make. -/
theorem new_cases {b : Registry} (h : Registry.new cfg fs = some b) :
    ∃ fs₁, fs.mkdirAll cfg.logDirs = some fs₁ ∧ LogsOpened cfg b ∧
      b.catalog = foundCatalog (found cfg fs₁) ∧
      Opens cfg (found cfg fs₁) ⟨fs₁, foundCatalog (found cfg fs₁), []⟩ b := by
  obtain ⟨fs₁, hmk, hload⟩ := Option.bind_eq_some_iff.mp h
  rw [loadExisting] at hload
  split at hload
  · next b' hall =>
    cases hload
    have hopens := opens_openAll (fun x hx => absurd hx List.not_mem_nil) hall
    exact ⟨fs₁, hmk, hopens.opened, hopens.catalog, hopens⟩
  · cases hload

/-! ### Names -/

/-- A topic's name that a directory can carry: it has no slash, and does not start with two
underscores. -/
def NameOk (name : Bytes) : Prop := 47 ∉ name ∧ ¬ [95, 95] <+: name

instance : DecidablePred NameOk := fun _ => inferInstanceAs (Decidable (_ ∧ _))

theorem partitionDir_eq {name : Bytes} (h : NameOk name) (p : ℤ) :
    partitionDir cfg name p = cfg.logDirs ++ [⟨numbered name p, plain_numbered h.1 p⟩] :=
  join_plain _ _

/-- The directory of a partition is read back. -/
theorem readPartition_numbered {name : Bytes} (h : NameOk name) {p : ℤ} (h0 : 0 ≤ p)
    (hp : p < 2147483648) :
    readPartition ⟨numbered name p, plain_numbered h.1 p⟩ = some (name, p) := by
  have hunder : ¬ [95, 95] <+: numbered name p := by
    rintro ⟨cs, hcs⟩
    rw [numbered] at hcs
    rcases name with _ | ⟨x, _ | ⟨y, name⟩⟩
    · simp at hcs
    · simp at hcs
    · apply h.2
      simp only [List.cons_append, List.nil_append, List.cons.injEq] at hcs
      obtain ⟨rfl, rfl, -⟩ := hcs
      exact ⟨name, rfl⟩
  rw [readPartition, if_neg hunder, readNumbered_numbered _ h0 (by omega), Option.map_some,
    wrap32_eq (by omega) hp]

/-- What is read from a directory is a name that a directory can carry. -/
theorem nameOk_of_readPartition {d : Name} {x : Bytes × ℤ} (h : readPartition d = some x) :
    NameOk x.1 := by
  rw [readPartition] at h
  split at h
  · cases h
  · next hunder =>
    obtain ⟨y, hy, rfl⟩ := Option.map_eq_some_iff.mp h
    have hpre : y.1 <+: d.val := readNumbered_isPrefix hy
    exact ⟨fun hslash => d.property.2.2.2 (hpre.subset hslash), fun hu => hunder (hu.trans hpre)⟩

/-! ### Directories and catalog -/

/-- Every topic of the catalog has its logs open, and every directory that a new broker reads
is that of a partition of a topic. -/
structure Restorable (cfg : Config) (b : Registry) : Prop where
  dir : b.fs.lookup cfg.logDirs = some .dir
  opened : LogsOpened cfg b
  topic : ∀ name n, b.catalog.lookup name = some n → NameOk name ∧ 1 ≤ n ∧ n < 2147483648 ∧
    ∀ p, 0 ≤ p → p < n → (name, p) ∈ b.logs
  part : ∀ x ∈ found cfg b.fs, ∃ n, b.catalog.lookup x.1 = some n ∧ 0 ≤ x.2 ∧ x.2 < n

namespace Restorable

variable {b : Registry} (hr : Restorable cfg b)
include hr

/-- The directories make the catalog. -/
theorem lookup_found (name : Bytes) :
    (foundCatalog (found cfg b.fs)).lookup name = b.catalog.lookup name := by
  apply Option.ext
  intro n
  rw [lookup_foundCatalog]
  -- the last partition of a topic has its directory
  have hlast : ∀ n, b.catalog.lookup name = some n → (name, n - 1) ∈ found cfg b.fs ∧
      wrap32 (maxPart (found cfg b.fs) name + 1) = n := by
    intro n hn
    obtain ⟨hok, hpos, hlt, hlogs⟩ := hr.topic name n hn
    have hmem : (name, n - 1) ∈ found cfg b.fs := by
      have hopen := (hr.opened _ (hlogs (n - 1) (by omega) (by omega))).1
      rw [partitionDir_eq hok] at hopen
      exact mem_found.mpr ⟨_, hopen, readPartition_numbered hok (by omega) (by omega)⟩
    have hle := le_maxPart hmem
    have hge : maxPart (found cfg b.fs) name ≤ n - 1 := by
      refine maxPart_le (by omega) fun p hp => ?_
      obtain ⟨m, hm, -, hlt'⟩ := hr.part _ hp
      rw [hn] at hm
      cases hm
      dsimp only at hlt'
      omega
    exact ⟨hmem, by rw [wrap32_eq (by omega) (by omega)]; omega⟩
  constructor
  · rintro ⟨⟨p, hp⟩, rfl⟩
    obtain ⟨m, hm, -⟩ := hr.part _ hp
    rw [(hlast m hm).2]
    exact hm
  · intro hn
    exact ⟨⟨n - 1, (hlast n hn).1⟩, (hlast n hn).2.symm⟩

/-- **A new broker finds every topic with its count**, and no other. -/
theorem survives : Survives cfg b := by
  have hopen : ∀ x ∈ found cfg b.fs, Opened b.fs (partitionDir cfg x.1 x.2) := by
    intro x hx
    obtain ⟨n, hn, h0, hlt⟩ := hr.part x hx
    exact hr.opened _ ((hr.topic x.1 n hn).2.2.2 x.2 h0 hlt)
  obtain ⟨b', hall, hcat⟩ := openAll_of_opened
    (b := ⟨b.fs, foundCatalog (found cfg b.fs), []⟩) hopen
  refine ⟨b', ?_, knownTopics_eq_iff.mpr fun name => ?_⟩
  · rw [Registry.new, FileSystem.mkdirAll_of_dir hr.dir, Option.bind_some, loadExisting, hall]
  · rw [hcat]
    exact hr.lookup_found name

/-- A topic with a good name and count is registered, or grows. -/
theorem register {name : Bytes} (hname : NameOk name) {partitions : ℤ}
    (hpos : 1 ≤ countFor cfg partitions) (hlt : countFor cfg partitions < 2147483648)
    (hgrow : ∀ n, b.catalog.lookup name = some n → n ≤ countFor cfg partitions) {b' : Registry}
    (h : registerLocked cfg b name partitions = (b', true)) : Restorable cfg b' := by
  have hopens := opens_openAll (b := { b with
    catalog := b.catalog.insert name (countFor cfg partitions) }) hr.opened h
  generalize countFor cfg partitions = n at *
  have hcat := hopens.catalog
  dsimp only at hcat
  -- the partitions of the call
  have hpart : ∀ x : Bytes × ℤ, x ∈ (List.range n.toNat).map (fun p : ℕ => (name, (p : ℤ))) ↔
      x.1 = name ∧ 0 ≤ x.2 ∧ x.2 < n := by
    rintro ⟨t, p⟩
    simp only [List.mem_map, List.mem_range, Prod.mk.injEq]
    constructor
    · rintro ⟨q, hq, rfl, rfl⟩
      exact ⟨rfl, by omega, by omega⟩
    · rintro ⟨rfl, h0, hp⟩
      exact ⟨p.toNat, by omega, rfl, by omega⟩
  refine ⟨(hopens.dirs _).mpr (.inl hr.dir), hopens.opened, ?_, ?_⟩
  · intro name' n' hn'
    rw [hcat, Table.lookup_insert_ite] at hn'
    simp only [hopens.logs, hpart]
    split at hn'
    · next heq =>
      cases hn'
      rw [heq]
      exact ⟨hname, hpos, hlt, fun p h0 hp => .inr ⟨rfl, h0, hp⟩⟩
    · obtain ⟨hok, hpos', hlt', hlogs⟩ := hr.topic name' n' hn'
      exact ⟨hok, hpos', hlt', fun p h0 hp => .inl (hlogs p h0 hp)⟩
  · rintro ⟨t, z⟩ hx
    obtain ⟨d, hdir, hread⟩ := mem_found.mp hx
    rw [hcat]
    dsimp only
    rw [Table.lookup_insert_ite]
    rcases (hopens.dirs _).mp hdir with hold | ⟨x, hxmem, hpre⟩
    · obtain ⟨m, hm, h0, hz⟩ := hr.part _ (mem_found.mpr ⟨d, hold, hread⟩)
      dsimp only at hm h0 hz
      split
      · next heq =>
        have := hgrow m (heq ▸ hm)
        exact ⟨n, rfl, h0, by omega⟩
      · exact ⟨m, hm, h0, hz⟩
    · -- a directory that was made for one of the partitions
      obtain ⟨hxname, h0, hxlt⟩ := (hpart x).mp hxmem
      rw [hxname, partitionDir_eq hname] at hpre
      have hd := hpre.eq_of_length (by simp)
      have hd := List.singleton_inj.mp (List.append_cancel_left hd)
      rw [hd, readPartition_numbered hname h0 (by omega)] at hread
      cases hread
      rw [if_pos rfl]
      exact ⟨n, rfl, h0, hxlt⟩

/-- A topic that was registered anew and that a new broker knows has a good name and at least
one partition. -/
theorem good_of_survives {name : Bytes} {partitions : ℤ} (hnew : b.catalog.lookup name = none)
    {b' : Registry} (h : registerLocked cfg b name partitions = (b', true))
    (hsurv : Survives cfg b') : NameOk name ∧ 1 ≤ countFor cfg partitions := by
  have hopens := opens_openAll (b := { b with
    catalog := b.catalog.insert name (countFor cfg partitions) }) hr.opened h
  generalize countFor cfg partitions = n at *
  obtain ⟨b'', hnewb, hsame⟩ := hsurv
  obtain ⟨fs₁, hmk, -, hcat, -⟩ := new_cases hnewb
  have hlook := knownTopics_eq_iff.mp hsame name
  rw [hcat, hopens.catalog] at hlook
  dsimp only at hlook
  rw [AList.lookup_insert] at hlook
  -- the new broker has read the topic from a directory
  obtain ⟨⟨p, hp⟩, -⟩ := lookup_foundCatalog.mp hlook
  obtain ⟨d, hdir, hread⟩ := mem_found.mp hp
  have hdir' : b'.fs.lookup (cfg.logDirs ++ [d]) = some .dir := by
    rw [FileSystem.lookup_mkdirAll hmk, if_neg] at hdir
    · exact hdir
    · intro hpre
      simpa using hpre.length_le
  refine ⟨nameOk_of_readPartition hread, ?_⟩
  by_contra hcount
  -- without a partition there is no new directory, and the old ones are of other topics
  have hnil : (List.range n.toNat).map (fun p : ℕ => (name, (p : ℤ))) = [] := by
    rw [show n.toNat = 0 by omega]
    rfl
  rcases (hopens.dirs _).mp hdir' with hold | ⟨x, hx, -⟩
  · obtain ⟨m, hm, -⟩ := hr.part _ (mem_found.mpr ⟨d, hold, hread⟩)
    dsimp only at hm
    rw [hnew] at hm
    cases hm
  · rw [hnil] at hx
    cases hx

end Restorable

/-- A broker that was started on a directory without topics. -/
theorem restorable_new {b : Registry} (h : Registry.new cfg fs = some b)
    (hnone : ∀ name, b.catalog.lookup name = none) : Restorable cfg b := by
  obtain ⟨fs₁, hmk, hopened, hcat, hopens⟩ := new_cases h
  have hnil : ∀ x, x ∉ found cfg fs₁ := by
    rintro ⟨t, p⟩ hx
    have hsome := (lookup_foundCatalog (n := wrap32 (maxPart (found cfg fs₁) t + 1))).mpr
      ⟨⟨p, hx⟩, rfl⟩
    rw [← hcat, hnone] at hsome
    cases hsome
  have hdirs : ∀ q, b.fs.lookup q = some .dir ↔ fs₁.lookup q = some .dir := fun q =>
    (hopens.dirs q).trans (or_iff_left fun ⟨x, hx, _⟩ => hnil x hx)
  refine ⟨?_, hopened, fun name n hn => ?_, fun x hx => ?_⟩
  · rw [hdirs, FileSystem.lookup_mkdirAll hmk, if_pos (List.prefix_refl _)]
  · rw [hnone] at hn
    cases hn
  · obtain ⟨d, hdir, hread⟩ := mem_found.mp hx
    exact absurd (mem_found.mpr ⟨d, (hdirs _).mp hdir, hread⟩) (hnil x)

/-! ### Runs of calls -/

/-- One call of a run. -/
def Registry.step (cfg : Config) (b : Registry) (c : Call) : Registry := (b.call cfg c).1

/-- The call returns no error. -/
def Succeeds (cfg : Config) (b : Registry) (c : Call) : Prop := (b.call cfg c).2 = true

instance (b : Registry) (c : Call) : Decidable (Succeeds cfg b c) :=
  inferInstanceAs (Decidable (_ = true))

/-- The count of the call is an `int32`. -/
def Call.Fits : Call → Prop
  | .createTopic _ n | .createPartitions _ n => n < 2147483648
  | .ensureTopic _ => True

instance : DecidablePred Call.Fits
  | .createTopic _ n | .createPartitions _ n => inferInstanceAs (Decidable (n < 2147483648))
  | .ensureTopic _ => inferInstanceAs (Decidable True)

/-- A topic that the call creates has a good name and gets at least one partition. -/
def Good (cfg : Config) (b : Registry) : Call → Prop
  | .createTopic name n => NameOk name ∧ 1 ≤ countFor cfg n
  | .createPartitions _ _ => True
  | .ensureTopic name =>
    b.catalog.lookup name ≠ none ∨ NameOk name ∧ 1 ≤ countFor cfg cfg.numPartitions

instance (b : Registry) : DecidablePred (Good cfg b)
  | .createTopic _ _ => inferInstanceAs (Decidable (_ ∧ _))
  | .createPartitions _ _ => inferInstanceAs (Decidable True)
  | .ensureTopic _ => inferInstanceAs (Decidable (_ ∨ _))

theorem countFor_lt (hcfg : cfg.numPartitions < 2147483648) {n : ℤ} (hn : n < 2147483648) :
    countFor cfg n < 2147483648 := by
  rw [countFor]
  split
  · exact hcfg
  · exact hn

/-- What a successful call does: it finds the topic, lets it grow, or registers it anew. -/
theorem call_cases {b : Registry} {c : Call} (hok : Succeeds cfg b c) :
    (∃ name, c = .ensureTopic name ∧ b.catalog.lookup name ≠ none ∧ b.step cfg c = b) ∨
    (∃ name n cur, c = .createPartitions name n ∧ b.catalog.lookup name = some cur ∧ cur < n ∧
      registerLocked cfg b name n = (b.step cfg c, true)) ∨
    ∃ name n, (c = .createTopic name n ∨ c = .ensureTopic name ∧ n = cfg.numPartitions) ∧
      b.catalog.lookup name = none ∧ registerLocked cfg b name n = (b.step cfg c, true) := by
  have hpair : ∀ {r : Registry × Bool}, r.2 = true → r = (r.1, true) := by
    rintro ⟨b', -⟩ rfl
    rfl
  rw [Succeeds] at hok
  cases c with
  | createTopic name n =>
    simp only [Registry.step, Registry.call, createTopic] at hok ⊢
    cases hlook : b.catalog.lookup name with
    | some _ =>
      rw [hlook] at hok
      cases hok
    | none =>
      rw [hlook] at hok
      exact .inr (.inr ⟨name, n, .inl rfl, hlook, hpair hok⟩)
  | createPartitions name n =>
    simp only [Registry.step, Registry.call, createPartitions] at hok ⊢
    cases hlook : b.catalog.lookup name with
    | none =>
      rw [hlook] at hok
      cases hok
    | some cur =>
      rw [hlook] at hok
      dsimp only at hok ⊢
      split at hok
      · cases hok
      · next hgt =>
        rw [if_neg hgt]
        exact .inr (.inl ⟨name, n, cur, rfl, hlook, not_le.mp hgt, hpair hok⟩)
  | ensureTopic name =>
    simp only [Registry.step, Registry.call, ensureTopic] at hok ⊢
    cases hlook : b.catalog.lookup name with
    | some n => exact .inl ⟨name, rfl, by simp [hlook], rfl⟩
    | none =>
      rw [hlook] at hok
      exact .inr (.inr ⟨name, _, .inr ⟨rfl, rfl⟩, hlook, hpair hok⟩)

theorem Restorable.step {b : Registry} (hr : Restorable cfg b)
    (hcfg : cfg.numPartitions < 2147483648) {c : Call} (hfits : c.Fits)
    (hok : Succeeds cfg b c) (hgood : Good cfg b c) : Restorable cfg (b.step cfg c) := by
  obtain ⟨name, rfl, -, hsame⟩ | ⟨name, n, cur, rfl, hlook, hgt, hreg⟩ |
    ⟨name, n, hc, hlook, hreg⟩ := call_cases hok
  · rwa [hsame]
  · obtain ⟨hname, hpos, -⟩ := hr.topic name cur hlook
    -- the topic exists, so that the new count is not replaced by the default
    have hcount : countFor cfg n = n := if_neg (by omega)
    refine hr.register hname (by omega) (countFor_lt hcfg hfits) (fun m hm => ?_) hreg
    rw [hlook] at hm
    cases hm
    omega
  · have hnew : ∀ m, b.catalog.lookup name = some m → m ≤ countFor cfg n := by
      intro m hm
      rw [hlook] at hm
      cases hm
    rcases hc with rfl | ⟨rfl, rfl⟩
    · exact hr.register hgood.1 hgood.2 (countFor_lt hcfg hfits) hnew hreg
    · obtain ⟨hname, hpos⟩ := hgood.resolve_left fun hne => hne hlook
      exact hr.register hname hpos (countFor_lt hcfg hcfg) hnew hreg

theorem Restorable.good {b : Registry} (hr : Restorable cfg b) {c : Call}
    (hok : Succeeds cfg b c) (hsurv : Survives cfg (b.step cfg c)) : Good cfg b c := by
  obtain ⟨name, rfl, hlook, -⟩ | ⟨name, n, cur, rfl, -⟩ | ⟨name, n, hc, hlook, hreg⟩ :=
    call_cases hok
  · exact .inl hlook
  · trivial
  · have hgood := hr.good_of_survives hlook hreg hsurv
    rcases hc with rfl | ⟨rfl, rfl⟩
    · exact hgood
    · exact .inr hgood

/-- **The catalog survives a restart exactly if every call is good.**  In a run of successful
calls on a broker that was started on a directory without topics, a new broker knows the same
topics with the same counts after every call, if and only if every topic that is created has
a name without a slash that does not start with two underscores, and at least one
partition. -/
theorem catalog_survives (cfg : Config) (hcfg : cfg.numPartitions < 2147483648) (fs : FileSystem)
    (b : Registry) (hnew : Registry.new cfg fs = some b)
    (hnone : ∀ name, b.catalog.lookup name = none) (calls : List Call)
    (hfits : ∀ c ∈ calls, c.Fits) (hok : Along (Registry.step cfg) (Succeeds cfg) b calls) :
    Always (Registry.step cfg) (Survives cfg) b calls ↔
      Along (Registry.step cfg) (Good cfg) b calls := by
  have hfitting : Along (Registry.step cfg) (fun _ c => c.Fits) b calls := along_of_forall hfits
  exact (hok.and hfitting).always_iff (restorable_new hnew hnone) (fun _ hr => hr.survives)
    (fun _ _ hr hd hgood => hr.step hcfg hd.2 hd.1 hgood) fun _ _ hr hd hs => hr.good hd.1 hs

/-- A node whose default is one partition. -/
def oneEach : Config := ⟨[], 1⟩

/-- A broker on an empty disk. -/
def emptyRegistry : Registry := (Registry.new oneEach .empty).get (by decide +kernel)

/-- A topic is created, grows, and another one is made on demand. -/
def goodCalls : List Call :=
  [.createTopic [97] 2, .createPartitions [97] 3, .ensureTopic [97, 45, 49], .ensureTopic [97]]

theorem goodCalls_survive :
    Registry.new oneEach .empty = some emptyRegistry ∧
      Along (Registry.step oneEach) (Succeeds oneEach) emptyRegistry goodCalls ∧
      Always (Registry.step oneEach) (Survives oneEach) emptyRegistry goodCalls :=
  have hnew : Registry.new oneEach .empty = some emptyRegistry :=
    (Option.some_get (by decide +kernel : (Registry.new oneEach .empty).isSome = true)).symm
  have hok : Along (Registry.step oneEach) (Succeeds oneEach) emptyRegistry goodCalls := by
    decide +kernel
  ⟨hnew, hok, (catalog_survives oneEach (by decide) .empty emptyRegistry hnew
    (Table.lookup_of_entries_nil (by decide +kernel)) goodCalls (by decide) hok).mpr
      (by decide +kernel)⟩

/-- **A topic with a slash is another one after a restart.**  The directory of `a-4/b` lies in
one that is read as the partition 4 of a topic `a`; a topic that starts with two underscores
is not read at all. -/
theorem slashed_topic_lost :
    let calls := [Call.createTopic [97, 45, 52, 47, 98] 1, .createTopic [95, 95, 99] 1]
    let b := run (Registry.step oneEach) emptyRegistry calls
    Along (Registry.step oneEach) (Succeeds oneEach) emptyRegistry calls ∧
      b.knownTopics = [([95, 95, 99], 1), ([97, 45, 52, 47, 98], 1)] ∧
      (Registry.new oneEach b.fs).map Registry.knownTopics = some [([97], 5)] := by
  decide +kernel

end Catalog
end Mq
