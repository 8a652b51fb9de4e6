import Mq.Lib.Files
import Mq.Lib.Transition

/-!
# Committed offsets across a restart

The offset store of `internal/group/offsets.go`.  A commit is written to the file
`<root>/<group>/<topic>-<partition>` and remembered in a cache; a new store reads the files
back.  The group and the topic come from the client and are used as they are, so a slash or
dots in them lead elsewhere, and the sign of a negative partition is taken for the dash.

## Main definitions

* `OffsetStore`, `newOffsetStore`, `Host.commit` — the store, and the disk it writes to.
* `OffsetKey.Plain` — the group is one name in a directory, the topic has no slash, and the
  partition is not negative.
* `Survives` — a new store answers as the running one does.

## Main results

* `Restorable.survives` — **files and cache agree**, so a new store finds every commit.
* `offsets_survive` — **commits survive a restart exactly if their keys are plain.**
* `groups_share_a_file` — two group names that are cleaned to one directory.
-/

namespace Mq
namespace Group

open Word Files Transition

/-! ### The store -/

structure OffsetKey where
  group : Bytes
  topic : Bytes
  partition : ℤ
  deriving DecidableEq, Repr

structure Committed where
  offset : ℤ
  metadata : Bytes
  deriving DecidableEq, Repr

def encodeCommit (c : Committed) : Bytes :=
  putInt64 c.offset ++ putInt32 c.metadata.length ++ c.metadata

/-- A length beyond the end of the file gives empty metadata. -/
def decodeCommit (b : Bytes) : Option Committed :=
  if b.length < 12 then none
  else
    let mlen := getUint b 8 4
    if b.length < 12 + mlen then some ⟨getInt64 b 0, []⟩
    else some ⟨getInt64 b 0, slice b 12 mlen⟩

structure OffsetStore where
  /-- The `__offsets` directory. -/
  root : Path
  cache : Table OffsetKey Committed

/-- `__offsets` -/
def offsetsName : Name := ⟨[95, 95, 111, 102, 102, 115, 101, 116, 115], by decide⟩

/-- `.tmp` -/
def tmpSuffix : Bytes := [46, 116, 109, 112]

/-- The name of the temporary file. -/
def tmpName (n : Name) : Name :=
  ⟨n.val ++ tmpSuffix, by
    obtain ⟨c, h⟩ := n
    refine ⟨by simp [tmpSuffix], ?_, ?_, ?_⟩
    · exact fun heq => by simpa [tmpSuffix] using congrArg List.length heq
    · exact fun heq => by simpa [tmpSuffix] using congrArg List.length heq
    · simpa [tmpSuffix] using h.2.2.2⟩

/-- The file of a key. -/
def OffsetKey.file (root : Path) (k : OffsetKey) : Path :=
  join (join root k.group) (numbered k.topic k.partition)

/-- What the store makes of a file in the directory of a group. -/
def readCommit (g : Name) (f : Name × Entry) : Option (OffsetKey × Committed) :=
  match f.2 with
  | .dir => none
  | .file data =>
    if tmpSuffix <:+ f.1.val then none
    else (readNumbered f.1.val).bind fun x =>
      (decodeCommit data).map fun c => (⟨g.val, x.1, wrap32 x.2⟩, c)

/-- The commits found in the directory of one entry of the root. -/
def readGroup (fs : FileSystem) (root : Path) (g : Name × Entry) : List (OffsetKey × Committed) :=
  match g.2 with
  | .dir => (fs.readDir (root ++ [g.1])).filterMap (readCommit g.1)
  | .file _ => []

/-- The commits found below the root, in the order in which they are read. -/
def stored (fs : FileSystem) (root : Path) : List (OffsetKey × Committed) :=
  (fs.readDir root).flatMap (readGroup fs root)

def load (fs : FileSystem) (root : Path) : Table OffsetKey Committed :=
  (∅ : Table OffsetKey Committed).insertAll (stored fs root)

def newOffsetStore (fs : FileSystem) (dataDir : Path) : Option (FileSystem × OffsetStore) :=
  let root := join dataDir offsetsName.val
  (fs.mkdirAll root).map fun fs' => (fs', ⟨root, load fs' root⟩)

/-- Write a temporary file and rename it; the flag is false on an error. -/
def writeAtomic (fs : FileSystem) (path : Path) (data : Bytes) : FileSystem × Bool :=
  match splitPath path with
  | none => (fs, false)
  | some (d, n) =>
    match fs.writeFile d (tmpName n) data with
    | none => (fs, false)
    | some fs₁ =>
      match fs₁.rename d (tmpName n) n with
      | none => (fs₁, false)
      | some fs₂ => (fs₂, true)

def OffsetStore.fetch (s : OffsetStore) (k : OffsetKey) : ℤ × Bytes × Bool :=
  match s.cache.lookup k with
  | none => (-1, [], false)
  | some c => (c.offset, c.metadata, true)

/-- A running store and the file system it writes to. -/
structure Host where
  fs : FileSystem
  store : OffsetStore

/-- Commit an offset; the flag is false on an error. -/
def Host.commit (h : Host) (x : OffsetKey × Committed) : Host × Bool :=
  match h.fs.mkdirAll (join h.store.root x.1.group) with
  | none => (h, false)
  | some fs₁ =>
    match writeAtomic fs₁ (x.1.file h.store.root) (encodeCommit x.2) with
    | (fs₂, false) => (⟨fs₂, h.store⟩, false)
    | (fs₂, true) => (⟨fs₂, h.store.root, h.store.cache.insert x.1 x.2⟩, true)

/-! ### Encoded commits -/

/-- The values fit their fields. -/
def Fits (x : OffsetKey × Committed) : Prop :=
  (-2147483648 ≤ x.1.partition ∧ x.1.partition < 2147483648) ∧
    (-9223372036854775808 ≤ x.2.offset ∧ x.2.offset < 9223372036854775808) ∧
    x.2.metadata.length < 4294967296

instance : DecidablePred Fits := fun _ => inferInstanceAs (Decidable (_ ∧ _))

variable {k : OffsetKey} {fs : FileSystem} {x : OffsetKey × Committed}

theorem decodeCommit_encodeCommit {c : Committed} (h : Fits (k, c)) :
    decodeCommit (encodeCommit c) = some c := by
  obtain ⟨-, hoff, hmeta⟩ := h
  have hlen : (encodeCommit c).length = 12 + c.metadata.length := by
    simp [encodeCommit]
    omega
  have hoffset : getInt64 (encodeCommit c) 0 = c.offset := by
    have hslice : slice (encodeCommit c) 0 8 = putInt64 c.offset := by
      rw [slice, List.drop_zero, encodeCommit, List.append_assoc]
      exact List.take_left' (length_putInt64 _)
    rw [getInt64, getUint, hslice, wrap64_beGet_putInt64, wrap64_eq hoff.1 hoff.2]
  have hmlen : getUint (encodeCommit c) 8 4 = c.metadata.length := by
    have hslice : slice (encodeCommit c) 8 4 = putInt32 c.metadata.length := by
      rw [slice, encodeCommit, List.append_assoc, List.drop_left' (length_putInt64 _)]
      exact List.take_left' (length_putInt32 _)
    rw [getUint, hslice, putInt32, beGet_bePut]
    dsimp only at hmeta
    omega
  have hrest : slice (encodeCommit c) 12 c.metadata.length = c.metadata := by
    rw [slice, encodeCommit, List.drop_left' (by simp), List.take_length]
  rw [decodeCommit, if_neg (by omega)]
  simp only [hoffset, hmlen, hlen, lt_irrefl, if_false, hrest]

/-! ### Plain keys -/

/-- The group is one name in a directory, the topic has no slash, and the partition is not
negative. -/
def OffsetKey.Plain (k : OffsetKey) : Prop := Files.Plain k.group ∧ 47 ∉ k.topic ∧ 0 ≤ k.partition

instance : DecidablePred OffsetKey.Plain := fun _ => inferInstanceAs (Decidable (_ ∧ _))

theorem file_eq (root : Path) (hg : Files.Plain k.group) (ht : 47 ∉ k.topic) :
    k.file root
      = root ++ [⟨k.group, hg⟩] ++ [⟨numbered k.topic k.partition, plain_numbered ht _⟩] := by
  rw [OffsetKey.file, join_plain root hg, join_plain _ (plain_numbered ht _)]

/-- **Plain keys do not share a file.** -/
theorem file_inj {root : Path} {k' : OffsetKey} (hk : k.Plain) (hk' : k'.Plain)
    (hfit : k.partition < 2147483648) (hfit' : k'.partition < 2147483648)
    (h : k.file root = k'.file root) : k = k' := by
  rw [file_eq root hk.1 hk.2.1, file_eq root hk'.1 hk'.2.1] at h
  obtain ⟨hdir, hname⟩ := List.append_inj' h rfl
  have hgroup := congrArg Subtype.val (List.singleton_inj.mp (List.append_cancel_left hdir))
  have hfile := congrArg Subtype.val (List.singleton_inj.mp hname)
  have hread := congrArg readNumbered hfile
  dsimp only at hread hgroup
  rw [readNumbered_numbered _ hk.2.2 (by omega), readNumbered_numbered _ hk'.2.2 (by omega)] at hread
  rcases k with ⟨g, t, p⟩
  rcases k' with ⟨g', t', p'⟩
  simp_all

/-- The name of a file ends in a digit. -/
theorem not_tmpSuffix (topic : Bytes) {z : ℤ} (hz : 0 ≤ z) : ¬ tmpSuffix <:+ numbered topic z := by
  rintro ⟨pre, hpre⟩
  have hlast := congrArg List.getLast? hpre
  have hitoa : itoa z = decimal z.natAbs := if_neg (by omega)
  obtain ⟨x, hx⟩ : ∃ x, (decimal z.natAbs).getLast? = some x :=
    ⟨_, List.getLast?_eq_some_getLast (decimal_ne_nil z.natAbs)⟩
  rw [numbered, hitoa, List.getLast?_append, List.getLast?_append, List.getLast?_cons, hx] at hlast
  have hdigit := (allDigits_decimal _ x (List.mem_of_getLast? hx)).2
  have hxp : (112 : UInt8) = x := by simpa [tmpSuffix] using hlast
  rw [← hxp] at hdigit
  exact absurd hdigit (by decide)

/-! ### What a new store finds -/

theorem mem_stored {root : Path} {c : Committed} :
    (k, c) ∈ stored fs root ↔ ∃ (g f : Name) (data : Bytes) (z : ℤ),
      fs.lookup (root ++ [g] ++ [f]) = some (.file data) ∧ ¬ tmpSuffix <:+ f.val ∧
        readNumbered f.val = some (k.topic, z) ∧ decodeCommit data = some c ∧
        k.group = g.val ∧ k.partition = wrap32 z := by
  simp only [stored, List.mem_flatMap]
  constructor
  · rintro ⟨⟨g, e⟩, -, hmem⟩
    cases e with
    | file data => cases hmem
    | dir =>
      obtain ⟨⟨f, e⟩, hf, hread⟩ := List.mem_filterMap.mp hmem
      rw [FileSystem.mem_readDir] at hf
      cases e with
      | dir => cases hread
      | file data =>
        simp only [readCommit] at hread
        split at hread
        · cases hread
        · next htmp =>
          obtain ⟨⟨t, z⟩, hnum, hmap⟩ := Option.bind_eq_some_iff.mp hread
          obtain ⟨c', hdec, heq⟩ := Option.map_eq_some_iff.mp hmap
          cases heq
          exact ⟨g, f, data, z, hf, htmp, hnum, hdec, rfl, rfl⟩
  · rintro ⟨g, f, data, z, hf, htmp, hnum, hdec, hg, hp⟩
    have hdir : fs.lookup (root ++ [g]) = some .dir := fs.tree _ f (by
      rw [← FileSystem.lookup, hf]
      simp)
    refine ⟨(g, .dir), FileSystem.mem_readDir.mpr hdir, ?_⟩
    refine List.mem_filterMap.mpr ⟨(f, .file data), FileSystem.mem_readDir.mpr hf, ?_⟩
    rcases k with ⟨kg, kt, kp⟩
    dsimp only at hg hp hnum
    simp [readCommit, htmp, hnum, hdec, hg, hp]

theorem join_offsetsName (dataDir : Path) : join dataDir offsetsName.val = dataDir ++ [offsetsName] :=
  join_plain dataDir offsetsName.property

/-- Making the root does not touch what lies below it. -/
theorem newOffsetStore_cases {fs' : FileSystem} {dataDir : Path} {s : OffsetStore}
    (h : newOffsetStore fs dataDir = some (fs', s)) :
    s = ⟨dataDir ++ [offsetsName], load fs' (dataDir ++ [offsetsName])⟩ ∧
      fs'.lookup (dataDir ++ [offsetsName]) = some .dir ∧
      ∀ p ≠ [], fs'.lookup (dataDir ++ [offsetsName] ++ p)
        = fs.lookup (dataDir ++ [offsetsName] ++ p) := by
  obtain ⟨fs₁, hmk, heq⟩ := Option.map_eq_some_iff.mp h
  rw [join_offsetsName] at hmk heq
  cases heq
  refine ⟨rfl, ?_, ?_⟩
  · rw [FileSystem.lookup_mkdirAll hmk, if_pos (List.prefix_refl _)]
  · intro p hp
    rw [FileSystem.lookup_mkdirAll hmk, if_neg]
    intro hpre
    have hlen := hpre.length_le
    rw [List.length_append] at hlen
    exact hp (List.length_eq_zero_iff.mp (by omega))

/-- A new store answers as the running one does. -/
def Survives (dataDir : Path) (h : Host) : Prop :=
  ∃ fs s, newOffsetStore h.fs dataDir = some (fs, s) ∧ ∀ k, s.fetch k = h.store.fetch k

theorem fetch_eq_iff {s s' : OffsetStore} :
    s.fetch k = s'.fetch k ↔ s.cache.lookup k = s'.cache.lookup k := by
  rw [OffsetStore.fetch, OffsetStore.fetch]
  rcases s.cache.lookup k with _ | ⟨o, m⟩ <;> rcases s'.cache.lookup k with _ | ⟨o', m'⟩ <;> simp

/-! ### What a commit writes -/

theorem writeAtomic_true {fs' : FileSystem} {path : Path} {data : Bytes}
    (h : writeAtomic fs path data = (fs', true)) :
    ∃ d n, path = d ++ [n] ∧ ∀ q, fs'.lookup q = if q = path then some (.file data)
      else if q = d ++ [tmpName n] then none else fs.lookup q := by
  rw [writeAtomic] at h
  split at h
  · cases h
  · next d n hsplit =>
    split at h
    · cases h
    · next fs₁ hwrite =>
      split at h
      · cases h
      · next fs₂ hrename =>
        cases h
        have hpath := splitPath_eq_some.mp hsplit
        have hat := FileSystem.lookup_writeFile hwrite
        refine ⟨d, n, hpath, fun q => ?_⟩
        rw [FileSystem.lookup_rename ((hat _).trans (if_pos rfl)) hrename, hat, hpath]
        split_ifs <;> rfl

/-- **The directories after a commit**: those of the group are made, or cannot be. -/
theorem isDir_commit (h : Host) (x : OffsetKey × Committed) (q : Path) :
    (h.commit x).1.fs.lookup q = some .dir ↔ h.fs.lookup q = some .dir ∨
      (h.fs.mkdirAll (join h.store.root x.1.group)).isSome = true ∧
        q <+: join h.store.root x.1.group := by
  have hwrite : ∀ (fs : FileSystem) (path : Path) (data : Bytes),
      (writeAtomic fs path data).1.lookup q = some .dir ↔ fs.lookup q = some .dir := by
    intro fs path data
    unfold writeAtomic
    split
    · rfl
    · split
      · rfl
      · next fs₁ hfile =>
        rw [← FileSystem.isDir_writeFile hfile]
        split
        · rfl
        · next fs₂ hrename => exact FileSystem.isDir_rename hrename q
  rw [Host.commit]
  cases hmk : h.fs.mkdirAll (join h.store.root x.1.group) with
  | none => simp
  | some fs₁ =>
    have hdirs : fs₁.lookup q = some .dir ↔
        h.fs.lookup q = some .dir ∨ q <+: join h.store.root x.1.group := by
      rw [FileSystem.lookup_mkdirAll hmk]
      split <;> simp [*]
    have hfs := hwrite fs₁ (x.1.file h.store.root) (encodeCommit x.2)
    dsimp only
    rw [Option.isSome_some, eq_self, true_and, ← hdirs, ← hfs]
    rcases writeAtomic fs₁ (x.1.file h.store.root) (encodeCommit x.2) with ⟨fs₂, _ | _⟩ <;> rfl

/-- A commit that fails may leave a directory or a temporary file, and nothing in the
cache. -/
theorem commit_false {h : Host} (hfail : (h.commit x).2 = false) :
    (h.commit x).1.store = h.store := by
  unfold Host.commit at hfail ⊢
  split
  · rfl
  · next fs₁ hdir =>
    rw [hdir] at hfail
    dsimp only at hfail ⊢
    split
    · rfl
    · next fs₂ hwrite =>
      rw [hwrite] at hfail
      cases hfail

theorem commit_true {h : Host} (hok : (h.commit x).2 = true) :
    (h.commit x).1.store = ⟨h.store.root, h.store.cache.insert x.1 x.2⟩ ∧
      ∃ d n, x.1.file h.store.root = d ++ [n] ∧ ∀ q, (h.commit x).1.fs.lookup q
        = if q = d ++ [n] then some (.file (encodeCommit x.2))
          else if q = d ++ [tmpName n] then none
          else if q <+: join h.store.root x.1.group then some .dir else h.fs.lookup q := by
  rw [Host.commit] at hok
  split at hok
  · cases hok
  · next fs₁ hmk =>
    split at hok
    · cases hok
    · next fs₂ hwrite =>
      have hcommit : h.commit x
          = (⟨fs₂, h.store.root, h.store.cache.insert x.1 x.2⟩, true) := by
        rw [Host.commit, hmk]
        simp only [hwrite]
      rw [hcommit]
      obtain ⟨d, n, hpath, hat⟩ := writeAtomic_true hwrite
      refine ⟨rfl, d, n, hpath, fun q => ?_⟩
      rw [hat, FileSystem.lookup_mkdirAll hmk, hpath]

/-- A file below the root after a commit that was not there before is the one that the
commit has written. -/
theorem file_after_commit {h : Host} (hok : (h.commit x).2 = true) {q : Path} {data : Bytes}
    (hq : (h.commit x).1.fs.lookup q = some (.file data)) :
    q = x.1.file h.store.root ∧ data = encodeCommit x.2 ∨ h.fs.lookup q = some (.file data) := by
  obtain ⟨-, d, n, hpath, hat⟩ := commit_true hok
  rw [hat] at hq
  split at hq
  · next heq =>
    cases hq
    exact .inl ⟨heq.trans hpath.symm, rfl⟩
  · split at hq
    · cases hq
    · split at hq
      · cases hq
      · exact .inr hq

/-! ### Files and cache -/

/-- Every commit of the cache is in its file, and every file that a new store reads is that
of a commit. -/
structure Restorable (dataDir : Path) (h : Host) : Prop where
  root : h.store.root = dataDir ++ [offsetsName]
  dir : h.fs.lookup h.store.root = some .dir
  file : ∀ k c, h.store.cache.lookup k = some c → k.Plain ∧ Fits (k, c) ∧
    h.fs.lookup (k.file h.store.root) = some (.file (encodeCommit c))
  key : ∀ (g f : Name) (data : Bytes) (x : Bytes × ℤ),
    h.fs.lookup (h.store.root ++ [g] ++ [f]) = some (.file data) → ¬ tmpSuffix <:+ f.val →
      readNumbered f.val = some x → decodeCommit data ≠ none →
      ∃ k, h.store.cache.lookup k ≠ none ∧ k.file h.store.root = h.store.root ++ [g] ++ [f]

namespace Restorable

variable {dataDir : Path} {h : Host} (hr : Restorable dataDir h)
include hr

/-- What a new store reads is what the running one has in its cache. -/
theorem mem_stored_iff {k : OffsetKey} {c : Committed} :
    (k, c) ∈ stored h.fs h.store.root ↔ h.store.cache.lookup k = some c := by
  rw [mem_stored]
  constructor
  · rintro ⟨g, f, data, z, hf, htmp, hnum, hdec, hg, hp⟩
    obtain ⟨k', hk', hpath⟩ := hr.key g f data _ hf htmp hnum (by simp [hdec])
    obtain ⟨c', hc'⟩ := Option.ne_none_iff_exists'.mp hk'
    obtain ⟨hplain, hfits, hfile⟩ := hr.file k' c' hc'
    -- the file is that of `k'`, and reading its name gives `k'` back
    rw [hpath, hf] at hfile
    cases hfile
    rw [decodeCommit_encodeCommit hfits] at hdec
    cases hdec
    rw [file_eq _ hplain.1 hplain.2.1] at hpath
    obtain ⟨hdir, hname⟩ := List.append_inj' hpath rfl
    have hgroup := congrArg Subtype.val (List.singleton_inj.mp (List.append_cancel_left hdir))
    have hfval := congrArg Subtype.val (List.singleton_inj.mp hname)
    have hfit := hfits.1
    dsimp only at hgroup hfval hfit
    rw [← hfval, readNumbered_numbered _ hplain.2.2 (by omega)] at hnum
    obtain ⟨htopic, rfl⟩ := Prod.mk.inj (Option.some.inj hnum)
    rw [wrap32_eq hfit.1 hfit.2] at hp
    have hkk : k = k' := by
      rcases k with ⟨kg, kt, kp⟩
      rcases k' with ⟨kg', kt', kp'⟩
      simp_all
    rwa [hkk]
  · intro hc
    obtain ⟨hplain, hfits, hfile⟩ := hr.file k c hc
    have hfit := hfits.1
    dsimp only at hfit
    rw [file_eq _ hplain.1 hplain.2.1] at hfile
    exact ⟨_, _, _, k.partition, hfile, not_tmpSuffix _ hplain.2.2,
      readNumbered_numbered _ hplain.2.2 (by omega), decodeCommit_encodeCommit hfits, rfl,
      (wrap32_eq hfit.1 hfit.2).symm⟩

/-- **A new store finds every commit**, and nothing else. -/
theorem survives : Survives dataDir h := by
  refine ⟨h.fs, ⟨h.store.root, load h.fs h.store.root⟩, ?_, fun k => fetch_eq_iff.mpr ?_⟩
  · rw [newOffsetStore, join_offsetsName, ← hr.root, FileSystem.mkdirAll_of_dir hr.dir]
    rfl
  · show ((∅ : Table OffsetKey Committed).insertAll (stored h.fs h.store.root)).lookup k = _
    cases hlook : ((∅ : Table OffsetKey Committed).insertAll (stored h.fs h.store.root)).lookup k with
    | some c =>
      rcases Table.mem_of_lookup_insertAll hlook with hmem | hnil
      · exact (hr.mem_stored_iff.mp hmem).symm
      · cases hnil
    | none =>
      cases hc : h.store.cache.lookup k with
      | none => rfl
      | some c =>
        exact absurd hlook (Table.lookup_insertAll_ne_none (.inr ⟨c, hr.mem_stored_iff.mpr hc⟩))

/-- A commit with a plain key keeps files and cache together. -/
theorem commit {x : OffsetKey × Committed} (hfits : Fits x) (hok : (h.commit x).2 = true)
    (hplain : x.1.Plain) : Restorable dataDir (h.commit x).1 := by
  obtain ⟨k, c⟩ := x
  obtain ⟨hstore, d, n, hpath, hat⟩ := commit_true hok
  have hfile := hpath
  rw [file_eq _ hplain.1 hplain.2.1] at hfile
  obtain ⟨rfl, hn⟩ := List.append_inj' hfile rfl
  have hn := congrArg Subtype.val (List.singleton_inj.mp hn)
  rw [join_plain _ hplain.1] at hat
  dsimp only at hn
  -- a file two levels below the root is not one of the directories on the way
  have hdeep : ∀ g f : Name,
      ¬ h.store.root ++ [g] ++ [f] <+: h.store.root ++ [⟨k.group, hplain.1⟩] := by
    intro g f hpre
    have := hpre.length_le
    simp at this
  refine ⟨?_, ?_, ?_, ?_⟩
  · rw [hstore, hr.root]
  · rw [hstore, hat, if_neg (by simp), if_neg (by simp), if_pos (List.prefix_append _ _)]
  · intro k' c' hc'
    rw [hstore] at hc' ⊢
    rw [Table.lookup_insert_ite] at hc'
    by_cases hkk : k' = k
    · rw [if_pos hkk] at hc'
      cases hc'
      rw [hkk]
      exact ⟨hplain, hfits, by rw [hat, if_pos hpath]⟩
    · rw [if_neg hkk] at hc'
      obtain ⟨hplain', hfits', hfile'⟩ := hr.file k' c' hc'
      refine ⟨hplain', hfits', ?_⟩
      have hne : k'.file h.store.root ≠ k.file h.store.root := fun heq =>
        hkk (file_inj hplain' hplain hfits'.1.2 hfits.1.2 heq)
      have htmp : k'.file h.store.root
          ≠ h.store.root ++ [⟨k.group, hplain.1⟩] ++ [tmpName n] := by
        rw [file_eq _ hplain'.1 hplain'.2.1]
        intro heq
        have hname := congrArg Subtype.val (List.singleton_inj.mp (List.append_inj' heq rfl).2)
        exact not_tmpSuffix k'.topic hplain'.2.2 ⟨_, hname.symm⟩
      dsimp only at hpath ⊢
      rw [hat, ← hpath, if_neg hne, if_neg htmp, if_neg, hfile']
      rw [file_eq _ hplain'.1 hplain'.2.1]
      exact hdeep _ _
  · intro g f data y hf htmp hnum hdec
    rw [hstore] at hf ⊢
    rcases file_after_commit hok hf with ⟨heq, -⟩ | hold
    · exact ⟨k, by simp, heq.symm⟩
    · obtain ⟨k', hk', hpath'⟩ := hr.key g f data y hold htmp hnum hdec
      refine ⟨k', ?_, hpath'⟩
      rw [Table.lookup_insert_ite]
      split
      · simp
      · exact hk'

/-- A commit that a new store answers has a plain key. -/
theorem plain_of_survives {x : OffsetKey × Committed} (hfits : Fits x)
    (hok : (h.commit x).2 = true) (hsurv : Survives dataDir (h.commit x).1) : x.1.Plain := by
  obtain ⟨k, c⟩ := x
  obtain ⟨fs, s, hnew, hfetch⟩ := hsurv
  obtain ⟨rfl, -, hbelow⟩ := newOffsetStore_cases hnew
  -- the new store has the key from a file
  have hlook := fetch_eq_iff.mp (hfetch k)
  rw [(commit_true hok).1] at hlook
  dsimp only at hlook
  rw [AList.lookup_insert] at hlook
  have hmem := (Table.mem_of_lookup_insertAll hlook).resolve_right (by simp)
  obtain ⟨g, f, data, z, hf, htmp, hnum, hdec, hg, hp⟩ := mem_stored.mp hmem
  have hgroup : Files.Plain k.group := hg ▸ g.property
  have htopic : 47 ∉ k.topic := fun hslash =>
    f.property.2.2.2 ((readNumbered_isPrefix hnum).subset hslash)
  refine ⟨hgroup, htopic, ?_⟩
  by_contra hneg
  rw [List.append_assoc, hbelow _ (by simp), ← List.append_assoc, ← hr.root] at hf
  rcases file_after_commit hok hf with ⟨heq, -⟩ | hold
  · -- the sign of the partition was taken for the dash
    rw [file_eq _ hgroup htopic] at heq
    have hname := congrArg Subtype.val (List.singleton_inj.mp (List.append_inj' heq rfl).2)
    have hfit := hfits.1
    dsimp only at hname hfit hneg
    rw [hname, readNumbered_numbered_neg _ (by omega) (by omega)] at hnum
    have htt := congrArg (fun y => y.map fun x => x.1.length) hnum
    simp at htt
  · -- it is the file of an older key, whose partition is not negative
    obtain ⟨k', hk', hpath'⟩ := hr.key g f data _ hold htmp hnum (by simp [hdec])
    obtain ⟨c', hc'⟩ := Option.ne_none_iff_exists'.mp hk'
    obtain ⟨hplain', hfits', -⟩ := hr.file k' c' hc'
    rw [file_eq _ hplain'.1 hplain'.2.1] at hpath'
    have hname := congrArg Subtype.val (List.singleton_inj.mp (List.append_inj' hpath' rfl).2)
    have hfit := hfits'.1
    dsimp only at hname hfit hp
    rw [← hname, readNumbered_numbered _ hplain'.2.2 (by omega)] at hnum
    obtain ⟨-, rfl⟩ := Prod.mk.inj (Option.some.inj hnum)
    rw [wrap32_eq hfit.1 hfit.2] at hp
    exact hneg (hp ▸ hplain'.2.2)

end Restorable

/-- A store that was opened on a directory without commits. -/
theorem restorable_new {dataDir : Path} {h : Host}
    (hopen : newOffsetStore fs dataDir = some (h.fs, h.store))
    (hnone : ∀ k, h.store.cache.lookup k = none) : Restorable dataDir h := by
  obtain ⟨hstore, hdir, -⟩ := newOffsetStore_cases hopen
  have hroot : h.store.root = dataDir ++ [offsetsName] := by rw [hstore]
  refine ⟨hroot, by rwa [hroot], fun k c hc => ?_, ?_⟩
  · rw [hnone k] at hc
    cases hc
  · rintro g f data ⟨t, z⟩ hf htmp hnum hdec
    obtain ⟨c, hc⟩ := Option.ne_none_iff_exists'.mp hdec
    have hmem : (⟨g.val, t, wrap32 z⟩, c) ∈ stored h.fs (dataDir ++ [offsetsName]) :=
      mem_stored.mpr ⟨g, f, data, z, hroot ▸ hf, htmp, hnum, hc, rfl, rfl⟩
    have hne := Table.lookup_insertAll_ne_none (t := ∅) (.inr ⟨c, hmem⟩)
    have hnone' := hnone ⟨g.val, t, wrap32 z⟩
    rw [hstore] at hnone'
    exact absurd hnone' hne

/-! ### Runs of commits -/

/-- One commit of a run. -/
def Host.step (h : Host) (x : OffsetKey × Committed) : Host := (h.commit x).1

/-- The commit returns no error. -/
def Succeeds (h : Host) (x : OffsetKey × Committed) : Prop := (h.commit x).2 = true

instance (h : Host) (x : OffsetKey × Committed) : Decidable (Succeeds h x) :=
  inferInstanceAs (Decidable (_ = true))

/-- The last commit for a key. -/
def lastCommit (k : OffsetKey) : List (OffsetKey × Committed) → Option Committed
  | [] => none
  | x :: xs => (lastCommit k xs).or (if x.1 = k then some x.2 else none)

/-- The commits of a run that succeed. -/
def accepted : Host → List (OffsetKey × Committed) → List (OffsetKey × Committed)
  | _, [] => []
  | h, x :: xs => if (h.commit x).2 then x :: accepted (h.step x) xs else accepted (h.step x) xs

theorem accepted_of_succeeds {h : Host} {calls : List (OffsetKey × Committed)}
    (hok : Along Host.step Succeeds h calls) : accepted h calls = calls := by
  induction calls generalizing h with
  | nil => rfl
  | cons x xs ih => rw [accepted, if_pos (show (h.commit x).2 = true from hok.1), ih hok.2]

/-- **The cache has the last commit of each key that succeeded.** -/
theorem lookup_run_accepted (h : Host) (calls : List (OffsetKey × Committed)) (k : OffsetKey) :
    (run Host.step h calls).store.cache.lookup k
      = (lastCommit k (accepted h calls)).or (h.store.cache.lookup k) := by
  induction calls generalizing h with
  | nil => rfl
  | cons x xs ih =>
    rw [run_cons, ih, accepted]
    cases hok : (h.commit x).2 with
    | true =>
      rw [if_pos rfl, lastCommit, Option.or_assoc, Host.step, (commit_true hok).1]
      dsimp only
      rw [Table.lookup_insert_ite]
      by_cases hk : x.1 = k
      · simp [hk]
      · rw [if_neg fun heq => hk heq.symm, if_neg hk, Option.none_or]
    | false =>
      have hstore : (h.step x).store = h.store := commit_false hok
      rw [if_neg (by simp), hstore]

/-- The cache has the last commit of each key. -/
theorem lookup_run {h : Host} {calls : List (OffsetKey × Committed)}
    (hok : Along Host.step Succeeds h calls) (k : OffsetKey) :
    (run Host.step h calls).store.cache.lookup k
      = (lastCommit k calls).or (h.store.cache.lookup k) := by
  rw [lookup_run_accepted, accepted_of_succeeds hok]

/-- **Commits survive a restart exactly if their keys are plain.**  In a run of successful
commits on a store that was opened on a directory without commits, the store has the last
commit of each key; a new store answers for every key as the running one does, after every
commit, and distinct keys have distinct files, if and only if all keys are plain. -/
theorem offsets_survive (fs : FileSystem) (dataDir : Path) (h : Host)
    (hopen : newOffsetStore fs dataDir = some (h.fs, h.store))
    (hnone : ∀ k, h.store.cache.lookup k = none) (calls : List (OffsetKey × Committed))
    (hfits : ∀ x ∈ calls, Fits x) (hok : Along Host.step Succeeds h calls) :
    (∀ k, (run Host.step h calls).store.cache.lookup k = lastCommit k calls) ∧
      ((Always Host.step (Survives dataDir) h calls ∧
          ∀ x ∈ calls, ∀ y ∈ calls, x.1.file h.store.root = y.1.file h.store.root → x.1 = y.1) ↔
        ∀ x ∈ calls, x.1.Plain) := by
  refine ⟨fun k => by rw [lookup_run hok, hnone, Option.or_none], ?_⟩
  have hfitting : Along Host.step (fun _ x => Fits x) h calls := along_of_forall hfits
  have hdomain := hok.and hfitting
  have hiff := hdomain.always_iff (C := fun _ x => x.1.Plain) (restorable_new hopen hnone)
    (fun _ hr => hr.survives) (fun _ _ hr hd hp => hr.commit hd.2 hd.1 hp)
    fun _ _ hr hd hs => hr.plain_of_survives hd.2 hd.1 hs
  constructor
  · rintro ⟨hsurv, -⟩
    exact (hiff.mp hsurv).forall_of_action fun _ _ hp => hp
  · intro hplain
    refine ⟨hiff.mpr (along_of_forall hplain), fun x hx y hy heq => ?_⟩
    exact file_inj (hplain x hx) (hplain y hy) (hfits x hx).1.2 (hfits y hy).1.2 heq

/-- A store on an empty disk. -/
def emptyHost : Host :=
  let opened := (newOffsetStore .empty []).get (by decide +kernel)
  ⟨opened.1, opened.2⟩

/-- The group `a` commits twice for the topic `t-1`, and the group `b` once. -/
def plainCommits : List (OffsetKey × Committed) :=
  [(⟨[97], [116, 45, 49], 0⟩, ⟨5, [120]⟩), (⟨[98], [116], 10⟩, ⟨7, []⟩),
    (⟨[97], [116, 45, 49], 0⟩, ⟨6, []⟩)]

theorem plainCommits_survive :
    newOffsetStore .empty [] = some (emptyHost.fs, emptyHost.store) ∧
      Along Host.step Succeeds emptyHost plainCommits ∧
      Always Host.step (Survives []) emptyHost plainCommits :=
  have hopen : newOffsetStore .empty [] = some (emptyHost.fs, emptyHost.store) :=
    (Option.some_get (by decide +kernel : (newOffsetStore .empty []).isSome = true)).symm
  have hok : Along Host.step Succeeds emptyHost plainCommits := by decide +kernel
  ⟨hopen, hok, ((offsets_survive .empty [] emptyHost hopen
    (Table.lookup_of_entries_nil (by decide +kernel)) plainCommits (by decide +kernel) hok).2.mpr
      (by decide +kernel)).1⟩

/-- The groups `a` and `./a` commit for the same partition. -/
def aliasedCommits : List (OffsetKey × Committed) :=
  [(⟨[97], [116], 0⟩, ⟨5, []⟩), (⟨[46, 47, 97], [116], 0⟩, ⟨7, []⟩)]

/-- **Two groups share a file.**  Both commits succeed, and after a restart the group `a`
finds the offset of the group `./a`, which finds none. -/
theorem groups_share_a_file :
    Along Host.step Succeeds emptyHost aliasedCommits ∧
      let h := run Host.step emptyHost aliasedCommits
      (∀ x ∈ aliasedCommits, h.store.fetch x.1 = (x.2.offset, x.2.metadata, true)) ∧
        (newOffsetStore h.fs []).map (fun o => aliasedCommits.map fun x => o.2.fetch x.1)
          = some [(7, [], true), (-1, [], false)] := by
  decide +kernel

end Group
end Mq
