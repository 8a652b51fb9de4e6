import Mq.Group.Offsets

/-!
# Commits that are interrupted

A process may die in the middle of a commit, and a new store is opened on what it has left on
disk: some of the directories, a temporary file with the first bytes of the commit, or the renamed
file of a commit that was never acknowledged.  A new store passes over temporary files, so that
an interrupted commit has happened or has not.

The page cache outlives the process: nothing that was written is lost, and calls take effect in
their order.

## Main definitions

* `CrashPoint`, `Host.left` — where a commit is interrupted, and what that leaves on disk.
* `StoreEvent`, `Host.advance` — commits that run through, and commits that are interrupted, after
  which a new store is opened.

## Main results

* `Restorable.of_onlyScraps` — directories and temporary files do not matter.
* `offsets_survive_crashes` — **however often commits are interrupted, a key has the value of one
  of its commits, and no later commit of it was acknowledged.**
-/

namespace Mq
namespace Group

open Word Files Transition

/-- Where a commit is when the process dies. -/
inductive CrashPoint
  /-- Some of the directories were made. -/
  | mkdir (i : ℕ)
  /-- Some of the bytes of the temporary file were written. -/
  | write (n : ℕ)
  /-- The file was renamed, and nobody was told. -/
  | renamed
  deriving DecidableEq, Repr

/-- What an interrupted commit leaves on disk. -/
def Host.left (h : Host) (x : OffsetKey × Committed) : CrashPoint → FileSystem
  | .mkdir i => (h.fs.mkdirAll ((join h.store.root x.1.group).take i)).getD h.fs
  | .write n =>
    match h.fs.mkdirAll (join h.store.root x.1.group) with
    | none => h.fs
    | some fs₁ =>
      match splitPath (x.1.file h.store.root) with
      | none => fs₁
      | some (d, f) => (fs₁.writeFile d (tmpName f) ((encodeCommit x.2).take n)).getD fs₁
  | .renamed => (h.commit x).1.fs

inductive StoreEvent
  /-- A commit returns, with or without an error. -/
  | commit (x : OffsetKey × Committed)
  /-- The process dies in a commit, and a new store is opened. -/
  | crash (x : OffsetKey × Committed) (point : CrashPoint)
  deriving DecidableEq, Repr

def StoreEvent.call : StoreEvent → OffsetKey × Committed
  | .commit x | .crash x _ => x

def Host.advance (dataDir : Path) (h : Host) : StoreEvent → Host
  | .commit x => (h.commit x).1
  | .crash x point =>
    match newOffsetStore (h.left x point) dataDir with
    | some (fs, s) => ⟨fs, s⟩
    | none => h

/-- The client was told that its commit for the key succeeded. -/
def Acknowledges (k : OffsetKey) (h : Host) : StoreEvent → Prop
  | .commit x => x.1 = k ∧ (h.commit x).2 = true
  | .crash _ _ => False

/-! ### What may be left over -/

/-- Below the root, only directories and temporary files differ. -/
structure OnlyScraps (root : Path) (fs fs' : FileSystem) : Prop where
  dir : fs.lookup root = some .dir → fs'.lookup root = some .dir
  file : ∀ (g f : Name) (data : Bytes), ¬ tmpSuffix <:+ f.val →
    (fs'.lookup (root ++ [g] ++ [f]) = some (.file data) ↔
      fs.lookup (root ++ [g] ++ [f]) = some (.file data))

variable {root dataDir : Path} {fs fs' fs'' : FileSystem} {h : Host}

theorem OnlyScraps.refl (fs : FileSystem) : OnlyScraps root fs fs :=
  ⟨id, fun _ _ _ _ => Iff.rfl⟩

theorem OnlyScraps.trans (h₁ : OnlyScraps root fs fs') (h₂ : OnlyScraps root fs' fs'') :
    OnlyScraps root fs fs'' :=
  ⟨fun hd => h₂.dir (h₁.dir hd), fun g f data htmp =>
    (h₂.file g f data htmp).trans (h₁.file g f data htmp)⟩

theorem onlyScraps_mkdirAll {p : Path} {g : Name} (hp : p <+: root ++ [g])
    (h : fs.mkdirAll p = some fs') : OnlyScraps root fs fs' := by
  refine ⟨fun hd => ?_, fun g' f data _ => ?_⟩
  · rw [FileSystem.lookup_mkdirAll h]
    split
    · rfl
    · exact hd
  · rw [FileSystem.lookup_mkdirAll h, if_neg]
    intro hpre
    have hlen := (hpre.trans hp).length_le
    simp at hlen

theorem onlyScraps_writeFile {d : Path} {f : Name} {data : Bytes}
    (h : fs.writeFile d (tmpName f) data = some fs') : OnlyScraps root fs fs' := by
  refine ⟨(FileSystem.isDir_writeFile h root).mpr, fun g f' data' htmp => ?_⟩
  rw [FileSystem.lookup_writeFile h, if_neg]
  intro heq
  have hname := congrArg Subtype.val (List.singleton_inj.mp (List.append_inj' heq rfl).2)
  exact htmp ⟨f.val, hname.symm⟩

/-- **Directories and temporary files do not matter.** -/
theorem Restorable.of_onlyScraps (hr : Restorable dataDir h)
    (hs : OnlyScraps h.store.root h.fs fs') : Restorable dataDir ⟨fs', h.store⟩ := by
  refine ⟨hr.root, hs.dir hr.dir, fun k c hc => ?_, fun g f data x hf htmp hnum hdec => ?_⟩
  · obtain ⟨hplain, hfits, hfile⟩ := hr.file k c hc
    refine ⟨hplain, hfits, ?_⟩
    rw [file_eq _ hplain.1 hplain.2.1] at hfile ⊢
    exact (hs.file _ _ _ (not_tmpSuffix _ hplain.2.2)).mpr hfile
  · exact hr.key g f data x ((hs.file g f data htmp).mp hf) htmp hnum hdec

/-- A new store on the same disk. -/
theorem Restorable.reopen (hr : Restorable dataDir h) :
    ∃ s, newOffsetStore h.fs dataDir = some (h.fs, s) ∧ Restorable dataDir ⟨h.fs, s⟩ ∧
      ∀ k, s.cache.lookup k = h.store.cache.lookup k := by
  have hnew : newOffsetStore h.fs dataDir
      = some (h.fs, ⟨h.store.root, load h.fs h.store.root⟩) := by
    rw [newOffsetStore, join_offsetsName, ← hr.root, FileSystem.mkdirAll_of_dir hr.dir]
    rfl
  obtain ⟨fs, s, hnew', hfetch⟩ := hr.survives
  cases hnew.symm.trans hnew'
  have hlook : ∀ k, (load h.fs h.store.root).lookup k = h.store.cache.lookup k := fun k =>
    fetch_eq_iff.mp (hfetch k)
  refine ⟨_, hnew, ⟨hr.root, hr.dir, fun k c hc => hr.file k c ((hlook k).symm.trans hc),
    fun g f data x hf htmp hnum hdec => ?_⟩, hlook⟩
  obtain ⟨k, hk, hpath⟩ := hr.key g f data x hf htmp hnum hdec
  exact ⟨k, by rw [hlook]; exact hk, hpath⟩

/-! ### One commit -/

variable {x : OffsetKey × Committed}

/-- A commit that fails leaves scraps. -/
theorem onlyScraps_commit (hplain : x.1.Plain) (hfail : (h.commit x).2 = false) :
    OnlyScraps h.store.root h.fs (h.commit x).1.fs := by
  unfold Host.commit at hfail ⊢
  split
  · exact .refl _
  next fs₁ hmk =>
  rw [hmk] at hfail
  dsimp only at hfail ⊢
  rw [join_plain _ hplain.1] at hmk
  have hdirs : OnlyScraps h.store.root h.fs fs₁ := onlyScraps_mkdirAll List.prefix_rfl hmk
  split
  swap
  · next hwrite =>
    rw [hwrite] at hfail
    cases hfail
  next fs₂ hwrite =>
  refine hdirs.trans ?_
  rw [writeAtomic] at hwrite
  split at hwrite
  · cases hwrite
    exact .refl _
  · split at hwrite
    · cases hwrite
      exact .refl _
    · next fs₃ htmp =>
      split at hwrite
      · cases hwrite
        exact onlyScraps_writeFile htmp
      · cases hwrite

/-- **An interrupted commit has happened or has not.** -/
theorem left_cases (hplain : x.1.Plain) (point : CrashPoint) :
    OnlyScraps h.store.root h.fs (h.left x point) ∨
      (h.commit x).2 = true ∧ h.left x point = (h.commit x).1.fs := by
  unfold Host.left
  cases point with
  | mkdir i =>
    refine .inl ?_
    dsimp only
    rw [join_plain _ hplain.1]
    cases hmk : h.fs.mkdirAll ((h.store.root ++ [(⟨x.1.group, hplain.1⟩ : Name)]).take i) with
    | none => exact .refl _
    | some fs₁ => exact onlyScraps_mkdirAll (List.take_prefix _ _) hmk
  | write n =>
    refine .inl ?_
    dsimp only
    split
    · exact .refl _
    next fs₁ hmk =>
    rw [join_plain _ hplain.1] at hmk
    refine (onlyScraps_mkdirAll List.prefix_rfl hmk).trans ?_
    split
    · exact .refl _
    next d f hsplit =>
    cases hwrite : fs₁.writeFile d (tmpName f) ((encodeCommit x.2).take n) with
    | none => exact .refl _
    | some fs₂ => exact onlyScraps_writeFile hwrite
  | renamed =>
    cases hok : (h.commit x).2 with
    | true => exact .inr ⟨rfl, rfl⟩
    | false => exact .inl (onlyScraps_commit hplain hok)

/-- What an event does to the cache. -/
theorem Restorable.advance (hr : Restorable dataDir h) {e : StoreEvent} (hplain : e.call.1.Plain)
    (hfits : Fits e.call) :
    Restorable dataDir (h.advance dataDir e) ∧
    ((∀ k, (h.advance dataDir e).store.cache.lookup k = h.store.cache.lookup k) ∧
        (∀ k, ¬ Acknowledges k h e) ∨
      (∀ k, (h.advance dataDir e).store.cache.lookup k
        = if k = e.call.1 then some e.call.2 else h.store.cache.lookup k) ∧
        (h.commit e.call).2 = true) := by
  unfold Host.advance Acknowledges
  cases e with
  | commit x =>
    dsimp only [StoreEvent.call] at hplain hfits ⊢
    cases hok : (h.commit x).2 with
    | true =>
      refine ⟨hr.commit hfits hok hplain, .inr ⟨fun k => ?_, rfl⟩⟩
      rw [(commit_true hok).1]
      exact Table.lookup_insert_ite ..
    | false =>
      have hstore := commit_false hok
      refine ⟨?_, .inl ⟨fun k => by rw [hstore], fun k hack => by cases hack.2⟩⟩
      have hscraps := hr.of_onlyScraps (onlyScraps_commit hplain hok)
      rwa [← hstore] at hscraps
  | crash x point =>
    dsimp only [StoreEvent.call] at hplain hfits ⊢
    rcases left_cases (h := h) hplain point with hscraps | ⟨hok, hleft⟩
    · obtain ⟨s, hnew, hr', hlook⟩ := (hr.of_onlyScraps hscraps).reopen
      dsimp only at hnew
      rw [hnew]
      exact ⟨hr', .inl ⟨hlook, fun _ => id⟩⟩
    · obtain ⟨s, hnew, hr', hlook⟩ := (hr.commit hfits hok hplain).reopen
      rw [hleft, hnew]
      refine ⟨hr', .inr ⟨fun k => ?_, hok⟩⟩
      rw [hlook, (commit_true hok).1]
      exact Table.lookup_insert_ite ..

/-! ### Runs -/

/-- The value of a key, and the commit that it is from, if it is from one of the run. -/
def Explained (dataDir : Path) (h : Host) (es : List StoreEvent) (k : OffsetKey) : Prop :=
  ((run (Host.advance dataDir) h es).store.cache.lookup k = h.store.cache.lookup k ∧
    Along (Host.advance dataDir) (fun h e => ¬ Acknowledges k h e) h es) ∨
  ∃ es₁ e es₂, es = es₁ ++ e :: es₂ ∧ e.call.1 = k ∧
    ((run (Host.advance dataDir) h es₁).commit e.call).2 = true ∧
    (run (Host.advance dataDir) h es).store.cache.lookup k = some e.call.2 ∧
    Along (Host.advance dataDir) (fun h e => ¬ Acknowledges k h e)
      (run (Host.advance dataDir) h (es₁ ++ [e])) es₂

/-- An event that leaves the key alone. -/
theorem Explained.snoc {es : List StoreEvent} {e : StoreEvent} {k : OffsetKey}
    (hex : Explained dataDir h es k)
    (hsame : ((run (Host.advance dataDir) h es).advance dataDir e).store.cache.lookup k
      = (run (Host.advance dataDir) h es).store.cache.lookup k)
    (hack : ¬ Acknowledges k (run (Host.advance dataDir) h es) e) :
    Explained dataDir h (es ++ [e]) k := by
  unfold Explained
  rw [run_snoc, hsame]
  rcases hex with ⟨hold, halong⟩ | ⟨es₁, e₁, es₂, heq, hkey, hok, hvalue, halong⟩
  · exact .inl ⟨hold, along_append.mpr ⟨halong, hack, trivial⟩⟩
  · refine .inr ⟨es₁, e₁, es₂ ++ [e], by rw [heq]; simp, hkey, hok, hvalue,
      along_append.mpr ⟨halong, ?_, trivial⟩⟩
    rwa [← run_append, List.append_assoc, List.singleton_append, ← heq]

/-- **Interrupted commits.**  A store is opened on a directory without commits.  However many
commits are made, fail or are interrupted, and however often a new store is opened, a store that
is opened now answers as the running one does; and the value of a key is that of one of the
commits for it, whole, and no later commit for the key was acknowledged. -/
theorem offsets_survive_crashes (fs : FileSystem) (dataDir : Path) (h : Host)
    (hopen : newOffsetStore fs dataDir = some (h.fs, h.store))
    (hnone : ∀ k, h.store.cache.lookup k = none) (es : List StoreEvent)
    (hes : ∀ e ∈ es, e.call.1.Plain ∧ Fits e.call) :
    Survives dataDir (run (Host.advance dataDir) h es) ∧ ∀ k, Explained dataDir h es k := by
  suffices hboth : Restorable dataDir (run (Host.advance dataDir) h es) ∧
      ∀ k, Explained dataDir h es k from ⟨hboth.1.survives, hboth.2⟩
  induction es using List.reverseRecOn with
  | nil => exact ⟨restorable_new hopen hnone, fun k => .inl ⟨rfl, trivial⟩⟩
  | append_singleton es e ih =>
    obtain ⟨hr, hex⟩ := ih fun e' he' => hes e' (List.mem_append_left _ he')
    obtain ⟨hplain, hfits⟩ := hes e (List.mem_append_right _ (List.mem_singleton_self e))
    obtain ⟨hr', heffect⟩ := hr.advance hplain hfits
    rw [run_snoc]
    refine ⟨hr', fun k => ?_⟩
    rcases heffect with ⟨hsame, hack⟩ | ⟨hwritten, hok⟩
    · exact (hex k).snoc (hsame k) (hack k)
    · by_cases hk : k = e.call.1
      · refine .inr ⟨es, e, [], rfl, hk.symm, hok, ?_, trivial⟩
        rw [run_snoc, hwritten, if_pos hk]
      · refine (hex k).snoc ((hwritten k).trans (if_neg hk)) fun hack => ?_
        cases e with
        | commit x => exact hk hack.1.symm
        | crash x point => exact hack

/-- A commit is made, the next one is interrupted while its temporary file is written, and the one
after that when it has been renamed. -/
def interruptedCommits : List StoreEvent :=
  [.commit (⟨[97], [116], 0⟩, ⟨5, [120]⟩), .crash (⟨[97], [116], 0⟩, ⟨6, []⟩) (.write 9),
    .crash (⟨[97], [116], 1⟩, ⟨7, []⟩) .renamed]

/-- **Witness**: the second commit has not happened, and the third has. -/
theorem offsets_survive_crashes_interrupted :
    (run (Host.advance []) emptyHost interruptedCommits).store.fetch ⟨[97], [116], 0⟩
      = (5, [120], true) ∧
    (run (Host.advance []) emptyHost interruptedCommits).store.fetch ⟨[97], [116], 1⟩
      = (7, [], true) ∧
    Survives [] (run (Host.advance []) emptyHost interruptedCommits) ∧
    ∀ k, Explained [] emptyHost interruptedCommits k :=
  have hopen : newOffsetStore .empty [] = some (emptyHost.fs, emptyHost.store) :=
    (Option.some_get (by decide +kernel : (newOffsetStore .empty []).isSome = true)).symm
  ⟨by decide +kernel, by decide +kernel, offsets_survive_crashes .empty [] emptyHost hopen
    (Table.lookup_of_entries_nil (by decide +kernel)) interruptedCommits (by decide +kernel)⟩

end Group
end Mq
