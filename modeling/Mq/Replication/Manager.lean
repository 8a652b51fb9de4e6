import Mathlib.Data.List.Flatten
import Mq.Lib.Table
import Mq.Lib.Transition
import Mq.Lib.Word

/-!
# Starting and stopping fetchers

`Manager` of `internal/replication`: one fetcher for each followed partition, started by
`EnsureFollowing` and ended by `StopFollowing` and `Close`.  A fetcher is a goroutine with two
channels.  Closing `stop` asks it to end, and it closes `done` when it does.  A channel that is
closed twice ends the process.

The calls take the lock only to change the table of fetchers.  What they take out of it they
shut down after the lock is released, one fetcher after the other, so that any number of calls can
be under way, and a partition can be followed again before the old fetcher has ended.

## Main definitions

* `Fetcher`, `Fetcher.step` — the goroutine of a fetcher.
* `Manager`, `Manager.Action`, `Manager.step` — the manager with the calls that are under way.
* `Manager.Sound` — every fetcher that runs is in the table or in the hands of exactly one call.

## Main results

* `Manager.sound_run` — **in every interleaving no channel is closed twice and no fetcher is
  lost**: one that runs is in the table under its partition, or exactly one call under way is
  about to stop it or waits for it.
* `Manager.exited_of_five` — **a fetcher that was asked to stop ends within five of its steps**,
  so a call that waits for it returns.
* `Manager.fetchers_accounted` — both, and that nothing runs or starts again once a closed
  manager has no call under way.
-/

namespace Mq
namespace Replication

open Word Transition

/-! ### The goroutine of a fetcher -/

/-- Where the goroutine stands in `run` and `session`. -/
inductive Stage
  /-- The head of the loop of `run`. -/
  | top
  /-- Asking who leads the partition. -/
  | resolve
  /-- Connecting to the leader. -/
  | dial
  /-- The head of the loop of `session`. -/
  | check
  /-- A fetch is under way, or its records are being appended. -/
  | exchange
  /-- Waiting before the next try. -/
  | sleep
  /-- The goroutine has returned and `done` is closed. -/
  | exited
  deriving DecidableEq, Repr

/-- A fetcher; `stop` says that its channel is closed. -/
structure Fetcher where
  key : Bytes × ℤ
  stage : Stage
  stop : Bool
  deriving DecidableEq, Repr

/-- The next stage of a goroutine.  `stop` says that it was asked to end, and `ok` how the step
turns out: another node leads, the connection stands, the leader is still the same, the exchange
succeeds.  While sleeping it says that the timer fires; where the timer and `stop` are both ready
either may be taken. -/
def Stage.next (stop ok : Bool) : Stage → Stage
  | .top => if stop then .exited else .resolve
  | .resolve => if ok then .dial else .sleep
  | .dial => if ok then .check else .sleep
  | .check => if stop then .sleep else if ok then .exchange else .sleep
  | .exchange => if ok then .check else .sleep
  | .sleep => if ok then .top else if stop then .exited else .sleep
  | .exited => .exited

/-- Only a goroutine that was asked to stop ends. -/
theorem Stage.next_eq_exited {stage : Stage} {stop ok : Bool} (h : stage.next stop ok = .exited) :
    stage = .exited ∨ stop = true := by
  cases stage <;> cases stop <;> cases ok <;> revert h <;> decide

/-- The most steps that a goroutine takes once it is asked to stop. -/
def Stage.stepsLeft : Stage → ℕ
  | .exited => 0
  | .top => 1
  | .sleep => 2
  | .check => 3
  | .exchange | .dial => 4
  | .resolve => 5

theorem Stage.stepsLeft_next (stage : Stage) (ok : Bool) :
    (stage.next true ok).stepsLeft ≤ stage.stepsLeft - 1 := by
  cases stage <;> cases ok <;> decide

namespace Fetcher

def step (f : Fetcher) (ok : Bool) : Fetcher := { f with stage := f.stage.next f.stop ok }

theorem step_of_exited {f : Fetcher} (h : f.stage = .exited) (ok : Bool) : f.step ok = f := by
  cases f
  cases h
  rfl

end Fetcher

/-! ### The manager -/

/-- A call that has released the lock and shuts fetchers down, one after the other. -/
structure Shutdown where
  /-- The one whose end it waits for. -/
  current : Option ℕ
  /-- Those whose `stop` it has still to close. -/
  todo : List ℕ
  deriving DecidableEq, Repr

/-- The fetchers in the hands of the call. -/
def Shutdown.held (c : Shutdown) : List ℕ := c.current.toList ++ c.todo

/-- The manager, with every fetcher that was ever started and every call that shuts some
down. -/
structure Manager where
  fetchers : Table (Bytes × ℤ) ℕ
  closed : Bool
  started : List Fetcher
  calls : List Shutdown
  /-- A channel was closed twice. -/
  panicked : Bool

namespace Manager

/-- `NewManager` -/
def new : Manager := ⟨∅, false, [], [], false⟩

inductive Action
  | ensureFollowing (key : Bytes × ℤ)
  | stopFollowing (key : Bytes × ℤ)
  /-- `Close`, with the fetchers in the order in which the table is run through. -/
  | close (fs : List ℕ)
  /-- A call that shuts fetchers down goes on. -/
  | advance (i : ℕ)
  /-- A fetcher goes on. -/
  | fetch (i : ℕ) (ok : Bool)
  deriving DecidableEq, Repr

def ensureFollowing (m : Manager) (key : Bytes × ℤ) : Manager :=
  if m.closed then m
  else
    match m.fetchers.lookup key with
    | some _ => m
    | none =>
      { m with
        fetchers := m.fetchers.insert key m.started.length
        started := m.started ++ [⟨key, .top, false⟩] }

def stopFollowing (m : Manager) (key : Bytes × ℤ) : Manager :=
  match m.fetchers.lookup key with
  | none => m
  | some i =>
    { m with fetchers := m.fetchers.erase key, calls := m.calls ++ [⟨none, [i]⟩] }

/-- The fetchers of the table. -/
def registered (m : Manager) : List ℕ := m.fetchers.entries.map (·.2)

/-- `Close` up to the release of the lock. -/
def close (m : Manager) (fs : List ℕ) : Manager :=
  if fs.Perm m.registered then
    { m with fetchers := ∅, closed := true, calls := m.calls ++ [⟨none, fs⟩] }
  else m

/-- `shutdown` closes the fetcher's `stop` and waits for `done`. -/
def advance (m : Manager) (i : ℕ) : Manager :=
  match m.calls[i]? with
  | none => m
  | some ⟨some f, todo⟩ =>
    if (m.started[f]?).all (·.stage = .exited) then
      { m with calls := m.calls.set i ⟨none, todo⟩ }
    else m
  | some ⟨none, []⟩ => m
  | some ⟨none, f :: todo⟩ =>
    { m with
      started := m.started.modify f ({ · with stop := true })
      calls := m.calls.set i ⟨some f, todo⟩
      panicked := m.panicked || (m.started[f]?).any (·.stop) }

def fetch (m : Manager) (i : ℕ) (ok : Bool) : Manager :=
  { m with started := m.started.modify i (·.step ok) }

def step (m : Manager) : Action → Manager
  | .ensureFollowing key => m.ensureFollowing key
  | .stopFollowing key => m.stopFollowing key
  | .close fs => m.close fs
  | .advance i => m.advance i
  | .fetch i ok => m.fetch i ok

/-! ### Who looks after a fetcher -/

/-- The fetchers that calls have still to stop. -/
def doomed (m : Manager) : List ℕ := m.calls.flatMap (·.todo)

/-- The fetchers in the hands of calls. -/
def held (m : Manager) : List ℕ := m.calls.flatMap (·.held)

/-- A fetcher that runs and was not asked to stop. -/
def Runs (m : Manager) (i : ℕ) (f : Fetcher) : Prop :=
  m.started[i]? = some f ∧ f.stop = false ∧ f.stage ≠ .exited

/-- **Every fetcher is accounted for.** -/
structure Sound (m : Manager) : Prop where
  calm : m.panicked = false
  /-- The table holds running fetchers under their own partition. -/
  table : ∀ key i, m.fetchers.lookup key = some i → ∃ f, m.Runs i f ∧ f.key = key
  /-- What a call is going to stop runs, and is no longer in the table. -/
  doomed : ∀ i ∈ m.doomed, ∃ f, m.Runs i f ∧ m.fetchers.lookup f.key ≠ some i
  /-- No fetcher is in the hands of two calls, or twice in those of one. -/
  once : m.held.Nodup
  /-- What a call waits for was asked to stop. -/
  current : ∀ c ∈ m.calls, ∀ i ∈ c.current, ∃ f, m.started[i]? = some f ∧ f.stop = true
  /-- A fetcher that has not ended is in the table or in the hands of a call. -/
  cared : ∀ i f, m.started[i]? = some f → f.stage ≠ .exited →
    m.fetchers.lookup f.key = some i ∨ i ∈ m.doomed ∨ ∃ c ∈ m.calls, c.current = some i
  /-- A closed manager follows nothing. -/
  closed : m.closed = true → ∀ key, m.fetchers.lookup key = none

theorem sound_new : new.Sound := by
  refine ⟨rfl, ?_, ?_, List.nodup_nil, ?_, ?_, fun _ _ => rfl⟩ <;> simp [new, Manager.doomed]

variable {m : Manager}
variable {i : ℕ} {f : Fetcher}

theorem lt_of_runs (h : m.Runs i f) : i < m.started.length :=
  (List.getElem?_eq_some_iff.mp h.1).1

theorem mem_registered : i ∈ m.registered ↔ ∃ key, m.fetchers.lookup key = some i := by
  rw [registered, List.mem_map]
  constructor
  · rintro ⟨e, he, rfl⟩
    exact ⟨e.1, AList.mem_lookup_iff.mpr he⟩
  · rintro ⟨key, hkey⟩
    exact ⟨⟨key, i⟩, AList.mem_lookup_iff.mp hkey, rfl⟩

/-- An element stays when another one is replaced. -/
theorem mem_set_or_eq {α : Type} {l : List α} {a c : α} (hi : l[i]? = some c) (ha : a ∈ l) (b : α) :
    a ∈ l.set i b ∨ a = c := by
  obtain ⟨j, hj⟩ := List.getElem?_of_mem ha
  by_cases hij : i = j
  · exact .inr (Option.some.inj (hj.symm.trans (hij ▸ hi)))
  · exact .inl (List.mem_of_getElem? ((List.getElem?_set_ne hij).trans hj))

theorem getElem?_modify_of {fs : List Fetcher} {j : ℕ} (hj : fs[j]? = some f) (i : ℕ)
    (g : Fetcher → Fetcher) : (fs.modify i g)[j]? = some (if i = j then g f else f) := by
  simp [List.getElem?_modify, hj]

theorem exists_of_modify {fs : List Fetcher} {j : ℕ} {g : Fetcher → Fetcher} {f' : Fetcher}
    (h : (fs.modify i g)[j]? = some f') : ∃ f, fs[j]? = some f ∧ f' = if i = j then g f else f := by
  cases hj : fs[j]? with
  | none => simp [List.getElem?_modify, hj] at h
  | some f => exact ⟨f, rfl, Option.some.inj (h.symm.trans (getElem?_modify_of hj i g))⟩

/-- A call takes the place of another. -/
theorem exists_flatMap_set {c : Shutdown} (hi : m.calls[i]? = some c) (c' : Shutdown)
    (g : Shutdown → List ℕ) : ∃ pre post, m.calls.flatMap g = pre ++ (g c ++ post) ∧
      (m.calls.set i c').flatMap g = pre ++ (g c' ++ post) := by
  obtain ⟨hlt, hget⟩ := List.getElem?_eq_some_iff.mp hi
  obtain ⟨pre, post, hcalls, -, hset⟩ := @List.exists_of_set _ i c' m.calls hlt
  rw [hget] at hcalls
  refine ⟨pre.flatMap g, post.flatMap g, ?_, ?_⟩
  · rw [hcalls, List.flatMap_append, List.flatMap_cons]
  · rw [hset, List.flatMap_append, List.flatMap_cons]

theorem mem_held : i ∈ m.held ↔ (∃ c ∈ m.calls, c.current = some i) ∨ i ∈ m.doomed := by
  simp only [held, doomed, Shutdown.held, List.mem_flatMap, List.mem_append, Option.mem_toList,
    and_or_left, exists_or]

theorem doomed_sublist_held : m.doomed.Sublist m.held :=
  List.Sublist.flatMap_right m.calls fun c _ => List.sublist_append_right c.current.toList c.todo

namespace Sound

variable (h : m.Sound)
include h

/-- A fetcher of the table is not in the hands of a call. -/
theorem not_mem_held {key : Bytes × ℤ} {i : ℕ} (hi : m.fetchers.lookup key = some i) :
    i ∉ m.held := by
  intro hmem
  obtain ⟨f, hf, rfl⟩ := h.table key i hi
  rcases mem_held.mp hmem with ⟨c, hc, hcur⟩ | hmem
  · obtain ⟨g, hg, hstop⟩ := h.current c hc i hcur
    obtain rfl := Option.some.inj (hf.1.symm.trans hg)
    cases hf.2.1.symm.trans hstop
  · obtain ⟨g, hg, hne⟩ := h.doomed i hmem
    obtain rfl := Option.some.inj (hf.1.symm.trans hg.1)
    exact hne hi

theorem nodup_registered : m.registered.Nodup := by
  refine List.Nodup.map_on ?_ m.fetchers.nodupKeys.nodup
  rintro ⟨k, i⟩ hk ⟨k', i'⟩ hk' (rfl : i = i')
  obtain ⟨f, hf, rfl⟩ := h.table k i (AList.mem_lookup_iff.mpr hk)
  obtain ⟨g, hg, rfl⟩ := h.table k' i (AList.mem_lookup_iff.mpr hk')
  obtain rfl := Option.some.inj (hf.1.symm.trans hg.1)
  rfl

theorem ensureFollowing (key : Bytes × ℤ) : (m.ensureFollowing key).Sound := by
  unfold Manager.ensureFollowing
  split
  · exact h
  next hopen =>
  split
  · exact h
  next hnone =>
  have hold : ∀ {i f}, m.started[i]? = some f →
      (m.started ++ [⟨key, .top, false⟩])[i]? = some f := fun hi => by
    rw [List.getElem?_append_left (List.getElem?_eq_some_iff.mp hi).1, hi]
  have hruns : ∀ {i f}, m.Runs i f → Runs ⟨m.fetchers.insert key m.started.length, m.closed,
      m.started ++ [⟨key, .top, false⟩], m.calls, m.panicked⟩ i f :=
    fun hi => ⟨hold hi.1, hi.2⟩
  refine ⟨h.calm, Table.forall_lookup_insert ?_ fun k i _ hi => ?_, fun i hi => ?_, h.once,
    fun c hc i hi => ?_, fun i f hi hrun => ?_, fun hc => absurd hc hopen⟩
  · exact ⟨⟨key, .top, false⟩, ⟨by simp, rfl, by simp⟩, rfl⟩
  · obtain ⟨f, hf, hkey⟩ := h.table k i hi
    exact ⟨f, hruns hf, hkey⟩
  · obtain ⟨f, hf, hne⟩ := h.doomed i hi
    refine ⟨f, hruns hf, ?_⟩
    have hlt := lt_of_runs hf
    dsimp only
    rw [Table.lookup_insert_ite]
    split
    · simpa using hlt.ne'
    · exact hne
  · obtain ⟨f, hf, hstop⟩ := h.current c hc i hi
    exact ⟨f, hold hf, hstop⟩
  · dsimp only at hi
    rcases Nat.lt_or_ge i m.started.length with hlt | hge
    · rw [List.getElem?_append_left hlt] at hi
      refine (h.cared i f hi hrun).imp_left fun hlook => ?_
      rw [Table.lookup_insert_ite, if_neg, hlook]
      rintro rfl
      exact absurd hlook (by simp [hnone])
    · rw [List.getElem?_append_right hge, List.getElem?_singleton] at hi
      obtain ⟨hzero, hf⟩ := Option.ite_none_right_eq_some.mp hi
      obtain rfl : i = m.started.length := by omega
      cases hf
      exact .inl (AList.lookup_insert _)

/-- Fetchers are taken out of the table by a call. -/
theorem take {fs : List ℕ} {rest : Table (Bytes × ℤ) ℕ} {closed : Bool} (hfs : fs.Nodup)
    (hmem : ∀ i ∈ fs, ∃ key, m.fetchers.lookup key = some i ∧ rest.lookup key ≠ some i)
    (hrest : ∀ key i, rest.lookup key = some i → m.fetchers.lookup key = some i)
    (hgone : ∀ key i, m.fetchers.lookup key = some i → i ∈ fs ∨ rest.lookup key = some i)
    (hclosed : closed = true → ∀ key, rest.lookup key = none) :
    Sound ⟨rest, closed, m.started, m.calls ++ [⟨none, fs⟩], m.panicked⟩ := by
  have hdoomed : Manager.doomed ⟨rest, closed, m.started, m.calls ++ [⟨none, fs⟩], m.panicked⟩
      = m.doomed ++ fs := by
    simp [Manager.doomed]
  have hheld : Manager.held ⟨rest, closed, m.started, m.calls ++ [⟨none, fs⟩], m.panicked⟩
      = m.held ++ fs := by
    simp [Manager.held, Shutdown.held]
  refine ⟨h.calm, fun key i hi => h.table key i (hrest key i hi), ?_, ?_, fun c hc i hi => ?_,
    fun i f hi hrun => ?_, hclosed⟩
  · rw [hdoomed]
    intro i hi
    rcases List.mem_append.mp hi with hi | hi
    · obtain ⟨f, hf, hne⟩ := h.doomed i hi
      exact ⟨f, hf, fun hlook => hne (hrest _ _ hlook)⟩
    · obtain ⟨key, hkey, hne⟩ := hmem i hi
      obtain ⟨f, hf, rfl⟩ := h.table key i hkey
      exact ⟨f, hf, hne⟩
  · rw [hheld, List.nodup_append]
    refine ⟨h.once, hfs, ?_⟩
    rintro i hi _ hi' rfl
    obtain ⟨key, hkey, -⟩ := hmem i hi'
    exact h.not_mem_held hkey hi
  · rcases List.mem_append.mp hc with hc | hc
    · exact h.current c hc i hi
    · cases List.mem_singleton.mp hc
      cases hi
  · rw [hdoomed]
    rcases h.cared i f hi hrun with hlook | hi | ⟨c, hc, hi⟩
    · exact (hgone _ _ hlook).elim (fun hfs => .inr (.inl (List.mem_append_right _ hfs))) .inl
    · exact .inr (.inl (List.mem_append_left _ hi))
    · exact .inr (.inr ⟨c, List.mem_append_left _ hc, hi⟩)

theorem stopFollowing (key : Bytes × ℤ) : (m.stopFollowing key).Sound := by
  unfold Manager.stopFollowing
  split
  · exact h
  next i hi =>
  refine h.take (List.nodup_singleton i) (fun j hj => ⟨key, ?_, ?_⟩) (fun k j hj => ?_)
    (fun k j hj => ?_) fun hc k => ?_
  · rw [List.mem_singleton.mp hj, hi]
  · rw [AList.lookup_erase]
    simp
  · rw [Table.lookup_erase_ite] at hj
    split at hj
    · cases hj
    · exact hj
  · rw [Table.lookup_erase_ite]
    split
    · next hk =>
      rw [hk, hi] at hj
      cases hj
      exact .inl (List.mem_singleton_self _)
    · exact .inr hj
  · rw [h.closed hc] at hi
    cases hi

theorem close (fs : List ℕ) : (m.close fs).Sound := by
  unfold Manager.close
  split
  · next hperm =>
    refine h.take (hperm.nodup_iff.mpr h.nodup_registered) (fun i hi => ?_) (fun key i hi => ?_)
      (fun key i hi => .inl ?_) fun _ _ => rfl
    · obtain ⟨key, hkey⟩ := mem_registered.mp (hperm.mem_iff.mp hi)
      exact ⟨key, hkey, by simp⟩
    · cases hi
    · exact hperm.mem_iff.mpr (mem_registered.mpr ⟨key, hi⟩)
  · exact h

theorem fetch (i : ℕ) (ok : Bool) : (m.fetch i ok).Sound := by
  have hkey : ∀ {j : ℕ} {f : Fetcher}, (if i = j then f.step ok else f).key = f.key := by
    intro j f
    split <;> rfl
  have hruns : ∀ {j f}, m.Runs j f → (m.fetch i ok).Runs j (if i = j then f.step ok else f) := by
    intro j f hf
    refine ⟨getElem?_modify_of hf.1 i _, ?_⟩
    split
    · refine ⟨hf.2.1, fun hexit => ?_⟩
      rcases Stage.next_eq_exited hexit with hexit | hstop
      · exact hf.2.2 hexit
      · exact absurd hstop (by simp [hf.2.1])
    · exact hf.2
  refine ⟨h.calm, fun key j hj => ?_, fun j hj => ?_, h.once, fun c hc j hj => ?_,
    fun j f hj hrun => ?_, h.closed⟩
  · obtain ⟨f, hf, rfl⟩ := h.table key j hj
    exact ⟨_, hruns hf, hkey⟩
  · obtain ⟨f, hf, hne⟩ := h.doomed j hj
    exact ⟨_, hruns hf, by rw [hkey]; exact hne⟩
  · obtain ⟨f, hf, hstop⟩ := h.current c hc j hj
    exact ⟨_, getElem?_modify_of hf i _, by split <;> exact hstop⟩
  · -- a fetcher that has not ended after the step had not before
    obtain ⟨f₀, hf₀, rfl⟩ := exists_of_modify hj
    rw [hkey]
    refine h.cared j f₀ hf₀ fun hexit => hrun ?_
    split
    · rw [Fetcher.step_of_exited hexit, hexit]
    · exact hexit

/-- The fetcher that a call waits for has ended. -/
theorem ended {i f : ℕ} {todo : List ℕ} (hi : m.calls[i]? = some ⟨some f, todo⟩)
    (hf : (m.started[f]?).all (·.stage = .exited)) :
    Sound { m with calls := m.calls.set i ⟨none, todo⟩ } := by
  obtain ⟨g, hg, -⟩ := h.current _ (List.mem_of_getElem? hi) f rfl
  have hexit : g.stage = .exited := by simpa [hg] using hf
  have hdoomed : Manager.doomed { m with calls := m.calls.set i ⟨none, todo⟩ } = m.doomed := by
    obtain ⟨pre, post, hold, hnew⟩ := exists_flatMap_set hi ⟨none, todo⟩ (·.todo)
    exact hnew.trans hold.symm
  refine ⟨h.calm, h.table, ?_, ?_, fun c hc j hj => ?_, fun j k hj hrun => ?_, h.closed⟩
  · rw [hdoomed]
    exact h.doomed
  · obtain ⟨pre, post, hold, hnew⟩ := exists_flatMap_set hi ⟨none, todo⟩ (·.held)
    have honce := h.once
    rw [Manager.held, hold] at honce
    rw [Manager.held, hnew]
    exact honce.sublist ((List.sublist_cons_self f (todo ++ post)).append_left pre)
  · rcases List.mem_or_eq_of_mem_set hc with hc | rfl
    · exact h.current c hc j hj
    · cases hj
  · rw [hdoomed]
    refine (h.cared j k hj hrun).imp_right (Or.imp_right ?_)
    rintro ⟨c, hc, hcur⟩
    rcases mem_set_or_eq hi hc ⟨none, todo⟩ with hc | rfl
    · exact ⟨c, hc, hcur⟩
    · obtain rfl := Option.some.inj hcur
      rw [hg] at hj
      cases hj
      exact absurd hexit hrun

/-- A call asks the next of its fetchers to stop. -/
theorem asked {i f : ℕ} {todo : List ℕ} (hi : m.calls[i]? = some ⟨none, f :: todo⟩) :
    Sound { m with
      started := m.started.modify f ({ · with stop := true })
      calls := m.calls.set i ⟨some f, todo⟩
      panicked := m.panicked || (m.started[f]?).any (·.stop) } := by
  obtain ⟨pre, post, hold, hnew⟩ := exists_flatMap_set hi ⟨some f, todo⟩ (·.todo)
  -- the fetcher leaves the list of those to be stopped, in which it stood once
  have hperm : m.doomed.Perm (f :: (m.calls.set i ⟨some f, todo⟩).flatMap (·.todo)) := by
    rw [Manager.doomed, hold, hnew]
    exact List.perm_middle
  have hnot := (List.nodup_cons.mp
    (hperm.nodup_iff.mp (h.once.sublist doomed_sublist_held))).1
  -- but it stays in the hands of the call
  have honce : ((m.calls.set i ⟨some f, todo⟩).flatMap (·.held)).Nodup := by
    obtain ⟨pre, post, hold, hnew⟩ := exists_flatMap_set hi ⟨some f, todo⟩ (·.held)
    rw [hnew]
    exact hold ▸ h.once
  have hdoomed : f ∈ m.doomed := hperm.mem_iff.mpr List.mem_cons_self
  obtain ⟨g, hg, -⟩ := h.doomed f hdoomed
  have hother : ∀ {j k}, j ≠ f → m.Runs j k → Runs ⟨m.fetchers, m.closed,
      m.started.modify f ({ · with stop := true }), m.calls.set i ⟨some f, todo⟩,
      m.panicked || (m.started[f]?).any (·.stop)⟩ j k := fun {j k} hne hk =>
    ⟨(getElem?_modify_of hk.1 f _).trans (by rw [if_neg hne.symm]), hk.2⟩
  refine ⟨?_, fun key j hj => ?_, fun j hj => ?_, honce, fun c hc j hj => ?_,
    fun j k hj hrun => ?_, h.closed⟩
  · simp [h.calm, hg.1, hg.2.1]
  · obtain ⟨k, hk, hkey⟩ := h.table key j hj
    exact ⟨k, hother (fun hjf => h.not_mem_held hj (hjf ▸ mem_held.mpr (.inr hdoomed))) hk, hkey⟩
  · obtain ⟨k, hk, hne⟩ := h.doomed j (hperm.mem_iff.mpr (List.mem_cons_of_mem f hj))
    exact ⟨k, hother (fun hjf => hnot (hjf ▸ hj)) hk, hne⟩
  · rcases List.mem_or_eq_of_mem_set hc with hc | rfl
    · obtain ⟨k, hk, hstop⟩ := h.current c hc j hj
      exact ⟨_, getElem?_modify_of hk f _, by split <;> simp [hstop]⟩
    · cases hj
      exact ⟨_, getElem?_modify_of hg.1 f _, by simp⟩
  · obtain ⟨k₀, hk₀, rfl⟩ := exists_of_modify hj
    have hsame : (if f = j then { k₀ with stop := true } else k₀).key = k₀.key ∧
        (if f = j then { k₀ with stop := true } else k₀).stage = k₀.stage := by
      split <;> exact ⟨rfl, rfl⟩
    rw [hsame.1]
    rw [hsame.2] at hrun
    rcases h.cared j k₀ hk₀ hrun with hlook | hj | ⟨c, hc, hcur⟩
    · exact .inl hlook
    · rcases List.mem_cons.mp (hperm.mem_iff.mp hj) with rfl | hj
      · exact .inr (.inr ⟨⟨some j, todo⟩, List.mem_set (List.getElem?_eq_some_iff.mp hi).1 _, rfl⟩)
      · exact .inr (.inl hj)
    · rcases mem_set_or_eq hi hc ⟨some f, todo⟩ with hc | rfl
      · exact .inr (.inr ⟨c, hc, hcur⟩)
      · cases hcur

theorem advance (i : ℕ) : (m.advance i).Sound := by
  unfold Manager.advance
  split
  · exact h
  · next f todo hi =>
    split
    · next hf => exact h.ended hi hf
    · exact h
  · exact h
  · next f todo hi => exact h.asked hi

theorem step (a : Action) : (m.step a).Sound := by
  cases a with
  | ensureFollowing key => exact h.ensureFollowing key
  | stopFollowing key => exact h.stopFollowing key
  | close fs => exact h.close fs
  | advance i => exact h.advance i
  | fetch i ok => exact h.fetch i ok

end Sound

/-- **In every interleaving no channel is closed twice and no fetcher is lost.** -/
theorem sound_run (acts : List Action) : Always step Sound new acts :=
  (along_of_forall (D := fun _ => True) fun _ _ => trivial).always sound_new
    fun _ a h _ => h.step a

/-! ### Fetchers that end -/

/-- The action is a step of this fetcher. -/
def Action.steps (i : ℕ) : Action → Bool
  | .fetch j _ => i = j
  | _ => false

/-- What an action does to a fetcher that was asked to stop. -/
theorem started_step (hi : m.started[i]? = some f) (hstop : f.stop = true) (a : Action) :
    ∃ g, (m.step a).started[i]? = some g ∧ g.stop = true ∧
      g.stage.stepsLeft ≤ f.stage.stepsLeft - (if a.steps i then 1 else 0) := by
  have hlt := (List.getElem?_eq_some_iff.mp hi).1
  cases a with
  | ensureFollowing key =>
    refine ⟨f, ?_, hstop, le_rfl⟩
    rw [step, ensureFollowing]
    split
    · exact hi
    · split
      · exact hi
      · exact (List.getElem?_append_left hlt).trans hi
  | stopFollowing key =>
    refine ⟨f, ?_, hstop, le_rfl⟩
    rw [step, stopFollowing]
    split <;> exact hi
  | close fs =>
    refine ⟨f, ?_, hstop, le_rfl⟩
    rw [step, close]
    split <;> exact hi
  | advance j =>
    refine ⟨f, ?_, hstop, le_rfl⟩
    rw [step, advance]
    split
    · exact hi
    · split <;> exact hi
    · exact hi
    · -- a channel that is closed already stays closed
      rw [List.getElem?_modify, hi]
      split
      · exact congrArg some (by rw [← hstop])
      · rfl
  | fetch j ok =>
    refine ⟨if j = i then f.step ok else f, ?_, ?_, ?_⟩
    · simp [step, fetch, List.getElem?_modify, hi]
    · split <;> exact hstop
    · by_cases hij : j = i
      · rw [if_pos hij, Fetcher.step, hstop, Action.steps, hij]
        simpa using f.stage.stepsLeft_next ok
      · simp [if_neg hij, Action.steps, Ne.symm hij]

/-- **A fetcher that was asked to stop has ended after five of its steps**, whatever else
happens meanwhile. -/
theorem exited_of_five (hi : m.started[i]? = some f) (hstop : f.stop = true) {acts : List Action}
    (hfive : 5 ≤ acts.countP (·.steps i)) :
    ∃ g, (run step m acts).started[i]? = some g ∧ g.stage = .exited := by
  have hrun : ∀ (acts : List Action) (m : Manager) (f : Fetcher), m.started[i]? = some f →
      f.stop = true → ∃ g, (run step m acts).started[i]? = some g ∧
        g.stage.stepsLeft ≤ f.stage.stepsLeft - acts.countP (·.steps i) := by
    intro acts
    induction acts with
    | nil => exact fun m f hi _ => ⟨f, hi, le_rfl⟩
    | cons a acts ih =>
      intro m f hi hstop
      obtain ⟨g, hg, hgstop, hleft⟩ := started_step hi hstop a
      obtain ⟨k, hk, hrest⟩ := ih (m.step a) g hg hgstop
      refine ⟨k, hk, ?_⟩
      rw [List.countP_cons]
      omega
  obtain ⟨g, hg, hleft⟩ := hrun acts m f hi hstop
  have hbound : f.stage.stepsLeft ≤ 5 := by cases f.stage <;> decide
  refine ⟨g, hg, ?_⟩
  cases hstage : g.stage with
  | exited => rfl
  | _ => rw [hstage, Stage.stepsLeft] at hleft; omega

/-- No call is under way. -/
def Idle (m : Manager) : Prop := ∀ c ∈ m.calls, c.current = none ∧ c.todo = []

instance (m : Manager) : Decidable m.Idle := inferInstanceAs (Decidable (∀ _ ∈ _, _ ∧ _))

/-- Nobody is left to look after a fetcher. -/
theorem Sound.exited (h : m.Sound) (hclosed : m.closed = true) (hidle : m.Idle) :
    ∀ f ∈ m.started, f.stage = .exited := by
  intro f hf
  obtain ⟨i, hi⟩ := List.getElem?_of_mem hf
  by_contra hrun
  rcases h.cared i f hi hrun with hlook | hdoomed | ⟨c, hc, hcur⟩
  · cases (h.closed hclosed _).symm.trans hlook
  · obtain ⟨c, hc, hmem⟩ := List.mem_flatMap.mp hdoomed
    rw [(hidle c hc).2] at hmem
    cases hmem
  · cases (hidle c hc).1.symm.trans hcur

/-- There is nothing left to follow or to shut down. -/
theorem Sound.idle_step (h : m.Sound) (hclosed : m.closed = true) (hidle : m.Idle) (a : Action) :
    (m.step a).closed = true ∧ (m.step a).Idle := by
  cases a with
  | ensureFollowing key =>
    rw [Manager.step, Manager.ensureFollowing, if_pos hclosed]
    exact ⟨hclosed, hidle⟩
  | stopFollowing key =>
    rw [Manager.step, Manager.stopFollowing, h.closed hclosed]
    exact ⟨hclosed, hidle⟩
  | close fs =>
    rw [Manager.step, Manager.close]
    split
    · next hperm =>
      rw [registered, Table.entries_nil_of_lookup (h.closed hclosed)] at hperm
      obtain rfl := hperm.eq_nil
      refine ⟨rfl, fun c hc => ?_⟩
      rcases List.mem_append.mp hc with hc | hc
      · exact hidle c hc
      · rw [List.mem_singleton.mp hc]
        exact ⟨rfl, rfl⟩
    · exact ⟨hclosed, hidle⟩
  | advance i =>
    rw [Manager.step, Manager.advance]
    split
    · exact ⟨hclosed, hidle⟩
    · next hi => exact absurd (hidle _ (List.mem_of_getElem? hi)).1 (by simp)
    · exact ⟨hclosed, hidle⟩
    · next hi => exact absurd (hidle _ (List.mem_of_getElem? hi)).2 (by simp)
  | fetch i ok => exact ⟨hclosed, hidle⟩

/-- **Fetchers are accounted for, end when they are asked to, and none runs or starts once a
closed manager has no call under way.** -/
theorem fetchers_accounted (acts : List Action) :
    Always step Sound new acts ∧
      (∀ i f rest, (run step new acts).started[i]? = some f → f.stop = true →
        5 ≤ rest.countP (Action.steps i) →
          ∃ g, (run step new (acts ++ rest)).started[i]? = some g ∧ g.stage = .exited) ∧
      ((run step new acts).closed = true → (run step new acts).Idle → ∀ rest,
        ∀ f ∈ (run step new (acts ++ rest)).started, f.stage = .exited) := by
  refine ⟨sound_run acts, fun i f rest hi hstop hfive => ?_, fun hclosed hidle rest f hf => ?_⟩
  · rw [run_append]
    exact exited_of_five hi hstop hfive
  · have hrest : Along step (fun _ _ => True) (run step new acts) rest :=
      along_of_forall fun _ _ => trivial
    obtain ⟨hsound, hclosed', hidle'⟩ := (hrest.always
      (P := fun m : Manager => m.Sound ∧ m.closed = true ∧ m.Idle)
      ⟨(sound_run acts).final, hclosed, hidle⟩
      fun _ a h _ => ⟨h.1.step a, h.1.idle_step h.2.1 h.2.2 a⟩).final
    rw [run_append] at hf
    exact hsound.exited hclosed' hidle' f hf

/-- A partition is followed again while the call that stopped following it waits. -/
def overlappingActs : List Action :=
  [.ensureFollowing ([116], 0), .fetch 0 true, .stopFollowing ([116], 0), .advance 0,
    .ensureFollowing ([116], 0)]

/-- The first of the two fetchers ends after five steps, in which the second one goes on, and
after `Close` neither of them is left. -/
theorem fetchers_accounted_overlapping :
    (∃ g, (run step new (overlappingActs ++ [.fetch 0 true, .fetch 1 true, .fetch 0 true,
        .fetch 0 true, .fetch 0 true, .fetch 0 true])).started[0]? = some g ∧
      g.stage = .exited) ∧
    ∀ f ∈ (run step new (overlappingActs ++ [.fetch 0 true, .fetch 0 true, .fetch 0 true,
        .fetch 0 true, .fetch 0 true, .advance 0, .close [1], .advance 1, .fetch 1 true,
        .advance 1] ++ [.ensureFollowing ([116], 0)])).started, f.stage = .exited :=
  ⟨(fetchers_accounted overlappingActs).2.1 0 ⟨([116], 0), .resolve, true⟩ _ (by decide +kernel)
      rfl (by decide),
    (fetchers_accounted _).2.2 (by decide +kernel) (by decide +kernel) _⟩

end Manager
end Replication
end Mq
