import Mq.Broker.Catalog
import Mq.Broker.Holdings

/-!
# Topics that fail to be created

`registerLocked` of `internal/broker/broker.go` enters a topic into the catalog first and then
opens the logs of the partitions that the broker leads, one by one, until one of them fails.
It is reached from all three calls that administer topics.  A call that is turned down before
it comes to the registration leaves the catalog as it is.  A call whose registration fails has
written the entry already, and the entry stays.

## Main definitions

* `Holdings.call` — one call that administers topics.
* `Holdings.registers` — the registration that a call comes to, if any.
* `Holdings.OpensAll` — the logs that a registration needs are open or can be opened.
* `Holdings.SameCatalog` — nothing that the broker says about topics has changed.
* `Holdings.Matches` — the holdings are those of a `Catalog.Registry`.

## Main results

* `Holdings.registerLocked_snd_iff` — **when a registration succeeds**.
* `Holdings.sameCatalog_iff_of_failed` — **when a call that fails has left the catalog alone**.
* `Holdings.Matches.call` — **the registry of a single node is this broker**, with its logs in
  files.
-/

namespace Mq

open Word

namespace Holdings

variable (set : Setting)

/-! ### Calls -/

/-- The topics that the broker is aware of, in the order of their names. -/
def knownTopics (b : Holdings) : List (Bytes × ℤ) :=
  match b.ctrl with
  | some m => (m.topics.listing (· ≤ ·)).map fun t => (t.1, t.2.partitions)
  | none => b.catalog.listing (· ≤ ·)

/-- One call, and whether it succeeds. -/
def call (b : Holdings) : Catalog.Call → Holdings × Bool
  | .createTopic name n => createTopic set b name n
  | .createPartitions name n => createPartitions set b name n
  | .ensureTopic name => ensureTopic set b name

/-- The registration that a call comes to on a broker without a controller: the topic, and the
number of partitions that is asked for.  There is none if the call is answered before. -/
def registers (b : Holdings) : Catalog.Call → Option (Bytes × ℤ)
  | .createTopic name n => if b.knows name then none else some (name, n)
  | .createPartitions name n =>
    match b.catalog.lookup name with
    | none => none
    | some cur => if n ≤ cur then none else some (name, n)
  | .ensureTopic name => if b.knows name then none else some (name, set.numPartitions)

/-- The log of every partition that the broker is to lead is open or can be opened. -/
def OpensAll (b : Holdings) (name : Bytes) (n : ℤ) : Prop :=
  ∀ p : ℕ, (p : ℤ) < countFor set n → set.isLeader name p = true →
    b.logs.lookup (name, (p : ℤ)) ≠ none ∨ set.openLog name p ≠ none

/-- The broker has the same topics, with the same numbers of partitions. -/
structure SameCatalog (b b' : Holdings) : Prop where
  catalog : ∀ topic, b'.catalog.lookup topic = b.catalog.lookup topic
  knows : ∀ topic, b'.knows topic = b.knows topic
  numPartitions : ∀ topic, b'.numPartitions set topic = b.numPartitions set topic
  knownTopics : b'.knownTopics = b.knownTopics

variable {set}

/-! ### Opening a list of logs -/

/-- Logs are opened until one fails, and a log that has been opened does not take the place of
another. -/
theorem openAll_snd_iff (b : Holdings) (xs : List (Bytes × ℤ)) :
    (openAll set b xs).2 = true ↔
      ∀ x ∈ xs, b.logs.lookup x ≠ none ∨ set.openLog x.1 x.2 ≠ none := by
  induction xs generalizing b with
  | nil => simp [openAll]
  | cons x xs ih =>
    rw [openAll, List.forall_mem_cons]
    rcases @openLocked_cases set b x.1 x.2 with ⟨l, hl, heq⟩ | ⟨hnone, hopen, heq⟩ |
      ⟨l, hnone, hopen, heq⟩ <;> rw [heq] <;> dsimp only
    · rw [ih]
      exact ⟨fun h => ⟨.inl (by simp [hl]), h⟩, And.right⟩
    · simp [hnone, hopen]
    · rw [ih]
      constructor
      · intro h
        refine ⟨.inr (by simp [hopen]), fun y hy => ?_⟩
        by_cases hyx : y = x
        · exact .inr (by simp [hyx, hopen])
        · simpa [Table.lookup_insert_ite, hyx] using h y hy
      · rintro ⟨-, h⟩ y hy
        by_cases hyx : y = x
        · exact .inl (by simp [hyx])
        · simpa [Table.lookup_insert_ite, hyx] using h y hy

/-! ### Registration -/

/-- **A registration succeeds exactly when every log that it needs is open or can be
opened.** -/
theorem registerLocked_snd_iff (b : Holdings) (name : Bytes) (n : ℤ) :
    (registerLocked set b name n).2 = true ↔ OpensAll set b name n := by
  rw [registerLocked, openAll_snd_iff]
  constructor
  · intro h p hp hlead
    exact h (name, p) (List.mem_filter.mpr
      ⟨List.mem_map.mpr ⟨p, List.mem_range.mpr (by omega), rfl⟩, hlead⟩)
  · intro h x hx
    obtain ⟨hmem, hlead⟩ := List.mem_filter.mp hx
    obtain ⟨p, hp, rfl⟩ := List.mem_map.mp hmem
    exact h p (by have := List.mem_range.mp hp; omega) hlead

/-- Whether it succeeds or not, the entry is in the catalog afterwards. -/
theorem catalog_registerLocked (b : Holdings) (name : Bytes) (n : ℤ) :
    (registerLocked set b name n).1.catalog = b.catalog.insert name (countFor set n) :=
  (opens_openAll _ _).catalog

/-- A registration that needs a log is for a positive number of partitions. -/
theorem countFor_pos_of_not_opensAll {b : Holdings} {name : Bytes} {n : ℤ}
    (h : ¬ OpensAll set b name n) : 0 < countFor set n := by
  by_contra hneg
  exact h fun p hp => by omega

/-! ### Calls that fail -/

theorem SameCatalog.refl (b : Holdings) : SameCatalog set b b :=
  ⟨fun _ => rfl, fun _ => rfl, fun _ => rfl, rfl⟩

/-- **A call is answered without a registration, or it is one.**  A registration is for a topic
with fewer partitions than are asked for, or for one that is not in the catalog. -/
theorem call_cases (set : Setting) {b : Holdings} (hctrl : b.ctrl = none) (c : Catalog.Call) :
    (b.registers set c = none ∧ (b.call set c).1 = b) ∨
      ∃ name n, b.registers set c = some (name, n) ∧ b.call set c = registerLocked set b name n ∧
        ∀ cur ∈ b.catalog.lookup name, cur < n := by
  have hunknown : ∀ name, b.knows name = false → b.catalog.lookup name = none := by
    intro name h
    simpa [knows, hctrl] using h
  cases c with
  | createTopic name n =>
    simp only [registers, call, createTopic, hctrl]
    cases hknows : b.knows name with
    | true => exact .inl ⟨rfl, rfl⟩
    | false => exact .inr ⟨name, n, rfl, rfl, by simp [hunknown name hknows]⟩
  | createPartitions name n =>
    simp only [registers, call, createPartitions, hctrl]
    cases hcur : b.catalog.lookup name with
    | none => exact .inl ⟨rfl, rfl⟩
    | some cur =>
      dsimp only
      by_cases hle : n ≤ cur
      · rw [if_pos hle, if_pos hle]
        exact .inl ⟨rfl, rfl⟩
      · rw [if_neg hle, if_neg hle]
        exact .inr ⟨name, n, rfl, rfl, by simp [hcur]; omega⟩
  | ensureTopic name =>
    simp only [registers, call, ensureTopic, hctrl]
    cases hknows : b.knows name with
    | true => exact .inl ⟨rfl, rfl⟩
    | false => exact .inr ⟨name, set.numPartitions, rfl, rfl, by simp [hunknown name hknows]⟩

/-- **When failed administration leaves the catalog alone.**  On a broker without a controller,
a call that fails has left the topics and their numbers of partitions as they were exactly if it
did not come to a registration in which a log fails to open. -/
theorem sameCatalog_iff_of_failed (set : Setting) (b : Holdings) (hctrl : b.ctrl = none)
    (c : Catalog.Call) :
    ((b.call set c).2 = false → SameCatalog set b (b.call set c).1) ↔
      ∀ x ∈ b.registers set c, OpensAll set b x.1 x.2 := by
  rcases call_cases set hctrl c with ⟨hnone, heq⟩ | ⟨name, n, hsome, heq, hcur⟩
  · rw [heq, hnone]
    exact ⟨fun _ x hx => by simp at hx, fun _ _ => .refl b⟩
  · rw [heq, hsome]
    simp only [Option.mem_some_iff, forall_eq']
    constructor
    · intro h
      by_contra hopens
      have hfailed : (registerLocked set b name n).2 = false := by
        rwa [← Bool.not_eq_true, registerLocked_snd_iff]
      have hlookup := (h hfailed).catalog name
      rw [catalog_registerLocked, AList.lookup_insert] at hlookup
      -- the entry that was written is the one that was there, so the count asked for is larger
      have hpos := countFor_pos_of_not_opensAll hopens
      have hlt := hcur _ hlookup.symm
      unfold countFor at hpos hlt
      split at hpos <;> omega
    · intro hopens hfailed
      rw [(registerLocked_snd_iff b name n).mpr hopens] at hfailed
      cases hfailed

/-! ### The catalog on a disk -/

/-- The surroundings of a single node that can open these logs. -/
def alone (cfg : Catalog.Config) (logs : List (Bytes × ℤ)) : Setting where
  self := 0
  numPartitions := cfg.numPartitions
  isLeader := fun _ _ => true
  replicasFor := fun _ _ => []
  openLog := fun topic p =>
    if logs.contains (topic, p) then some (Storage.Log.create ⟨0, 0⟩ 0) else none
  accurate := by
    intro topic p l h
    split at h
    · cases h
      exact Storage.accurate_create _ _
    · cases h
  commits := fun _ => false
  now := 0

/-- The holdings of a single node are those of the registry, whose logs are files. -/
structure Matches (r : Catalog.Registry) (b : Holdings) : Prop where
  ctrl : b.ctrl = none
  catalog : b.catalog = r.catalog
  logs : ∀ k, b.logs.lookup k ≠ none ↔ k ∈ r.logs

namespace Matches

variable {cfg : Catalog.Config} {r : Catalog.Registry} {b : Holdings} {logs : List (Bytes × ℤ)}

/-- The two models agree on a list of logs to open, if those can be opened that the registry
has afterwards. -/
theorem openAll (h : Matches r b) {xs : List (Bytes × ℤ)}
    (hlogs : (Catalog.openAll cfg r xs).1.logs = logs) :
    Matches (Catalog.openAll cfg r xs).1 (Holdings.openAll (alone cfg logs) b xs).1 ∧
      (Holdings.openAll (alone cfg logs) b xs).2 = (Catalog.openAll cfg r xs).2 := by
  induction xs generalizing r b with
  | nil => exact ⟨h, rfl⟩
  | cons x xs ih =>
    rw [Catalog.openAll] at hlogs ⊢
    rw [Holdings.openAll]
    by_cases hx : x ∈ r.logs
    · obtain ⟨l, hl⟩ := Option.ne_none_iff_exists'.mp ((h.logs x).mpr hx)
      simp only [Catalog.openLocked, hx, if_true, Holdings.openLocked, hl] at hlogs ⊢
      exact ih h hlogs
    · have hnone : b.logs.lookup x = none := not_not.mp fun hne => hx ((h.logs x).mp hne)
      cases hopen : Catalog.openLog r.fs (Catalog.partitionDir cfg x.1 x.2) with
      | none =>
        simp only [Catalog.openLocked, hx, if_false, hopen] at hlogs ⊢
        subst hlogs
        simp only [Holdings.openLocked, hnone, alone, List.contains_iff_mem, hx, if_false]
        exact ⟨h, trivial⟩
      | some fs =>
        simp only [Catalog.openLocked, hx, if_false, hopen] at hlogs ⊢
        have hmem : x ∈ logs := hlogs ▸ Catalog.subset_logs_openAll _ xs List.mem_cons_self
        have hlog : (alone cfg logs).openLog x.1 x.2 = some (Storage.Log.create ⟨0, 0⟩ 0) :=
          if_pos (List.contains_iff_mem.mpr hmem)
        simp only [Holdings.openLocked, hnone, hlog]
        refine ih ⟨h.ctrl, h.catalog, fun k => ?_⟩ hlogs
        rw [Table.lookup_insert_ite, List.mem_cons, ← h.logs k]
        by_cases hk : k = x <;> simp [hk]

theorem registerLocked (h : Matches r b) {name : Bytes} {n : ℤ}
    (hlogs : (Catalog.registerLocked cfg r name n).1.logs = logs) :
    Matches (Catalog.registerLocked cfg r name n).1
        (Holdings.registerLocked (alone cfg logs) b name n).1 ∧
      (Holdings.registerLocked (alone cfg logs) b name n).2
        = (Catalog.registerLocked cfg r name n).2 := by
  have hentered : Matches { r with catalog := r.catalog.insert name (Catalog.countFor cfg n) }
      { b with catalog := b.catalog.insert name (Catalog.countFor cfg n) } :=
    ⟨h.ctrl, by rw [h.catalog], h.logs⟩
  have hall : ∀ xs : List (Bytes × ℤ),
      xs.filter (fun x => (alone cfg logs).isLeader x.1 x.2) = xs :=
    fun xs => List.filter_eq_self.mpr fun _ _ => rfl
  rw [Holdings.registerLocked, hall]
  exact hentered.openAll hlogs

/-- **The calls of the registry are the calls of a broker without a controller**, in
surroundings in which those logs can be opened that the registry has afterwards. -/
theorem call (h : Matches r b) (c : Catalog.Call) :
    Matches (r.call cfg c).1 (b.call (alone cfg (r.call cfg c).1.logs) c).1 ∧
      (b.call (alone cfg (r.call cfg c).1.logs) c).2 = (r.call cfg c).2 := by
  generalize hlogs : (r.call cfg c).1.logs = logs
  have hknows : ∀ name, b.knows name = (r.catalog.lookup name).isSome := fun name => by
    rw [knows, h.ctrl, h.catalog]
  cases c with
  | createTopic name n =>
    simp only [Catalog.Registry.call, Catalog.createTopic, Holdings.call, createTopic, hknows,
      h.ctrl] at hlogs ⊢
    cases hcur : r.catalog.lookup name with
    | some cur => exact ⟨h, rfl⟩
    | none =>
      rw [hcur] at hlogs
      exact h.registerLocked hlogs
  | createPartitions name n =>
    simp only [Catalog.Registry.call, Catalog.createPartitions, Holdings.call, createPartitions,
      h.ctrl, h.catalog] at hlogs ⊢
    cases hcur : r.catalog.lookup name with
    | none => exact ⟨h, rfl⟩
    | some cur =>
      rw [hcur] at hlogs
      dsimp only at hlogs ⊢
      split
      · exact ⟨h, rfl⟩
      · next hgt =>
        rw [if_neg hgt] at hlogs
        exact h.registerLocked hlogs
  | ensureTopic name =>
    simp only [Catalog.Registry.call, Catalog.ensureTopic, Holdings.call, ensureTopic, hknows,
      h.ctrl] at hlogs ⊢
    cases hcur : r.catalog.lookup name with
    | some cur => exact ⟨h, rfl⟩
    | none =>
      rw [hcur] at hlogs
      exact h.registerLocked hlogs

end Matches

/-! ### Runs -/

/-- A broker that leads everything and cannot open the log of partition 1 of any topic. -/
def lacking : Setting where
  self := 1
  numPartitions := 2
  isLeader := fun _ _ => true
  replicasFor := fun _ _ => [1]
  openLog := fun _ p => if p = 1 then none else some (Storage.Log.create ⟨1024, 64⟩ 0)
  accurate := by
    intro topic p l h
    split at h
    · cases h
    · cases h
      exact Storage.accurate_create _ _
  commits := fun _ => false
  now := 0

/-- A broker that has the topic `t`, with one partition. -/
def oneTopic : Holdings where
  catalog := (∅ : Table Bytes ℤ).insert [116] 1
  ctrl := none
  logs := ∅
  followers := ∅

/-- A topic that is there already is not created again, and nothing has changed. -/
theorem sameCatalog_of_duplicate :
    oneTopic.ctrl = none ∧ (oneTopic.call lacking (.createTopic [116] 2)).2 = false ∧
      SameCatalog lacking oneTopic (oneTopic.call lacking (.createTopic [116] 2)).1 := by
  have hfailed : (oneTopic.call lacking (.createTopic [116] 2)).2 = false := by decide
  have hnone : oneTopic.registers lacking (.createTopic [116] 2) = none := by decide
  refine ⟨rfl, hfailed, (sameCatalog_iff_of_failed lacking oneTopic rfl _).mpr ?_ hfailed⟩
  simp [hnone]

/-- **A call fails and the topic is advertised.**  The log of partition 1 cannot be opened, and
all three calls say that they have failed.  The new topic is listed with two partitions
afterwards, and the old one has been extended to two. -/
theorem failed_call_is_advertised :
    (oneTopic.call lacking (.createTopic [117] 2)).2 = false ∧
    (oneTopic.call lacking (.ensureTopic [117])).2 = false ∧
    (oneTopic.call lacking (.createPartitions [116] 2)).2 = false ∧
    oneTopic.knownTopics = [([116], 1)] ∧
    (oneTopic.call lacking (.createTopic [117] 2)).1.knownTopics = [([116], 1), ([117], 2)] ∧
    (oneTopic.call lacking (.ensureTopic [117])).1.knownTopics = [([116], 1), ([117], 2)] ∧
    (oneTopic.call lacking (.createPartitions [116] 2)).1.knownTopics = [([116], 2)] := by
  decide +kernel

end Holdings

end Mq
