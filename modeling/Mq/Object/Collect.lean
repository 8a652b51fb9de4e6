import Mq.Object.Keys

/-!
# Retention beside an upload

A retention pass holds the lock of one partition's handle and nothing else.  It reads
the refs, prunes some of them, and then looks at the object of each ref that went: if no
partition points into it any more, it is deleted.  An upload puts one object and then
commits a ref into it for each partition, one after the other.  Between two of its
commits the object looks unused to a pass that has pruned the refs committed so far.

## Main definitions

* `Sweep` — how far a retention pass has come.
* `Swept`, `Event`, `Swept.step` — a node with the passes under way, step by step.
* `Node.Retired` — no upload will commit a ref into the object any more.
* `Swept.Settled` — a pass prunes no ref of an upload that has refs to commit.

## Main results

* `run_sweep` — the steps of a pass with nothing in between are
  `Storage.enforceRetention`.
* `refs_resolve` — **every ref points to an object that is there**, if every prune is
  settled.
* `delete_orphans_ref` — a pass between two commits deletes the object of a later ref.
-/

namespace Mq
namespace Object

open Word Record Transition

/-! ### The passes -/

/-- What a retention pass holds until it returns. -/
inductive Sweep
  /-- The refs have been read, and these offsets are to go. -/
  | decided (cutoff : ℤ)
  /-- The refs are pruned; the objects under these keys are still to be looked at. -/
  | pruned (cutoff : ℤ) (keys : List Bytes)
  /-- The first key was found unused and its object is to be deleted. -/
  | unused (cutoff : ℤ) (key : Bytes) (keys : List Bytes)
  deriving DecidableEq, Repr

/-- A node and the retention passes under way, one for a partition at most. -/
structure Swept where
  node : Node
  sweeps : Table Bytes Sweep

inductive Event
  /-- A step of an append or of an upload. -/
  | act (a : Action)
  /-- A pass takes the lock of the handle and reads the refs. -/
  | readRefs (topic : Bytes) (partition nowMs maxAgeMs maxBytes : ℤ)
  /-- It prunes what it has decided to drop. -/
  | prune (topic : Bytes) (partition : ℤ)
  /-- It asks whether the next object is still referenced, or ends. -/
  | check (topic : Bytes) (partition : ℤ)
  /-- It deletes the object that it has found unused. -/
  | delete (topic : Bytes) (partition : ℤ)
  deriving DecidableEq, Repr

/-- The offset up to which a retention pass drops refs. -/
def Storage.cutoff (s : Storage) (k : Bytes) (nowMs maxAgeMs maxBytes : ℤ) : Option ℤ :=
  let refs := s.index.refsFor k
  let total := (refs.map (·.length)).sum + ((s.pending.lookup k).map (·.bytes)).getD 0
  match retentionLoop nowMs maxAgeMs maxBytes total refs with
  | 0 => none
  | dropped + 1 => refs[dropped]?.map (·.nextOffset)

/-- The partition whose handle an action locks. -/
def Action.locks : Action → Option Bytes
  | .append topic partition _ => some (indexKey topic partition)
  | .appendReplica topic partition _ => some (indexKey topic partition)
  | .enforceRetention topic partition _ _ _ => some (indexKey topic partition)
  | _ => none

namespace Swept

/-- A node on an empty disk. -/
def fresh (nodeID : Bytes) : Swept := ⟨Node.fresh nodeID, ∅⟩

/-- A pass has the lock of a handle. -/
def Locked (s : Swept) (k : Bytes) : Prop := s.sweeps.lookup k ≠ none

instance (s : Swept) (k : Bytes) : Decidable (s.Locked k) :=
  inferInstanceAs (Decidable (_ ≠ _))

def act (s : Swept) (a : Action) : Swept :=
  if ∃ k ∈ a.locks, s.Locked k then s else { s with node := s.node.step a }

def readRefs (s : Swept) (k : Bytes) (nowMs maxAgeMs maxBytes : ℤ) : Swept :=
  if s.Locked k then s
  else
    match s.node.free k with
    | none => s
    | some _ =>
      match s.node.storage.cutoff k nowMs maxAgeMs maxBytes with
      | none => s
      | some cutoff => { s with sweeps := s.sweeps.insert k (.decided cutoff) }

/-- The index without the pruned refs. -/
def prunedNode (n : Node) (k : Bytes) (cutoff : ℤ) : Node :=
  { n with storage := { n.storage with index := (n.storage.index.prune k cutoff).1 } }

/-- The refs that go, and the keys of their objects, each one once. -/
def prune (s : Swept) (k : Bytes) : Swept :=
  match s.sweeps.lookup k with
  | some (.decided cutoff) =>
    ⟨prunedNode s.node k cutoff, s.sweeps.insert k (.pruned cutoff
      (((s.node.storage.index.prune k cutoff).2.map (·.key)).eraseDups))⟩
  | _ => s

/-- The handle's earliest offset moves up when the pass ends. -/
def endedNode (n : Node) (k : Bytes) (cutoff : ℤ) : Node :=
  match n.logs.lookup k with
  | none => n
  | some l => { n with logs := n.logs.insert k (l.raiseEarliest (some cutoff)) }

def check (s : Swept) (k : Bytes) : Swept :=
  match s.sweeps.lookup k with
  | some (.pruned cutoff []) => ⟨endedNode s.node k cutoff, s.sweeps.erase k⟩
  | some (.pruned cutoff (key :: keys)) =>
    if s.node.storage.index.referenced key then
      { s with sweeps := s.sweeps.insert k (.pruned cutoff keys) }
    else { s with sweeps := s.sweeps.insert k (.unused cutoff key keys) }
  | _ => s

/-- The object store without an object. -/
def deletedNode (n : Node) (key : Bytes) : Node :=
  { n with storage := { n.storage with objects := n.storage.objects.erase key } }

def delete (s : Swept) (k : Bytes) : Swept :=
  match s.sweeps.lookup k with
  | some (.unused cutoff key keys) =>
    ⟨deletedNode s.node key, s.sweeps.insert k (.pruned cutoff keys)⟩
  | _ => s

def step (s : Swept) : Event → Swept
  | .act a => s.act a
  | .readRefs topic partition nowMs maxAgeMs maxBytes =>
    s.readRefs (indexKey topic partition) nowMs maxAgeMs maxBytes
  | .prune topic partition => s.prune (indexKey topic partition)
  | .check topic partition => s.check (indexKey topic partition)
  | .delete topic partition => s.delete (indexKey topic partition)

end Swept

/-! ### A pass without interruption -/

/-- The decision of a pass and what it does then are those of `enforceRetention`. -/
theorem enforceRetention_eq (s : Storage) (k : Bytes) (nowMs maxAgeMs maxBytes : ℤ) :
    s.enforceRetention k nowMs maxAgeMs maxBytes =
      match s.cutoff k nowMs maxAgeMs maxBytes with
      | none => (s, none)
      | some cutoff =>
        ({ s with
            index := (s.index.prune k cutoff).1
            objects := (s.index.prune k cutoff).2.foldl
              (Storage.collect (s.index.prune k cutoff).1) s.objects }, some cutoff) := by
  simp only [Storage.enforceRetention, Storage.cutoff]
  cases Storage.retentionLoop nowMs maxAgeMs maxBytes
      (((s.index.refsFor k).map (·.length)).sum
        + ((s.pending.lookup k).map (·.bytes)).getD 0) (s.index.refsFor k) with
  | zero => rfl
  | succ dropped =>
    dsimp only
    cases (s.index.refsFor k)[dropped]? with
    | none => rfl
    | some r => rfl

/-- What collecting the objects of dropped refs leaves. -/
theorem lookup_collected (ix : Index) (key : Bytes) :
    ∀ (gone : List SegmentRef) (objects : Table Bytes Bytes),
      (gone.foldl (Storage.collect ix) objects).lookup key
        = if key ∈ gone.map (·.key) ∧ ¬ ix.referenced key then none else objects.lookup key := by
  intro gone
  induction gone with
  | nil => intro objects; simp
  | cons r gone ih =>
    intro objects
    rw [List.foldl_cons, ih, Storage.collect]
    by_cases href : ix.referenced r.key
    · rw [if_pos href]
      by_cases hkey : key = r.key
      · subst hkey; simp [href]
      · simp [hkey]
    · rw [if_neg href, Table.lookup_erase_ite]
      by_cases hkey : key = r.key
      · subst hkey; simp [href]
      · simp [hkey]

namespace Swept

/-- The steps of a pass with nothing in between, up to the look at `n` objects. -/
def pass (topic : Bytes) (partition nowMs maxAgeMs maxBytes : ℤ) (n : ℕ) : List Event :=
  .readRefs topic partition nowMs maxAgeMs maxBytes :: .prune topic partition ::
    (List.replicate n [.check topic partition, .delete topic partition]).flatten

/-- An object that is still referenced is left where it is, and the others are deleted. -/
theorem delete_check {s : Swept} {k key : Bytes} {cutoff : ℤ} {keys : List Bytes}
    (hw : s.sweeps.lookup k = some (.pruned cutoff (key :: keys))) :
    (s.check k).delete k
      = ⟨if s.node.storage.index.referenced key then s.node else deletedNode s.node key,
          s.sweeps.insert k (.pruned cutoff keys)⟩ := by
  unfold check
  rw [hw]
  dsimp only
  split
  · rw [delete, AList.lookup_insert]
  · rw [delete, AList.lookup_insert]
    dsimp only
    rw [AList.insert_insert]

/-- The last step of a pass. -/
theorem delete_check_nil {s : Swept} {k : Bytes} {cutoff : ℤ} {l : ObjectLog}
    (hw : s.sweeps.lookup k = some (.pruned cutoff [])) (hl : s.node.logs.lookup k = some l) :
    (s.check k).delete k
      = ⟨{ s.node with logs := s.node.logs.insert k (l.raiseEarliest (some cutoff)) },
          s.sweeps.erase k⟩ := by
  rw [check, hw]
  dsimp only
  rw [delete, AList.lookup_erase]
  dsimp only
  rw [endedNode, hl]

/-- The steps of a pass that has its keys still to look at. -/
theorem run_keys {topic k : Bytes} {partition : ℤ} (hk : indexKey topic partition = k)
    (cutoff : ℤ) {l : ObjectLog} (keys : List Bytes) {s : Swept}
    (hw : s.sweeps.lookup k = some (.pruned cutoff keys)) (hl : s.node.logs.lookup k = some l) :
    let s' := run step s
      (List.replicate (keys.length + 1) [.check topic partition, .delete topic partition]).flatten
    ¬ s'.Locked k ∧ s'.node.storage.index = s.node.storage.index ∧
      s'.node.logs = s.node.logs.insert k (l.raiseEarliest (some cutoff)) ∧
      ∀ key, s'.node.storage.objects.lookup key
        = if key ∈ keys ∧ ¬ s.node.storage.index.referenced key then none
          else s.node.storage.objects.lookup key := by
  have hround : ∀ s : Swept, run step s [.check topic partition, .delete topic partition]
      = (s.check k).delete k := by
    rw [← hk]
    exact fun _ => rfl
  induction keys generalizing s with
  | nil =>
    rw [List.length_nil, List.replicate_one, List.flatten_singleton, hround,
      delete_check_nil hw hl]
    exact ⟨not_not.mpr (AList.lookup_erase _ _), rfl, rfl, by simp⟩
  | cons key keys ih =>
    rw [List.length_cons, List.replicate_succ, List.flatten_cons, run_append, hround,
      delete_check hw]
    have hnode : (if s.node.storage.index.referenced key then s.node
          else deletedNode s.node key).storage.index = s.node.storage.index ∧
        (if s.node.storage.index.referenced key then s.node
          else deletedNode s.node key).logs = s.node.logs := by
      split <;> exact ⟨rfl, rfl⟩
    obtain ⟨h₁, h₂, h₃, h₄⟩ := ih (s := ⟨_, s.sweeps.insert _ (.pruned cutoff keys)⟩)
      (AList.lookup_insert _) (by rw [hnode.2]; exact hl)
    refine ⟨h₁, h₂.trans hnode.1, h₃.trans (by rw [hnode.2]), fun key' => (h₄ key').trans ?_⟩
    dsimp only
    rw [hnode.1]
    by_cases href : s.node.storage.index.referenced key
    · by_cases hkey : key' = key <;> simp [hkey, href]
    · rw [if_neg href, deletedNode, Table.lookup_erase_ite]
      by_cases hkey : key' = key <;> simp [hkey, href]

/-- The pass over a partition has ended, and has made the node what it should. -/
structure EndsAs (s : Swept) (k : Bytes) (n : Node) : Prop where
  unlocked : ¬ s.Locked k
  index : s.node.storage.index = n.storage.index
  logs : ∀ j, s.node.logs.lookup j = n.logs.lookup j
  objects : ∀ key, s.node.storage.objects.lookup key = n.storage.objects.lookup key

/-- **A pass with nothing in between does what `enforceRetention` does** to the index,
to the handle and to the objects. -/
theorem run_sweep (s : Swept) (topic : Bytes) (partition nowMs maxAgeMs maxBytes : ℤ)
    (hlock : ¬ s.Locked (indexKey topic partition)) :
    ∃ count, EndsAs (run step s (pass topic partition nowMs maxAgeMs maxBytes count))
      (indexKey topic partition)
      (s.node.enforceRetention (indexKey topic partition) nowMs maxAgeMs maxBytes) := by
  generalize hk : indexKey topic partition = k at hlock ⊢
  -- where there is nothing to drop, no step does anything
  have hidle : s.readRefs k nowMs maxAgeMs maxBytes = s →
      run step s (pass topic partition nowMs maxAgeMs maxBytes 0) = s := fun hread => by
    subst hk
    show (s.readRefs _ nowMs maxAgeMs maxBytes).prune _ = s
    rw [hread, prune, not_not.mp hlock]
  cases hfree : s.node.free k with
  | none =>
    refine ⟨0, ?_⟩
    rw [hidle (by rw [readRefs, if_neg hlock, hfree]), Node.enforceRetention, hfree]
    exact ⟨hlock, rfl, fun _ => rfl, fun _ => rfl⟩
  | some l =>
    have hl := (Node.free_eq_some hfree).2
    rw [Node.enforceRetention, hfree]
    dsimp only
    rw [enforceRetention_eq]
    cases hcut : s.node.storage.cutoff k nowMs maxAgeMs maxBytes with
    | none =>
      refine ⟨0, ?_⟩
      rw [hidle (by rw [readRefs, if_neg hlock, hfree]; dsimp only; rw [hcut])]
      refine ⟨hlock, rfl, fun j => ?_, fun _ => rfl⟩
      show _ = (s.node.logs.insert k l).lookup j
      rw [Table.lookup_insert_ite]
      split
      · next hj => rw [hj, hl]
      · rfl
    | some cutoff =>
      obtain ⟨keys, hkeys, hprune⟩ : ∃ keys, (∀ key, key ∈ keys ↔ key ∈
          (s.node.storage.index.prune k cutoff).2.map (·.key)) ∧
          (s.readRefs k nowMs maxAgeMs maxBytes).prune k
            = ⟨prunedNode s.node k cutoff, s.sweeps.insert k (.pruned cutoff keys)⟩ := by
        refine ⟨_, fun _ => List.mem_eraseDups, ?_⟩
        rw [readRefs, if_neg hlock, hfree]
        dsimp only
        rw [hcut, prune, AList.lookup_insert]
        dsimp only
        rw [AList.insert_insert]
      obtain ⟨h₁, h₂, h₃, h₄⟩ := run_keys hk cutoff keys
        (s := (s.readRefs k nowMs maxAgeMs maxBytes).prune k)
        (by rw [hprune]; exact AList.lookup_insert _) (by rw [hprune]; exact hl)
      subst hk
      refine ⟨keys.length + 1, h₁, h₂.trans (by rw [hprune]; rfl), fun j => ?_,
        fun key => (h₄ key).trans ?_⟩
      · exact congrArg (AList.lookup j) (h₃.trans (by rw [hprune]; rfl))
      · simp only [hprune, hkeys]
        exact (lookup_collected ..).symm

/-- An upload of one batch. -/
def uploadedRun : List Event :=
  [.act (.openLog [116] 0), .act (.append [116] 0 (makeBatch 1 [])), .act (.addPending [116] 0),
    .act .swap, .act (.rotate none), .act (.put 5), .act .commit]

/-- **Witness**: the object goes with the only ref into it. -/
theorem run_sweep_uploaded :
    (run step (fresh [49]) uploadedRun).node.storage.objects.entries.length = 1 ∧
    ((run step (fresh [49]) uploadedRun).node.enforceRetention
      (indexKey [116] 0) 9 3 0).storage.objects.entries = [] ∧
    ∃ count, EndsAs (run step (run step (fresh [49]) uploadedRun) (pass [116] 0 9 3 0 count))
      (indexKey [116] 0)
      ((run step (fresh [49]) uploadedRun).node.enforceRetention (indexKey [116] 0) 9 3 0) :=
  ⟨by decide +kernel, by decide +kernel, run_sweep _ [116] 0 9 3 0 (by decide +kernel)⟩

end Swept

/-- The events of a process that does not end; its retention runs step by step. -/
def Event.Ordinary : Event → Prop
  | .act .restart => False
  | .act (.enforceRetention _ _ _ _ _) => False
  | _ => True

instance (e : Event) : Decidable e.Ordinary := by
  unfold Event.Ordinary
  split <;> infer_instance

/-! ### Objects in use and objects out of use -/

namespace Node

/-- The object of every ref, committed or about to be, is there. -/
structure Resolves (n : Node) : Prop where
  keys : n.KeyInv
  refs : ∀ k, ∀ r ∈ n.committed k, n.storage.objects.lookup r.key ≠ none
  commits : ∀ c ∈ n.phase.commits, n.storage.objects.lookup c.ref.key ≠ none

/-- The object is that of an upload that has committed all its refs. -/
structure Retired (n : Node) (key : Bytes) : Prop where
  seq : ∃ seq ≤ n.storage.uploadSeq, key = objectKey n.storage.nodeID seq
  unput : ∀ seq, n.phase.unputSeq = some seq → key ≠ objectKey n.storage.nodeID seq
  commits : ∀ c ∈ n.phase.commits, c.ref.key ≠ key

/-- No ref points into the object. -/
def Unused (n : Node) (key : Bytes) : Prop := ∀ k, ∀ r ∈ n.committed k, r.key ≠ key

variable {n n' : Node} {key : Bytes}

theorem Resolves.flow (h : n.Resolves) (hkeys : n'.KeyInv) (hf : Flow n n') : n'.Resolves := by
  cases hf with
  | keep hobj hstore _ _ hcommits =>
    refine ⟨hkeys, ?_, ?_⟩
    · intro k r hr
      rw [committed, hstore] at hr
      rw [hobj]
      exact h.refs k r hr
    · intro c hc
      rw [hobj]
      exact h.commits c (hcommits c hc)
  | swap hobj hstore _ _ hcommits =>
    refine ⟨hkeys, ?_, ?_⟩
    · intro k r hr
      rw [committed, hstore] at hr
      rw [hobj]
      exact h.refs k r hr
    · intro c hc
      rw [hcommits] at hc
      cases hc
  | put seq buf hpending hobj hstore _ _ hcommits =>
    -- an object that is put is there, and no other goes
    have hthere : ∀ key', n.storage.objects.lookup key' ≠ none ∨
        key' = objectKey n.storage.nodeID seq → n'.storage.objects.lookup key' ≠ none := by
      intro key' hkey
      rw [hobj, Table.lookup_insert_ite]
      split
      · simp
      · next hne => exact hkey.resolve_right hne
    refine ⟨hkeys, ?_, ?_⟩
    · intro k r hr
      rw [committed, hstore] at hr
      exact hthere _ (.inl (h.refs k r hr))
    · intro c hc
      exact hthere _ (.inr (hcommits c hc))
  | commit c hpending hobj hstore _ _ hcommits =>
    refine ⟨hkeys, ?_, ?_⟩
    · intro k r hr
      rw [committed, hstore, IndexStore.load_commit] at hr
      rw [hobj]
      split at hr
      · rcases List.mem_append.mp hr with hr | hr
        · exact h.refs _ r hr
        · rw [List.mem_singleton.mp hr]
          exact h.commits c hpending
      · exact h.refs k r hr
    · intro d hd
      rw [hobj]
      exact h.commits d (hcommits d hd)

/-- An upload that starts later has another number. -/
theorem Retired.flow (h : n.Retired key) (hid : n'.storage.nodeID = n.storage.nodeID)
    (hf : Flow n n') : n'.Retired key := by
  obtain ⟨seq, hle, hkey⟩ := h.seq
  cases hf with
  | keep _ _ hseq hunput hcommits =>
    refine ⟨⟨seq, hseq ▸ hle, by rw [hid]; exact hkey⟩, ?_, ?_⟩
    · intro s hs
      rw [hid]
      exact h.unput s (hunput s hs)
    · intro c hc
      exact h.commits c (hcommits c hc)
  | swap _ _ hseq hunput hcommits =>
    refine ⟨⟨seq, by omega, by rw [hid]; exact hkey⟩, ?_, ?_⟩
    · intro s hs heq
      rw [hunput] at hs
      cases hs
      rw [hid, hkey] at heq
      have := objectKey_inj heq
      omega
    · intro c hc
      rw [hcommits] at hc
      cases hc
  | put s _ hpending _ _ hseq hunput hcommits =>
    refine ⟨⟨seq, hseq ▸ hle, by rw [hid]; exact hkey⟩, ?_, ?_⟩
    · intro s' hs'
      rw [hunput] at hs'
      cases hs'
    · intro c hc heq
      exact h.unput s hpending (heq.symm.trans (hcommits c hc))
  | commit c _ _ _ hseq hunput hcommits =>
    refine ⟨⟨seq, hseq ▸ hle, by rw [hid]; exact hkey⟩, ?_, ?_⟩
    · intro s' hs'
      rw [hunput] at hs'
      cases hs'
    · intro d hd
      exact h.commits d (hcommits d hd)

/-- No upload brings an object that is out of use back into use. -/
theorem Unused.flow (h : n.Unused key) (hr : n.Retired key) (hf : Flow n n') : n'.Unused key := by
  intro k r hmem
  rw [committed] at hmem
  cases hf with
  | keep _ hstore => rw [hstore] at hmem; exact h k r hmem
  | swap _ hstore => rw [hstore] at hmem; exact h k r hmem
  | put _ _ _ _ hstore => rw [hstore] at hmem; exact h k r hmem
  | commit c hpending _ hstore =>
    rw [hstore, IndexStore.load_commit] at hmem
    split at hmem
    · rcases List.mem_append.mp hmem with hmem | hmem
      · exact h _ r hmem
      · rw [List.mem_singleton.mp hmem]
        exact hr.commits c hpending
    · exact h k r hmem

end Node

/-! ### The invariant -/

/-- The keys that a pass has still to deal with. -/
def Sweep.keys : Sweep → List Bytes
  | .decided _ => []
  | .pruned _ keys => keys
  | .unused _ key keys => key :: keys

namespace Swept

/-- When a pass prunes a ref, the upload under way has no ref into the same object left
to commit. -/
def Settled (s : Swept) : Event → Prop
  | .prune topic partition =>
    match s.sweeps.lookup (indexKey topic partition) with
    | some (.decided cutoff) =>
      ∀ r ∈ (s.node.storage.index.prune (indexKey topic partition) cutoff).2,
        ∀ c ∈ s.node.phase.commits, c.ref.key ≠ r.key
    | _ => True
  | _ => True

instance (s : Swept) (e : Event) : Decidable (s.Settled e) := by
  cases e <;> unfold Settled
  case prune => dsimp only; split <;> infer_instance
  all_goals infer_instance

/-- What holds between the steps. -/
structure Inv (s : Swept) : Prop where
  node : s.node.Resolves
  retired : ∀ k w, s.sweeps.lookup k = some w → ∀ key ∈ w.keys, s.node.Retired key
  unused : ∀ k cutoff key keys, s.sweeps.lookup k = some (.unused cutoff key keys) →
    s.node.Unused key

theorem inv_fresh (nodeID : Bytes) : (fresh nodeID).Inv where
  node := by
    refine ⟨keyInv_fresh nodeID, ?_, ?_⟩
    · intro k r hr; cases hr
    · intro c hc; cases hc
  retired := by intro k w h; cases h
  unused := by intro k cutoff key keys h; cases h

namespace Inv

variable {s : Swept}

/-- A step of the node. -/
theorem act (h : s.Inv) {a : Action} (ha : (Event.act a).Ordinary) : (s.act a).Inv := by
  have hne : a ≠ .restart := by rintro rfl; exact ha
  rw [Swept.act]
  split
  · exact h
  · have hkeys := h.node.keys.step a fun hr => absurd hr hne
    rw [Node.step] at hkeys ⊢
    split
    · next hup =>
      rw [if_pos hup] at hkeys
      obtain ⟨hid, hflow⟩ := flow_act s.node (a := a) (by cases a <;> exact ha)
      refine ⟨h.node.flow hkeys hflow, ?_, ?_⟩
      · intro k w hw key hkey
        exact (h.retired k w hw key hkey).flow hid hflow
      · intro k cutoff key keys hw
        have hretired := h.retired k _ hw key List.mem_cons_self
        exact (h.unused k cutoff key keys hw).flow hretired hflow
    · exact h

/-- A pass that moves on, on a node that has lost some refs or objects. -/
theorem insert (h : s.Inv) {n : Node} {k : Bytes} {w : Sweep} (hn : n.Resolves)
    (hid : n.storage.nodeID = s.node.storage.nodeID)
    (hseq : n.storage.uploadSeq = s.node.storage.uploadSeq) (hphase : n.phase = s.node.phase)
    (hrefs : ∀ j, ∀ r ∈ n.committed j, r ∈ s.node.committed j)
    (hretired : ∀ key ∈ w.keys, s.node.Retired key)
    (hunused : ∀ cutoff key keys, w = .unused cutoff key keys → s.node.Unused key) :
    (⟨n, s.sweeps.insert k w⟩ : Swept).Inv := by
  have hold : ∀ key, s.node.Retired key → n.Retired key := by
    rintro key ⟨hs, hu, hc⟩
    refine ⟨?_, ?_, ?_⟩
    · rw [hseq, hid]; exact hs
    · rw [hphase, hid]; exact hu
    · rw [hphase]; exact hc
  refine ⟨hn, Table.forall_lookup_insert (fun key hkey => hold key (hretired key hkey))
    fun j w' _ hw' key hkey => hold key (h.retired j w' hw' key hkey), ?_⟩
  · intro j cutoff key keys hw' i r hr
    dsimp only at hw'
    rw [Table.lookup_insert_ite] at hw'
    split at hw'
    · exact hunused cutoff key keys (Option.some.inj hw') i r (hrefs i r hr)
    · exact h.unused j cutoff key keys hw' i r (hrefs i r hr)

theorem readRefs (h : s.Inv) (k : Bytes) (nowMs maxAgeMs maxBytes : ℤ) :
    (s.readRefs k nowMs maxAgeMs maxBytes).Inv := by
  rw [Swept.readRefs]
  split
  · exact h
  · split
    · exact h
    · split
      · exact h
      · exact h.insert h.node rfl rfl rfl (fun _ _ => id) (fun _ hk => by cases hk)
          (fun _ _ _ hw => by cases hw)

/-- The refs that are pruned carry the numbers of uploads that have ended. -/
theorem prune (h : s.Inv) {topic : Bytes} {partition : ℤ}
    (hs : s.Settled (.prune topic partition)) : (s.prune (indexKey topic partition)).Inv := by
  rw [Settled] at hs
  rw [Swept.prune]
  split
  · next cutoff hw =>
    rw [hw] at hs
    have hsub : ∀ j, ∀ r ∈ (prunedNode s.node (indexKey topic partition) cutoff).committed j,
        r ∈ s.node.committed j := fun j r hr => IndexStore.mem_load_of_mem_prune hr
    have hpruned : (prunedNode s.node (indexKey topic partition) cutoff).Resolves :=
      ⟨h.node.keys.of_subset hsub, fun j r hr => h.node.refs j r (hsub j r hr), h.node.commits⟩
    apply h.insert hpruned rfl rfl rfl hsub
    · intro key hkey
      obtain ⟨r, hr, rfl⟩ := List.mem_map.mp (List.mem_eraseDups.mp hkey)
      have hold : r ∈ s.node.committed (indexKey topic partition) := (List.mem_filter.mp hr).1
      refine ⟨h.node.keys.refs _ r hold, ?_, hs r hr⟩
      intro seq hseq
      exact (h.node.keys.unput seq hseq).2 _ r hold
    · intro c key keys hw
      cases hw
  · exact h

theorem resolves_endedNode {n : Node} (h : n.Resolves) (k : Bytes) (cutoff : ℤ) :
    (endedNode n k cutoff).Resolves ∧ (endedNode n k cutoff).storage = n.storage ∧
      (endedNode n k cutoff).phase = n.phase := by
  rw [endedNode]
  split
  · exact ⟨h, rfl, rfl⟩
  · exact ⟨⟨h.keys, h.refs, h.commits⟩, rfl, rfl⟩

theorem check (h : s.Inv) (k : Bytes) : (s.check k).Inv := by
  rw [Swept.check]
  split
  · next cutoff hw =>
    obtain ⟨hn, hstorage, hphase⟩ := resolves_endedNode h.node k cutoff
    have hkept : ∀ j w, (s.sweeps.erase k).lookup j = some w → s.sweeps.lookup j = some w := by
      intro j w hj
      rw [Table.lookup_erase_ite] at hj
      split at hj
      · cases hj
      · exact hj
    refine ⟨hn, ?_, ?_⟩
    · intro j w hj key hkey
      obtain ⟨h₁, h₂, h₃⟩ := h.retired j w (hkept j w hj) key hkey
      dsimp only
      refine ⟨?_, ?_, ?_⟩
      · rw [hstorage]; exact h₁
      · rw [hphase, hstorage]; exact h₂
      · rw [hphase]; exact h₃
    · intro j c key keys hj i r hr
      apply h.unused j c key keys (hkept j _ hj) i r
      rw [Node.committed] at hr ⊢
      rwa [hstorage] at hr
  · next cutoff key keys hw =>
    have hretired := h.retired k _ hw
    split
    · exact h.insert h.node rfl rfl rfl (fun _ _ => id)
        (fun key' hk => hretired key' (List.mem_cons_of_mem key hk)) (fun _ _ _ hw => by cases hw)
    · next hfree =>
      refine h.insert (w := .unused cutoff key keys) h.node rfl rfl rfl (fun _ _ => id) hretired ?_
      intro c key' keys' heq j r hr hkey
      cases heq
      exact hfree ((IndexStore.referenced_iff _ _).mpr ⟨j, r, hr, hkey⟩)
  · exact h

/-- An object that is deleted is neither referenced nor about to be. -/
theorem delete (h : s.Inv) (k : Bytes) : (s.delete k).Inv := by
  rw [Swept.delete]
  split
  · next cutoff key keys hw =>
    have hretired := h.retired k _ hw
    have hkept : ∀ key', key' ≠ key →
        (deletedNode s.node key).storage.objects.lookup key' = s.node.storage.objects.lookup key' :=
      fun key' hne => AList.lookup_erase_ne hne
    have hdeleted : (deletedNode s.node key).Resolves := by
      refine ⟨h.node.keys, ?_, ?_⟩
      · intro j r hr
        rw [hkept _ (h.unused k cutoff key keys hw j r hr)]
        exact h.node.refs j r hr
      · intro c hc
        rw [hkept _ ((hretired key List.mem_cons_self).commits c hc)]
        exact h.node.commits c hc
    exact h.insert hdeleted rfl rfl rfl (fun _ _ => id)
      (fun key' hk => hretired key' (List.mem_cons_of_mem key hk)) (fun _ _ _ hw => by cases hw)
  · exact h

/-- **Every step keeps the invariant**, when its prune is settled. -/
theorem step (h : s.Inv) {e : Event} (he : e.Ordinary) (hs : s.Settled e) : (s.step e).Inv := by
  cases e with
  | act a => exact h.act he
  | readRefs topic partition nowMs maxAgeMs maxBytes => exact h.readRefs _ nowMs maxAgeMs maxBytes
  | prune topic partition => exact h.prune hs
  | check topic partition => exact h.check _
  | delete topic partition => exact h.delete _

end Inv

/-- Every committed ref points to an object that is there. -/
def Complete (s : Swept) : Prop :=
  ∀ k, ∀ r ∈ s.node.committed k, ∃ obj, s.node.storage.objects.lookup r.key = some obj

end Swept

/-- **Collection never orphans a ref** in a run whose prunes are all settled: in every
state every ref points to an object that is there.  Uploads may fail in it; no process
ends. -/
theorem refs_resolve (nodeID : Bytes) (es : List Event)
    (h : Along Swept.step (fun s e => e.Ordinary ∧ s.Settled e) (Swept.fresh nodeID) es) :
    Always Swept.step Swept.Complete (Swept.fresh nodeID) es := by
  have hinv : Always Swept.step Swept.Inv (Swept.fresh nodeID) es :=
    h.always (Swept.inv_fresh nodeID) fun s e hs he => hs.step he.1 he.2
  apply hinv.mono
  intro s hs k r hr
  exact Option.ne_none_iff_exists'.mp (hs.node.refs k r hr)

/-- A pass over a partition whose upload has ended. -/
def sweptRun : List Event :=
  [.act (.openLog [116] 0), .act (.openLog [117] 0), .act (.append [116] 0 (makeBatch 1 [])),
    .act (.addPending [116] 0), .act (.append [117] 0 (makeBatch 1 [])),
    .act (.addPending [117] 0), .act .swap, .act (.rotate none), .act (.put 5), .act .commit,
    .readRefs [116] 0 9 3 0, .act .commit, .prune [116] 0, .act .trim, .check [116] 0,
    .check [116] 0]

/-- The pass reads the refs between two commits and prunes after the second: the object
stays, for the other partition. -/
theorem refs_resolve_swept :
    (run Swept.step (Swept.fresh [49]) sweptRun).node.committed (indexKey [116] 0) = [] ∧
      (run Swept.step (Swept.fresh [49]) sweptRun).node.committed (indexKey [117] 0) ≠ [] ∧
      Always Swept.step Swept.Complete (Swept.fresh [49]) sweptRun :=
  ⟨by decide +kernel, by decide +kernel, refs_resolve [49] sweptRun (by decide +kernel)⟩

/-- The same pass, a little earlier: it runs to its end between the two commits. -/
def orphaningRun : List Event :=
  [.act (.openLog [116] 0), .act (.openLog [117] 0), .act (.append [116] 0 (makeBatch 1 [])),
    .act (.addPending [116] 0), .act (.append [117] 0 (makeBatch 1 [])),
    .act (.addPending [117] 0), .act .swap, .act (.rotate none), .act (.put 5), .act .commit,
    .readRefs [116] 0 9 3 0, .prune [116] 0, .check [116] 0, .delete [116] 0, .check [116] 0,
    .act .commit, .act .trim]

/-- **A pass between two commits deletes the object of a ref that is committed after
it.**  At the end the upload has returned without an error, and the ref of the second
partition points to nothing. -/
theorem delete_orphans_ref :
    (∀ e ∈ orphaningRun, e.Ordinary) ∧
      ((run Swept.step (Swept.fresh [49]) orphaningRun).node.committed (indexKey [117] 0)).map
        (·.key) = [objectKey [49] 1] ∧
      (run Swept.step (Swept.fresh [49]) orphaningRun).node.storage.objects.lookup
        (objectKey [49] 1) = none :=
  ⟨by decide +kernel, by decide +kernel, by decide +kernel⟩

end Object
end Mq
