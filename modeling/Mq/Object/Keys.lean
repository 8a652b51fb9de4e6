import Mq.Object.Node

/-!
# The keys of uploaded objects

Every upload of a process has a number of its own, and the object's key is made of
it.  The number starts again with the process, so an upload after a restart can hit
the key of an object that is still in use.

## Main definitions

* `Node.putKey` — the key that an action writes an object under.
* `Node.designated` — the bytes that a ref points to.
* `KeyInv` — the refs carry the numbers of uploads that have ended or are under way.

## Main results

* `flow_act` — everything that an action does to the objects and the refs.
* `upload_keys_fresh` — **no upload overwrites an object in use**, when the process
  is restarted only while no ref is left.
* `restart_reuses_key` — one restart with a ref left makes an upload overwrite the
  bytes of a committed ref.
-/

namespace Mq
namespace Object

open Word Record Transition

theorem objectKey_inj {nodeID : Bytes} {m n : ℕ} (h : objectKey nodeID m = objectKey nodeID n) :
    m = n := by
  apply zeroPad_decimal_inj
  exact List.append_cancel_left h

/-! ### What is put and what is designated -/

namespace Node

/-- The key that an action calls `Put` with. -/
def putKey (n : Node) (a : Action) : Option Bytes :=
  match a, n.phase with
  | .put _, .rotated _ seq _ => if n.up then some (objectKey n.storage.nodeID seq) else none
  | .putFail _ _, .rotated _ seq _ =>
    if n.up then some (objectKey n.storage.nodeID seq) else none
  | _, _ => none

/-- The bytes of the span that a ref names. -/
def designated (n : Node) (r : SegmentRef) : Option Bytes :=
  (n.storage.objects.lookup r.key).map fun o => slice o r.position.toNat r.length.toNat

/-- The action puts no object under a key in use. -/
def KeyFresh (n : Node) (a : Action) : Prop :=
  ∀ key, n.putKey a = some key → n.storage.index.store.referenced key = false

/-- A ref that is there before and after the action designates the same bytes. -/
def RefsStable (n : Node) (a : Action) : Prop :=
  ∀ k r, r ∈ n.committed k → r ∈ (n.step a).committed k →
    (n.step a).designated r = n.designated r

end Node

/-! ### Restarts -/

/-- Replaying a record touches the buffer and what was recovered, nothing else. -/
theorem replayRecord_frame {s s' : Storage} {rec : WalRecord} (h : s.replayRecord rec = .ok s') :
    s'.nodeID = s.nodeID ∧ s'.objects = s.objects ∧ s'.index = s.index ∧
      s'.uploadSeq = s.uploadSeq := by
  rw [Storage.replayRecord] at h
  cases hp : parseHeader rec.batch with
  | error e => rw [hp] at h; exact absurd h (by simp [bind, Except.bind])
  | ok hd =>
    rw [hp] at h
    cases h
    exact ⟨rfl, rfl, rfl, rfl⟩

theorem replay_frame : ∀ (recs : List WalRecord) {s s' : Storage},
    recs.foldlM Storage.replayRecord s = .ok s' →
      s'.nodeID = s.nodeID ∧ s'.objects = s.objects ∧ s'.index = s.index ∧
        s'.uploadSeq = s.uploadSeq := by
  intro recs
  induction recs with
  | nil => intro s s' h; cases h; exact ⟨rfl, rfl, rfl, rfl⟩
  | cons rec recs ih =>
    intro s s' h
    rw [List.foldlM_cons] at h
    cases hr : s.replayRecord rec with
    | error e => rw [hr] at h; exact absurd h (by simp [bind, Except.bind])
    | ok s₁ =>
      rw [hr] at h
      obtain ⟨h₁, h₂, h₃, h₄⟩ := replayRecord_frame hr
      obtain ⟨g₁, g₂, g₃, g₄⟩ := ih h
      exact ⟨g₁.trans h₁, g₂.trans h₂, g₃.trans h₃, g₄.trans h₄⟩

/-- A restart keeps the objects and the refs, and ends the upload under way. -/
theorem restart_frame (n : Node) :
    n.restart.storage.nodeID = n.storage.nodeID ∧
      n.restart.storage.objects = n.storage.objects ∧
      n.restart.storage.index.store = n.storage.index.store ∧ n.restart.phase = .idle := by
  rw [Node.restart]
  split
  · next s hs =>
    obtain ⟨h₁, h₂, h₃, -⟩ := replay_frame _ hs
    exact ⟨h₁, h₂, by show s.index.store = _; rw [h₃], rfl⟩
  · exact ⟨rfl, rfl, rfl, rfl⟩

/-! ### The numbers of the uploads -/

/-- The number of an upload that has not put its object. -/
def Phase.unputSeq : Phase → Option ℕ
  | .swapped _ seq => some seq
  | .rotated _ seq _ => some seq
  | _ => none

/-! ### What an action does to the objects -/

/-- The actions of a process that runs on, other than retention. -/
def Action.Uploads : Action → Prop
  | .restart | .enforceRetention _ _ _ _ _ => False
  | _ => True

/-- An action of the node leaves the objects and the refs, starts an upload, puts an
object, or commits a ref. -/
inductive Flow (n n' : Node) : Prop
  | keep (objects : n'.storage.objects = n.storage.objects)
      (store : n'.storage.index.store = n.storage.index.store)
      (uploadSeq : n'.storage.uploadSeq = n.storage.uploadSeq)
      (unput : ∀ seq, n'.phase.unputSeq = some seq → n.phase.unputSeq = some seq)
      (commits : ∀ c ∈ n'.phase.commits, c ∈ n.phase.commits)
  | swap (objects : n'.storage.objects = n.storage.objects)
      (store : n'.storage.index.store = n.storage.index.store)
      (uploadSeq : n'.storage.uploadSeq = n.storage.uploadSeq + 1)
      (unput : n'.phase.unputSeq = some (n.storage.uploadSeq + 1))
      (commits : n'.phase.commits = [])
  | put (seq : ℕ) (buf : Bytes) (pending : n.phase.unputSeq = some seq)
      (objects : n'.storage.objects
        = n.storage.objects.insert (objectKey n.storage.nodeID seq) buf)
      (store : n'.storage.index.store = n.storage.index.store)
      (uploadSeq : n'.storage.uploadSeq = n.storage.uploadSeq)
      (unput : n'.phase.unputSeq = none)
      (commits : ∀ c ∈ n'.phase.commits, c.ref.key = objectKey n.storage.nodeID seq)
  | commit (c : Commit) (pending : c ∈ n.phase.commits)
      (objects : n'.storage.objects = n.storage.objects)
      (store : n'.storage.index.store = n.storage.index.store.commit c.indexKey c.ref)
      (uploadSeq : n'.storage.uploadSeq = n.storage.uploadSeq)
      (unput : n'.phase.unputSeq = none)
      (commits : ∀ d ∈ n'.phase.commits, d ∈ n.phase.commits)

theorem SameObjects.flow {n n' : Node} (h : SameObjects n n') :
    n'.storage.nodeID = n.storage.nodeID ∧ Flow n n' := by
  refine ⟨h.nodeID, .keep h.objects h.store h.uploadSeq ?_ ?_⟩
  · intro seq; rw [h.phase]; exact id
  · intro c; rw [h.phase]; exact id

/-- **Everything that an action does to the objects and the refs.** -/
theorem flow_act (n : Node) {a : Action} (ha : a.Uploads) :
    (n.act a).storage.nodeID = n.storage.nodeID ∧ Flow n (n.act a) := by
  cases a with
  | openLog | append | appendReplica | addPending => exact SameObjects.flow (.act n trivial)
  | swap =>
    rw [Node.act]
    rcases n.swap_cases with hn | ⟨-, -, hn⟩ <;> rw [hn]
    · exact (SameObjects.refl n).flow
    · exact ⟨rfl, .swap rfl rfl rfl rfl rfl⟩
  | rotate fault =>
    rw [Node.act]
    rcases n.rotate_cases fault with hn | ⟨snap, seq, hp, ⟨w, -, hn⟩ | ⟨w, q, -, hn⟩⟩ <;> rw [hn]
    · exact (SameObjects.refl n).flow
    · exact ⟨rfl, .keep rfl rfl rfl (fun _ h => by cases h) (fun _ h => by cases h)⟩
    · refine ⟨rfl, .keep rfl rfl rfl ?_ (fun _ h => by cases h)⟩
      intro s hs
      rw [hp]
      exact hs
  | put nowMs =>
    rw [Node.act]
    rcases n.put_cases nowMs with hn | ⟨snap, seq, q, hp, hn⟩ <;> rw [hn]
    · exact (SameObjects.refl n).flow
    · refine ⟨rfl, .put seq _ (by rw [hp]; rfl) rfl rfl rfl rfl ?_⟩
      intro c hc
      obtain ⟨pp, -, pos, rfl, -⟩ := exists_of_mem_assemble hc
      rfl
  | putFail nowMs stored =>
    rw [Node.act]
    rcases n.putFail_cases nowMs stored with hn | ⟨snap, seq, q, hp, s, hs, hn⟩ <;> rw [hn]
    · exact (SameObjects.refl n).flow
    · rcases hs with rfl | rfl
      · exact ⟨rfl, .keep rfl rfl rfl (fun _ h => by cases h) (fun _ h => by cases h)⟩
      · exact ⟨rfl, .put seq _ (by rw [hp]; rfl) rfl rfl rfl rfl (fun _ h => by cases h)⟩
  | commit =>
    rw [Node.act]
    rcases n.commit_cases with hn | ⟨snap, c, cs, q, hp, hn⟩ <;> rw [hn]
    · exact (SameObjects.refl n).flow
    · refine ⟨rfl, .commit c (by rw [hp]; exact List.mem_cons_self) rfl rfl rfl rfl ?_⟩
      intro d hd
      rw [hp]
      exact List.mem_cons_of_mem c hd
  | commitFail stored =>
    rw [Node.act]
    rcases n.commitFail_cases stored with hn | ⟨snap, c, cs, q, hp, hn | hn⟩ <;> rw [hn]
    · exact (SameObjects.refl n).flow
    · exact ⟨rfl, .keep rfl rfl rfl (fun _ h => by cases h) (fun _ h => by cases h)⟩
    · exact ⟨rfl, .commit c (by rw [hp]; exact List.mem_cons_self) rfl rfl rfl rfl
        (fun _ h => by cases h)⟩
  | trim =>
    rw [Node.act]
    rcases n.trim_cases with hn | ⟨snap, q, -, hn⟩ <;> rw [hn]
    · exact (SameObjects.refl n).flow
    · exact ⟨rfl, .keep rfl rfl rfl (fun _ h => by cases h) (fun _ h => by cases h)⟩
  | enforceRetention | restart => exact absurd ha id

/-! ### The keys of the refs -/

/-- Every ref carries the number of an upload of this process, and none the number
of an upload that has not put its object. -/
structure KeysOk (nodeID : Bytes) (store : IndexStore) (uploadSeq : ℕ) (phase : Phase) : Prop where
  refs : ∀ k, ∀ r ∈ store.load k, ∃ seq ≤ uploadSeq, r.key = objectKey nodeID seq
  unput : ∀ seq, phase.unputSeq = some seq → seq = uploadSeq ∧
    ∀ k, ∀ r ∈ store.load k, r.key ≠ objectKey nodeID seq
  commits : ∀ c ∈ phase.commits, c.ref.key = objectKey nodeID uploadSeq

/-- Taking refs away keeps the keys in order. -/
theorem KeysOk.of_subset {nodeID : Bytes} {store store' : IndexStore} {uploadSeq : ℕ}
    {phase : Phase} (h : KeysOk nodeID store uploadSeq phase)
    (hsub : ∀ k, ∀ r ∈ store'.load k, r ∈ store.load k) :
    KeysOk nodeID store' uploadSeq phase := by
  refine ⟨fun k r hr => h.refs k r (hsub k r hr), fun seq hseq => ?_, h.commits⟩
  obtain ⟨heq, hne⟩ := h.unput seq hseq
  exact ⟨heq, fun k r hr => hne k r (hsub k r hr)⟩

/-- The keys of a node are in order. -/
def Node.KeyInv (n : Node) : Prop :=
  KeysOk n.storage.nodeID n.storage.index.store n.storage.uploadSeq n.phase

/-! ### Retention and the objects -/

theorem lookup_collect {ix : Index} {objects : Table Bytes Bytes} {r : SegmentRef} {key : Bytes}
    (hkey : ix.referenced key = true) :
    (Storage.collect ix objects r).lookup key = objects.lookup key := by
  rw [Storage.collect]
  split
  · rfl
  · next hr =>
    apply AList.lookup_erase_ne
    intro heq
    exact hr (heq ▸ hkey)

/-- Retention deletes no object that is still referenced. -/
theorem lookup_foldl_collect {ix : Index} {key : Bytes} (hkey : ix.referenced key = true) :
    ∀ (gone : List SegmentRef) (objects : Table Bytes Bytes),
      (gone.foldl (Storage.collect ix) objects).lookup key = objects.lookup key := by
  intro gone
  induction gone with
  | nil => intro objects; rfl
  | cons r gone ih =>
    intro objects
    rw [List.foldl_cons, ih, lookup_collect hkey]

/-! ### Steps and runs -/

/-- The object of a ref that is left is left. -/
theorem Storage.lookup_pruned {s : Storage} {k j : Bytes} {cutoff : ℤ} {r : SegmentRef}
    (hr : r ∈ (s.pruned k cutoff).index.store.load j) :
    (s.pruned k cutoff).objects.lookup r.key = s.objects.lookup r.key :=
  lookup_foldl_collect ((IndexStore.referenced_iff _ _).mpr ⟨j, r, hr, rfl⟩) _ _

namespace Node

variable {n : Node}

theorem KeyInv.flow {n' : Node} (h : n.KeyInv) (hid : n'.storage.nodeID = n.storage.nodeID)
    (hf : Flow n n') : n'.KeyInv := by
  unfold KeyInv
  cases hf with
  | keep _ hstore hseq hunput hcommits =>
    rw [hid, hstore, hseq]
    exact ⟨h.refs, fun seq hs => h.unput seq (hunput seq hs), fun c hc => h.commits c (hcommits c hc)⟩
  | swap _ hstore hseq hunput hcommits =>
    rw [hid, hstore, hseq]
    refine ⟨fun k r hr => ?_, fun seq hs => ?_, fun c hc => ?_⟩
    · obtain ⟨seq, hle, hkey⟩ := h.refs k r hr
      exact ⟨seq, Nat.le_succ_of_le hle, hkey⟩
    · -- the next number is above those of all refs
      obtain rfl := Option.some.inj (hunput.symm.trans hs)
      refine ⟨rfl, fun k r hr hkey => ?_⟩
      obtain ⟨seq, hle, hkey'⟩ := h.refs k r hr
      have := objectKey_inj (hkey.symm.trans hkey')
      omega
    · rw [hcommits] at hc; cases hc
  | put seq buf hpending _ hstore hseq hunput hcommits =>
    obtain ⟨rfl, -⟩ := h.unput seq hpending
    rw [hid, hstore, hseq]
    exact ⟨h.refs, fun seq hs => by simp [hunput] at hs, hcommits⟩
  | commit c hpending _ hstore hseq hunput hcommits =>
    rw [hid, hstore, hseq]
    refine ⟨fun k r hr => ?_, fun seq hs => by simp [hunput] at hs,
      fun d hd => h.commits d (hcommits d hd)⟩
    rw [IndexStore.load_commit] at hr
    split at hr
    · rcases List.mem_append.mp hr with hr | hr
      · exact h.refs _ r hr
      · rw [List.mem_singleton.mp hr]
        exact ⟨_, le_rfl, h.commits c hpending⟩
    · exact h.refs k r hr

/-- The actions other than a restart keep the keys in order; so does a restart when
no ref is left. -/
theorem KeyInv.act (h : n.KeyInv) (a : Action)
    (ha : a = .restart → ∀ k, n.committed k = []) : (n.act a).KeyInv := by
  by_cases hup : a.Uploads
  · obtain ⟨hid, hflow⟩ := flow_act n hup
    exact h.flow hid hflow
  · cases a with
    | enforceRetention topic partition nowMs maxAgeMs maxBytes =>
      rw [Node.act]
      rcases n.enforceRetention_cases (indexKey topic partition) nowMs maxAgeMs maxBytes with
        hn | ⟨l, -, hn | ⟨d, r, -, -, hn⟩⟩ <;> rw [hn]
      · exact h
      · exact h
      · exact KeysOk.of_subset h fun k r hr => IndexStore.mem_load_of_mem_prune hr
    | restart =>
      obtain ⟨-, -, hstore, hphase⟩ := restart_frame n
      -- there is no ref whose number could be used again
      have hnone : ∀ k, n.restart.storage.index.store.load k = [] := by
        intro k; rw [hstore]; exact ha rfl k
      show n.restart.KeyInv
      rw [KeyInv, hphase]
      refine ⟨fun k r hr => ?_, fun seq hseq => ?_, fun c hc => ?_⟩
      · rw [hnone k] at hr; cases hr
      · cases hseq
      · cases hc
    | _ => exact absurd trivial hup

theorem KeyInv.step (h : n.KeyInv) (a : Action)
    (ha : a = .restart → ∀ k, n.committed k = []) : (n.step a).KeyInv := by
  rw [Node.step]
  split
  · exact h.act a ha
  · split
    · next hr => subst hr; exact h.act .restart ha
    · exact h

/-- An upload that puts its object has a number that no ref carries. -/
theorem KeyInv.keyFresh (h : n.KeyInv) (a : Action) : n.KeyFresh a := by
  intro key hkey
  -- only the two put actions name a key, and only after the rotation
  have hunput : ∃ seq, n.phase.unputSeq = some seq ∧ key = objectKey n.storage.nodeID seq := by
    unfold putKey at hkey
    cases hup : n.up with
    | false => rw [hup] at hkey; split at hkey <;> cases hkey
    | true =>
      rw [hup] at hkey
      split at hkey
      · next hp => exact ⟨_, by rw [hp]; rfl, (Option.some.inj hkey).symm⟩
      · next hp => exact ⟨_, by rw [hp]; rfl, (Option.some.inj hkey).symm⟩
      · cases hkey
  obtain ⟨seq, hseq, rfl⟩ := hunput
  rw [← Bool.not_eq_true, IndexStore.referenced_iff]
  rintro ⟨k, r, hr, hrkey⟩
  exact (h.unput seq hseq).2 k r hr hrkey

/-- No action changes the object of a ref that stays. -/
theorem KeyInv.lookup_act (h : n.KeyInv) (a : Action) {k : Bytes} {r : SegmentRef}
    (hr : r ∈ n.committed k) (hr' : r ∈ (n.act a).committed k) :
    (n.act a).storage.objects.lookup r.key = n.storage.objects.lookup r.key := by
  by_cases hup : a.Uploads
  · obtain ⟨-, hflow⟩ := flow_act n hup
    cases hflow with
    | keep hobj | swap hobj => rw [hobj]
    | put seq buf hpending hobj =>
      rw [hobj]
      exact AList.lookup_insert_ne ((h.unput seq hpending).2 k r hr)
    | commit c hpending hobj => rw [hobj]
  · cases a with
    | enforceRetention topic partition nowMs maxAgeMs maxBytes =>
      rw [Node.act] at hr' ⊢
      rcases n.enforceRetention_cases (indexKey topic partition) nowMs maxAgeMs maxBytes with
        hn | ⟨l, -, hn | ⟨d, q, -, -, hn⟩⟩ <;> rw [hn] at hr' ⊢
      -- the object of a ref that is left is still referenced
      exact Storage.lookup_pruned hr'
    | restart => rw [Node.act, (restart_frame n).2.1]
    | _ => exact absurd trivial hup

theorem KeyInv.refsStable (h : n.KeyInv) (a : Action) : n.RefsStable a := by
  intro k r hr hr'
  rw [designated, designated]
  congr 1
  rw [Node.step] at hr' ⊢
  split at hr'
  · next hup => rw [if_pos hup]; exact h.lookup_act a hr hr'
  · next hup =>
    rw [if_neg hup]
    split
    · exact congrArg (AList.lookup r.key) (restart_frame n).2.1
    · rfl

end Node

theorem keyInv_fresh (nodeID : Bytes) : (Node.fresh nodeID).KeyInv := by
  refine ⟨?_, ?_, ?_⟩
  · intro k r hr; cases hr
  · intro seq hseq; cases hseq
  · intro c hc; cases hc

/-- **An upload never overwrites an object in use**, and the bytes of a committed ref
never change, in every run whose restarts all happen while the index store holds no
ref. -/
theorem upload_keys_fresh (nodeID : Bytes) (as : List Action)
    (h : Along Node.step (fun n a => a = .restart → ∀ k, n.committed k = [])
      (Node.fresh nodeID) as) :
    Along Node.step (fun n a => n.KeyFresh a ∧ n.RefsStable a) (Node.fresh nodeID) as := by
  have hinv : Always Node.step Node.KeyInv (Node.fresh nodeID) as :=
    h.always (keyInv_fresh nodeID) fun n a hn ha => hn.step a ha
  exact hinv.along.mono fun n a hn => ⟨hn.1.keyFresh a, hn.1.refsStable a⟩

/-- Two uploads with a restart between them, when retention has dropped the refs of
the first. -/
def emptiedRun : List Action :=
  [.openLog [116] 0, .append [116] 0 (makeBatch 1 []), .addPending [116] 0,
    .swap, .rotate none, .put 5, .commit, .trim, .enforceRetention [116] 0 9 0 1, .restart,
    .openLog [116] 1, .append [116] 1 (makeBatch 1 []), .addPending [116] 1,
    .swap, .rotate none, .put 9, .commit, .trim]

theorem upload_keys_fresh_emptied :
    Along Node.step (fun n a => n.KeyFresh a ∧ n.RefsStable a) (Node.fresh [49]) emptiedRun := by
  have hempty : Along Node.step
      (fun n a => a = .restart → ∀ e ∈ n.storage.index.store.entries, e.2 = [])
      (Node.fresh [49]) emptiedRun := by decide +kernel
  exact upload_keys_fresh [49] emptiedRun
    (hempty.mono fun n a h hrestart k => IndexStore.load_eq_nil (h hrestart) k)

/-- An upload of one partition, a restart, and the start of an upload of another. -/
def reuseRun : List Action :=
  [.openLog [116] 0, .append [116] 0 (makeBatch 1 [7]), .addPending [116] 0,
    .swap, .rotate none, .put 5, .commit, .trim, .restart,
    .openLog [116] 1, .append [116] 1 (makeBatch 1 []), .addPending [116] 1,
    .swap, .rotate none]

/-- The ref that the first upload committed. -/
def reusedRef : SegmentRef := ⟨objectKey [49] 1, 0, 1, 0, 62, 5⟩

/-- The second process counts its uploads from one again: it puts its object under
the key of the first, and the ref of the first designates other bytes. -/
theorem restart_reuses_key :
    ¬ (run Node.step (Node.fresh [49]) reuseRun).KeyFresh (.put 9) ∧
      ¬ (run Node.step (Node.fresh [49]) reuseRun).RefsStable (.put 9) := by
  constructor
  · intro hfresh
    have hkey : (run Node.step (Node.fresh [49]) reuseRun).putKey (.put 9)
        = some (objectKey [49] 1) := by decide +kernel
    have hused : (run Node.step (Node.fresh [49]) reuseRun).storage.index.store.referenced
        (objectKey [49] 1) = true := by decide +kernel
    rw [hfresh _ hkey] at hused
    cases hused
  · intro hstable
    have hbefore : reusedRef ∈ (run Node.step (Node.fresh [49]) reuseRun).committed
        (indexKey [116] 0) := by decide +kernel
    have hafter : reusedRef ∈ ((run Node.step (Node.fresh [49]) reuseRun).step (.put 9)).committed
        (indexKey [116] 0) := by decide +kernel
    have hchanged : ((run Node.step (Node.fresh [49]) reuseRun).step (.put 9)).designated reusedRef
        ≠ (run Node.step (Node.fresh [49]) reuseRun).designated reusedRef := by decide +kernel
    exact hchanged (hstable _ _ hbefore hafter)

end Object
end Mq
