import Mq.Object.Collect
import Mq.Object.Failure
import Mq.Object.Read

/-!
# Where the batches are, at every step

Everything that was appended to a partition and not dropped by retention is in one of three
places: in the objects that its refs point to, in the part that an upload has taken from the
buffer and not yet committed, or in the buffer.  The appends, the retention passes and the
steps of an upload come in any order.

The invariant says this once, about the whole history of a partition: it is what was dropped,
then the batches behind the refs, then those that an upload has taken, then the pending ones.

## Main definitions

* `Node.Spans` — the batches that a ref points to.
* `Node.history` — what a run appends to a partition.
* `Node.Regular` — the steps that leave every batch in one of its places.
* `Located` — what holds between the steps.

## Main results

* `Located.act`, `located_run` — **every batch that was appended and not dropped is in one
  of three places**, in every run of regular steps.
-/

namespace Mq
namespace Object

open Word Record Transition

/-! ### Places -/

namespace Node

/-- The span that a ref names holds these batches, and they cover its offsets. -/
def Spans (n : Node) (r : SegmentRef) (bs : List Bytes) : Prop :=
  getRange n.storage.objects r.key r.position r.length = some bs.flatten ∧
    Contiguous r.baseOffset bs r.nextOffset

/-- What a run appends to a partition. -/
def history (n : Node) (as : List Action) (k : Bytes) : List Bytes := inPartition k (n.buffered as)

/-- The history of a partition, by the places that its batches are in. -/
def Places (n : Node) (k : Bytes) (log : List Bytes) : Prop :=
  ∃ dropped parts,
    log = dropped ++ parts.flatten ++ (n.takenBatches k ++ n.pendingBatches k) ∧
      List.Forall₂ n.Spans (n.committed k) parts

/-- A ref that an upload has yet to commit points into the object that it has put. -/
def Filed (n : Node) (c : Commit) : Prop :=
  ∃ pp nowMs buf, n.phase.outstanding c.indexKey = some pp ∧
    n.storage.objects.lookup c.ref.key = some buf ∧ pp.FiledAs c.ref.key nowMs buf c

/-- **The steps that leave every batch in one of its places.**  A batch that is not refused
consists of its own bytes and moves the log end up.  The index store takes every ref.
Retention prunes no ref of an upload that has refs to commit.  The process does not end. -/
def Regular (n : Node) : Action → Prop
  | .append topic partition batch =>
    Mq.Storage.Parses batch → Framed batch ∧ n.Advances (.append topic partition batch)
  | .appendReplica topic partition batch =>
    Mq.Storage.Parses batch → Framed batch ∧ n.Advances (.appendReplica topic partition batch)
  | .commitFail _ => n.phase.commits = []
  | .enforceRetention topic partition nowMs maxAgeMs maxBytes =>
    ∀ cutoff ∈ (n.storage.enforceRetention (indexKey topic partition) nowMs maxAgeMs maxBytes).2,
      ∀ r ∈ (n.storage.index.prune (indexKey topic partition) cutoff).2,
        ∀ c ∈ n.phase.commits, c.ref.key ≠ r.key
  | .restart => False
  | _ => True

instance (n : Node) : ∀ a, Decidable (n.Regular a)
  | .append _ _ _ | .appendReplica _ _ _ => inferInstanceAs (Decidable (_ → _ ∧ _))
  | .commitFail _ => inferInstanceAs (Decidable (_ = _))
  | .enforceRetention topic partition nowMs maxAgeMs maxBytes => inferInstanceAs (Decidable
      (∀ cutoff ∈ (n.storage.enforceRetention (indexKey topic partition) nowMs maxAgeMs maxBytes).2,
        ∀ r ∈ (n.storage.index.prune (indexKey topic partition) cutoff).2,
          ∀ c ∈ n.phase.commits, c.ref.key ≠ r.key))
  | .restart => inferInstanceAs (Decidable False)
  | .openLog _ _ | .addPending _ _ | .swap | .rotate _ | .put _ | .putFail _ _ | .commit | .trim =>
    inferInstanceAs (Decidable True)

theorem Regular.orders {n : Node} {a : Action} (h : n.Regular a) : n.Orders a := by
  cases a with
  | append topic partition batch => exact fun hb => (h hb).2
  | appendReplica topic partition batch => exact fun hb => (h hb).2
  | commitFail stored => exact h
  | restart => exact h
  | _ => trivial

end Node

theorem forall₂_of_mem {α β : Type*} {R S : α → β → Prop} {l : List α} {m : List β}
    (h : List.Forall₂ R l m) (hRS : ∀ a ∈ l, ∀ b, R a b → S a b) : List.Forall₂ S l m := by
  induction h with
  | nil => exact .nil
  | cons hab _ ih =>
    refine .cons (hRS _ List.mem_cons_self _ hab) (ih ?_)
    intro a ha b
    exact hRS a (List.mem_cons_of_mem _ ha) b

theorem exists_mem_of_forall₂ {α β : Type*} {R : α → β → Prop} {l : List α} {m : List β}
    (h : List.Forall₂ R l m) {a : α} (ha : a ∈ l) : ∃ b ∈ m, R a b := by
  induction h with
  | nil => cases ha
  | cons hab _ ih =>
    rcases List.mem_cons.mp ha with rfl | ha
    · exact ⟨_, List.mem_cons_self, hab⟩
    · obtain ⟨b, hb, hR⟩ := ih ha
      exact ⟨b, List.mem_cons_of_mem _ hb, hR⟩

namespace Node

variable {n n' : Node} {k : Bytes} {log : List Bytes}

theorem Spans.of_lookup {r : SegmentRef} {bs : List Bytes} (h : n.Spans r bs)
    (hobj : n'.storage.objects.lookup r.key = n.storage.objects.lookup r.key) :
    n'.Spans r bs := by
  rw [Spans, getRange, hobj]
  exact h

/-- The part that an upload has put into its object is what its ref points to. -/
theorem spans_of_filedAs {key : Bytes} {nowMs : ℤ} {buf : Bytes} {c : Commit} {pp : PendingPart}
    (hobj : n.storage.objects.lookup key = some buf) (hfiled : pp.FiledAs key nowMs buf c)
    (hok : pp.Ok k) (hframed : ∀ b ∈ pp.batches, Framed b) : n.Spans c.ref pp.batches := by
  obtain ⟨pos, rfl, hslice⟩ := hfiled
  refine ⟨?_, hok.contiguous⟩
  -- the part is not empty, so the range is asked for as such
  have hpos : ¬ ((pp.batches.flatten.length : ℤ) ≤ 0) := by
    have := length_le_flatten_length hframed
    have := List.length_pos_of_ne_nil hok.ne_nil
    omega
  rw [getRange, PendingPart.commit]
  dsimp only
  rw [hobj, Option.map_some, if_neg hpos, Int.toNat_natCast, Int.toNat_natCast, hslice]

/-- A cut at the end of a ref of one partition leaves a tail of the refs of each, and the
objects of those. -/
theorem forall₂_spans_pruned {a z : ℤ} {j : Bytes} {d : ℕ} {r : SegmentRef}
    {logs : Table Bytes ObjectLog} {parts : List (List Bytes)}
    (hparts : List.Forall₂ n.Spans (n.committed k) parts) (hchain : RefChain a (n.committed j) z)
    (hcache : n.storage.index.refsFor j = n.committed j) (hr : (n.committed j)[d]? = some r) :
    ∃ i, List.Forall₂ (Spans { n with storage := n.storage.pruned j r.nextOffset, logs := logs })
      ((n.storage.pruned j r.nextOffset).index.store.load k) (parts.drop i) := by
  obtain ⟨i, hrefs⟩ : ∃ i, (n.storage.pruned j r.nextOffset).index.store.load k
      = (n.committed k).drop i := by
    by_cases hk : k = j
    · exact ⟨d + 1, hk ▸ (hchain.pruned_eq_drop hcache hr).1⟩
    · exact ⟨0, (Storage.store_pruned ..).trans (if_neg hk)⟩
  have htail := List.forall₂_drop i hparts
  rw [← hrefs] at htail
  exact ⟨i, forall₂_of_mem htail fun q hq bs hbs => hbs.of_lookup (Storage.lookup_pruned hq)⟩

end Node

/-- What holds between the steps of a run that has appended `log`. -/
structure Located (n : Node) (log : Bytes → List Bytes) : Prop where
  chained : Chained n
  keys : n.KeyInv
  framed : ∀ k, ∀ b ∈ log k, Framed b
  flying : ∀ k f, n.appending.lookup k = some f → Framed f.record.batch
  commits : ∀ c ∈ n.phase.commits, n.Filed c
  places : ∀ k, n.Places k (log k)
  whole : ∀ k, Contiguous 0 (log k) (n.logEnd k)

theorem located_fresh (nodeID : Bytes) : Located (Node.fresh nodeID) fun _ => [] where
  chained := chained_fresh nodeID
  keys := keyInv_fresh nodeID
  framed := by intro k b hb; cases hb
  flying := by intro k f hf; cases hf
  commits := by intro c hc; cases hc
  places := fun _ => ⟨[], [], rfl, .nil⟩
  whole := fun k => (Node.logEnd_fresh nodeID k).symm

namespace Node

variable {n n' : Node} {k : Bytes} {log : List Bytes}

/-- A step that leaves the refs of a partition and their objects, and adds to its batches. -/
theorem Places.of_eq (h : n.Places k log) {new : List Bytes}
    (hrefs : n'.committed k = n.committed k)
    (hobj : ∀ r ∈ n.committed k,
      n'.storage.objects.lookup r.key = n.storage.objects.lookup r.key)
    (hbatches : n'.takenBatches k ++ n'.pendingBatches k
      = n.takenBatches k ++ n.pendingBatches k ++ new) : n'.Places k (log ++ new) := by
  obtain ⟨dropped, parts, rfl, hparts⟩ := h
  refine ⟨dropped, parts, by rw [hbatches]; simp, ?_⟩
  rw [hrefs]
  exact forall₂_of_mem hparts fun r hr bs hbs => hbs.of_lookup (hobj r hr)

/-- Taken batches are part of the history. -/
theorem Places.mem_of_taken (h : n.Places k log) {pp : PendingPart}
    (hpp : n.phase.outstanding k = some pp) {b : Bytes} (hb : b ∈ pp.batches) : b ∈ log := by
  obtain ⟨dropped, parts, rfl, -⟩ := h
  have htaken : n.takenBatches k = pp.batches := by rw [takenBatches, hpp]; rfl
  simp [htaken, hb]

end Node

/-! ### The steps -/

namespace Located

variable {n n' : Node} {log : Bytes → List Bytes} {a : Action} (h : Located n log)
include h

/-- What is left to show of a step that buffers nothing. -/
theorem quiet (ha : n.Regular a) (hend : ∀ k, (n.act a).logEnd k = n.logEnd k)
    (hflying : ∀ k f, (n.act a).appending.lookup k = some f → Framed f.record.batch)
    (hcommits : ∀ c ∈ (n.act a).phase.commits, (n.act a).Filed c)
    (hplaces : ∀ k, (n.act a).Places k (log k)) : Located (n.act a) log where
  chained := h.chained.act ha.orders
  keys := h.keys.act a (by rintro rfl; exact absurd ha id)
  framed := h.framed
  flying := hflying
  commits := hcommits
  places := hplaces
  whole k := (hend k).symm ▸ h.whole k

/-- The steps that only move batches between the buffer and the upload. -/
theorem regroup (ha : n.Regular a) (hg : a.Regroups)
    (hflying : ∀ k f, (n.act a).appending.lookup k = some f → Framed f.record.batch)
    (hcommits : ∀ c ∈ (n.act a).phase.commits, (n.act a).Filed c) : Located (n.act a) log := by
  have hf := Frame.act h.chained.inv hg
  refine h.quiet ha hf.logEnd hflying hcommits fun k => ?_
  rw [← List.append_nil (log k)]
  refine (h.places k).of_eq (hf.committed k) (fun r hr => ?_)
    (by rw [(hf.group k).batches, List.append_nil])
  exact h.keys.lookup_act a hr ((hf.committed k).symm ▸ hr)

/-- The steps that touch neither the objects nor the refs leave what an upload has filed. -/
theorem filed_of_same (hs : SameObjects n n') : ∀ c ∈ n'.phase.commits, n'.Filed c := by
  intro c hc
  rw [hs.phase] at hc
  obtain ⟨pp, nowMs, buf, hout, hobj, hfiled⟩ := h.commits c hc
  exact ⟨pp, nowMs, buf, by rw [hs.phase]; exact hout, by rw [hs.objects]; exact hobj, hfiled⟩

/-- An append has written its record. -/
theorem flying_write {rec : WalRecord} {next : ℤ} {replica : Bool} (hb : Framed rec.batch) :
    ∀ k f, (n.write rec next replica).appending.lookup k = some f → Framed f.record.batch := by
  rcases n.write_cases rec next replica with hn | ⟨w, -, hn⟩ <;> rw [hn]
  · exact h.flying
  · exact Table.forall_lookup_insert hb fun k f _ hf => h.flying k f hf

theorem append {topic : Bytes} {partition : ℤ} {batch : Bytes}
    (ha : n.Regular (.append topic partition batch)) :
    Located (n.append topic partition batch) log := by
  refine h.regroup ha trivial ?_ (h.filed_of_same (.act n trivial))
  rw [Node.act]
  rcases n.append_cases topic partition batch with hn | ⟨l, -, hparse, hlen, hn⟩ <;> rw [hn]
  · exact h.flying
  · refine h.flying_write (framed_stamp (ha ⟨hlen, ?_⟩).1 _)
    have hmagic := (parseHeader_eq_ok.mp hparse).2.1
    rwa [header_stamp hlen] at hmagic

theorem appendReplica {topic : Bytes} {partition : ℤ} {batch : Bytes}
    (ha : n.Regular (.appendReplica topic partition batch)) :
    Located (n.appendReplica topic partition batch) log := by
  refine h.regroup ha trivial ?_
    (h.filed_of_same (.act n trivial))
  rw [Node.act]
  rcases n.appendReplica_cases topic partition batch with hn | ⟨l, -, hparse, -, hn⟩ <;> rw [hn]
  · exact h.flying
  · obtain ⟨hlen, hmagic, -⟩ := parseHeader_eq_ok.mp hparse
    exact h.flying_write (ha ⟨hlen, hmagic⟩).1

/-- A step after which an upload has no refs to commit. -/
theorem settle (ha : n.Regular a) (hg : a.Regroups)
    (hact : n.act a = n ∨
      (n.act a).appending = n.appending ∧ (n.act a).phase.commits = []) :
    Located (n.act a) log := by
  rcases hact with hact | ⟨happ, hnil⟩
  · rw [hact]
    exact h
  · refine h.regroup ha hg (by rw [happ]; exact h.flying) fun c hc => ?_
    rw [hnil] at hc
    cases hc

/-- The refs of the parts point into the object that is put. -/
theorem put (nowMs : ℤ) : Located (n.put nowMs) log := by
  have hrest := h.regroup (a := .put nowMs) trivial trivial
  rw [Node.act] at hrest
  rcases n.put_cases nowMs with hn | ⟨snap, seq, q, hp, hn⟩ <;> rw [hn] at hrest ⊢
  · exact h
  · have hout : ∀ k, n.phase.outstanding k = snap.lookup k := fun k => by rw [hp]; rfl
    have hparts := h.chained.inv.keys_of_outstanding hout
    refine hrest h.flying fun c hc => ?_
    obtain ⟨pp, hpp, hfiled⟩ := exists_of_mem_assemble hc
    obtain ⟨j, -, hj⟩ := List.mem_filterMap.mp hpp
    obtain ⟨pos, rfl, hslice⟩ := hfiled
    refine ⟨pp, nowMs, _, ?_, AList.lookup_insert _, pos, rfl, hslice⟩
    show (Phase.committing snap (assemble _ nowMs snap).2 q).outstanding pp.indexKey = some pp
    rw [outstanding_assemble hparts, hparts j pp hj, hj]

theorem openLog (topic : Bytes) (partition : ℤ) : Located (n.openLog topic partition) log := by
  have hsame : SameObjects n (n.openLog topic partition) :=
    SameObjects.act n (a := .openLog topic partition) trivial
  refine h.quiet (a := .openLog topic partition) trivial (n.logEnd_openLog topic partition) ?_
    (h.filed_of_same hsame) fun k => ?_
  · rw [Node.act, Node.openLog]
    split <;> exact h.flying
  · rw [Node.act, ← List.append_nil (log k)]
    refine (h.places k).of_eq ?_ (fun r _ => by rw [hsame.objects]) ?_
    · rw [Node.committed, hsame.store]
      rfl
    · rw [Node.openLog, List.append_nil]
      split <;> rfl

/-- The batch of an append goes to the end of the buffer, and of the history. -/
theorem addPending (j : Bytes) {f : InFlight} (hf : n.appending.lookup j = some f) :
    Located (n.addPending j) fun k => log k ++ if j = k then [f.record.batch] else [] := by
  have hchained := h.chained.addPending j
  have hsame := SameObjects.addPending n j
  have hkeys := h.keys.flow hsame.nodeID hsame.flow.2
  have hcommits := h.filed_of_same hsame
  obtain ⟨l, hl⟩ := h.chained.inv.opened j f hf
  have hok := (h.chained.inv.parts j).appending f hf
  rw [Node.logEnd_of_lookup hl] at hok
  have hlook := lookup_appendPending n.storage hok.key
  simp only [Node.addPending, hf, hl] at hchained hsame hkeys hcommits ⊢
  refine ⟨hchained, hkeys, fun k b hb => ?_, fun k g hg => ?_, hcommits, fun k => ?_, fun k => ?_⟩
  · rcases List.mem_append.mp hb with hb | hb
    · exact h.framed k b hb
    · split at hb
      · rw [List.mem_singleton.mp hb]
        exact h.flying j f hf
      · cases hb
  · dsimp only at hg
    by_cases hk : k = j
    · rw [hk, AList.lookup_erase] at hg
      cases hg
    · rw [AList.lookup_erase_ne hk] at hg
      exact h.flying k g hg
  · refine (h.places k).of_eq rfl (fun _ _ => rfl) ?_
    show n.takenBatches k ++ partBatches
      ((n.storage.appendPending f.record f.next).pending.lookup k) = _
    rw [hlook k, List.append_assoc]
    by_cases hk : k = j
    · rw [hk, if_pos rfl, if_pos rfl, partBatches_addTo]
      rfl
    · rw [if_neg hk, if_neg (Ne.symm hk), List.append_nil]
      rfl
  · by_cases hk : j = k
    · subst hk
      rw [if_pos rfl, Node.logEnd_of_lookup (AList.lookup_insert _)]
      refine contiguous_append.mpr ⟨l.nextOffset, Node.logEnd_of_lookup hl ▸ h.whole j, ?_⟩
      show Contiguous l.nextOffset [f.record.batch] f.next
      rw [hok.next]
      exact contiguous_singleton hok.header_base (hok.next ▸ hok.advances)
    · rw [if_neg hk, List.append_nil]
      convert h.whole k using 1
      exact Node.logEnd_congr (AList.lookup_insert_ne (Ne.symm hk)) rfl rfl

/-- A ref is committed: the batches of its part go behind it. -/
theorem commit : Located n.commit log := by
  have hrest := h.quiet (a := .commit) trivial h.chained.inv.logEnd_commit
  rw [Node.act] at hrest
  rcases n.commit_cases with hn | ⟨snap, c, cs, q, hp, hn⟩ <;> rw [hn] at hrest ⊢
  · exact h
  · obtain ⟨-, -, -, -, hout⟩ := h.chained.inv.next_commit hp
    obtain ⟨S, nowMs, buf, hS, hobj, hfiled⟩ := h.commits c (by rw [hp]; exact List.mem_cons_self)
    have hspans : n.Spans c.ref S.batches := Node.spans_of_filedAs hobj hfiled
      ((h.chained.inv.parts c.indexKey).taken S hS).1
      fun b hb => h.framed _ b ((h.places _).mem_of_taken hS hb)
    have hstore := fun k => IndexStore.load_commit n.storage.index.store c.indexKey k c.ref
    refine hrest h.flying (fun d hd => ?_) fun k => ?_
    · -- the other refs are for other parts
      have hok : CommitsOk snap (c :: cs) := by have := h.chained.inv.phase; rwa [hp] at this
      have hne : d.indexKey ≠ c.indexKey := fun heq =>
        (List.nodup_cons.mp hok.nodup).1 (heq ▸ List.mem_map_of_mem (f := Commit.indexKey) hd)
      obtain ⟨pp, nowMs', buf', hpp, hobj', hfiled'⟩ :=
        h.commits d (by rw [hp]; exact List.mem_cons_of_mem _ hd)
      exact ⟨pp, nowMs', buf', by rw [hout, if_neg hne, hpp], hobj', hfiled'⟩
    · by_cases hk : k = c.indexKey
      · subst hk
        obtain ⟨dropped, parts, hlog, hparts⟩ := h.places c.indexKey
        have htaken : n.takenBatches c.indexKey = S.batches := by rw [Node.takenBatches, hS]; rfl
        refine ⟨dropped, parts ++ [S.batches], ?_, ?_⟩
        · show _ = _ ++ (partBatches ((Phase.committing snap cs q).outstanding c.indexKey)
            ++ n.pendingBatches c.indexKey)
          rw [hlog, htaken, hout, if_pos rfl]
          simp [partBatches]
        · show List.Forall₂ _ ((n.storage.index.store.commit c.indexKey c.ref).load _) _
          rw [hstore, if_pos rfl]
          exact List.rel_append hparts (.cons hspans .nil)
      · rw [← List.append_nil (log k)]
        refine (h.places k).of_eq ((hstore k).trans (if_neg hk)) (fun _ _ => rfl) ?_
        show partBatches ((Phase.committing snap cs q).outstanding k) ++ n.pendingBatches k = _
        rw [hout, if_neg hk, List.append_nil]
        rfl

/-- Retention drops batches from the front of the history. -/
theorem enforceRetention {topic : Bytes} {partition nowMs maxAgeMs maxBytes : ℤ}
    (ha : n.Regular (.enforceRetention topic partition nowMs maxAgeMs maxBytes)) :
    Located (n.enforceRetention (indexKey topic partition) nowMs maxAgeMs maxBytes) log := by
  have hrest := h.quiet ha (n.logEnd_enforceRetention _ nowMs maxAgeMs maxBytes)
  rw [Node.act] at hrest
  rw [Node.Regular] at ha
  generalize indexKey topic partition = j at *
  rcases n.enforceRetention_cases j nowMs maxAgeMs maxBytes with
    hn | ⟨l, hfree, hn | ⟨d, r, hr, he, hn⟩⟩ <;> rw [hn] at hrest ⊢
  · exact h
  · exact hrest h.flying h.commits h.places
  · obtain ⟨-, hl⟩ := Node.free_eq_some hfree
    have hcache := h.chained.cache j l hl
    refine hrest h.flying (fun c hc => ?_) fun k => ?_
    · -- the object of a ref that is to come is not looked at
      obtain ⟨pp, nowMs', buf, hpp, hobj, hfiled⟩ := h.commits c hc
      refine ⟨pp, nowMs', buf, hpp, ?_, hfiled⟩
      have hkept : c.ref.key ∉ ((n.storage.index.prune j r.nextOffset).2.map (·.key)) := by
        rintro hmem
        obtain ⟨q, hq, heq⟩ := List.mem_map.mp hmem
        exact ha r.nextOffset (by rw [he]; rfl) q hq c hc heq.symm
      refine (lookup_collected _ _ _ _).trans ?_
      rw [if_neg fun hgone => hkept hgone.1, hobj]
    · obtain ⟨dropped, parts, hlog, hparts⟩ := h.places k
      obtain ⟨i, htail⟩ := Node.forall₂_spans_pruned hparts (h.chained.refs j l hl) hcache
        (hcache ▸ hr)
      refine ⟨dropped ++ (parts.take i).flatten, parts.drop i, ?_, htail⟩
      show log k = dropped ++ (parts.take i).flatten ++ (parts.drop i).flatten
        ++ (n.takenBatches k ++ n.pendingBatches k)
      rw [hlog, List.append_assoc dropped (parts.take i).flatten, ← List.flatten_append,
        List.take_append_drop]

/-- **Every regular step keeps each batch in one of its places.** -/
theorem act (ha : n.Regular a) :
    Located (n.act a) fun k => log k ++ inPartition k (n.buffers a) := by
  have hsame : Located (n.act a) log → n.buffers a = [] →
      Located (n.act a) fun k => log k ++ inPartition k (n.buffers a) := by
    intro hl hnil
    rw [hnil]
    simpa [inPartition] using hl
  cases a with
  | openLog topic partition => exact hsame (h.openLog topic partition) rfl
  | append topic partition batch => exact hsame (h.append ha) rfl
  | appendReplica topic partition batch => exact hsame (h.appendReplica ha) rfl
  | addPending topic partition =>
    cases hf : n.appending.lookup (indexKey topic partition) with
    | none =>
      refine hsame ?_ ?_
      · show Located (n.addPending (indexKey topic partition)) log
        rw [Node.addPending, hf]
        exact h
      · simp only [Node.buffers, hf, h.chained.up]
    | some f =>
      simp only [Node.buffers, hf, h.chained.up, inPartition_singleton]
      exact h.addPending _ hf
  | swap =>
    refine hsame (h.settle trivial trivial ?_) rfl
    rcases n.swap_cases with hn | ⟨-, -, hn⟩
    · exact .inl hn
    · exact .inr (by rw [Node.act, hn]; exact ⟨rfl, rfl⟩)
  | rotate fault =>
    refine hsame (h.settle trivial trivial ?_) rfl
    rcases n.rotate_cases fault with hn | ⟨snap, seq, -, ⟨w, -, hn⟩ | ⟨w, q, -, hn⟩⟩
    · exact .inl hn
    all_goals exact .inr (by rw [Node.act, hn]; exact ⟨rfl, rfl⟩)
  | put nowMs => exact hsame (h.put nowMs) rfl
  | putFail nowMs stored =>
    refine hsame (h.settle trivial trivial ?_) rfl
    rcases n.putFail_cases nowMs stored with hn | ⟨snap, seq, q, -, s, -, hn⟩
    · exact .inl hn
    · exact .inr (by rw [Node.act, hn]; exact ⟨rfl, rfl⟩)
  | commit => exact hsame h.commit rfl
  | commitFail stored =>
    refine hsame ?_ rfl
    show Located (n.commitFail stored) log
    rcases n.commitFail_cases stored with hn | ⟨snap, c, cs, q, hp, -⟩
    · rw [hn]
      exact h
    · rw [Node.Regular, hp] at ha
      cases ha
  | trim =>
    refine hsame (h.settle trivial trivial ?_) rfl
    rcases n.trim_cases with hn | ⟨snap, q, -, hn⟩
    · exact .inl hn
    · exact .inr (by rw [Node.act, hn]; exact ⟨rfl, rfl⟩)
  | enforceRetention topic partition nowMs maxAgeMs maxBytes => exact hsame (h.enforceRetention ha) rfl
  | restart => exact absurd ha id

theorem run {as : List Action} (has : Along Node.step Node.Regular n as) :
    Located (Transition.run Node.step n as) fun k => log k ++ n.history as k := by
  induction as generalizing n log with
  | nil => simpa [Node.history, Node.buffered, inPartition] using h
  | cons a as ih =>
    obtain ⟨ha, has⟩ := has
    have hstep : n.step a = n.act a := if_pos h.chained.up
    have hrest := ih (hstep ▸ h.act ha) has
    rw [run_cons]
    simpa [Node.history, Node.buffered, inPartition_append, List.append_assoc] using hrest

end Located

/-- **Every batch that was appended and not dropped is in one of three places**, at every step
of a run of regular steps. -/
theorem located_run (nodeID : Bytes) {as : List Action}
    (has : Along Node.step Node.Regular (Node.fresh nodeID) as) :
    Located (run Node.step (Node.fresh nodeID) as) ((Node.fresh nodeID).history as) := by
  simpa using (located_fresh nodeID).run has

end Object
end Mq
