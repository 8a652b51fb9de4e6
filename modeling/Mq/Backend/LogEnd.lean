import Mq.Object.Handle
import Mq.Storage.Recovery

/-!
# The log end on every path

The offset after a batch is computed in four places.  `Log.Append` adds the record count
of the header; recovery, `Log.AppendReplica` and the object backend take the last offset
delta.  They agree on the batches in which the count is the delta plus one.

## Main definitions

* `assigned a bs` — the base offsets that batches get from the log end `a` on.

## Main results

* `same_log_end` — **the leader, its reopened log, a follower and the object backend agree
  on the log end.**
* `log_ends_differ` — a batch whose record count is not its last offset delta plus one has
  a different log end on each of them.
-/

namespace Mq
namespace Backend

open Word Record Transition Storage
open Object (Handle)

/-! ### Appends that return their offset -/

/-- The base offsets that batches get from the log end `a` on. -/
def assigned : ℤ → List Bytes → List ℤ
  | _, [] => []
  | a, b :: bs => a :: assigned (a + (header b).recordCount) bs

/-- An append at a time. -/
def appendAt (l : Log) (x : ℤ × Bytes) : Log × Outcome ℤ := l.append x.1 x.2

/-- A replica's append at a time. -/
def appendReplicaAt (l : Log) (x : ℤ × Bytes) : Log × Outcome ℤ := l.appendReplica x.1 x.2

/-- **The leader** assigns the offsets one after the other. -/
theorem leader_run {xs : List (ℤ × Bytes)} (hwf : ∀ x ∈ xs, WellFormed x.2) :
    ∀ {l : Log} {y : Layout}, l.Holds y → Always (effect appendAt) Log.Sized l xs →
      ∃ y', (run (effect appendAt) l xs).Holds y' ∧ y'.start = y.start ∧
        y'.last.stop = y.last.stop + offsetCount (xs.map Prod.snd) ∧
        (∀ p ∈ y'.parts, p.bytes.length < 2147483648) ∧
        (run (effect appendAt) l xs).cfg = l.cfg ∧
        replies appendAt l xs = (assigned y.last.stop (xs.map Prod.snd)).map .ok := by
  induction xs with
  | nil =>
    intro l y hy hsized
    exact ⟨y, hy, rfl, (add_zero _).symm, hy.sized_iff.mp hsized, rfl, rfl⟩
  | cons x xs ih =>
    intro l y hy hsized
    have hw := hwf x (by simp)
    have hsmall := hy.sized_iff.mp hsized.1 y.last (by simp [Layout.parts])
    have hroom := hy.fits_of_sized hw hsized.1 hsized.2.head
    obtain ⟨hres, hy'⟩ := hy.append x.1 hw hsmall hroom
    obtain ⟨y'', hy'', hstart, hstop, hparts, hcfg, hreplies⟩ :=
      ih (fun z hz => hwf z (by simp [hz])) hy' hsized.2
    rw [Layout.produce_stop] at hstop hreplies
    refine ⟨y'', hy'', ?_, ?_, hparts, ?_, ?_⟩
    · rw [hstart, Layout.produce_start]
    · rw [hstop, List.map_cons, offsetCount_cons, add_assoc]
    · exact hcfg.trans (append_cfg l x.1 x.2)
    · rw [replies, List.map_cons, assigned, List.map_cons]
      exact congrArg₂ _ hres hreplies

/-- **A follower** stores a run of batches that starts at its log end. -/
theorem follower_run {z : ℤ} (hz : z < 9223372036854775808) {fs : List (ℤ × Bytes)} :
    ∀ {f : Log} {y : Layout}, f.Holds y → Chained y.last.stop (fs.map Prod.snd) z →
      Always (effect appendReplicaAt) Log.Sized f fs →
      (run (effect appendReplicaAt) f fs).nextOffset = z ∧
        ∀ r ∈ replies appendReplicaAt f fs, ∃ o, r = .ok o := by
  induction fs with
  | nil =>
    intro f y hy hch _
    exact ⟨hy.next.trans hch, by simp [replies]⟩
  | cons x fs ih =>
    intro f y hy hch hsized
    obtain ⟨hw, hbase, hrest⟩ := hch
    have hsmall := hy.sized_iff.mp hsized.1 y.last (by simp [Layout.parts])
    have hroom : y.last.stop + (header x.2).recordCount < 9223372036854775808 :=
      hrest.le.trans_lt hz
    obtain ⟨hres, hy'⟩ := hy.appendReplica x.1 hw hbase hroom hsmall
    rw [← y.append_stop f.cfg.segmentBytes x.1 hw hbase hroom] at hrest
    obtain ⟨hend, hall⟩ := ih hy' hrest hsized.2
    refine ⟨hend, ?_⟩
    intro r hr
    rcases List.mem_cons.mp hr with rfl | hr
    · exact ⟨_, hres⟩
    · exact hall r hr

/-- **The object backend** assigns the same offsets. -/
theorem handle_run {bs : List Bytes} (hwf : ∀ b ∈ bs, WellFormed b) :
    ∀ {h : Handle} {cs : List Bytes}, h.Buffers cs →
      h.log.nextOffset + offsetCount bs < 9223372036854775808 →
      (run (effect Handle.append) h bs).log.nextOffset = h.log.nextOffset + offsetCount bs ∧
        replies Handle.append h bs = (assigned h.log.nextOffset bs).map .ok := by
  induction bs with
  | nil => intro h cs _ _; exact ⟨(add_zero _).symm, rfl⟩
  | cons b bs ih =>
    intro h cs hb hroom
    have hw := hwf b (by simp)
    have hcount : 0 ≤ offsetCount bs := by
      refine List.sum_nonneg fun x hx => ?_
      obtain ⟨c, hc, rfl⟩ := List.mem_map.mp hx
      have := (hwf c (by simp [hc])).2.2
      omega
    rw [offsetCount_cons] at hroom
    obtain ⟨hres, hb', hlog⟩ := hb.append hw (by omega)
    have hnext : (h.append b).1.log.nextOffset = h.log.nextOffset + (header b).recordCount := by
      rw [hlog]
      rfl
    obtain ⟨hend, hreplies⟩ := ih (fun c hc => hwf c (by simp [hc])) hb' (by omega)
    rw [hnext] at hend hreplies
    refine ⟨?_, ?_⟩
    · rw [offsetCount_cons, ← add_assoc]
      exact hend
    · rw [replies, assigned, List.map_cons]
      exact congrArg₂ _ hres hreplies

/-! ### All paths -/

/-- **All paths assign the same log end.**  The leader's appends are of well-formed batches
and no segment outgrows 32 bits.  Then reopening the leader's log, feeding its batches to a
follower and making the same appends to the object backend all end at its log end. -/
theorem same_log_end {cfg : Config} {now : ℤ} {l₀ : Log} {xs : List (ℤ × Bytes)}
    (hopen : Log.open cfg now [] = .ok l₀) (hwf : ∀ x ∈ xs, WellFormed x.2)
    (hsized : Always (effect appendAt) Log.Sized l₀ xs) :
    let l := run (effect appendAt) l₀ xs
    (∀ now', ∃ r, Log.open cfg now' l.dir = .ok r ∧ r.latestOffset = l.latestOffset) ∧
      (∀ (cfg' : Config) (now' : ℤ) (f₀ : Log) (fs : List (ℤ × Bytes)),
        Log.open cfg' now' [] = .ok f₀ → fs.map Prod.snd = l.batches →
        Always (effect appendReplicaAt) Log.Sized f₀ fs →
        (∀ r ∈ replies appendReplicaAt f₀ fs, ∃ o, r = .ok o) ∧
          (run (effect appendReplicaAt) f₀ fs).latestOffset = l.latestOffset) ∧
      ∀ h : Handle, h.Fresh → ∃ offsets : List ℤ,
        replies appendAt l₀ xs = offsets.map .ok ∧
          replies Handle.append h (xs.map Prod.snd) = offsets.map .ok ∧
          (run (effect Handle.append) h (xs.map Prod.snd)).log.nextOffset = l.latestOffset := by
  intro l
  obtain ⟨hcfg, hy₀⟩ := Log.Holds.of_open_nil hopen
  obtain ⟨y, hy, hstart, hstop, hparts, hcfg', hreplies⟩ := leader_run hwf hy₀ hsized
  have hzero : (Layout.empty now).last.stop = 0 := rfl
  have hnext : l.latestOffset = y.last.stop := hy.next
  refine ⟨fun now' => ?_, fun cfg' now' f₀ fs hf₀ hfs hfsized => ?_, fun h hh => ?_⟩
  · obtain ⟨r, y', hr, -, -, -, hry, -, -, hend, -⟩ :=
      open_dir hy (hparts y.last (by simp [Layout.parts])) now'
    rw [hcfg', hcfg] at hr
    exact ⟨r, hr, by rw [hnext, ← hend]; exact hry.next⟩
  · obtain ⟨-, hf⟩ := Log.Holds.of_open_nil hf₀
    have hchain : Chained (Layout.empty now').last.stop (fs.map Prod.snd) y.last.stop := by
      have := y.chained
      rwa [hstart, ← hy.batches, ← hfs] at this
    obtain ⟨hend, hall⟩ := follower_run y.last.fits hf hchain hfsized
    exact ⟨hall, hend.trans hnext.symm⟩
  · have hlog : h.log.nextOffset = 0 := by rw [hh.log]
    have hwf' : ∀ b ∈ xs.map Prod.snd, WellFormed b := by
      intro b hb
      obtain ⟨x, hx, rfl⟩ := List.mem_map.mp hb
      exact hwf x hx
    have hfits := y.last.fits
    obtain ⟨hend, hreplies'⟩ := handle_run hwf' hh.buffers (by rw [hlog]; omega)
    rw [hlog] at hend hreplies'
    refine ⟨_, hreplies, hreplies', ?_⟩
    rw [hend, hnext, hstop, hzero]

/-- Two batches, of which the second is rolled into a segment of its own; the follower
keeps both in one. -/
theorem same_log_end_rolled :
    ∃ (l₀ f₀ : Log) (r : Log), Log.open ⟨100, 4096⟩ 0 [] = .ok l₀ ∧
      Log.open ⟨1000, 0⟩ 3 [] = .ok f₀ ∧
      let xs : List (ℤ × Bytes) := [(1, makeBatch 2 []), (2, makeBatch 3 [7])]
      let l := run (effect appendAt) l₀ xs
      let fs : List (ℤ × Bytes) := [(4, stamp 0 (makeBatch 2 [])), (4, stamp 2 (makeBatch 3 [7]))]
      Log.open ⟨100, 4096⟩ 5 l.dir = .ok r ∧ r.latestOffset = l.latestOffset ∧
        (run (effect appendReplicaAt) f₀ fs).latestOffset = l.latestOffset ∧
        (run (effect Handle.append) Handle.empty (xs.map Prod.snd)).log.nextOffset
          = l.latestOffset := by
  obtain ⟨hreopen, hfollower, hobject⟩ := @same_log_end ⟨100, 4096⟩ 0 _
    [(1, makeBatch 2 []), (2, makeBatch 3 [7])] (open_nil _ _) (by decide +kernel)
    (by decide +kernel)
  obtain ⟨r, hr, hend⟩ := hreopen 5
  obtain ⟨-, hf⟩ := hfollower ⟨1000, 0⟩ 3 _
    [(4, stamp 0 (makeBatch 2 [])), (4, stamp 2 (makeBatch 3 [7]))] (open_nil _ _)
    (by decide +kernel) (by decide +kernel)
  obtain ⟨offsets, -, -, hh⟩ := hobject _ Handle.fresh_empty
  exact ⟨_, _, r, open_nil _ _, open_nil _ _, hr, hend, hf, hh⟩

/-! ### A count that is not the delta plus one -/

/-- A batch that says it has three records and whose last offset delta is zero. -/
def overcounted : Bytes := patch (makeBatch 1 []) offRecordCount (putInt32 3)

/-- **The log ends differ.**  The file log accepts the batch twice and is at offset 6.
Opened again it is at 4, a follower refuses the second batch, and the object backend is
at 2. -/
theorem log_ends_differ :
    ∃ l₀ f₀ : Log, Log.open ⟨1000, 4096⟩ 0 [] = .ok l₀ ∧ Log.open ⟨1000, 4096⟩ 0 [] = .ok f₀ ∧
      Framed overcounted ∧
      let l := run (effect appendAt) l₀ [(1, overcounted), (2, overcounted)]
      replies appendAt l₀ [(1, overcounted), (2, overcounted)] = [.ok 0, .ok 3] ∧
        l.latestOffset = 6 ∧
        (Log.open ⟨1000, 4096⟩ 3 l.dir).map Log.latestOffset = .ok 4 ∧
        replies appendReplicaAt f₀ (l.batches.map fun b => (4, b))
          = [.ok 1, .error (.error (.replicaGap 3 1))] ∧
        replies Handle.append Handle.empty [overcounted, overcounted] = [.ok 0, .ok 1] ∧
        (run (effect Handle.append) Handle.empty [overcounted, overcounted]).log.nextOffset = 2 :=
  ⟨_, _, open_nil _ _, open_nil _ _, by decide +kernel⟩

end Backend
end Mq
