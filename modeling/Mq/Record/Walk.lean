import Mq.Record.Batch

/-!
# Walks over arbitrary bytes

What `Iterate` of `internal/record/batch.go` does on any byte string, for any callback.  The
walk goes by the length field of each header, which is a signed number that anybody may
have written there.  A batch is whole if its header parses and its length is the one that
the header gives, which is at least the size of a header.  A header that parses but gives a
smaller length leads the walk astray.

## Main definitions

* `Leads set bs rest` — the set starts with the whole batches `bs`, and `rest` follows.
* `passed fn set s` — the slices that the callback gets.
* `Exact fn set s` — the walk ends, all slices are whole batches, and so on.
* `Steered fn set s` — no header that the walk comes to gives a length smaller than a header.

## Main results

* `Leads.isPrefix` — a set starts with whole batches in one way only.
* `exists_leads` — every set does, up to a place where there is no whole batch.
* `exact_iff` — **a walk is exact if and only if it is steered.**
-/

namespace Mq
namespace Record

open Word
open Framing (feed)

/-! ### Whole batches at the start of a set -/

/-- The set starts with whole batches. -/
structure Leads (set : Bytes) (bs : List Bytes) (rest : Bytes) : Prop where
  eq : set = bs.flatten ++ rest
  framed : ∀ b ∈ bs, Framed b

theorem Leads.nil (set : Bytes) : Leads set [] set := ⟨rfl, by simp⟩

variable {b set rest : Bytes} {bs : List Bytes}

theorem Leads.cons (hb : Framed b) (h : Leads set bs rest) : Leads (b ++ set) (b :: bs) rest :=
  ⟨by rw [List.flatten_cons, List.append_assoc, ← h.eq], List.forall_mem_cons.mpr ⟨hb, h.framed⟩⟩

theorem Leads.tail (h : Leads (b ++ set) (b :: bs) rest) : Leads set bs rest := by
  refine ⟨?_, fun c hc => h.framed c (List.mem_cons_of_mem b hc)⟩
  have heq := h.eq
  rwa [List.flatten_cons, List.append_assoc, List.append_cancel_left_eq] at heq

/-- The header at the start of a set is that of the batch at its start. -/
theorem Framed.parseHeader_append (hb : Framed b) (rest : Bytes) :
    Record.parseHeader (b ++ rest) = .ok (header b) :=
  (Record.parseHeader_append rest hb.1).trans hb.parseHeader

/-- Two whole batches at the start of the same bytes are equal. -/
theorem Framed.eq_of_append {c r r' : Bytes} (hb : Framed b) (hc : Framed c)
    (h : b ++ r = c ++ r') : b = c := by
  have hhdr : header b = header c := by
    have := hb.parseHeader_append r
    rw [h, hc.parseHeader_append r'] at this
    exact (Except.ok.inj this).symm
  have hlen : b.length = c.length := by
    have := hb.2.2
    rw [hhdr, ← hc.2.2] at this
    exact_mod_cast this
  exact (List.append_inj h hlen).1

/-- **A set starts with whole batches in one way only.** -/
theorem Leads.isPrefix {rest' : Bytes} {cs : List Bytes} (h : Leads set bs rest)
    (h' : Leads set cs rest') : bs <+: cs ∨ cs <+: bs := by
  induction bs generalizing set cs with
  | nil => exact .inl List.nil_prefix
  | cons b bs ih =>
    cases cs with
    | nil => exact .inr List.nil_prefix
    | cons c cs =>
      have hset := h.eq
      rw [List.flatten_cons, List.append_assoc] at hset
      have hset' := h'.eq
      rw [List.flatten_cons, List.append_assoc] at hset'
      obtain rfl := (h.framed b List.mem_cons_self).eq_of_append (h'.framed c List.mem_cons_self)
        (hset.symm.trans hset')
      rw [hset] at h h'
      rcases ih h.tail h'.tail with hpre | hpre
      · exact .inl (List.cons_prefix_cons.mpr ⟨rfl, hpre⟩)
      · exact .inr (List.cons_prefix_cons.mpr ⟨rfl, hpre⟩)

/-- There is no whole batch at the start. -/
def Ends (rest : Bytes) : Prop :=
  ∀ h, parseHeader rest = .ok h → h.totalSize < headerSize ∨ rest.length < h.totalSize

/-- **Every set starts with whole batches, up to a place where there is none.** -/
theorem exists_leads (set : Bytes) : ∃ bs rest, Leads set bs rest ∧ Ends rest := by
  induction hn : set.length using Nat.strong_induction_on generalizing set with
  | _ n ih =>
    by_cases hends : Ends set
    · exact ⟨[], set, .nil set, hends⟩
    · simp only [Ends, not_forall, not_or, not_lt] at hends
      obtain ⟨h, hparse, hsize, hfits⟩ := hends
      obtain ⟨hlong, hmagic, rfl⟩ := parseHeader_eq_ok.mp hparse
      -- the first batch is as long as its header says
      have hlen : (set.take (header set).totalSize.toNat).length = (header set).totalSize.toNat := by
        rw [List.length_take]; omega
      have hheader : header (set.take (header set).totalSize.toNat) = header set :=
        header_take (by omega)
      have hframed : Framed (set.take (header set).totalSize.toNat) := by
        refine ⟨by omega, ?_, ?_⟩
        · rw [hheader]; exact hmagic
        · rw [hheader, hlen]; omega
      obtain ⟨bs, rest, hleads, hrest⟩ := ih (set.drop (header set).totalSize.toNat).length
        (by rw [List.length_drop, ← hn]; unfold headerSize at hsize hlong; omega) _ rfl
      refine ⟨set.take (header set).totalSize.toNat :: bs, rest, ?_, hrest⟩
      have := hleads.cons hframed
      rwa [List.take_append_drop] at this

/-! ### Slices that are passed on -/

variable {σ ε : Type} (fn : σ → Bytes → σ × Option ε) {s s' : σ}

/-- The callback, with a list of the slices that it has been given. -/
def logged (st : σ × List Bytes) (b : Bytes) : (σ × List Bytes) × Option ε :=
  (((fn st.1 b).1, st.2 ++ [b]), (fn st.1 b).2)

/-- The slices that the callback gets. -/
def passed (set : Bytes) (s : σ) : List Bytes :=
  (iterate (logged fn) set (s, [])).1.2

/-- **What a walk should be.**  It ends; the slices are whole batches that follow each other
from the start of the set; the bytes consumed are those of the slices that were accepted; and
there is no error exactly if the set consists of whole batches that are all accepted. -/
structure Exact (set : Bytes) (s : σ) : Prop where
  ends : (iterate fn set s).2.2 ≠ .panic ∧ (iterate fn set s).2.2 ≠ .hang
  framed : ∀ b ∈ passed fn set s, Framed b
  consecutive : (passed fn set s).flatten <+: set
  consumed : ∃ accepted, accepted <+: passed fn set s ∧
    ((∃ e, (iterate fn set s).2.2 = .refused e) ∧
        accepted.length + 1 = (passed fn set s).length ∨
      (∀ e, (iterate fn set s).2.2 ≠ .refused e) ∧ accepted = passed fn set s) ∧
    accepted.flatten = set.take (iterate fn set s).2.1
  done_iff : (iterate fn set s).2.2 = .done ↔
    ∃ bs, (∀ b ∈ bs, Framed b) ∧ bs.flatten = set ∧ (feed fn s bs).2 = none

/-- **No header that the walk comes to gives a length smaller than a header**: after whole
batches that the callback accepts, what parses is a header of at least that length. -/
def Steered (set : Bytes) (s : σ) : Prop :=
  ∀ bs rest, Leads set bs rest → (feed fn s bs).2 = none →
    ∀ h, parseHeader rest = .ok h → headerSize ≤ h.totalSize

theorem feed_logged (h : feed fn s bs = (s', none)) (log : List Bytes) :
    feed (logged fn) (s, log) bs = ((s', log ++ bs), none) := by
  induction bs generalizing s log with
  | nil =>
    cases h
    rw [List.append_nil]
    rfl
  | cons b bs ih =>
    rw [feed] at h ⊢
    unfold logged
    dsimp only
    rcases hfn : fn s b with ⟨s₁, _ | e⟩ <;> rw [hfn] at h
    · have := ih h (log ++ [b])
      rw [List.append_assoc] at this
      exact this
    · cases h

/-- **Whole batches that are accepted** are behind the walk. -/
theorem iterateLoop_leads (h : Leads set bs rest) (hfeed : feed fn s bs = (s', none))
    (fuel consumed : ℕ) :
    iterateLoop fn (bs.length + fuel) consumed set s
      = iterateLoop fn fuel (consumed + bs.flatten.length) rest s' := by
  induction bs generalizing set s consumed with
  | nil =>
    cases hfeed
    rw [h.eq]
    simp
  | cons b bs ih =>
    have hb := h.framed b List.mem_cons_self
    have hset := h.eq
    rw [List.flatten_cons, List.append_assoc] at hset
    rw [hset] at h ⊢
    have hsize : (header b).totalSize.toNat = b.length := by have := hb.2.2; omega
    have hne : b ++ (bs.flatten ++ rest) ≠ [] := by simp [hb.ne_nil]
    rw [List.length_cons, Nat.add_right_comm, iterateLoop, if_neg hne, hb.parseHeader_append]
    dsimp only
    rw [if_neg (by rw [List.length_append, ← hb.2.2]; push_cast; omega),
      if_neg (by rw [← hb.2.2]; omega), hsize, List.take_left, List.drop_left]
    rw [feed] at hfeed
    rcases hfn : fn s b with ⟨s₁, _ | e⟩ <;> rw [hfn] at hfeed
    · dsimp only at hfeed ⊢
      rw [ih h.tail hfeed, List.flatten_cons, List.length_append, Nat.add_assoc]
    · cases hfeed

theorem iterate_leads (h : Leads set bs rest) (hfeed : feed fn s bs = (s', none)) :
    ∃ fuel, rest.length ≤ fuel ∧
      iterate fn set s = iterateLoop fn (fuel + 1) bs.flatten.length rest s' := by
  have hlen : set.length = bs.flatten.length + rest.length := by
    rw [h.eq, List.length_append]
  have hle := length_le_flatten_length h.framed
  refine ⟨set.length - bs.length, by omega, ?_⟩
  rw [iterate, show set.length + 1 = bs.length + (set.length - bs.length + 1) by omega,
    iterateLoop_leads fn h hfeed, Nat.zero_add]

/-! ### Walks that are steered -/

/-- Where the walk stops without the callback's doing. -/
theorem iterateLoop_ends (h : Ends rest)
    (hsize : ∀ h, parseHeader rest = .ok h → headerSize ≤ h.totalSize) (fuel consumed : ℕ) (s : σ) :
    ∃ e, iterateLoop fn (fuel + 1) consumed rest s = (s, consumed, e) ∧
      (rest = [] ∧ e = .done ∨ rest ≠ [] ∧ ∃ err, e = .malformed err) := by
  rw [iterateLoop]
  by_cases hnil : rest = []
  · exact ⟨_, if_pos hnil, .inl ⟨hnil, rfl⟩⟩
  · rw [if_neg hnil]
    cases hparse : parseHeader rest with
    | error err => exact ⟨_, rfl, .inr ⟨hnil, err, rfl⟩⟩
    | ok hdr =>
      dsimp only
      have hlong : (rest.length : ℤ) < hdr.totalSize :=
        (h hdr hparse).resolve_left (not_lt.mpr (hsize hdr hparse))
      exact ⟨_, if_pos hlong, .inr ⟨hnil, _, rfl⟩⟩

/-- A walk whose callback refuses a whole batch. -/
theorem iterateLoop_refused (hb : Framed b) (rest : Bytes) {e : ε} (hfn : fn s b = (s', some e))
    (fuel consumed : ℕ) :
    iterateLoop fn (fuel + 1) consumed (b ++ rest) s = (s', consumed, .refused e) := by
  have hsize : (header b).totalSize.toNat = b.length := by have := hb.2.2; omega
  rw [iterateLoop, if_neg (by simp [hb.ne_nil]), hb.parseHeader_append]
  dsimp only
  rw [if_neg (by rw [List.length_append, ← hb.2.2]; push_cast; omega),
    if_neg (by rw [← hb.2.2]; omega), hsize, List.take_left, hfn]

/-- A callback accepts all batches, or refuses one after it has accepted those before. -/
theorem feed_cases (s : σ) (bs : List Bytes) :
    (∃ s', feed fn s bs = (s', none)) ∨
      ∃ pre b post s' s'' e, bs = pre ++ b :: post ∧ feed fn s pre = (s', none) ∧
        fn s' b = (s'', some e) := by
  induction bs generalizing s with
  | nil => exact .inl ⟨s, rfl⟩
  | cons b bs ih =>
    rcases hfn : fn s b with ⟨s', _ | e⟩
    · rcases ih s' with ⟨t, ht⟩ | ⟨pre, c, post, t, t', e, hbs, hpre, hc⟩
      · exact .inl ⟨t, by rw [feed, hfn]; exact ht⟩
      · exact .inr ⟨b :: pre, c, post, t, t', e, by rw [hbs]; rfl, by rw [feed, hfn]; exact hpre, hc⟩
    · exact .inr ⟨[], b, bs, s, s', e, rfl, rfl, hfn⟩

/-- The whole batches of a set that are accepted make the walk end without an error. -/
theorem done_of_framed
    (h : ∃ bs, (∀ b ∈ bs, Framed b) ∧ bs.flatten = set ∧ (feed fn s bs).2 = none) :
    (iterate fn set s).2.2 = .done := by
  obtain ⟨bs, hbs, rfl, hfeed⟩ := h
  rw [(iterate_flatten fn s hbs).2, hfeed]
  rfl

theorem exact_of_steered (h : Steered fn set s) : Exact fn set s := by
  obtain ⟨bs, rest, hleads, hends⟩ := exists_leads set
  rcases feed_cases fn s bs with ⟨s', hfeed⟩ | ⟨pre, b, post, s', s'', e, rfl, hpre, hb⟩
  · -- all whole batches are accepted, and the walk stops behind them
    have hsize := h bs rest hleads (by rw [hfeed])
    obtain ⟨fuel, -, hiter⟩ := iterate_leads fn hleads hfeed
    obtain ⟨fuel', -, hiter'⟩ := iterate_leads (logged fn) hleads (feed_logged fn hfeed [])
    obtain ⟨e, hrun, hcases⟩ := iterateLoop_ends fn hends hsize fuel bs.flatten.length s'
    obtain ⟨_, hrun', -⟩ := iterateLoop_ends (logged fn) hends hsize fuel' bs.flatten.length
      (s', [] ++ bs)
    rw [hrun] at hiter
    have hpassed : passed fn set s = bs := by rw [passed, hiter', hrun']; rfl
    have hend : (iterate fn set s).2.2 = e := by rw [hiter]
    have hconsumed : (iterate fn set s).2.1 = bs.flatten.length := by rw [hiter]
    refine ⟨?_, ?_, ?_, ⟨bs, ?_, .inr ⟨fun x => ?_, hpassed.symm⟩, ?_⟩, fun hdone => ?_,
      done_of_framed fn⟩
    · rw [hend]
      rcases hcases with ⟨-, rfl⟩ | ⟨-, err, rfl⟩ <;> exact ⟨by simp, by simp⟩
    · rw [hpassed]; exact hleads.framed
    · rw [hpassed]; exact ⟨rest, hleads.eq.symm⟩
    · exact hpassed ▸ List.prefix_rfl
    · rw [hend]
      rcases hcases with ⟨-, rfl⟩ | ⟨-, err, rfl⟩ <;> simp
    · rw [hconsumed, hleads.eq, List.take_left]
    · rw [hend] at hdone
      rcases hcases with ⟨hnil, -⟩ | ⟨-, err, rfl⟩
      · exact ⟨bs, hleads.framed, by rw [hleads.eq, hnil, List.append_nil], by rw [hfeed]⟩
      · cases hdone
  · -- the callback refuses a batch
    have hframed : Framed b := hleads.framed b (by simp)
    have hleads' : Leads set pre (b ++ (post.flatten ++ rest)) :=
      ⟨by rw [hleads.eq]; simp, fun c hc => hleads.framed c (by simp [hc])⟩
    obtain ⟨fuel, -, hiter⟩ := iterate_leads fn hleads' hpre
    obtain ⟨fuel', -, hiter'⟩ := iterate_leads (logged fn) hleads' (feed_logged fn hpre [])
    rw [iterateLoop_refused fn hframed _ hb] at hiter
    have hlogged : logged fn (s', [] ++ pre) b = ((s'', pre ++ [b]), some e) := by
      rw [logged, hb]
      rfl
    rw [iterateLoop_refused (logged fn) hframed _ hlogged] at hiter'
    have hpassed : passed fn set s = pre ++ [b] := by rw [passed, hiter']
    have hend : (iterate fn set s).2.2 = .refused e := by rw [hiter]
    have hconsumed : (iterate fn set s).2.1 = pre.flatten.length := by rw [hiter]
    refine ⟨?_, ?_, ?_, ⟨pre, ?_, .inl ⟨⟨e, hend⟩, ?_⟩, ?_⟩, fun hdone => ?_, done_of_framed fn⟩
    · rw [hend]; exact ⟨by simp, by simp⟩
    · rw [hpassed]
      exact List.forall_mem_append.mpr ⟨hleads'.framed, by simpa using hframed⟩
    · rw [hpassed]
      exact ⟨post.flatten ++ rest, by rw [hleads'.eq]; simp⟩
    · rw [hpassed]; exact List.prefix_append _ _
    · rw [hpassed]; simp
    · rw [hconsumed, hleads'.eq, List.take_left]
    · rw [hend] at hdone
      cases hdone

/-! ### Walks that are not -/

/-- Slices are not forgotten. -/
theorem mem_log_iterateLoop :
    ∀ (fuel consumed : ℕ) (rest : Bytes) (st : σ × List Bytes), b ∈ st.2 →
      b ∈ (iterateLoop (logged fn) fuel consumed rest st).1.2 := by
  intro fuel
  induction fuel with
  | zero => intro _ _ _ h; exact h
  | succ fuel ih =>
    intro consumed rest st h
    rw [iterateLoop]
    split
    · exact h
    split
    · exact h
    · dsimp only
      split
      · exact h
      split
      · exact h
      · have hkeep : ∀ c, b ∈ (logged fn st c).1.2 := fun c => List.mem_append_left _ h
        generalize hc : List.take _ rest = c
        rcases hfn : logged fn st c with ⟨st', _ | e⟩
        · exact ih _ _ _ (by have := hkeep c; rwa [hfn] at this)
        · have := hkeep c
          rwa [hfn] at this

/-- **A walk is exact if and only if it is steered.** -/
theorem exact_iff (fn : σ → Bytes → σ × Option ε) (set : Bytes) (s : σ) :
    Exact fn set s ↔ Steered fn set s := by
  refine ⟨fun hexact bs rest hleads hnone h hparse => ?_, exact_of_steered fn⟩
  by_contra hsmall
  rw [not_le] at hsmall
  rcases hfeed : feed fn s bs with ⟨s', o⟩
  rw [hfeed] at hnone
  cases hnone
  have hlong := (parseHeader_eq_ok.mp hparse).1
  have hne : rest ≠ [] := by
    rintro rfl
    exact absurd hlong (by decide)
  by_cases hneg : h.totalSize < 0
  · -- the walk panics
    obtain ⟨fuel, -, hiter⟩ := iterate_leads fn hleads hfeed
    refine hexact.ends.1 ?_
    rw [hiter, iterateLoop, if_neg hne, hparse]
    dsimp only
    rw [if_neg (by omega), if_pos hneg]
  · -- the callback gets a slice that is too short
    obtain ⟨fuel, -, hiter⟩ := iterate_leads (logged fn) hleads (feed_logged fn hfeed [])
    have hmem : rest.take h.totalSize.toNat ∈ passed fn set s := by
      rw [passed, hiter, iterateLoop, if_neg hne, hparse]
      dsimp only
      rw [if_neg (by omega), if_neg hneg]
      have hin : rest.take h.totalSize.toNat
          ∈ (logged fn (s', [] ++ bs) (rest.take h.totalSize.toNat)).1.2 :=
        List.mem_append_right _ (List.mem_singleton.mpr rfl)
      rcases hfn : logged fn (s', [] ++ bs) (rest.take h.totalSize.toNat) with ⟨st', _ | e⟩ <;>
        rw [hfn] at hin
      · exact mem_log_iterateLoop fn _ _ _ _ hin
      · exact hin
    have hframed := (hexact.framed _ hmem).1
    rw [List.length_take] at hframed
    omega

/-- The bytes of a header with the given length field, and nothing after it. -/
def headerOf (batchLength : ℤ) : Bytes :=
  List.replicate 8 0 ++ putInt32 batchLength ++ List.replicate 4 0 ++ [2] ++ List.replicate 44 0

/-- A callback that accepts everything. -/
def acceptAll (_ : Unit) (_ : Bytes) : Unit × Option Empty := ((), none)

/-- **Three headers that lead the walk astray**: a total size of zero is visited for ever, a
negative one makes the slice expression panic, and with a batch length of zero the callback
gets twelve bytes. -/
theorem walks_astray :
    (iterate acceptAll (headerOf (-12)) ()).2.2 = .hang ∧
      (iterate acceptAll (headerOf (-13)) ()).2.2 = .panic ∧
      (passed acceptAll (headerOf 0) ()).head?.map List.length = some 12 ∧
      ¬ Exact acceptAll (headerOf (-12)) () ∧ ¬ Exact acceptAll (headerOf (-13)) () ∧
      ¬ Exact acceptAll (headerOf 0) () := by
  have hhang : (iterate acceptAll (headerOf (-12)) ()).2.2 = .hang := by decide +kernel
  have hpanic : (iterate acceptAll (headerOf (-13)) ()).2.2 = .panic := by decide +kernel
  refine ⟨hhang, hpanic, by decide +kernel, fun h => h.ends.2 hhang, fun h => h.ends.1 hpanic,
    fun h => ?_⟩
  have hmem : (headerOf 0).take 12 ∈ passed acceptAll (headerOf 0) () := by decide +kernel
  exact absurd (h.framed _ hmem).1 (by decide +kernel)

end Record
end Mq
