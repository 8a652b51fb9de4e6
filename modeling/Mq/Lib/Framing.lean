import Mathlib.Data.List.Basic
import Mathlib.Data.List.Infix

/-!
# Logs of frames

A log is written frame after frame and read from the front, one frame at a time, until what
is left is no whole frame.  The last frame of a file may have been cut short anywhere.

## Main definitions

* `feed` — call a function with the items of a list until it refuses one.
* `Head`, `scan` — what stands at the front of the data, and the loop that reads it.
* `Codec` — an encoding of items as frames, with a reader of the frame at the front that
  stops at a frame that is cut short.
* `Codec.Torn` — the beginning of a frame, and not all of it.

## Main results

* `scan_eq` — the equation of the loop.  Every round takes a symbol at least.
* `feed_flatMap` — calls for lists of items, one list after the other.
* `Codec.scan_frames` — **a scan of frames and a torn one finds the items of the whole
  frames.**
-/

namespace Framing

variable {α β ε σ : Type*}

/-! ### Calls for the items of a list -/

/-- Call `fn` with the items of a list until it refuses one; `s` is what it works on. -/
def feed (fn : σ → α → σ × Option ε) : σ → List α → σ × Option ε
  | s, [] => (s, none)
  | s, a :: as =>
    match fn s a with
    | (s', some e) => (s', some e)
    | (s', none) => feed fn s' as

theorem feed_append (fn : σ → α → σ × Option ε) (s : σ) (as bs : List α) :
    feed fn s (as ++ bs) = match feed fn s as with
      | (s', some e) => (s', some e)
      | (s', none) => feed fn s' bs := by
  induction as generalizing s with
  | nil => rfl
  | cons a as ih =>
    rw [List.cons_append, feed, feed]
    rcases fn s a with ⟨s', e | e⟩
    · exact ih s'
    · rfl

/-- Calls for lists of items, one list after the other. -/
theorem feed_flatMap {γ : Type*} (fn : σ → α → σ × Option ε) (f : γ → List α) (s : σ)
    (cs : List γ) : feed (fun s c => feed fn s (f c)) s cs = feed fn s (cs.flatMap f) := by
  induction cs generalizing s with
  | nil => rfl
  | cons c cs ih =>
    rw [List.flatMap_cons, feed_append, feed]
    rcases feed fn s (f c) with ⟨s', e | e⟩
    · exact ih s'
    · rfl

theorem feed_map {γ : Type*} (fn : σ → α → σ × Option ε) (f : γ → α) (s : σ) (cs : List γ) :
    feed fn s (cs.map f) = feed (fun s c => fn s (f c)) s cs := by
  induction cs generalizing s with
  | nil => rfl
  | cons c cs ih =>
    rw [List.map_cons, feed, feed]
    rcases fn s (f c) with ⟨s', e | e⟩
    · exact ih s'
    · rfl

/-- The calls agree as long as the functions agree on the items. -/
theorem feed_congr {fn gn : σ → α → σ × Option ε} {as : List α}
    (h : ∀ s, ∀ a ∈ as, fn s a = gn s a) (s : σ) : feed fn s as = feed gn s as := by
  induction as generalizing s with
  | nil => rfl
  | cons a as ih =>
    rw [feed, feed, h s a List.mem_cons_self]
    rcases gn s a with ⟨s', e | e⟩
    · exact ih (fun s b hb => h s b (List.mem_cons_of_mem _ hb)) s'
    · rfl

/-- A function that refuses nothing is called with every item. -/
theorem feed_of_ok {fn : σ → α → σ × Option ε} (h : ∀ s a, (fn s a).2 = none) (s : σ)
    (as : List α) : feed fn s as = (as.foldl (fun s a => (fn s a).1) s, none) := by
  induction as generalizing s with
  | nil => rfl
  | cons a as ih =>
    have hok := h s a
    rw [feed, List.foldl_cons]
    rcases hfn : fn s a with ⟨s', e | e⟩
    · exact ih s'
    · rw [hfn] at hok
      cases hok

/-! ### Scanning -/

/-- What stands at the front of the data. -/
inductive Head (α ε : Type*)
  /-- No whole frame; the scan ends. -/
  | stop
  /-- A whole frame that holds no item; the scan ends with an error. -/
  | bad (e : ε)
  /-- A whole frame with an item, of `rest + 1` symbols. -/
  | frame (a : α) (rest : ℕ)

/-- The rounds of a scan; each takes a symbol at least. -/
def scanLoop (head : List β → Head α ε) (fn : σ → α → σ × Option ε) :
    ℕ → List β → σ → σ × Option ε
  | 0, _, s => (s, none)
  | _ + 1, [], s => (s, none)
  | fuel + 1, b :: data, s =>
    match head (b :: data) with
    | .stop => (s, none)
    | .bad e => (s, some e)
    | .frame a rest =>
      match fn s a with
      | (s', some e) => (s', some e)
      | (s', none) => scanLoop head fn fuel (data.drop rest) s'

/-- Read frames from the front of the data and call `fn` with their items. -/
def scan (head : List β → Head α ε) (fn : σ → α → σ × Option ε) (data : List β) (s : σ) :
    σ × Option ε :=
  scanLoop head fn data.length data s

theorem scanLoop_of_le (head : List β → Head α ε) (fn : σ → α → σ × Option ε) {fuel : ℕ}
    {data : List β} (h : data.length ≤ fuel) (s : σ) :
    scanLoop head fn fuel data s = scan head fn data s := by
  -- more rounds than symbols make no difference
  suffices hsucc : ∀ (fuel : ℕ) (data : List β) (s : σ), data.length ≤ fuel →
      scanLoop head fn (fuel + 1) data s = scanLoop head fn fuel data s by
    obtain ⟨extra, rfl⟩ := Nat.exists_eq_add_of_le h
    clear h
    induction extra with
    | zero => rfl
    | succ extra ih => rw [← ih, ← Nat.add_assoc, hsucc _ _ _ (Nat.le_add_right _ _)]
  intro fuel
  induction fuel with
  | zero =>
    intro data s hlen
    rw [List.length_eq_zero_iff.mp (Nat.le_zero.mp hlen)]
    rfl
  | succ fuel ih =>
    intro data s hlen
    cases data with
    | nil => rfl
    | cons b data =>
      rw [scanLoop, scanLoop]
      cases head (b :: data) with
      | stop => rfl
      | bad e => rfl
      | frame a rest =>
        dsimp only
        rcases fn s a with ⟨s', e | e⟩
        · refine ih _ s' ?_
          rw [List.length_cons] at hlen
          rw [List.length_drop]
          omega
        · rfl

@[simp] theorem scan_nil (head : List β → Head α ε) (fn : σ → α → σ × Option ε) (s : σ) :
    scan head fn [] s = (s, none) := rfl

/-- **The equation of the loop.** -/
theorem scan_eq (head : List β → Head α ε) (fn : σ → α → σ × Option ε) {data : List β}
    (h : data ≠ []) (s : σ) :
    scan head fn data s = match head data with
      | .stop => (s, none)
      | .bad e => (s, some e)
      | .frame a rest =>
        match fn s a with
        | (s', some e) => (s', some e)
        | (s', none) => scan head fn (data.drop (rest + 1)) s' := by
  cases data with
  | nil => exact absurd rfl h
  | cons b data =>
    rw [scan, List.length_cons, scanLoop]
    cases head (b :: data) with
    | stop => rfl
    | bad e => rfl
    | frame a rest =>
      dsimp only
      rw [List.drop_succ_cons]
      rcases fn s a with ⟨s', e | e⟩
      · refine scanLoop_of_le head fn ?_ s'
        rw [List.length_drop]
        omega
      · rfl

/-! ### Codecs -/

/-- An encoding of items as frames, with a reader that finds the frame at the front whatever
comes after it, and stops at a frame that is cut short. -/
structure Codec (β α ε : Type*) where
  encode : α → List β
  head : List β → Head α ε
  Valid : α → Prop
  head_encode : ∀ a, Valid a → ∀ after, ∃ rest, (encode a).length = rest + 1 ∧
    head (encode a ++ after) = .frame a rest
  head_torn : ∀ a, Valid a → ∀ t, t ≠ [] → t <+: encode a → t ≠ encode a → head t = .stop

namespace Codec

variable (c : Codec β α ε)

/-- The beginning of a frame, and not all of it. -/
def Torn (t : List β) : Prop := ∃ a, c.Valid a ∧ t <+: c.encode a ∧ t ≠ c.encode a

variable {c}

theorem scan_torn {t : List β} (ht : c.Torn t) (fn : σ → α → σ × Option ε) (s : σ) :
    scan c.head fn t s = (s, none) := by
  obtain ⟨a, ha, hpre, hne⟩ := ht
  by_cases hnil : t = []
  · rw [hnil, scan_nil]
  · rw [scan_eq _ _ hnil, c.head_torn a ha t hnil hpre hne]

/-- The scan takes a whole frame from the front. -/
theorem scan_encode {a : α} (ha : c.Valid a) (after : List β) (fn : σ → α → σ × Option ε)
    (s : σ) :
    scan c.head fn (c.encode a ++ after) s = match fn s a with
      | (s', some e) => (s', some e)
      | (s', none) => scan c.head fn after s' := by
  obtain ⟨rest, hlen, hhead⟩ := c.head_encode a ha after
  have hne : c.encode a ++ after ≠ [] := by
    intro hnil
    rw [(List.append_eq_nil_iff.mp hnil).1] at hlen
    cases hlen
  rw [scan_eq _ _ hne, hhead]
  dsimp only
  rw [← hlen, List.drop_left]

/-- **A scan of frames and a torn one finds the items of the whole frames.** -/
theorem scan_frames {as : List α} (has : ∀ a ∈ as, c.Valid a) {t : List β} (ht : c.Torn t)
    (fn : σ → α → σ × Option ε) (s : σ) :
    scan c.head fn (as.flatMap c.encode ++ t) s = feed fn s as := by
  induction as generalizing s with
  | nil => exact scan_torn ht fn s
  | cons a as ih =>
    obtain ⟨ha, hrest⟩ := List.forall_mem_cons.mp has
    rw [List.flatMap_cons, List.append_assoc, scan_encode ha, feed]
    rcases fn s a with ⟨s', e | e⟩
    · exact ih hrest s'
    · rfl

end Codec

end Framing
