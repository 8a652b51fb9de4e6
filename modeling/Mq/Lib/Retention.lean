import Mathlib.Algebra.BigOperators.Group.List.Basic
import Mathlib.Algebra.Ring.Int.Defs
import Mathlib.Data.List.TakeWhile

/-!
# Dropping the oldest items

Oldest-first retention: items are dropped from the front as long as the next one has
expired or the total size of what is left is over a limit.

## Main definitions

* `dropCount` — how many items are dropped.
* `Spares` — the oldest item that is to be kept is neither expired nor asked for by the
  limit.
* `Enough`, `Least` — how many items should go: as few as leave nothing to drop.

## Main results

* `Spares.dropCount_le` — **what is to be kept is kept.**
* `least_dropCount` — **no more than necessary is dropped, and no less.**
-/

namespace Retention

variable {α β : Type*} (expired : α → Bool) (large : ℤ → Bool) (size : α → ℤ)

/-- How many items are dropped from the front of a list with the given total size. -/
def dropCount : ℤ → List α → ℕ
  | _, [] => 0
  | total, a :: as =>
    if expired a || large total then dropCount (total - size a) as + 1 else 0

/-- The first item that need not go, counted by `below`, has not expired, and from it on
the size is within the limit. -/
def Spares (below : α → Bool) (total : ℤ) (as : List α) : Prop :=
  match as.dropWhile below with
  | [] => True
  | a :: _ => expired a = false ∧ large (total - ((as.takeWhile below).map size).sum) = false

instance (below : α → Bool) (total : ℤ) (as : List α) :
    Decidable (Spares expired large size below total as) := by
  unfold Spares
  split <;> infer_instance

/-- Without the first `k` items there is nothing to drop: none is left, or the next one has
not expired and the size is within the limit. -/
def Enough (total : ℤ) (as : List α) (k : ℕ) : Prop :=
  ∀ a ∈ as[k]?, expired a = false ∧ large (total - ((as.take k).map size).sum) = false

/-- The first `k` items are enough, and no fewer. -/
structure Least (total : ℤ) (as : List α) (k : ℕ) : Prop where
  le_length : k ≤ as.length
  enough : Enough expired large size total as k
  minimal : ∀ j < k, ¬ Enough expired large size total as j

variable {expired large size}

theorem dropCount_le_length (total : ℤ) (as : List α) :
    dropCount expired large size total as ≤ as.length := by
  induction as generalizing total with
  | nil => exact le_rfl
  | cons a as ih =>
    rw [dropCount]
    split
    · exact Nat.succ_le_succ (ih _)
    · exact Nat.zero_le _

theorem dropCount_map (f : β → α) (total : ℤ) (bs : List β) :
    dropCount expired large size total (bs.map f)
      = dropCount (expired ∘ f) large (size ∘ f) total bs := by
  induction bs generalizing total with
  | nil => rfl
  | cons b bs ih => rw [List.map_cons, dropCount, dropCount, ih]; rfl

variable {total : ℤ}

/-- The dropping stops at an item that has not expired and from which on the size is within
the limit. -/
theorem dropCount_append_le {pre post : List α} {a : α} (ha : expired a = false)
    (hover : large (total - (pre.map size).sum) = false) :
    dropCount expired large size total (pre ++ a :: post) ≤ pre.length := by
  induction pre generalizing total with
  | nil =>
    simp only [List.map_nil, List.sum_nil, sub_zero] at hover
    simp [dropCount, ha, hover]
  | cons b pre ih =>
    have hrest : large (total - size b - (pre.map size).sum) = false := by
      rw [← hover, List.map_cons, List.sum_cons, sub_sub]
    rw [List.cons_append, dropCount]
    split
    · exact Nat.succ_le_succ (ih hrest)
    · exact Nat.zero_le _

/-- **What is to be kept is kept.** -/
theorem Spares.dropCount_le {below : α → Bool} {as : List α}
    (h : Spares expired large size below total as) :
    dropCount expired large size total as ≤ (as.takeWhile below).length := by
  have hsplit := List.takeWhile_append_dropWhile (p := below) (l := as)
  rw [Spares] at h
  cases hrest : as.dropWhile below with
  | nil =>
    rw [hrest, List.append_nil] at hsplit
    rw [hsplit]
    exact dropCount_le_length total as
  | cons a post =>
    rw [hrest] at h hsplit
    conv_lhs => rw [← hsplit]
    exact dropCount_append_le h.1 h.2

/-- The last item that is dropped is one that may go. -/
theorem Spares.getElem_below {below : α → Bool} {as : List α}
    (h : Spares expired large size below total as) {n : ℕ}
    (hn : n < dropCount expired large size total as) {a : α} (ha : as[n]? = some a) :
    below a = true := by
  have hlt : n < (as.takeWhile below).length := hn.trans_le h.dropCount_le
  rw [← List.takeWhile_append_dropWhile (p := below) (l := as), List.getElem?_append_left hlt] at ha
  exact List.mem_takeWhile_imp (List.mem_of_getElem? ha)

/-! ### As few as possible -/

theorem enough_cons_zero (total : ℤ) (a : α) (as : List α) :
    Enough expired large size total (a :: as) 0 ↔ expired a = false ∧ large total = false := by
  simp [Enough]

theorem enough_cons_succ (total : ℤ) (a : α) (as : List α) (k : ℕ) :
    Enough expired large size total (a :: as) (k + 1)
      ↔ Enough expired large size (total - size a) as k := by
  simp only [Enough, List.getElem?_cons_succ, List.take_succ_cons, List.map_cons, List.sum_cons,
    sub_sub]

/-- **No more than necessary is dropped, and no less.** -/
theorem least_dropCount (total : ℤ) (as : List α) :
    Least expired large size total as (dropCount expired large size total as) := by
  refine ⟨dropCount_le_length total as, ?_, ?_⟩
  · induction as generalizing total with
    | nil => simp [Enough]
    | cons a as ih =>
      rw [dropCount]
      split
      · exact (enough_cons_succ total a as _).mpr (ih _)
      · next hkeep => exact (enough_cons_zero total a as).mpr (by simpa using hkeep)
  · induction as generalizing total with
    | nil => simp [dropCount]
    | cons a as ih =>
      intro j hj
      rw [dropCount] at hj
      split at hj
      · next hdrop =>
        cases j with
        | zero =>
          rw [enough_cons_zero]
          rintro ⟨ha, hlarge⟩
          simp [ha, hlarge] at hdrop
        | succ j =>
          rw [enough_cons_succ]
          exact ih _ j (by omega)
      · omega

/-- Counts that agree on the items agree. -/
theorem dropCount_congr {expired' : α → Bool} {size' : α → ℤ} {as : List α}
    (hexp : ∀ a ∈ as, expired a = expired' a) (hsize : ∀ a ∈ as, size a = size' a) :
    dropCount expired large size total as = dropCount expired' large size' total as := by
  induction as generalizing total with
  | nil => rfl
  | cons a as ih =>
    rw [dropCount, dropCount, hexp a List.mem_cons_self, hsize a List.mem_cons_self,
      ih (fun b hb => hexp b (List.mem_cons_of_mem a hb))
        fun b hb => hsize b (List.mem_cons_of_mem a hb)]

end Retention
