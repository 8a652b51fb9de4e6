import Mathlib.Order.Basic
import Mathlib.Tactic.Linarith

/-!
# Binary search for a partition point

`search n f` is the loop of the Go library's `sort.Search`: it bisects `[0, n)`
for the least index at which `f` holds.  The loop is written on a fuel argument
so that it evaluates; `n` rounds are always enough, since each one shrinks the
interval.

## Main result

* `search_spec` — for a predicate that stays true once it is true, `search n f`
  separates the indices where `f` fails from those where it holds.
-/

namespace Search

/-- The bisection loop on the interval `[i, j)`. -/
def searchLoop (f : ℕ → Bool) : ℕ → ℕ → ℕ → ℕ
  | 0, i, _ => i
  | fuel + 1, i, j =>
    if i < j then
      let h := (i + j) / 2
      if f h then searchLoop f fuel i h else searchLoop f fuel (h + 1) j
    else i

/-- The least `i < n` with `f i`, or `n` when there is none. -/
def search (n : ℕ) (f : ℕ → Bool) : ℕ := searchLoop f n 0 n

/-- What the loop keeps: `f` fails below `i` and holds from `j` on, and the
result lies between the two with the same property. -/
theorem searchLoop_spec {f : ℕ → Bool} {n : ℕ}
    (hmono : ∀ a b, a ≤ b → b < n → f a = true → f b = true) :
    ∀ (fuel i j : ℕ), i ≤ j → j ≤ n → j - i ≤ fuel →
      (∀ k < i, f k = false) → (∀ k, j ≤ k → k < n → f k = true) →
      let r := searchLoop f fuel i j
      r ≤ n ∧ (∀ k < r, f k = false) ∧ ∀ k, r ≤ k → k < n → f k = true := by
  intro fuel
  induction fuel with
  | zero =>
    intro i j hij hjn hfuel hlo hhi
    obtain rfl : i = j := by omega
    exact ⟨hjn, hlo, hhi⟩
  | succ fuel ih =>
    intro i j hij hjn hfuel hlo hhi
    simp only [searchLoop]
    by_cases hlt : i < j
    · rw [if_pos hlt]
      cases hf : f ((i + j) / 2) with
      | true =>
        rw [if_pos rfl]
        exact ih i _ (by omega) (by omega) (by omega) hlo
          fun k hk hkn => hmono _ k hk hkn hf
      | false =>
        rw [if_neg (by simp)]
        refine ih _ j (by omega) hjn (by omega) (fun k hk => ?_) hhi
        -- were `f` true at `k`, it would be true at the midpoint above it
        cases hfk : f k with
        | false => rfl
        | true =>
          rw [hmono k ((i + j) / 2) (by omega) (by omega) hfk] at hf
          exact absurd hf (by simp)
    · rw [if_neg hlt]
      obtain rfl : i = j := by omega
      exact ⟨hjn, hlo, hhi⟩

/-- **The specification of `search`.** -/
theorem search_spec {f : ℕ → Bool} {n : ℕ}
    (hmono : ∀ a b, a ≤ b → b < n → f a = true → f b = true) :
    search n f ≤ n ∧ (∀ k < search n f, f k = false) ∧
      ∀ k, search n f ≤ k → k < n → f k = true :=
  searchLoop_spec hmono n 0 n (Nat.zero_le _) le_rfl (by omega)
    (fun k hk => absurd hk (Nat.not_lt_zero k)) fun k hk hkn => absurd hkn (by omega)

/-- A predicate that holds exactly from `m` on is found to do so. -/
theorem search_eq {f : ℕ → Bool} {m n : ℕ} (hm : m ≤ n) (hf : ∀ k < n, f k = decide (m ≤ k)) :
    search n f = m := by
  obtain ⟨hle, hlo, hhi⟩ := search_spec (f := f) (n := n) fun a b hab hbn ha => by
    rw [hf a (by omega)] at ha
    rw [hf b hbn]
    have := of_decide_eq_true ha
    exact decide_eq_true (by omega)
  rcases Nat.lt_trichotomy (search n f) m with h | h | h
  · have h₁ := hhi _ le_rfl (by omega)
    rw [hf _ (by omega)] at h₁
    exact absurd (of_decide_eq_true h₁) (by omega)
  · exact h
  · have h₁ := hlo m h
    rw [hf m (by omega)] at h₁
    exact absurd (of_decide_eq_false h₁) (by omega)

/-- A list that is cut where the predicate becomes true is cut at the index found. -/
theorem search_split {α : Type*} {f : α → Bool} {g : ℕ → Bool} {pre post : List α}
    (hg : ∀ i x, (pre ++ post)[i]? = some x → g i = f x) (hpre : ∀ x ∈ pre, f x = false)
    (hpost : ∀ x ∈ post, f x = true) : search (pre ++ post).length g = pre.length := by
  refine search_eq (by simp) fun k hk => ?_
  rw [hg k _ (List.getElem?_eq_getElem hk)]
  by_cases hlt : k < pre.length
  · rw [List.getElem_append_left hlt, hpre _ (List.getElem_mem _)]
    exact (decide_eq_false (by omega)).symm
  · rw [List.getElem_append_right (by omega), hpost _ (List.getElem_mem _)]
    exact (decide_eq_true (by omega)).symm

end Search
