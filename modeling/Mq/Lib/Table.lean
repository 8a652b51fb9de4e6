import Mathlib.Data.List.AList
import Mathlib.Data.List.Sort
import Mathlib.Algebra.BigOperators.Group.List.Basic
import Mathlib.Algebra.Ring.Int.Defs

/-!
# Tables

Finite maps with values of one type, as association lists without repeated keys.

## Main definitions

* `Table κ ν` — a finite map.
* `Table.total f t` — the sum of `f` over the values.
* `Table.overlay merge s t` — every entry of `s` put into `t`, merged with the
  entry it meets there.
* `Table.listing r t` — the entries in the order `r` of their keys.

## Main results

* `Table.total_insert` — how a sum changes when one entry does.
* `Table.lookup_overlay` — what an overlay holds at a key.
* `Table.listing_eq_iff` — two tables are listed alike if they hold the same.
-/

/-- A finite map from `κ` to `ν`. -/
abbrev Table (κ ν : Type) := AList (fun _ : κ => ν)

namespace Table

variable {κ ν : Type} [DecidableEq κ]

theorem lookup_insert_ite (t : Table κ ν) (k j : κ) (v : ν) :
    (t.insert k v).lookup j = if j = k then some v else t.lookup j := by
  split
  · next h => rw [h, AList.lookup_insert]
  · next h => exact AList.lookup_insert_ne h

variable {t : Table κ ν}

/-- What holds of an entry that is put in, and of those that were there, holds of all. -/
theorem forall_lookup_insert {k : κ} {v : ν} {P : κ → ν → Prop} (hself : P k v)
    (hother : ∀ j w, j ≠ k → t.lookup j = some w → P j w) (j : κ) (w : ν)
    (h : (t.insert k v).lookup j = some w) : P j w := by
  rw [lookup_insert_ite] at h
  split at h
  · next hj =>
    cases h
    exact hj ▸ hself
  · next hj => exact hother j w hj h

theorem of_lookup_insert_eq_none {k j : κ} {v : ν} (h : (t.insert k v).lookup j = none) :
    j ≠ k ∧ t.lookup j = none := by
  rw [lookup_insert_ite] at h
  split at h
  · cases h
  · next hj => exact ⟨hj, h⟩

theorem lookup_erase_ite (t : Table κ ν) (k j : κ) :
    (t.erase k).lookup j = if j = k then none else t.lookup j := by
  split
  · next h => rw [h, AList.lookup_erase]
  · next h => exact AList.lookup_erase_ne h

theorem mem_keys_iff (t : Table κ ν) (k : κ) : k ∈ t.keys ↔ t.lookup k ≠ none := by
  rw [← AList.mem_keys, ← AList.lookup_isSome, Option.isSome_iff_ne_none]

/-- Several entries removed. -/
theorem lookup_foldl_erase (ks : List κ) (t : Table κ ν) (j : κ) :
    (ks.foldl (fun t k => t.erase k) t).lookup j = if j ∈ ks then none else t.lookup j := by
  induction ks generalizing t with
  | nil => simp
  | cons k ks ih =>
    rw [List.foldl_cons, ih, lookup_erase_ite]
    by_cases hj : j = k
    · simp [hj]
    · simp [hj]

theorem lookup_of_entries_nil (h : t.entries = []) (k : κ) : t.lookup k = none := by
  rw [AList.lookup, h]
  rfl

theorem entries_nil_of_lookup (h : ∀ k, t.lookup k = none) : t.entries = [] := by
  cases ht : t.entries with
  | nil => rfl
  | cons e es =>
    have hmem : e.2 ∈ t.lookup e.1 := AList.mem_lookup_iff.mpr (ht ▸ List.mem_cons_self)
    rw [h e.1] at hmem
    cases hmem

/-- Several entries put in, the later ones in the place of the earlier. -/
def insertAll (t : Table κ ν) (es : List (κ × ν)) : Table κ ν :=
  es.foldl (fun t e => t.insert e.1 e.2) t

theorem mem_of_lookup_insertAll {es : List (κ × ν)} {k : κ} {v : ν}
    (h : (t.insertAll es).lookup k = some v) : (k, v) ∈ es ∨ t.lookup k = some v := by
  induction es generalizing t with
  | nil => exact .inr h
  | cons e es ih =>
    rcases ih h with hmem | hlook
    · exact .inl (List.mem_cons_of_mem e hmem)
    · rw [lookup_insert_ite] at hlook
      split at hlook
      · next hk =>
        cases hlook
        exact .inl (hk ▸ List.mem_cons_self)
      · exact .inr hlook

/-- A key of the entries is found. -/
theorem lookup_insertAll_ne_none {es : List (κ × ν)} {k : κ}
    (h : t.lookup k ≠ none ∨ ∃ v, (k, v) ∈ es) : (t.insertAll es).lookup k ≠ none := by
  induction es generalizing t with
  | nil => exact h.resolve_right (by simp)
  | cons e es ih =>
    apply ih
    rw [lookup_insert_ite]
    split
    · exact .inl (by simp)
    · next hk =>
      refine h.imp id ?_
      rintro ⟨v, hv⟩
      exact ⟨v, (List.mem_cons.mp hv).resolve_left fun he => hk (by rw [← he])⟩

/-! ### Listings -/

section listing

variable (r : κ → κ → Prop) [DecidableRel r]

/-- The entries in the order of their keys. -/
def listing (t : Table κ ν) : List (κ × ν) :=
  (t.keys.insertionSort r).filterMap fun k => (t.lookup k).map fun v => (k, v)

theorem mem_listing {t : Table κ ν} {k : κ} {v : ν} : (k, v) ∈ t.listing r ↔ t.lookup k = some v := by
  rw [listing, List.mem_filterMap]
  constructor
  · rintro ⟨j, -, hj⟩
    obtain ⟨w, hw, heq⟩ := Option.map_eq_some_iff.mp hj
    cases heq
    exact hw
  · intro h
    refine ⟨k, (List.mem_insertionSort r).mpr ((mem_keys_iff t k).mpr (by simp [h])), ?_⟩
    rw [h, Option.map_some]

/-- **Two tables are listed alike exactly if they hold the same.** -/
theorem listing_eq_iff [Std.Antisymm r] [Std.Total r] [IsTrans κ r] {s t : Table κ ν} :
    s.listing r = t.listing r ↔ ∀ k, s.lookup k = t.lookup k := by
  constructor
  · intro h k
    apply Option.ext
    intro v
    rw [← mem_listing r, h, mem_listing]
  · intro h
    have hperm : s.keys.Perm t.keys := by
      rw [List.perm_ext_iff_of_nodup s.keys_nodup t.keys_nodup]
      intro k
      rw [mem_keys_iff, mem_keys_iff, h]
    have hkeys : s.keys.insertionSort r = t.keys.insertionSort r :=
      List.Perm.eq_of_pairwise' (List.pairwise_insertionSort r _) (List.pairwise_insertionSort r _)
        (((List.perm_insertionSort r _).trans hperm).trans (List.perm_insertionSort r _).symm)
    simp only [listing, hkeys, h]

end listing

/-! ### Sums -/

/-- The sum of a function over the values. -/
def total (f : ν → ℤ) (t : Table κ ν) : ℤ := (t.entries.map fun e => f e.2).sum

theorem total_congr {f g : ν → ℤ} (h : ∀ k v, t.lookup k = some v → f v = g v) :
    total f t = total g t := by
  rw [total, total]
  congr 1
  apply List.map_congr_left
  intro e he
  exact h e.1 e.2 (AList.mem_lookup_iff.mpr he)

theorem sum_kerase (f : ν → ℤ) (k : κ) (es : List (Sigma fun _ : κ => ν)) :
    ((es.kerase k).map fun e => f e.2).sum + ((es.dlookup k).map f).getD 0
      = (es.map fun e => f e.2).sum := by
  induction es with
  | nil => rfl
  | cons e es ih =>
    rcases e with ⟨j, v⟩
    by_cases hj : k = j
    · subst hj
      have herase : List.kerase k ((⟨k, v⟩ : Sigma fun _ : κ => ν) :: es) = es :=
        List.kerase_cons_eq rfl
      rw [herase, List.dlookup_cons_eq]
      simp only [Option.map_some, Option.getD_some, List.map_cons, List.sum_cons]
      exact Int.add_comm _ _
    · have herase : List.kerase k ((⟨j, v⟩ : Sigma fun _ : κ => ν) :: es) = ⟨j, v⟩ :: es.kerase k :=
        List.kerase_cons_ne hj
      rw [herase, List.dlookup_cons_ne _ _ hj]
      simp only [List.map_cons, List.sum_cons]
      omega

/-- **One entry more or changed**: the old value leaves the sum, the new one enters. -/
theorem total_insert (f : ν → ℤ) (t : Table κ ν) (k : κ) (v : ν) :
    total f (t.insert k v) + ((t.lookup k).map f).getD 0 = total f t + f v := by
  have hsum := sum_kerase f k t.entries
  rw [total, AList.entries_insert, List.map_cons, List.sum_cons, total, ← hsum]
  simp only [AList.lookup]
  omega

/-! ### Overlays -/

/-- Put one entry into a table, merged with the value it meets. -/
def overlayEntry (merge : ν → ν → ν) (t : Table κ ν) (e : Sigma fun _ : κ => ν) : Table κ ν :=
  match t.lookup e.1 with
  | some cur => t.insert e.1 (merge e.2 cur)
  | none => t.insert e.1 e.2

/-- Put every entry of `s` into `t`. -/
def overlay (merge : ν → ν → ν) (s t : Table κ ν) : Table κ ν :=
  s.entries.foldl (overlayEntry merge) t

/-- What an entry of the one table and an entry of the other make. -/
def mergeValues (merge : ν → ν → ν) : Option ν → Option ν → Option ν
  | some v, some cur => some (merge v cur)
  | some v, none => some v
  | none, cur => cur

theorem lookup_overlayEntry (merge : ν → ν → ν) (t : Table κ ν) (e : Sigma fun _ : κ => ν) (k : κ) :
    (overlayEntry merge t e).lookup k
      = if k = e.1 then mergeValues merge (some e.2) (t.lookup k) else t.lookup k := by
  rw [overlayEntry]
  by_cases hk : k = e.1
  · subst hk
    cases t.lookup e.1 with
    | none => rw [lookup_insert_ite, if_pos rfl, if_pos rfl]; rfl
    | some cur => rw [lookup_insert_ite, if_pos rfl, if_pos rfl]; rfl
  · cases t.lookup e.1 with
    | none => rw [lookup_insert_ite, if_neg hk, if_neg hk]
    | some cur => rw [lookup_insert_ite, if_neg hk, if_neg hk]

theorem lookup_foldl_overlayEntry (merge : ν → ν → ν) (k : κ) :
    ∀ (es : List (Sigma fun _ : κ => ν)) (t : Table κ ν), es.NodupKeys →
      (es.foldl (overlayEntry merge) t).lookup k
        = mergeValues merge (es.dlookup k) (t.lookup k) := by
  intro es
  induction es with
  | nil => intro t _; rfl
  | cons e es ih =>
    intro t hnd
    rcases e with ⟨j, v⟩
    obtain ⟨hj, hnd⟩ := List.nodupKeys_cons.mp hnd
    rw [List.foldl_cons, ih _ hnd, lookup_overlayEntry]
    by_cases hk : k = j
    · -- the key is not met again, so what was put there stays
      subst hk
      rw [if_pos rfl, List.dlookup_cons_eq, List.dlookup_eq_none.mpr hj]
      rfl
    · rw [if_neg hk, List.dlookup_cons_ne _ _ hk]

theorem lookup_overlay (merge : ν → ν → ν) (s t : Table κ ν) (k : κ) :
    (overlay merge s t).lookup k = mergeValues merge (s.lookup k) (t.lookup k) :=
  lookup_foldl_overlayEntry merge k s.entries t s.nodupKeys

end Table
