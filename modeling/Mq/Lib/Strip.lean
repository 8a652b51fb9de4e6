import Mathlib.Data.List.Infix
import Mathlib.Data.List.Flatten

/-!
# Stripping words from the ends of a string

A string is stripped of the words of a list, at the left, at the right or at both ends.  The
words may have several letters, as the white space of an encoded text has, so what has to be
known is that they can be told apart from either end, and that a word does not begin inside of
another.

## Main definitions

* `stripLeft`, `stripRight`, `strip` — take words away as long as there is one.
* `Code` — no word is empty, and none begins with another.
* `Marks` — a code from either end, whose first letters stand only at the beginning.

## Main results

* `strip_append_left`, `strip_append_right` — **a word at an end makes no difference**.
* `map_strip_splitOn` — a string may be stripped before it is split into parts that are
  stripped anyway.
-/

namespace Strip

variable {α : Type} [DecidableEq α]

/-! ### Stripping -/

/-- Take a word away at the left, at most so many times. -/
def stripLoop (ws : List (List α)) : ℕ → List α → List α
  | 0, s => s
  | n + 1, s =>
    match ws.find? fun w => w.isPrefixOf s with
    | none => s
    | some w => stripLoop ws n (s.drop w.length)

def stripLeft (ws : List (List α)) (s : List α) : List α := stripLoop ws s.length s

def stripRight (ws : List (List α)) (s : List α) : List α :=
  (stripLeft (ws.map List.reverse) s.reverse).reverse

def strip (ws : List (List α)) (s : List α) : List α := stripRight ws (stripLeft ws s)

/-! ### Words -/

/-- No word is empty, and none begins with another. -/
structure Code (ws : List (List α)) : Prop where
  ne_nil : ∀ w ∈ ws, w ≠ []
  eq_of_prefix : ∀ v ∈ ws, ∀ w ∈ ws, v <+: w → v = w

/-- The words can be told apart from either end, and the first letter of one is not inside of
another. -/
structure Marks (ws : List (List α)) : Prop where
  left : Code ws
  right : Code (ws.map List.reverse)
  first : ∀ v ∈ ws, ∀ w ∈ ws, ∀ a ∈ w.head?, a ∉ v.tail

variable {ws : List (List α)} {s t w : List α}

/-! ### The left end -/

/-- The word that is found is the only one that the string begins with. -/
theorem Code.find_eq (h : Code ws) (hw : w ∈ ws) (s : List α) :
    (ws.find? fun v => v.isPrefixOf (w ++ s)) = some w := by
  cases hfind : ws.find? fun v => v.isPrefixOf (w ++ s) with
  | none => simpa using List.find?_eq_none.mp hfind w hw
  | some v =>
    have hv : v <+: w ++ s := by simpa using List.find?_some hfind
    have hmem := List.mem_of_find?_eq_some hfind
    rcases List.prefix_or_prefix_of_prefix hv (List.prefix_append w s) with hvw | hwv
    · rw [h.eq_of_prefix v hmem w hw hvw]
    · rw [h.eq_of_prefix w hw v hmem hwv]

/-- A string that begins with no word is left alone. -/
theorem stripLoop_of_forall_not (h : ∀ w ∈ ws, ¬ w <+: s) (n : ℕ) : stripLoop ws n s = s := by
  cases n with
  | zero => rfl
  | succ n =>
    have hfind : (ws.find? fun w => w.isPrefixOf s) = none :=
      List.find?_eq_none.mpr fun w hw => by simpa using h w hw
    rw [stripLoop, hfind]

theorem stripLeft_of_forall_not (h : ∀ w ∈ ws, ¬ w <+: s) : stripLeft ws s = s :=
  stripLoop_of_forall_not h _

/-- What is left begins with no word, and what is gone is a sequence of words. -/
theorem Code.stripLoop_spec (h : Code ws) :
    ∀ (n : ℕ) (s : List α), s.length ≤ n → ∃ vs : List (List α), (∀ v ∈ vs, v ∈ ws) ∧
      s = vs.flatten ++ stripLoop ws n s ∧ ∀ w ∈ ws, ¬ w <+: stripLoop ws n s := by
  intro n
  induction n with
  | zero =>
    intro s hs
    obtain rfl : s = [] := List.length_eq_zero_iff.mp (by omega)
    exact ⟨[], by simp, rfl, fun w hw hpre => h.ne_nil w hw (List.prefix_nil.mp hpre)⟩
  | succ n ih =>
    intro s hs
    rw [stripLoop]
    cases hfind : ws.find? fun w => w.isPrefixOf s with
    | none =>
      refine ⟨[], by simp, rfl, fun w hw hpre => ?_⟩
      simpa [hpre] using List.find?_eq_none.mp hfind w hw
    | some w =>
      have hmem := List.mem_of_find?_eq_some hfind
      obtain ⟨rest, rfl⟩ : w <+: s := by simpa using List.find?_some hfind
      have hpos := List.length_pos_iff.mpr (h.ne_nil w hmem)
      rw [List.length_append] at hs
      dsimp only
      rw [List.drop_left]
      obtain ⟨vs, hvs, heq, hnot⟩ := ih rest (by omega)
      refine ⟨w :: vs, by simpa using ⟨hmem, hvs⟩, ?_, hnot⟩
      rw [List.flatten_cons, List.append_assoc, ← heq]

theorem Code.stripLeft_spec (h : Code ws) (s : List α) :
    ∃ vs : List (List α), (∀ v ∈ vs, v ∈ ws) ∧ s = vs.flatten ++ stripLeft ws s ∧
      ∀ w ∈ ws, ¬ w <+: stripLeft ws s :=
  h.stripLoop_spec s.length s le_rfl

/-- More rounds than letters make no difference. -/
theorem Code.stripLoop_of_le (h : Code ws) :
    ∀ (n : ℕ) (s : List α), s.length ≤ n → stripLoop ws n s = stripLeft ws s := by
  intro n
  induction n using Nat.strong_induction_on with
  | _ n ih =>
    intro s hs
    cases n with
    | zero =>
      obtain rfl : s = [] := List.length_eq_zero_iff.mp (by omega)
      rfl
    | succ n =>
      by_cases hnot : ∀ w ∈ ws, ¬ w <+: s
      · rw [stripLoop_of_forall_not hnot, stripLeft_of_forall_not hnot]
      · push Not at hnot
        obtain ⟨w, hw, rest, rfl⟩ := hnot
        have hpos := List.length_pos_iff.mpr (h.ne_nil w hw)
        rw [List.length_append] at hs
        obtain ⟨m, hm⟩ : ∃ m, (w ++ rest).length = m + 1 :=
          ⟨w.length + rest.length - 1, by simp; omega⟩
        rw [List.length_append] at hm
        rw [stripLeft, List.length_append, hm, stripLoop, stripLoop, h.find_eq hw]
        dsimp only
        rw [List.drop_left, ih n (by omega) rest (by omega), ih m (by omega) rest (by omega)]

/-- **A word at the left is taken away.** -/
theorem Code.stripLeft_append (h : Code ws) (hw : w ∈ ws) (s : List α) :
    stripLeft ws (w ++ s) = stripLeft ws s := by
  have hpos := List.length_pos_iff.mpr (h.ne_nil w hw)
  obtain ⟨m, hm⟩ : ∃ m, w.length + s.length = m + 1 := ⟨w.length + s.length - 1, by omega⟩
  rw [stripLeft, List.length_append, hm, stripLoop, h.find_eq hw]
  dsimp only
  rw [List.drop_left, h.stripLoop_of_le m s (by omega)]

theorem Code.stripLeft_flatten (h : Code ws) {vs : List (List α)} (hvs : ∀ v ∈ vs, v ∈ ws)
    (s : List α) : stripLeft ws (vs.flatten ++ s) = stripLeft ws s := by
  induction vs with
  | nil => rfl
  | cons v vs ih =>
    rw [List.flatten_cons, List.append_assoc, h.stripLeft_append (hvs v (by simp)),
      ih fun u hu => hvs u (by simp [hu])]

/-! ### The right end -/

theorem Marks.stripRight_append (h : Marks ws) (hw : w ∈ ws) (s : List α) :
    stripRight ws (s ++ w) = stripRight ws s := by
  rw [stripRight, List.reverse_append, h.right.stripLeft_append (List.mem_map_of_mem hw),
    stripRight]

theorem Marks.stripRight_spec (h : Marks ws) (s : List α) :
    ∃ vs : List (List α), (∀ v ∈ vs, v ∈ ws) ∧ s = stripRight ws s ++ vs.flatten := by
  obtain ⟨vs, hvs, heq, -⟩ := h.right.stripLeft_spec s.reverse
  refine ⟨(vs.map List.reverse).reverse, ?_, ?_⟩
  · intro v hv
    obtain ⟨u, hu, rfl⟩ := List.mem_map.mp (List.mem_reverse.mp hv)
    obtain ⟨w, hw, rfl⟩ := List.mem_map.mp (hvs u hu)
    rwa [List.reverse_reverse]
  · have hrev := congrArg List.reverse heq
    rwa [List.reverse_reverse, List.reverse_append, List.reverse_flatten] at hrev

/-- A string that ends with no word is left alone. -/
theorem stripRight_of_forall_not (h : ∀ w ∈ ws, ¬ w <:+ s) : stripRight ws s = s := by
  rw [stripRight, stripLeft_of_forall_not, List.reverse_reverse]
  intro u hu
  obtain ⟨w, hw, rfl⟩ := List.mem_map.mp hu
  rw [List.reverse_prefix]
  exact h w hw

/-! ### Both ends -/

theorem strip_of_forall_not (hleft : ∀ w ∈ ws, ¬ w <+: s) (hright : ∀ w ∈ ws, ¬ w <:+ s) :
    strip ws s = s := by
  rw [strip, stripLeft_of_forall_not hleft, stripRight_of_forall_not hright]

/-- **A word at the left makes no difference.** -/
theorem Marks.strip_append_left (h : Marks ws) (hw : w ∈ ws) (s : List α) :
    strip ws (w ++ s) = strip ws s := by
  rw [strip, h.left.stripLeft_append hw, strip]

omit [DecidableEq α] in
/-- A string that begins with no word does not begin with one when a word is put behind it. -/
theorem Marks.not_prefix_append (h : Marks ws) (hw : w ∈ ws) (hs : s ≠ [])
    (hnot : ∀ v ∈ ws, ¬ v <+: s) : ∀ v ∈ ws, ¬ v <+: s ++ w := by
  intro v hv hpre
  rcases List.prefix_or_prefix_of_prefix hpre (List.prefix_append s w) with hvs | ⟨u, rfl⟩
  · exact hnot v hv hvs
  · -- the first letter of `w` would be inside of `v`
    have huw : u <+: w := (List.prefix_append_right_inj s).mp hpre
    cases u with
    | nil => exact hnot _ hv (by simp)
    | cons a u =>
      obtain ⟨b, s, rfl⟩ := List.exists_cons_of_ne_nil hs
      refine h.first _ hv w hw a ?_ (by simp)
      obtain ⟨rest, rfl⟩ := huw
      rfl

/-- **A word at the right makes no difference.** -/
theorem Marks.strip_append_right (h : Marks ws) (hw : w ∈ ws) (s : List α) :
    strip ws (s ++ w) = strip ws s := by
  obtain ⟨vs, hvs, heq, hnot⟩ := h.left.stripLeft_spec s
  have hleft : stripLeft ws (s ++ w) = stripLeft ws (stripLeft ws s ++ w) := by
    conv_lhs => rw [heq, List.append_assoc]
    exact h.left.stripLeft_flatten hvs _
  rw [strip, hleft, strip]
  by_cases hnil : stripLeft ws s = []
  · have hword := h.left.stripLeft_append hw []
    rw [List.append_nil] at hword
    rw [hnil, List.nil_append, hword]
    rfl
  · rw [stripLeft_of_forall_not (h.not_prefix_append hw hnil hnot), h.stripRight_append hw]

/-! ### Parts -/

/-- A word before the string is a word before its first part. -/
theorem splitOn_append_left {c : α} (hc : c ∉ w) (s : List α) :
    ∃ p ps, s.splitOn c = p :: ps ∧ (w ++ s).splitOn c = (w ++ p) :: ps := by
  induction w with
  | nil =>
    obtain ⟨p, ps, hps⟩ := List.exists_cons_of_ne_nil (List.splitOn_ne_nil c s)
    exact ⟨p, ps, hps, hps⟩
  | cons a w ih =>
    obtain ⟨p, ps, hps, heq⟩ := ih fun hw => hc (List.mem_cons_of_mem a hw)
    refine ⟨p, ps, hps, ?_⟩
    have ha : ¬ a = c := fun hac => hc (by simp [hac])
    rw [List.splitOn] at heq
    rw [List.cons_append, List.splitOn, List.splitOnP_cons_eq_if_modifyHead,
      if_neg (by simpa using ha), heq]
    rfl

/-- A word behind the string is a word behind its last part. -/
theorem splitOn_append_right {c : α} (hc : c ∉ w) (s : List α) :
    ∃ ps p, s.splitOn c = ps ++ [p] ∧ (s ++ w).splitOn c = ps ++ [p ++ w] := by
  induction s with
  | nil =>
    refine ⟨[], [], rfl, List.splitOnP_eq_singleton fun a ha => ?_⟩
    have hac : a ≠ c := fun h => hc (h ▸ ha)
    simpa using hac
  | cons a s ih =>
    obtain ⟨ps, p, hps, heq⟩ := ih
    rw [List.splitOn] at hps heq
    simp only [List.cons_append, List.splitOn, List.splitOnP_cons_eq_if_modifyHead, hps, heq]
    split
    · exact ⟨[] :: ps, p, rfl, rfl⟩
    · cases ps with
      | nil => exact ⟨[], a :: p, rfl, rfl⟩
      | cons q ps => exact ⟨(a :: q) :: ps, p, rfl, rfl⟩

section Parts

variable {c : α} (h : Marks ws) (hc : ∀ w ∈ ws, c ∉ w)

include h hc

/-- The parts of a string with words at its left, when they are stripped. -/
theorem map_strip_splitOn_left {vs : List (List α)} (hvs : ∀ v ∈ vs, v ∈ ws) (s : List α) :
    ((vs.flatten ++ s).splitOn c).map (strip ws) = (s.splitOn c).map (strip ws) := by
  induction vs with
  | nil => rfl
  | cons v vs ih =>
    have hv := hvs v (by simp)
    obtain ⟨p, ps, hps, heq⟩ := splitOn_append_left (hc v hv) (vs.flatten ++ s)
    rw [List.flatten_cons, List.append_assoc, heq, List.map_cons, h.strip_append_left hv,
      ← List.map_cons, ← hps, ih fun u hu => hvs u (by simp [hu])]

/-- The parts of a string with words at its right, when they are stripped. -/
theorem map_strip_splitOn_right {vs : List (List α)} (hvs : ∀ v ∈ vs, v ∈ ws) (s : List α) :
    ((s ++ vs.flatten).splitOn c).map (strip ws) = (s.splitOn c).map (strip ws) := by
  induction vs generalizing s with
  | nil => simp
  | cons v vs ih =>
    have hv := hvs v (by simp)
    obtain ⟨ps, p, hps, heq⟩ := splitOn_append_right (hc v hv) s
    rw [List.flatten_cons, ← List.append_assoc, ih (fun u hu => hvs u (by simp [hu])), heq, hps,
      List.map_append, List.map_append, List.map_singleton, List.map_singleton,
      h.strip_append_right hv]

/-- **A string may be stripped before it is split** into parts that are stripped anyway. -/
theorem map_strip_splitOn (s : List α) :
    ((strip ws s).splitOn c).map (strip ws) = (s.splitOn c).map (strip ws) := by
  obtain ⟨vs, hvs, hleft, -⟩ := h.left.stripLeft_spec s
  obtain ⟨us, hus, hright⟩ := h.stripRight_spec (stripLeft ws s)
  have h₁ := map_strip_splitOn_left h hc hvs (stripLeft ws s)
  have h₂ := map_strip_splitOn_right h hc hus (stripRight ws (stripLeft ws s))
  rw [← hleft] at h₁
  rw [← hright] at h₂
  exact h₂.symm.trans h₁.symm

end Parts

end Strip
