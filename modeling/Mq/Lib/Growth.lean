import Mathlib.Order.RelClasses
import Mq.Lib.Table
import Mq.Lib.Transition

/-!
# State that only grows

A machine whose steps move its state up in some order cannot undo what a step has done.
So whether a whole run leaves the state where it was is decided step by step, and each
step can be judged in the state at the start.

The order on a table is given by an order on its values: keys are added, and a value is
replaced only by a later one.

## Main definitions

* `Table.Grows r t t'` — every entry of `t` is in `t'`, at the same value or at one that is
  later in `r`.
* `runUntil step s as` — a run whose steps say whether it ends there.
* `reached halts as` — the actions up to the first one that ends the run.
* `AlongUntil step C s as` — every action that the run comes to meets the condition `C` in
  the state in which it is taken.

## Main results

* `Table.Grows.antisymm` — tables that grow into each other hold the same.
* `runUntil_le_iff` — **a run comes back to where it started exactly if none of the actions
  that it reaches moves the state.**
* `runUntil_le_and_iff`, `run_le_and_iff` — the same for actions that are judged in the state
  in which they are taken, together with what they return.
-/

/-! ### Tables -/

namespace Table

variable {κ ν : Type} [DecidableEq κ]

/-- Entries are added, and values replaced by later ones. -/
def Grows (r : ν → ν → Prop) (t t' : Table κ ν) : Prop :=
  ∀ k v, t.lookup k = some v → ∃ v', t'.lookup k = some v' ∧ (v = v' ∨ r v v')

namespace Grows

variable {r : ν → ν → Prop} {t t' t'' : Table κ ν}

theorem refl (t : Table κ ν) : Grows r t t := fun _ v h => ⟨v, h, .inl rfl⟩

theorem trans [IsTrans ν r] (h : Grows r t t') (h' : Grows r t' t'') : Grows r t t'' := by
  intro k v hv
  obtain ⟨v', hv', hle⟩ := h k v hv
  obtain ⟨v'', hv'', hle'⟩ := h' k v' hv'
  refine ⟨v'', hv'', ?_⟩
  rcases hle with rfl | hlt
  · exact hle'
  · rcases hle' with rfl | hlt'
    · exact .inr hlt
    · exact .inr (IsTrans.trans _ _ _ hlt hlt')

theorem of_lookup_eq (h : ∀ k, t'.lookup k = t.lookup k) : Grows r t t' :=
  fun k v hv => ⟨v, (h k).trans hv, .inl rfl⟩

/-- **Tables that grow into each other hold the same.** -/
theorem antisymm [IsStrictOrder ν r] (h : Grows r t t') (h' : Grows r t' t) (k : κ) :
    t'.lookup k = t.lookup k := by
  cases hv : t.lookup k with
  | some v =>
    obtain ⟨v', hv', hle⟩ := h k v hv
    obtain ⟨w, hw, hle'⟩ := h' k v' hv'
    obtain rfl := Option.some.inj (hv.symm.trans hw)
    rcases hle with rfl | hlt
    · exact hv'
    · rcases hle' with rfl | hlt'
      · exact hv'
      · exact absurd hlt' (asymm_of r hlt)
  | none =>
    -- an entry of the larger table would be in the smaller one
    cases hv' : t'.lookup k with
    | none => rfl
    | some v' =>
      obtain ⟨w, hw, -⟩ := h' k v' hv'
      rw [hv] at hw
      cases hw

theorem insert {k : κ} {v' : ν} (h : ∀ v, t.lookup k = some v → v = v' ∨ r v v') :
    Grows r t (t.insert k v') := by
  intro j v hv
  by_cases hj : j = k
  · subst hj
    exact ⟨v', AList.lookup_insert t, h v hv⟩
  · exact ⟨v, by rw [lookup_insert_ite, if_neg hj, hv], .inl rfl⟩

/-- A new key cannot be taken back. -/
theorem not_of_new {k : κ} (hnew : t.lookup k = none) (hk : t'.lookup k ≠ none) :
    ¬ Grows r t' t := by
  intro h
  obtain ⟨v', hv'⟩ := Option.ne_none_iff_exists'.mp hk
  obtain ⟨w, hw, -⟩ := h k v' hv'
  rw [hnew] at hw
  cases hw

/-- Nor can a later value. -/
theorem not_of_later [IsStrictOrder ν r] {k : κ} {v v' : ν} (hv : t.lookup k = some v)
    (hv' : t'.lookup k = some v') (hlt : r v v') : ¬ Grows r t' t := by
  intro h
  obtain ⟨w, hw, hle⟩ := h k v' hv'
  obtain rfl := Option.some.inj (hv.symm.trans hw)
  rcases hle with rfl | hlt'
  · exact irrefl_of r _ hlt
  · exact asymm_of r hlt hlt'

end Grows

end Table

/-! ### Runs that may end early -/

namespace Transition

variable {σ α : Type*}

/-- A run that stops after the first step that says so. -/
def runUntil (step : σ → α → σ × Bool) : σ → List α → σ
  | s, [] => s
  | s, a :: as => if (step s a).2 then (step s a).1 else runUntil step (step s a).1 as

/-- The actions up to the first one that ends the run. -/
def reached (halts : α → Bool) : List α → List α
  | [] => []
  | a :: as => a :: if halts a then [] else reached halts as

/-- Every action that the run comes to meets the condition in the state in which it is
taken. -/
def AlongUntil (step : σ → α → σ × Bool) (C : σ → α → Prop) : σ → List α → Prop
  | _, [] => True
  | s, a :: as => C s a ∧ ((step s a).2 = false → AlongUntil step C (step s a).1 as)

instance decidableAlongUntil (step : σ → α → σ × Bool) (C : σ → α → Prop)
    [∀ s a, Decidable (C s a)] :
    ∀ (s : σ) (as : List α), Decidable (AlongUntil step C s as)
  | _, [] => inferInstanceAs (Decidable True)
  | s, a :: as =>
    haveI := decidableAlongUntil step C (step s a).1 as
    inferInstanceAs (Decidable (_ ∧ (_ → _)))

theorem reached_of_false {halts : α → Bool} (h : ∀ a, halts a = false) (as : List α) :
    reached halts as = as := by
  induction as with
  | nil => rfl
  | cons a as ih => rw [reached, h a, ih]; rfl

variable {step : σ → α → σ × Bool} {le : σ → σ → Prop}
variable {P : σ → Prop} {D : α → Prop} {as : List α} {C : σ → α → Prop}

/-- What every step keeps is kept by a run that may end early. -/
theorem runUntil_induct (hstep : ∀ s a, P s → D a → P (step s a).1) {s : σ} (hs : P s)
    (has : ∀ a ∈ as, D a) : P (runUntil step s as) := by
  induction as generalizing s with
  | nil => exact hs
  | cons a as ih =>
    have hone := hstep s a hs (has a List.mem_cons_self)
    rw [runUntil]
    split
    · exact hone
    · exact ih hone fun b hb => has b (List.mem_cons_of_mem a hb)

/-- **The rule for runs that leave no trace.**  The steps go up in `le`; an inert action
keeps the state among those that `R` allows, which are not above the start; any other ends
above the start. -/
theorem runUntil_le_iff [IsPreorder σ le] (hP : ∀ s a, P s → D a → P (step s a).1)
    (hup : ∀ s a, P s → D a → le s (step s a).1) {s₀ : σ} {R : σ → Prop} {Inert : α → Prop}
    {halts : α → Bool} (hR : ∀ t, R t → le t s₀)
    (hkeep : ∀ t a, P t → R t → D a → Inert a → R (step t a).1 ∧ (step t a).2 = halts a)
    (hmove : ∀ t a, P t → R t → D a → ¬ Inert a → ¬ le (step t a).1 s₀) {t : σ} (ht : P t)
    (htR : R t) (has : ∀ a ∈ as, D a) :
    le (runUntil step t as) s₀ ↔ ∀ a ∈ reached halts as, Inert a := by
  induction as generalizing t with
  | nil => simp [runUntil, reached, hR t htR]
  | cons a as ih =>
    have hD := has a List.mem_cons_self
    have hrest := fun b hb => has b (List.mem_cons_of_mem a hb)
    have hPa := hP t a ht hD
    rw [runUntil, reached, List.forall_mem_cons]
    by_cases ha : Inert a
    · obtain ⟨hRa, hhalt⟩ := hkeep t a ht htR hD ha
      rw [hhalt]
      cases halts a with
      | true => simp [ha, hR _ hRa]
      | false => simpa [ha] using ih hPa hRa hrest
    · -- the step has gone up, and the rest of the run stays above it
      refine ⟨fun hle => absurd ?_ (hmove t a ht htR hD ha), fun h => absurd h.1 ha⟩
      split at hle
      · exact hle
      · have hlater : le (step t a).1 (runUntil step (step t a).1 as) :=
          (runUntil_induct (P := fun s => P s ∧ le (step t a).1 s)
            (fun s b hs hb => ⟨hP s b hs.1 hb, trans_of le hs.2 (hup s b hs.1 hb)⟩)
            ⟨hPa, refl_of le _⟩ hrest).2
        exact trans_of le hlater hle

/-- A run seen through a part of the state. -/
theorem runUntil_map {τ : Type*} {f : τ → σ} {step' : τ → α → τ × Bool}
    (h : ∀ t a, step (f t) a = (f (step' t a).1, (step' t a).2)) (t : τ) (as : List α) :
    f (runUntil step' t as) = runUntil step (f t) as := by
  induction as generalizing t with
  | nil => rfl
  | cons a as ih =>
    rw [runUntil, runUntil, h]
    split
    · rfl
    · exact ih _

/-- **The rule for actions that are judged where they are taken.**  `A` is what an action
shows besides its effect on the state. -/
theorem runUntil_le_and_iff {r : σ → σ → Prop} [IsPreorder σ r] {A : σ → α → Prop}
    (hP : ∀ s a, P s → D a → P (step s a).1) (hup : ∀ s a, P s → D a → r s (step s a).1)
    (hiff : ∀ s a, P s → D a → (r (step s a).1 s ∧ A s a ↔ C s a)) {s : σ} (hs : P s)
    (has : ∀ a ∈ as, D a) :
    r (runUntil step s as) s ∧ AlongUntil step A s as ↔ AlongUntil step C s as := by
  induction as generalizing s with
  | nil => exact ⟨fun _ => trivial, fun _ => ⟨refl_of r s, trivial⟩⟩
  | cons a as ih =>
    have hD := has a List.mem_cons_self
    have has' := fun b hb => has b (List.mem_cons_of_mem a hb)
    have hone := hiff s a hs hD
    have hrest := ih (hP s a hs hD) has'
    rw [runUntil, AlongUntil, AlongUntil]
    cases hend : (step s a).2 with
    | true => simpa using hone
    | false =>
      simp only [Bool.false_eq_true, if_false, forall_const]
      have hlater : r (step s a).1 (runUntil step (step s a).1 as) :=
        (runUntil_induct (P := fun t => P t ∧ r (step s a).1 t)
          (fun t b ht hb => ⟨hP t b ht.1 hb, trans_of r ht.2 (hup t b ht.1 hb)⟩)
          ⟨hP s a hs hD, refl_of r _⟩ has').2
      constructor
      · rintro ⟨hle, hA, hAs⟩
        exact ⟨hone.mp ⟨trans_of r hlater hle, hA⟩,
          hrest.mp ⟨trans_of r hle (hup s a hs hD), hAs⟩⟩
      · rintro ⟨hC, hCs⟩
        obtain ⟨hback, hA⟩ := hone.mpr hC
        obtain ⟨hback', hAs⟩ := hrest.mpr hCs
        exact ⟨trans_of r hback' hback, hA, hAs⟩

/-- A run that nothing ends. -/
theorem runUntil_eq_run (step : σ → α → σ) (s : σ) (as : List α) :
    runUntil (fun s a => (step s a, false)) s as = run step s as := by
  induction as generalizing s with
  | nil => rfl
  | cons a as ih => exact ih (step s a)

theorem alongUntil_iff_along (step : σ → α → σ) (s : σ) (as : List α) :
    AlongUntil (fun s a => (step s a, false)) C s as ↔ Along step C s as := by
  induction as generalizing s with
  | nil => exact Iff.rfl
  | cons a as ih => simp [AlongUntil, Along, ih]

/-- The rule for runs that nothing ends. -/
theorem run_le_and_iff {r : σ → σ → Prop} [IsPreorder σ r] {step : σ → α → σ} {A : σ → α → Prop}
    (hP : ∀ s a, P s → D a → P (step s a)) (hup : ∀ s a, P s → D a → r s (step s a))
    (hiff : ∀ s a, P s → D a → (r (step s a) s ∧ A s a ↔ C s a)) {s : σ} (hs : P s)
    (has : ∀ a ∈ as, D a) : r (run step s as) s ∧ Along step A s as ↔ Along step C s as := by
  rw [← runUntil_eq_run, ← alongUntil_iff_along, ← alongUntil_iff_along]
  exact runUntil_le_and_iff hP hup hiff hs has

end Transition
