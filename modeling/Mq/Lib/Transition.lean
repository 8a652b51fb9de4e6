import Mathlib.Data.List.Infix

/-!
# Runs of deterministic machines

A machine is a step function on states, driven by a list of actions.  The
schedule is part of the input, so that quantifying over action lists quantifies
over all interleavings.

## Main definitions

* `run step s as` — the state after the actions `as`.
* `Always step P s as` — `P` holds in every state of the run.
* `Along step C s as` — every action of the run meets the condition `C` in the
  state in which it is taken.
* `tally step C s as` — how many actions of the run meet the condition.
* `replies call s as` — what the calls of a run return, for a machine whose steps have
  results.

## Main results

* `Along.always` — **the invariant rule**: what holds at the start and is kept by
  every action that meets the condition holds throughout.
* `Along.always_iff` — **the rule for an exact condition**: if moreover every action that
  does not meet the condition ends in a state without the property, then the property holds
  throughout exactly if every action meets the condition.
-/

namespace Transition

variable {σ α : Type*}

section defs

variable (step : σ → α → σ)

/-- The state after a list of actions. -/
def run : σ → List α → σ
  | s, [] => s
  | s, a :: as => run (step s a) as

/-- The property holds in every state of the run. -/
def Always (P : σ → Prop) : σ → List α → Prop
  | s, [] => P s
  | s, a :: as => P s ∧ Always P (step s a) as

/-- Every action meets the condition in the state in which it is taken. -/
def Along (C : σ → α → Prop) : σ → List α → Prop
  | _, [] => True
  | s, a :: as => C s a ∧ Along C (step s a) as

/-- How many actions of the run meet the condition. -/
def tally (C : σ → α → Prop) [∀ s a, Decidable (C s a)] : σ → List α → ℕ
  | _, [] => 0
  | s, a :: as => (if C s a then 1 else 0) + tally C (step s a) as

/-- The state part of a call that also returns something. -/
def effect {ρ : Type*} (call : σ → α → σ × ρ) (s : σ) (a : α) : σ := (call s a).1

/-- What the calls of a run return. -/
def replies {ρ : Type*} (call : σ → α → σ × ρ) : σ → List α → List ρ
  | _, [] => []
  | s, a :: as => (call s a).2 :: replies call (call s a).1 as

instance decidableAlways (P : σ → Prop) [DecidablePred P] :
    ∀ (s : σ) (as : List α), Decidable (Always step P s as)
  | s, [] => inferInstanceAs (Decidable (P s))
  | s, a :: as =>
    haveI := decidableAlways P (step s a) as
    inferInstanceAs (Decidable (P s ∧ Always step P (step s a) as))

instance decidableAlong (C : σ → α → Prop) [∀ s a, Decidable (C s a)] :
    ∀ (s : σ) (as : List α), Decidable (Along step C s as)
  | _, [] => inferInstanceAs (Decidable True)
  | s, a :: as =>
    haveI := decidableAlong C (step s a) as
    inferInstanceAs (Decidable (C s a ∧ Along step C (step s a) as))

end defs

variable {step : σ → α → σ} {P Q : σ → Prop} {C : σ → α → Prop}

@[simp] theorem run_nil (s : σ) : run step s [] = s := rfl

@[simp] theorem run_cons (s : σ) (a : α) (as : List α) :
    run step s (a :: as) = run step (step s a) as := rfl

theorem run_append (s : σ) (as bs : List α) :
    run step s (as ++ bs) = run step (run step s as) bs := by
  induction as generalizing s with
  | nil => rfl
  | cons a as ih => exact ih (step s a)

theorem run_snoc (s : σ) (as : List α) (a : α) :
    run step s (as ++ [a]) = step (run step s as) a := run_append s as [a]

theorem run_map {β : Type*} (f : β → α) (s : σ) (bs : List β) :
    run (fun s b => step s (f b)) s bs = run step s (bs.map f) := by
  induction bs generalizing s with
  | nil => rfl
  | cons b bs ih => exact ih _

/-- A run of runs. -/
theorem run_flatMap {β : Type*} (f : β → List α) (s : σ) (bs : List β) :
    run (fun s b => run step s (f b)) s bs = run step s (bs.flatMap f) := by
  induction bs generalizing s with
  | nil => rfl
  | cons b bs ih => rw [run_cons, List.flatMap_cons, run_append, ih]

variable {ρ : Type*} {s : σ} {as : List α} {D : σ → α → Prop}

/-- A reply belongs to a call of the run. -/
theorem exists_of_mem_replies {call : σ → α → σ × ρ} {r : ρ} (h : r ∈ replies call s as) :
    ∃ s', ∃ a ∈ as, r = (call s' a).2 := by
  induction as generalizing s with
  | nil => cases h
  | cons a as ih =>
    rcases List.mem_cons.mp h with rfl | h
    · exact ⟨s, a, List.mem_cons_self, rfl⟩
    · obtain ⟨s', b, hb, hr⟩ := ih h
      exact ⟨s', b, List.mem_cons_of_mem a hb, hr⟩

/-- Every call of the run has a reply. -/
theorem exists_mem_replies {call : σ → α → σ × ρ} (s : σ) {a : α} (h : a ∈ as) :
    ∃ s', (call s' a).2 ∈ replies call s as := by
  induction as generalizing s with
  | nil => cases h
  | cons b as ih =>
    rcases List.mem_cons.mp h with rfl | h
    · exact ⟨s, List.mem_cons_self⟩
    · obtain ⟨s', hs'⟩ := ih (call s b).1 h
      exact ⟨s', List.mem_cons_of_mem _ hs'⟩

/-- What holds of every reply holds of the calls, one after the other. -/
theorem forall_mem_replies_iff {call : σ → α → σ × ρ} {R : ρ → Prop} :
    (∀ r ∈ replies call s as, R r) ↔
      Along (effect call) (fun s a => R (call s a).2) s as := by
  induction as generalizing s with
  | nil => simp [replies, Along]
  | cons a as ih => rw [replies, List.forall_mem_cons, ih, Along]; rfl

theorem length_replies (call : σ → α → σ × ρ) (s : σ) (as : List α) :
    (replies call s as).length = as.length := by
  induction as generalizing s with
  | nil => rfl
  | cons a as ih => rw [replies, List.length_cons, ih, List.length_cons]

theorem replies_append (call : σ → α → σ × ρ) (s : σ) (as bs : List α) :
    replies call s (as ++ bs)
      = replies call s as ++ replies call (run (effect call) s as) bs := by
  induction as generalizing s with
  | nil => rfl
  | cons a as ih => exact congrArg ((call s a).2 :: ·) (ih (call s a).1)

theorem Always.head (h : Always step P s as) : P s := by
  cases as with
  | nil => exact h
  | cons a as => exact h.1

theorem always_append {bs : List α} :
    Always step P s (as ++ bs) ↔ Always step P s as ∧ Always step P (run step s as) bs := by
  induction as generalizing s with
  | nil => exact ⟨fun h => ⟨h.head, h⟩, fun h => h.2⟩
  | cons a as ih =>
    simp only [List.cons_append, Always, run_cons, ih, and_assoc]

theorem Always.final (h : Always step P s as) : P (run step s as) := by
  induction as generalizing s with
  | nil => exact h
  | cons a as ih => exact ih h.2

theorem Always.of_prefix {bs : List α} (h : Always step P s bs) (hpre : as <+: bs) :
    Always step P s as := by
  obtain ⟨cs, rfl⟩ := hpre
  exact (always_append.mp h).1

theorem Always.mono (h : Always step P s as) (hPQ : ∀ s, P s → Q s) : Always step Q s as := by
  induction as generalizing s with
  | nil => exact hPQ s h
  | cons a as ih => exact ⟨hPQ s h.1, ih h.2⟩

/-- In a run through states with a property, every action starts and ends in one. -/
theorem Always.along (h : Always step P s as) :
    Along step (fun s a => P s ∧ P (step s a)) s as := by
  induction as generalizing s with
  | nil => trivial
  | cons a as ih => exact ⟨⟨h.1, h.2.head⟩, ih h.2⟩

theorem Along.mono (h : Along step C s as) (hCD : ∀ s a, C s a → D s a) : Along step D s as := by
  induction as generalizing s with
  | nil => trivial
  | cons a as ih => exact ⟨hCD s a h.1, ih h.2⟩

theorem along_congr (h : ∀ s a, C s a ↔ D s a) : Along step C s as ↔ Along step D s as :=
  ⟨fun hC => hC.mono fun s a => (h s a).mp, fun hD => hD.mono fun s a => (h s a).mpr⟩

theorem along_append {bs : List α} :
    Along step C s (as ++ bs) ↔ Along step C s as ∧ Along step C (run step s as) bs := by
  induction as generalizing s with
  | nil => exact ⟨fun h => ⟨trivial, h⟩, fun h => h.2⟩
  | cons a as ih => simp only [List.cons_append, Along, run_cons, ih, and_assoc]

theorem Along.and (h : Along step C s as) (h' : Along step D s as) :
    Along step (fun s a => C s a ∧ D s a) s as := by
  induction as generalizing s with
  | nil => trivial
  | cons a as ih => exact ⟨⟨h.1, h'.1⟩, ih h.2 h'.2⟩

/-- A condition that holds wherever the run is cut before an action. -/
theorem along_of_split (h : ∀ pre a post, as = pre ++ a :: post → C (run step s pre) a) :
    Along step C s as := by
  induction as generalizing s with
  | nil => trivial
  | cons b as ih =>
    refine ⟨h [] b as rfl, ih ?_⟩
    intro pre a post heq
    exact h (b :: pre) a post (by rw [heq, List.cons_append])

/-- A property that a run ends with and did not begin with is gained by one of its steps. -/
theorem exists_split (hbefore : ¬ Q s) (hafter : Q (run step s as)) :
    ∃ pre a post, as = pre ++ a :: post ∧ ¬ Q (run step s pre) ∧ Q (step (run step s pre) a) := by
  induction as generalizing s with
  | nil => exact absurd hafter hbefore
  | cons a as ih =>
    by_cases hstep : Q (step s a)
    · exact ⟨[], a, as, rfl, hbefore, hstep⟩
    · obtain ⟨pre, b, post, heq, hnot, hgain⟩ := ih hstep hafter
      exact ⟨a :: pre, b, post, by rw [heq]; rfl, hnot, hgain⟩

/-- A condition on the actions alone. -/
theorem along_of_forall {D : α → Prop} (h : ∀ a ∈ as, D a) : Along step (fun _ a => D a) s as := by
  induction as generalizing s with
  | nil => trivial
  | cons a as ih => exact ⟨h a (by simp), ih fun b hb => h b (by simp [hb])⟩

theorem Along.forall_of_action {D : α → Prop} (h : Along step C s as) (hCD : ∀ s a, C s a → D a) :
    ∀ a ∈ as, D a := by
  induction as generalizing s with
  | nil => intro a ha; cases ha
  | cons b as ih =>
    intro a ha
    rcases List.mem_cons.mp ha with rfl | ha
    · exact hCD s a h.1
    · exact ih h.2 a ha

theorem tally_append [∀ s a, Decidable (C s a)] (s : σ) (as bs : List α) :
    tally step C s (as ++ bs) = tally step C s as + tally step C (run step s as) bs := by
  induction as generalizing s with
  | nil => exact (Nat.zero_add _).symm
  | cons a as ih => rw [List.cons_append, tally, ih, tally, run_cons, Nat.add_assoc]

theorem tally_le_length [∀ s a, Decidable (C s a)] (s : σ) (as : List α) :
    tally step C s as ≤ as.length := by
  induction as generalizing s with
  | nil => exact le_rfl
  | cons a as ih =>
    rw [tally, List.length_cons]
    have := ih (step s a)
    split <;> omega

/-- **The invariant rule.** -/
theorem Along.always (h : Along step C s as) (hinit : P s)
    (hstep : ∀ s a, P s → C s a → P (step s a)) : Always step P s as := by
  induction as generalizing s with
  | nil => exact hinit
  | cons a as ih => exact ⟨hinit, ih h.2 (hstep s a hinit h.1)⟩

/-- **The rule for an exact condition.**  `D` is what may be assumed of the actions. -/
theorem Along.always_iff (h : Along step D s as) (hinit : P s) (hPQ : ∀ s, P s → Q s)
    (hgood : ∀ s a, P s → D s a → C s a → P (step s a))
    (hbad : ∀ s a, P s → D s a → Q (step s a) → C s a) :
    Always step Q s as ↔ Along step C s as := by
  induction as generalizing s with
  | nil => exact ⟨fun _ => trivial, fun _ => hPQ s hinit⟩
  | cons a as ih =>
    constructor
    · intro hq
      have hc := hbad s a hinit h.1 hq.2.head
      exact ⟨hc, (ih h.2 (hgood s a hinit h.1 hc)).mp hq.2⟩
    · intro hc
      exact ⟨hPQ s hinit, (ih h.2 (hgood s a hinit h.1 hc.1)).mpr hc.2⟩

end Transition
