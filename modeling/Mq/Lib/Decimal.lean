import Mq.Lib.Word

/-!
# Numbers printed in decimal

Decimal notation as bytes, the way the formatting verbs of the standard library
print it, and the reading that undoes it.

## Main results

* `ofDecimal_decimal`, `ofDecimal_zeroPad` — reading a printed number gives it
  back, padded with zeros or not.
* `zeroPad_decimal_inj`, `itoa_inj` — two numbers printed alike are equal.
* `sign_le_of_mem_itoa` — a printed integer has no byte below the minus sign.
* `parseUint_zeroPad` — a printed number parses, padded or not.
* `readNumbered_numbered` — a name with a number after its last dash reads back.
-/

namespace Word

/-! ### Printing -/

/-- The digits of `n` in front of `acc`; every round divides by ten. -/
def decimalLoop : ℕ → ℕ → Bytes → Bytes
  | 0, _, acc => acc
  | fuel + 1, n, acc =>
    if n < 10 then UInt8.ofNat (48 + n) :: acc
    else decimalLoop fuel (n / 10) (UInt8.ofNat (48 + n % 10) :: acc)

/-- A number in decimal, without leading zeros. -/
def decimal (n : ℕ) : Bytes := decimalLoop (n + 1) n []

/-- An integer in decimal, with a minus sign in front of a negative one. -/
def itoa (z : ℤ) : Bytes := if z < 0 then 45 :: decimal z.natAbs else decimal z.natAbs

/-- Zeros in front up to a given width. -/
def zeroPad (width : ℕ) (b : Bytes) : Bytes := List.replicate (width - b.length) 48 ++ b

/-! ### Reading -/

/-- One digit read. -/
def readDigit (v : ℕ) (x : UInt8) : ℕ := 10 * v + (x.toNat - 48)

/-- The number that a string of digits denotes. -/
def ofDecimal (b : Bytes) : ℕ := b.foldl readDigit 0

theorem readDigit_ofNat (v : ℕ) {d : ℕ} (hd : d < 10) :
    readDigit v (UInt8.ofNat (48 + d)) = 10 * v + d := by
  have htoNat : (UInt8.ofNat (48 + d)).toNat = 48 + d := by
    rw [UInt8.toNat_ofNat']
    exact Nat.mod_eq_of_lt (by omega)
  rw [readDigit, htoNat, Nat.add_sub_cancel_left]

/-- Reading what the loop printed first reads the number it had left. -/
theorem foldl_decimalLoop :
    ∀ (fuel n : ℕ) (acc : Bytes), n < fuel →
      (decimalLoop fuel n acc).foldl readDigit 0 = acc.foldl readDigit n := by
  intro fuel
  induction fuel with
  | zero => intro n acc hn; exact absurd hn (Nat.not_lt_zero n)
  | succ fuel ih =>
    intro n acc hn
    rw [decimalLoop]
    split
    · next hlt =>
      rw [List.foldl_cons, readDigit_ofNat 0 hlt, Nat.mul_zero, Nat.zero_add]
    · next hge =>
      rw [ih (n / 10) _ (by omega), List.foldl_cons, readDigit_ofNat _ (by omega),
        Nat.div_add_mod]

/-- **A printed number reads back.** -/
theorem ofDecimal_decimal (n : ℕ) : ofDecimal (decimal n) = n :=
  foldl_decimalLoop (n + 1) n [] (Nat.lt_succ_self n)

/-- Leading zeros do not change the number. -/
theorem ofDecimal_zeroPad (width : ℕ) (b : Bytes) : ofDecimal (zeroPad width b) = ofDecimal b := by
  have hzeros : ∀ k, (List.replicate k (48 : UInt8)).foldl readDigit 0 = 0 := by
    intro k
    induction k with
    | zero => rfl
    | succ k ih => rw [List.replicate_succ, List.foldl_cons]; exact ih
  rw [ofDecimal, zeroPad, List.foldl_append, hzeros, ofDecimal]

variable {n : ℕ} {z : ℤ} {b : Bytes}

theorem zeroPad_decimal_inj {width m : ℕ}
    (h : zeroPad width (decimal m) = zeroPad width (decimal n)) : m = n := by
  have hread := congrArg ofDecimal h
  rwa [ofDecimal_zeroPad, ofDecimal_zeroPad, ofDecimal_decimal, ofDecimal_decimal] at hread

/-! ### The bytes of a printed number -/

theorem digit_of_mem_decimalLoop :
    ∀ (fuel n : ℕ) (acc : Bytes), (∀ x ∈ acc, 48 ≤ x.toNat ∧ x.toNat ≤ 57) →
      ∀ x ∈ decimalLoop fuel n acc, 48 ≤ x.toNat ∧ x.toNat ≤ 57 := by
  have hdigit : ∀ d, d < 10 →
      48 ≤ (UInt8.ofNat (48 + d)).toNat ∧ (UInt8.ofNat (48 + d)).toNat ≤ 57 := by
    intro d hd
    rw [UInt8.toNat_ofNat', Nat.mod_eq_of_lt (by omega)]
    omega
  intro fuel
  induction fuel with
  | zero => intro n acc hacc; exact hacc
  | succ fuel ih =>
    intro n acc hacc
    rw [decimalLoop]
    split
    · next hlt => exact List.forall_mem_cons.mpr ⟨hdigit n hlt, hacc⟩
    · exact ih _ _ (List.forall_mem_cons.mpr ⟨hdigit _ (Nat.mod_lt n (by omega)), hacc⟩)

theorem digit_of_mem_decimal {x : UInt8} (h : x ∈ decimal n) : 48 ≤ x.toNat ∧ x.toNat ≤ 57 :=
  digit_of_mem_decimalLoop (n + 1) n [] (fun _ hx => absurd hx List.not_mem_nil) x h

theorem digit_le_of_mem_decimal {x : UInt8} (h : x ∈ decimal n) : 48 ≤ x.toNat :=
  (digit_of_mem_decimal h).1

theorem sign_le_of_mem_itoa {x : UInt8} (h : x ∈ itoa z) : 45 ≤ x.toNat := by
  rw [itoa] at h
  split at h
  · rcases List.mem_cons.mp h with rfl | h
    · exact le_rfl
    · exact le_trans (by omega) (digit_le_of_mem_decimal h)
  · exact le_trans (by omega) (digit_le_of_mem_decimal h)

theorem le_digit_of_mem_itoa {x : UInt8} (h : x ∈ itoa z) : x.toNat ≤ 57 := by
  rw [itoa] at h
  split at h
  · rcases List.mem_cons.mp h with rfl | h
    · decide
    · exact (digit_of_mem_decimal h).2
  · exact (digit_of_mem_decimal h).2

/-- A printed number does not start with a minus sign. -/
theorem sign_cons_ne_decimal (m n : ℕ) : (45 : UInt8) :: decimal m ≠ decimal n := by
  intro h
  have hmem : (45 : UInt8) ∈ decimal n := h ▸ List.mem_cons_self
  exact absurd (digit_le_of_mem_decimal hmem) (by decide)

theorem decimal_inj {m : ℕ} (h : decimal m = decimal n) : m = n := by
  rw [← ofDecimal_decimal m, h, ofDecimal_decimal]

/-- **Two integers printed alike are equal.** -/
theorem itoa_inj {y : ℤ} (h : itoa y = itoa z) : y = z := by
  rw [itoa, itoa] at h
  split at h <;> split at h
  · have := decimal_inj (List.cons.inj h).2
    omega
  · exact absurd h (sign_cons_ne_decimal _ _)
  · exact absurd h.symm (sign_cons_ne_decimal _ _)
  · have := decimal_inj h
    omega

/-! ### Parsing a signed number -/

/-- The bytes are a digit each. -/
def AllDigits (b : Bytes) : Prop := ∀ x ∈ b, 48 ≤ x.toNat ∧ x.toNat ≤ 57

instance : DecidablePred AllDigits := fun _ => inferInstanceAs (Decidable (∀ _ ∈ _, _))

/-- Parse an integer of 64 bits: a sign or none, and then digits. -/
def atoi (b : Bytes) : Option ℤ :=
  let digits := if b.head? = some 45 ∨ b.head? = some 43 then b.tail else b
  if digits ≠ [] ∧ AllDigits digits then
    let z : ℤ := if b.head? = some 45 then -ofDecimal digits else ofDecimal digits
    if -2 ^ 63 ≤ z ∧ z < 2 ^ 63 then some z else none
  else none

theorem allDigits_decimal (n : ℕ) : AllDigits (decimal n) := fun _ hx => digit_of_mem_decimal hx

theorem allDigits_zeroPad (width : ℕ) (h : AllDigits b) : AllDigits (zeroPad width b) := by
  intro x hx
  rcases List.mem_append.mp hx with hx | hx
  · rw [List.eq_of_mem_replicate hx]
    decide
  · exact h x hx

theorem decimal_ne_nil (n : ℕ) : decimal n ≠ [] := by
  have hloop : ∀ (fuel n : ℕ) (acc : Bytes), 0 < fuel ∨ acc ≠ [] → decimalLoop fuel n acc ≠ [] := by
    intro fuel
    induction fuel with
    | zero => intro n acc h; exact h.resolve_left (lt_irrefl 0)
    | succ fuel ih =>
      intro n acc _
      rw [decimalLoop]
      split
      · exact List.cons_ne_nil _ _
      · exact ih _ _ (.inr (List.cons_ne_nil _ _))
  exact hloop (n + 1) n [] (.inl n.succ_pos)

theorem atoi_decimal (h : n < 2 ^ 63) : atoi (decimal n) = some (n : ℤ) := by
  have hhead : ∀ c : UInt8, c.toNat < 48 → (decimal n).head? ≠ some c := by
    intro c hc hsome
    have := digit_le_of_mem_decimal (List.mem_of_mem_head? hsome)
    omega
  have hminus := hhead 45 (by decide)
  have hplus := hhead 43 (by decide)
  simp only [atoi, hminus, hplus, or_self, if_false]
  rw [if_pos ⟨decimal_ne_nil n, allDigits_decimal n⟩, ofDecimal_decimal, if_pos (by omega)]

theorem itoa_ne_nil (z : ℤ) : itoa z ≠ [] := by
  rw [itoa]
  split
  · exact List.cons_ne_nil _ _
  · exact decimal_ne_nil _

/-- **A printed integer parses.** -/
theorem atoi_itoa (h₁ : -2 ^ 63 ≤ z) (h₂ : z < 2 ^ 63) : atoi (itoa z) = some z := by
  rw [itoa]
  split
  · next hneg =>
    simp only [atoi, List.head?_cons, true_or, if_true, List.tail_cons]
    rw [if_pos ⟨decimal_ne_nil _, allDigits_decimal _⟩, ofDecimal_decimal, if_pos (by omega)]
    congr 1
    omega
  · next hnonneg =>
    rw [atoi_decimal (by omega)]
    congr 1
    omega

/-! ### Parsing a number without a sign -/

/-- Parse a number of 64 bits: digits only. -/
def parseUint (b : Bytes) : Option ℕ :=
  if b ≠ [] ∧ AllDigits b ∧ ofDecimal b < 2 ^ 64 then some (ofDecimal b) else none

/-- **A printed number parses**, padded or not. -/
theorem parseUint_zeroPad (width : ℕ) (h : n < 2 ^ 64) :
    parseUint (zeroPad width (decimal n)) = some n := by
  have hread : ofDecimal (zeroPad width (decimal n)) = n := by
    rw [ofDecimal_zeroPad, ofDecimal_decimal]
  have hne : zeroPad width (decimal n) ≠ [] :=
    fun hnil => decimal_ne_nil n (List.append_eq_nil_iff.mp hnil).2
  rw [parseUint, hread]
  exact if_pos ⟨hne, allDigits_zeroPad width (allDigits_decimal n), h⟩

/-! ### Names with a number -/

/-- Cut a string at the last occurrence of a byte. -/
def cutLast (c : UInt8) : Bytes → Option (Bytes × Bytes)
  | [] => none
  | x :: xs =>
    match cutLast c xs with
    | some (a, b) => some (x :: a, b)
    | none => if x = c then some ([], xs) else none

theorem cutLast_eq_none {c : UInt8} (h : c ∉ b) : cutLast c b = none := by
  induction b with
  | nil => rfl
  | cons x b ih =>
    rw [cutLast, ih fun hb => h (List.mem_cons_of_mem x hb)]
    exact if_neg fun hx : x = c => h (hx ▸ List.mem_cons_self)

theorem cutLast_append {c : UInt8} (a : Bytes) (h : c ∉ b) :
    cutLast c (a ++ c :: b) = some (a, b) := by
  induction a with
  | nil => rw [List.nil_append, cutLast, cutLast_eq_none h]; exact if_pos rfl
  | cons x a ih => rw [List.cons_append, cutLast, ih]

theorem eq_of_cutLast {c : UInt8} {s a : Bytes} (h : cutLast c s = some (a, b)) :
    s = a ++ c :: b := by
  induction s generalizing a with
  | nil => cases h
  | cons x s ih =>
    rw [cutLast] at h
    split at h
    · next hs =>
      cases h
      rw [List.cons_append, ← ih hs]
    · split at h
      · next hx =>
        cases h
        rw [hx, List.nil_append]
      · cases h

/-- A name, a dash and a number. -/
def numbered (s : Bytes) (z : ℤ) : Bytes := s ++ 45 :: itoa z

/-- Read a name and the number after its last dash. -/
def readNumbered (b : Bytes) : Option (Bytes × ℤ) :=
  (cutLast 45 b).bind fun x => (atoi x.2).map fun z => (x.1, z)

theorem dash_notMem_decimal (n : ℕ) : (45 : UInt8) ∉ decimal n :=
  fun h => absurd (digit_le_of_mem_decimal h) (by decide)

/-- **A name with a number reads back**, if the number is not negative. -/
theorem readNumbered_numbered (s : Bytes) (h0 : 0 ≤ z) (h : z < 2 ^ 63) :
    readNumbered (numbered s z) = some (s, z) := by
  have hitoa : itoa z = decimal z.natAbs := if_neg (by omega)
  rw [readNumbered, numbered, hitoa, cutLast_append s (dash_notMem_decimal _), Option.bind_some,
    atoi_decimal (by omega), Option.map_some, Int.natCast_natAbs, abs_of_nonneg h0]

/-- The sign of a negative number is taken for the dash. -/
theorem readNumbered_numbered_neg (s : Bytes) (h0 : z < 0) (h : -2 ^ 63 < z) :
    readNumbered (numbered s z) = some (s ++ [45], -z) := by
  have hsplit : numbered s z = (s ++ [45]) ++ 45 :: decimal z.natAbs := by
    rw [numbered, itoa, if_pos h0, List.append_assoc]
    rfl
  rw [readNumbered, hsplit, cutLast_append _ (dash_notMem_decimal _), Option.bind_some,
    atoi_decimal (by omega), Option.map_some, Int.natCast_natAbs, abs_of_neg h0]

/-- What is read before the number is how the name starts. -/
theorem readNumbered_isPrefix {s : Bytes} (h : readNumbered b = some (s, z)) : s <+: b := by
  obtain ⟨⟨a, c⟩, hcut, hmap⟩ := Option.bind_eq_some_iff.mp h
  obtain ⟨y, -, heq⟩ := Option.map_eq_some_iff.mp hmap
  cases heq
  exact ⟨45 :: c, (eq_of_cutLast hcut).symm⟩

end Word
