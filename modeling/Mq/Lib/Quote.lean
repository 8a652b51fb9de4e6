import Mq.Lib.Word

/-!
# Quoted text

A string between double quotes, the way the verb `%q` of the standard library prints it: bytes
that are not valid UTF-8 and characters that cannot be printed are escaped.  Which characters
outside ASCII can be printed is a parameter.

## Main definitions

* `decodeRune` — the first character of a string, and how many bytes it has.
* `quote` — the string between quotes.

## Main results

* `quote_plain` — printable ASCII without quotes and backslashes is left as it is.
-/

namespace Quote

open Word

/-- A byte that continues a character. -/
def isContinuation (x : UInt8) : Bool := 0x80 ≤ x.toNat ∧ x.toNat ≤ 0xBF

/-- The first character of a string and the number of its bytes, if it is valid UTF-8: not
overlong, not a surrogate and not beyond the last character. -/
def decodeRune : Bytes → Option (ℕ × ℕ)
  | [] => none
  | a :: s =>
    let a := a.toNat
    if a < 0x80 then some (a, 1)
    else if a < 0xC2 ∨ 0xF4 < a then none
    else
      match s with
      | [] => none
      | b :: s =>
        let lo := if a = 0xE0 then 0xA0 else if a = 0xF0 then 0x90 else 0x80
        let hi := if a = 0xED then 0x9F else if a = 0xF4 then 0x8F else 0xBF
        let b := b.toNat
        if b < lo ∨ hi < b then none
        else if a < 0xE0 then some (a % 32 * 64 + b % 64, 2)
        else
          match s with
          | [] => none
          | c :: s =>
            if isContinuation c = false then none
            else if a < 0xF0 then some ((a % 16 * 64 + b % 64) * 64 + c.toNat % 64, 3)
            else
              match s with
              | [] => none
              | d :: _ =>
                if isContinuation d = false then none
                else some (((a % 8 * 64 + b % 64) * 64 + c.toNat % 64) * 64 + d.toNat % 64, 4)

/-- A hexadecimal digit, in lower case. -/
def hexDigit (n : ℕ) : UInt8 := UInt8.ofNat (if n < 10 then 48 + n else 87 + n)

/-- A number in so many hexadecimal digits. -/
def hex : ℕ → ℕ → Bytes
  | 0, _ => []
  | width + 1, n => hex width (n / 16) ++ [hexDigit (n % 16)]

/-- The letter after the backslash for a control character that has one. -/
def controlLetter : ℕ → Option UInt8
  | 7 => some 97
  | 8 => some 98
  | 9 => some 116
  | 10 => some 110
  | 11 => some 118
  | 12 => some 102
  | 13 => some 114
  | _ => none

/-- A character, given by its number and by its bytes. -/
def escapeRune (isPrint : ℕ → Bool) (r : ℕ) (raw : Bytes) : Bytes :=
  if r = 34 ∨ r = 92 then 92 :: raw
  else if (if r < 0x80 then 0x20 ≤ r ∧ r < 0x7F else isPrint r = true) then raw
  else
    match controlLetter r with
    | some x => [92, x]
    | none =>
      if r < 0x20 ∨ r = 0x7F then 92 :: 120 :: hex 2 r
      else if r < 0x10000 then 92 :: 117 :: hex 4 r
      else 92 :: 85 :: hex 8 r

/-- The characters one after the other, at most so many.  A byte that belongs to none is
escaped by itself. -/
def quoteLoop (isPrint : ℕ → Bool) : ℕ → Bytes → Bytes
  | 0, _ => []
  | _, [] => []
  | n + 1, x :: s =>
    match decodeRune (x :: s) with
    | none => 92 :: 120 :: hex 2 x.toNat ++ quoteLoop isPrint n s
    | some (r, width) =>
      escapeRune isPrint r ((x :: s).take width) ++ quoteLoop isPrint n ((x :: s).drop width)

def quote (isPrint : ℕ → Bool) (s : Bytes) : Bytes := 34 :: quoteLoop isPrint s.length s ++ [34]

/-- Printable ASCII, neither a quote nor a backslash. -/
def Plain (x : UInt8) : Prop := 0x20 ≤ x.toNat ∧ x.toNat < 0x7F ∧ x.toNat ≠ 34 ∧ x.toNat ≠ 92

instance : DecidablePred Plain := fun _ => inferInstanceAs (Decidable (_ ∧ _ ∧ _ ∧ _))

/-- **Plain text is left as it is.** -/
theorem quote_plain (isPrint : ℕ → Bool) {s : Bytes} (h : ∀ x ∈ s, Plain x) :
    quote isPrint s = 34 :: s ++ [34] := by
  have hloop : quoteLoop isPrint s.length s = s := by
    induction s with
    | nil => rfl
    | cons x s ih =>
      obtain ⟨hlow, hhigh, hquote, hback⟩ := h x (by simp)
      have hdecode : decodeRune (x :: s) = some (x.toNat, 1) := by
        simp only [decodeRune]
        rw [if_pos (by omega)]
      have hescape : escapeRune isPrint x.toNat [x] = [x] := by
        rw [escapeRune, if_neg (by omega), if_pos]
        rw [if_pos (by omega)]
        exact ⟨hlow, hhigh⟩
      rw [List.length_cons, quoteLoop, hdecode]
      dsimp only
      rw [List.take_succ_cons, List.take_zero, List.drop_succ_cons, List.drop_zero, hescape,
        ih fun y hy => h y (by simp [hy])]
      rfl
  rw [quote, hloop]

end Quote
