import Mathlib.Data.List.Basic
import Mathlib.Data.Nat.Basic
import Mathlib.Tactic.Ring
import Mathlib.Tactic.Linarith
import Mathlib.Tactic.NormNum

/-!
# Fixed-width words over the integers, and their big-endian bytes

A fixed-width signed integer is an `ℤ` that every operation brings back into its
range: `wrap32` and `wrap64` are the two's-complement conversions.  Keeping the
values in `ℤ` lets `omega` reason about them, and a proof that some sum did not
overflow is a proof that the wrap around it is the identity (`wrap32_eq`,
`wrap64_eq`).

A byte string is a `List UInt8`.  `bePut n v` is the big-endian encoding of `v`
in `n` bytes, `beGet` its inverse on whole fields, and `patch`/`slice` overwrite
and read a field at a fixed position.

## Main results

* `beGet_bePut` — decoding an encoded field gives the value modulo `256 ^ n`.
* `slice_patch_self`, `slice_patch_of_disjoint` — reading a field after one was
  overwritten.
* `getInt64_patch_putInt64`, `wrap32_beGet_putInt32` — the signed round trips.
-/

namespace Word

/-- Byte strings. -/
abbrev Bytes := List UInt8

instance : LawfulBEq Bytes := inferInstanceAs (LawfulBEq (List UInt8))

/-! ### Two's-complement conversions

The bias stands on the left of each sum: unfolding `x + 2147483648` at an `x`
that does not reduce is a recursion on the literal. -/

/-- Conversion to a signed 8-bit integer. -/
def wrap8 (x : ℤ) : ℤ := (128 + x) % 256 - 128

/-- Conversion to a signed 16-bit integer. -/
def wrap16 (x : ℤ) : ℤ := (32768 + x) % 65536 - 32768

/-- Conversion to a signed 32-bit integer. -/
def wrap32 (x : ℤ) : ℤ := (2147483648 + x) % 4294967296 - 2147483648

/-- Conversion to a signed 64-bit integer. -/
def wrap64 (x : ℤ) : ℤ :=
  (9223372036854775808 + x) % 18446744073709551616 - 9223372036854775808

theorem wrap8_eq {x : ℤ} (h₁ : -128 ≤ x) (h₂ : x < 128) : wrap8 x = x := by
  unfold wrap8; omega

theorem wrap16_eq {x : ℤ} (h₁ : -32768 ≤ x) (h₂ : x < 32768) : wrap16 x = x := by
  unfold wrap16; omega

theorem wrap32_eq {x : ℤ} (h₁ : -2147483648 ≤ x) (h₂ : x < 2147483648) : wrap32 x = x := by
  unfold wrap32; omega

theorem wrap64_eq {x : ℤ} (h₁ : -9223372036854775808 ≤ x) (h₂ : x < 9223372036854775808) :
    wrap64 x = x := by
  unfold wrap64; omega

theorem wrap32_bounds (x : ℤ) : -2147483648 ≤ wrap32 x ∧ wrap32 x < 2147483648 := by
  unfold wrap32; omega

theorem wrap64_bounds (x : ℤ) :
    -9223372036854775808 ≤ wrap64 x ∧ wrap64 x < 9223372036854775808 := by
  unfold wrap64; omega

@[simp] theorem wrap32_wrap32 (x : ℤ) : wrap32 (wrap32 x) = wrap32 x :=
  wrap32_eq (wrap32_bounds x).1 (wrap32_bounds x).2

@[simp] theorem wrap64_wrap64 (x : ℤ) : wrap64 (wrap64 x) = wrap64 x :=
  wrap64_eq (wrap64_bounds x).1 (wrap64_bounds x).2

/-! ### Big-endian fields -/

/-- The `n` low-order bytes of `v`, most significant first. -/
def bePut : ℕ → ℕ → Bytes
  | 0, _ => []
  | n + 1, v => UInt8.ofNat (v / 256 ^ n) :: bePut n v

/-- The number whose big-endian bytes are `b`. -/
def beGet : Bytes → ℕ
  | [] => 0
  | x :: b => x.toNat * 256 ^ b.length + beGet b

@[simp] theorem length_bePut (n v : ℕ) : (bePut n v).length = n := by
  induction n with
  | zero => rfl
  | succ n ih => simp [bePut, ih]

/-- **Decoding an encoded field.** -/
theorem beGet_bePut (n v : ℕ) : beGet (bePut n v) = v % 256 ^ n := by
  induction n with
  | zero => simp [bePut, beGet, Nat.mod_one]
  | succ n ih =>
    have hsplit : v % 256 ^ (n + 1) = v % 256 ^ n + 256 ^ n * (v / 256 ^ n % 256) := by
      rw [pow_succ, Nat.mod_mul]
    rw [bePut, beGet, ih, length_bePut, hsplit, UInt8.toNat_ofNat']
    ring_nf

/-- The bytes of `b` from `off` on, `n` of them. -/
def slice (b : Bytes) (off n : ℕ) : Bytes := (b.drop off).take n

/-- `b` with the bytes from `off` on overwritten by `v`. -/
def patch (b : Bytes) (off : ℕ) (v : Bytes) : Bytes :=
  b.take off ++ v ++ b.drop (off + v.length)

variable {b v : Bytes} {off : ℕ}

theorem length_patch (h : off + v.length ≤ b.length) : (patch b off v).length = b.length := by
  simp only [patch, List.length_append, List.length_take, List.length_drop]; omega

/-- A field read where it was written. -/
theorem slice_patch_self (h : off ≤ b.length) : slice (patch b off v) off v.length = v := by
  have hlen : (b.take off).length = off := by simp [h]
  unfold slice patch
  rw [List.append_assoc, List.drop_append_of_le_length (by omega), List.drop_of_length_le (by omega),
    List.nil_append, List.take_left]

theorem getElem?_slice (b : Bytes) (off n i : ℕ) :
    (slice b off n)[i]? = if i < n then b[off + i]? else none := by
  simp [slice, List.getElem?_take]

theorem getElem?_patch_of_lt (h : off + v.length ≤ b.length) {i : ℕ} (hi : i < off) :
    (patch b off v)[i]? = b[i]? := by
  unfold patch
  rw [List.append_assoc, List.getElem?_append_left (by simp; omega), List.getElem?_take, if_pos hi]

theorem getElem?_patch_of_ge (h : off + v.length ≤ b.length) {i : ℕ} (hi : off + v.length ≤ i) :
    (patch b off v)[i]? = b[i]? := by
  have hlen : (b.take off ++ v).length = off + v.length := by simp; omega
  unfold patch
  rw [List.getElem?_append_right (by omega), hlen, List.getElem?_drop]
  congr 1; omega

/-- A field away from the overwritten one is unchanged. -/
theorem slice_patch_of_disjoint {off' n : ℕ} (h : off + v.length ≤ b.length)
    (hd : off' + n ≤ off ∨ off + v.length ≤ off') :
    slice (patch b off v) off' n = slice b off' n := by
  apply List.ext_getElem?
  intro i
  rw [getElem?_slice, getElem?_slice]
  split
  · next hi =>
    rcases hd with hd | hd
    · exact getElem?_patch_of_lt h (by omega)
    · exact getElem?_patch_of_ge h (by omega)
  · rfl

/-- What stands between two other parts. -/
theorem slice_between {a f c : Bytes} {n : ℕ} (ha : a.length = off) (hf : f.length = n) :
    slice (a ++ f ++ c) off n = f := by
  subst ha hf
  rw [slice, List.append_assoc, List.drop_left, List.take_left]

/-- A field inside the first part of a concatenation. -/
theorem slice_append_left {a : Bytes} {n : ℕ} (h : off + n ≤ a.length) :
    slice (a ++ b) off n = slice a off n := by
  unfold slice
  rw [List.drop_append_of_le_length (by omega),
    List.take_append_of_le_length (by rw [List.length_drop]; omega)]

/-- A field inside a long enough prefix. -/
theorem slice_take {m n : ℕ} (h : off + n ≤ m) : slice (b.take m) off n = slice b off n := by
  unfold slice
  rw [List.drop_take, List.take_take, Nat.min_eq_left (by omega)]

/-! ### Signed fields -/

/-- The unsigned big-endian number in the `n` bytes at `off`. -/
def getUint (b : Bytes) (off n : ℕ) : ℕ := beGet (slice b off n)

/-- The signed byte at `off`. -/
def getInt8 (b : Bytes) (off : ℕ) : ℤ := wrap8 (getUint b off 1)

/-- The signed 32-bit field at `off`. -/
def getInt32 (b : Bytes) (off : ℕ) : ℤ := wrap32 (getUint b off 4)

/-- The signed 64-bit field at `off`. -/
def getInt64 (b : Bytes) (off : ℕ) : ℤ := wrap64 (getUint b off 8)

/-- The byte of a signed 8-bit integer. -/
def putInt8 (x : ℤ) : Bytes := bePut 1 (x % 256).toNat

/-- The two bytes of a signed 16-bit integer. -/
def putInt16 (x : ℤ) : Bytes := bePut 2 (x % 65536).toNat

/-- The four bytes of a signed 32-bit integer. -/
def putInt32 (x : ℤ) : Bytes := bePut 4 (x % 4294967296).toNat

/-- The eight bytes of a signed 64-bit integer. -/
def putInt64 (x : ℤ) : Bytes := bePut 8 (x % 18446744073709551616).toNat

@[simp] theorem length_putInt8 (x : ℤ) : (putInt8 x).length = 1 := length_bePut _ _

@[simp] theorem length_putInt16 (x : ℤ) : (putInt16 x).length = 2 := length_bePut _ _

@[simp] theorem length_putInt32 (x : ℤ) : (putInt32 x).length = 4 := length_bePut _ _

@[simp] theorem length_putInt64 (x : ℤ) : (putInt64 x).length = 8 := length_bePut _ _

theorem wrap8_beGet_putInt8 (x : ℤ) : wrap8 (beGet (putInt8 x)) = wrap8 x := by
  rw [putInt8, beGet_bePut]
  unfold wrap8
  rw [pow_one]; omega

theorem wrap16_beGet_putInt16 (x : ℤ) : wrap16 (beGet (putInt16 x)) = wrap16 x := by
  rw [putInt16, beGet_bePut]
  unfold wrap16
  have : (256 : ℕ) ^ 2 = 65536 := by norm_num
  rw [this]; omega

theorem wrap32_beGet_putInt32 (x : ℤ) : wrap32 (beGet (putInt32 x)) = wrap32 x := by
  rw [putInt32, beGet_bePut]
  unfold wrap32
  have : (256 : ℕ) ^ 4 = 4294967296 := by norm_num
  rw [this]; omega

theorem wrap64_beGet_putInt64 (x : ℤ) : wrap64 (beGet (putInt64 x)) = wrap64 x := by
  rw [putInt64, beGet_bePut]
  unfold wrap64
  have : (256 : ℕ) ^ 8 = 18446744073709551616 := by norm_num
  rw [this]; omega

/-- A 64-bit field read where it was written. -/
theorem getInt64_patch_putInt64 (h : off ≤ b.length) (x : ℤ) :
    getInt64 (patch b off (putInt64 x)) off = wrap64 x := by
  have := slice_patch_self (v := putInt64 x) h
  rw [length_putInt64] at this
  rw [getInt64, getUint, this, wrap64_beGet_putInt64]

end Word
