import Mq.Lib.Word

/-!
# The byte-level primitives of the wire protocol

`internal/kbytes`: a reader with a sticky error over a byte slice, and a writer
that appends to a buffer.  Integers are big-endian, strings and byte strings are
prefixed by their length, and an array by the number of its elements.

A decoder is a state transformer of the `Reader`.  What a writer's method appends
to its buffer is a byte string, so that an encoder is a concatenation.

## Main definitions

* `Reader`, `Read` — the reader, and a computation that reads from it.
* `Reader.take` and the primitives over it: `int16`, `string`, `bytes`, `arrayLen`, …
* `repeated`, `array` — the loops of the decoders.
* `Reads m bs a` — `m` reads the bytes `bs`, wherever they stand, and returns `a`.
* `Yields m P` — whatever `m` reads, its result satisfies `P`.

## Main results

* `Reads.bind` — what is read one after the other stands one after the other.
* `reads_string`, `reads_bytes`, `reads_array` — the round trips of the primitives
  with a length in front, with the bound that the length field sets.
-/

namespace Mq
namespace Wire

open Word

/-! ### The reader -/

/-- A reader of `buf` at `pos`; `err` is set once a read ran past the buffer. -/
structure Reader where
  buf : Bytes
  pos : ℕ
  err : Bool
  deriving DecidableEq, Repr

/-- A reader of a whole byte string. -/
def newReader (b : Bytes) : Reader := ⟨b, 0, false⟩

/-- A computation that reads. -/
abbrev Read (α : Type) := StateM Reader α

/-- The next `n` bytes, `none` when the reader has failed or fails now. -/
def take (n : ℤ) : Read (Option Bytes) := fun r =>
  if r.err then (none, r)
  else if n < 0 ∨ r.buf.length < r.pos + n then (none, { r with err := true })
  else (some (slice r.buf r.pos n.toNat), { r with pos := r.pos + n.toNat })

/-- An integer of `n` bytes, zero when they cannot be read. -/
def int (n : ℕ) (wrap : ℤ → ℤ) : Read ℤ := do
  match ← take n with
  | none => pure 0
  | some b => pure (wrap (beGet b))

def int8 : Read ℤ := int 1 wrap8

def int16 : Read ℤ := int 2 wrap16

def int32 : Read ℤ := int 4 wrap32

def int64 : Read ℤ := int 8 wrap64

/-- A string with its length in front.  A negative length yields the empty string. -/
def string : Read Bytes := do
  let n ← int16
  if n < 0 then pure []
  else
    let b ← take n
    pure (b.getD [])

/-- A string with its length in front.  A negative length yields `none`. -/
def nullableString : Read (Option Bytes) := do
  let n ← int16
  if n < 0 then pure none
  else
    let b ← take n
    pure (some (b.getD []))

/-- A byte string with its length in front.  A negative length yields `none`, as a
failed read does. -/
def bytes : Read (Option Bytes) := do
  let n ← int32
  if n < 0 then pure none
  else take n

/-- The length of an array.  A negative one is reported as 0, and one that exceeds the
bytes that are left is a failed read. -/
def arrayLen : Read ℕ := do
  let n ← int32
  if n < 0 then pure 0
  else fun r =>
    if (r.buf.length : ℤ) - r.pos < n then (0, { r with err := true }) else (n.toNat, r)

/-- A loop that reads `n` items. -/
def repeated {α : Type} (item : Read α) : ℕ → Read (List α)
  | 0 => pure []
  | n + 1 => do
    let a ← item
    let as ← repeated item n
    pure (a :: as)

/-- An array with the number of its elements in front. -/
def array {α : Type} (item : Read α) : Read (List α) := do
  let n ← arrayLen
  repeated item n

/-! ### The writer -/

/-- What `String` appends. -/
def putString (s : Bytes) : Bytes := putInt16 s.length ++ s

/-- What `NullableString` appends. -/
def putNullableString : Option Bytes → Bytes
  | none => putInt16 (-1)
  | some s => putString s

/-- What `Bytes` appends. -/
def putBytes : Option Bytes → Bytes
  | none => putInt32 (-1)
  | some b => putInt32 b.length ++ b

/-- What `ArrayLen` appends. -/
def putArrayLen (n : ℕ) : Bytes := putInt32 n

/-- What a loop over `as` appends after their number. -/
def putArray {α : Type} (put : α → Bytes) (as : List α) : Bytes :=
  putArrayLen as.length ++ (as.map put).flatten

/-! ### Reading what stands at the position -/

/-- `m` reads exactly the bytes `bs`, whatever stands around them, and returns `a`. -/
def Reads {α : Type} (m : Read α) (bs : Bytes) (a : α) : Prop :=
  ∀ before after : Bytes,
    m ⟨before ++ (bs ++ after), before.length, false⟩ =
      (a, ⟨before ++ (bs ++ after), before.length + bs.length, false⟩)

variable {α β : Type}
variable {m item : Read α} {bs cs : Bytes} {a : α} {f : α → Read β} {n : ℕ} {put : α → Bytes}
  {P : α → Prop}

/-- A whole buffer that is read has no unread bytes, and no error. -/
theorem Reads.newReader (h : Reads m bs a) : m (newReader bs) = (a, ⟨bs, bs.length, false⟩) := by
  have := h [] []
  simpa [Wire.newReader] using this

theorem reads_pure (a : α) : Reads (pure a) [] a := by
  intro before after
  rfl

theorem bind_apply (m : Read α) (f : α → Read β) (r : Reader) :
    (m >>= f) r = f (m r).1 (m r).2 := rfl

/-- **Sequencing.**  What is read one after the other stands one after the other. -/
theorem Reads.bind {b : β} (hm : Reads m bs a) (hf : Reads (f a) cs b) :
    Reads (m >>= f) (bs ++ cs) b := by
  intro before after
  have h₁ := hm before (cs ++ after)
  have h₂ := hf (before ++ bs) after
  rw [List.append_assoc before bs, List.length_append] at h₂
  rw [List.append_assoc bs, bind_apply, h₁]
  dsimp only
  rw [h₂, List.length_append, Nat.add_assoc]

/-- Sequencing after something that reads no bytes. -/
theorem Reads.bind_nil {b : β} (hm : Reads m [] a) (hf : Reads (f a) cs b) : Reads (m >>= f) cs b :=
  Reads.bind hm hf

theorem Reads.of_eq {b : α} (h : Reads m bs a) (hb : bs = cs) (ha : a = b) : Reads m cs b := by
  subst hb ha
  exact h

/-- The last item of a sequence, whose value is wrapped up. -/
theorem Reads.map (h : Reads m bs a) (f : α → β) : Reads (m >>= fun x => pure (f x)) bs (f a) := by
  have := Reads.bind (f := fun x => pure (f x)) h (reads_pure (f a))
  rwa [List.append_nil] at this

theorem reads_take (b : Bytes) : Reads (take b.length) b (some b) := by
  intro before after
  have hlen : ¬ ((b.length : ℤ) < 0 ∨
      ((before ++ (b ++ after)).length : ℤ) < before.length + (b.length : ℤ)) := by
    simp only [List.length_append]
    push Not
    constructor <;> omega
  simp only [take, Bool.false_eq_true, if_false, if_neg hlen, Int.toNat_natCast]
  congr 2
  simp [slice]

/-! ### Round trips of the primitives -/

theorem reads_int {wrap : ℤ → ℤ} {b : Bytes} (hb : b.length = n) :
    Reads (int n wrap) b (wrap (beGet b)) := by
  subst hb
  refine Reads.of_eq (Reads.bind (reads_take b) (reads_pure (wrap (beGet b)))) ?_ rfl
  rw [List.append_nil]

theorem reads_int8 (x : ℤ) : Reads int8 (putInt8 x) (wrap8 x) := by
  rw [← wrap8_beGet_putInt8]
  exact reads_int (length_putInt8 x)

theorem reads_int16 (x : ℤ) : Reads int16 (putInt16 x) (wrap16 x) := by
  rw [← wrap16_beGet_putInt16]
  exact reads_int (length_putInt16 x)

theorem reads_int32 (x : ℤ) : Reads int32 (putInt32 x) (wrap32 x) := by
  rw [← wrap32_beGet_putInt32]
  exact reads_int (length_putInt32 x)

theorem reads_int64 (x : ℤ) : Reads int64 (putInt64 x) (wrap64 x) := by
  rw [← wrap64_beGet_putInt64]
  exact reads_int (length_putInt64 x)

theorem reads_length16 (hn : n ≤ 32767) : Reads int16 (putInt16 n) n :=
  (reads_int16 n).of_eq rfl (wrap16_eq (by omega) (by omega))

theorem reads_length32 (hn : n < 2147483648) : Reads int32 (putInt32 n) n :=
  (reads_int32 n).of_eq rfl (wrap32_eq (by omega) (by omega))

/-- A length that is not negative, and what it announces. -/
theorem Reads.sized {len : Read ℤ} {body : ℤ → Read α} {z : α} (hlen : Reads len bs n)
    (hbody : Reads (body n) cs a) :
    Reads (len >>= fun n => if n < 0 then pure z else body n) (bs ++ cs) a := by
  refine Reads.bind hlen ?_
  rw [if_neg (by omega)]
  exact hbody

/-- A negative length announces nothing. -/
theorem Reads.unsized {len : Read ℤ} {body : ℤ → Read α} {z : α} {n : ℤ} (hlen : Reads len bs n)
    (hneg : n < 0) : Reads (len >>= fun n => if n < 0 then pure z else body n) bs z := by
  refine Reads.of_eq (Reads.bind hlen ?_) (List.append_nil _) rfl
  rw [if_pos hneg]
  exact reads_pure z

/-- A string of at most 32767 bytes. -/
theorem reads_string {s : Bytes} (hs : s.length ≤ 32767) : Reads string (putString s) s :=
  (reads_length16 hs).sized (Reads.map (reads_take s) fun b => b.getD [])

/-- A string of at most 32767 bytes, or none. -/
theorem reads_nullableString {o : Option Bytes} (ho : ∀ s ∈ o, s.length ≤ 32767) :
    Reads nullableString (putNullableString o) o := by
  cases o with
  | none => exact (reads_int16 (-1)).unsized (by decide)
  | some s =>
    exact (reads_length16 (ho s rfl)).sized (Reads.map (reads_take s) fun b => some (b.getD []))

/-- A byte string that is shorter than `2 ^ 31` bytes, or none. -/
theorem reads_bytes {o : Option Bytes} (ho : ∀ b ∈ o, b.length < 2147483648) :
    Reads bytes (putBytes o) o := by
  cases o with
  | none => exact (reads_int32 (-1)).unsized (by decide)
  | some b => exact (reads_length32 (ho b rfl)).sized (reads_take b)

/-! ### Arrays -/

/-- The items of a loop stand one after the other. -/
theorem reads_repeated {item : Read β} {val : α → β} :
    ∀ as : List α, (∀ a ∈ as, Reads item (put a) (val a)) →
      Reads (repeated item as.length) (as.map put).flatten (as.map val) := by
  intro as
  induction as with
  | nil => intro _; exact reads_pure []
  | cons a as ih =>
    intro h
    have hrest := ih fun b hb => h b (List.mem_cons_of_mem a hb)
    rw [List.map_cons, List.flatten_cons]
    exact Reads.bind (h a List.mem_cons_self) (Reads.map hrest fun bs => val a :: bs)

theorem length_le_flatten_map :
    ∀ as : List α, (∀ a ∈ as, put a ≠ []) → as.length ≤ (as.map put).flatten.length := by
  intro as
  induction as with
  | nil => intro _; simp
  | cons a as ih =>
    intro h
    have hpos := List.length_pos_iff.mpr (h a List.mem_cons_self)
    have hrest := ih fun b hb => h b (List.mem_cons_of_mem a hb)
    rw [List.map_cons, List.flatten_cons, List.length_append, List.length_cons]
    omega

/-- The number of elements cannot be read on its own: the guard looks at what is left of the
buffer, and fails if there are more elements than bytes. -/
theorem arrayLen_putArrayLen (hn : n < 2147483648) (before after : Bytes) :
    arrayLen ⟨before ++ (putArrayLen n ++ after), before.length, false⟩ =
      (if after.length < n then 0 else n,
        ⟨before ++ (putArrayLen n ++ after), before.length + 4, decide (after.length < n)⟩) := by
  have hint := reads_int32 n before after
  have hwrap : wrap32 n = n := wrap32_eq (by omega) (by omega)
  rw [hwrap, length_putInt32] at hint
  have hneg : ¬ ((n : ℤ) < 0) := by omega
  have hguard : ((before ++ (putArrayLen n ++ after)).length : ℤ) - (before.length + 4 : ℕ) < n ↔
      after.length < n := by
    simp only [putArrayLen, List.length_append, length_putInt32]
    omega
  rw [arrayLen, bind_apply, putArrayLen, hint]
  dsimp only
  rw [if_neg hneg]
  by_cases hshort : after.length < n
  · rw [if_pos hshort, decide_eq_true hshort]
    exact if_pos (hguard.mpr hshort)
  · rw [if_neg hshort, decide_eq_false hshort]
    exact (if_neg (mt hguard.mp hshort)).trans (by rw [Int.toNat_natCast])

theorem arrayLen_eq (hn : n < 2147483648) {before after : Bytes} (hlen : n ≤ after.length) :
    arrayLen ⟨before ++ (putArrayLen n ++ after), before.length, false⟩ =
      (n, ⟨before ++ (putArrayLen n ++ after), before.length + 4, false⟩) := by
  rw [arrayLen_putArrayLen hn, if_neg (by omega), decide_eq_false (by omega)]

theorem arrayLen_short (hn : n < 2147483648) {before after : Bytes} (hlen : after.length < n) :
    arrayLen ⟨before ++ (putArrayLen n ++ after), before.length, false⟩ =
      (0, ⟨before ++ (putArrayLen n ++ after), before.length + 4, true⟩) := by
  rw [arrayLen_putArrayLen hn, if_pos hlen, decide_eq_true hlen]

/-- **Arrays.**  Elements that are not empty, fewer than `2 ^ 31` of them. -/
theorem reads_array {item : Read β} {val : α → β} {as : List α} (hlen : as.length < 2147483648)
    (h : ∀ a ∈ as, put a ≠ [] ∧ Reads item (put a) (val a)) :
    Reads (array item) (putArray put as) (as.map val) := by
  intro before after
  have hfit : as.length ≤ ((as.map put).flatten ++ after).length := by
    have := length_le_flatten_map as fun a ha => (h a ha).1
    rw [List.length_append]
    omega
  have hitems := reads_repeated as (fun a ha => (h a ha).2) (before ++ putArrayLen as.length) after
  rw [array, bind_apply, putArray, List.append_assoc, arrayLen_eq hlen hfit]
  dsimp only
  rw [List.append_assoc, List.length_append, show (putArrayLen as.length).length = 4 from
    length_putInt32 _] at hitems
  rw [hitems, List.length_append, show (putArrayLen as.length).length = 4 from length_putInt32 _,
    Nat.add_assoc]

/-- An array without elements. -/
theorem reads_array_nil (item : Read β) : Reads (array item) (putArrayLen 0) [] :=
  (@reads_array β β (fun _ => []) item id [] (by simp) (by simp)).of_eq (List.append_nil _) rfl

/-- An array of one element. -/
theorem reads_array_single {item : Read β} {b : β} (hne : bs ≠ []) (h : Reads item bs b) :
    Reads (array item) (putArrayLen 1 ++ bs) [b] :=
  (@reads_array Unit β (fun _ => bs) item (fun _ => b) [()] (by simp)
    (by simpa using ⟨hne, h⟩)).of_eq (by simp [putArray]) rfl

/-! ### Failed reads -/

/-- `m` runs past the end of the buffer when `bs` is what is left of it. -/
def Fails (m : Read α) (bs : Bytes) : Prop :=
  ∀ before : Bytes, (m ⟨before ++ bs, before.length, false⟩).2.err = true

theorem Fails.newReader (h : Fails m bs) : (m (newReader bs)).2.err = true := h []

theorem Fails.bind (hm : Reads m bs a) (hf : Fails (f a) cs) : Fails (m >>= f) (bs ++ cs) := by
  intro before
  have h₁ := hm before cs
  have h₂ := hf (before ++ bs)
  rw [List.append_assoc, List.length_append] at h₂
  rw [bind_apply, h₁]
  exact h₂

theorem Fails.map (h : Fails m bs) (f : α → β) : Fails (m >>= fun x => pure (f x)) bs :=
  fun before => h before

/-- The last item of a loop. -/
theorem Fails.repeated_one (h : Fails item bs) : Fails (repeated item 1) bs :=
  fun before => h before

theorem Fails.array (hn : n < 2147483648) (hlen : n ≤ bs.length) (h : Fails (repeated item n) bs) :
    Fails (array item) (putArrayLen n ++ bs) := by
  intro before
  have h₁ := @arrayLen_eq n hn before bs hlen
  have h₂ := h (before ++ putArrayLen n)
  rw [List.append_assoc, List.length_append,
    show (putArrayLen n).length = 4 from length_putInt32 _] at h₂
  rw [Wire.array, bind_apply, h₁]
  exact h₂

/-! ### What a computation can return -/

/-- Whatever the reader, failed or not, the result of `m` satisfies `P`. -/
def Yields (m : Read α) (P : α → Prop) : Prop := ∀ r, P (m r).1

theorem yields_pure (h : P a) : Yields (pure a) P := fun _ => h

theorem Yields.bind {Q : β → Prop} (hm : Yields m P) (hf : ∀ a, P a → Yields (f a) Q) :
    Yields (m >>= f) Q :=
  fun r => hf _ (hm r) _

/-- After something whose result does not matter. -/
theorem Yields.after {Q : β → Prop} (hf : ∀ a, Yields (f a) Q) : Yields (m >>= f) Q :=
  fun _ => hf _ _

theorem yields_repeated (h : Yields item P) (n : ℕ) :
    Yields (repeated item n) fun as => ∀ a ∈ as, P a := by
  induction n with
  | zero => exact yields_pure (by simp)
  | succ n ih =>
    refine h.bind fun a ha => ih.bind fun as has => yields_pure ?_
    simpa using ⟨ha, has⟩

theorem yields_array (h : Yields item P) : Yields (array item) fun as => ∀ a ∈ as, P a :=
  Yields.after fun n => yields_repeated h n

theorem yields_int {wrap : ℤ → ℤ} {P : ℤ → Prop} (hzero : P 0) (hwrap : ∀ x, P (wrap x)) :
    Yields (int n wrap) P := by
  refine Yields.after fun o => ?_
  cases o with
  | none => exact yields_pure hzero
  | some b => exact yields_pure (hwrap _)

/-- The ranges of the machine integers. -/
def IsInt16 (x : ℤ) : Prop := -32768 ≤ x ∧ x < 32768

def IsInt32 (x : ℤ) : Prop := -2147483648 ≤ x ∧ x < 2147483648

def IsInt64 (x : ℤ) : Prop := -9223372036854775808 ≤ x ∧ x < 9223372036854775808

theorem yields_int16 : Yields int16 fun x => -32768 ≤ x ∧ x < 32768 :=
  yields_int (by decide) fun x => by unfold wrap16; omega

theorem yields_int32 : Yields int32 fun x => -2147483648 ≤ x ∧ x < 2147483648 :=
  yields_int (by decide) fun x => wrap32_bounds x

/-- What is taken has the length that was asked for. -/
theorem yields_take (n : ℤ) : Yields (take n) fun o => ∀ b ∈ o, (b.length : ℤ) ≤ n := by
  intro r b hb
  rw [take] at hb
  split_ifs at hb with herr hn
  · cases hb
  · cases hb
  · cases hb
    rw [slice, List.length_take]
    omega

/-- A string has at most 32767 bytes, since its length field is signed. -/
theorem yields_string : Yields string fun s => s.length ≤ 32767 := by
  refine yields_int16.bind fun n hn => ?_
  split
  · exact yields_pure (by simp)
  · refine (yields_take n).bind fun o ho => yields_pure ?_
    cases o with
    | none => simp
    | some b =>
      have := ho b rfl
      simp only [Option.getD_some]
      omega

theorem yields_nullableString : Yields nullableString fun o => ∀ s ∈ o, s.length ≤ 32767 := by
  refine yields_int16.bind fun n hn => ?_
  split
  · exact yields_pure (by simp)
  · refine (yields_take n).bind fun o ho => yields_pure fun s hs => ?_
    cases hs
    cases o with
    | none => simp
    | some b =>
      have := ho b rfl
      simp only [Option.getD_some]
      omega

/-- A byte string is shorter than `2 ^ 31` bytes, since its length field is. -/
theorem yields_bytes : Yields bytes fun o => ∀ b ∈ o, b.length < 2147483648 := by
  refine yields_int32.bind fun n hn => ?_
  split
  · exact yields_pure (by simp)
  · intro r b hb
    have := yields_take n r b hb
    omega

/-- An array has fewer than `2 ^ 31` elements. -/
theorem yields_arrayLen : Yields arrayLen fun n => n < 2147483648 := by
  refine yields_int32.bind fun n hn => ?_
  split
  · exact yields_pure (by decide)
  · intro r
    dsimp only
    split
    · exact Nat.zero_lt_succ _
    · dsimp only
      omega

theorem yields_repeated_length (item : Read α) (n : ℕ) :
    Yields (repeated item n) fun as => as.length = n := by
  induction n with
  | zero => exact yields_pure rfl
  | succ n ih =>
    exact Yields.after fun a => ih.bind fun as has => yields_pure (by rw [List.length_cons, has])

theorem yields_array_length (item : Read α) :
    Yields (array item) fun as => as.length < 2147483648 :=
  yields_arrayLen.bind fun n hn r => (yields_repeated_length item n r).symm ▸ hn

theorem Yields.and {Q : α → Prop} (hP : Yields m P) (hQ : Yields m Q) :
    Yields m fun a => P a ∧ Q a := fun r => ⟨hP r, hQ r⟩

end Wire
end Mq
