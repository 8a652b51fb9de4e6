import Mq.Wire.Kbytes

/-!
# Sequences of fields

Every codec of the wire protocol is a sequence of primitive fields, written in one order and
read in the same.  Here the sequence is arbitrary, and so is the place where the bytes are cut
off.

A field needs its own bytes.  An array length also needs as many bytes behind it as there are
elements, since `ArrayLen` refuses a length that exceeds what is left of the buffer.

## Main definitions

* `Field`, `Kind` — a typed value, and its type.
* `putFields`, `readFields` — a sequence is written, and read.
* `Field.Valid` — a value that its field can hold.
* `Followed` — behind every array length stand at least as many bytes.
* `fitting` — how many fields can be read from the first bytes.
* `Safe` — a read that stays inside the buffer and does not forget an error.

## Main results

* `Field.read_eq`, `Field.fails_read` — one field that fits, and one that does not.
* `readFields_fitting` — **the fields that fit are read**.
* `readFields_short` — **from the first one that does not fit there is an error**.
* `fields_roundTrip` — both, for a sequence and all that can be left of it.
-/

namespace Mq
namespace Wire

open Word

/-! ### Fields -/

/-- A typed value. -/
inductive Field
  | int8 (x : ℤ)
  | int16 (x : ℤ)
  | int32 (x : ℤ)
  | int64 (x : ℤ)
  | string (s : Bytes)
  | nullableString (o : Option Bytes)
  | bytes (o : Option Bytes)
  | arrayLen (n : ℕ)
  deriving DecidableEq, Repr

/-- The type of a field. -/
inductive Kind
  | int8
  | int16
  | int32
  | int64
  | string
  | nullableString
  | bytes
  | arrayLen
  deriving DecidableEq, Repr

/-- A read by the type of the field. -/
def Kind.read : Kind → Read Field
  | .int8 => do pure (.int8 (← Wire.int8))
  | .int16 => do pure (.int16 (← Wire.int16))
  | .int32 => do pure (.int32 (← Wire.int32))
  | .int64 => do pure (.int64 (← Wire.int64))
  | .string => do pure (.string (← Wire.string))
  | .nullableString => do pure (.nullableString (← Wire.nullableString))
  | .bytes => do pure (.bytes (← Wire.bytes))
  | .arrayLen => do pure (.arrayLen (← Wire.arrayLen))

namespace Field

def kind : Field → Kind
  | .int8 _ => .int8
  | .int16 _ => .int16
  | .int32 _ => .int32
  | .int64 _ => .int64
  | .string _ => .string
  | .nullableString _ => .nullableString
  | .bytes _ => .bytes
  | .arrayLen _ => .arrayLen

/-- What the writer appends. -/
def put : Field → Bytes
  | .int8 x => putInt8 x
  | .int16 x => putInt16 x
  | .int32 x => putInt32 x
  | .int64 x => putInt64 x
  | .string s => putString s
  | .nullableString o => putNullableString o
  | .bytes o => putBytes o
  | .arrayLen n => putArrayLen n

/-- The value is one of its type, and its length can be written down. -/
def Valid : Field → Prop
  | .int8 x => -2 ^ 7 ≤ x ∧ x < 2 ^ 7
  | .int16 x => -2 ^ 15 ≤ x ∧ x < 2 ^ 15
  | .int32 x => -2 ^ 31 ≤ x ∧ x < 2 ^ 31
  | .int64 x => -2 ^ 63 ≤ x ∧ x < 2 ^ 63
  | .string s => s.length ≤ 32767
  | .nullableString o => ∀ s ∈ o, s.length ≤ 32767
  | .bytes o => ∀ b ∈ o, b.length < 2 ^ 31
  | .arrayLen n => n < 2 ^ 31

/-- The bytes that the field announces without containing them. -/
def announced : Field → ℕ
  | .arrayLen n => n
  | _ => 0

/-- The bytes that must be left for the field to be read. -/
def need (f : Field) : ℕ := f.put.length + f.announced

end Field

/-! ### Sequences -/

def putFields (fs : List Field) : Bytes := (fs.map Field.put).flatten

/-- The values that are read one after the other. -/
def readFields : List Kind → Read (List Field)
  | [] => pure []
  | k :: ks => do
    let f ← k.read
    let fs ← readFields ks
    pure (f :: fs)

/-- What every array length announces stands behind it. -/
def Followed : List Field → Prop
  | [] => True
  | f :: fs => f.announced ≤ (putFields fs).length ∧ Followed fs

/-- The number of fields before the first one that does not fit, when `left` bytes are
left. -/
def fitting (left : ℕ) : List Field → ℕ
  | [] => 0
  | f :: fs => if f.need ≤ left then fitting (left - f.put.length) fs + 1 else 0

@[simp] theorem putFields_nil : putFields [] = [] := rfl

@[simp] theorem putFields_cons (f : Field) (fs : List Field) :
    putFields (f :: fs) = f.put ++ putFields fs := by
  simp [putFields]

variable {fs : List Field} {bs : Bytes}

/-- In the whole sequence every field fits. -/
theorem fitting_length (h : Followed fs) : fitting (putFields fs).length fs = fs.length := by
  induction fs with
  | nil => rfl
  | cons f fs ih =>
    have hneed : f.need ≤ (putFields (f :: fs)).length := by
      have := h.1
      simp only [Field.need, putFields_cons, List.length_append]
      omega
    rw [fitting, if_pos hneed, putFields_cons, List.length_append, Nat.add_sub_cancel_left,
      ih h.2, List.length_cons]

/-- If bytes are missing, a field does not fit. -/
theorem fitting_lt {left : ℕ} (h : left < (putFields fs).length) : fitting left fs < fs.length := by
  induction fs generalizing left with
  | nil => simp at h
  | cons f fs ih =>
    rw [fitting]
    split
    · next hneed =>
      have hrest : left - f.put.length < (putFields fs).length := by
        rw [putFields_cons, List.length_append] at h
        unfold Field.need at hneed
        omega
      exact Nat.succ_lt_succ (ih hrest)
    · simp

/-! ### Reads that stay inside the buffer -/

variable {α β : Type}

/-- The read leaves the buffer as it is, does not go past its end, and does not forget an
error. -/
structure Safe (m : Read α) : Prop where
  buf : ∀ r, (m r).2.buf = r.buf
  pos : ∀ r, r.pos ≤ r.buf.length → (m r).2.pos ≤ r.buf.length
  err : ∀ r, r.err = true → (m r).2.err = true

theorem safe_pure (a : α) : Safe (pure a) := ⟨fun _ => rfl, fun _ h => h, fun _ h => h⟩

theorem Safe.bind {m : Read α} {f : α → Read β} (hm : Safe m) (hf : ∀ a, Safe (f a)) :
    Safe (m >>= f) where
  buf r := ((hf _).buf _).trans (hm.buf r)
  pos r hr := by
    have h := (hf (m r).1).pos (m r).2
    rw [hm.buf] at h
    exact h (hm.pos r hr)
  err r hr := (hf _).err _ (hm.err r hr)

theorem Safe.ite {p : Prop} [Decidable p] {m m' : Read α} (hm : Safe m) (hm' : Safe m') :
    Safe (if p then m else m') := by
  split
  · exact hm
  · exact hm'

/-- The guard of `take` is all that keeps the reads inside. -/
theorem safe_take (n : ℤ) : Safe (take n) := by
  refine ⟨fun r => ?_, fun r hr => ?_, fun r hr => ?_⟩ <;> rw [take]
  · split_ifs <;> rfl
  · split_ifs with herr hn
    · exact hr
    · exact hr
    · dsimp only
      omega
  · rw [if_pos hr]
    exact hr

theorem safe_int (n : ℕ) (wrap : ℤ → ℤ) : Safe (int n wrap) := by
  refine (safe_take n).bind fun o => ?_
  cases o <;> exact safe_pure _

/-- The guard of `ArrayLen`. -/
theorem safe_guard (n : ℤ) : Safe fun r : Reader =>
    if (r.buf.length : ℤ) - r.pos < n then (0, { r with err := true }) else (n.toNat, r) := by
  refine ⟨fun r => ?_, fun r hr => ?_, fun r hr => ?_⟩
  · split_ifs <;> rfl
  · split_ifs <;> exact hr
  · split_ifs
    · rfl
    · exact hr

theorem Kind.safe_read (k : Kind) : Safe k.read := by
  cases k with
  | int8 => exact (safe_int _ _).bind fun _ => safe_pure _
  | int16 => exact (safe_int _ _).bind fun _ => safe_pure _
  | int32 => exact (safe_int _ _).bind fun _ => safe_pure _
  | int64 => exact (safe_int _ _).bind fun _ => safe_pure _
  | string =>
    refine Safe.bind ((safe_int _ _).bind fun n => ?_) fun _ => safe_pure _
    exact (safe_pure _).ite ((safe_take n).bind fun _ => safe_pure _)
  | nullableString =>
    refine Safe.bind ((safe_int _ _).bind fun n => ?_) fun _ => safe_pure _
    exact (safe_pure _).ite ((safe_take n).bind fun _ => safe_pure _)
  | bytes =>
    refine Safe.bind ((safe_int _ _).bind fun n => ?_) fun _ => safe_pure _
    exact (safe_pure _).ite (safe_take n)
  | arrayLen =>
    refine Safe.bind ((safe_int _ _).bind fun n => ?_) fun _ => safe_pure _
    exact (safe_pure _).ite (safe_guard n)

theorem safe_readFields (ks : List Kind) : Safe (readFields ks) := by
  induction ks with
  | nil => exact safe_pure []
  | cons k ks ih => exact k.safe_read.bind fun _ => ih.bind fun _ => safe_pure _

/-! ### A field that fits -/

/-- **A field is read back** wherever it stands, if what it announces stands behind it. -/
theorem Field.read_eq {f : Field} (hf : f.Valid) {before after : Bytes}
    (hafter : f.announced ≤ after.length) :
    f.kind.read ⟨before ++ (f.put ++ after), before.length, false⟩ =
      (f, ⟨before ++ (f.put ++ after), before.length + f.put.length, false⟩) := by
  cases f with
  | int8 x =>
    have hread := (reads_int8 x).of_eq rfl (wrap8_eq hf.1 hf.2)
    exact Reads.map hread Field.int8 before after
  | int16 x =>
    have hread := (reads_int16 x).of_eq rfl (wrap16_eq hf.1 hf.2)
    exact Reads.map hread Field.int16 before after
  | int32 x =>
    have hread := (reads_int32 x).of_eq rfl (wrap32_eq hf.1 hf.2)
    exact Reads.map hread Field.int32 before after
  | int64 x =>
    have hread := (reads_int64 x).of_eq rfl (wrap64_eq hf.1 hf.2)
    exact Reads.map hread Field.int64 before after
  | string s => exact Reads.map (reads_string hf) Field.string before after
  | nullableString o => exact Reads.map (reads_nullableString hf) Field.nullableString before after
  | bytes o => exact Reads.map (reads_bytes hf) Field.bytes before after
  | arrayLen n =>
    show (Wire.arrayLen >>= fun n => pure (Field.arrayLen n)) _ = _
    rw [bind_apply, put, arrayLen_eq hf hafter]
    rfl

/-! ### A field that does not fit -/

theorem fails_take {n : ℕ} (h : bs.length < n) : Fails (take n) bs := by
  intro before
  have hguard : (n : ℤ) < 0 ∨ ((before ++ bs).length : ℤ) < before.length + (n : ℤ) := by
    rw [List.length_append]
    omega
  rw [take, if_neg (by simp), if_pos hguard]

/-- An error is not forgotten by what comes after. -/
theorem Fails.andThen {m : Read α} {f : α → Read β} (h : Fails m bs) (hf : ∀ a, Safe (f a)) :
    Fails (m >>= f) bs :=
  fun before => (hf _).err _ (h before)

theorem fails_int {n : ℕ} (h : bs.length < n) (wrap : ℤ → ℤ) : Fails (int n wrap) bs := by
  refine (fails_take h).andThen fun o => ?_
  cases o <;> exact safe_pure _

/-- A length and what it announces, cut off in the length or behind it. -/
theorem Fails.sized {w : ℕ} {wrap : ℤ → ℤ} {body : ℤ → Read α} {z : α} {len after : Bytes} {n : ℕ}
    (hlen : Reads (int w wrap) len n) (hw : len.length = w) (hbs : bs <+: len ++ after)
    (hsafe : ∀ k, Safe (body k)) (hbody : ∀ cs, bs = len ++ cs → Fails (body n) cs) :
    Fails (int w wrap >>= fun n => if n < 0 then pure z else body n) bs := by
  by_cases hshort : bs.length < w
  · exact (fails_int hshort wrap).andThen fun k => (safe_pure z).ite (hsafe k)
  · obtain ⟨cs, rfl⟩ :=
      List.prefix_of_prefix_length_le (List.prefix_append len after) hbs (by omega)
    refine Fails.bind hlen ?_
    rw [if_neg (by omega)]
    exact hbody cs rfl

/-- **A field that is cut off, or that announces too much, is a failed read.** -/
theorem Field.fails_read {f : Field} (hf : f.Valid) {after : Bytes} (hbs : bs <+: f.put ++ after)
    (hshort : bs.length < f.need) : Fails f.kind.read bs := by
  cases f with
  | int8 x =>
    have hlen : bs.length < 1 := by simpa [need, put, announced] using hshort
    exact (fails_int hlen _).map Field.int8
  | int16 x =>
    have hlen : bs.length < 2 := by simpa [need, put, announced] using hshort
    exact (fails_int hlen _).map Field.int16
  | int32 x =>
    have hlen : bs.length < 4 := by simpa [need, put, announced] using hshort
    exact (fails_int hlen _).map Field.int32
  | int64 x =>
    have hlen : bs.length < 8 := by simpa [need, put, announced] using hshort
    exact (fails_int hlen _).map Field.int64
  | string s =>
    rw [put, putString, List.append_assoc] at hbs
    refine (Fails.sized (reads_length16 hf) (length_putInt16 _) hbs
      (fun k => (safe_take k).bind fun _ => safe_pure _) fun cs hcs => ?_).map Field.string
    refine (fails_take ?_).map fun b => b.getD []
    simp [need, put, putString, announced, hcs] at hshort
    omega
  | nullableString o =>
    cases o with
    | none =>
      have hlen : bs.length < 2 := by simpa [need, put, putNullableString, announced] using hshort
      refine Fails.map ((fails_int hlen _).andThen fun k => ?_) Field.nullableString
      exact (safe_pure _).ite ((safe_take k).bind fun _ => safe_pure _)
    | some s =>
      rw [put, putNullableString, putString, List.append_assoc] at hbs
      refine (Fails.sized (reads_length16 (hf s rfl)) (length_putInt16 _) hbs
        (fun k => (safe_take k).bind fun _ => safe_pure _) fun cs hcs => ?_).map
          Field.nullableString
      refine (fails_take ?_).map fun b => some (b.getD [])
      simp [need, put, putNullableString, putString, announced, hcs] at hshort
      omega
  | bytes o =>
    cases o with
    | none =>
      have hlen : bs.length < 4 := by simpa [need, put, putBytes, announced] using hshort
      refine Fails.map ((fails_int hlen _).andThen fun k => ?_) Field.bytes
      exact (safe_pure _).ite (safe_take k)
    | some b =>
      rw [put, putBytes, List.append_assoc] at hbs
      refine (Fails.sized (reads_length32 (hf b rfl)) (length_putInt32 _) hbs
        (fun k => safe_take k) fun cs hcs => ?_).map Field.bytes
      refine fails_take ?_
      simp [need, put, putBytes, announced, hcs] at hshort
      omega
  | arrayLen n =>
    refine (Fails.sized (reads_length32 hf) (length_putInt32 _) hbs safe_guard
      fun cs hcs before => ?_).map Field.arrayLen
    have hguard : ((before ++ cs).length : ℤ) - before.length < (n : ℤ) := by
      simp [need, put, putArrayLen, announced, hcs] at hshort
      rw [List.length_append]
      omega
    rw [if_pos hguard]

/-! ### A sequence that is cut off -/

theorem readFields_append (ks ks' : List Kind) (r : Reader) :
    readFields (ks ++ ks') r =
      ((readFields ks r).1 ++ (readFields ks' (readFields ks r).2).1,
        (readFields ks' (readFields ks r).2).2) := by
  induction ks generalizing r with
  | nil => rfl
  | cons k ks ih =>
    show ((k.read r).1 :: (readFields (ks ++ ks') (k.read r).2).1,
      (readFields (ks ++ ks') (k.read r).2).2) = _
    rw [ih]
    rfl

theorem readFields_cons_fst (k : Kind) (ks : List Kind) (r : Reader) :
    (readFields (k :: ks) r).1 = (k.read r).1 :: (readFields ks (k.read r).2).1 := rfl

/-- The bytes of the first field, and what is left of the others. -/
theorem take_putFields_cons {f : Field} {cut : ℕ} (h : f.put.length ≤ cut) (fs : List Field) :
    (putFields (f :: fs)).take cut = f.put ++ (putFields fs).take (cut - f.put.length) := by
  rw [putFields_cons, List.take_append, List.take_of_length_le h]

/-- One field that fits is read, and the reader stands before what is left of the others. -/
theorem read_cons {f : Field} (hf : f.Valid) {cut : ℕ} (hcut : cut ≤ (putFields (f :: fs)).length)
    (hneed : f.need ≤ cut) (before : Bytes) :
    f.kind.read ⟨before ++ (putFields (f :: fs)).take cut, before.length, false⟩ =
      (f, ⟨before ++ f.put ++ (putFields fs).take (cut - f.put.length),
        (before ++ f.put).length, false⟩) := by
  unfold Field.need at hneed
  rw [putFields_cons, List.length_append] at hcut
  have hafter : f.announced ≤ ((putFields fs).take (cut - f.put.length)).length := by
    rw [List.length_take]
    omega
  rw [take_putFields_cons (by omega), Field.read_eq hf hafter, List.append_assoc,
    List.length_append]

/-- **The fields that fit are read.**  The position is behind them. -/
theorem readFields_fitting (hvalid : ∀ f ∈ fs, f.Valid) {cut : ℕ}
    (hcut : cut ≤ (putFields fs).length) (before : Bytes) {i : ℕ} (hi : i ≤ fitting cut fs) :
    readFields ((fs.take i).map Field.kind)
        ⟨before ++ (putFields fs).take cut, before.length, false⟩ =
      (fs.take i, ⟨before ++ (putFields fs).take cut,
        before.length + (putFields (fs.take i)).length, false⟩) := by
  -- the fields that have been read are moved to the bytes before the position
  induction fs generalizing cut before i with
  | nil => simp [readFields]; rfl
  | cons f fs ih =>
    cases i with
    | zero => rfl
    | succ i =>
      rw [fitting] at hi
      split at hi
      · next hneed =>
        have hread := read_cons (hvalid f (by simp)) hcut hneed before
        have hput : f.put.length ≤ cut := by unfold Field.need at hneed; omega
        have hrest : cut - f.put.length ≤ (putFields fs).length := by
          rw [putFields_cons, List.length_append] at hcut
          omega
        have htail := ih (fun g hg => hvalid g (by simp [hg])) hrest (before ++ f.put)
          (Nat.le_of_succ_le_succ hi)
        rw [List.take_succ_cons, List.map_cons, readFields, bind_apply, hread]
        dsimp only
        rw [bind_apply, htail, take_putFields_cons hput, putFields_cons, List.length_append,
          List.length_append, List.append_assoc, Nat.add_assoc]
        rfl
      · omega

/-- **From the first field that does not fit there is an error.** -/
theorem readFields_short (hvalid : ∀ f ∈ fs, f.Valid) {cut : ℕ}
    (hcut : cut ≤ (putFields fs).length) (before : Bytes) {i : ℕ} (hi : fitting cut fs < i)
    (hle : i ≤ fs.length) :
    (readFields ((fs.take i).map Field.kind)
      ⟨before ++ (putFields fs).take cut, before.length, false⟩).2.err = true := by
  induction fs generalizing cut before i with
  | nil => simp at hle; omega
  | cons f fs ih =>
    cases i with
    | zero => omega
    | succ i =>
      rw [List.take_succ_cons, List.map_cons, readFields]
      rw [fitting] at hi
      split at hi
      · next hneed =>
        have hrest : cut - f.put.length ≤ (putFields fs).length := by
          rw [putFields_cons, List.length_append] at hcut
          omega
        rw [bind_apply, read_cons (hvalid f (by simp)) hcut hneed before]
        exact ih (fun g hg => hvalid g (by simp [hg])) hrest (before ++ f.put)
          (Nat.lt_of_succ_lt_succ hi) (Nat.le_of_succ_le_succ hle)
      · next hneed =>
        have hbs : (putFields (f :: fs)).take cut <+: f.put ++ putFields fs := by
          rw [putFields_cons]
          exact List.take_prefix _ _
        refine (Field.fails_read (hvalid f (by simp)) hbs ?_).andThen
          (fun _ => (safe_readFields _).bind fun _ => safe_pure _) before
        rw [List.length_take]
        omega

/-- **Wire primitives round-trip in sequence.**  All fields are read back, without an error
and up to the end of the buffer.  If the bytes are cut off, the fields that fit are read back,
there is an error after every read from the first one that does not fit, and no read goes
outside the buffer. -/
theorem fields_roundTrip (fs : List Field) (hvalid : ∀ f ∈ fs, f.Valid) (hfollowed : Followed fs) :
    readFields (fs.map Field.kind) (newReader (putFields fs))
        = (fs, ⟨putFields fs, (putFields fs).length, false⟩) ∧
    ∀ cut < (putFields fs).length,
      let r := newReader ((putFields fs).take cut)
      fitting cut fs < fs.length ∧
      (readFields (fs.map Field.kind) r).1.take (fitting cut fs) = fs.take (fitting cut fs) ∧
      ∀ i ≤ fs.length,
        let r' := (readFields ((fs.take i).map Field.kind) r).2
        (r'.err = true ↔ fitting cut fs < i) ∧ r'.buf = r.buf ∧ r'.pos ≤ r.buf.length := by
  constructor
  · have h := readFields_fitting hvalid le_rfl [] (fitting_length hfollowed).ge
    simpa [newReader] using h
  · intro cut hcut r
    have hfit : ∀ i ≤ fitting cut fs, readFields ((fs.take i).map Field.kind) r =
        (fs.take i, ⟨(putFields fs).take cut, (putFields (fs.take i)).length, false⟩) := by
      intro i hi
      simpa [newReader, r] using readFields_fitting hvalid hcut.le [] hi
    refine ⟨fitting_lt hcut, ?_, fun i hle => ⟨?_, ?_, ?_⟩⟩
    · have hsplit : fs.map Field.kind = (fs.take (fitting cut fs)).map Field.kind
          ++ (fs.drop (fitting cut fs)).map Field.kind := by
        rw [← List.map_append, List.take_append_drop]
      rw [hsplit, readFields_append, hfit _ le_rfl]
      exact List.take_left' (List.length_take_of_le (fitting_lt hcut).le)
    · constructor
      · intro herr
        by_contra hge
        rw [hfit i (by omega)] at herr
        cases herr
      · intro hlt
        simpa [newReader, r] using readFields_short hvalid hcut.le [] hlt hle
    · exact (safe_readFields _).buf r
    · exact (safe_readFields _).pos r (Nat.zero_le _)

/-- An array of two names, of which one is missing, and an empty byte string. -/
def twoNames : List Field := [.arrayLen 2, .nullableString (some [97]), .nullableString none,
  .bytes (some [])]

/-- They are read back.  When the last of the 13 bytes is missing, three fields fit. -/
theorem fields_roundTrip_twoNames :
    readFields (twoNames.map Field.kind) (newReader (putFields twoNames))
      = (twoNames, ⟨putFields twoNames, 13, false⟩) ∧
    (readFields (twoNames.map Field.kind) (newReader ((putFields twoNames).take 12))).1.take 3
      = twoNames.take 3 := by
  have hlen : (putFields twoNames).length = 13 := by decide
  have hfit : fitting 12 twoNames = 3 := by decide
  have h := fields_roundTrip twoNames (by simp [twoNames, Field.Valid])
    ⟨by decide, by decide, by decide, by decide, trivial⟩
  refine ⟨hlen ▸ h.1, ?_⟩
  have hcut := (h.2 12 (by omega)).2.1
  rwa [hfit] at hcut

/-- A length that is written as a negative one is read as 0. -/
theorem readFields_arrayLen_wide {n : ℕ} (hn : wrap32 n < 0) (fs : List Field) :
    (readFields (.arrayLen :: fs.map Field.kind)
      (newReader (putFields (.arrayLen n :: fs)))).1.head? = some (.arrayLen 0) := by
  have hlen : Reads arrayLen (putArrayLen n) 0 := (reads_int32 n).unsized hn
  have hread := hlen.map Field.arrayLen [] (putFields fs)
  rw [readFields_cons_fst, List.head?_cons, putFields_cons]
  exact congrArg (fun x => some x.1) hread

/-- A string whose length is written as a negative one is read as none at all. -/
theorem readFields_nullableString_wide {s : Bytes} (hs : wrap16 s.length < 0) :
    (readFields [.nullableString] (newReader (putFields [.nullableString (some s)]))).1
      = [.nullableString none] := by
  have hlen : Reads nullableString (putInt16 s.length) none := (reads_int16 s.length).unsized hs
  have hread := hlen.map Field.nullableString [] s
  rw [readFields_cons_fst, putFields_cons, putFields_nil, List.append_nil]
  exact congrArg (fun x => [x.1]) hread

/-- **Lengths that the length field cannot hold.**  An array length of `2 ^ 31`, with more
than as many bytes behind it, is read back as 0, and a nullable string of 32768 bytes as
`none`. -/
theorem wide_lengths_misread :
    Followed [.arrayLen 2147483648, .bytes (some (List.replicate 2147483647 0))] ∧
    (readFields [.arrayLen, .bytes] (newReader (putFields
      [.arrayLen 2147483648, .bytes (some (List.replicate 2147483647 0))]))).1.head?
        = some (.arrayLen 0) ∧
    (readFields [.nullableString] (newReader (putFields
      [.nullableString (some (List.replicate 32768 97))]))).1 = [.nullableString none] := by
  refine ⟨⟨?_, Nat.zero_le _, trivial⟩, readFields_arrayLen_wide (by decide) [.bytes _],
    readFields_nullableString_wide (by rw [List.length_replicate]; decide)⟩
  rw [putFields_cons, Field.put, putBytes, Field.announced, List.length_append, List.length_append,
    List.length_replicate, length_putInt32]
  omega

end Wire
end Mq
