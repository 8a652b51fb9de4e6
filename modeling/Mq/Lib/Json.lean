import Mathlib.Data.List.Basic
import Mathlib.Data.List.Sort
import Mq.Lib.Table
import Mq.Lib.Word

/-!
# Documents

What a JSON encoder makes of a value, and what a decoder makes of it again.  The text of a
document is left out: it is taken to be read back as it was written, except that a string
that is not valid UTF-8 may come back as another one.

A decoder leaves a value at zero for a field that is missing or `null`.

## Main definitions

* `Value` — a document.
* `Codec` — the encoder and the decoder of a type.
* `Codec.Keeps c a` — `a` comes back as it was.
* `Utf8`, `Text` — valid strings, and what becomes of strings.

## Main results

* `Codec.keeps_slice`, `Codec.keeps_nilSlice` — slices come back if their elements do.
* `Codec.map_keeps` — **a map comes back if its keys and values do.**
-/

namespace Json

open Word

/-- A document. -/
inductive Value
  | null
  | int (z : ℤ)
  | str (s : Bytes)
  | arr (xs : List Value)
  | obj (fields : List (Bytes × Value))

/-! ### Strings -/

/-- The bytes are the encoding of a list of characters. -/
def Utf8 (s : Bytes) : Prop := ∃ cs : List Char, s = cs.flatMap String.utf8EncodeChar

theorem Utf8.append {s t : Bytes} (hs : Utf8 s) (ht : Utf8 t) : Utf8 (s ++ t) := by
  obtain ⟨cs, rfl⟩ := hs
  obtain ⟨ds, rfl⟩ := ht
  exact ⟨cs ++ ds, List.flatMap_append.symm⟩

/-- ASCII is valid. -/
theorem utf8_of_lt {s : Bytes} (h : ∀ x ∈ s, x.toNat < 128) : Utf8 s := by
  induction s with
  | nil => exact ⟨[], rfl⟩
  | cons x s ih =>
    have hx : ∀ n < 128, String.utf8EncodeChar (Char.ofNat n) = [UInt8.ofNat n] := by decide +kernel
    have hone : Utf8 [x] :=
      ⟨[Char.ofNat x.toNat], by simp [hx _ (h x List.mem_cons_self)]⟩
    exact hone.append (ih fun y hy => h y (List.mem_cons_of_mem x hy))

/-- What a string comes back as. -/
structure Text where
  read : Bytes → Bytes
  read_of_utf8 : ∀ s, Utf8 s → read s = s

/-! ### Codecs -/

structure Codec (α : Type) where
  marshal : α → Value
  unmarshal : Value → Option α

namespace Codec

variable {α ν : Type}

/-- The value comes back. -/
def Keeps (c : Codec α) (a : α) : Prop := c.unmarshal (c.marshal a) = some a

def int : Codec ℤ where
  marshal := .int
  unmarshal
    | .null => some 0
    | .int z => some z
    | _ => none

def string (text : Text) : Codec Bytes where
  marshal s := .str (text.read s)
  unmarshal
    | .null => some []
    | .str s => some s
    | _ => none

/-- A slice that is not nil. -/
def slice (c : Codec α) : Codec (List α) where
  marshal xs := .arr (xs.map c.marshal)
  unmarshal
    | .null => some []
    | .arr xs => xs.mapM c.unmarshal
    | _ => none

/-- A slice that is nil if it is empty. -/
def nilSlice (c : Codec α) : Codec (List α) where
  marshal xs := if xs = [] then .null else c.slice.marshal xs
  unmarshal := c.slice.unmarshal

/-- A map, in the order of its keys. -/
def map (text : Text) (c : Codec ν) : Codec (Table Bytes ν) where
  marshal t := .obj ((t.listing (· ≤ ·)).map fun e => (text.read e.1, c.marshal e.2))
  unmarshal
    | .null => some ∅
    | .obj fields =>
      (fields.mapM fun f => (c.unmarshal f.2).map fun v => (f.1, v)).map
        (∅ : Table Bytes ν).insertAll
    | _ => none

end Codec

/-- The fields of a struct. -/
def Value.fields : Value → Option (Table Bytes Value)
  | .null => some ∅
  | .obj fs => some ((∅ : Table Bytes Value).insertAll fs)
  | _ => none

/-- One field of a struct, at zero if it is missing. -/
def Codec.field {α : Type} (c : Codec α) (fs : Table Bytes Value) (name : Bytes) : Option α :=
  c.unmarshal ((fs.lookup name).getD .null)

/-- A struct, some of whose fields are left out. -/
def Value.struct (fs : List (Bytes × Option Value)) : Value :=
  .obj (fs.filterMap fun f => f.2.map fun v => (f.1, v))

namespace Codec

variable {α : Type}

/-- A field that is left out if it is at zero. -/
def omitEmpty [DecidableEq α] (c : Codec α) (zero a : α) : Option Value :=
  if a = zero then none else some (c.marshal a)

/-- A pointer. -/
def pointer (c : Codec α) : Codec (Option α) where
  marshal
    | none => .null
    | some a => c.marshal a
  unmarshal
    | .null => some none
    | v => (c.unmarshal v).map some

end Codec

/-! ### What comes back -/

namespace Codec

variable {α ν : Type} {c : Codec α}

theorem keeps_int (z : ℤ) : int.Keeps z := rfl

theorem keeps_string (text : Text) {s : Bytes} (hs : Utf8 s) : (string text).Keeps s :=
  congrArg some (text.read_of_utf8 s hs)

theorem mapM_marshal {β : Type} {f : α → β} {g : β → Option α} {xs : List α}
    (h : ∀ x ∈ xs, g (f x) = some x) : (xs.map f).mapM g = some xs := by
  induction xs with
  | nil => rfl
  | cons x xs ih =>
    rw [List.map_cons, List.mapM_cons, h x List.mem_cons_self,
      ih fun y hy => h y (List.mem_cons_of_mem x hy)]
    rfl

theorem keeps_slice {xs : List α} (h : ∀ x ∈ xs, c.Keeps x) : c.slice.Keeps xs := mapM_marshal h

theorem keeps_nilSlice {xs : List α} (h : ∀ x ∈ xs, c.Keeps x) : c.nilSlice.Keeps xs := by
  unfold Keeps nilSlice
  dsimp only
  split
  · next hnil => rw [hnil]; rfl
  · exact keeps_slice h

theorem unmarshal_omitEmpty [DecidableEq α] {zero a : α} (hzero : c.unmarshal .null = some zero)
    (ha : c.Keeps a) : c.unmarshal ((c.omitEmpty zero a).getD .null) = some a := by
  unfold omitEmpty
  split
  · next h => rw [h]; exact hzero
  · exact ha

/-- **A field of a struct is read back**, whether it is left out or not. -/
theorem lookup_struct {fs : List (Bytes × Option Value)} (hnodup : (fs.map Prod.fst).Nodup)
    {name : Bytes} {o : Option Value} (h : (name, o) ∈ fs) :
    ((∅ : Table Bytes Value).insertAll
      (fs.filterMap fun f => f.2.map fun v => (f.1, v))).lookup name = o := by
  have hmem : ∀ v, (name, v) ∈ fs.filterMap (fun f => f.2.map fun v => (f.1, v)) ↔ o = some v := by
    intro v
    rw [List.mem_filterMap]
    constructor
    · rintro ⟨f, hf, heq⟩
      obtain ⟨v', hv', heq⟩ := Option.map_eq_some_iff.mp heq
      obtain ⟨hname, rfl⟩ := Prod.mk.inj heq
      -- the names are distinct
      have hsame : f = (name, o) := List.inj_on_of_nodup_map hnodup hf h hname
      rwa [hsame] at hv'
    · rintro rfl
      exact ⟨_, h, rfl⟩
  cases hnew : ((∅ : Table Bytes Value).insertAll
      (fs.filterMap fun f => f.2.map fun v => (f.1, v))).lookup name with
  | some v =>
    rcases Table.mem_of_lookup_insertAll hnew with hv | hv
    · exact ((hmem v).mp hv).symm
    · rw [AList.lookup_empty] at hv
      cases hv
  | none =>
    cases o with
    | none => rfl
    | some v => exact absurd hnew (Table.lookup_insertAll_ne_none (.inr ⟨v, (hmem v).mpr rfl⟩))

/-- A table is the same as its listing. -/
theorem lookup_insertAll_listing (t : Table Bytes ν) (k : Bytes) :
    ((∅ : Table Bytes ν).insertAll (t.listing (· ≤ ·))).lookup k = t.lookup k := by
  cases hnew : ((∅ : Table Bytes ν).insertAll (t.listing (· ≤ ·))).lookup k with
  | some v =>
    rcases Table.mem_of_lookup_insertAll hnew with hmem | hmem
    · exact ((Table.mem_listing _).mp hmem).symm
    · rw [AList.lookup_empty] at hmem
      cases hmem
  | none =>
    cases hold : t.lookup k with
    | none => rfl
    | some v =>
      exact absurd hnew (Table.lookup_insertAll_ne_none
        (.inr ⟨v, (Table.mem_listing (· ≤ ·)).mpr hold⟩))

/-- **A map comes back if its keys and values do.** -/
theorem map_keeps (text : Text) {c : Codec ν} {t : Table Bytes ν}
    (h : ∀ k v, t.lookup k = some v → Utf8 k ∧ c.Keeps v) :
    ∃ t', (map text c).unmarshal ((map text c).marshal t) = some t' ∧
      ∀ k, t'.lookup k = t.lookup k := by
  refine ⟨_, ?_, lookup_insertAll_listing t⟩
  unfold map
  dsimp only
  rw [mapM_marshal]
  · rfl
  · rintro ⟨k, v⟩ hmem
    obtain ⟨hk, hv⟩ := h k v ((Table.mem_listing _).mp hmem)
    dsimp only
    rw [hv, text.read_of_utf8 k hk]
    rfl

end Codec

end Json
