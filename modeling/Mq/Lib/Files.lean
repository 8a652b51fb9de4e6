import Mathlib.Data.List.Induction
import Mathlib.Data.List.Sort
import Mq.Lib.Decimal
import Mq.Lib.Table

/-!
# Files and directories

A file system as a map from cleaned paths to directories and files.  A name is a byte
string that can stand in a directory, a path is the list of the names on the way from the
root, and every entry of a file system lies in a directory.

## Main definitions

* `Plain`, `Name`, `Path` — names and cleaned paths.
* `join` — a path extended by a string, with the empty component and the components `.` and
  `..` resolved.
* `FileSystem` — a map from paths to entries in which every entry has its directory.
* `FileSystem.mkdirAll`, `writeFile`, `rename`, `readDir` — the operations; `none` stands
  for an error.

## Main results

* `join_plain` — a plain string is one component.
* `lookup_mkdirAll`, `lookup_writeFile`, `lookup_rename` — what a successful operation
  leaves at each path.
* `mem_readDir` — the listing of a directory.
-/

namespace Files

open Word

/-! ### Paths -/

/-- The byte string can be the name of an entry: it is not empty, not `.` or `..`, and has
no slash. -/
def Plain (c : Bytes) : Prop := c ≠ [] ∧ c ≠ [46] ∧ c ≠ [46, 46] ∧ 47 ∉ c

instance : DecidablePred Plain := fun _ => inferInstanceAs (Decidable (_ ∧ _))

/-- The name of an entry. -/
abbrev Name := { c : Bytes // Plain c }

/-- A cleaned path, from the root. -/
abbrev Path := List Name

/-- One component more: `..` goes up (from the root to the root), and an empty component or
`.` stays. -/
def push (p : Path) (c : Bytes) : Path :=
  if c = [46, 46] then p.dropLast
  else if h : Plain c then p ++ [⟨c, h⟩]
  else p

/-- A path extended by a string. -/
def join (p : Path) (elem : Bytes) : Path := (elem.splitOn 47).foldl push p

theorem join_plain (p : Path) {c : Bytes} (h : Plain c) : join p c = p ++ [⟨c, h⟩] := by
  have hsplit : c.splitOn 47 = [c] := by
    rw [List.splitOn, List.splitOnP_eq_singleton]
    intro x hx
    exact beq_false_of_ne fun heq => h.2.2.2 (heq ▸ hx)
  rw [join, hsplit, List.foldl_cons, List.foldl_nil, push, if_neg h.2.2.1, dif_pos h]

/-- A name with a number is plain if the name has no slash. -/
theorem plain_numbered {s : Bytes} (h : 47 ∉ s) (z : ℤ) :
    Plain (numbered s z) := by
  have hdash : (45 : UInt8) ∈ numbered s z := List.mem_append_right _ List.mem_cons_self
  have hno : ∀ c : Bytes, (45 : UInt8) ∉ c → numbered s z ≠ c := by
    rintro c hc rfl
    exact hc hdash
  refine ⟨hno [] (by decide), hno _ (by decide), hno _ (by decide), ?_⟩
  intro hmem
  rcases List.mem_append.mp hmem with hmem | hmem
  · exact h hmem
  · rcases List.mem_cons.mp hmem with heq | hmem
    · exact absurd heq (by decide)
    · rw [itoa] at hmem
      split at hmem
      · rcases List.mem_cons.mp hmem with heq | hmem
        · exact absurd heq (by decide)
        · exact absurd (digit_le_of_mem_decimal hmem) (by decide)
      · exact absurd (digit_le_of_mem_decimal hmem) (by decide)

theorem exists_splitOn_append (s : Bytes) {t : Bytes} (ht : 47 ∉ t) :
    ∃ init last, 47 ∉ last ∧ (s ++ t).splitOn 47 = init ++ [last ++ t] := by
  induction s with
  | nil =>
    refine ⟨[], [], by simp, ?_⟩
    rw [List.nil_append, List.splitOn, List.splitOnP_eq_singleton]
    · rfl
    · exact fun x hx => beq_false_of_ne fun heq => ht (heq ▸ hx)
  | cons c s ih =>
    obtain ⟨init, last, hlast, hsplit⟩ := ih
    rw [List.splitOn] at hsplit
    rw [List.cons_append, List.splitOn, List.splitOnP_cons_eq_if_modifyHead, hsplit]
    by_cases hc : c = 47
    · exact ⟨[] :: init, last, hlast, by simp [hc]⟩
    · cases init with
      | nil => exact ⟨[], c :: last, by simp [hlast, Ne.symm hc], by simp [hc]⟩
      | cons i init => exact ⟨(c :: i) :: init, last, hlast, by simp [hc]⟩

/-- A path that is extended by a name with a number ends in such a name. -/
theorem exists_join_numbered (p : Path) (s : Bytes) (z : ℤ) :
    ∃ (d : Path) (n : Name) (t : Bytes), join p (numbered s z) = d ++ [n] ∧ n.val = numbered t z := by
  have hslash : 47 ∉ 45 :: itoa z := (plain_numbered (s := []) (by simp) z).2.2.2
  obtain ⟨init, last, hlast, hsplit⟩ := exists_splitOn_append s hslash
  have hplain := plain_numbered hlast z
  refine ⟨init.foldl push p, ⟨_, hplain⟩, last, ?_, rfl⟩
  rw [join, numbered, hsplit, List.foldl_append, List.foldl_cons, List.foldl_nil]
  exact (if_neg hplain.2.2.1).trans (dif_pos hplain)

/-- The directory of a path, and the name in it. -/
def splitPath (p : Path) : Option (Path × Name) := p.getLast?.map fun n => (p.dropLast, n)

@[simp] theorem splitPath_snoc (p : Path) (n : Name) : splitPath (p ++ [n]) = some (p, n) := by
  simp [splitPath]

theorem splitPath_eq_some {p d : Path} {n : Name} : splitPath p = some (d, n) ↔ p = d ++ [n] := by
  constructor
  · intro h
    obtain ⟨m, hlast, heq⟩ := Option.map_eq_some_iff.mp h
    cases heq
    exact (List.dropLast_append_getLast? n hlast).symm
  · rintro rfl
    exact splitPath_snoc d n

/-! ### File systems -/

inductive Entry
  | dir
  | file (content : Bytes)
  deriving DecidableEq, Repr

/-- What a table holds at a path; the root is always a directory. -/
def entryAt (t : Table Path Entry) (p : Path) : Option Entry :=
  if p = [] then some .dir else t.lookup p

/-- A file system. -/
structure FileSystem where
  table : Table Path Entry
  /-- Every entry lies in a directory. -/
  tree : ∀ (p : Path) (n : Name), entryAt table (p ++ [n]) ≠ none → entryAt table p = some .dir

namespace FileSystem

variable {fs fs' : FileSystem} {p q d : Path} {n src dst : Name}

def lookup (fs : FileSystem) (p : Path) : Option Entry := entryAt fs.table p

@[simp] theorem lookup_nil (fs : FileSystem) : fs.lookup [] = some .dir := rfl

theorem lookup_snoc (fs : FileSystem) (p : Path) (n : Name) :
    fs.lookup (p ++ [n]) = fs.table.lookup (p ++ [n]) := if_neg (by simp)

/-- The file system with nothing but the root. -/
def empty : FileSystem := ⟨∅, fun p n h => absurd (if_neg (by simp)) h⟩

/-- An entry put into a directory, in the place of nothing or of a file. -/
def put (fs : FileSystem) (d : Path) (n : Name) (e : Entry) (hdir : fs.lookup d = some .dir)
    (hfile : fs.lookup (d ++ [n]) ≠ some .dir) : FileSystem where
  table := fs.table.insert (d ++ [n]) e
  tree := by
    have hat : ∀ q, q ≠ d ++ [n] →
        entryAt (fs.table.insert (d ++ [n]) e) q = fs.lookup q := by
      intro q hq
      rw [entryAt, lookup, entryAt, AList.lookup_insert_ne hq]
    intro p m hm
    by_cases hp : p ++ [m] = d ++ [n]
    · obtain ⟨rfl, -⟩ := List.append_inj' hp rfl
      rwa [hat _ (by simp)]
    · have hparent : fs.lookup p = some .dir := fs.tree p m (by rwa [hat _ hp] at hm)
      rwa [hat]
      rintro rfl
      exact hfile hparent

theorem lookup_put (hdir : fs.lookup d = some .dir) (hfile : fs.lookup (d ++ [n]) ≠ some .dir)
    (e : Entry) (q : Path) :
    (fs.put d n e hdir hfile).lookup q = if q = d ++ [n] then some e else fs.lookup q := by
  rw [lookup, entryAt]
  split
  · next hq => rw [hq, if_neg (by simp), lookup_nil]
  · next hq => rw [put, Table.lookup_insert_ite, lookup, entryAt, if_neg hq]

/-- An entry removed that is not a directory. -/
def remove (fs : FileSystem) (p : Path) (hfile : fs.lookup p ≠ some .dir) : FileSystem where
  table := fs.table.erase p
  tree := by
    have hat : ∀ q, q ≠ p → entryAt (fs.table.erase p) q = fs.lookup q := by
      intro q hq
      rw [entryAt, lookup, entryAt, AList.lookup_erase_ne hq]
    intro d n hn
    by_cases hp : d ++ [n] = p
    · rw [← hp, entryAt, if_neg (by simp), AList.lookup_erase] at hn
      exact absurd rfl hn
    · have hparent : fs.lookup d = some .dir := fs.tree d n (by rwa [hat _ hp] at hn)
      rwa [hat]
      rintro rfl
      exact hfile hparent

theorem lookup_remove (hfile : fs.lookup p ≠ some .dir) (q : Path) :
    (fs.remove p hfile).lookup q = if q = p then none else fs.lookup q := by
  have hp : p ≠ [] := by
    rintro rfl
    exact hfile rfl
  rw [lookup, entryAt]
  split
  · next hq => rw [hq, if_neg (fun h => hp h.symm), lookup_nil]
  · next hq => rw [remove, Table.lookup_erase_ite, lookup, entryAt, if_neg hq]

/-! ### Making directories -/

/-- The missing directories among `d ++ [c₁]`, `d ++ [c₁, c₂]`, …; a file on the way is an
error. -/
def mkdirFrom (fs : FileSystem) (d : Path) : List Name → Option FileSystem
  | [] => some fs
  | c :: cs =>
    match h : fs.lookup (d ++ [c]) with
    | some .dir => mkdirFrom fs (d ++ [c]) cs
    | some (.file _) => none
    | none =>
      if hdir : fs.lookup d = some .dir then
        mkdirFrom (fs.put d c .dir hdir (by rw [h]; simp)) (d ++ [c]) cs
      else none

/-- A directory with all its missing parents. -/
def mkdirAll (fs : FileSystem) (p : Path) : Option FileSystem := mkdirFrom fs [] p

/-- A path below `d` that is on the way to `d ++ c :: cs`. -/
theorem below_snoc_iff {c : Name} {cs : List Name} :
    (∃ x xs, q = d ++ x :: xs ∧ x :: xs <+: c :: cs) ↔
      q = d ++ [c] ∨ ∃ x xs, q = d ++ [c] ++ x :: xs ∧ x :: xs <+: cs := by
  constructor
  · rintro ⟨x, xs, rfl, hpre⟩
    obtain ⟨rfl, htail⟩ := List.cons_prefix_cons.mp hpre
    cases xs with
    | nil => exact .inl rfl
    | cons y ys => exact .inr ⟨y, ys, by simp, htail⟩
  · rintro (rfl | ⟨x, xs, rfl, hpre⟩)
    · exact ⟨c, [], rfl, List.cons_prefix_cons.mpr ⟨rfl, List.nil_prefix⟩⟩
    · exact ⟨c, x :: xs, by simp, List.cons_prefix_cons.mpr ⟨rfl, hpre⟩⟩

open Classical in
theorem lookup_mkdirFrom {cs : List Name} (h : fs.mkdirFrom d cs = some fs') (q : Path) :
    fs'.lookup q
      = if ∃ x xs, q = d ++ x :: xs ∧ x :: xs <+: cs then some .dir else fs.lookup q := by
  induction cs generalizing fs d with
  | nil =>
    cases h
    simp
  | cons c cs ih =>
    rw [mkdirFrom] at h
    simp only [below_snoc_iff]
    split at h
    · next hd =>
      rw [ih h]
      by_cases hq : q = d ++ [c]
      · rw [hq, hd]
        simp
      · simp only [hq, false_or]
    · cases h
    · next hn =>
      split at h
      · next hdir =>
        rw [ih h, lookup_put]
        by_cases hq : q = d ++ [c]
        · simp [hq]
        · simp only [hq, false_or, if_false]
      · cases h

/-- **What a directory with its parents adds.** -/
theorem lookup_mkdirAll (h : fs.mkdirAll p = some fs') (q : Path) :
    fs'.lookup q = if q <+: p then some .dir else fs.lookup q := by
  classical
  rw [lookup_mkdirFrom h]
  cases q with
  | nil => simp
  | cons x xs => simp

theorem lookup_mkdirAll_ne_none (h : fs.mkdirAll p = some fs') (hq : fs.lookup q ≠ none) :
    fs'.lookup q ≠ none := by
  rw [lookup_mkdirAll h]
  split
  · simp
  · exact hq

theorem lookup_of_append {cs : List Name} (h : fs.lookup (d ++ cs) = some .dir) :
    fs.lookup d = some .dir := by
  induction cs using List.reverseRecOn with
  | nil => rwa [List.append_nil] at h
  | append_singleton cs c ih =>
    rw [← List.append_assoc] at h
    exact ih (fs.tree _ c (by rw [← lookup, h]; simp))

/-- A directory that exists is made without a change. -/
theorem mkdirAll_of_dir (h : fs.lookup p = some .dir) : fs.mkdirAll p = some fs := by
  have hfrom : ∀ (cs : List Name) (d : Path), fs.lookup (d ++ cs) = some .dir →
      fs.mkdirFrom d cs = some fs := by
    intro cs
    induction cs with
    | nil => intro d _; rfl
    | cons c cs ih =>
      intro d hd
      have hd' : fs.lookup (d ++ [c] ++ cs) = some .dir := by rwa [List.append_assoc]
      rw [mkdirFrom]
      split
      · exact ih _ hd'
      · next heq => rw [lookup_of_append hd'] at heq; cases heq
      · next heq => rw [lookup_of_append hd'] at heq; cases heq
  exact hfrom p [] h

/-! ### Files -/

/-- A file written; an error if there is no such directory, or a directory of that name. -/
def writeFile (fs : FileSystem) (d : Path) (n : Name) (content : Bytes) : Option FileSystem :=
  if h : fs.lookup d = some .dir ∧ fs.lookup (d ++ [n]) ≠ some .dir then
    some (fs.put d n (.file content) h.1 h.2)
  else none

variable {content : Bytes}

theorem lookup_writeFile (h : fs.writeFile d n content = some fs') (q : Path) :
    fs'.lookup q = if q = d ++ [n] then some (.file content) else fs.lookup q := by
  rw [writeFile] at h
  split at h
  · cases h
    exact lookup_put _ _ _ q
  · cases h

/-- A new file is not a directory, and none was in its place. -/
theorem isDir_writeFile (h : fs.writeFile d n content = some fs') (q : Path) :
    fs'.lookup q = some .dir ↔ fs.lookup q = some .dir := by
  rw [lookup_writeFile h]
  split
  · next hq =>
    rw [writeFile] at h
    split at h
    · next hd => simp [hq, hd.2]
    · cases h
  · rfl

theorem lookup_writeFile_ne_none (h : fs.writeFile d n content = some fs')
    (hq : fs.lookup q ≠ none) : fs'.lookup q ≠ none := by
  rw [lookup_writeFile h]
  split
  · simp
  · exact hq

/-- A file renamed within its directory, in the place of what file there is; an error if
there is no such file, or a directory of the new name. -/
def rename (fs : FileSystem) (d : Path) (src dst : Name) : Option FileSystem :=
  match h : fs.lookup (d ++ [src]) with
  | some (.file content) =>
    if hdst : fs.lookup (d ++ [dst]) ≠ some .dir then
      some ((fs.remove (d ++ [src]) (by rw [h]; simp)).put d dst (.file content)
        (by
          rw [lookup_remove, if_neg (by simp)]
          exact fs.tree d src (by rw [← lookup, h]; simp))
        (by
          rw [lookup_remove]
          split
          · simp
          · exact hdst))
    else none
  | some .dir | none => none

theorem lookup_rename (hsrc : fs.lookup (d ++ [src]) = some (.file content))
    (h : fs.rename d src dst = some fs') (q : Path) :
    fs'.lookup q = if q = d ++ [dst] then some (.file content)
      else if q = d ++ [src] then none else fs.lookup q := by
  rw [rename] at h
  split at h
  · next content' hcontent =>
    rw [hsrc] at hcontent
    cases hcontent
    split at h
    · cases h
      rw [lookup_put, lookup_remove]
    · cases h
  · cases h
  · cases h

/-- Renaming a file makes no directory and removes none. -/
theorem isDir_rename (h : fs.rename d src dst = some fs') (q : Path) :
    fs'.lookup q = some .dir ↔ fs.lookup q = some .dir := by
  rw [rename] at h
  split at h
  · next content hsrc =>
    split at h
    · next hdst =>
      cases h
      rw [lookup_put, lookup_remove]
      split
      · next hq => simp [hq, hdst]
      · split
        · next hq => simp [hq, hsrc]
        · rfl
    · cases h
  · cases h
  · cases h

/-! ### Listing a directory -/

/-- The entry of a table, if it is in the directory `d`. -/
def childOf (d : Path) (e : (_ : Path) × Entry) : Option (Name × Entry) :=
  (splitPath e.1).bind fun x => if x.1 = d then some (x.2, e.2) else none

/-- The entries of a directory, in the order of their names. -/
def readDir (fs : FileSystem) (d : Path) : List (Name × Entry) :=
  (fs.table.entries.filterMap (childOf d)).insertionSort fun a b => a.1.val ≤ b.1.val

theorem childOf_eq_some {e : (_ : Path) × Entry} {x : Name × Entry} :
    childOf d e = some x ↔ e = ⟨d ++ [x.1], x.2⟩ := by
  rcases e with ⟨p, e⟩
  rcases x with ⟨n, e'⟩
  rw [childOf, Option.bind_eq_some_iff]
  constructor
  · rintro ⟨⟨p', m⟩, hsplit, hif⟩
    rw [splitPath_eq_some] at hsplit
    subst hsplit
    split at hif
    · next heq =>
      dsimp only at heq
      cases hif
      rw [heq]
    · cases hif
  · intro h
    cases h
    exact ⟨(d, n), splitPath_snoc d n, if_pos rfl⟩

theorem mem_readDir {e : Entry} : (n, e) ∈ fs.readDir d ↔ fs.lookup (d ++ [n]) = some e := by
  rw [readDir, List.mem_insertionSort, List.mem_filterMap, lookup_snoc]
  simp only [childOf_eq_some]
  constructor
  · rintro ⟨-, hmem, rfl⟩
    exact AList.mem_lookup_iff.mpr hmem
  · intro h
    exact ⟨_, AList.mem_lookup_iff.mp h, rfl⟩

end FileSystem
end Files
