import Mq.Lib.Transition
import Mq.Object.Storage

/-!
# A node of the object backend, step by step

The storage is shared by the producers' threads, the uploader and retention.  An
append takes the lock of the write-ahead log and then the lock of the buffer, and
an upload holds neither between its steps, so each of these is a step of its own.
A schedule is a list of actions; an action that is not possible in a state leaves
it alone.

## Main definitions

* `Phase` — how far the upload under way has come.
* `Node`, `Action`, `Node.step` — the machine.

## Main results

* `Node.append_cases`, `Node.swap_cases`, `Node.rotate_cases` and so on — everything
  that an action can do.
-/

namespace Mq
namespace Object

open Word Record Transition

/-! ### The machine -/

/-- An upload holds what it took from the buffer until it returns. -/
inductive Phase
  | idle
  | swapped (snap : Table Bytes PendingPart) (seq : ℕ)
  | rotated (snap : Table Bytes PendingPart) (seq sealedThrough : ℕ)
  | committing (snap : Table Bytes PendingPart) (commits : List Commit) (sealedThrough : ℕ)

/-- The refs that an upload has still to commit. -/
def Phase.commits : Phase → List Commit
  | .committing _ cs _ => cs
  | _ => []

/-- An append that has written its record and not yet buffered its batch. -/
structure InFlight where
  record : WalRecord
  next : ℤ
  replica : Bool
  deriving DecidableEq, Repr

/-- The storage, the open handles, the appends under way (a handle's lock lets one
through at a time) and the upload under way. -/
structure Node where
  storage : Storage
  logs : Table Bytes ObjectLog
  appending : Table Bytes InFlight
  phase : Phase
  /-- The process runs; it does not when the storage could not be opened. -/
  up : Bool

inductive Action
  /-- A partition's handle is opened. -/
  | openLog (topic : Bytes) (partition : ℤ)
  /-- A producer's batch is written to the write-ahead log. -/
  | append (topic : Bytes) (partition : ℤ) (batch : Bytes)
  /-- A batch of the leader is written to the write-ahead log. -/
  | appendReplica (topic : Bytes) (partition : ℤ) (batch : Bytes)
  /-- The batch written before is put into the buffer, and the append returns. -/
  | addPending (topic : Bytes) (partition : ℤ)
  /-- An upload takes the buffer. -/
  | swap
  /-- It seals the write-ahead log, or fails to. -/
  | rotate (fault : Option RotateFault)
  /-- It puts its object. -/
  | put (nowMs : ℤ)
  /-- The put fails, before or after the store has taken the object. -/
  | putFail (nowMs : ℤ) (stored : Bool)
  /-- It commits its next ref. -/
  | commit
  /-- The commit fails, before or after the index store has recorded the ref. -/
  | commitFail (stored : Bool)
  /-- It deletes the sealed segments. -/
  | trim
  /-- A retention pass over one partition. -/
  | enforceRetention (topic : Bytes) (partition : ℤ) (nowMs maxAgeMs maxBytes : ℤ)
  /-- The process ends, at whatever point it is, and a new one opens the storage. -/
  | restart
  deriving DecidableEq, Repr

/-- A node on an empty disk. -/
def Node.fresh (nodeID : Bytes) : Node where
  storage :=
    { nodeID := nodeID, objects := ∅, index := ⟨∅, ∅⟩, wal := openWal [], pending := ∅
      pendingBytes := 0, uploadSeq := 0, recBase := ∅, recNext := ∅ }
  logs := ∅
  appending := ∅
  phase := .idle
  up := true

namespace Node

/-- The committed refs of a partition. -/
def committed (n : Node) (k : Bytes) : List SegmentRef := n.storage.index.store.load k

def openLog (n : Node) (topic : Bytes) (partition : ℤ) : Node :=
  match n.logs.lookup (indexKey topic partition) with
  | some _ => n
  | none =>
    { n with
      storage := (n.storage.log topic partition).1
      logs := n.logs.insert (indexKey topic partition) (n.storage.log topic partition).2 }

/-- The first half of an append.  It fails when the write-ahead log does. -/
def write (n : Node) (rec : WalRecord) (next : ℤ) (replica : Bool) : Node :=
  match n.storage.wal.append rec with
  | none => n
  | some w =>
    { n with
      storage := { n.storage with wal := w }
      appending := n.appending.insert rec.indexKey ⟨rec, next, replica⟩ }

/-- The handle that an append can start on: it is open and its lock is free. -/
def free (n : Node) (k : Bytes) : Option ObjectLog :=
  match n.appending.lookup k with
  | some _ => none
  | none => n.logs.lookup k

/-- The patches of the header index the batch up to byte 21. -/
def append (n : Node) (topic : Bytes) (partition : ℤ) (batch : Bytes) : Node :=
  match n.free (indexKey topic partition) with
  | none => n
  | some l =>
    if batch.length < offAttributes then n
    else
      let b := recomputeCRC (setBaseOffset batch l.nextOffset)
      match parseHeader b with
      | .error _ => n
      | .ok h => n.write ⟨topic, partition, l.nextOffset, b⟩ (wrap64 (h.lastOffset + 1)) false

/-- A batch below the log end is taken for a repetition, and one above it is
refused. -/
def appendReplica (n : Node) (topic : Bytes) (partition : ℤ) (batch : Bytes) : Node :=
  match n.free (indexKey topic partition) with
  | none => n
  | some l =>
    match parseHeader batch with
    | .error _ => n
    | .ok h =>
      if h.baseOffset < l.nextOffset then n
      else if l.nextOffset < h.baseOffset then n
      else n.write ⟨topic, partition, h.baseOffset, batch⟩ (wrap64 (h.lastOffset + 1)) true

def addPending (n : Node) (k : Bytes) : Node :=
  match n.appending.lookup k with
  | none => n
  | some f =>
    { n with
      storage := n.storage.appendPending f.record f.next
      logs := match n.logs.lookup k with
        | none => n.logs
        | some l => n.logs.insert k (l.advance f.next f.replica)
      appending := n.appending.erase k }

def swap (n : Node) : Node :=
  match n.phase with
  | .idle =>
    match n.storage.takePending with
    | none => n
    | some (s, snap) => { n with storage := s, phase := .swapped snap s.uploadSeq }
  | _ => n

def rotate (n : Node) (fault : Option RotateFault) : Node :=
  match n.phase with
  | .swapped snap seq =>
    match n.storage.wal.rotate fault with
    | (w, none) =>
      { n with storage := Storage.restore { n.storage with wal := w } snap, phase := .idle }
    | (w, some sealedThrough) =>
      { n with storage := { n.storage with wal := w }, phase := .rotated snap seq sealedThrough }
  | _ => n

def put (n : Node) (nowMs : ℤ) : Node :=
  match n.phase with
  | .rotated snap seq sealedThrough =>
    let key := objectKey n.storage.nodeID seq
    let (buf, commits) := assemble key nowMs snap
    { n with storage := n.storage.put key buf, phase := .committing snap commits sealedThrough }
  | _ => n

def putFail (n : Node) (nowMs : ℤ) (stored : Bool) : Node :=
  match n.phase with
  | .rotated snap seq _ =>
    let key := objectKey n.storage.nodeID seq
    let s := if stored then n.storage.put key (assemble key nowMs snap).1 else n.storage
    { n with storage := s.restore snap, phase := .idle }
  | _ => n

def commit (n : Node) : Node :=
  match n.phase with
  | .committing snap (c :: commits) sealedThrough =>
    { n with storage := n.storage.commitRef c, phase := .committing snap commits sealedThrough }
  | _ => n

/-- The upload returns the error, and what it took is not put back. -/
def commitFail (n : Node) (stored : Bool) : Node :=
  match n.phase with
  | .committing _ (c :: _) _ =>
    { n with storage := if stored then n.storage.storeRef c else n.storage, phase := .idle }
  | _ => n

def trim (n : Node) : Node :=
  match n.phase with
  | .committing _ [] sealedThrough =>
    { n with storage := n.storage.trim sealedThrough, phase := .idle }
  | _ => n

/-- Retention takes the lock of the handle. -/
def enforceRetention (n : Node) (k : Bytes) (nowMs maxAgeMs maxBytes : ℤ) : Node :=
  match n.free k with
  | none => n
  | some l =>
    let (s, e) := n.storage.enforceRetention k nowMs maxAgeMs maxBytes
    { n with storage := s, logs := n.logs.insert k (l.raiseEarliest e) }

/-- The objects, the refs and the segments are what a new process starts from.  It
gives up if a record cannot be replayed. -/
def restart (n : Node) : Node :=
  match newStorage n.storage.nodeID n.storage.objects n.storage.index.store
      n.storage.wal.segments with
  | .ok s => ⟨s, ∅, ∅, .idle, true⟩
  | .error _ =>
    { n with
      storage := { n.storage with wal := openWal n.storage.wal.segments }
      phase := .idle
      up := false }

/-- An action of a running process. -/
def act (n : Node) : Action → Node
  | .openLog topic partition => n.openLog topic partition
  | .append topic partition batch => n.append topic partition batch
  | .appendReplica topic partition batch => n.appendReplica topic partition batch
  | .addPending topic partition => n.addPending (indexKey topic partition)
  | .swap => n.swap
  | .rotate fault => n.rotate fault
  | .put nowMs => n.put nowMs
  | .putFail nowMs stored => n.putFail nowMs stored
  | .commit => n.commit
  | .commitFail stored => n.commitFail stored
  | .trim => n.trim
  | .enforceRetention topic partition nowMs maxAgeMs maxBytes =>
    n.enforceRetention (indexKey topic partition) nowMs maxAgeMs maxBytes
  | .restart => n.restart

def step (n : Node) (a : Action) : Node :=
  if n.up then n.act a else if a = .restart then n.restart else n

/-! ### What the actions can do -/

variable (n : Node)

theorem write_cases (rec : WalRecord) (next : ℤ) (replica : Bool) :
    n.write rec next replica = n ∨
      ∃ w, n.storage.wal.append rec = some w ∧
        n.write rec next replica =
          { n with
            storage := { n.storage with wal := w }
            appending := n.appending.insert rec.indexKey ⟨rec, next, replica⟩ } := by
  rw [write]
  cases h : n.storage.wal.append rec with
  | none => exact .inl rfl
  | some w => exact .inr ⟨w, rfl, rfl⟩

theorem free_eq_some {n : Node} {k : Bytes} {l : ObjectLog} (h : n.free k = some l) :
    n.appending.lookup k = none ∧ n.logs.lookup k = some l := by
  rw [free] at h
  cases hf : n.appending.lookup k with
  | none => rw [hf] at h; exact ⟨rfl, h⟩
  | some f => rw [hf] at h; exact absurd h (by simp)

/-- An append writes the batch at the log end, stamped with it. -/
theorem append_cases (topic : Bytes) (partition : ℤ) (batch : Bytes) :
    n.append topic partition batch = n ∨
      ∃ l, n.free (indexKey topic partition) = some l ∧
        parseHeader (stamp l.nextOffset batch) = .ok (header (stamp l.nextOffset batch)) ∧
        headerSize ≤ batch.length ∧
        n.append topic partition batch =
          n.write ⟨topic, partition, l.nextOffset, stamp l.nextOffset batch⟩
            (nextOf (stamp l.nextOffset batch)) false := by
  rw [append]
  cases hf : n.free (indexKey topic partition) with
  | none => exact .inl rfl
  | some l =>
    dsimp only
    split
    · exact .inl rfl
    · next hlen =>
      cases hp : parseHeader (recomputeCRC (setBaseOffset batch l.nextOffset)) with
      | error e => exact .inl rfl
      | ok h =>
        obtain ⟨hsize, -, rfl⟩ := parseHeader_eq_ok.mp hp
        exact .inr ⟨l, rfl, hp, headerSize_le_of_stamp (Nat.le_of_not_lt hlen) hsize, rfl⟩

/-- A replica's batch is written as it is, when it starts at the log end. -/
theorem appendReplica_cases (topic : Bytes) (partition : ℤ) (batch : Bytes) :
    n.appendReplica topic partition batch = n ∨
      ∃ l, n.free (indexKey topic partition) = some l ∧
        parseHeader batch = .ok (header batch) ∧
        (header batch).baseOffset = l.nextOffset ∧
        n.appendReplica topic partition batch =
          n.write ⟨topic, partition, (header batch).baseOffset, batch⟩ (nextOf batch) true := by
  rw [appendReplica]
  cases hf : n.free (indexKey topic partition) with
  | none => exact .inl rfl
  | some l =>
    cases hp : parseHeader batch with
    | error e => exact .inl rfl
    | ok h =>
      obtain ⟨-, -, rfl⟩ := parseHeader_eq_ok.mp hp
      dsimp only
      split
      · exact .inl rfl
      · split
        · exact .inl rfl
        · exact .inr ⟨l, rfl, rfl, by omega, rfl⟩

/-- A batch whose header does not parse is refused. -/
theorem append_of_not_parses {batch : Bytes}
    (hb : ¬ (headerSize ≤ batch.length ∧ (header batch).magic = 2)) (topic : Bytes)
    (partition : ℤ) : n.append topic partition batch = n := by
  rcases n.append_cases topic partition batch with hn | ⟨l, -, hparse, hlen, -⟩
  · exact hn
  · obtain ⟨-, hmagic, -⟩ := parseHeader_eq_ok.mp hparse
    rw [header_stamp hlen] at hmagic
    exact absurd ⟨hlen, hmagic⟩ hb

theorem appendReplica_of_not_parses {batch : Bytes}
    (hb : ¬ (headerSize ≤ batch.length ∧ (header batch).magic = 2)) (topic : Bytes)
    (partition : ℤ) : n.appendReplica topic partition batch = n := by
  rcases n.appendReplica_cases topic partition batch with hn | ⟨l, -, hparse, -⟩
  · exact hn
  · obtain ⟨hlen, hmagic, -⟩ := parseHeader_eq_ok.mp hparse
    exact absurd ⟨hlen, hmagic⟩ hb

theorem swap_cases :
    n.swap = n ∨ n.phase = .idle ∧ n.storage.pending.entries ≠ [] ∧
      n.swap = { n with
        storage := { n.storage with
          pending := ∅, pendingBytes := 0, uploadSeq := n.storage.uploadSeq + 1 }
        phase := .swapped n.storage.pending (n.storage.uploadSeq + 1) } := by
  rw [swap]
  cases hp : n.phase with
  | idle =>
    dsimp only
    rw [Storage.takePending]
    by_cases he : n.storage.pending.entries = []
    · rw [if_pos he]; exact .inl rfl
    · rw [if_neg he]; exact .inr ⟨rfl, he, rfl⟩
  | swapped | rotated | committing => exact .inl rfl

theorem rotate_cases (fault : Option RotateFault) :
    n.rotate fault = n ∨ ∃ snap seq, n.phase = .swapped snap seq ∧
      ((∃ w, n.storage.wal.rotate fault = (w, none) ∧ n.rotate fault =
          { n with storage := Storage.restore { n.storage with wal := w } snap, phase := .idle }) ∨
        ∃ w sealedThrough, n.storage.wal.rotate fault = (w, some sealedThrough) ∧
          n.rotate fault = { n with
            storage := { n.storage with wal := w }
            phase := .rotated snap seq sealedThrough }) := by
  rw [rotate]
  cases hp : n.phase with
  | swapped snap seq =>
    refine .inr ⟨snap, seq, rfl, ?_⟩
    rcases hr : n.storage.wal.rotate fault with ⟨w, _ | sealedThrough⟩
    · exact .inl ⟨w, rfl, rfl⟩
    · exact .inr ⟨w, sealedThrough, rfl, rfl⟩
  | idle | rotated | committing => exact .inl rfl

theorem put_cases (nowMs : ℤ) :
    n.put nowMs = n ∨ ∃ snap seq sealedThrough, n.phase = .rotated snap seq sealedThrough ∧
      n.put nowMs = { n with
        storage := n.storage.put (objectKey n.storage.nodeID seq)
          (assemble (objectKey n.storage.nodeID seq) nowMs snap).1
        phase := .committing snap (assemble (objectKey n.storage.nodeID seq) nowMs snap).2
          sealedThrough } := by
  rw [put]
  cases hp : n.phase with
  | rotated snap seq sealedThrough => exact .inr ⟨snap, seq, sealedThrough, rfl, rfl⟩
  | idle | swapped | committing => exact .inl rfl

theorem putFail_cases (nowMs : ℤ) (stored : Bool) :
    n.putFail nowMs stored = n ∨
      ∃ snap seq sealedThrough, n.phase = .rotated snap seq sealedThrough ∧
        ∃ s, (s = n.storage ∨ s = n.storage.put (objectKey n.storage.nodeID seq)
            (assemble (objectKey n.storage.nodeID seq) nowMs snap).1) ∧
          n.putFail nowMs stored = { n with storage := s.restore snap, phase := .idle } := by
  rw [putFail]
  cases hp : n.phase with
  | rotated snap seq sealedThrough =>
    refine .inr ⟨snap, seq, sealedThrough, rfl, _, ?_, rfl⟩
    cases stored with
    | false => exact .inl rfl
    | true => exact .inr rfl
  | idle | swapped | committing => exact .inl rfl

theorem commit_cases :
    n.commit = n ∨ ∃ snap c cs sealedThrough, n.phase = .committing snap (c :: cs) sealedThrough ∧
      n.commit = { n with
        storage := n.storage.commitRef c, phase := .committing snap cs sealedThrough } := by
  rw [commit]
  cases hp : n.phase with
  | committing snap cs sealedThrough =>
    cases cs with
    | nil => exact .inl rfl
    | cons c cs => exact .inr ⟨snap, c, cs, sealedThrough, rfl, rfl⟩
  | idle | swapped | rotated => exact .inl rfl

theorem commitFail_cases (stored : Bool) :
    n.commitFail stored = n ∨ ∃ snap c cs sealedThrough,
      n.phase = .committing snap (c :: cs) sealedThrough ∧
        (n.commitFail stored = { n with phase := .idle } ∨
          n.commitFail stored = { n with storage := n.storage.storeRef c, phase := .idle }) := by
  rw [commitFail]
  cases hp : n.phase with
  | committing snap cs sealedThrough =>
    cases cs with
    | nil => exact .inl rfl
    | cons c cs =>
      refine .inr ⟨snap, c, cs, sealedThrough, rfl, ?_⟩
      cases stored with
      | false => exact .inl rfl
      | true => exact .inr rfl
  | idle | swapped | rotated => exact .inl rfl

theorem trim_cases :
    n.trim = n ∨ ∃ snap sealedThrough, n.phase = .committing snap [] sealedThrough ∧
      n.trim = { n with storage := n.storage.trim sealedThrough, phase := .idle } := by
  rw [trim]
  cases hp : n.phase with
  | committing snap cs sealedThrough =>
    cases cs with
    | nil => exact .inr ⟨snap, sealedThrough, rfl, rfl⟩
    | cons c cs => exact .inl rfl
  | idle | swapped | rotated => exact .inl rfl

/-- A retention pass drops nothing, or prunes the refs up to a cutoff. -/
theorem enforceRetention_cases (k : Bytes) (nowMs maxAgeMs maxBytes : ℤ) :
    n.enforceRetention k nowMs maxAgeMs maxBytes = n ∨ ∃ l, n.free k = some l ∧
      (n.enforceRetention k nowMs maxAgeMs maxBytes = { n with logs := n.logs.insert k l } ∨
        ∃ (d : ℕ) (r : SegmentRef), (n.storage.index.refsFor k)[d]? = some r ∧
          n.storage.enforceRetention k nowMs maxAgeMs maxBytes
            = (n.storage.pruned k r.nextOffset, some r.nextOffset) ∧
          n.enforceRetention k nowMs maxAgeMs maxBytes =
            { n with
              storage := n.storage.pruned k r.nextOffset
              logs := n.logs.insert k (l.raiseEarliest (some r.nextOffset)) }) := by
  rw [enforceRetention]
  cases hf : n.free k with
  | none => exact .inl rfl
  | some l =>
    refine .inr ⟨l, rfl, ?_⟩
    dsimp only
    rcases n.storage.enforceRetention_cases k nowMs maxAgeMs maxBytes with
      hr | ⟨d, r, hget, hr⟩ <;> rw [hr]
    · exact .inl rfl
    · exact .inr ⟨d, r, hget, rfl, rfl⟩

end Node

/-! ### Actions that leave the objects and the refs alone -/

/-- Opening a partition, and the two halves of an append. -/
def Action.Local : Action → Prop
  | .openLog _ _ | .append _ _ _ | .appendReplica _ _ _ | .addPending _ _ => True
  | _ => False

/-- The same objects, refs, upload number and upload under way. -/
structure SameObjects (n n' : Node) : Prop where
  nodeID : n'.storage.nodeID = n.storage.nodeID
  objects : n'.storage.objects = n.storage.objects
  store : n'.storage.index.store = n.storage.index.store
  uploadSeq : n'.storage.uploadSeq = n.storage.uploadSeq
  phase : n'.phase = n.phase
  up : n'.up = n.up

namespace SameObjects

theorem refl (n : Node) : SameObjects n n := ⟨rfl, rfl, rfl, rfl, rfl, rfl⟩

theorem write (n : Node) (rec : WalRecord) (next : ℤ) (replica : Bool) :
    SameObjects n (n.write rec next replica) := by
  rcases n.write_cases rec next replica with hn | ⟨w, -, hn⟩ <;> rw [hn]
  · exact refl n
  · exact ⟨rfl, rfl, rfl, rfl, rfl, rfl⟩

theorem addPending (n : Node) (k : Bytes) : SameObjects n (n.addPending k) := by
  rw [Node.addPending]
  split
  · exact refl n
  · exact ⟨rfl, rfl, rfl, rfl, rfl, rfl⟩

theorem act (n : Node) {a : Action} (ha : a.Local) : SameObjects n (n.act a) := by
  cases a with
  | openLog topic partition =>
    rw [Node.act, Node.openLog]
    split
    · exact refl n
    · exact ⟨rfl, rfl, rfl, rfl, rfl, rfl⟩
  | append topic partition batch =>
    rw [Node.act]
    rcases n.append_cases topic partition batch with hn | ⟨l, -, -, -, hn⟩ <;> rw [hn]
    · exact refl n
    · exact write n _ _ _
  | appendReplica topic partition batch =>
    rw [Node.act]
    rcases n.appendReplica_cases topic partition batch with hn | ⟨l, -, -, -, hn⟩ <;> rw [hn]
    · exact refl n
    · exact write n _ _ _
  | addPending topic partition => exact addPending n _
  | _ => exact absurd ha id

end SameObjects

end Object
end Mq
