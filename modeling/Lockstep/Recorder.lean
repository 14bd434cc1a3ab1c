import Lockstep.Snapshot

/-!
# Evidence of a running transaction

Reads are recorded once per key, with what the first read saw; writes keep the last value per key;
statements are kept in the order they were issued, across all contracts.
-/

namespace Lockstep

/-- Schema statements outlive a failed transaction, row statements do not. -/
inductive StatementKind where
  | dml
  | ddl
  deriving DecidableEq, Repr

structure Record where
  contract : String
  statement : Bytes
  kind : StatementKind
  deriving DecidableEq, Repr

def Record.toWrite (r : Record) : Write := ⟨StateKey.record r.contract, some r.statement⟩

structure Recorder where
  reads : SortedMap StateKey (Option Bytes × ReadVersion) := .empty
  writes : PendingWrites := .empty
  records : List Record := []

namespace Recorder

/-- The value a read is served with without asking the state: a pending write first, then an
earlier read. -/
def known? (r : Recorder) (k : StateKey) : Option (Option Bytes) :=
  match r.writes.find? k with
  | some value => some value
  | none => (r.reads.find? k).map (·.1)

/-- The first read of a key is the one kept. -/
def noteRead (r : Recorder) (k : StateKey) (value : Option Bytes) (version : ReadVersion) :
    Recorder :=
  if r.reads.contains k then r else { r with reads := r.reads.insert k (value, version) }

def noteWrite (r : Recorder) (k : StateKey) (value : Option Bytes) : Recorder :=
  { r with writes := r.writes.insert k value }

def noteRecord (r : Recorder) (record : Record) : Recorder :=
  { r with records := r.records ++ [record] }

@[simp] theorem known?_noteWrite_self (r : Recorder) (k : StateKey) (value : Option Bytes) :
    (r.noteWrite k value).known? k = some value := by
  simp [known?, noteWrite]

theorem known?_noteWrite_of_ne (r : Recorder) {k k' : StateKey} (value : Option Bytes)
    (h : k' ≠ k) : (r.noteWrite k value).known? k' = r.known? k' := by
  simp [known?, noteWrite, SortedMap.find?_insert_of_ne _ _ h]

@[simp] theorem known?_noteRecord (r : Recorder) (record : Record) (k : StateKey) :
    (r.noteRecord record).known? k = r.known? k := rfl

theorem reads_eq_none_of_known? {r : Recorder} {k : StateKey} (h : r.known? k = none) :
    r.reads.find? k = none := by
  unfold known? at h
  split at h
  · cases h
  · simpa using h

@[simp] theorem writes_noteRead (r : Recorder) (k : StateKey) (value : Option Bytes)
    (version : ReadVersion) : (r.noteRead k value version).writes = r.writes := by
  unfold noteRead
  split <;> rfl

/-- The first read of a key goes into the recorder. -/
theorem reads_noteRead {r : Recorder} {k : StateKey} (hnew : r.reads.find? k = none)
    (value : Option Bytes) (version : ReadVersion) :
    (r.noteRead k value version).reads = r.reads.insert k (value, version) := by
  simp [noteRead, SortedMap.contains, hnew]

theorem known?_noteRead_self {r : Recorder} {k : StateKey} (h : r.known? k = none)
    (value : Option Bytes) (version : ReadVersion) :
    (r.noteRead k value version).known? k = some value := by
  have hwrites : r.writes.find? k = none := by
    unfold known? at h
    split at h
    · cases h
    · assumption
  simp [known?, hwrites, reads_noteRead (reads_eq_none_of_known? h)]

theorem known?_noteRead_of_ne (r : Recorder) {k k' : StateKey} (value : Option Bytes)
    (version : ReadVersion) (h : k' ≠ k) :
    (r.noteRead k value version).known? k' = r.known? k' := by
  unfold noteRead
  split
  · rfl
  · simp [known?, SortedMap.find?_insert_of_ne _ _ h]

/-- Every recorded read in key order, also of a transaction that fails later. -/
def observedReads (r : Recorder) : List Read :=
  r.reads.entries.map fun (k, value, version) => ⟨k, value, version⟩

/-- The set of a successful transaction: reads and writes in key order, then the statements. -/
def successSet (r : Recorder) (txId : String) : RWSet where
  txId
  reads := r.observedReads
  writes := (r.writes.entries.map fun (k, value) => ⟨k, value⟩) ++ r.records.map Record.toWrite

/-- What a failed transaction leaves: its schema statements. -/
def failureSet (r : Recorder) (txId : String) : RWSet where
  txId
  reads := []
  writes := (r.records.filter (·.kind == .ddl)).map Record.toWrite

end Recorder

end Lockstep
