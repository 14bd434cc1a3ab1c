import Lockstep.Backend
import Lockstep.Transaction

/-!
# Snapshots

The view of a block under construction: the durable state overlaid with the writes of the
transactions merged so far, each with the index of its writer. A sealed snapshot takes no further
writes.
-/

namespace Lockstep

inductive SnapshotError where
  | isSealed (height : Nat)
  | storage (message : String)
  deriving DecidableEq, Repr

def SnapshotError.message : SnapshotError → String
  | .isSealed height => "snapshot anchored at height " ++ toString height ++ " is sealed"
  | .storage message => "storage error: " ++ message

structure Snapshot where
  info : BlockInfo
  /-- Last merged writer of a key, and what it wrote. -/
  cache : SortedMap StateKey (TxIndex × Option Bytes) := .empty
  results : List TxResult := []
  isSealed : Bool := false

/-- Pending writes of the transaction that reads; no value is a deletion. -/
abbrev PendingWrites := SortedMap StateKey (Option Bytes)

/-- How a read was resolved. Only versioned reads are evidence. -/
inductive ReadOutcome where
  | own (value : Option Bytes)
  | versioned (value : Option Bytes) (version : ReadVersion)
  deriving DecidableEq, Repr

namespace Snapshot

def height (s : Snapshot) : Nat := s.info.height

/-- The version that a read of `k` sees now. -/
def version (s : Snapshot) (k : StateKey) : ReadVersion :=
  match s.cache.find? k with
  | some (writer, _) => .inBlock writer
  | none => .storage

/-- A read below the reader's own writes: merged writes first, then the store. -/
def read (s : Snapshot) (k : StateKey) (b : Backend) :
    Except SnapshotError (Option Bytes × ReadVersion) × Backend :=
  match s.cache.find? k with
  | some (writer, value) => (.ok (value, .inBlock writer), b)
  | none =>
    let (value, b) := b.read k
    ((value.mapError .storage).map fun v => (v, .storage), b)

def get (s : Snapshot) (k : StateKey) (own : PendingWrites) (b : Backend) :
    Except SnapshotError ReadOutcome × Backend :=
  match own.find? k with
  | some value => (.ok (.own value), b)
  | none =>
    let (seen, b) := s.read k b
    (seen.map fun (value, version) => .versioned value version, b)

def mergeWrite (writer : TxIndex) (cache : SortedMap StateKey (TxIndex × Option Bytes))
    (w : Write) : SortedMap StateKey (TxIndex × Option Bytes) :=
  if w.isRecord then cache else cache.insert w.key (writer, w.value)

/-- Merges the ordinary writes of a finished transaction. -/
def apply (s : Snapshot) (writer : TxIndex) (set : RWSet) : Except SnapshotError Snapshot :=
  if s.isSealed then .error (.isSealed s.height)
  else .ok { s with cache := set.writes.foldl (mergeWrite writer) s.cache }

def recordResult (s : Snapshot) (r : TxResult) : Snapshot := { s with results := s.results ++ [r] }

def close (s : Snapshot) : Snapshot := { s with isSealed := true }

theorem apply_of_isSealed {s : Snapshot} (h : s.isSealed = true) (writer : TxIndex) (set : RWSet) :
    s.apply writer set = .error (.isSealed s.height) := by
  simp [apply, h]

@[simp] theorem isSealed_close (s : Snapshot) : s.close.isSealed = true := rfl

@[simp] theorem cache_close (s : Snapshot) : s.close.cache = s.cache := rfl

@[simp] theorem cache_recordResult (s : Snapshot) (r : TxResult) :
    (s.recordResult r).cache = s.cache := rfl

/-- The net effect of the merged transactions, in key order. -/
def finalWrites (s : Snapshot) : List Write :=
  s.cache.entries.map fun (k, _, value) => ⟨k, value⟩

end Snapshot

end Lockstep
