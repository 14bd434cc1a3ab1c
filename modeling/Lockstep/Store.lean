import Lockstep.Cursor
import Lockstep.RWSet

/-!
# The durable store

The state of the previous block: values under flat keys, byte codes under contract names, and, in
the relational variant, rows under contract names. Queries ignore the statement and give every row
of the contract.
-/

namespace Lockstep

structure Store where
  values : SortedMap Bytes Bytes := .empty
  byteCodes : SortedMap String Bytes := .empty
  /-- Present in the relational variant only. -/
  tables : Option (SortedMap String (List Row)) := none

namespace Store

def relational : Store := { tables := some .empty }

def isRelational (s : Store) : Bool := s.tables.isSome

def size (s : Store) : Nat := s.values.size

def setValue (s : Store) (k : StateKey) (v : Bytes) : Store :=
  { s with values := s.values.insert k.encode v }

def removeValue (s : Store) (k : StateKey) : Store :=
  { s with values := s.values.erase k.encode }

def ofValues (pairs : List (StateKey × Bytes)) : Store :=
  pairs.foldl (fun s p => s.setValue p.1 p.2) {}

def deploy (s : Store) (contract : String) (code : Bytes) : Store :=
  { s with byteCodes := s.byteCodes.insert contract code }

/-- Appends rows; without relational support nothing is kept. -/
def insertRows (s : Store) (contract : String) (rows : List Row) : Store :=
  match s.tables with
  | none => s
  | some tables =>
    let kept := (tables.find? contract).getD []
    { s with tables := some (tables.insert contract (kept ++ rows)) }

def applyWrite (s : Store) (w : Write) : Store :=
  if w.isRecord then s
  else match w.value with
    | some v => s.setValue w.key v
    | none => s.removeValue w.key

/-- Persists the ordinary writes of a block, in order. Records are not key-value state. -/
def applyWrites (s : Store) (ws : List Write) : Store := ws.foldl applyWrite s

def read (s : Store) (k : StateKey) : Except KeyError (Option Bytes) := do
  checkContractName k.contract
  return s.values.find? k.encode

/-- The entries of `contract` from `start` up to, but without, `limit`. -/
def select (s : Store) (contract : String) (start limit : Bytes) :
    Except KeyError (List Kv) := do
  checkContractName contract
  if compare start limit ≠ .lt then return []
  else
    let low := (StateKey.mk contract start).encode
    let high := (StateKey.mk contract limit).encode
    let inRange := s.values.entries.filter fun e =>
      (compare low e.1).isLE && compare e.1 high = .lt
    return inRange.filterMap fun e =>
      (StateKey.decode? contract e.1).map fun key => ⟨key, e.2⟩

def byteCode (s : Store) (contract : String) : Option Bytes := s.byteCodes.find? contract

/-- Every row of the contract. -/
def rows (s : Store) (contract : String) : List Row :=
  match s.tables with
  | none => []
  | some tables => (tables.find? contract).getD []

end Store

end Lockstep
