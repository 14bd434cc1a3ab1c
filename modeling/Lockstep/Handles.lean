import Lockstep.Cursor

/-!
# Cursor handles

The cursors that one transaction opened, addressed by small numbers. Numbers start at one and are
never given out again, so a stale handle cannot reach another cursor. A closed or abandoned cursor
is released, and the order of releases is kept.
-/

namespace Lockstep

abbrev Handle := Int

inductive CursorKind where
  | keyValue
  | sql
  deriving DecidableEq, Repr

def CursorKind.text : CursorKind → String
  | .keyValue => "key-value"
  | .sql => "sql"

inductive HandleError where
  | unknown (handle : Handle)
  | kindMismatch (handle : Handle) (expected : CursorKind)
  | cursor (handle : Handle) (message : String)
  deriving DecidableEq, Repr

def HandleError.message : HandleError → String
  | .unknown handle => "unknown or closed iterator handle " ++ toString handle
  | .kindMismatch handle expected =>
    "iterator handle " ++ toString handle ++ " is not a " ++ expected.text ++ " cursor"
  | .cursor handle message => "cursor of handle " ++ toString handle ++ " failed: " ++ message

@[reducible] def CursorKind.Item : CursorKind → Type
  | .keyValue => Kv
  | .sql => Row

structure OpenCursor where
  kind : CursorKind
  cursor : Lookahead kind.Item

structure Handles where
  next : Handle := 1
  cursors : SortedMap Handle OpenCursor := .empty
  released : List Handle := []

namespace Handles

/-- Keeps a cursor under the next number. Numbers are positive 32-bit integers, and a transaction is
taken to open fewer than `2 ^ 31 - 1` cursors: the failure of the open at which the numbers are
exhausted is left out. -/
def keep (hs : Handles) (kind : CursorKind) (cursor : Cursor kind.Item) : Handle × Handles :=
  (hs.next,
    { hs with next := hs.next + 1, cursors := hs.cursors.insert hs.next ⟨kind, { cursor }⟩ })

/-- The cursor of a handle, which must be of the kind that is asked for. -/
def find (hs : Handles) (kind : CursorKind) (h : Handle) :
    Except HandleError (Lookahead kind.Item) :=
  match hs.cursors.find? h with
  | none => .error (.unknown h)
  | some c =>
    if hkind : c.kind = kind then .ok (hkind ▸ c.cursor) else .error (.kindMismatch h kind)

def replace (hs : Handles) {kind : CursorKind} (h : Handle) (cursor : Lookahead kind.Item) :
    Handles :=
  { hs with cursors := hs.cursors.insert h ⟨kind, cursor⟩ }

def hasNext (hs : Handles) (kind : CursorKind) (h : Handle) : Except HandleError Bool :=
  (hs.find kind h).map (·.hasNext)

/-- The table after a look whether there is a next entry. -/
def peek (hs : Handles) (kind : CursorKind) (h : Handle) : Handles :=
  match hs.find kind h with
  | .error _ => hs
  | .ok cursor => hs.replace h cursor.peek

def step (hs : Handles) (kind : CursorKind) (h : Handle) :
    Except HandleError (Option kind.Item) × Handles :=
  match hs.find kind h with
  | .error e => (.error e, hs)
  | .ok cursor => (cursor.next.1.mapError (.cursor h), hs.replace h cursor.next.2)

def openKv (hs : Handles) (cursor : Cursor Kv) : Handle × Handles := hs.keep .keyValue cursor

def openSql (hs : Handles) (cursor : Cursor Row) : Handle × Handles := hs.keep .sql cursor

def kvHasNext (hs : Handles) (h : Handle) : Except HandleError Bool := hs.hasNext .keyValue h

def sqlHasNext (hs : Handles) (h : Handle) : Except HandleError Bool := hs.hasNext .sql h

def kvNext (hs : Handles) (h : Handle) : Except HandleError (Option Kv) × Handles :=
  hs.step .keyValue h

def sqlNext (hs : Handles) (h : Handle) : Except HandleError (Option Row) × Handles :=
  hs.step .sql h

/-- Reads a key range to its end. -/
def drain (hs : Handles) (h : Handle) : Except HandleError (List Kv) × Handles :=
  match hs.find .keyValue h with
  | .error e => (.error e, hs)
  | .ok cursor => (cursor.drain.1.mapError (.cursor h), hs.replace h cursor.drain.2)

def close (hs : Handles) (h : Handle) : Except HandleError Unit × Handles :=
  if hs.cursors.contains h then
    (.ok (), { hs with cursors := hs.cursors.erase h, released := hs.released ++ [h] })
  else (.error (.unknown h), hs)

def openCount (hs : Handles) : Nat := hs.cursors.size

/-- Releases what is still open, in ascending order, and gives the handles. -/
def releaseAll (hs : Handles) : List Handle × Handles :=
  let leaked := hs.cursors.keys
  (leaked, { hs with cursors := .empty, released := hs.released ++ leaked })

end Handles

end Lockstep
