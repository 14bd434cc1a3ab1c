import Lockstep.Store

/-!
# The store as the engine meets it

Between the engine and its store stands a list of planned faults. A request uses up the first
planned fault that fits it; without one, the store itself answers. A failing store is thus part of
the state, and every failure is reproducible.
-/

namespace Lockstep

/-- The requests that a fault can hit. -/
inductive FaultPoint where
  | read
  | select
  | byteCode
  | query
  | kvCursor
  | sqlCursor
  deriving DecidableEq, Repr

structure Fault where
  point : FaultPoint
  contract : String
  /-- A read fault with a key hits reads of that key only. -/
  key : Option Bytes := none
  message : String
  /-- How often the fault can still strike; without a number, always. -/
  times : Option Nat := none
  /-- How many steps a faulty cursor makes before it fails. -/
  after : Nat := 0
  deriving DecidableEq, Repr

/-- An error and what it was met with, from the outermost context to the root. -/
def describeChain (root : String) (contexts : List String) : String :=
  String.intercalate ": " (contexts.reverse ++ [root])

namespace Fault

def fits (f : Fault) (point : FaultPoint) (contract : String) (key : Option Bytes) : Bool :=
  f.point == point && f.contract == contract && f.times != some 0
    && (point != .read || f.key.isNone || f.key == key)

/-- Uses up one strike. -/
def strike (f : Fault) : Fault := { f with times := f.times.map (· - 1) }

/-- The first fault that fits, and the list after its strike. -/
def pick (point : FaultPoint) (contract : String) (key : Option Bytes) :
    List Fault → Option Fault × List Fault
  | [] => (none, [])
  | f :: fs =>
    if f.fits point contract key then (some f, f.strike :: fs)
    else
      let (found, fs) := pick point contract key fs
      (found, f :: fs)

def fuse (f : Fault) : Fuse := ⟨f.after, f.message⟩

end Fault

/-- The store behind its planned faults. It stands for the read-only interface through which the
engine sees any durable store: reads, range cursors, byte codes and relational queries, each of
which may fail. Its contents and the plan are arbitrary. Among stores that can be behind the
interface it is one in memory: it answers at once, and but for the plan it answers alike. -/
structure Backend where
  store : Store
  faults : List Fault := []

namespace Backend

/-- The fault that strikes a request, if one is planned. -/
def strike (b : Backend) (point : FaultPoint) (contract : String) (key : Option Bytes) :
    Option Fault × Backend :=
  let (found, faults) := Fault.pick point contract key b.faults
  (found, { b with faults })

def read (b : Backend) (k : StateKey) : Except String (Option Bytes) × Backend :=
  match b.strike .read k.contract (some k.key) with
  | (some f, b) => (.error f.message, b)
  | (none, b) => ((b.store.read k).mapError KeyError.message, b)

def select (b : Backend) (contract : String) (start limit : Bytes) :
    Except String (Cursor Kv) × Backend :=
  match b.strike .select contract none with
  | (some f, b) => (.error f.message, b)
  | (none, b) => match b.store.select contract start limit with
    | .error e => (.error e.message, b)
    | .ok entries =>
      let (f, b) := b.strike .kvCursor contract none
      (.ok ⟨entries, f.map Fault.fuse⟩, b)

def byteCode (b : Backend) (contract : String) : Except String (Option Bytes) × Backend :=
  match b.strike .byteCode contract none with
  | (some f, b) => (.error f.message, b)
  | (none, b) => (.ok (b.store.byteCode contract), b)

/-- A query of the relational variant. -/
def query (b : Backend) (contract : String) : Except String (Cursor Row) × Backend :=
  match b.strike .query contract none with
  | (some f, b) => (.error f.message, b)
  | (none, b) =>
    let (f, b) := b.strike .sqlCursor contract none
    (.ok ⟨b.store.rows contract, f.map Fault.fuse⟩, b)

end Backend

end Lockstep
