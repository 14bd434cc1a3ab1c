import Lockstep.Script

/-!
# The world around the contexts

What contexts ask of the outside is answered from the store behind its planned faults, the number of
invocations of each method, and a clock that moves only when somebody sleeps. A transaction of a
block reads through the snapshot of the block, a look-up reads the store itself.
-/

namespace Lockstep

/-- What the engine counts. -/
structure Tally where
  executed : Nat := 0
  reexecuted : Nat := 0
  deferredConflict : Nat := 0
  deferredTimeout : Nat := 0
  governanceRetries : Nat := 0
  leakedIterators : Nat := 0
  deriving DecidableEq, Repr

structure World where
  backend : Backend
  invocations : SortedMap MethodId Nat := .empty
  /-- Milliseconds slept so far. -/
  clock : Nat := 0
  tally : Tally := {}

/-- The end of everything: gas no longer fits its 64 bits. -/
inductive GasOverflow where
  | mk
  deriving DecidableEq, Repr

def GasOverflow.message (_ : GasOverflow) : String := "attempt to add with overflow"

/-- A change of the world, unless gas overflows. -/
abbrev Step := StateT World (Except GasOverflow)

namespace Step

variable {α β : Type}

theorem run_bind_ok {x : Step α} {f : α → Step β} {w w' : World} {a : α}
    (h : x.run w = .ok (a, w')) : (x >>= f).run w = (f a).run w' := by
  rw [StateT.run_bind, h]
  rfl

theorem run_bind_error {x : Step α} {f : α → Step β} {w : World} {overflow : GasOverflow}
    (h : x.run w = .error overflow) : (x >>= f).run w = .error overflow := by
  rw [StateT.run_bind, h]
  rfl

end Step

/-- Where reads go. -/
inductive View where
  | block (snapshot : Snapshot)
  | durable

namespace View

/-- How a failure of the store appears to a context. -/
def storageError (v : View) (message : String) : ContextError :=
  match v with
  | .block _ => .snapshot (.storage message)
  | .durable => .storage message

def read (v : View) (k : StateKey) (b : Backend) :
    Except ContextError (Option Bytes × ReadVersion) × Backend :=
  match v with
  | .block s =>
    let (seen, b) := s.read k b
    (seen.mapError .snapshot, b)
  | .durable =>
    let (value, b) := b.read k
    ((value.mapError .storage).map fun value => (value, .storage), b)

def query (contract : String) (b : Backend) : Except ContextError (Cursor Row) × Backend :=
  if b.store.isRelational then
    let (cursor, b) := b.query contract
    (cursor.mapError .storage, b)
  else (.error .relationalUnsupported, b)

end View

namespace World

def invocationsOf (w : World) (m : MethodId) : Nat := (w.invocations.find? m).getD 0

/-- Asks the store through its faults. -/
def onBackend {α : Type} (f : Backend → α × Backend) : Step α :=
  modifyGet fun w =>
    let (a, backend) := f w.backend
    (a, { w with backend })

def countInvocation (m : MethodId) : Step Nat :=
  modifyGet fun w =>
    let n := w.invocationsOf m + 1
    (n, { w with invocations := w.invocations.insert m n })

def tallyWith (f : Tally → Tally) : Step Unit :=
  modify fun w => { w with tally := f w.tally }

def answer (v : View) : (q : Outside) → Step q.Answer
  | .read k => onBackend (v.read k)
  | .select contract start limit => onBackend fun b =>
    let (cursor, b) := b.select contract start limit
    (cursor.mapError v.storageError, b)
  | .query contract _ => onBackend (View.query contract)
  | .byteCode contract => onBackend fun b =>
    let (code, b) := b.byteCode contract
    (code.mapError v.storageError, b)
  | .countInvocation contract method => countInvocation ⟨contract, method⟩
  | .sleep milliseconds => modify fun w => { w with clock := w.clock + milliseconds }
  | .gasOverflow => throw .mk

/-- Answers a whole dialogue at once. -/
def converse {α : Type} (v : View) (d : Outward α) : Step α := d.run (answer v)

end World

end Lockstep
