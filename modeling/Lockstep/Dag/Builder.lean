import Lockstep.Dag
import Lockstep.Dag.VertexSet
import Lockstep.Key

/-!
# Building the graph of a block

Transactions are added in block order. Per key the builder keeps the last writer and the readers
since that write, which is enough to find, for a new transaction, candidates through which every
conflicting earlier transaction can be reached. Finishing keeps the direct dependencies only: an
edge is dropped when another dependency already leads to its source.
-/

namespace Lockstep

structure Accesses where
  reads : List StateKey
  writes : List StateKey
  deriving DecidableEq, Repr

/-- Whether `later` must follow `earlier`: it touches what `earlier` writes, or writes what
`earlier` reads. -/
def Accesses.conflicts (earlier later : Accesses) : Bool :=
  later.reads.any earlier.writes.contains || later.writes.any earlier.writes.contains
    || later.writes.any earlier.reads.contains

namespace Dag

structure Builder where
  lastWriter : SortedMap StateKey Nat := .empty
  readersSince : SortedMap StateKey (List Nat) := .empty
  dependencies : List (List Nat) := []

namespace Builder

def size (b : Builder) : Nat := b.dependencies.length

def writerOf (b : Builder) (k : StateKey) : List Nat := (b.lastWriter.find? k).toList

def readersOf (b : Builder) (k : StateKey) : List Nat := (b.readersSince.find? k).getD []

/-- The earlier transactions that a new one with these accesses is seen to follow. -/
def candidates (b : Builder) (a : Accesses) : List Nat :=
  a.reads.flatMap b.writerOf ++ a.writes.flatMap fun k => b.writerOf k ++ b.readersOf k

def noteRead (v : Nat) (b : Builder) (k : StateKey) : Builder :=
  { b with readersSince := b.readersSince.insert k (b.readersOf k ++ [v]) }

def noteWrite (v : Nat) (b : Builder) (k : StateKey) : Builder :=
  { b with lastWriter := b.lastWriter.insert k v, readersSince := b.readersSince.erase k }

/-- Adds the next transaction; its vertex is the size before. -/
def add (b : Builder) (a : Accesses) : Builder :=
  let v := b.size
  let sources := (List.range v).filter (VertexSet.ofList (b.candidates a)).contains
  let b := a.writes.foldl (noteWrite v) (a.reads.foldl (noteRead v) b)
  { b with dependencies := b.dependencies ++ [sources] }

/-- Goes through the sources from the highest down and keeps those that no kept one leads to.
Gives the kept ones, ascending, and everything reachable through them. -/
def reduceSources (reachable : Array VertexSet) (sources : List Nat) : List Nat × VertexSet :=
  sources.foldr
    (fun source (direct, covered) =>
      if covered.contains source then (direct, covered)
      else (source :: direct, (covered.union ((reachable[source]?).getD .empty)).insert source))
    ([], .empty)

/-- The direct dependencies of every vertex, and what each vertex can reach. -/
def reduce (dependencies : List (List Nat)) : Array (List Nat) × Array VertexSet :=
  dependencies.foldl
    (fun (direct, reachable) sources =>
      let (kept, covered) := reduceSources reachable sources
      (direct.push kept, reachable.push covered))
    (#[], #[])

def build (b : Builder) : Dag := ⟨(reduce b.dependencies).1.toList⟩

end Builder

/-- The graph of a list of accesses in block order. -/
def ofAccesses (accesses : List Accesses) : Dag := (accesses.foldl Builder.add {}).build

end Dag

end Lockstep
