import Lockstep.Encoding

/-!
# Dependency graphs of a block

One vertex per transaction, with the list of the earlier transactions it must follow. A graph given
from outside may be malformed; `isWellFormed` says when every list is ascending and points backward.
`levels` groups the vertices into waves: the members of a wave depend only on earlier waves, so they
may run side by side.
-/

namespace Lockstep

/-- Vertices are positions in the block, here numbers without a bound. A block has fewer than
`2 ^ 32` transactions, so that positions, dependencies and the number of vertices are 32-bit
integers. -/
structure Dag where
  dependencies : List (List Nat)
  deriving DecidableEq, Repr

namespace Dag

/-- No vertex depends on another. -/
def independent (n : Nat) : Dag := ⟨List.replicate n []⟩

def size (d : Dag) : Nat := d.dependencies.length

def dependenciesOf (d : Dag) (v : Nat) : List Nat := (d.dependencies[v]?).getD []

def hasEdge (d : Dag) (source target : Nat) : Bool := (d.dependenciesOf target).contains source

/-- Pairs of a vertex and one that depends on it, by the dependent vertex. -/
def edges (d : Dag) : List (Nat × Nat) :=
  d.dependencies.zipIdx.flatMap fun (sources, target) => sources.map fun source => (source, target)

def ascending : List Nat → Bool
  | a :: b :: rest => a < b && ascending (b :: rest)
  | _ => true

def isWellFormed (d : Dag) : Bool :=
  d.dependencies.zipIdx.all fun (sources, target) =>
    ascending sources && sources.getLast?.all (· < target)

/-- One more than the deepest wave among the known dependencies. -/
def waveAfter (waves : Array Nat) (sources : List Nat) : Nat :=
  (sources.filterMap fun source => waves[source]?).foldl (fun wave w => max wave (w + 1)) 0

/-- The wave of every vertex. Dependencies that do not point backward are ignored. -/
def waves (d : Dag) : Array Nat :=
  d.dependencies.foldl (fun waves sources => waves.push (waveAfter waves sources)) #[]

/-- Puts every vertex into the group of its wave. -/
def groups (count : Nat) (waves : List (Nat × Nat)) : Array (List Nat) :=
  waves.foldr (fun (wave, v) groups => groups.modify wave (v :: ·)) (Array.replicate count [])

/-- The waves in order, each with its vertices in ascending order. -/
def levels (d : Dag) : List (List Nat) :=
  let waves := d.waves.toList
  let count := waves.foldl (fun count w => max count (w + 1)) 0
  (groups count waves.zipIdx).toList

theorem size_groups (count : Nat) (waves : List (Nat × Nat)) :
    (groups count waves).size = count := by
  induction waves with
  | nil => simp [groups]
  | cons a waves ih => simpa [groups] using ih

/-- A group holds the vertices of its wave, in the order in which they were given. -/
theorem getElem?_groups (count : Nat) (waves : List (Nat × Nat)) (wave : Nat) (h : wave < count) :
    (groups count waves)[wave]? = some ((waves.filter (·.1 == wave)).map (·.2)) := by
  induction waves with
  | nil => simp [groups, h]
  | cons a waves ih =>
    have step : groups count (a :: waves) = (groups count waves).modify a.1 (a.2 :: ·) := rfl
    rw [step, Array.getElem?_modify, ih]
    by_cases ha : a.1 = wave <;> simp [ha]

def toBytes (d : Dag) : Bytes :=
  Encoding.list (Encoding.list fun v => Bytes.littleEndian 4 v) d.dependencies

/-- The edges as a list of pairs. -/
def describeEdges (d : Dag) : String :=
  let pair (e : Nat × Nat) := "(" ++ toString e.1 ++ ", " ++ toString e.2 ++ ")"
  "[" ++ String.intercalate ", " (d.edges.map pair) ++ "]"

end Dag

end Lockstep
