/-!
# Sets of vertices

A set of vertices is kept as a number whose bit `v` says whether `v` is a member, so that the union
of two sets of a large graph is one operation on words. Each operation is described by what it does
to membership.
-/

namespace Lockstep.Dag

structure VertexSet where
  bits : Nat
  deriving DecidableEq, Repr

namespace VertexSet

def empty : VertexSet := ⟨0⟩

instance : Inhabited VertexSet := ⟨empty⟩

def contains (s : VertexSet) (v : Nat) : Bool := s.bits.testBit v

def insert (s : VertexSet) (v : Nat) : VertexSet := ⟨s.bits ||| 1 <<< v⟩

def union (s t : VertexSet) : VertexSet := ⟨s.bits ||| t.bits⟩

def ofList (vs : List Nat) : VertexSet := vs.foldl insert empty

@[simp] theorem contains_empty (v : Nat) : empty.contains v = false := Nat.zero_testBit v

@[simp] theorem contains_insert (s : VertexSet) (v w : Nat) :
    (s.insert v).contains w = (s.contains w || decide (v = w)) := by
  simp only [contains, insert, Nat.testBit_or, Nat.one_shiftLeft, Nat.testBit_two_pow]

@[simp] theorem contains_union (s t : VertexSet) (v : Nat) :
    (s.union t).contains v = (s.contains v || t.contains v) := by
  simp only [contains, union, Nat.testBit_or]

theorem contains_foldl_insert (vs : List Nat) (s : VertexSet) (v : Nat) :
    (vs.foldl insert s).contains v = (s.contains v || decide (v ∈ vs)) := by
  induction vs generalizing s with
  | nil => simp
  | cons w vs ih =>
    rw [List.foldl_cons, ih, contains_insert]
    grind

@[simp] theorem contains_ofList (vs : List Nat) (v : Nat) :
    (ofList vs).contains v = decide (v ∈ vs) := by
  rw [ofList, contains_foldl_insert, contains_empty, Bool.false_or]

end VertexSet

end Lockstep.Dag
