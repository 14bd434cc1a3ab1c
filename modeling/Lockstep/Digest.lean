import Lockstep.Digest.Keccak

/-!
# Hashes and the Merkle root of a list

The root of a list of hashes pairs neighbours level by level; a hash without a partner moves up
unchanged. The empty list has the hash of the empty message.
-/

namespace Lockstep

structure Hash where
  octets : Vector UInt8 32
  deriving DecidableEq

namespace Hash

def toBytes (h : Hash) : Bytes := h.octets.toList

@[simp] theorem length_toBytes (h : Hash) : h.toBytes.length = 32 := by
  simp [toBytes]

theorem toBytes_inj {a b : Hash} : a.toBytes = b.toBytes ↔ a = b := by
  cases a
  cases b
  simp [toBytes, Vector.toList_inj]

def ofBytes? (bs : Bytes) : Option Hash :=
  if h : bs.toArray.size = 32 then some ⟨⟨bs.toArray, h⟩⟩ else none

def zero : Hash := ⟨Vector.replicate 32 0⟩

instance : Inhabited Hash := ⟨zero⟩

def ofMessage (message : Bytes) : Hash := ⟨Digest.Keccak.hash message⟩

def combine (left right : Hash) : Hash := ofMessage (left.toBytes ++ right.toBytes)

def hex (h : Hash) : String := Bytes.hex h.toBytes

def describe (h : Hash) : String := "HashValue(" ++ h.hex ++ ")"

end Hash

namespace Merkle

/-- One level up: neighbours are combined and a last hash without a partner is kept. -/
def parents : List Hash → List Hash
  | left :: right :: rest => Hash.combine left right :: parents rest
  | rest => rest

theorem length_parents (hashes : List Hash) :
    (parents hashes).length = (hashes.length + 1) / 2 := by
  fun_induction parents hashes with
  | case1 left right rest ih => simp only [List.length_cons, ih]; omega
  | case2 rest h =>
    match rest, h with
    | [], _ => rfl
    | [_], _ => simp
    | a :: b :: r, h => exact absurd rfl (h a b r)

def root : List Hash → Hash
  | [] => Hash.ofMessage []
  | [hash] => hash
  | left :: right :: rest => root (parents (left :: right :: rest))
termination_by hashes => hashes.length
decreasing_by
  rw [length_parents]
  simp only [List.length_cons]
  omega

end Merkle

end Lockstep
