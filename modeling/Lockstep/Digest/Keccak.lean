import Lockstep.Bytes

/-!
# SHA3-256

The sponge over the Keccak permutation on twenty-five lanes of 64 bits. A message is padded with
the hash function's domain bits and a final one bit, absorbed in blocks of 136 octets, and the
first 32 octets of the state are the digest.

Lane `x + 5 * y` stands in column `x` and row `y`.
-/

namespace Lockstep.Digest.Keccak

abbrev State := Vector UInt64 25

def lane (a : State) (x y : Nat) : UInt64 :=
  have : x % 5 + 5 * (y % 5) < 25 := by omega
  a[x % 5 + 5 * (y % 5)]

def rotateLeft (w : UInt64) (n : UInt64) : UInt64 := (w <<< n) ||| (w >>> (64 - n))

/-- How far the lane of each index is rotated. -/
def rotations : Vector UInt64 25 :=
  #v[0, 1, 62, 28, 27,
     36, 44, 6, 55, 20,
     3, 10, 43, 25, 39,
     41, 45, 15, 21, 8,
     18, 2, 61, 56, 14]

def roundConstants : List UInt64 :=
  [0x0000000000000001, 0x0000000000008082, 0x800000000000808a, 0x8000000080008000,
   0x000000000000808b, 0x0000000080000001, 0x8000000080008081, 0x8000000000008009,
   0x000000000000008a, 0x0000000000000088, 0x0000000080008009, 0x000000008000000a,
   0x000000008000808b, 0x800000000000008b, 0x8000000000008089, 0x8000000000008003,
   0x8000000000008002, 0x8000000000000080, 0x000000000000800a, 0x800000008000000a,
   0x8000000080008081, 0x8000000000008080, 0x0000000080000001, 0x8000000080008008]

def column (a : State) (x : Nat) : UInt64 :=
  lane a x 0 ^^^ lane a x 1 ^^^ lane a x 2 ^^^ lane a x 3 ^^^ lane a x 4

/-- Adds to every lane the parities of the two neighbouring columns. -/
def theta (a : State) : State :=
  let parities : Vector UInt64 5 := Vector.ofFn fun x => column a x
  let parity (x : Nat) : UInt64 :=
    have : x % 5 < 5 := by omega
    parities[x % 5]
  Vector.ofFn fun i =>
    a[i] ^^^ parity (i + 4) ^^^ rotateLeft (parity (i + 1)) 1

/-- Rotates every lane and moves it to its new place. -/
def rhoPi (a : State) : State :=
  Vector.ofFn fun i =>
    let x := i.val % 5
    let y := i.val / 5
    rotateLeft (lane a (x + 3 * y) x) (lane rotations (x + 3 * y) x)

/-- The only step that is not linear: combines each lane with the next two of its row. -/
def chi (a : State) : State :=
  Vector.ofFn fun i =>
    let x := i.val % 5
    let y := i.val / 5
    a[i] ^^^ (~~~ lane a (x + 1) y &&& lane a (x + 2) y)

def iota (a : State) (constant : UInt64) : State := a.set 0 (a[0] ^^^ constant)

def permute (a : State) : State :=
  roundConstants.foldl (fun a constant => iota (chi (rhoPi (theta a))) constant) a

/-- Octets per absorbed block. -/
def rate : Nat := 136

def pad (message : Bytes) : Bytes :=
  let missing := rate - message.length % rate
  if missing = 1 then message ++ [0x86]
  else message ++ 0x06 :: List.replicate (missing - 2) 0 ++ [0x80]

/-- The lane whose octets stand at the front of `block`, zero past the end. -/
def readLane (block : Bytes) : UInt64 := (Bytes.ofLittleEndian (block.take 8)).toUInt64

def absorbBlock (a : State) (block : Bytes) : State :=
  permute (Vector.ofFn fun i => a[i] ^^^ readLane (block.drop (8 * i.val)))

def absorb : (blocks : Nat) → State → Bytes → State
  | 0, a, _ => a
  | blocks + 1, a, message =>
    absorb blocks (absorbBlock a (message.take rate)) (message.drop rate)

def squeeze (a : State) : Vector UInt8 32 :=
  Vector.ofFn fun i =>
    (lane a (i.val / 8) 0 >>> (8 * (i.val % 8)).toUInt64).toUInt8

def hash (message : Bytes) : Vector UInt8 32 :=
  let padded := pad message
  squeeze (absorb (padded.length / rate) (Vector.replicate 25 0) padded)

end Lockstep.Digest.Keccak
