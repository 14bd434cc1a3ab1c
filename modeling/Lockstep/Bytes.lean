/-!
# Byte strings

A byte string is a list of octets, compared octet by octet from the front, so a proper beginning
of a string sorts before it. Hexadecimal text is lower case with two digits per octet, and numbers
of fixed width are written with the lowest octet first.
-/

namespace Lockstep

abbrev Bytes := List UInt8

namespace Bytes

/-- The digit for a value below sixteen. -/
def hexDigit (n : Nat) : Char :=
  if n < 10 then Char.ofNat (48 + n) else Char.ofNat (87 + n)

def hexPair (b : UInt8) : List Char := [hexDigit (b.toNat / 16), hexDigit (b.toNat % 16)]

def hex (bs : Bytes) : String := String.ofList (bs.flatMap hexPair)

def hexValue? (c : Char) : Option Nat :=
  if '0' ≤ c ∧ c ≤ '9' then some (c.toNat - 48)
  else if 'a' ≤ c ∧ c ≤ 'f' then some (c.toNat - 87)
  else none

def ofHexChars? : List Char → Option Bytes
  | [] => some []
  | [_] => none
  | high :: low :: rest => do
    let h ← hexValue? high
    let l ← hexValue? low
    let bs ← ofHexChars? rest
    return UInt8.ofNat (16 * h + l) :: bs

def ofHex? (text : String) : Option Bytes := ofHexChars? text.toList

/-- What follows `head` at the front of `bs`. -/
def strip? : (head bs : Bytes) → Option Bytes
  | [], bs => some bs
  | _ :: _, [] => none
  | a :: head, b :: bs => if a = b then strip? head bs else none

/-- Numbers of 32 bits are below this. -/
def range32 : Nat := 0x100000000

/-- Numbers of 64 bits are below this. -/
def range64 : Nat := 0x10000000000000000

/-- The lowest `width` octets of `n`, the least significant one first. -/
def littleEndian : (width : Nat) → Nat → Bytes
  | 0, _ => []
  | width + 1, n => UInt8.ofNat (n % 256) :: littleEndian width (n / 256)

/-- The number written by `littleEndian`. -/
def ofLittleEndian : Bytes → Nat
  | [] => 0
  | b :: bs => b.toNat + 256 * ofLittleEndian bs

theorem strip?_eq_some_iff {head bs rest : Bytes} :
    strip? head bs = some rest ↔ bs = head ++ rest := by
  induction head generalizing bs with
  | nil => simp [strip?]
  | cons a head ih =>
    cases bs with
    | nil => simp [strip?]
    | cons b bs =>
      by_cases h : a = b
      · simp [strip?, h, ih]
      · simp [strip?, h, Ne.symm h]

@[simp] theorem length_littleEndian (width n : Nat) : (littleEndian width n).length = width := by
  induction width generalizing n with
  | zero => rfl
  | succ width ih => simp [littleEndian, ih]

end Bytes

end Lockstep
