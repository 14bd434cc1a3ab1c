import Lockstep.Text

/-!
# Canonical encoding

Records are the concatenation of their fields. Lengths, counts and alternatives are written in base
128, lowest digit first, with the top bit of an octet announcing another; strings and lists follow
their length, numbers have a fixed width with the lowest octet first, and an optional value follows
a tag octet. Every value has one written form, and reading refuses every other.
-/

namespace Lockstep

/-- What a composed computation gives, its parts gave one after the other. -/
theorem run_bind_eq_ok_iff {σ ε α β : Type} {x : StateT σ (Except ε) α}
    {f : α → StateT σ (Except ε) β} {s s'' : σ} {c : β} :
    (x >>= f).run s = .ok (c, s'') ↔
      ∃ a s', x.run s = .ok (a, s') ∧ (f a).run s' = .ok (c, s'') := by
  rw [StateT.run_bind]
  cases h : x.run s with
  | error err =>
    constructor
    · exact nofun
    · rintro ⟨a, s', hfirst, -⟩
      cases hfirst
  | ok p =>
    obtain ⟨a, s'⟩ := p
    constructor
    · intro hrest
      exact ⟨a, s', rfl, hrest⟩
    · rintro ⟨a', s₁, hfirst, hrest⟩
      cases hfirst
      exact hrest

namespace Encoding

/-- The base 128 digits of `n`, all but the last with the top bit set. -/
def uleb128 (n : Nat) : Bytes :=
  if n < 128 then [UInt8.ofNat n]
  else UInt8.ofNat (n % 128 + 128) :: uleb128 (n / 128)

def bytes (bs : Bytes) : Bytes := uleb128 bs.length ++ bs

def text (s : String) : Bytes := bytes (Text.utf8 s)

def list {α : Type} (item : α → Bytes) (xs : List α) : Bytes :=
  uleb128 xs.length ++ xs.flatMap item

def option {α : Type} (item : α → Bytes) : Option α → Bytes
  | none => [0]
  | some x => 1 :: item x

def word32 (w : UInt32) : Bytes := Bytes.littleEndian 4 w.toNat

def word64 (n : Nat) : Bytes := Bytes.littleEndian 8 n

inductive DecodeError where
  | endOfInput
  | remainingInput
  | expectedOption
  | unknownVariant
  | invalidText
  | nonCanonical
  | integerOverflow
  | lengthLimit
  deriving DecidableEq, Repr

/-- Reads from the front of the input and leaves the rest. -/
abbrev Reader := StateT Bytes (Except DecodeError)

/-- The greatest length a string or a list may announce. -/
def maxLength : Nat := 0x7fffffff

namespace Reader

def octet : Reader UInt8 := fun input =>
  match input with
  | [] => .error .endOfInput
  | b :: rest => .ok (b, rest)

/-- At most `digits` digits. The highest digit of a longer number is never zero. -/
def ulebDigits : (digits : Nat) → (leading : Bool) → Reader Nat
  | 0, _ => throw .integerOverflow
  | digits + 1, leading => do
    let b ← octet
    if b < 128 then
      if !leading && b == 0 then throw .nonCanonical else return b.toNat
    else do
      let high ← ulebDigits digits false
      return (b.toNat - 128) + 128 * high

def uleb128 : Reader Nat := do
  let n ← ulebDigits 5 true
  if n < Bytes.range32 then return n else throw .integerOverflow

def length : Reader Nat := do
  let n ← uleb128
  if n ≤ maxLength then return n else throw .lengthLimit

def exactly (n : Nat) : Reader Bytes := fun input =>
  if input.length < n then .error .endOfInput else .ok (input.take n, input.drop n)

def bytes : Reader Bytes := do
  let n ← length
  exactly n

def text : Reader String := do
  let bs ← bytes
  match Text.ofUtf8? bs with
  | some s => return s
  | none => throw .invalidText

def times {α : Type} (item : Reader α) : Nat → Reader (List α)
  | 0 => return []
  | n + 1 => do
    let x ← item
    let xs ← times item n
    return x :: xs

def list {α : Type} (item : Reader α) : Reader (List α) := do
  let n ← length
  times item n

def option {α : Type} (item : Reader α) : Reader (Option α) := do
  let tag ← octet
  if tag = 0 then return none
  else if tag = 1 then do
    let x ← item
    return some x
  else throw .expectedOption

def word32 : Reader UInt32 := do
  let bs ← exactly 4
  return (Bytes.ofLittleEndian bs).toUInt32

/-- Reads a value that must take up the whole input. -/
def whole {α : Type} (item : Reader α) (input : Bytes) : Except DecodeError α := do
  let (x, rest) ← item input
  if rest.isEmpty then return x else throw .remainingInput

end Reader

end Encoding

end Lockstep
