import Lockstep.SortedMap
import Lockstep.Text

/-!
# State keys

Every key belongs to a contract. The store keeps one flat namespace, where a key is the contract
name, a separator and the key's own octets; a key may itself carry a field after a second
separator. Names never contain the separator, which is what keeps the flat form of distinct keys
distinct.

Keys are ordered by the octets of the contract name, then by their own octets.
-/

namespace Lockstep

/-- Stands between contract name, key and field. -/
def separator : UInt8 := 0x23

/-- The greatest length of a contract name, a key or a field, in octets. -/
def maxPartLength : Nat := 64

/-- The parts of a key that the naming rules speak of. -/
inductive KeyPart where
  | contractName
  | key
  | field
  deriving DecidableEq, Repr

def KeyPart.text : KeyPart → String
  | .contractName => "contract name"
  | .key => "key"
  | .field => "field"

inductive KeyError where
  | emptyContractName
  | emptyKey
  | tooLong (part : KeyPart) (length : Nat)
  | invalidByte (part : KeyPart) (byte : UInt8)
  deriving DecidableEq, Repr

def KeyError.message : KeyError → String
  | .emptyContractName => "contract name must not be empty"
  | .emptyKey => "key must not be empty"
  | .tooLong part length =>
    part.text ++ " length " ++ toString length ++ " exceeds the limit of "
      ++ toString maxPartLength ++ " bytes"
  | .invalidByte part byte => part.text ++ " contains invalid byte 0x" ++ Bytes.hex [byte]

/-- Letters, digits and the four marks `_`, `.`, `-` and `/`. -/
def isKeyByte (b : UInt8) : Bool :=
  (0x30 ≤ b && b ≤ 0x39) || (0x41 ≤ b && b ≤ 0x5a) || (0x61 ≤ b && b ≤ 0x7a)
    || b == 0x5f || b == 0x2e || b == 0x2d || b == 0x2f

/-- Length comes before content, so an overlong part is never searched for a bad octet. -/
def checkPart (part : KeyPart) (bs : Bytes) : Except KeyError Unit :=
  if bs.length > maxPartLength then .error (.tooLong part bs.length)
  else match bs.find? (!isKeyByte ·) with
    | some b => .error (.invalidByte part b)
    | none => .ok ()

def checkContractName (name : String) : Except KeyError Unit :=
  if name.isEmpty then .error .emptyContractName
  else checkPart .contractName (Text.utf8 name)

/-- An empty field stands for the bare key. -/
def checkKeyField (key field : Bytes) : Except KeyError Unit :=
  if key.isEmpty then .error .emptyKey
  else do
    checkPart .key key
    checkPart .field field

structure StateKey where
  contract : String
  key : Bytes
  deriving DecidableEq, Repr

namespace StateKey

instance : Ord StateKey where
  compare := compareLex (compareOn fun k => Text.utf8 k.contract) (compareOn fun k => k.key)

instance : Std.TransOrd StateKey :=
  inferInstanceAs (Std.TransCmp
    (compareLex (compareOn fun k : StateKey => Text.utf8 k.contract)
      (compareOn fun k : StateKey => k.key)))

instance : Std.LawfulEqOrd StateKey where
  compare_self := Std.ReflOrd.compare_self
  eq_of_compare := by
    intro a b h
    obtain ⟨ca, ka⟩ := a
    obtain ⟨cb, kb⟩ := b
    have h' : compareLex (compareOn fun k : StateKey => Text.utf8 k.contract)
      (compareOn fun k : StateKey => k.key) ⟨ca, ka⟩ ⟨cb, kb⟩ = .eq := h
    rw [compareLex, Ordering.then_eq_eq] at h'
    obtain ⟨h₁, h₂⟩ := h'
    have hc := Text.utf8_inj.1 (Std.LawfulEqOrd.eq_of_compare h₁)
    have hk := Std.LawfulEqOrd.eq_of_compare h₂
    simp_all

def withField (contract : String) (key field : Bytes) : StateKey :=
  if field.isEmpty then ⟨contract, key⟩ else ⟨contract, key ++ separator :: field⟩

/-- The key-less entry that all statement records of one contract share. -/
def record (contract : String) : StateKey := ⟨contract, []⟩

def isRecord (k : StateKey) : Bool := k.key.isEmpty

/-- The flat form under which the store keeps the key. -/
def encode (k : StateKey) : Bytes := Text.utf8 k.contract ++ separator :: k.key

/-- Reads a flat form back as a key of `contract`; other contracts' keys are refused. -/
def decode? (contract : String) (encoded : Bytes) : Option StateKey :=
  match checkContractName contract with
  | .error _ => none
  | .ok _ =>
    (Bytes.strip? (Text.utf8 contract ++ [separator]) encoded).map fun key => ⟨contract, key⟩

/-- The octets before the first separator, and those after it. -/
def splitField (key : Bytes) : Bytes × Bytes :=
  (key.takeWhile (· != separator), (key.dropWhile (· != separator)).drop 1)

def validate (k : StateKey) : Except KeyError Unit := do
  checkContractName k.contract
  if k.key.isEmpty then throw .emptyKey
  let (key, field) := splitField k.key
  checkKeyField key field

/-- The separator is no octet of a name, a key or a field. -/
theorem isKeyByte_separator : isKeyByte separator = false := by decide

theorem decode?_eq_some_iff {contract : String} {encoded : Bytes} {k : StateKey} :
    decode? contract encoded = some k ↔
      checkContractName contract = .ok () ∧ k.contract = contract ∧ k.encode = encoded := by
  cases h : checkContractName contract with
  | error e => simp [decode?, h]
  | ok u =>
    obtain ⟨c, key⟩ := k
    simp only [decode?, h, Option.map_eq_some_iff, Bytes.strip?_eq_some_iff, encode, mk.injEq,
      true_and]
    constructor
    · rintro ⟨rest, rfl, rfl, rfl⟩
      simp
    · rintro ⟨rfl, rfl⟩
      exact ⟨key, by simp, rfl, rfl⟩

def display (k : StateKey) : String := k.contract ++ "#" ++ Text.lossy k.key

def describe (k : StateKey) : String := "StateKey(" ++ k.display ++ ")"

/-- Keys in ascending order, repetitions kept. -/
def sort (keys : List StateKey) : List StateKey :=
  keys.mergeSort fun a b => (compare a b).isLE

end StateKey

end Lockstep
