import Lockstep.Bytes

/-!
# Text and its UTF-8 octets

Names and identifiers are texts; what is hashed, sorted and stored is their UTF-8 form. Reading is
strict (`ofUtf8?`) where octets must be text, and lossy (`lossy`) where octets are only shown: each
longest run that could have begun a character, but did not become one, is shown as one replacement
character.
-/

namespace Lockstep.Text

def utf8 (s : String) : Bytes := s.toByteArray.data.toList

def ofUtf8? (bs : Bytes) : Option String := String.fromUTF8? ⟨bs.toArray⟩

theorem utf8_inj {s t : String} : utf8 s = utf8 t ↔ s = t := by
  constructor
  · intro h
    have hdata : s.toByteArray.data = t.toByteArray.data := Array.toList_inj.1 h
    apply String.toByteArray_inj.1
    cases hs : s.toByteArray
    cases ht : t.toByteArray
    simp_all
  · rintro rfl
    rfl

/-- Strict reading accepts exactly the octets of a text. -/
theorem ofUtf8?_eq_some_iff {bs : Bytes} {s : String} : ofUtf8? bs = some s ↔ utf8 s = bs := by
  constructor
  · intro h
    unfold ofUtf8? String.fromUTF8? at h
    split at h
    · cases h
      simp [utf8, String.fromUTF8]
    · cases h
  · rintro rfl
    have hs : (⟨s.toByteArray.data.toList.toArray⟩ : ByteArray) = s.toByteArray := by
      cases hs : s.toByteArray
      simp
    simp only [ofUtf8?, utf8, hs, String.fromUTF8?, s.isValidUTF8, dite_true]
    rfl

/-- What a lead octet announces: the bits it holds, how many octets follow, and the bounds of the
next one. The bounds rule out overlong forms, surrogates and values past the last character. -/
structure Pending where
  bits : Nat
  rest : Nat
  low : UInt8
  high : UInt8

def pending? (b : UInt8) : Option Pending :=
  if b < 0xc2 then none
  else if b < 0xe0 then some ⟨b.toNat - 0xc0, 1, 0x80, 0xbf⟩
  else if b == 0xe0 then some ⟨0, 2, 0xa0, 0xbf⟩
  else if b == 0xed then some ⟨0xd, 2, 0x80, 0x9f⟩
  else if b < 0xf0 then some ⟨b.toNat - 0xe0, 2, 0x80, 0xbf⟩
  else if b == 0xf0 then some ⟨0, 3, 0x90, 0xbf⟩
  else if b < 0xf4 then some ⟨b.toNat - 0xf0, 3, 0x80, 0xbf⟩
  else if b == 0xf4 then some ⟨4, 3, 0x80, 0x8f⟩
  else none

def replacement : Char := Char.ofNat 0xfffd

/-- Reads `b` between characters: the characters it completes and what it leaves pending. -/
def leadStep (b : UInt8) : List Char × Option Pending :=
  if b < 0x80 then ([Char.ofNat b.toNat], none)
  else match pending? b with
    | none => ([replacement], none)
    | some p => ([], some p)

/-- Reads `b` inside a character. An octet out of bounds ends the run before it and is read anew. -/
def Pending.step (p : Pending) (b : UInt8) : List Char × Option Pending :=
  if p.low ≤ b ∧ b ≤ p.high then
    let bits := p.bits * 64 + (b.toNat - 0x80)
    if p.rest ≤ 1 then ([Char.ofNat bits], none)
    else ([], some ⟨bits, p.rest - 1, 0x80, 0xbf⟩)
  else
    let (shown, next) := leadStep b
    (replacement :: shown, next)

def lossyChars : Option Pending → Bytes → List Char
  | none, [] => []
  | some _, [] => [replacement]
  | state, b :: bs =>
    let (shown, next) := match state with
      | none => leadStep b
      | some p => p.step b
    shown ++ lossyChars next bs

def lossy (bs : Bytes) : String := String.ofList (lossyChars none bs)

end Lockstep.Text
