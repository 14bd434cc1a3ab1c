import Lockstep.Yaml.Input

/-!
# Tags, anchor names and directives

Small readings in front of a document or a node: the name of an anchor, a tag, and a directive line.
A tag is a handle, which is a name between exclamation marks, and a suffix, in which a percent sign
starts the octets of a character.
-/

namespace Lockstep.Yaml

/-- A tag is a suffix under a handle; `!!int` has the suffix `int` under the handle `!!`. -/
structure Tag where
  handle : String
  suffix : String
  deriving DecidableEq, Repr

/-- What may follow the name of an anchor directly. -/
def endsName (next : Option Char) : Bool :=
  endsMark next || next.any fun ch =>
    ch == '?' || ch == ':' || ch == ',' || ch == ']' || ch == '\x7d' || ch == '%' || ch == '@'
      || ch == '\x60'

/-- The name behind the mark of an anchor or an alias. -/
def anchorName? (i : Input) : Option (String × Input) :=
  let name := i.rest.takeWhile isNameChar
  let i := i.skip name.length
  if !name.isEmpty && endsName i.next then some (String.ofList name, i) else none

namespace Tag

def isSuffixChar (ch : Char) : Bool :=
  isNameChar ch || [';', '/', '?', ':', '@', '&', '=', '+', '$', ',', '.', '!', '~', '*', '\x27',
    '(', ')', '[', ']', '%'].contains ch

/-- The octet that a percent sign and two digits write. -/
def octet? : List Char → Option Nat
  | '%' :: high :: low :: _ => digits? 16 [high, low]
  | _ => none

/-- How many octets a character takes, by its first. -/
def octetCount? (first : Nat) : Option Nat :=
  if first < 0x80 then some 1
  else if first < 0xc0 then none
  else if first < 0xe0 then some 2
  else if first < 0xf0 then some 3
  else if first < 0xf8 then some 4
  else none

/-- The number that more octets write after `value`, each being one that continues a character. -/
def octets? (count value : Nat) (cs : List Char) : Option Nat :=
  match count with
  | 0 => some value
  | count + 1 => do
    let octet ← octet? cs
    if octet / 64 = 2 then octets? count (256 * value + octet) (cs.drop 3) else none

/-- The character of an escape, and the number of characters that it takes. -/
def escape? (cs : List Char) : Option (Char × Nat) := do
  let first ← octet? cs
  let count ← octetCount? first
  let code ← octets? (count - 1) first (cs.drop 3)
  let char ← charOf? code
  return (char, 3 * count)

/-- Reads a suffix; `text` is what was read so far, the last character first. -/
def suffix? : (fuel : Nat) → (text : List Char) → Input → Option (List Char × Input)
  | 0, _, _ => none
  | fuel + 1, text, i =>
    match i.rest with
    | [] => some (text.reverse, i)
    | ch :: _ =>
      if ch == '%' then match escape? i.rest with
        | none => none
        | some (char, width) => suffix? fuel (char :: text) (i.skip width)
      else if isSuffixChar ch then suffix? fuel (ch :: text) (i.skip 1)
      else some (text.reverse, i)

/-- Reads a suffix that may not be empty. -/
def someSuffix? (i : Input) : Option (String × Input) := do
  let (text, i) ← suffix? (i.rest.length + 1) [] i
  if text.isEmpty then none else some (String.ofList text, i)

/-- Reads a tag, at its exclamation mark. A full tag stands in angle brackets and has no handle; a
word behind a single mark is the suffix of the handle `!`; a mark alone is a suffix without a
handle. -/
def read? (i : Input) : Option (Tag × Input) := do
  let inner := i.skip 1
  let name := inner.rest.takeWhile isNameChar
  let after := inner.skip name.length
  let (tag, i) ←
    if inner.next == some '<' then do
      let (suffix, i) ← someSuffix? (inner.skip 1)
      if i.next == some '>' then some ((⟨"", suffix⟩ : Tag), i.skip 1) else none
    else if after.next == some '!' then do
      let (suffix, i) ← someSuffix? (after.skip 1)
      some (⟨"!" ++ String.ofList name ++ "!", suffix⟩, i)
    else do
      let (suffix, i) ← suffix? (after.rest.length + 1) name.reverse after
      if suffix.isEmpty then some (⟨"", "!"⟩, i) else some (⟨"!", String.ofList suffix⟩, i)
  if endsMark i.next then some (tag, i) else none

end Tag

namespace Directive

/-- One to nine digits. -/
def versionNumber? (i : Input) : Option Input :=
  let digits := i.rest.takeWhile isDigit
  if digits.isEmpty || 9 < digits.length then none else some (i.skip digits.length)

/-- The two numbers of a version. -/
def version? (i : Input) : Option Input := do
  let i ← versionNumber? (i.skipWhile isBlank)
  if i.next == some '.' then versionNumber? (i.skip 1) else none

/-- A handle between exclamation marks, or a mark alone, and the suffix that it stands for. -/
def tagHandle? (i : Input) : Option Input := do
  let i := i.skipWhile isBlank
  if i.next == some '!' then
    let name := (i.skip 1).rest.takeWhile isNameChar
    let after := i.skip (name.length + 1)
    let i ←
      if after.next == some '!' then some (after.skip 1)
      else if name.isEmpty then some after
      else none
    let (_, i) ← Tag.someSuffix? (i.skipWhile isBlank)
    if endsMark i.next then some i else none
  else none

/-- Reads a directive line, at its percent sign. Of a directive with an unknown name the rest of the
line is passed over. -/
def read? (i : Input) : Option Input := do
  let name := (i.skip 1).rest.takeWhile isNameChar
  let i := i.skip (name.length + 1)
  if name.isEmpty || !endsMark i.next then none
  else
    let i ←
      if name == ['Y', 'A', 'M', 'L'] then version? i
      else if name == ['T', 'A', 'G'] then tagHandle? i
      else some (i.skipWhile (!isBreak ·))
    i.skipLineEnd?

end Directive

end Lockstep.Yaml
