/-!
# Text under reading

The part of a text that is still to be read, and the position at which it starts. Only a line feed
starts a new line of positions, although a carriage return breaks lines as well; a NUL ends the
text. The gap between two words is folded: one break counts as a blank, and of several breaks the
first is dropped.
-/

namespace Lockstep.Yaml

/-! ## Characters -/

def isBreak (ch : Char) : Bool := ch == '\n' || ch == '\r'

def isBlank (ch : Char) : Bool := ch == ' ' || ch == '\t'

def isSpace (ch : Char) : Bool := isBlank ch || isBreak ch

/-- A line ends before a break and at the end of the text. -/
def endsLine (next : Option Char) : Bool := next.all isBreak

/-- A mark stands alone before a blank, a break and the end of the text. -/
def endsMark (next : Option Char) : Bool := next.all isSpace

/-- The marks of bracketed collections. -/
def isFlowMark (ch : Char) : Bool :=
  ch == ',' || ch == '[' || ch == ']' || ch == '\x7b' || ch == '\x7d'

def isDigit (ch : Char) : Bool := '0' ≤ ch && ch ≤ '9'

/-- The characters of the names of anchors, directives and tag handles. -/
def isNameChar (ch : Char) : Bool :=
  isDigit ch || ('a' ≤ ch && ch ≤ 'z') || ('A' ≤ ch && ch ≤ 'Z') || ch == '_' || ch == '-'

/-- The value of a digit in a base of at most sixteen. -/
def digitValue? (base : Nat) (ch : Char) : Option Nat :=
  let value :=
    if isDigit ch then ch.toNat - 48
    else if 'a' ≤ ch && ch ≤ 'f' then ch.toNat - 87
    else if 'A' ≤ ch && ch ≤ 'F' then ch.toNat - 55
    else base
  if value < base then some value else none

def digitsFrom? (base value : Nat) : List Char → Option Nat
  | [] => some value
  | ch :: cs => do
    let digit ← digitValue? base ch
    digitsFrom? base (base * value + digit) cs

/-- The number that a nonempty list of digits writes. -/
def digits? (base : Nat) : List Char → Option Nat
  | [] => none
  | cs => digitsFrom? base 0 cs

/-- The character with this code, if it is the code of one. -/
def charOf? (code : Nat) : Option Char := if code.isValidChar then some (Char.ofNat code) else none

/-! ## Gaps -/

/-- A carriage return and the line feed after it are one break. -/
def countBreaks : List Char → Nat
  | [] => 0
  | '\r' :: '\n' :: cs => countBreaks cs + 1
  | ch :: cs => if isBreak ch then countBreaks cs + 1 else countBreaks cs

/-- What stands for a gap of blanks and breaks inside a text. -/
def foldGap (gap : List Char) : List Char :=
  match countBreaks gap with
  | 0 => gap
  | 1 => [' ']
  | extra + 2 => List.replicate (extra + 1) '\n'

/-! ## Positions -/

structure Position where
  index : Nat := 0
  line : Nat := 0
  column : Nat := 0
  deriving DecidableEq, Repr

def Position.after (p : Position) (ch : Char) : Position :=
  if ch == '\n' then ⟨p.index + 1, p.line + 1, 0⟩ else ⟨p.index + 1, p.line, p.column + 1⟩

structure Input where
  position : Position := {}
  rest : List Char
  deriving DecidableEq, Repr

namespace Input

def ofString (text : String) : Input := { rest := text.toList.takeWhile (· != '\x00') }

def column (i : Input) : Nat := i.position.column

def next (i : Input) : Option Char := i.rest.head?

def skip (i : Input) (n : Nat) : Input :=
  ⟨(i.rest.take n).foldl Position.after i.position, i.rest.drop n⟩

def skipWhile (i : Input) (p : Char → Bool) : Input := i.skip (i.rest.takeWhile p).length

/-- Passes the break at the front, if there is one. -/
def skipBreak (i : Input) : Input :=
  match i.rest with
  | '\r' :: '\n' :: _ => i.skip 2
  | ch :: _ => if isBreak ch then i.skip 1 else i
  | [] => i

/-- Passes blanks, a comment and the break that must follow. -/
def skipLineEnd? (i : Input) : Option Input :=
  let i := i.skipWhile isBlank
  let i := if i.next == some '#' then i.skipWhile (!isBreak ·) else i
  if endsLine i.next then some i.skipBreak else none

/-- The character of which three start a line and stand alone: dashes open a document and points
close one. -/
def documentMark? (i : Input) : Option Char :=
  match i.rest with
  | ch :: ch' :: ch'' :: cs =>
    if i.column = 0 ∧ (ch = '-' ∨ ch = '.') ∧ ch' = ch ∧ ch'' = ch ∧ endsMark cs.head? then some ch
    else none
  | _ => none

@[simp] theorem rest_skip (i : Input) (n : Nat) : (i.skip n).rest = i.rest.drop n := rfl

end Input

end Lockstep.Yaml
