import Lockstep.Bytes
import Lockstep.Yaml.Tag

/-!
# Scalars

A scalar is a text with the style in which it was written and the tag in front of it. The number and
the null that a scalar stands for depend on all three: an untagged scalar must be plain, and a tag
chooses how the text is read.
-/

namespace Lockstep.Yaml

inductive Style where
  | plain
  | singleQuoted
  | doubleQuoted
  | literal
  | folded
  deriving DecidableEq, Repr

structure Scalar where
  style : Style
  text : String
  tag : Option Tag := none
  deriving DecidableEq, Repr

namespace Scalar

/-- What stands for a value that is left out. -/
def missing : Scalar := ⟨.plain, "~", none⟩

def isNullText (text : String) : Bool := text == "~" || text == "null"

def isNull (s : Scalar) : Bool :=
  match s.tag with
  | none => s.style == .plain && isNullText s.text
  | some tag => tag == ⟨"!!", "null"⟩ && isNullText s.text

def dropPlus : List Char → List Char
  | '+' :: cs => cs
  | cs => cs

/-- The number of an untagged plain text: decimal without leading zeros, or in base sixteen, eight
or two after its mark. A plus may precede the number and the digits after a mark. Behind a minus
stands only zero. -/
def plainNatural? (cs : List Char) : Option Nat :=
  match cs with
  | '-' :: cs =>
    let value := match cs with
      | '0' :: 'x' :: digits => digits? 16 digits
      | '0' :: 'o' :: digits => digits? 8 digits
      | '0' :: 'b' :: digits => digits? 2 digits
      | '0' :: _ :: _ => none
      | digits => digits? 10 digits
    value.filter (· == 0)
  | cs => match dropPlus cs with
    | '0' :: 'x' :: digits => digits? 16 (dropPlus digits)
    | '0' :: 'o' :: digits => digits? 8 (dropPlus digits)
    | '0' :: 'b' :: digits => digits? 2 (dropPlus digits)
    | '0' :: _ :: _ => none
    | digits => digits? 10 digits

/-- The number of a text tagged as an integer: a decimal with an optional sign. -/
def taggedNatural? (cs : List Char) : Option Nat :=
  match cs with
  | '-' :: digits => (digits? 10 digits).filter (· == 0)
  | cs => digits? 10 (dropPlus cs)

/-- The number that a scalar stands for, below `2 ^ 64`, or below `2 ^ 63` behind an integer tag. -/
def natural? (s : Scalar) : Option Nat :=
  match s.tag with
  | none =>
    if s.style = .plain then (plainNatural? s.text.toList).filter (· < Bytes.range64) else none
  | some tag =>
    if tag = ⟨"!!", "int"⟩ then
      (taggedNatural? s.text.toList).filter (· < Bytes.range64 / 2)
    else none

end Scalar

end Lockstep.Yaml
