import Lockstep.Yaml.Input

/-!
# Quoted text

Between single marks a doubled mark stands for one; between double marks a backslash starts an
escape. Gaps are folded, except that an escaped break joins its lines without a blank.
-/

namespace Lockstep.Yaml.Quoted

/-- The character that a backslash and one more character stand for. -/
def simpleEscape? : Char → Option Char
  | '0' => some '\x00'
  | 'a' => some '\x07'
  | 'b' => some '\x08'
  | 't' => some '\t'
  | '\t' => some '\t'
  | 'n' => some '\n'
  | 'v' => some '\x0b'
  | 'f' => some '\x0c'
  | 'r' => some '\r'
  | 'e' => some '\x1b'
  | ' ' => some ' '
  | '\x22' => some '\x22'
  | '\x27' => some '\x27'
  | '\\' => some '\\'
  | 'N' => some '\u0085'
  | '_' => some '\u00a0'
  | 'L' => some '\u2028'
  | 'P' => some '\u2029'
  | _ => none

/-- How many hexadecimal digits of a character code follow. -/
def codeWidth? : Char → Option Nat
  | 'x' => some 2
  | 'u' => some 4
  | 'U' => some 8
  | _ => none

/-- The character of the escape after a backslash, and the number of characters that it takes. -/
def escape? : List Char → Option (Char × Nat)
  | [] => none
  | ch :: cs => match simpleEscape? ch with
    | some plain => some (plain, 1)
    | none => do
      let width ← codeWidth? ch
      let digits := cs.take width
      if digits.length = width then
        let code ← digits? 16 digits
        let char ← charOf? code
        return (char, width + 1)
      else none

/-- Reads on behind the opening mark; `text` is what was read so far, the last character first.
Gives the text and what follows the closing mark. -/
def read (mark : Char) : (fuel : Nat) → (text : List Char) → Input → Option (List Char × Input)
  | 0, _, _ => none
  | fuel + 1, text, i =>
    if i.documentMark?.isSome then none
    else match i.rest with
      | [] => none
      | ch :: cs =>
        if isSpace ch then
          let gap := i.rest.takeWhile isSpace
          read mark fuel ((foldGap gap).reverse ++ text) (i.skip gap.length)
        else if ch == mark then
          if mark == '\x27' && cs.head? == some mark then read mark fuel (mark :: text) (i.skip 2)
          else some (text.reverse, i.skip 1)
        else if ch == '\\' && mark == '\x22' then
          if cs.head?.any isBreak then
            let i := (i.skip 1).skipBreak
            let gap := i.rest.takeWhile isSpace
            read mark fuel (List.replicate (countBreaks gap) '\n' ++ text) (i.skip gap.length)
          else match escape? cs with
            | none => none
            | some (escaped, width) => read mark fuel (escaped :: text) (i.skip (width + 1))
        else read mark fuel (ch :: text) (i.skip 1)

end Lockstep.Yaml.Quoted
