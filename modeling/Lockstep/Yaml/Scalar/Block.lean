import Lockstep.Yaml.Input

/-!
# Block text

A block text is the lines below its mark that are indented to its width. The header after the mark
may give the width relative to the surrounding block, and says what becomes of the breaks at the
end. A literal text keeps its breaks, a folded one joins its lines.
-/

namespace Lockstep.Yaml.Block

/-- What becomes of the breaks at the end. -/
inductive Tail where
  /-- None is kept. -/
  | strip
  /-- The break of the last line is kept. -/
  | clip
  /-- All are kept. -/
  | keep
  deriving DecidableEq, Repr

def tail? : Option Char → Option Tail
  | some '+' => some .keep
  | some '-' => some .strip
  | _ => none

/-- The tail and the relative width that a header gives, the width zero where it gives none, and the
number of characters that it takes. A width is one digit, and not zero. -/
def header? (cs : List Char) : Option (Tail × Nat × Nat) :=
  match tail? cs.head? with
  | some tail => match cs.tail.head? with
    | none => some (tail, 0, 1)
    | some ch =>
      if ch == '0' then none
      else if isDigit ch then some (tail, ch.toNat - 48, 2)
      else some (tail, 0, 1)
  | none => match cs.head? with
    | none => some (.clip, 0, 0)
    | some ch =>
      if ch == '0' then none
      else if isDigit ch then match tail? cs.tail.head? with
        | some tail => some (tail, ch.toNat - 48, 2)
        | none => some (.clip, ch.toNat - 48, 1)
      else some (.clip, 0, 0)

/-- Empty lines that were passed: their number, and the widest indentation met. -/
structure Gap where
  breaks : Nat
  widest : Nat
  input : Input

/-- Passes the indentation, up to `width` if that is known already, and all empty lines. -/
def gap? (width : Option Nat) : (fuel : Nat) → Gap → Option Gap
  | 0, _ => none
  | fuel + 1, g =>
    let i := g.input
    let blanks := (i.rest.takeWhile (· == ' ')).length
    let i := i.skip (match width with
      | none => blanks
      | some width => min blanks (width - i.column))
    let g : Gap := { g with widest := max g.widest i.column, input := i }
    match i.next with
    | none => some g
    | some ch =>
      if ch == '\t' && width.all (i.column < ·) then none
      else if isBreak ch then
        gap? width fuel { g with breaks := g.breaks + 1, input := i.skipBreak }
      else some g

/-- The lines read so far: the text, last character first, whether the break of its last line and
how many empty lines are still to be added, and whether its last line starts with a blank. -/
structure Lines where
  text : List Char
  pending : Bool
  breaks : Nat
  blankStart : Bool
  input : Input

/-- What joins a line to the text before it. -/
def joint (literal : Bool) (l : Lines) (blankStart : Bool) : List Char :=
  let first :=
    if !l.pending then []
    else if literal || l.blankStart || blankStart then ['\n']
    else if l.breaks = 0 then [' ']
    else []
  List.replicate l.breaks '\n' ++ first

/-- Reads the lines whose indentation is `width`. No gap has more than `bound` breaks. -/
def lines? (literal : Bool) (width bound : Nat) : (fuel : Nat) → Lines → Option Lines
  | 0, _ => none
  | fuel + 1, l =>
    if l.input.column ≠ width || l.input.rest.isEmpty then some l
    else
      let blankStart := l.input.next.any isBlank
      let line := l.input.rest.takeWhile (!isBreak ·)
      let text := line.reverse ++ (joint literal l blankStart ++ l.text)
      let i := l.input.skip line.length
      if i.rest.isEmpty then some ⟨text, false, 0, blankStart, i⟩
      else match gap? (some width) bound ⟨0, 0, i.skipBreak⟩ with
        | none => none
        | some g => lines? literal width bound fuel ⟨text, true, g.breaks, blankStart, g.input⟩

/-- Reads on behind the mark. `margin` is the least indentation inside the surrounding block, and
`fuel` exceeds the number of lines. -/
def read (literal : Bool) (margin fuel : Nat) (i : Input) : Option (List Char × Input) := do
  let (tail, width, taken) ← header? i.rest
  let i ← (i.skip taken).skipLineEnd?
  let known := if width = 0 then none else some (margin - 1 + width)
  let g ← gap? known fuel ⟨0, 0, i⟩
  let width := known.getD (max (max g.widest margin) 1)
  let l ← lines? literal width fuel fuel ⟨[], false, g.breaks, false, g.input⟩
  let last := if l.pending && tail != .strip then ['\n'] else []
  let empty := if tail == .keep then List.replicate l.breaks '\n' else []
  return (l.text.reverse ++ last ++ empty, l.input)

end Lockstep.Yaml.Block
