import Lockstep.Yaml.Input

/-!
# Plain text

A plain text is a run of words with gaps between them. A colon that stands alone ends it, as does a
comment after a gap, a line that starts left of the margin, and inside brackets a bracket or a
comma.
-/

namespace Lockstep.Yaml.Plain

/-- Whether a word ends before `ch`, which `next` follows. -/
def stops (flow : Bool) (ch : Char) (next : Option Char) : Bool :=
  isSpace ch || (flow && isFlowMark ch)
    || (ch == ':' && (endsMark next || (flow && next.any isFlowMark)))

/-- The word at the front. -/
def word (flow : Bool) : List Char → List Char
  | [] => []
  | ch :: cs => if stops flow ch cs.head? then [] else ch :: word flow cs

/-- Whether a gap holds a tab left of the margin on a line after its first break. -/
def tabInMargin (margin : Nat) : Position → (broken : Bool) → List Char → Bool
  | _, _, [] => false
  | p, broken, ch :: cs =>
    (broken && ch == '\t' && p.column < margin)
      || tabInMargin margin (p.after ch) (broken || isBreak ch) cs

/-- A text that was read: `broken` says that a line ended between the text and what follows. -/
structure Reading where
  text : List Char
  broken : Bool
  input : Input

/-- Reads the rest of a text, starting where a word may start. -/
def read (flow : Bool) (margin : Nat) : (fuel : Nat) → Input → Option Reading
  | 0, _ => none
  | fuel + 1, i =>
    if i.documentMark?.isSome || i.next == some '#' then some ⟨[], false, i⟩
    else
      let w := word flow i.rest
      let i := i.skip w.length
      let gap := i.rest.takeWhile isSpace
      let after := i.skip gap.length
      let broken := gap.any isBreak
      if gap.isEmpty then some ⟨w, false, i⟩
      else if tabInMargin margin i.position false gap then none
      else if !flow && after.column < margin then some ⟨w, broken, after⟩
      else match read flow margin fuel after with
        | none => none
        | some r =>
          if r.text.isEmpty then some ⟨w, broken, r.input⟩
          else some { r with text := w ++ foldGap gap ++ r.text }

end Lockstep.Yaml.Plain
