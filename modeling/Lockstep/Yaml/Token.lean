import Lockstep.Yaml.Scalar
import Lockstep.Yaml.Scalar.Block
import Lockstep.Yaml.Scalar.Plain
import Lockstep.Yaml.Scalar.Quoted

/-!
# Tokens

A text is a sequence of tokens. Blocks have no brackets in the text: a block opens where a line
starts further right than the blocks around it, and closes where a line starts further left. The key
of an entry is known as one only when the colon behind it is met, so the places where a key may have
started are remembered and the token that announces it is put in afterwards.
-/

namespace Lockstep.Yaml

inductive Token where
  | directive
  | documentStart
  | documentEnd
  | blockSequence
  | blockMapping
  | blockEnd
  | flowSequence
  | flowSequenceEnd
  | flowMapping
  | flowMappingEnd
  /-- The dash of an item of a block. -/
  | item
  | comma
  | key
  | value
  | alias (name : String)
  | anchor (name : String)
  | tag (tag : Tag)
  | scalar (style : Style) (text : String)
  deriving DecidableEq, Repr

/-- The tokens found so far, last first, and their number. -/
structure Found where
  tokens : List Token := []
  count : Nat := 0
  count_eq : count = tokens.length := by rfl

namespace Found

def push (f : Found) (t : Token) : Found := ⟨t :: f.tokens, f.count + 1, by simp [f.count_eq]⟩

/-- Puts `ts` behind the first `place` tokens. -/
def insert (f : Found) (place : Nat) (ts : List Token) : Found where
  tokens := f.tokens.take (f.count - place) ++ (ts.reverse ++ f.tokens.drop (f.count - place))
  count := f.count + ts.length
  count_eq := by
    have := f.count_eq
    simp only [List.length_append, List.length_take, List.length_reverse, List.length_drop]
    omega

def toList (f : Found) : List Token := f.tokens.reverse

@[simp] theorem toList_push (f : Found) (t : Token) : (f.push t).toList = f.toList ++ [t] := by
  simp [push, toList]

/-- The tokens before the place stay in front, and those found since come last. -/
theorem toList_insert (f : Found) (place : Nat) (ts : List Token) :
    (f.insert place ts).toList = f.toList.take place ++ ts ++ f.toList.drop place := by
  have hc := f.count_eq
  simp [insert, toList, List.take_reverse, List.drop_reverse, ← hc]

end Found

/-- A place where a key may have started. -/
structure PossibleKey where
  position : Position
  /-- Nothing but a key can stand there. -/
  required : Bool
  /-- How many tokens precede it. -/
  place : Nat
  deriving DecidableEq, Repr

/-- A key and its colon stand on one line, and not too far apart. -/
def PossibleKey.isStale (k : PossibleKey) (p : Position) : Bool :=
  k.position.line < p.line || k.position.index + 1024 < p.index

/-- The state of a reading: the tokens found so far, and what the next one depends on. -/
structure Scan where
  input : Input
  /-- No part of the text takes more steps than this to read. -/
  bound : Nat
  found : Found := {}
  /-- The columns of the open blocks, innermost first. -/
  indents : List Nat := []
  /-- The last possible key at the current depth of brackets. -/
  key : Option PossibleKey := none
  /-- The same for every bracket that is open around it. -/
  outerKeys : List (Option PossibleKey) := []
  keyAllowed : Bool := true
  /-- The index behind the last quoted scalar: a colon there needs no blank inside brackets. -/
  quotedEnd : Option Nat := none

namespace Scan

def inFlow (s : Scan) : Bool := !s.outerKeys.isEmpty

def column (s : Scan) : Nat := s.input.column

/-- The least column of what belongs to the innermost block. -/
def margin (s : Scan) : Nat :=
  match s.indents with
  | [] => 0
  | column :: _ => column + 1

def skip (s : Scan) (n : Nat) : Scan := { s with input := s.input.skip n }

def emit (s : Scan) (t : Token) : Scan := { s with found := s.found.push t }

def allowKey (s : Scan) (allowed : Bool) : Scan := { s with keyAllowed := allowed }

/-! ## Keys and blocks -/

/-- Gives up the possible key at the current depth. -/
def dropKey? (s : Scan) : Option Scan :=
  if s.key.any (·.required) then none else some { s with key := none }

/-- Notes that a key may start here. -/
def offerKey? (s : Scan) : Option Scan :=
  if s.keyAllowed then do
    let s ← s.dropKey?
    let required := s.inFlow && s.indents.head? == some s.column
    return { s with key := some ⟨s.input.position, required, s.found.count⟩ }
  else some s

/-- The key, unless it is stale; a key that is required may not be. -/
def freshKey? (p : Position) : Option PossibleKey → Option (Option PossibleKey)
  | none => some none
  | some k => if k.isStale p then (if k.required then none else some none) else some (some k)

def dropStaleKeys? (s : Scan) : Option Scan := do
  let key ← freshKey? s.input.position s.key
  let outerKeys ← s.outerKeys.mapM (freshKey? s.input.position)
  return { s with key, outerKeys }

/-- Closes the blocks whose columns satisfy `closes`, from the innermost on. -/
def closeBlocks (s : Scan) (closes : Nat → Bool) : Scan :=
  if s.inFlow then s
  else
    { s with
      found := (s.indents.takeWhile closes).foldl (fun found _ => found.push .blockEnd) s.found
      indents := s.indents.dropWhile closes }

/-- A block opens at a column right of the open ones. -/
def opensAt (s : Scan) (column : Nat) : Bool := !s.inFlow && s.margin ≤ column

def openBlock (s : Scan) (column : Nat) (t : Token) : Scan :=
  if s.opensAt column then { s.emit t with indents := column :: s.indents } else s

/-- Puts the announcement of a key in front of the tokens found since it started, and in front of
that the start of its block, if it is the first key there. -/
def insertKey (s : Scan) (k : PossibleKey) : Scan :=
  if s.opensAt k.position.column then
    { s with
      found := s.found.insert k.place [.blockMapping, .key]
      indents := k.position.column :: s.indents
      key := none }
  else { s with found := s.found.insert k.place [.key], key := none }

/-! ## Single tokens -/

def directive? (s : Scan) : Option Scan := do
  let s ← (s.closeBlocks fun _ => true).dropKey?
  let input ← Directive.read? s.input
  return ({ s with input }.emit .directive).allowKey false

def documentMark? (s : Scan) (t : Token) : Option Scan := do
  let s ← (s.closeBlocks fun _ => true).dropKey?
  return ((s.skip 3).emit t).allowKey false

/-- Brackets nest at most so deep. -/
def maxDepth : Nat := 255

def openFlow? (s : Scan) (t : Token) : Option Scan := do
  let s ← s.offerKey?
  if s.outerKeys.length < maxDepth then
    let s := { s with key := none, outerKeys := s.key :: s.outerKeys }
    return ((s.skip 1).emit t).allowKey true
  else none

def closeFlow? (s : Scan) (t : Token) : Option Scan := do
  let s ← s.dropKey?
  let s := match s.outerKeys with
    | [] => s
    | key :: outerKeys => { s with key, outerKeys }
  return ((s.skip 1).emit t).allowKey false

def comma? (s : Scan) : Option Scan := do
  let s ← s.dropKey?
  return ((s.skip 1).emit .comma).allowKey true

def item? (s : Scan) : Option Scan :=
  if s.inFlow || !s.keyAllowed then none
  else do
    let s ← (s.openBlock s.column .blockSequence).dropKey?
    return (s.skip 1).emit .item

def explicitKey? (s : Scan) : Option Scan :=
  if !s.inFlow && !s.keyAllowed then none
  else do
    let s ← (s.openBlock s.column .blockMapping).dropKey?
    return ((s.skip 1).emit .key).allowKey !s.inFlow

def value? (s : Scan) : Option Scan :=
  match s.key with
  | some k => some (((s.insertKey k).skip 1).emit .value |>.allowKey false)
  | none =>
    if !s.inFlow && !s.keyAllowed then none
    else
      let s := s.openBlock s.column .blockMapping
      some (((s.skip 1).emit .value).allowKey !s.inFlow)

def name? (s : Scan) (token : String → Token) : Option Scan := do
  let s ← s.offerKey?
  let (name, input) ← anchorName? (s.input.skip 1)
  return ({ s with input }.emit (token name)).allowKey false

def tag? (s : Scan) : Option Scan := do
  let s ← s.offerKey?
  let (tag, input) ← Tag.read? s.input
  return ({ s with input }.emit (.tag tag)).allowKey false

def blockScalar? (s : Scan) (literal : Bool) : Option Scan := do
  let s ← s.offerKey?
  let (text, input) ← Block.read literal s.margin s.bound (s.input.skip 1)
  let style := if literal then Style.literal else .folded
  return ({ s with input }.emit (.scalar style (String.ofList text))).allowKey true

def quotedScalar? (s : Scan) (mark : Char) : Option Scan := do
  let s ← s.offerKey?
  let (text, input) ← Quoted.read mark s.bound [] (s.input.skip 1)
  let style := if mark == '\x27' then Style.singleQuoted else .doubleQuoted
  let s := { s with input, quotedEnd := some input.position.index }
  return (s.emit (.scalar style (String.ofList text))).allowKey false

def plainScalar? (s : Scan) : Option Scan := do
  let s ← s.offerKey?
  let r ← Plain.read s.inFlow s.margin s.bound s.input
  let s := { s with input := r.input }
  return (s.emit (.scalar .plain (String.ofList r.text))).allowKey r.broken

/-- Whether a colon that `next` follows is a token of its own. -/
def startsValue (s : Scan) (next : Option Char) : Bool :=
  endsMark next
    || (s.inFlow && (next.any isFlowMark || s.quotedEnd == some s.input.position.index))

/-- Reads the token that starts with `ch`, which `next` follows. -/
def token? (s : Scan) (ch : Char) (next : Option Char) : Option Scan :=
  if ch == '%' && s.column == 0 then s.directive?
  else if s.input.documentMark? == some '-' then s.documentMark? .documentStart
  else if s.input.documentMark? == some '.' then s.documentMark? .documentEnd
  else if ch == '[' then s.openFlow? .flowSequence
  else if ch == '\x7b' then s.openFlow? .flowMapping
  else if ch == ']' then s.closeFlow? .flowSequenceEnd
  else if ch == '\x7d' then s.closeFlow? .flowMappingEnd
  else if ch == ',' then s.comma?
  else if ch == '-' && endsMark next then s.item?
  else if ch == '?' && endsMark next then s.explicitKey?
  else if ch == ':' && s.startsValue next then s.value?
  else if ch == '*' then s.name? .alias
  else if ch == '&' then s.name? .anchor
  else if ch == '!' then s.tag?
  else if ch == '|' && !s.inFlow then s.blockScalar? true
  else if ch == '>' && !s.inFlow then s.blockScalar? false
  else if ch == '\x27' || ch == '\x22' then s.quotedScalar? ch
  else if ch == '%' || ch == '@' || ch == '\x60' then none
  else s.plainScalar?

/-! ## The whole text -/

/-- Passes blanks, breaks and comments. A new line allows a key outside brackets; a tab is passed
only where no key may start. Gives what follows and whether a key may start there. -/
def passGap (flow : Bool) : (comment allowed : Bool) → Position → List Char → Input × Bool
  | _, allowed, p, [] => (⟨p, []⟩, allowed)
  | comment, allowed, p, ch :: cs =>
    if isBreak ch then passGap flow false (allowed || !flow) (p.after ch) cs
    else if comment || ch == ' ' || ch == '#' || (ch == '\t' && (flow || !allowed)) then
      passGap flow (comment || ch == '#') allowed (p.after ch) cs
    else (⟨p, ch :: cs⟩, allowed)

/-- Goes to the start of the next token and settles which keys and blocks end before it. -/
def advance? (s : Scan) : Option Scan := do
  let (input, keyAllowed) := passGap s.inFlow false s.keyAllowed s.input.position s.input.rest
  let s ← { s with input, keyAllowed }.dropStaleKeys?
  return s.closeBlocks (s.column < ·)

/-- All tokens from here to the end of the text. -/
def run : (fuel : Nat) → Scan → Option (List Token)
  | 0, _ => none
  | fuel + 1, s => match s.advance? with
    | none => none
    | some s => match s.input.rest with
      | [] => (s.closeBlocks fun _ => true).dropKey?.map (·.found.toList)
      | ch :: cs => match s.token? ch cs.head? with
        | none => none
        | some s => run fuel s

end Scan

/-- The tokens of a text. Every token takes at least one character. -/
def Token.scan? (text : String) : Option (List Token) :=
  let bound := text.length + 1
  Scan.run bound { input := .ofString text, bound }

end Lockstep.Yaml
