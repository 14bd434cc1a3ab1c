import Lockstep.Yaml.Token

/-!
# Nodes

A document is a tree of scalars, sequences and mappings. An alias stands for the node that the last
anchor of its name marked before it, and a node cannot stand inside itself. A text is accepted only
if it holds exactly one document.
-/

namespace Lockstep.Yaml

inductive Node where
  | scalar (scalar : Scalar)
  | sequence (items : List Node)
  | mapping (entries : List (Node × Node))
  deriving Repr

namespace Node

/-- What stands for a node that is left out. -/
def missing : Node := .scalar .missing

/-- The tokens still to be read, and the marked nodes, last first. A node that is not complete yet
has no value. -/
structure Stream where
  tokens : List Token
  marked : List (String × Option Node) := []

namespace Stream

def drop (s : Stream) (n : Nat) : Stream := { s with tokens := s.tokens.drop n }

def mark (s : Stream) (name : Option String) (node : Option Node) : Stream :=
  match name with
  | none => s
  | some name => { s with marked := (name, node) :: s.marked }

def aliased? (s : Stream) (name : String) : Option Node :=
  (s.marked.find? (·.1 == name)).bind (·.2)

end Stream

/-- The anchor and the tag of a node, in either order, and how many tokens they are. -/
def properties : List Token → Option String × Option Tag × Nat
  | .anchor name :: .tag tag :: _ => (some name, some tag, 2)
  | .anchor name :: _ => (some name, none, 1)
  | .tag tag :: .anchor name :: _ => (some name, some tag, 2)
  | .tag tag :: _ => (none, some tag, 1)
  | _ => (none, none, 0)

/-- A way to read something from a stream. -/
abbrev Reading (α : Type) := Stream → Option (α × Stream)

/-- Reads a node, or takes it as left out before a token that `ends` it. -/
def orMissing (ends : Token → Bool) (read : Reading Node) : Reading Node := fun s =>
  if s.tokens.head?.any ends then some (missing, s) else read s

/-- Reads the value of an entry, which may be left out together with its mark. -/
def valueOrMissing (ends : Token → Bool) (read : Reading Node) : Reading Node := fun s =>
  match s.tokens with
  | .value :: _ => orMissing ends read (s.drop 1)
  | _ => some (missing, s)

/-- The tokens before which an item of a block may be left out. -/
def endsItem : Token → Bool
  | .item | .key | .value | .blockEnd => true
  | _ => false

/-- The tokens before which a key or a value of a block may be left out. A dash is none of them: the
items of a value may stand at the column of its key. -/
def endsEntry : Token → Bool
  | .key | .value | .blockEnd => true
  | _ => false

/-- The tokens before which a key or a value inside brackets may be left out. -/
def endsFlow : Token → Bool
  | .value | .comma | .flowSequenceEnd | .flowMappingEnd => true
  | _ => false

/-- The tokens before which a whole document may be left out. -/
def endsDocument : Token → Bool
  | .directive | .documentStart | .documentEnd => true
  | _ => false

/-- Passes the comma in front of every part of a bracketed collection but the first. -/
def pastComma? (first : Bool) (s : Stream) : Option Stream :=
  if first then some s
  else match s.tokens with
    | .comma :: _ => some (s.drop 1)
    | _ => none

mutual

/-- Reads a node. Blocks start only where `block` holds, and items without a block of their own only
where `bare` holds. A node may consist of an anchor or a tag alone. -/
def read : (fuel : Nat) → (block bare : Bool) → Reading Node
  | 0, _, _, _ => none
  | fuel + 1, block, bare, s => match s.tokens with
    | .alias name :: _ => (s.aliased? name).map fun node => (node, s.drop 1)
    | tokens =>
      let (name, tag, count) := properties tokens
      let s := (s.drop count).mark name none
      let nothing : Option (Node × Stream) :=
        if count = 0 then none else some (.scalar ⟨.plain, "", tag⟩, s)
      let sequence (found : List Node × Stream) := (Node.sequence found.1, found.2)
      let mapping (found : List (Node × Node) × Stream) := (Node.mapping found.1, found.2)
      let found : Option (Node × Stream) := match s.tokens with
        | .scalar style text :: _ => some (.scalar ⟨style, text, tag⟩, s.drop 1)
        | .flowSequence :: _ => (flowItems fuel true (s.drop 1)).map sequence
        | .flowMapping :: _ => (flowEntries fuel true (s.drop 1)).map mapping
        | .blockSequence :: _ =>
          if block then (items fuel false (s.drop 1)).map sequence else nothing
        | .blockMapping :: _ => if block then (entries fuel (s.drop 1)).map mapping else nothing
        | .item :: _ => if bare then (items fuel true s).map sequence else nothing
        | _ => nothing
      found.map fun (node, s) => (node, s.mark name (some node))

/-- Reads the items of a block, to its end or, if they are `bare`, as far as they go. -/
def items : (fuel : Nat) → (bare : Bool) → Reading (List Node)
  | 0, _, _ => none
  | fuel + 1, bare, s => match s.tokens with
    | .item :: _ => do
      let (node, s) ← orMissing endsItem (read fuel true false) (s.drop 1)
      let (nodes, s) ← items fuel bare s
      return (node :: nodes, s)
    | .blockEnd :: _ => some ([], if bare then s else s.drop 1)
    | _ => if bare then some ([], s) else none

/-- Reads the entries of a block, to its end. -/
def entries : (fuel : Nat) → Reading (List (Node × Node))
  | 0, _ => none
  | fuel + 1, s =>
    let entry (key : Node) (s : Stream) : Option (List (Node × Node) × Stream) := do
      let (value, s) ← valueOrMissing endsEntry (read fuel true true) s
      let (others, s) ← entries fuel s
      return ((key, value) :: others, s)
    match s.tokens with
    | .key :: _ => do
      let (key, s) ← orMissing endsEntry (read fuel true true) (s.drop 1)
      entry key s
    | .value :: _ => entry missing s
    | .blockEnd :: _ => some ([], s.drop 1)
    | _ => none

/-- Reads the items in brackets. An item may be a single entry without brackets of its own. -/
def flowItems : (fuel : Nat) → (first : Bool) → Reading (List Node)
  | 0, _, _ => none
  | fuel + 1, first, s => match s.tokens with
    | .flowSequenceEnd :: _ => some ([], s.drop 1)
    | _ => do
      let s ← pastComma? first s
      match s.tokens with
      | .flowSequenceEnd :: _ => some ([], s.drop 1)
      | .key :: _ =>
        let (key, s) ← orMissing endsFlow (read fuel false false) (s.drop 1)
        let (value, s) ← valueOrMissing endsFlow (read fuel false false) s
        let (nodes, s) ← flowItems fuel false s
        return (.mapping [(key, value)] :: nodes, s)
      | _ =>
        let (node, s) ← read fuel false false s
        let (nodes, s) ← flowItems fuel false s
        return (node :: nodes, s)

/-- Reads the entries in brackets. A node that is not announced as a key has no value. -/
def flowEntries : (fuel : Nat) → (first : Bool) → Reading (List (Node × Node))
  | 0, _, _ => none
  | fuel + 1, first, s => match s.tokens with
    | .flowMappingEnd :: _ => some ([], s.drop 1)
    | _ => do
      let s ← pastComma? first s
      match s.tokens with
      | .flowMappingEnd :: _ => some ([], s.drop 1)
      | .key :: _ =>
        let (key, s) ← orMissing endsFlow (read fuel false false) (s.drop 1)
        let (value, s) ← valueOrMissing endsFlow (read fuel false false) s
        let (others, s) ← flowEntries fuel false s
        return ((key, value) :: others, s)
      | .value :: _ =>
        let (value, s) ← valueOrMissing endsFlow (read fuel false false) s
        let (others, s) ← flowEntries fuel false s
        return ((missing, value) :: others, s)
      | _ =>
        let (key, s) ← read fuel false false s
        let (others, s) ← flowEntries fuel false s
        return ((key, missing) :: others, s)

end

/-- The node of the only document. A document may start with a mark, and must do so after
directives; any number of marks may end it. -/
def ofTokens? (tokens : List Token) : Option Node := do
  let fuel := 3 * tokens.length + 3
  let (node, s) ← match tokens.dropWhile (· == .directive) with
    | [.documentStart] => some (missing, ⟨[], []⟩)
    | .documentStart :: body => orMissing endsDocument (read fuel true false) ⟨body, []⟩
    | body => if body.length = tokens.length then read fuel true false ⟨body, []⟩ else none
  if s.tokens.all (· == .documentEnd) then some node else none

/-- The node of a text with one document. -/
def parse? (text : String) : Option Node := do
  let tokens ← Token.scan? text
  ofTokens? tokens

end Node

end Lockstep.Yaml
