import Lockstep.Config
import Lockstep.Yaml.Node

/-!
# Configuration texts

A configuration is written as a document with one `name: value` line per field. Reading takes any
subset of the fields in any order, the absent ones keeping their defaults; an unknown or repeated
name, a value that is no number below `2 ^ 64`, and a policy other than the two known ones are
refused. A list of values fills the fields in order.
-/

namespace Lockstep.Config

inductive Field where
  | concurrencyLevel
  | maxCallDepth
  | gasLimit
  | scheduleTimeoutMs
  | conflictPolicy
  | maxGovernanceRetries
  deriving DecidableEq, Repr

namespace Field

/-- The fields in the order in which they are written. -/
def all : List Field :=
  [.concurrencyLevel, .maxCallDepth, .gasLimit, .scheduleTimeoutMs, .conflictPolicy,
    .maxGovernanceRetries]

def name : Field → String
  | .concurrencyLevel => "concurrency_level"
  | .maxCallDepth => "max_call_depth"
  | .gasLimit => "gas_limit"
  | .scheduleTimeoutMs => "schedule_timeout_ms"
  | .conflictPolicy => "conflict_policy"
  | .maxGovernanceRetries => "max_governance_retries"

def ofName? (name : String) : Option Field := all.find? (·.name == name)

end Field

open Yaml (Node Scalar)

def readNumber? : Node → Option Nat
  | .scalar s => s.natural?
  | _ => none

def policyOfText? (text : String) : Option ConflictPolicy :=
  if text == "reexecute" then some .reexecute
  else if text == "defer" then some .defer
  else none

/-- Whether the tag of a scalar is the name of a policy. -/
def isPolicyTag (s : Scalar) : Bool :=
  s.tag.any fun tag => tag.handle == "!" && (policyOfText? tag.suffix).isSome

/-- A policy is written as its name, in any style, or as a mapping of the name to null. The name may
not be given as a tag. -/
def readPolicy? : Node → Option ConflictPolicy
  | .scalar s => if isPolicyTag s then none else policyOfText? s.text
  | .mapping [(.scalar name, .scalar value)] =>
    if value.isNull then policyOfText? name.text else none
  | _ => none

def set? (c : Config) (field : Field) (value : Node) : Option Config :=
  match field with
  | .concurrencyLevel => (readNumber? value).map fun n => { c with concurrencyLevel := n }
  | .maxCallDepth => (readNumber? value).map fun n => { c with maxCallDepth := n }
  | .gasLimit => (readNumber? value).map fun n => { c with gasLimit := n }
  | .scheduleTimeoutMs => (readNumber? value).map fun n => { c with scheduleTimeoutMs := n }
  | .conflictPolicy => (readPolicy? value).map fun p => { c with conflictPolicy := p }
  | .maxGovernanceRetries => (readNumber? value).map fun n => { c with maxGovernanceRetries := n }

/-- The field that a key names. -/
def fieldOfKey? : Node → Option Field
  | .scalar name => Field.ofName? name.text
  | _ => none

/-- Sets the named fields, refusing a name that is unknown or among `seen`. -/
def setAll? (c : Config) (seen : List Field) : List (Node × Node) → Option Config
  | [] => some c
  | (key, value) :: rest => do
    let field ← fieldOfKey? key
    if seen.contains field then none
    else do
      let c ← c.set? field value
      c.setAll? (field :: seen) rest

/-- Sets the fields in order; there are no more values than fields. -/
def fill? (c : Config) : List Field → List Node → Option Config
  | _, [] => some c
  | [], _ :: _ => none
  | field :: fields, value :: values => do
    let c ← c.set? field value
    c.fill? fields values

/-- The defaults on a machine of that many cores: a worker for each of them. -/
def onCores (cores : Nat) : Config := { concurrencyLevel := cores }

def ofNode? (cores : Nat) : Node → Option Config
  | .scalar _ => none
  | .sequence values => fill? (onCores cores) Field.all values
  | .mapping entries => setAll? (onCores cores) [] entries

def parse? (text : String) (cores : Nat := 1) : Option Config := do
  let node ← Node.parse? text
  ofNode? cores node

def valueText (c : Config) : Field → String
  | .concurrencyLevel => toString c.concurrencyLevel
  | .maxCallDepth => toString c.maxCallDepth
  | .gasLimit => toString c.gasLimit
  | .scheduleTimeoutMs => toString c.scheduleTimeoutMs
  | .conflictPolicy => c.conflictPolicy.text
  | .maxGovernanceRetries => toString c.maxGovernanceRetries

def line (c : Config) (field : Field) : String := field.name ++ ": " ++ c.valueText field ++ "\n"

/-- The block that gives the listed fields their values. -/
def block (c : Config) (fields : List Field) : String := String.join (fields.map c.line)

def render (c : Config) : String := "---\n" ++ c.block Field.all

/-! ## Files -/

/-- The place of a configuration file: whether its folder exists, and what the file holds. -/
structure File where
  folderExists : Bool
  content : Option String := none
  deriving DecidableEq, Repr

inductive FileError where
  | cannotWrite
  | cannotRead
  | malformed
  deriving DecidableEq, Repr

def save (c : Config) (file : File) : Except FileError File :=
  if file.folderExists then .ok { file with content := some c.render } else .error .cannotWrite

def load (file : File) (cores : Nat := 1) : Except FileError Config :=
  match file.content with
  | none => .error .cannotRead
  | some text => match parse? text cores with
    | none => .error .malformed
    | some c => .ok c

end Lockstep.Config
