import Lockstep.Context

/-!
# Scripted contracts

A script is a list of operations on the context. It costs one unit of gas to enter, gives what its
last read, call or scan gave, and stops at the first operation that fails. A few methods are built
in and behave the same on every contract; they are not scripts and are not counted.
-/

namespace Lockstep

/-- A method of a contract, by name. -/
structure MethodId where
  contract : String
  method : String
  deriving DecidableEq, Repr

namespace MethodId

instance : Ord MethodId where
  compare := compareLex (compareOn fun m => m.contract) (compareOn fun m => m.method)

instance : Std.TransOrd MethodId :=
  inferInstanceAs (Std.TransCmp
    (compareLex (compareOn fun m : MethodId => m.contract)
      (compareOn fun m : MethodId => m.method)))

instance : Std.LawfulEqOrd MethodId where
  compare_self := Std.ReflOrd.compare_self
  eq_of_compare := by
    intro a b h
    obtain ⟨ca, ma⟩ := a
    obtain ⟨cb, mb⟩ := b
    have h' : compareLex (compareOn fun m : MethodId => m.contract)
      (compareOn fun m : MethodId => m.method) ⟨ca, ma⟩ ⟨cb, mb⟩ = .eq := h
    rw [compareLex, Ordering.then_eq_eq] at h'
    obtain ⟨h₁, h₂⟩ := h'
    have hc := Std.LawfulEqOrd.eq_of_compare h₁
    have hm := Std.LawfulEqOrd.eq_of_compare h₂
    simp_all

end MethodId

inductive ScriptOp where
  | get (contract : String) (key : Bytes)
  | put (contract : String) (key value : Bytes)
  | del (contract : String) (key : Bytes)
  | record (record : Record)
  | call (contract : Contract) (method : String)
  /-- Concatenates the values of a key range. -/
  | scan (contract : String) (start limit : Bytes) (close : Bool)
  | gas (amount : Nat)
  | fail (message : String)
  /-- Fails with an internal error while the script has been entered at most `times` times. -/
  | failInternal (times : Nat)
  | sleep (milliseconds : Nat)
  deriving DecidableEq, Repr

abbrev ScriptTable := SortedMap MethodId (List ScriptOp)

/-- Adds to the gas used, which is kept in 64 bits; a sum that no longer fits ends the run. -/
def spend (gas amount : Nat) : Behaviour Nat :=
  if gas + amount < Bytes.range64 then return gas + amount
  else do
    let impossible ← Behaviour.ask .gasOverflow
    nomatch impossible

/-- A failure of the state behind the context is internal, any other is the contract's own. -/
def ContextError.status : ContextError → TxStatus
  | .snapshot _ | .storage _ => .internalError
  | .invalidKey _ | .handle _ | .relationalUnsupported => .contractFail

namespace Script

def failed (e : ContextError) (gas : Nat) : Outcome := ⟨.failure e.message gas, e.status⟩

/-- Runs the operations with the gas used so far and the output so far. -/
def run (invocation : Nat) : List ScriptOp → (gas : Nat) → (output : Bytes) → Behaviour Outcome
  | [], gas, output => return ⟨.success output gas, .success⟩
  | .get contract key :: rest, gas, _ => do
    match ← Behaviour.ask (.get contract key) with
    | .error e => return failed e gas
    | .ok value => run invocation rest gas (value.getD [])
  | .put contract key value :: rest, gas, output => do
    match ← Behaviour.ask (.put contract key value) with
    | .error e => return failed e gas
    | .ok _ => run invocation rest gas output
  | .del contract key :: rest, gas, output => do
    match ← Behaviour.ask (.del contract key) with
    | .error e => return failed e gas
    | .ok _ => run invocation rest gas output
  | .record record :: rest, gas, output => do
    let _ ← Behaviour.ask (.putRecord record)
    run invocation rest gas output
  | .call contract method :: rest, gas, _ => do
    let outcome ← Behaviour.ask (.call ⟨contract, method, [], .empty, gas⟩)
    let gas := max gas outcome.result.gasUsed
    if outcome.status.isSuccess then do
      let output ← Behaviour.ask .currentResult
      run invocation rest gas output
    else return ⟨.failure outcome.result.message gas, outcome.status⟩
  | .scan contract start limit close :: rest, gas, _ => do
    match ← Behaviour.ask (.select contract start limit) with
    | .error e => return failed e gas
    | .ok handle =>
      match ← Behaviour.ask (.drain handle) with
      | .error e => return failed e gas
      | .ok entries =>
        let output := entries.flatMap (·.value)
        if close then
          match ← Behaviour.ask (.close handle) with
          | .error e => return failed e gas
          | .ok _ => run invocation rest gas output
        else run invocation rest gas output
  | .gas amount :: rest, gas, output => do
    let gas ← spend gas amount
    run invocation rest gas output
  | .fail message :: _, gas, _ => return ⟨.failure message gas, .contractFail⟩
  | .failInternal times :: rest, gas, output =>
    if invocation ≤ times then
      let message :=
        "transient failure " ++ toString invocation ++ " of " ++ toString times
      return ⟨.failure message gas, .internalError⟩
    else run invocation rest gas output
  | .sleep milliseconds :: rest, gas, output => do
    let _ ← Behaviour.ask (.sleep milliseconds)
    run invocation rest gas output

/-- Every entry is counted, also that of a method without a script. -/
def enter (table : ScriptTable) (i : Invocation) : Behaviour Outcome := do
  let invocation ← Behaviour.ask (.countInvocation i.contract.name i.method)
  match table.find? ⟨i.contract.name, i.method⟩ with
  | none =>
    let message := "unknown method " ++ i.contract.display ++ "." ++ i.method
    return ⟨.failure message i.gasUsed, .contractFail⟩
  | some ops => do
    let gas ← spend i.gasUsed 1
    run invocation ops gas []

end Script

/-- Methods that every contract has. -/
inductive Builtin where
  /-- Succeeds with a text of everything it was entered with. -/
  | echo
  /-- Reports a failed result under a successful status. -/
  | softFail
  /-- Succeeds and reports no gas. -/
  | gasBack
  /-- Reports a successful result under an internal error. -/
  | hardOk
  deriving DecidableEq, Repr

namespace Builtin

def ofMethod? (method : String) : Option Builtin :=
  if method == "$echo" then some .echo
  else if method == "$softfail" then some .softFail
  else if method == "$gasback" then some .gasBack
  else if method == "$hardok" then some .hardOk
  else none

def parametersText (ps : Parameters) : String :=
  String.intercalate "," (ps.entries.map fun (name, value) => name ++ "=" ++ Bytes.hex value)

def behaviour (b : Builtin) (i : Invocation) : Behaviour Outcome := do
  match b with
  | .echo =>
    let depth ← Behaviour.ask .depth
    let chainGas ← Behaviour.ask .gasUsed
    let height ← Behaviour.ask .blockHeight
    let tx ← Behaviour.ask .transaction
    let gas ← spend i.gasUsed 2
    let text := String.intercalate "|"
      [i.contract.display, Bytes.hex i.byteCode, parametersText i.parameters, i.txType.text,
        toString depth, toString chainGas, toString i.gasUsed, toString height, tx.sender]
    return ⟨.success (Text.utf8 text) gas, .success⟩
  | .softFail =>
    let gas ← spend i.gasUsed 5
    return ⟨.failure "soft failure" gas, .success⟩
  | .gasBack => return ⟨.success (Text.utf8 "g") 0, .success⟩
  | .hardOk => return ⟨.success (Text.utf8 "h") 7, .internalError⟩

end Builtin

/-- The contracts of a script table, with the built-in methods. -/
def ScriptTable.vm (table : ScriptTable) : Vm := fun i =>
  match Builtin.ofMethod? i.method with
  | some b => b.behaviour i
  | none => Script.enter table i

end Lockstep
