import Lockstep.Dialogue
import Lockstep.Handles
import Lockstep.Recorder

/-!
# The sandbox of a transaction

A contract touches state only through requests to its context: reads and writes of keys, statement
records, cursors, and calls of other contracts. The context answers from what the transaction has
already read and written, and asks the outside for the rest. Contracts are dialogues over requests,
and a transaction as a whole becomes a dialogue over outside questions.

Two limits hold for calls: a call deeper than the limit, or entered with more gas than the limit, is
answered with a failure and never reaches the contract.
-/

namespace Lockstep

inductive ContextError where
  | invalidKey (error : KeyError)
  | snapshot (error : SnapshotError)
  | handle (error : HandleError)
  | relationalUnsupported
  | storage (message : String)
  deriving DecidableEq, Repr

def ContextError.message : ContextError → String
  | .invalidKey e => e.message
  | .snapshot e => e.message
  | .handle e => e.message
  | .relationalUnsupported => "relational queries are not supported by the underlying store"
  | .storage message => "storage error: " ++ message

/-- What a contract call came to. -/
structure Outcome where
  result : ContractResult
  status : TxStatus
  deriving DecidableEq, Repr

/-- A call of a contract, with the gas its caller has used. -/
structure Call where
  contract : Contract
  method : String
  byteCode : Bytes := []
  parameters : Parameters := .empty
  gasUsed : Nat

/-- What a contract may ask of its context. -/
inductive Request where
  | get (contract : String) (key : Bytes)
  | put (contract : String) (key value : Bytes)
  | del (contract : String) (key : Bytes)
  | putRecord (record : Record)
  | select (contract : String) (start limit : Bytes)
  | queryRows (contract sql : String)
  | kvHasNext (handle : Handle)
  | kvNext (handle : Handle)
  /-- Steps through a key range for as long as it has a next entry. -/
  | drain (handle : Handle)
  | sqlHasNext (handle : Handle)
  | sqlNext (handle : Handle)
  | close (handle : Handle)
  | call (call : Call)
  /-- What the most recently returned call gave. -/
  | currentResult
  | depth
  | gasUsed
  | transaction
  | blockHeight
  | byteCode (contract : String)
  /-- Counts an invocation of a method and gives its number, from one. -/
  | countInvocation (contract method : String)
  | sleep (milliseconds : Nat)
  /-- Gas no longer fits its 64 bits. There is no answer: the run ends here. -/
  | gasOverflow

@[reducible] def Request.Answer : Request → Type
  | .get .. => Except ContextError (Option Bytes)
  | .put .. | .del .. => Except ContextError Unit
  | .putRecord .. => Unit
  | .select .. | .queryRows .. => Except ContextError Handle
  | .kvHasNext .. | .sqlHasNext .. => Except ContextError Bool
  | .kvNext .. => Except ContextError (Option Kv)
  | .drain .. => Except ContextError (List Kv)
  | .sqlNext .. => Except ContextError (Option Row)
  | .close .. => Except ContextError Unit
  | .call .. => Outcome
  | .currentResult => Bytes
  | .depth | .gasUsed | .blockHeight => Nat
  | .transaction => Transaction
  | .byteCode .. => Except ContextError (Option Bytes)
  | .countInvocation .. => Nat
  | .sleep .. => Unit
  | .gasOverflow => Empty

/-- The dialogue of a contract with its context. -/
abbrev Behaviour := Dialogue Request Request.Answer

def Behaviour.ask (r : Request) : Behaviour r.Answer := Dialogue.question r

/-- What a contract is entered with. -/
structure Invocation where
  contract : Contract
  method : String
  byteCode : Bytes
  parameters : Parameters
  /-- Gas that the chain of calls has used so far. -/
  gasUsed : Nat
  txType : TxType

/-- How contracts behave. A behaviour depends on the invocation and on the answers of its context
alone. -/
abbrev Vm := Invocation → Behaviour Outcome

/-- What a context asks of the world around it. -/
inductive Outside where
  | read (key : StateKey)
  | select (contract : String) (start limit : Bytes)
  | query (contract sql : String)
  | byteCode (contract : String)
  | countInvocation (contract method : String)
  | sleep (milliseconds : Nat)
  | gasOverflow

@[reducible] def Outside.Answer : Outside → Type
  | .read .. => Except ContextError (Option Bytes × ReadVersion)
  | .select .. => Except ContextError (Cursor Kv)
  | .query .. => Except ContextError (Cursor Row)
  | .byteCode .. => Except ContextError (Option Bytes)
  | .countInvocation .. => Nat
  | .sleep .. => Unit
  | .gasOverflow => Empty

abbrev Outward := Dialogue Outside Outside.Answer

/-- A completed call. -/
structure CallEntry where
  contract : Contract
  method : String
  parameters : Parameters
  depth : Nat
  /-- Gas of the whole chain when the call returned. -/
  gasUsed : Nat
  result : Bytes
  deriving DecidableEq

structure CallChain where
  depth : Nat := 0
  gasUsed : Nat := 0
  currentResult : Bytes := []
  entries : List CallEntry := []

namespace CallChain

def enter (c : CallChain) (gasUsed : Nat) : CallChain :=
  { c with depth := c.depth + 1, gasUsed := max c.gasUsed gasUsed }

def exit (c : CallChain) (call : Call) (result : ContractResult) : CallChain :=
  let gasUsed := max c.gasUsed result.gasUsed
  let entry : CallEntry :=
    ⟨call.contract, call.method, call.parameters, c.depth, gasUsed, result.result⟩
  { depth := c.depth - 1, gasUsed, currentResult := result.result, entries := c.entries ++ [entry] }

@[simp] theorem depth_enter (c : CallChain) (gasUsed : Nat) :
    (c.enter gasUsed).depth = c.depth + 1 := rfl

@[simp] theorem entries_enter (c : CallChain) (gasUsed : Nat) :
    (c.enter gasUsed).entries = c.entries := rfl

@[simp] theorem depth_exit (c : CallChain) (call : Call) (result : ContractResult) :
    (c.exit call result).depth = c.depth - 1 := rfl

@[simp] theorem currentResult_exit (c : CallChain) (call : Call) (result : ContractResult) :
    (c.exit call result).currentResult = result.result := rfl

theorem gasUsed_le_enter (c : CallChain) (gasUsed : Nat) : c.gasUsed ≤ (c.enter gasUsed).gasUsed :=
  Nat.le_max_left _ _

theorem gasUsed_le_exit (c : CallChain) (call : Call) (result : ContractResult) :
    c.gasUsed ≤ (c.exit call result).gasUsed := Nat.le_max_left _ _

end CallChain

structure CallLimits where
  maxCallDepth : Nat
  gasLimit : Nat
  deriving DecidableEq, Repr

/-- What stays fixed while a transaction runs. -/
structure Setting where
  vm : Vm
  limits : CallLimits
  tx : Transaction
  blockHeight : Nat

/-- What a transaction accumulates while it runs. -/
structure Context where
  recorder : Recorder := {}
  chain : CallChain := {}
  handles : Handles := {}

/-- An operation on a context that may ask the outside. -/
abbrev Operation := StateT Context Outward

namespace Context

def ask (q : Outside) : Operation q.Answer := StateT.lift (Dialogue.question q)

def checkedKey (contract : String) (key : Bytes) : Except ContextError StateKey :=
  let k : StateKey := ⟨contract, key⟩
  match k.validate with
  | .error e => .error (.invalidKey e)
  | .ok _ => .ok k

/-- Serves a key from pending writes, then earlier reads, then the outside, and records what the
outside was first seen to hold. -/
def get (contract : String) (key : Bytes) : Operation (Except ContextError (Option Bytes)) := do
  match checkedKey contract key with
  | .error e => return .error e
  | .ok k =>
    let ctx ← StateT.get
    match ctx.recorder.known? k with
    | some value => return .ok value
    | none =>
      match ← ask (.read k) with
      | .error e => return .error e
      | .ok (value, version) =>
        modify fun ctx => { ctx with recorder := ctx.recorder.noteRead k value version }
        return .ok value

def write (contract : String) (key : Bytes) (value : Option Bytes) :
    Operation (Except ContextError Unit) := do
  match checkedKey contract key with
  | .error e => return .error e
  | .ok k =>
    modify fun ctx => { ctx with recorder := ctx.recorder.noteWrite k value }
    return .ok ()

def openKv (cursor : Cursor Kv) : Operation Handle :=
  modifyGet fun ctx =>
    let (h, handles) := ctx.handles.openKv cursor
    (h, { ctx with handles })

def openSql (cursor : Cursor Row) : Operation Handle :=
  modifyGet fun ctx =>
    let (h, handles) := ctx.handles.openSql cursor
    (h, { ctx with handles })

def select (contract : String) (start limit : Bytes) :
    Operation (Except ContextError Handle) := do
  match checkContractName contract with
  | .error e => return .error (.invalidKey e)
  | .ok _ => match ← ask (.select contract start limit) with
    | .error e => return .error e
    | .ok cursor => return .ok (← openKv cursor)

def queryRows (contract sql : String) : Operation (Except ContextError Handle) := do
  match checkContractName contract with
  | .error e => return .error (.invalidKey e)
  | .ok _ => match ← ask (.query contract sql) with
    | .error e => return .error e
    | .ok cursor => return .ok (← openSql cursor)

/-- Runs an operation of the handle table. -/
def onHandles {α : Type} (f : Handles → Except HandleError α × Handles) :
    Operation (Except ContextError α) :=
  modifyGet fun ctx =>
    let (answer, handles) := f ctx.handles
    (answer.mapError .handle, { ctx with handles })

/-- Answers a request; `enter` answers calls. -/
def answer (s : Setting) (enter : Call → Operation Outcome) :
    (r : Request) → Operation r.Answer
  | .get contract key => get contract key
  | .put contract key value => write contract key (some value)
  | .del contract key => write contract key none
  | .putRecord record =>
    modify fun ctx => { ctx with recorder := ctx.recorder.noteRecord record }
  | .select contract start limit => select contract start limit
  | .queryRows contract sql => queryRows contract sql
  | .kvHasNext h => onHandles fun hs => (hs.kvHasNext h, hs.peek .keyValue h)
  | .kvNext h => onHandles (·.kvNext h)
  | .drain h => onHandles (·.drain h)
  | .sqlHasNext h => onHandles fun hs => (hs.sqlHasNext h, hs.peek .sql h)
  | .sqlNext h => onHandles (·.sqlNext h)
  | .close h => onHandles (·.close h)
  | .call call => enter call
  | .currentResult => do return (← StateT.get).chain.currentResult
  | .depth => do return (← StateT.get).chain.depth
  | .gasUsed => do return (← StateT.get).chain.gasUsed
  | .transaction => return s.tx
  | .blockHeight => return s.blockHeight
  | .byteCode contract => ask (.byteCode contract)
  | .countInvocation contract method => ask (.countInvocation contract method)
  | .sleep milliseconds => ask (.sleep milliseconds)
  | .gasOverflow => ask .gasOverflow

def tooDeep (depth limit gasUsed : Nat) : Outcome :=
  ⟨.failure ("CallContract too deep: depth " ++ toString depth ++ " exceeds the limit of "
    ++ toString limit) gasUsed, .contractTooDeep⟩

def outOfGas (gasUsed limit : Nat) : Outcome :=
  ⟨.failure ("gas used " ++ toString gasUsed ++ " exceeds the limit of " ++ toString limit) gasUsed,
    .outOfGas⟩

/-- The code to run: what the call carries, or what is deployed when it carries none and the
contract is not native. -/
def loadCode (call : Call) (gasUsed : Nat) : Operation (Except Outcome Bytes) := do
  if call.byteCode.isEmpty && call.contract.runtime != .native then
    match ← ask (.byteCode call.contract.name) with
    | .ok (some code) => return .ok code
    | .ok none =>
      let message := "no byte code deployed for contract " ++ call.contract.display
      return .error ⟨.failure message gasUsed, .contractFail⟩
    | .error e => return .error ⟨.failure e.message gasUsed, .internalError⟩
  else return .ok call.byteCode

/-- Enters a contract with `room` levels of nesting left below the limit. -/
def enter (s : Setting) : (room : Nat) → Call → Operation Outcome
  | 0, call => do
    let ctx ← StateT.get
    return tooDeep (ctx.chain.depth + 1) s.limits.maxCallDepth call.gasUsed
  | room + 1, call => do
    let ctx ← StateT.get
    let gasUsed := max call.gasUsed ctx.chain.gasUsed
    if gasUsed > s.limits.gasLimit then return outOfGas gasUsed s.limits.gasLimit
    else match ← loadCode call gasUsed with
      | .error outcome => return outcome
      | .ok code =>
        modify fun ctx => { ctx with chain := ctx.chain.enter gasUsed }
        let outcome ← Dialogue.run (answer s (enter s room))
          (s.vm ⟨call.contract, call.method, code, call.parameters, gasUsed, s.tx.txType⟩)
        modify fun ctx => { ctx with chain := ctx.chain.exit call outcome.result }
        return outcome

/-- Calls from the current depth. -/
def call (s : Setting) (call : Call) : Operation Outcome := do
  let ctx ← StateT.get
  enter s (s.limits.maxCallDepth - ctx.chain.depth) call

/-- Answers a request from outside any call. -/
def request (s : Setting) (r : Request) : Operation r.Answer := answer s (call s) r

/-- The entry call of the transaction. A run that succeeds with a failed result is a failure of the
contract. -/
def invoke (s : Setting) : Operation Outcome := do
  let o ← call s ⟨s.tx.contract, s.tx.method, s.tx.byteCode, s.tx.parameters, 0⟩
  if o.status.isSuccess && !o.result.isSuccess then return { o with status := .contractFail }
  else return o

/-- The two uses of a context: a transaction of a block, or a look-up beside it. -/
inductive Purpose where
  | simulation
  | query
  deriving DecidableEq, Repr

/-- What remains of a context when its transaction is over. -/
structure Finalized where
  rwset : RWSet
  /-- Every read, those of a failed transaction included. -/
  observedReads : List Read
  callChain : List CallEntry
  leakedHandles : List Handle
  gasUsed : Nat
  deriving DecidableEq

/-- Ends a transaction. Cursors still open are released and reported. A failed look-up leaves
nothing, not even schema statements. -/
def finalize (purpose : Purpose) (txId : String) (success : Bool) (ctx : Context) : Finalized where
  rwset :=
    if success then ctx.recorder.successSet txId
    else match purpose with
      | .simulation => ctx.recorder.failureSet txId
      | .query => RWSet.empty txId
  observedReads := ctx.recorder.observedReads
  callChain := ctx.chain.entries
  leakedHandles := ctx.handles.releaseAll.1
  gasUsed := ctx.chain.gasUsed

end Context

end Lockstep
