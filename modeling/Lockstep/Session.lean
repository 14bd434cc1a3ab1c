import Lockstep.Block.Replay
import Lockstep.Block.Round

/-!
# Sessions

A session is one world with the things a node holds in it: snapshots, of which one is current, open
contexts, and an engine. A context of a block keeps the snapshot that was current when it was
opened, and sees what is merged into that snapshot later.
-/

namespace Lockstep

/-- Where an open context belongs: to a transaction of a block, or beside all blocks. -/
inductive Place where
  | block (snapshot : Nat) (index : TxIndex)
  | beside (blockHeight : Nat)
  deriving DecidableEq, Repr

structure OpenContext where
  tx : Transaction
  place : Place
  context : Context := {}

def OpenContext.purpose (c : OpenContext) : Context.Purpose :=
  match c.place with
  | .block .. => .simulation
  | .beside _ => .query

structure Session where
  world : World
  vm : Vm
  /-- Limits of the contexts that are opened by hand. -/
  limits : CallLimits
  txs : List Transaction := []
  snapshots : List Snapshot := [{ info := .genesis }]
  contexts : SortedMap Nat OpenContext := .empty
  config : Config := {}
  /-- Graph and root of the last block that came out well. -/
  last : Dag × Hash := (⟨[]⟩, .zero)

/-- An action of a session, unless gas overflows. -/
abbrev SessionStep := StateT Session (Except GasOverflow)

namespace Session

def engine (s : Session) : Engine := ⟨s.config, s.vm⟩

/-- The number of the current snapshot; the newest one is current. -/
def currentId (s : Session) : Nat := s.snapshots.length - 1

def snapshotAt (s : Session) (id : Nat) : Snapshot :=
  (s.snapshots[id]?).getD { info := .genesis }

def current (s : Session) : Snapshot := s.snapshotAt s.currentId

def store (s : Session) : Store := s.world.backend.store

def setCurrent (snapshot : Snapshot) (s : Session) : Session :=
  { s with snapshots := s.snapshots.set s.currentId snapshot }

def onWorld {α : Type} (step : Step α) : SessionStep α := do
  let s ← StateT.get
  let (a, world) ← StateT.lift (step s.world)
  StateT.set { s with world }
  return a

/-! ## The store -/

def updateStore (f : Store → Store) : SessionStep Unit :=
  modify fun s =>
    { s with world := { s.world with backend := { s.world.backend with store := f s.store } } }

def planFaults (faults : List Fault) : SessionStep Unit :=
  modify fun s => { s with world := { s.world with backend := { s.world.backend with faults } } }

/-! ## Snapshots -/

def openSnapshot (info : BlockInfo) : SessionStep Unit :=
  modify fun s => { s with snapshots := s.snapshots ++ [{ info }] }

def snapshotGet (k : StateKey) (own : PendingWrites) :
    SessionStep (Except SnapshotError ReadOutcome) := do
  let s ← StateT.get
  onWorld (World.onBackend (s.current.get k own))

def snapshotSelect (contract : String) (start limit : Bytes) :
    SessionStep (Except SnapshotError (Cursor Kv)) :=
  onWorld (World.onBackend fun b =>
    let (cursor, b) := b.select contract start limit
    (cursor.mapError .storage, b))

def snapshotByteCode (contract : String) : SessionStep (Except SnapshotError (Option Bytes)) :=
  onWorld (World.onBackend fun b =>
    let (code, b) := b.byteCode contract
    (code.mapError .storage, b))

def snapshotApply (index : TxIndex) (set : RWSet) : SessionStep (Except SnapshotError Unit) := do
  let s ← StateT.get
  match s.current.apply index set with
  | .error e => return .error e
  | .ok snapshot =>
    modify (setCurrent snapshot)
    return .ok ()

def updateSnapshot (f : Snapshot → Snapshot) : SessionStep Unit :=
  modify fun s => s.setCurrent (f s.current)

/-! ## Contexts -/

def begin (id : Nat) (tx : Transaction) (place : Place) : SessionStep Unit :=
  modify fun s => { s with contexts := s.contexts.insert id { tx, place } }

def viewOf (s : Session) (c : OpenContext) : View :=
  match c.place with
  | .block id _ => .block (s.snapshotAt id)
  | .beside _ => .durable

def heightOf (s : Session) (c : OpenContext) : Nat :=
  match c.place with
  | .block id _ => (s.snapshotAt id).height
  | .beside height => height

def settingOf (s : Session) (c : OpenContext) : Setting :=
  ⟨s.vm, s.limits, c.tx, s.heightOf c⟩

/-- Runs an operation on an open context; there is no answer if it is not open. -/
def onContext {α : Type} (id : Nat) (operation : Setting → Operation α) :
    SessionStep (Option α) := do
  let s ← StateT.get
  match s.contexts.find? id with
  | none => return none
  | some c =>
    let (a, context) ←
      onWorld (World.converse (s.viewOf c) ((operation (s.settingOf c)).run c.context))
    modify fun s => { s with contexts := s.contexts.insert id { c with context } }
    return some a

def request (id : Nat) (r : Request) : SessionStep (Option r.Answer) :=
  onContext id fun setting => Context.request setting r

/-- Runs a call and gives its outcome with the chain of calls after it. -/
def outcomeOf (id : Nat) (operation : Setting → Operation Outcome) :
    SessionStep (Option (Outcome × CallChain)) := do
  match ← onContext id operation with
  | none => return none
  | some outcome =>
    let s ← StateT.get
    return (s.contexts.find? id).map fun c => (outcome, c.context.chain)

def call (id : Nat) (call : Call) : SessionStep (Option (Outcome × CallChain)) :=
  outcomeOf id fun setting => Context.call setting call

def invoke (id : Nat) : SessionStep (Option (Outcome × CallChain)) := outcomeOf id Context.invoke

def dropContext (id : Nat) : SessionStep Unit :=
  modify fun s => { s with contexts := s.contexts.erase id }

/-- Ends a context and counts the cursors it left open. -/
def close (id : Nat) (success : Bool) : SessionStep (Option (OpenContext × Context.Finalized)) := do
  let s ← StateT.get
  match s.contexts.find? id with
  | none => return none
  | some c =>
    let f := c.context.finalize c.purpose c.tx.txId success
    dropContext id
    onWorld (World.tallyWith fun t =>
      { t with leakedIterators := t.leakedIterators + f.leakedHandles.length })
    return some (c, f)

/-- Ends a context. With `merge`, the set of a block's transaction is merged into the current
snapshot. -/
def finalize (id : Nat) (success merge : Bool) :
    SessionStep (Option (Except SnapshotError Context.Finalized)) := do
  match ← close id success with
  | none => return none
  | some (c, f) =>
    match c.place with
    | .block _ index =>
      if merge then
        match ← snapshotApply index f.rwset with
        | .error e => return some (.error e)
        | .ok _ => return some (.ok f)
      else return some (.ok f)
    | .beside _ => return some (.ok f)

/-- Runs a context's transaction and ends the context. -/
def complete (id : Nat) : SessionStep (Option (Outcome × Context.Finalized)) := do
  match ← onContext id Context.invoke with
  | none => return none
  | some outcome =>
    match ← close id outcome.status.isSuccess with
    | none => return none
    | some (_, f) => return some (outcome, f)

/-! ## Blocks -/

/-- Takes a sane configuration; with any other, the present one stays. -/
def configure (config : Config) : SessionStep (Except ConfigProblem Unit) := do
  match config.sanitize with
  | .error p => return .error p
  | .ok _ =>
    modify fun s => { s with config }
    return .ok ()

/-- Runs a block on the current snapshot and remembers graph and root if it came out well. -/
def onBlock (run : Engine → Snapshot → Step (Except BlockError BlockOutput × Snapshot)) :
    SessionStep (Except BlockError BlockOutput) := do
  let s ← StateT.get
  let (output, snapshot) ← onWorld (run s.engine s.current)
  modify (setCurrent snapshot)
  match output with
  | .error _ => pure ()
  | .ok o => modify fun s => { s with last := (o.dag, o.root) }
  return output

/-- Executes a block; without a plan, in order. -/
def execute (block : List Transaction) (plan : Option Plan) :
    SessionStep (Except BlockError BlockOutput) :=
  onBlock fun e s => e.runBlock (plan.getD (Plan.inOrder block.length)) block s

def replay (block : List Transaction) (dag : Dag) : SessionStep (Except BlockError BlockOutput) :=
  onBlock fun e s => e.replay block dag s

def verify (block : List Transaction) (dag : Dag) (root : Hash) :
    SessionStep (Except BlockError BlockOutput) :=
  onBlock fun e s => e.verify block dag root s

/-- Persists the net writes of the current snapshot. -/
def persist : SessionStep Unit := do
  let s ← StateT.get
  updateStore (·.applyWrites s.current.finalWrites)

end Session

end Lockstep
