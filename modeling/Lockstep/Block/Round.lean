import Lockstep.Block.Output
import Lockstep.Scheduler

/-!
# Scheduling rounds

Workers claim transactions and execute them ahead of their turn, on whatever has been merged by
then. Transactions are settled strictly in order: an execution whose reads are still current is
merged as it is, and one whose reads were overtaken is executed again or left for a later block.

The state of a round changes by single moves: a claim, an answer to one question of a running
execution, or the settling of one transaction. `Engine.runBlock` performs the moves that a plan asks
for, where the plan says how many transactions are settled when each one is executed.
-/

namespace Lockstep

structure Round where
  block : List Transaction
  snapshot : Snapshot
  scheduler : Scheduler
  /-- Executions under way. -/
  running : SortedMap TxIndex (Outward Output) := .empty
  /-- Executions that wait for their turn. -/
  finished : SortedMap TxIndex Output := .empty
  ledger : Ledger := {}
  /-- Vertex of every merged transaction. -/
  vertexes : SortedMap TxIndex Nat := .empty
  deferred : List Nat := []
  error : Option BlockError := none

namespace Round

def start (block : List Transaction) (snapshot : Snapshot) : Round where
  block
  snapshot
  scheduler := Scheduler.start block.length.toUInt32

/-- A worker asks for a transaction and begins to execute it. -/
def claim (e : Engine) (timedOut : Bool) (r : Round) : Round :=
  match r.scheduler.next timedOut with
  | (.execute i, scheduler) =>
    match r.block[i.toNat]? with
    | some tx =>
      { r with scheduler, running := r.running.insert i (e.execution tx r.snapshot.height) }
    | none => { r with scheduler }
  | (_, scheduler) => { r with scheduler }

def record (i : TxIndex) (o : Output) (r : Round) : Round :=
  { r with running := r.running.erase i, finished := r.finished.insert i o }

/-- Answers one question of a running execution, or records it when it has none left. -/
def advance (i : TxIndex) (r : Round) : Step Round := do
  match r.running.find? i with
  | none => return r
  | some (.done o) =>
    World.tallyWith (·.addExecution o)
    return r.record i o
  | some (.ask q next) =>
    let a ← World.answer (.block r.snapshot) q
    return { r with running := r.running.insert i (next a) }

/-- Answers all questions of a running execution and records it. -/
def finish (i : TxIndex) (r : Round) : Step Round := do
  match r.running.find? i with
  | none => return r
  | some d =>
    let o ← World.converse (.block r.snapshot) d
    World.tallyWith (·.addExecution o)
    return r.record i o

/-- Versions are published as positions among the included transactions. -/
def renumber (vertexes : SortedMap TxIndex Nat) (r : Read) : Read :=
  match r.version with
  | .storage => r
  | .inBlock writer => match vertexes.find? writer with
    | some vertex => { r with version := .inBlock vertex.toUInt32 }
    | none => r

/-- Merges an accepted output as the next vertex. -/
def merge (i : TxIndex) (o : Output) (r : Round) : Except SnapshotError Round := do
  let snapshot ← r.snapshot.apply i o.rwset
  let vertexes := r.vertexes.insert i r.ledger.builder.size
  let published :=
    { o with rwset := { o.rwset with reads := o.rwset.reads.map (renumber vertexes) } }
  return { r with
    snapshot := snapshot.recordResult published.txResult
    vertexes
    ledger := r.ledger.add published }

def abort (error : BlockError) (r : Round) : Round :=
  { r with error := some error, scheduler := r.scheduler.halt.2 }

/-- Takes an output into the block, or gives the round up. -/
def accept (tx : Transaction) (i : TxIndex) (o : Output) (r : Round) : Round :=
  match checkGovernance tx o with
  | .error e => r.abort e
  | .ok _ => match r.merge i o with
    | .error e => r.abort (.snapshot e)
    | .ok r => { r with scheduler := r.scheduler.advance }

/-- Leaves everything not yet settled for a later block. -/
def expire (r : Round) : Step Round := do
  let first := r.scheduler.commitIndex.toNat
  let rest := List.range' first (r.scheduler.count.toNat - first)
  World.tallyWith fun t => { t with deferredTimeout := t.deferredTimeout + rest.length }
  return { r with deferred := r.deferred ++ rest, scheduler := r.scheduler.halt.2 }

/-- Settles the next transaction if the round goes on and its output is there. -/
def settle (e : Engine) (timedOut : Bool) (r : Round) : Step Round := do
  if r.scheduler.isDone then return r
  else if timedOut then r.expire
  else
    let i := r.scheduler.commitIndex
    match r.finished.find? i, r.block[i.toNat]? with
    | some o, some tx =>
      let r := { r with finished := r.finished.erase i }
      if o.isCurrent r.snapshot then return r.accept tx i o
      else match e.config.conflictPolicy with
        | .reexecute =>
          World.tallyWith fun t => { t with reexecuted := t.reexecuted + 1 }
          let o ← e.execute tx r.snapshot
          return r.accept tx i o
        | .defer =>
          World.tallyWith fun t => { t with deferredConflict := t.deferredConflict + 1 }
          return { r with
            deferred := r.deferred ++ [i.toNat]
            scheduler := r.scheduler.advance }
    | _, _ => return r

/-- Claims transactions until `i` has been handed out, unless the scheduler refuses. -/
def claimThrough (e : Engine) (timedOut : Bool) (i : Nat) (r : Round) : Round :=
  (List.range (i + 1 - r.scheduler.executionIndex.toNat)).foldl (fun r _ => r.claim e timedOut) r

/-- Whether the execution of `i` has not been finished yet. -/
def isUnfinished (r : Round) (i : Nat) : Bool :=
  r.scheduler.executionIndex.toNat ≤ i || r.running.contains i.toUInt32

/-- Ends the round: the snapshot takes no more writes, whatever happened. -/
def close (r : Round) : Except BlockError BlockOutput × Snapshot :=
  let output := match r.error with
    | some e => .error e
    | none => .ok (r.ledger.publish r.deferred)
  (output, r.snapshot.close)

end Round

/-- For each transaction, how many are settled when it is first executed. -/
abbrev Plan := List Nat

/-- Every transaction is executed when all before it are settled. -/
def Plan.inOrder (n : Nat) : Plan := List.range n

namespace Engine

def isTimedOut (deadline : Nat) : Step Bool := do
  let w ← StateT.get
  return deadline ≤ w.clock

/-- Executes what the plan wants executed once `settled` transactions are settled. -/
def executeDue (e : Engine) (deadline : Nat) (plan : Plan) (settled : Nat) (r : Round) :
    Step Round :=
  plan.zipIdx.foldlM
    (fun r (due, i) => do
      if due ≤ settled && r.isUnfinished i then
        let timedOut ← isTimedOut deadline
        (r.claimThrough e timedOut i).finish i.toUInt32
      else return r)
    r

/-- Executes a block along a plan. -/
def runBlock (e : Engine) (plan : Plan) (block : List Transaction) (s : Snapshot) :
    Step (Except BlockError BlockOutput × Snapshot) := do
  let w ← StateT.get
  let deadline := w.clock + e.config.scheduleTimeoutMs
  let r ← (List.range block.length).foldlM
    (fun r settled => do
      if r.scheduler.isDone then return r
      else
        let r ← e.executeDue deadline plan settled r
        let timedOut ← isTimedOut deadline
        r.settle e timedOut)
    (Round.start block s)
  return r.close

end Engine

end Lockstep
