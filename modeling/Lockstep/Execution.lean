import Lockstep.Config
import Lockstep.Dag.Builder
import Lockstep.World

/-!
# Executing one transaction

An execution enters the transaction's contract in a fresh context and keeps what the block needs of
it. A governance transaction that ends in an internal error is executed again, up to the configured
number of retries; the last attempt counts.
-/

namespace Lockstep

structure Engine where
  config : Config
  vm : Vm

/-- What an execution leaves for the block. -/
structure Output where
  rwset : RWSet
  observedReads : List Read
  outcome : Outcome
  gasUsed : Nat
  /-- Cursors that the last attempt left open. -/
  leaked : Nat
  attempts : Nat := 1
  /-- Cursors that all attempts together left open. -/
  leakedInAll : Nat
  deriving DecidableEq

namespace Output

def status (o : Output) : TxStatus := o.outcome.status

/-- A failed transaction has its reads here too: its outcome depended on them. -/
def accesses (o : Output) : Accesses := ⟨o.observedReads.map (·.key), o.rwset.writeKeys⟩

def txResult (o : Output) : TxResult where
  txId := o.rwset.txId
  status := o.status
  contractResult := o.outcome.result
  rwsetHash := o.rwset.hash
  gasUsed := o.gasUsed
  leakedIterators := o.leaked.toUInt32

/-- Every read still sees the version it saw when it was made. -/
def isCurrent (o : Output) (s : Snapshot) : Bool :=
  o.observedReads.all fun r => s.version r.key == r.version

end Output

namespace Engine

def limits (e : Engine) : CallLimits := ⟨e.config.maxCallDepth, e.config.gasLimit⟩

def setting (e : Engine) (tx : Transaction) (blockHeight : Nat) : Setting :=
  ⟨e.vm, e.limits, tx, blockHeight⟩

/-- One execution in a fresh context. -/
def attempt (e : Engine) (tx : Transaction) (blockHeight : Nat) : Outward Output := do
  let (outcome, ctx) ← (Context.invoke (e.setting tx blockHeight)).run {}
  let f := ctx.finalize .simulation tx.txId outcome.status.isSuccess
  return {
    rwset := f.rwset
    observedReads := f.observedReads
    outcome
    gasUsed := f.gasUsed
    leaked := f.leakedHandles.length
    leakedInAll := f.leakedHandles.length }

/-- Repeats `again` after internal errors, at most `retries` times. -/
def retry (again : Outward Output) : (retries : Nat) → Output → Outward Output
  | 0, o => return o
  | retries + 1, o =>
    if o.status = .internalError then do
      let next ← again
      retry again retries
        { next with
          attempts := o.attempts + 1
          leakedInAll := o.leakedInAll + next.leaked }
    else return o

def execution (e : Engine) (tx : Transaction) (blockHeight : Nat) : Outward Output := do
  let o ← e.attempt tx blockHeight
  if tx.txType.isGovernance then
    retry (e.attempt tx blockHeight) e.config.maxGovernanceRetries o
  else return o

end Engine

/-- Counts a finished execution. -/
def Tally.addExecution (t : Tally) (o : Output) : Tally :=
  { t with
    executed := t.executed + o.attempts
    governanceRetries := t.governanceRetries + (o.attempts - 1)
    leakedIterators := t.leakedIterators + o.leakedInAll }

/-- Executes a transaction on the present state of a snapshot. -/
def Engine.execute (e : Engine) (tx : Transaction) (s : Snapshot) : Step Output := do
  let o ← World.converse (.block s) (e.execution tx s.height)
  World.tallyWith (·.addExecution o)
  return o

end Lockstep
