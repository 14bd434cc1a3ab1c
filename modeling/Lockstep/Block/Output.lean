import Lockstep.Execution

/-!
# What a block comes to

The published artifacts of a block, and the reasons for which there are none.
-/

namespace Lockstep

inductive BlockError where
  /-- A governance transaction kept failing internally, so the whole round was given up. -/
  | governanceAborted (txId : String) (attempts : Nat) (message : String)
  | dagMismatch (expected actual : Dag)
  | rootMismatch (expected actual : Hash)
  | dagSize (vertices transactions : Nat)
  | dagMalformed
  | neverReplayed (index : Nat)
  | snapshot (error : SnapshotError)
  | config (problem : ConfigProblem)
  deriving DecidableEq

def mismatchMessage (field expected actual : String) : String :=
  "block verification mismatch on " ++ field ++ ": expected " ++ expected ++ ", got " ++ actual

def BlockError.message : BlockError → String
  | .governanceAborted txId attempts message =>
    "governance transaction " ++ txId ++ " aborted the round after " ++ toString attempts
      ++ " attempts: " ++ message
  | .dagMismatch expected actual =>
    mismatchMessage "dag" expected.describeEdges actual.describeEdges
  | .rootMismatch expected actual => mismatchMessage "rwset_root" expected.hex actual.hex
  | .dagSize vertices transactions =>
    "invalid dag: dag has " ++ toString vertices ++ " vertexes for " ++ toString transactions
      ++ " transactions"
  | .dagMalformed =>
    "invalid dag: dependencies must be ascending and point to earlier transactions"
  | .neverReplayed index => "invalid dag: transaction " ++ toString index ++ " was never replayed"
  | .snapshot e => e.message
  | .config p => p.message

/-- The artifacts of the transactions that a block includes, in order. -/
structure BlockOutput where
  rwsets : List RWSet
  /-- Vertices are positions among the included transactions. -/
  dag : Dag
  results : List TxResult
  /-- Positions, in the given list, of the transactions left for a later block. -/
  deferred : List Nat
  root : Hash
  deriving DecidableEq

/-- A governance transaction never enters a block with an internal error. -/
def checkGovernance (tx : Transaction) (o : Output) : Except BlockError Unit :=
  if tx.txType.isGovernance && o.status == .internalError then
    .error (.governanceAborted tx.txId o.attempts o.outcome.result.message)
  else .ok ()

/-- What has been merged so far. -/
structure Ledger where
  builder : Dag.Builder := {}
  rwsets : List RWSet := []
  results : List TxResult := []

namespace Ledger

def add (l : Ledger) (o : Output) : Ledger where
  builder := l.builder.add o.accesses
  rwsets := l.rwsets ++ [o.rwset]
  results := l.results ++ [o.txResult]

def publish (l : Ledger) (deferred : List Nat) : BlockOutput where
  rwsets := l.rwsets
  dag := l.builder.build
  results := l.results
  deferred
  root := RWSet.root l.rwsets

@[simp] theorem rwsets_add (l : Ledger) (o : Output) :
    (l.add o).rwsets = l.rwsets ++ [o.rwset] := rfl

@[simp] theorem results_add (l : Ledger) (o : Output) :
    (l.add o).results = l.results ++ [o.txResult] := rfl

end Ledger

end Lockstep
