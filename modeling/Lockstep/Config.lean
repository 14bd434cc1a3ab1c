/-!
# Configuration of the engine

The limits of a scheduling round and the rule for transactions whose reads were overtaken. A
configuration must be sane before an engine is built from it: the first violated rule is reported.
-/

namespace Lockstep

/-- What happens to a transaction whose reads an earlier transaction of the block overtook. -/
inductive ConflictPolicy where
  /-- Run it again on the newer state and keep it in the block. -/
  | reexecute
  /-- Leave it for a later block. -/
  | defer
  deriving DecidableEq, Repr

def ConflictPolicy.text : ConflictPolicy → String
  | .reexecute => "reexecute"
  | .defer => "defer"

structure Config where
  /-- Workers that execute transactions ahead of their turn. -/
  concurrencyLevel : Nat := 1
  /-- The entry call of a transaction has depth one. -/
  maxCallDepth : Nat := 5
  gasLimit : Nat := 10000000000
  /-- Transactions not settled after this many milliseconds are left for a later block. -/
  scheduleTimeoutMs : Nat := 10000
  conflictPolicy : ConflictPolicy := .reexecute
  /-- How often a governance transaction with an internal error is run again. -/
  maxGovernanceRetries : Nat := 3
  deriving DecidableEq, Repr

instance : Inhabited Config := ⟨{}⟩

inductive ConfigProblem where
  | noWorkers
  | noCalls
  | noGas
  | noTime
  deriving DecidableEq, Repr

def ConfigProblem.rule : ConfigProblem → String
  | .noWorkers => "concurrency_level must be at least 1"
  | .noCalls => "max_call_depth must be at least 1"
  | .noGas => "gas_limit must be positive"
  | .noTime => "schedule_timeout_ms must be positive"

def ConfigProblem.message (p : ConfigProblem) : String :=
  "Failed to sanitize the execution config! Sanitizer: ExecutionConfig, Error: " ++ p.rule

def Config.sanitize (c : Config) : Except ConfigProblem Unit :=
  if c.concurrencyLevel = 0 then .error .noWorkers
  else if c.maxCallDepth = 0 then .error .noCalls
  else if c.gasLimit = 0 then .error .noGas
  else if c.scheduleTimeoutMs = 0 then .error .noTime
  else .ok ()

end Lockstep
