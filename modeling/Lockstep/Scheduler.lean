import Lockstep.RWSet

/-!
# Handing out and settling

Workers take transactions from one shared counter, and whoever coordinates settles them in order
from another. Both counters are 32-bit words. The round is over once all are settled, or when it is
halted.
-/

namespace Lockstep

inductive Task where
  | execute (index : TxIndex)
  | noTask
  | done
  deriving DecidableEq, Repr

structure Scheduler where
  count : TxIndex
  /-- Next transaction to hand out. -/
  executionIndex : TxIndex := 0
  /-- Next transaction to settle. -/
  commitIndex : TxIndex := 0
  isDone : Bool
  deriving DecidableEq, Repr

namespace Scheduler

def start (count : TxIndex) : Scheduler := { count, isDone := count == 0 }

/-- Everything was handed out, or there is no time left to begin. -/
def isExhausted (s : Scheduler) (timedOut : Bool) : Bool := s.count ≤ s.executionIndex || timedOut

/-- Takes the next index off the counter. Workers that saw the same last index race for it, and the
losers take one past the end. -/
def take (s : Scheduler) : Task × Scheduler :=
  let i := s.executionIndex
  (if i < s.count then .execute i else .noTask, { s with executionIndex := i + 1 })

/-- Asks for work: three steps, which other workers may come between. -/
def next (s : Scheduler) (timedOut : Bool) : Task × Scheduler :=
  if s.isDone then (.done, s)
  else if s.isExhausted timedOut then (.noTask, s)
  else s.take

/-- Ends the round; true if it was not over before. -/
def halt (s : Scheduler) : Bool × Scheduler := (!s.isDone, { s with isDone := true })

/-- Moves on to the next transaction to settle. -/
def countSettled (s : Scheduler) : Scheduler := { s with commitIndex := s.commitIndex + 1 }

/-- The transaction to settle is settled; after the last one the round is over. -/
def advance (s : Scheduler) : Scheduler :=
  let s := s.countSettled
  if s.count ≤ s.commitIndex then s.halt.2 else s

@[simp] theorem next_of_isDone {s : Scheduler} (h : s.isDone = true) (timedOut : Bool) :
    s.next timedOut = (.done, s) := by
  simp [next, h]

@[simp] theorem isDone_halt (s : Scheduler) : s.halt.2.isDone = true := rfl

@[simp] theorem commitIndex_halt (s : Scheduler) : s.halt.2.commitIndex = s.commitIndex := rfl

@[simp] theorem commitIndex_advance (s : Scheduler) :
    s.advance.commitIndex = s.commitIndex + 1 := by
  simp only [advance]
  split <;> rfl

end Scheduler

end Lockstep
