import Lockstep.Block.Output

/-!
# Replaying and verifying a block

A proposed block is replayed wave by wave along its graph: the transactions of a wave run on the
same state and are merged in order before the next wave. Verification replays, derives the graph
again, and compares graph and root with the proposal.
-/

namespace Lockstep

structure Replay where
  block : List Transaction
  snapshot : Snapshot
  outputs : SortedMap Nat Output := .empty
  error : Option BlockError := none

namespace Replay

/-- Merges the output of a transaction, unless the replay was given up before. -/
def merge (r : Replay) (i : Nat) (tx : Transaction) (o : Output) : Replay :=
  if r.error.isSome then r
  else match checkGovernance tx o with
    | .error e => { r with error := some e }
    | .ok _ => match r.snapshot.apply i.toUInt32 o.rwset with
      | .error e => { r with error := some (.snapshot e) }
      | .ok snapshot => { r with snapshot, outputs := r.outputs.insert i o }

/-- The transactions of a wave with their positions. -/
def members (r : Replay) (wave : List Nat) : List (Nat × Transaction) :=
  wave.filterMap fun i => (r.block[i]?).map fun tx => (i, tx)

/-- Executes a wave on one state, then merges it in order. -/
def runWave (e : Engine) (r : Replay) (wave : List Nat) : Step Replay := do
  if r.error.isSome then return r
  else
    let outputs ← (r.members wave).mapM fun (i, tx) => do
      let o ← e.execute tx r.snapshot
      return (i, tx, o)
    return outputs.foldl (fun r (i, tx, o) => r.merge i tx o) r

/-- Publishes the outputs in block order and records their results. -/
def publish (r : Replay) : Except BlockError BlockOutput × Snapshot :=
  let step (state : Except BlockError Ledger × Snapshot) (i : Nat) :=
    match state with
    | (.error e, s) => (.error e, s)
    | (.ok l, s) => match r.outputs.find? i with
      | none => (.error (.neverReplayed i), s)
      | some o => (.ok (l.add o), s.recordResult o.txResult)
  let (ledger, s) := (List.range r.block.length).foldl step (.ok {}, r.snapshot)
  (ledger.map fun l => l.publish [], s)

/-- Ends the replay: the snapshot takes no more writes, whatever happened. -/
def close (r : Replay) : Except BlockError BlockOutput × Snapshot :=
  let r := { r with snapshot := r.snapshot.close }
  match r.error with
  | some e => (.error e, r.snapshot)
  | none => r.publish

end Replay

namespace Engine

/-- Replays a block along a graph. A graph that does not fit leaves the snapshot untouched. -/
def replay (e : Engine) (block : List Transaction) (dag : Dag) (s : Snapshot) :
    Step (Except BlockError BlockOutput × Snapshot) := do
  if dag.size ≠ block.length then return (.error (.dagSize dag.size block.length), s)
  else if !dag.isWellFormed then return (.error .dagMalformed, s)
  else
    let r ← dag.levels.foldlM (Replay.runWave e) { block, snapshot := s }
    return r.close

/-- Whether a replayed block is the proposed one. -/
def checkProposal (dag : Dag) (root : Hash) (o : BlockOutput) : Except BlockError BlockOutput :=
  if o.dag ≠ dag then .error (.dagMismatch dag o.dag)
  else if o.root ≠ root then .error (.rootMismatch root o.root)
  else .ok o

def verify (e : Engine) (block : List Transaction) (dag : Dag) (root : Hash) (s : Snapshot) :
    Step (Except BlockError BlockOutput × Snapshot) := do
  let (output, s) ← e.replay block dag s
  return (output.bind (checkProposal dag root), s)

end Engine

end Lockstep
