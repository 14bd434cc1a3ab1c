import Lockstep.Proofs.Block.Boundaries
import Lockstep.Proofs.Block.Failures
import Lockstep.Proofs.Block.GasAccounts
import Lockstep.Proofs.Block.GovernanceAborts
import Lockstep.Proofs.Block.HandOut
import Lockstep.Proofs.Block.Naming
import Lockstep.Proofs.Block.Neighbours
import Lockstep.Proofs.Block.Plans
import Lockstep.Proofs.Block.Provenance
import Lockstep.Proofs.Block.ReplayWaves
import Lockstep.Proofs.Block.SnapshotUse
import Lockstep.Proofs.Block.Verification
import Lockstep.Proofs.Config.RoundTrip
import Lockstep.Proofs.Context.Finalized
import Lockstep.Proofs.Dag.Reduction
import Lockstep.Proofs.Digest.Binding
import Lockstep.Proofs.Digest.Tree
import Lockstep.Proofs.Execution.Acceptance
import Lockstep.Proofs.Handles
import Lockstep.Proofs.Script.LookUps
import Lockstep.Proofs.Script.Nesting
import Lockstep.Proofs.Store.NetWrites
import Lockstep.Proofs.Store.Ranges
