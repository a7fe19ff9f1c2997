import Dataflow.Balance
import Dataflow.Evaluation
import Dataflow.Graph.Circuit
import Dataflow.Graph.Dot
import Dataflow.Graph.Named
import Dataflow.Hierarchy.Survey
import Dataflow.Normalization
import Dataflow.Parameters
import Dataflow.Proofs.Balance.Range
import Dataflow.Proofs.Circuit.Peeling
import Dataflow.Proofs.Construction
import Dataflow.Proofs.Dot
import Dataflow.Proofs.Expansion.Coincidence
import Dataflow.Proofs.Expansion.Conservation
import Dataflow.Proofs.Expansion.CriticalPath
import Dataflow.Proofs.Expansion.Dates
import Dataflow.Proofs.Expansion.Idempotence
import Dataflow.Proofs.Expansion.Provenance
import Dataflow.Proofs.Hierarchy.Containment
import Dataflow.Proofs.Hierarchy.Survey
import Dataflow.Proofs.Ledger.History
import Dataflow.Proofs.Ledger.Withdrawal
import Dataflow.Proofs.Naming
import Dataflow.Proofs.Normalization
import Dataflow.Proofs.Rescaling
import Dataflow.Proofs.Simulation.Relaxation
import Dataflow.Proofs.Simulation.Termination
import Dataflow.Proofs.Simulation.Visited
import Dataflow.Proofs.SingleRate
import Dataflow.Proofs.Timing
import Dataflow.Simulation
import Dataflow.SingleRate
import Dataflow.Text.Names
import Dataflow.Timing
