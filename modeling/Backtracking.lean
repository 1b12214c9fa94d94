import Backtracking.Graph.View
import Backtracking.Journal
import Backtracking.Proofs.Exactness
import Backtracking.Proofs.Exponential
import Backtracking.Proofs.Entry
import Backtracking.Proofs.Polynomial
import Backtracking.Proofs.Subsets
import Backtracking.Proofs.Simulation
import Backtracking.Proofs.Stages
import Backtracking.Proofs.Limits
import Backtracking.Proofs.Spans
import Backtracking.Proofs.Enumeration
import Backtracking.Proofs.Reading
import Backtracking.Proofs.Factorization
import Backtracking.Proofs.Scanning
import Backtracking.Proofs.Sessions
import Backtracking.Proofs.Witnesses
import Backtracking.Proofs.Composition
import Backtracking.Proofs.Nesting
import Backtracking.Proofs.Alternatives
import Backtracking.Proofs.Exemption
import Backtracking.Proofs.Metering
import Backtracking.Proofs.Pruning
import Backtracking.Proofs.Spinning
import Backtracking.Proofs.Determinization
import Backtracking.Proofs.Relabelling
import Backtracking.Proofs.Anchoring
import Backtracking.Proofs.Locality
import Backtracking.Proofs.Framing
import Backtracking.Proofs.Worklist
import Backtracking.Proofs.Depth
import Backtracking.Proofs.Settings
import Backtracking.Proofs.Assembly
import Backtracking.Proofs.Exploration
import Backtracking.Proofs.Parents
