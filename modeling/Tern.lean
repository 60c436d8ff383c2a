import Tern.Main
import Tern.Value.Inspect
import Tern.Proofs.Expression.Correctness
import Tern.Proofs.Statement.Correctness
import Tern.Proofs.Consumption
import Tern.Proofs.Normalization
import Tern.Proofs.Nesting
import Tern.Proofs.Termination
import Tern.Proofs.RoundTrip
import Tern.Proofs.Backtrace
import Tern.Proofs.Brackets
import Tern.Proofs.Sequencing
import Tern.Proofs.MaximalMunch
import Tern.Proofs.Configuration
import Tern.Proofs.Location
import Tern.Proofs.Locatable
import Tern.Proofs.StatementStart
import Tern.Proofs.Matching
import Tern.Proofs.Progress
import Tern.Proofs.Ranges
import Tern.Proofs.Branches
import Tern.Proofs.Entry
import Tern.Proofs.ArenaRefinement
import Tern.Proofs.Tiling
import Tern.Proofs.Arithmetic
import Tern.Proofs.Comparison
import Tern.Proofs.Literals
import Tern.Proofs.Arguments
import Tern.Proofs.Traversal
import Tern.Proofs.Observation
import Tern.Proofs.CountedLoops
import Tern.Proofs.Pacing
import Tern.Proofs.Boundaries
import Tern.Proofs.CommentRuns
