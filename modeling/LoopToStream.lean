import LoopToStream.Json.Report
import LoopToStream.Proofs.Tree.Grounded
import LoopToStream.Proofs.Tree.Descending
import LoopToStream.Proofs.Tree.Splicing
import LoopToStream.Proofs.Code.Slots
import LoopToStream.Proofs.Flow.Bounds
import LoopToStream.Proofs.Flow.Budgets
import LoopToStream.Proofs.Flow.Captures
import LoopToStream.Proofs.Flow.Exits
import LoopToStream.Proofs.Flow.Finality
import LoopToStream.Proofs.Flow.References
import LoopToStream.Proofs.Flow.Scopes
import LoopToStream.Proofs.Loop.Chain
import LoopToStream.Proofs.Loop.Exceptions
import LoopToStream.Proofs.Loop.Partition
import LoopToStream.Proofs.Loop.Receivers
import LoopToStream.Proofs.Loop.Targets
import LoopToStream.Proofs.Loop.Values
import LoopToStream.Proofs.Pipeline.Forwarding
import LoopToStream.Proofs.Pipeline.Invocations
import LoopToStream.Proofs.Pipeline.Kept
import LoopToStream.Proofs.Pipeline.Replacing
import LoopToStream.Proofs.Inspection.Applying
import LoopToStream.Proofs.Inspection.Assigning
import LoopToStream.Proofs.Inspection.Bounding
import LoopToStream.Proofs.Inspection.Commuting
import LoopToStream.Proofs.Inspection.Confining
import LoopToStream.Proofs.Inspection.Conserving
import LoopToStream.Proofs.Inspection.Converting
import LoopToStream.Proofs.Inspection.Failing
import LoopToStream.Proofs.Inspection.Histories
import LoopToStream.Proofs.Inspection.Leftovers
import LoopToStream.Proofs.Inspection.Observing
import LoopToStream.Proofs.Inspection.Remaining
import LoopToStream.Proofs.Inspection.Scoping
import LoopToStream.Proofs.Inspection.Sessions
import LoopToStream.Proofs.Json.Reports
import LoopToStream.Proofs.Source.Branches
import LoopToStream.Proofs.Source.Expressions
import LoopToStream.Proofs.Source.Literals
import LoopToStream.Proofs.Source.Spreading
import LoopToStream.Proofs.Symbols.Searching
import LoopToStream.Proofs.Tree.Redirecting
