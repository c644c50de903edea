import MipLowering.Binary64
import MipLowering.Decimal.Shortest
import MipLowering.Decimal.Plain
import MipLowering.Decimal.Read
import MipLowering.Scalar
import MipLowering.Scalar.Float
import MipLowering.Scalar.Exact
import MipLowering.Error
import MipLowering.Flat.Column
import MipLowering.Flat.Row
import MipLowering.Flat.Model
import MipLowering.Search.Restart
import MipLowering.Search.Config
import MipLowering.Search.Solution
import MipLowering.Search.Enumerate
import MipLowering.Expr.ArgList
import MipLowering.Expr.Node
import MipLowering.Lowering.FlowBounds
import MipLowering.Lowering.Config
import MipLowering.Lowering.Builder
import MipLowering.Lowering.Fold
import MipLowering.Lowering.Emit
import MipLowering.Lowering.Reify
import MipLowering.Lowering.Flow
import MipLowering.Lowering.Encode
import MipLowering.Lowering.Session
import MipLowering.Proofs.Lowering.Growth
import MipLowering.Proofs.Lowering.Undo
import MipLowering.Proofs.Lowering.Requests
import MipLowering.Proofs.Lowering.Idempotence
import MipLowering.Proofs.Search.Descent
import MipLowering.Proofs.Search.Plan
import MipLowering.Proofs.Search.AllSolutions
import MipLowering.Proofs.Search.ExactSolutions
import MipLowering.Proofs.Search.Replay
import MipLowering.Proofs.Search.Restarts
import MipLowering.Proofs.Search.Luby
import MipLowering.Proofs.Search.Completion
import MipLowering.Proofs.Search.Answers
import MipLowering.Proofs.Lowering.ExactRows
import MipLowering.Proofs.Lowering.Relations
import MipLowering.Proofs.Lowering.Sound
import MipLowering.Proofs.Lowering.SoundEncodings
import MipLowering.Proofs.Lowering.WellFormed
import MipLowering.Proofs.Lowering.ColumnNames
import MipLowering.Proofs.Lowering.NamedColumns
import MipLowering.Proofs.Lowering.Folding
import MipLowering.Proofs.Lowering.Fragments
import MipLowering.Proofs.Lowering.Connectives
import MipLowering.Proofs.Lowering.NoOverlap
import MipLowering.Proofs.Lowering.Occurrences
import MipLowering.Proofs.Lowering.Flows
import MipLowering.Proofs.Lowering.EnumeratedDomains
import MipLowering.Proofs.Lowering.UniqueNames
import MipLowering.Proofs.Lowering.DerivedBounds
import MipLowering.Proofs.Lowering.SoundBounds
import MipLowering.Proofs.Lowering.Admission
import MipLowering.Proofs.Lowering.Decisions
import MipLowering.Proofs.Search.Feasibility
import MipLowering.Proofs.Lowering.Implications
import MipLowering.Proofs.Lowering.Domains
import MipLowering.Proofs.Lowering.Termination
import MipLowering.Proofs.Lowering.Meaning
import MipLowering.Proofs.Lowering.Points
import MipLowering.Proofs.Lowering.FaithfulSteps
import MipLowering.Proofs.Lowering.FaithfulRelations
import MipLowering.Proofs.Lowering.FaithfulLogic
import MipLowering.Proofs.Lowering.FaithfulColumns
import MipLowering.Proofs.Lowering.FaithfulFlows
import MipLowering.Proofs.Lowering.FaithfulWalk
import MipLowering.Proofs.Lowering.IntegerModels
