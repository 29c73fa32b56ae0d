import NestedViews.Assembly.Assembler
import NestedViews.Document.Encoding
import NestedViews.Executor.Script
import NestedViews.Executor.Watched
import NestedViews.Proofs.Assembly.Batched
import NestedViews.Proofs.Assembly.DepthFirst
import NestedViews.Proofs.Assembly.Evaluation
import NestedViews.Proofs.Assembly.Meaning
import NestedViews.Proofs.Assembly.Mirrors
import NestedViews.Proofs.Assembly.Safety
import NestedViews.Proofs.Assembly.Settles
import NestedViews.Proofs.Assembly.Steps
import NestedViews.Proofs.Catalog.Acceptance
import NestedViews.Proofs.Catalog.Extension
import NestedViews.Proofs.Catalog.Forest
import NestedViews.Proofs.Catalog.Plan
import NestedViews.Proofs.Document
import NestedViews.Proofs.Effect
import NestedViews.Proofs.Executor.Recorded
import NestedViews.Proofs.Lookup
import NestedViews.Proofs.Nesting.Assignment
import NestedViews.Proofs.Nesting.Climb
import NestedViews.Proofs.Nesting.Search
import NestedViews.Proofs.Scope
import NestedViews.Proofs.Success
import NestedViews.Snapshot.Definitions
import NestedViews.Proofs.Assembly.Cancellation
import NestedViews.Proofs.Catalog.Subtree
import NestedViews.Proofs.Document.Places
import NestedViews.Proofs.Document.Shape
import NestedViews.Proofs.Assembly.Exchanges
import NestedViews.Proofs.Assembly.Levels
import NestedViews.Proofs.Assembly.Transcript
import NestedViews.Proofs.Assembly.Distribution
import NestedViews.Proofs.Assembly.Statistics
import NestedViews.Proofs.Assembly.Correlation
import NestedViews.Proofs.Snapshot.Codec
import NestedViews.Proofs.Snapshot.Text
import NestedViews.Proofs.Snapshot.RoundTrip
import NestedViews.Proofs.Assembly.Purity
import NestedViews.Proofs.Assembly.CallOrder
import NestedViews.Proofs.Assembly.Agenda
import NestedViews.Proofs.Assembly.AgendaRuns
import NestedViews.Proofs.Assembly.FailFast
import NestedViews.Proofs.Catalog.Rearrangement
import NestedViews.Proofs.Document.Alike
import NestedViews.Proofs.Assembly.Rearrangement
import NestedViews.Proofs.Assembly.RowLimit
import NestedViews.Proofs.Assembly.Entry
import NestedViews.Proofs.Assembly.WellFormed
import NestedViews.Proofs.Query.Lexer
import NestedViews.Proofs.Query.Parameters
import NestedViews.Proofs.Query.Reading
import NestedViews.Proofs.Assembly.Requests
import NestedViews.Proofs.Document.Pruning
import NestedViews.Proofs.Assembly.Extension
import NestedViews.Proofs.Assembly.LastCall
import NestedViews.Proofs.Assembly.Faults
import NestedViews.Proofs.Assembly.FaultRuns
import NestedViews.Proofs.Assembly.SingleFault
import NestedViews.Proofs.Binary64.Exact
import NestedViews.Proofs.Binary64.Nearest
import NestedViews.Proofs.Value.Coercion
import NestedViews.Proofs.Value.Numbers
import NestedViews.Proofs.Calendar.Civil
import NestedViews.Proofs.Calendar.Dates
import NestedViews.Proofs.Calendar.Instants
import NestedViews.Proofs.Value.RoundTrip
import NestedViews.Proofs.Nesting.Cycles
import NestedViews.Proofs.Catalog.Kinship
import NestedViews.Proofs.Snapshot.Naming
import NestedViews.Proofs.Catalog.ReportedCycle
import NestedViews.Proofs.Catalog.Declaration
import NestedViews.Proofs.Scope.Frames
import NestedViews.Proofs.Document.Named
import NestedViews.Proofs.Document.Decoding
import NestedViews.Proofs.Document.Events
import NestedViews.Proofs.Document.Markup
import NestedViews.Proofs.Document.ReadBack
import NestedViews.Proofs.Document.Visitors
import NestedViews.Proofs.Document.Brackets
import NestedViews.Proofs.Document.Recognition
import NestedViews.Proofs.Executor.Scripted
import NestedViews.Proofs.Nesting.Finality
import NestedViews.Proofs.Nesting.Unbounded
import NestedViews.Proofs.Assembly.Overlap.Invariants
import NestedViews.Proofs.Assembly.Overlap.Follows
import NestedViews.Proofs.Assembly.Overlap.Moments
import NestedViews.Proofs.Assembly.Overlap.Cancellation
import NestedViews.Proofs.Assembly.Overlap.Failure
