import SinkTrace.Report.Steps
import SinkTrace.Proofs.Walk.Flow.Bases
import SinkTrace.Proofs.Walk.Flow.Part
import SinkTrace.Proofs.Walk.Flow.Taints
import SinkTrace.Proofs.Closure.Mirror
import SinkTrace.Proofs.Closure.Exact
import SinkTrace.Proofs.Walk.ContextSplit
import SinkTrace.Proofs.Definition.LastRound
import SinkTrace.Proofs.Walk.Defaults
import SinkTrace.Proofs.Walk.Nesting
import SinkTrace.Proofs.Walk.Nameless
import SinkTrace.Proofs.Analysis.Convergence
import SinkTrace.Proofs.Analysis.Listing
import SinkTrace.Proofs.Route.Backtracking
import SinkTrace.Proofs.Sink.Propagation
import SinkTrace.Proofs.Sink.ModuleFilter
import SinkTrace.Proofs.Walk.Replay
import SinkTrace.Proofs.Walk.ModuleScopes
import SinkTrace.Proofs.Walk.Decoding
import SinkTrace.Proofs.Report.Numbering
import SinkTrace.Proofs.Import.Relative
import SinkTrace.Proofs.Graph.Alignment
import SinkTrace.Proofs.Route.Account
