import HeapShape.AllocSite
import HeapShape.Analysis
import HeapShape.Analysis.Encoding
import HeapShape.AnalysisError
import HeapShape.CallGraph
import HeapShape.CallGraph.Encoding
import HeapShape.Cell
import HeapShape.CommandLine.Basic
import HeapShape.CommandLine.Run
import HeapShape.Config.Basic
import HeapShape.Config.Encoding
import HeapShape.Config.Yaml
import HeapShape.Fault
import HeapShape.Flags
import HeapShape.Graph.Basic
import HeapShape.Graph.Bind
import HeapShape.Graph.Collect
import HeapShape.Graph.Copy
import HeapShape.Graph.Encoding
import HeapShape.Graph.Listing
import HeapShape.Graph.Merge
import HeapShape.Graph.View
import HeapShape.Ident
import HeapShape.Json.Basic
import HeapShape.Json.Number
import HeapShape.Json.Parser
import HeapShape.Json.Printer
import HeapShape.Json.Record
import HeapShape.Lowering
import HeapShape.Main
import HeapShape.Node
import HeapShape.Ordered.Map
import HeapShape.Ordered.Set
import HeapShape.Pass.BottomUp
import HeapShape.Pass.Closure
import HeapShape.Pass.Fixpoint
import HeapShape.Pass.TopDown
import HeapShape.Program.Basic
import HeapShape.Program.Builder
import HeapShape.Program.Encoding
import HeapShape.Proofs.Analysis.Cleaned
import HeapShape.Proofs.Analysis.Flat
import HeapShape.Proofs.Analysis.History
import HeapShape.Proofs.Analysis.Marked
import HeapShape.Proofs.Analysis.Progress
import HeapShape.Proofs.Analysis.Safety
import HeapShape.Proofs.Analysis.StackSites
import HeapShape.Proofs.CallGraph
import HeapShape.Proofs.CallGraph.Calls
import HeapShape.Proofs.CallGraph.Components
import HeapShape.Proofs.Checked
import HeapShape.Proofs.Graph.Carried
import HeapShape.Proofs.Graph.Collect
import HeapShape.Proofs.Graph.Compressed
import HeapShape.Proofs.Graph.Congruence
import HeapShape.Proofs.Graph.Copied
import HeapShape.Proofs.Graph.Copy
import HeapShape.Proofs.Graph.Dangling
import HeapShape.Proofs.Graph.Denoted
import HeapShape.Proofs.Graph.Derived
import HeapShape.Proofs.Graph.Elementary
import HeapShape.Proofs.Graph.Evolves
import HeapShape.Proofs.Graph.Foreign
import HeapShape.Proofs.Graph.Forwarding
import HeapShape.Proofs.Graph.Invisible
import HeapShape.Proofs.Graph.Isomorphic
import HeapShape.Proofs.Graph.Kept
import HeapShape.Proofs.Graph.Marked
import HeapShape.Proofs.Graph.Merge
import HeapShape.Proofs.Graph.Merged
import HeapShape.Proofs.Graph.Mirrored
import HeapShape.Proofs.Graph.Preservation
import HeapShape.Proofs.Graph.Progress
import HeapShape.Proofs.Graph.Pruned
import HeapShape.Proofs.Graph.Reachable
import HeapShape.Proofs.Graph.Shape
import HeapShape.Proofs.Graph.Slot
import HeapShape.Proofs.Graph.Snug
import HeapShape.Proofs.Graph.Sound
import HeapShape.Proofs.Graph.Swept
import HeapShape.Proofs.Graph.Termination
import HeapShape.Proofs.Graph.Transfer
import HeapShape.Proofs.Graph.Unify
import HeapShape.Proofs.Graph.Update
import HeapShape.Proofs.Graph.WellFormed
import HeapShape.Proofs.Json.Program
import HeapShape.Proofs.Json.Text
import HeapShape.Proofs.Lookup
import HeapShape.Proofs.Lowering.Constraint
import HeapShape.Proofs.Lowering.Draft
import HeapShape.Proofs.Lowering.Operation
import HeapShape.Proofs.Lowering.Overflow
import HeapShape.Proofs.Lowering.Progress
import HeapShape.Proofs.Lowering.Soundness
import HeapShape.Proofs.Node
import HeapShape.Proofs.Ordered
import HeapShape.Proofs.Pass.Closed
import HeapShape.Proofs.Pass.Closure
import HeapShape.Proofs.Pass.Connected
import HeapShape.Proofs.Pass.Fixpoint
import HeapShape.Proofs.Pass.Kept
import HeapShape.Proofs.Pass.Lookup
import HeapShape.Proofs.Pass.Marked
import HeapShape.Proofs.Pass.OneWay
import HeapShape.Proofs.Pass.Progress
import HeapShape.Proofs.Pass.Stable
import HeapShape.Proofs.Propagation.BottomUp
import HeapShape.Proofs.Propagation.Discharge
import HeapShape.Proofs.Propagation.Joined
import HeapShape.Proofs.Propagation.Marked
import HeapShape.Proofs.Propagation.Native
import HeapShape.Proofs.Propagation.Placed
import HeapShape.Proofs.Propagation.Progress
import HeapShape.Proofs.Propagation.TopDown
import HeapShape.Proofs.Simulation
import HeapShape.Proofs.Simulation.Disjoint
import HeapShape.Proofs.Simulation.Exact
import HeapShape.Proofs.Simulation.Injective
import HeapShape.Proofs.Simulation.Placement
import HeapShape.Proofs.Simulation.Trimmed
import HeapShape.Proofs.Store
import HeapShape.Proofs.Worklist
import HeapShape.Proofs.Worklist.Served
import HeapShape.Proofs.Yaml.Config
import HeapShape.Propagation
import HeapShape.Report
import HeapShape.Simulation
import HeapShape.Simulation.Encoding
import HeapShape.Store
import HeapShape.Text.Blank
import HeapShape.TypeSet
import HeapShape.UniqueScalar
import HeapShape.Worklist
import HeapShape.Yaml.Basic
import HeapShape.Yaml.Cursor
import HeapShape.Yaml.Parser
import HeapShape.Yaml.Printer
import HeapShape.Yaml.Scalar
