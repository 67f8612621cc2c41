import PointsTo.Analyze
import PointsTo.CallGraph.Dot
import PointsTo.Plugin.Extension
import PointsTo.Snapshot
import PointsTo.Proofs.Code.WellFormed
import PointsTo.Proofs.Code.Lowering
import PointsTo.Proofs.Code.Lookup
import PointsTo.Proofs.Elements.Faithful
import PointsTo.Proofs.Rules
import PointsTo.Proofs.Solver.Facts
import PointsTo.Proofs.Solver.Runs
import PointsTo.Proofs.Solver.Tasks
import PointsTo.Proofs.Precision
import PointsTo.Proofs.Solver.Obligations
import PointsTo.Proofs.Solver.Queue
import PointsTo.Proofs.Soundness
import PointsTo.Proofs.Finiteness
import PointsTo.Proofs.Termination
import PointsTo.Proofs.CallGraph.MethodGraph
import PointsTo.Proofs.CallGraph.Dump
import PointsTo.Proofs.Solver.Entries
import PointsTo.Proofs.OrderIndependence
import PointsTo.Proofs.Monotonicity
import PointsTo.Proofs.Code.Edits
import PointsTo.Proofs.Elements.Growth
import PointsTo.Proofs.Solver.Edits
import PointsTo.Proofs.Solver.Works
import PointsTo.Proofs.Propagation
import PointsTo.Proofs.Solver.Injected
import PointsTo.Proofs.Injection
import PointsTo.Proofs.Sensitivity
import PointsTo.Proofs.CallGraph.Reachability
import PointsTo.Proofs.Roots
import PointsTo.Proofs.Elements.Numbering
import PointsTo.Proofs.Growth
import PointsTo.Proofs.Elements.Locality
import PointsTo.Proofs.Solver.Confined
import PointsTo.Proofs.Plugin.Conduct
import PointsTo.Proofs.Plugin.Handlers
import PointsTo.Proofs.Plugin.Modelling
import PointsTo.Proofs.Solver.Announcements
import PointsTo.Proofs.Solver.Timely
import PointsTo.Proofs.Solver.Schedule
import PointsTo.Proofs.Solver.Prompt
import PointsTo.Proofs.Chronicle
import PointsTo.Proofs.Models
import PointsTo.Proofs.Projection
import PointsTo.Proofs.Translation
import PointsTo.Proofs.CallGraph.Compare
import PointsTo.Proofs.Elements.Bodies
import PointsTo.Proofs.Elements.Notes
import PointsTo.Proofs.Plugin.Sparing
import PointsTo.Proofs.Solver.Answered
import PointsTo.Proofs.Opacity
import PointsTo.Proofs.CallGraph.Canonical
import PointsTo.Proofs.Completeness
import PointsTo.Proofs.Elements.Changes
import PointsTo.Proofs.Elements.Interning
import PointsTo.Proofs.Program.Dispatch
import PointsTo.Proofs.Program.Overriding
import PointsTo.Proofs.Elements.Index
import PointsTo.Proofs.Code.Reading
import PointsTo.Proofs.Code.Yields
import PointsTo.Proofs.Elements.SelfContained
import PointsTo.Proofs.Contexts
import PointsTo.Proofs.Solver.Scope
import PointsTo.Proofs.Limiting
import PointsTo.Proofs.CallGraph.Distance
import PointsTo.Proofs.CallGraph.Views
import PointsTo.Proofs.Heap
import PointsTo.Proofs.Elements.Catalog
import PointsTo.Proofs.Results
import PointsTo.Proofs.Signature
import PointsTo.Proofs.Program.Resolution
import PointsTo.Proofs.Signature.Grammar
import PointsTo.Proofs.Program.Subtyping
import PointsTo.Proofs.ContextPolicy
import PointsTo.Proofs.Plugin.Registration
import PointsTo.Proofs.Elements.Positions
import PointsTo.Proofs.Elements.Temporaries
