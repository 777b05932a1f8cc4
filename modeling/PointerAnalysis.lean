import PointerAnalysis.Table
import PointerAnalysis.AscendingSet
import PointerAnalysis.Multimap
import PointerAnalysis.Failure
import PointerAnalysis.Program.Draft
import PointerAnalysis.Hierarchy.Lookup
import PointerAnalysis.CallGraph.MethodGraph
import PointerAnalysis.CallGraph.FromHierarchy
import PointerAnalysis.Context.Sensitivity
import PointerAnalysis.Heap
import PointerAnalysis.FlowGraph
import PointerAnalysis.WorkList
import PointerAnalysis.Solver.Run
import PointerAnalysis.Analyzer
import PointerAnalysis.Json.Printer
import PointerAnalysis.Json.Reader
import PointerAnalysis.Result.JsonForm
import PointerAnalysis.Config.Document
import PointerAnalysis.Proofs.Program.Closed
import PointerAnalysis.Proofs.Hierarchy.Targets
import PointerAnalysis.Proofs.Hierarchy.Subtyping
import PointerAnalysis.Proofs.Context.Coarsening
import PointerAnalysis.Proofs.Solution
import PointerAnalysis.Proofs.Solver.Termination
import PointerAnalysis.Proofs.Solver.Correctness
import PointerAnalysis.Proofs.Solver.Confluence
import PointerAnalysis.Proofs.Solver.Violations
import PointerAnalysis.Proofs.Solver.Budget
import PointerAnalysis.Proofs.Solver.Rooted
import PointerAnalysis.Proofs.Result.Refinement
import PointerAnalysis.Proofs.CallGraph.Containment
import PointerAnalysis.Proofs.Result.Safety
import PointerAnalysis.Proofs.Solver.Discovery
import PointerAnalysis.Proofs.Program.Bodies
import PointerAnalysis.Proofs.Context.Policy
import PointerAnalysis.Proofs.Solver.Prescribed
import PointerAnalysis.Proofs.Program.Declarations
import PointerAnalysis.Proofs.Renaming
import PointerAnalysis.Proofs.Program.Agreement
import PointerAnalysis.Proofs.Solver.DeadCode
import PointerAnalysis.Proofs.Solver.Monotone
import PointerAnalysis.Proofs.Hierarchy.Dispatch
import PointerAnalysis.Proofs.Hierarchy.Fields
import PointerAnalysis.Proofs.CallGraph.Closure
import PointerAnalysis.Proofs.Result.Projections
import PointerAnalysis.Proofs.Program.Coherent
import PointerAnalysis.Proofs.Result.Objects
import PointerAnalysis.Proofs.Solver.Propagation
import PointerAnalysis.Proofs.Solver.Coverage
import PointerAnalysis.Proofs.Context.Pool
import PointerAnalysis.Proofs.FiniteSets
import PointerAnalysis.Proofs.Universe.Requests
import PointerAnalysis.Proofs.CallGraph.Insertions
