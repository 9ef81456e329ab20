import Dataflow.Analysis.Constants
import Dataflow.Analysis.DeadCode
import Dataflow.Analysis.Evaluation
import Dataflow.Analysis.Interprocedural
import Dataflow.Analysis.Liveness
import Dataflow.Analysis.Problem
import Dataflow.CallGraph.Basic
import Dataflow.CallGraph.Report
import Dataflow.CallGraph.Resolve
import Dataflow.Cfg.Basic
import Dataflow.Cfg.Build
import Dataflow.Cfg.Dot
import Dataflow.Config.Basic
import Dataflow.Config.Plan
import Dataflow.Data.Components
import Dataflow.Data.Iteration
import Dataflow.Data.OrderedMap
import Dataflow.Data.OrderedSet
import Dataflow.Data.Place
import Dataflow.Data.Search
import Dataflow.Data.Steps
import Dataflow.Datum.Basic
import Dataflow.Datum.Reader
import Dataflow.Datum.Writer
import Dataflow.Error
import Dataflow.Fact.Checked
import Dataflow.Fact.Constants
import Dataflow.Fact.Lattice
import Dataflow.Fact.Listing
import Dataflow.Fact.Mixed
import Dataflow.Fact.Set
import Dataflow.Fact.Table
import Dataflow.Fact.Value
import Dataflow.Hierarchy
import Dataflow.Icfg.Basic
import Dataflow.Icfg.Build
import Dataflow.Icfg.Dot
import Dataflow.Ir.Body
import Dataflow.Ir.Draft
import Dataflow.Ir.Exp
import Dataflow.Ir.Instr
import Dataflow.Ir.Name
import Dataflow.Ir.Operator
import Dataflow.Ir.Scope
import Dataflow.Ir.Stmt
import Dataflow.Ir.Term
import Dataflow.Log
import Dataflow.Number.Binary64
import Dataflow.Number.Shortest
import Dataflow.Program
import Dataflow.Proofs.Analysis.Constants
import Dataflow.Proofs.Analysis.DeadCode
import Dataflow.Proofs.Analysis.Liveness
import Dataflow.Proofs.Cfg.Edges
import Dataflow.Proofs.Data.Lists
import Dataflow.Proofs.Data.Maps
import Dataflow.Proofs.Data.Search
import Dataflow.Proofs.Fact.Entries
import Dataflow.Proofs.Fact.Order
import Dataflow.Proofs.Ir.Drafts
import Dataflow.Proofs.Semantics.Execution
import Dataflow.Proofs.Semantics.Words
import Dataflow.Proofs.Solver.Ascent
import Dataflow.Proofs.Solver.Fixpoint
import Dataflow.Proofs.Solver.Runs
import Dataflow.Registry
import Dataflow.Solver.Analysis
import Dataflow.Solver.Engine
import Dataflow.Text.Lines
import Dataflow.Text.Point
import Dataflow.Text.Printable
import Dataflow.Text.Quoted
import Dataflow.Word32
import Dataflow.Workspace.Building
import Dataflow.Workspace.Calls
import Dataflow.Workspace.Managing
import Dataflow.Workspace.Solving
import Dataflow.Workspace.State
import Dataflow.Proofs.Analysis.Monotone
import Dataflow.Proofs.Analysis.Strategies
import Dataflow.Proofs.CallGraph.Closure
import Dataflow.Proofs.Icfg.Edges
import Dataflow.Proofs.Analysis.Interprocedural
import Dataflow.Proofs.Data.Components
import Dataflow.Proofs.Hierarchy.Index
import Dataflow.Proofs.CallGraph.Resolution
import Dataflow.Proofs.CallGraph.Building
import Dataflow.Proofs.CallGraph.Components
import Dataflow.Proofs.Analysis.Equations
import Dataflow.Proofs.CallGraph.Indexes
import Dataflow.Proofs.Icfg.Composition
import Dataflow.Proofs.Analysis.Precision
import Dataflow.Proofs.Analysis.CallFree
import Dataflow.Proofs.Cfg.Drawing
import Dataflow.Proofs.Ir.Labels
import Dataflow.Proofs.Registry.Order
import Dataflow.Proofs.Workspace.Results
import Dataflow.Proofs.Workspace.Plans
import Dataflow.Proofs.Analysis.Bindings
import Dataflow.Proofs.Workspace.Limits
import Dataflow.Proofs.Workspace.Sweep
import Dataflow.Proofs.Semantics.Arithmetic
import Dataflow.Proofs.Ir.Variables
import Dataflow.Proofs.Analysis.Tracking
import Dataflow.Proofs.CallGraph.Recursion
import Dataflow.Proofs.Cfg.Rules
import Dataflow.Proofs.Fact.Semilattice
import Dataflow.Proofs.Hierarchy.Queries
import Dataflow.Proofs.Cfg.Reachability
import Dataflow.Proofs.Config.RoundTrip
import Dataflow.Proofs.Fact.Changes
import Dataflow.Proofs.Workspace.Bodies
import Dataflow.Proofs.Workspace.Declaring
import Dataflow.Proofs.Analysis.Effects
