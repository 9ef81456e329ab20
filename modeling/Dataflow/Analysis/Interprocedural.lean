import Dataflow.Analysis.Constants
import Dataflow.Icfg.Basic

/-!
Constant propagation through calls. Facts flow along the edges of an interprocedural graph: into a callee go
the values of the arguments, out of it goes the value of what is returned, and a call passes by everything
but its result.
-/

namespace Dataflow

namespace Interprocedural

def id : String := "inter-constprop"

def transferEdge (p : Program) (passage : Passage) (f : Constants Var) : Constants Var :=
  match passage with
  | .normal _ => f
  | .callToReturn _ site =>
      match site.result with
      | none => f
      | some v => f.erase v
  | .call site callee =>
      let params := ((p.body? callee).map Body.params).getD []
      (params.zip site.call.args).foldl (fun acc b => acc.set b.1 (f.value b.2)) OrderedMap.empty
  | .ret site _ returned =>
      match site.result with
      | none => OrderedMap.empty
      | some v => returned.foldl (fun acc r => acc.set v ((acc.value v).meet (f.value r))) OrderedMap.empty

/-- What a node makes of the fact before it. A call changes nothing, its edges do. -/
def transferNode (s : Option Stmt) (f : Constants Var) : Constants Var :=
  match s with
  | some (.invoke _ _) => f
  | s => Propagation.transfer s f

def stmtAt (p : Program) (n : Node) : Option Stmt :=
  match n with
  | .stmt _ method => (p.body? method).bind (·.stmt? n)
  | _ => none

def boundaries (p : Program) (i : Icfg) (g : CallGraph) : OrderedMap Node (Constants Var) :=
  OrderedMap.ofList ((i.entries g).filterMap fun m =>
    match i.graphs.get? m, p.body? m with
    | some id, some b => some (.entry id, Propagation.boundary b)
    | _, _ => none)

def initialFacts (p : Program) (i : Icfg) (g : CallGraph) : Facts Node (Constants Var) :=
  let blank := OrderedMap.ofList (i.nodes.map fun n => (n, OrderedMap.empty))
  let facts := (boundaries p i g).entries.foldl (fun m e => m.insert e.1 e.2) blank
  ⟨facts, facts⟩

def merged (p : Program) (i : Icfg) (boundary : Option (Constants Var)) (f : Facts Node (Constants Var))
    (n : Node) : Constants Var :=
  (i.inEdges n).foldl
    (fun acc e => (transferEdge p e.passage (f.behind.getD e.source OrderedMap.empty)).meetInto acc)
    (boundary.getD OrderedMap.empty)

def update (p : Program) (i : Icfg) (boundaries : OrderedMap Node (Constants Var)) (n : Node)
    (f : Facts Node (Constants Var)) : Facts Node (Constants Var) × Bool :=
  let before := merged p i (boundaries.get? n) f n
  let (behind, changed) :=
    (f.behind.getD n OrderedMap.empty).replace (transferNode (stmtAt p n) before)
  (⟨f.before.insert n before, f.behind.insert n behind⟩, changed)

def system (p : Program) (i : Icfg) (g : CallGraph) : System Node (Facts Node (Constants Var)) :=
  let boundaries := boundaries p i g
  { ready := i.contains
    dependents := i.succs
    update := update p i boundaries }

def solve (p : Program) (i : Icfg) (g : CallGraph) (limit : Option Int) :
    Outcome Node (Solution Node (Constants Var)) :=
  match (system p i g).solve (.worklist i.nodes) (initialFacts p i g) limit with
  | .settled facts transfers => .settled ⟨.forward, facts, transfers, .worklist⟩ transfers
  | .stuck n => .stuck n
  | .exhausted => .exhausted
  | .endless => .endless

end Interprocedural

end Dataflow
