import Dataflow.CallGraph.Basic
import Dataflow.Cfg.Basic

/-!
Interprocedural graphs: the control flow graphs of the reachable methods that have a body, joined by the
edges of a call graph. A call leads to the entry of its callees, and their exits lead to where the caller
goes on.
-/

namespace Dataflow

inductive Passage where
  | normal (kind : EdgeKind)
  | callToReturn (kind : EdgeKind) (site : CallSite)
  | call (site : CallSite) (callee : MethodRef)
  | ret (site : CallSite) (callee : MethodRef) (returned : List Var)
deriving DecidableEq

namespace Passage

def text : Passage → String
  | .normal _ => "normal"
  | .callToReturn _ _ => "call-to-return"
  | .call _ _ => "call"
  | .ret _ _ _ => "return"

def edgeKind? : Passage → Option EdgeKind
  | .normal kind => some kind
  | .callToReturn kind _ => some kind
  | _ => none

def site? : Passage → Option CallSite
  | .normal _ => none
  | .callToReturn _ site => some site
  | .call site _ => some site
  | .ret site _ _ => some site

def callee? : Passage → Option MethodRef
  | .call _ callee => some callee
  | .ret _ callee _ => some callee
  | _ => none

def returned : Passage → List Var
  | .ret _ _ vars => vars
  | _ => []

end Passage

structure IcfgEdge where
  source : Node
  target : Node
  passage : Passage
deriving DecidableEq

/-- An interprocedural graph: the number of the graph of each method, the nodes, and the edges in the order in which
they were drawn, as they leave their source and as they enter their target. -/
structure Icfg where
  graphs : OrderedMap MethodRef Nat
  nodes : List Node
  outgoing : List IcfgEdge
  incoming : List IcfgEdge

namespace Icfg

def methods (i : Icfg) : List MethodRef := i.graphs.keys

def contains (i : Icfg) (n : Node) : Bool := decide (n ∈ i.nodes)

def outEdges (i : Icfg) (n : Node) : List IcfgEdge := i.outgoing.filter (·.source = n)

def inEdges (i : Icfg) (n : Node) : List IcfgEdge := i.incoming.filter (·.target = n)

def succs (i : Icfg) (n : Node) : List Node := OrderedSet.distinct ((i.outEdges n).map IcfgEdge.target)

def preds (i : Icfg) (n : Node) : List Node := OrderedSet.distinct ((i.inEdges n).map IcfgEdge.source)

def graphOf (i : Icfg) (m : MethodRef) : Except Error Nat :=
  match i.graphs.get? m with
  | some id => .ok id
  | none => .error (.methodNotInIcfg m)

def entryOf (i : Icfg) (m : MethodRef) : Except Error Node := (i.graphOf m).map Node.entry

def exitOf (i : Icfg) (m : MethodRef) : Except Error Node := (i.graphOf m).map Node.exit

def entries (i : Icfg) (g : CallGraph) : List MethodRef := g.entries.toList.filter i.graphs.contains

def described (i : Icfg) : String :=
  "ICFG(methods=" ++ toString i.graphs.size ++ ", nodes=" ++ toString i.nodes.length ++
    ", edges=" ++ toString i.outgoing.length ++ ")"

end Icfg

end Dataflow
