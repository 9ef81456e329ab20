import Dataflow.Data.Components
import Dataflow.Data.OrderedSet
import Dataflow.Data.Search
import Dataflow.Program

/-!
Call graphs: the methods that may run, and which call may run which method. The edges are indexed by call
site and by callee. Only calls in the bodies of reachable methods, with as many arguments as the callee has
parameters, make an edge.
-/

namespace Dataflow

structure CallSite where
  home : Option MethodRef
  pos : Nat
  call : Call
  result : Option Var
deriving DecidableEq

namespace CallSite

def stmt (s : CallSite) : Stmt := .invoke s.call s.result

def text (s : CallSite) : String := s.stmt.text fun _ => -1

def index (s : CallSite) : Int := if s.home.isSome then s.pos else -1

def node? (s : CallSite) : Option Node := s.home.map (.stmt s.pos)

def belongs (p : Program) (s : CallSite) : Bool :=
  match s.home.bind p.body? with
  | none => false
  | some b => b.stmts[s.pos]? = some s.stmt

end CallSite

def Body.sites (b : Body) : List CallSite :=
  b.stmts.zipIdx.filterMap fun item =>
    match item.1 with
    | .invoke call result => some ⟨some b.method, item.2, call, result⟩
    | _ => none

def Program.sites (p : Program) (m : MethodRef) : List CallSite := ((p.body? m).map Body.sites).getD []

structure CallEdge where
  kind : CallKind
  site : CallSite
  callee : MethodRef
deriving DecidableEq

def CallEdge.text (e : CallEdge) : String :=
  "CallGraphEdge(" ++ e.kind.text ++ ", " ++ (e.site.home.map MethodRef.text).getD "None" ++
    "[" ++ toString e.site.index ++ "] -> " ++ e.callee.text ++ ")"

structure CallGraph where
  entries : OrderedSet MethodRef
  reachable : OrderedSet MethodRef
  edges : OrderedSet CallEdge
  bySite : OrderedMap CallSite (List CallEdge)
  byCallee : OrderedMap MethodRef (List CallEdge)

namespace CallGraph

def empty : CallGraph :=
  ⟨OrderedSet.empty, OrderedSet.empty, OrderedSet.empty, OrderedMap.empty, OrderedMap.empty⟩

def addEntry (g : CallGraph) (m : MethodRef) : CallGraph := { g with entries := g.entries.insert m }

def addReachable (g : CallGraph) (m : MethodRef) : CallGraph × Bool :=
  ({ g with reachable := g.reachable.insert m }, !g.reachable.contains m)

def misplaced (g : CallGraph) (home : Option MethodRef) (inside : Bool) (text : String) : Option Error :=
  match home with
  | none => some (.foreignCallSite text none)
  | some caller =>
      if !inside then some (.foreignCallSite text (some caller))
      else if !g.reachable.contains caller then some (.unreachableCaller caller text)
      else none

def refusal (g : CallGraph) (p : Program) (e : CallEdge) : Option Error :=
  match g.misplaced e.site.home (e.site.belongs p) e.site.text with
  | some error => some error
  | none =>
      if e.site.call.args.length ≠ e.callee.arity then
        some (.arityMismatch e.site.text e.callee e.site.call.args.length)
      else none

def addEdge (g : CallGraph) (p : Program) (e : CallEdge) : Except Error (CallGraph × Bool) :=
  match g.refusal p e with
  | some error => .error error
  | none =>
      if g.edges.contains e then .ok (g, false)
      else .ok ({ g with
        edges := g.edges.insert e
        bySite := g.bySite.insert e.site (g.bySite.getD e.site [] ++ [e])
        byCallee := g.byCallee.insert e.callee (g.byCallee.getD e.callee [] ++ [e]) }, true)

def edgesOutOf (g : CallGraph) (s : CallSite) : List CallEdge := g.bySite.getD s []

def edgesInto (g : CallGraph) (m : MethodRef) : List CallEdge := g.byCallee.getD m []

def calleesOf (g : CallGraph) (s : CallSite) : List MethodRef := (g.edgesOutOf s).map CallEdge.callee

def callersOf (g : CallGraph) (m : MethodRef) : List CallSite := (g.edgesInto m).map CallEdge.site

def callees (g : CallGraph) (p : Program) (m : MethodRef) : List MethodRef :=
  OrderedSet.distinct ((p.sites m).flatMap g.calleesOf)

def callers (g : CallGraph) (m : MethodRef) : List MethodRef :=
  OrderedSet.distinct ((g.callersOf m).filterMap CallSite.home)

def transitiveCallees (g : CallGraph) (p : Program) (m : MethodRef) : List MethodRef :=
  Search.reach (g.callees p) (g.edges.toList.map CallEdge.callee) (g.callees p m)

def isRecursive (g : CallGraph) (p : Program) (m : MethodRef) : Bool := m ∈ g.transitiveCallees p m

/-- The groups of methods that reach each other, callees before callers. No path of calls without repetition
is longer than there are methods. -/
def components (g : CallGraph) (p : Program) : List (List MethodRef) :=
  Components.of (g.callees p) (g.reachable.size + g.edges.size + 1) g.reachable.toList

def bottomUp (g : CallGraph) (p : Program) : List MethodRef := (g.components p).flatten

def topDown (g : CallGraph) (p : Program) : List MethodRef := (g.bottomUp p).reverse

def recursiveGroups (g : CallGraph) (p : Program) : List (List MethodRef) :=
  (g.components p).filter fun group =>
    match group with
    | [m] => m ∈ g.callees p m
    | _ => true

def missing (g : CallGraph) (ms : List MethodRef) : List MethodRef := ms.filter fun m => !g.reachable.contains m

def described (g : CallGraph) : String :=
  "CallGraph(methods=" ++ toString g.reachable.size ++ ", edges=" ++ toString g.edges.size ++ ")"

end CallGraph

end Dataflow
