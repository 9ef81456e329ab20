import Dataflow.Analysis.DeadCode
import Dataflow.Analysis.Interprocedural
import Dataflow.Analysis.Problem
import Dataflow.CallGraph.Resolve
import Dataflow.Cfg.Build
import Dataflow.Data.Place
import Dataflow.Log
import Dataflow.Registry

/-!
Workspaces: everything that a session has made, under the names it was given. Control flow graphs, call
graphs and solutions are kept by number, since several names may stand for one of them and each sees what
is changed through another.
-/

namespace Dataflow

inductive Stored where
  | graph (id : Nat)
  | solved (id : Nat)
  | dead (nodes : List Node)
  | datum (d : Datum)

inductive ProgramResult where
  | callGraph (id : Nat)
  | solution (s : Solution Node (Constants Var))
  | datum (d : Datum)

structure Manager where
  context : Option Context
  methods : Option (List MethodRef)
  results : OrderedMap String ProgramResult

structure Finding where
  method : String
  graph : Nat
  solved : Nat

structure Joined where
  icfg : Icfg
  callGraph : Nat

/-- Everything that a session has made. The body that is written under a name stays that of the method for
which it was begun, also when the name comes to stand for a method without body. -/
structure Workspace where
  program : Program
  classes : OrderedMap String ClassId
  methods : OrderedMap String MethodRef
  drafts : OrderedMap String MethodRef
  graphs : List Cfg
  solutions : List Solved
  stores : OrderedMap MethodRef (OrderedMap String Stored)
  findings : OrderedMap String Finding
  hierarchies : OrderedMap String Hierarchy
  callGraphs : List CallGraph
  callGraphNames : OrderedMap String Nat
  icfgs : OrderedMap String Joined
  managers : OrderedMap String Manager
  registry : Registry
  strays : Nat
  log : List Event

namespace Workspace

def empty : Workspace where
  program := .empty
  classes := OrderedMap.empty
  methods := OrderedMap.empty
  drafts := OrderedMap.empty
  graphs := []
  solutions := []
  stores := OrderedMap.empty
  findings := OrderedMap.empty
  hierarchies := OrderedMap.empty
  callGraphs := []
  callGraphNames := OrderedMap.empty
  icfgs := OrderedMap.empty
  managers := OrderedMap.empty
  registry := Registry.builtin
  strays := 0
  log := []

def stmt? (w : Workspace) : Node → Option Stmt
  | .entry _ => some (.nop "entry")
  | .stmt pos method => ((w.program.method? method).bind (·.draft)).bind (·.stmts[pos]?)
  | .exit _ => some (.nop "exit")
  | .stray _ => some (.nop "stray")

def index (w : Workspace) : Node → Int
  | .entry _ => -1
  | .stmt pos method => if w.program.hasBody method then pos else -1
  | .exit graph => ((w.graphs[graph]?).map Cfg.size).getD 0
  | .stray _ => -1

def methodOf? (w : Workspace) : Node → Option MethodRef
  | .entry graph => (w.graphs[graph]?).map Cfg.method
  | .stmt _ method => if w.program.hasBody method then some method else none
  | .exit graph => (w.graphs[graph]?).map Cfg.method
  | .stray _ => none

def stmtText (w : Workspace) (s : Stmt) : String := s.text w.index

def nodeText (w : Workspace) (n : Node) : String := ((w.stmt? n).map w.stmtText).getD ""

def shown (w : Workspace) (n : Node) : String := toString (w.index n) ++ "@" ++ w.nodeText n

def methodText (w : Workspace) (n : Node) : String := ((w.methodOf? n).map MethodRef.text).getD "None"

def icfgEdgeText (w : Workspace) (e : IcfgEdge) : String :=
  let place := fun n => w.methodText n ++ "[" ++ toString (w.index n) ++ "]"
  "ICFGEdge(" ++ place e.source ++ " -> " ++ place e.target ++ ", " ++ e.passage.text ++ ")"

def nodesIn (w : Workspace) (i : Icfg) (m : MethodRef) : List Node :=
  (((i.graphs.get? m).bind fun id => w.graphs[id]?).map Cfg.nodes).getD []

def logLines (w : Workspace) (verbosity : Int) : List String :=
  (w.log.filter (Event.shows verbosity)).map Event.line

end Workspace

abbrev Session := Steps Error Workspace

namespace Session

open Steps

def note (level : Level) (source text : String) : Session Unit :=
  modify fun w => { w with log := w.log ++ [⟨level, source, text⟩] }

def named {α : Type} (table : Workspace → OrderedMap String α) (name : String) : Session α := do
  match (table (← get)).get? name with
  | some a => return a
  | none => throw (.unbound name)

def classNamed : String → Session ClassId := named Workspace.classes

def methodNamed : String → Session MethodRef := named Workspace.methods

def draftNamed : String → Session MethodRef := named Workspace.drafts

def bodyOf (m : MethodRef) : Session Body := do lift ((← get).program.body m)

def varNamed (m : MethodRef) (name : String) : Session Var := do
  match (← bodyOf m).var? name with
  | some v => return v
  | none => throw (.unbound name)

def callGraph (id : Nat) : Session CallGraph := return ((← get).callGraphs[id]?).getD CallGraph.empty

def inGraph {α : Type} (g : Cfg) : Except Node α → Session α
  | .ok a => pure a
  | .error n => do throw (.notInGraph ((← get).shown n) g.method)

/-! ## Results kept with bodies -/

def storeOf (m : MethodRef) : Session (OrderedMap String Stored) :=
  return (← get).stores.getD m OrderedMap.empty

def store (m : MethodRef) (id : String) (r : Stored) : Session Unit :=
  modify fun w => { w with stores := w.stores.insert m ((w.stores.getD m OrderedMap.empty).insert id r) }

def forget (m : MethodRef) (id : String) : Session Unit :=
  modify fun w => { w with stores := w.stores.insert m ((w.stores.getD m OrderedMap.empty).erase id) }

def storedAmong (ids : List String) (m : MethodRef) : Session (List String) :=
  return ids.filter (← storeOf m).contains

/-! ## Graphs and nodes -/

def buildGraph (m : MethodRef) : Session Cfg := do
  let b ← bodyOf m
  let w ← get
  match Cfg.build w.graphs.length b with
  | .error (.nowhere pos) => throw (.jumpsNowhere m pos)
  | .error (.foreign n) => throw (.notInGraph (w.shown n) m)
  | .ok g =>
      set { w with graphs := w.graphs ++ [g] }
      note .debug "ctrlflow_graph" g.described
      return g

/-- What is kept as the graph of a body: the graph, built when it is first asked for, or a datum that an
analysis of that id gave in its place. Null counts as nothing. -/
def keptGraph (m : MethodRef) : Session (Except Datum Cfg) := do
  let fresh : Session (Except Datum Cfg) := do
    let g ← buildGraph m
    store m "cfg" (.graph g.id)
    return .ok g
  match (← storeOf m).get? "cfg" with
  | some (.graph id) =>
      match (← get).graphs[id]? with
      | some g => return .ok g
      | none => fresh
  | some (.datum .null) => fresh
  | some (.datum d) => return .error d
  | _ => fresh

def proper : Except Datum Cfg → Session Cfg
  | .ok g => return g
  | .error _ => throw (.wrongResult "cfg")

def graphOf (m : MethodRef) : Session Cfg := do proper (← keptGraph m)

def graphToShow (m : MethodRef) : Session Cfg := do
  match ← keptGraph m with
  | .ok g => return g
  | .error d => throw (if d.hasMembers then .wrongResult "cfg" else .uncountable d.shown)

def setGraph (g : Cfg) : Session Unit := modify fun w => { w with graphs := w.graphs.set g.id g }

def draftOf (m : MethodRef) : Session Draft := do
  match ((← get).program.method? m).bind (·.draft) with
  | some d => return d
  | none => throw (.noBody m)

def positionIn (m : MethodRef) (i : Int) : Session Nat := do
  match place? (← draftOf m).stmts.length i with
  | some pos => return pos
  | none => throw (.outOfRange i)

/-- The node of a number under the name of a method: the statement of that number in the body that is written
under the name. -1 is the entry of the method's graph, the number of statements the exit. -/
def nodeAt (name : String) (i : Int) : Session Node := do
  let m ← methodNamed name
  match (← get).drafts.get? name with
  | none => throw (.noBody m)
  | some d =>
      let stmts := (← draftOf d).stmts
      if i = -1 then return (← graphOf m).entry
      else if i = stmts.length then return (← graphOf m).exit
      else return .stmt (← positionIn d i) d

def stray : Session Node := do
  let w ← get
  set { w with strays := w.strays + 1 }
  return .stray w.strays

def siteAt? (n : Node) : Session (Option CallSite) := do
  let w ← get
  match n, w.stmt? n with
  | .stmt pos _, some (.invoke call result) => return some ⟨w.methodOf? n, pos, call, result⟩
  | _, _ => return none

def siteAt (n : Node) : Session CallSite := do
  match ← siteAt? n with
  | some s => return s
  | none => throw (.wrongStmt ((← get).nodeText n))

end Session

end Dataflow
