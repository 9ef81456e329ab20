import Dataflow.CallGraph.Report
import Dataflow.Icfg.Build
import Dataflow.Icfg.Dot
import Dataflow.Workspace.Solving

/-!
Hierarchies, call graphs and interprocedural graphs of a workspace.
-/

namespace Dataflow

namespace Session
open Steps

def addHierarchy (handle : String) (classes : List ClassId) : Session Hierarchy := do
  match Hierarchy.ofClasses (← get).program classes with
  | none => throw (.endless handle)
  | some h =>
      note .debug "hierarchy" ("class hierarchy: " ++ toString h.names.size ++ " classes")
      modify fun w => { w with hierarchies := w.hierarchies.insert handle h }
      return h

def keepCallGraph (g : CallGraph) : Session Nat := do
  let w ← get
  set { w with callGraphs := w.callGraphs ++ [g] }
  return w.callGraphs.length

def setCallGraph (id : Nat) (g : CallGraph) : Session Unit :=
  modify fun w => { w with callGraphs := w.callGraphs.set id g }

def bindCallGraph (handle : String) (id : Nat) : Session Unit :=
  modify fun w => { w with callGraphNames := w.callGraphNames.insert handle id }

def built (made : Except Error CallGraph) : Session Nat := do
  let g ← lift made
  note .debug "callgraph" ("CHA: " ++ toString g.reachable.size ++ " reachable method(s), " ++
    toString g.edges.size ++ " edge(s)")
  keepCallGraph g

def callGraphFrom (h : Option Hierarchy) (entries : List MethodRef) : Session Nat := do
  built (CallGraph.ofEntries (← get).program h entries)

def callGraphIn (c : Context) : Session Nat := do built (c.callGraph (← get).program)

def addCallEntry (id : Nat) (m : MethodRef) : Session Unit := do
  setCallGraph id ((← callGraph id).addEntry m)

def addCallMethod (id : Nat) (m : MethodRef) : Session Bool := do
  let (g, added) := (← callGraph id).addReachable m
  setCallGraph id g
  return added

def addCallEdge (id : Nat) (e : CallEdge) : Session Bool := do
  let (g, added) ← lift ((← callGraph id).addEdge (← get).program e)
  setCallGraph id g
  return added

def callFor (id : Nat) (n : Node) : Session CallSite := do
  match ← siteAt? n with
  | some s => return s
  | none =>
      let w ← get
      let inside := match n with
        | .stmt pos m => ((w.program.body? m).bind (·.stmts[pos]?)).isSome
        | _ => false
      let text := w.nodeText n
      throw (((← callGraph id).misplaced (w.methodOf? n) inside text).getD (.wrongStmt text))

/-- What is kept as the graph of a method, to be joined with others; a datum is refused here only if its
members cannot be listed as nodes are. -/
def graphToJoin (m : MethodRef) : Session (MethodRef × Option Cfg) := do
  match ← keptGraph m with
  | .ok g => return (m, some g)
  | .error d => if d.hasPlainMembers then return (m, none) else throw (.uncountable d.shown)

def join (id : Nat) : Session Joined := do
  let g ← callGraph id
  let methods := g.reachable.toList.filter (← get).program.hasBody
  let kept ← methods.mapM graphToJoin
  let graphs := kept.filterMap fun k => k.2.map (k.1, ·)
  if kept.any (·.2.isNone) then
    throw (Icfg.refusal ((kept.takeWhile (·.2.isSome)).filterMap Prod.snd) (graphs.map Prod.snd))
  let i ← lift (Icfg.build (← get).program g (OrderedMap.ofList graphs))
  note .debug "interproc_analysis" i.described
  return ⟨i, id⟩

def inIcfg {α : Type} (i : Icfg) (n : Node) (f : Node → α) : Session α := do
  if i.contains n then return f n else throw (.notInIcfg ((← get).shown n))

def graphIn (i : Icfg) (m : MethodRef) : Session Cfg := do
  match (← get).graphs[← lift (i.graphOf m)]? with
  | some g => return g
  | none => throw (.methodNotInIcfg m)

def calleesAt (j : Joined) (n : Node) : Session (List MethodRef) := do
  match ← siteAt? n with
  | none => return []
  | some s => return ((← callGraph j.callGraph).calleesOf s).filter j.icfg.graphs.contains

def returnSites (i : Icfg) (n : Node) : Session (List Node) := do
  match ← inIcfg i n (← get).methodOf? with
  | none => throw (.notInIcfg ((← get).shown n))
  | some m => return (← graphIn i m).succs n

def solveJoined (j : Joined) (id : String) (direction : Direction) (limit : Option Int) :
    Session (Solution Node (Constants Var)) := do
  if direction = .backward then throw (.backward id)
  let outcome := Interprocedural.solve (← get).program j.icfg (← callGraph j.callGraph) limit
  let s ← settled id limit (fun n => return .notInIcfg ((← get).shown n)) outcome
  note .debug "interproc_analysis" (id ++ ": interprocedural fixpoint after " ++ toString s.transfers ++
    " transfers over " ++ toString j.icfg.nodes.length ++ " nodes")
  return s

def solveProgram (context : Context) (graph : Option Nat) (id : String) (direction : Direction)
    (limit : Option Int) : Session (Solution Node (Constants Var)) := do
  let graph ← match graph with
    | some graph => pure graph
    | none => callGraphIn context
  solveJoined (← join graph) id direction limit

end Session

end Dataflow
