import Dataflow.Workspace.Calls

/-!
Running plans. A manager runs the analyses of a plan in order, each on the methods it is for or on the whole
program, and keeps the results.
-/

namespace Dataflow

inductive Found where
  | nothing
  | graph (g : Cfg)
  | solved (s : Solved)
  | dead (nodes : List Node)
  | callGraph (g : CallGraph)
  | solution (s : Solution Node (Constants Var))
  | datum (d : Datum)

namespace Session
open Steps

def register (id : String) (a : Registered) : Session Unit := do
  let r ← lift ((← get).registry.register id a)
  modify fun w => { w with registry := r }

def foundCallGraph? (m : Manager) : Session (Option Nat) := do
  match m.results.get? "cha" with
  | some (.callGraph id) => return some id
  | none | some (.datum .null) => return none
  | some _ => throw (.wrongResult "cha")

/-- The methods that a manager works on: those given, else those of the call graph, else the entries. -/
def managed (m : Manager) : Session (List MethodRef) := do
  match m.methods with
  | some methods => return methods
  | none =>
      match ← foundCallGraph? m with
      | some id => return (← callGraph id).reachable.toList
      | none => return (m.context.map Context.entries).getD []

def managedBodies (m : Manager) : Session (List MethodRef) := do
  return (← managed m).filter (← get).program.hasBody

def fixedResult (c : Config) (result : Datum) : Option String → Datum
  | none => result
  | some option => (c.options.get? option).getD result

def runOnMethod (c : Config) (m : MethodRef) : Task → Session Stored
  | .graph => return .graph (← graphOf m).id
  | .liveness => return .solved (← keep (← solveAs .liveness c m))
  | .constants => return .solved (← keep (← solveAs .constants c m))
  | .deadCode => return .dead (← deadCode m)
  | .fixed result option => return .datum (fixedResult c result option)
  | .callGraph | .interprocedural => throw (.unrunnable c.id)

def runOnProgram (c : Config) (m : Manager) (context : Context) : Task → Session ProgramResult
  | .callGraph => return .callGraph (← callGraphIn context)
  | .interprocedural => do
      return .solution (← solveProgram context (← foundCallGraph? m) c.id .forward (limitOf c))
  | .fixed result option => return .datum (fixedResult c result option)
  | .graph | .liveness | .constants | .deadCode => throw (.unrunnable c.id)

def runConfig (m : Manager) (c : Config) : Session Manager := do
  let a ← lift ((← get).registry.find c.id)
  match a.subject with
  | .method =>
      let methods ← managedBodies m
      note .info "manager" ("running " ++ c.id ++ " on " ++ toString methods.length ++ " method(s)")
      methods.forM fun method => do store method c.id (← runOnMethod c method a.task)
      return m
  | .program =>
      match m.context with
      | none => throw (.needsContext c.id)
      | some context =>
          note .info "manager" ("running " ++ c.id)
          let result ← runOnProgram c m context a.task
          return { m with results := m.results.insert c.id result }
  | .other => throw (.unrunnable c.id)

/-- Runs analyses in turn and gives the manager with what was found before the first failure. -/
def runConfigs (m : Manager) : List Config → Session (Except Error Unit × Manager)
  | [] => return (.ok (), m)
  | c :: rest => do
      match ← attempt (runConfig m c) with
      | .ok m => runConfigs m rest
      | .error e => return (.error e, m)

def runPlan (m : Manager) (plan : Plan) : Session (Except Error Unit × Manager) := do
  match (← get).registry.order plan with
  | .error e => return (.error e, m)
  | .ok order => runConfigs m order

/-- A datum that was given as a result. A list is taken for one of nodes, and a number, a truth value, null or an
object in it stands at no place. -/
def foundDatum (d : Datum) : Session Found :=
  if d.hasNoLooseItem then return .datum d else throw (.wrongStmt d.shown)

def resultOf (m : Manager) (id : String) (method : Option MethodRef) : Session Found := do
  match (← lift ((← get).registry.find id)).subject, method with
  | .method, none => throw (.needsBody id)
  | .method, some method =>
      match (← storeOf method).get? id with
      | some (.graph id) => return (((← get).graphs[id]?).map .graph).getD .nothing
      | some (.solved id) => return ((← solution? id).map .solved).getD .nothing
      | some (.dead nodes) => return .dead nodes
      | some (.datum d) => foundDatum d
      | none => return .nothing
  | _, _ =>
      match m.results.get? id with
      | some (.callGraph id) => return .callGraph (← callGraph id)
      | some (.solution s) => return .solution s
      | some (.datum d) => foundDatum d
      | none => return .nothing

end Session

end Dataflow
