import Dataflow.Workspace.State

/-!
Solving problems on the graphs of a workspace.
-/

namespace Dataflow

namespace Session
open Steps

def settled {α : Type} (id : String) (limit : Option Int) (stuck : Node → Session Error) :
    Outcome Node α → Session α
  | .settled a _ => pure a
  | .stuck n => do throw (← stuck n)
  | .exhausted | .endless => throw (match limit with
      | some k => .noConvergence id k
      | none => .endless id)

def stuckIn (g : Cfg) (n : Node) : Session Error := do
  let shown := (← get).shown n
  return if g.contains n then .noSource shown else .notInGraph shown g.method

def solve (q : Problem) (g : Cfg) (strategy : Strategy) (limit : Option Int) : Session Solved := do
  let b ← bodyOf g.method
  let s ← settled q.id limit (stuckIn g) (q.solve g b strategy limit)
  note .debug "dataflow_engine" (q.id ++ " on " ++ g.method.text ++ ": " ++ strategy.text ++
    " fixpoint after " ++ toString s.transfers ++ " transfers")
  return s

def unstable (s : Solved) (g : Cfg) : Session (List Node) := do
  match s.unstable g (← bodyOf g.method) with
  | .ok nodes => return nodes
  | .error n => throw (← stuckIn g n)

def limitOf (c : Config) : Option Int := c.limit.map Int.ofNat

def solveAs (q : Problem) (c : Config) (m : MethodRef) : Session Solved := do
  solve q (← graphOf m) c.strategy (limitOf c)

def keep (s : Solved) : Session Nat := do
  let w ← get
  set { w with solutions := w.solutions ++ [s] }
  return w.solutions.length

def solution? (id : Nat) : Session (Option Solved) := return (← get).solutions[id]?

/-- Changes a fact of a solution in place, wherever the solution is kept; tells what the change tells. What the
change is comes to be asked once there is a fact. -/
def changeSolution (id : Nat) (n : Node) (change : Session (Solved → Solved × Bool)) : Session Bool := do
  match ← solution? id with
  | none => throw (.noFact ((← get).shown n))
  | some s =>
      if n ∉ s.nodes then throw (.noFact ((← get).shown n))
      let (s, changed) := (← change) s
      modify fun w => { w with solutions := w.solutions.set id s }
      return changed

/-- The solution kept with the body of a method, found and kept when it is first asked for; none if a datum is
kept in its place. Null counts as nothing. -/
def solutionOf (q : Problem) (m : MethodRef) : Session (Option Solved) := do
  let fresh : Session (Option Solved) := do
    let s ← solveAs q (Config.plain q.id) m
    store m q.id (.solved (← keep s))
    return some s
  match (← storeOf m).get? q.id with
  | some (.solved id) =>
      match ← solution? id with
      | some s => if s.problem = q then return some s else fresh
      | none => fresh
  | some (.datum .null) => fresh
  | some (.datum _) => return none
  | _ => fresh

/-- Why the search for dead code cannot go on at a node: an assignment asks what is live after it, which may be
known of no node at all; a condition or a switch asks what is constant before it, and others ask the graph,
of which the node is none. -/
def lostAt (n : Node) (m : MethodRef) (liveness : Bool) : Session Error := do
  let w ← get
  let shown := w.shown n
  match w.stmt? n with
  | some (.assign (.var _) _) =>
      return if liveness then .noLiveness shown else .wrongResult Problem.liveness.id
  | some (.branch op left right _) =>
      return if (Exp.bin op left right).looksUp then .noFact shown else .notInGraph shown m
  | some (.switch _ _ _) => return .noFact shown
  | _ => return .notInGraph shown m

def deadCode (m : MethodRef) : Session (List Node) := do
  let g ← graphOf m
  let body ← bodyOf m
  let constants ← solutionOf .constants m
  let live := (← solutionOf .liveness m).bind Solved.liveness?
  match constants.bind Solved.constants? with
  | none => throw (.wrongResult Problem.constants.id)
  | some c =>
      let d : DeadCode := ⟨body, g, c.input, (live.map Solution.output).getD OrderedMap.empty⟩
      match d.dead fun n => g.contains n && (live.isSome || !d.assigns n) with
      | .error n => throw (← lostAt n m live.isSome)
      | .ok dead =>
          note .debug "dataflow_analyses" (m.text ++ ": " ++ toString dead.length ++ " dead statement(s)")
          return dead

def boundaryFact {φ : Type} (a : Analysis φ) (m : MethodRef) : Session φ := do
  let g ← keptGraph m
  if a.direction = .forward then discard (proper g)
  return a.boundary (← bodyOf m)

def monotone {φ : Type} (a : Analysis φ) (n : Node) (samples : List φ) : Session Bool := do
  let w ← get
  let holds := a.monotoneOn (w.stmt? n) samples
  if !holds then note .debug "dataflow_engine" ("transfer of " ++ w.shown n ++ " is not monotone")
  return holds

end Session

end Dataflow
