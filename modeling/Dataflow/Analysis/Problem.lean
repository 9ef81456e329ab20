import Dataflow.Analysis.Constants
import Dataflow.Analysis.Liveness

/-!
The two problems on the graph of one body, and their solutions.
-/

namespace Dataflow

inductive Solved where
  | constants (s : Solution Node (Constants Var))
  | liveness (s : Solution Node (SetFact Var))

inductive Problem where
  | constants | liveness
deriving DecidableEq

inductive Side where
  | input | output
deriving DecidableEq

def Solution.change {φ : Type} (side : Side) (n : Node) (f : φ → φ × Bool) (s : Solution Node φ) :
    Solution Node φ × Bool :=
  let facts := match side with
    | .input => s.input
    | .output => s.output
  match facts.get? n with
  | none => (s, false)
  | some fact =>
      let (fact, changed) := f fact
      match side with
      | .input => (s.mapInput (·.insert n fact), changed)
      | .output => (s.mapOutput (·.insert n fact), changed)

namespace Solved

def problem : Solved → Problem
  | .constants _ => .constants
  | .liveness _ => .liveness

def constants? : Solved → Option (Solution Node (Constants Var))
  | .constants s => some s
  | .liveness _ => none

def liveness? : Solved → Option (Solution Node (SetFact Var))
  | .constants _ => none
  | .liveness s => some s

def described : Solved → String
  | .constants s => s.described
  | .liveness s => s.described

def transfers : Solved → Nat
  | .constants s => s.transfers
  | .liveness s => s.transfers

def strategy : Solved → Strategy
  | .constants s => s.strategy
  | .liveness s => s.strategy

def nodes : Solved → List Node
  | .constants s => s.input.keys
  | .liveness s => s.input.keys

def assign (side : Side) (n : Node) (v : Var) (value : Value) : Solved → Solved × Bool
  | .constants s => let r := s.change side n (Constants.update · v value); (.constants r.1, r.2)
  | s => (s, false)

def mark (side : Side) (n : Node) (v : Var) (live : Bool) : Solved → Solved × Bool
  | .liveness s =>
      let r := s.change side n fun f => if live then SetFact.add f v else SetFact.remove f v
      (.liveness r.1, r.2)
  | s => (s, false)

/-- The nodes at which the equations of the problem do not hold, unless one of them gets facts from outside the
graph. -/
def unstable (g : Cfg) (b : Body) : Solved → Except Node (List Node)
  | .constants s => Propagation.analysis.unstable g b s.facts
  | .liveness s => Liveness.analysis.unstable g b s.facts

end Solved

namespace Problem

def id : Problem → String
  | .constants => Propagation.analysis.id
  | .liveness => Liveness.analysis.id

def ofId? (id : String) : Option Problem := [Problem.constants, .liveness].find? (·.id == id)

def solve (q : Problem) (g : Cfg) (b : Body) (strategy : Strategy) (limit : Option Int) :
    Outcome Node Solved :=
  match q with
  | .constants => (Propagation.analysis.solve g b strategy limit).map .constants
  | .liveness => (Liveness.analysis.solve g b strategy limit).map .liveness

end Problem

end Dataflow
