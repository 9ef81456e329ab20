import Dataflow.Fact.Set
import Dataflow.Solver.Analysis

/-!
Live variables: those that may be read before they are written again.
-/

namespace Dataflow

namespace Liveness

def transfer (s : Option Stmt) (f : SetFact Var) : SetFact Var :=
  match s with
  | none => f
  | some s =>
      let kept := match s.defVar? with
        | some v => f.erase v
        | none => f
      kept.insertAll s.uses

def analysis : Analysis (SetFact Var) where
  id := "livevar"
  name := "LiveVariableAnalysis"
  direction := .backward
  initial := OrderedSet.empty
  boundary _ := OrderedSet.empty
  meetInto f target := target.insertAll f.toList
  transfer := transfer
  same := OrderedSet.same
  replace := SetFact.replace
  lattice := SetFact.lattice

end Liveness

end Dataflow
