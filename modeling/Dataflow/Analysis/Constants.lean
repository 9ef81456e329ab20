import Dataflow.Analysis.Evaluation
import Dataflow.Ir.Body
import Dataflow.Solver.Analysis

/-!
Constant propagation: the variables that hold an integer and have one value whenever control comes by.
-/

namespace Dataflow

namespace Propagation

def boundary (b : Body) : Constants Var :=
  (b.params.filter Var.holdsInt).foldl (fun f v => f.set v .nac) OrderedMap.empty

def transfer (s : Option Stmt) (f : Constants Var) : Constants Var :=
  match s with
  | none => f
  | some s =>
      match s.defVar?, s.rvalue? with
      | some v, some e => if v.holdsInt then f.set v (e.evaluate f) else f
      | _, _ => f

def analysis : Analysis (Constants Var) where
  id := "constprop"
  name := "ConstantPropagation"
  direction := .forward
  initial := OrderedMap.empty
  boundary := boundary
  meetInto := Constants.meetInto
  transfer := transfer
  same := OrderedMap.same
  replace := Constants.replace
  lattice := Constants.lattice

end Propagation

end Dataflow
