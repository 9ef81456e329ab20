import Dataflow.Analysis.Constants
import Dataflow.Analysis.Liveness

/-!
Dead code: statements that no feasible path reaches, and assignments to variables that are not read later
and whose evaluation can be left out.
-/

namespace Dataflow

structure DeadCode where
  body : Body
  graph : Cfg
  constants : OrderedMap Node (Constants Var)
  live : OrderedMap Node (SetFact Var)

namespace DeadCode

def assigns (d : DeadCode) (n : Node) : Bool :=
  match d.body.stmt? n with
  | some (.assign (.var _) _) => true
  | _ => false

def skippable (d : DeadCode) (n : Node) : Bool :=
  match d.body.stmt? n with
  | some (.assign (.var v) rhs) => !(d.live.getD n OrderedSet.empty).contains v && rhs.isPure
  | _ => false

def targets (d : DeadCode) (n : Node) (kind : EdgeKind) : List Node :=
  ((d.graph.outEdges n).filter (·.kind = kind)).map Edge.target

/-- The successors that control can reach, given the constants before the node. A condition that is
constant takes one side, a switch on a constant the equal cases or else the default. -/
def feasible (d : DeadCode) (n : Node) : List Node :=
  let known := d.constants.getD n OrderedMap.empty
  match d.body.stmt? n with
  | some (.branch op left right _) =>
      match (Exp.bin op left right).evaluate known with
      | .const 1 => d.targets n .ifTrue
      | .const 0 => d.targets n .ifFalse
      | _ => d.graph.succs n
  | some (.switch v cases otherwise) =>
      match known.value v with
      | .const c =>
          let hits := cases.filter (·.1 = c)
          if hits.isEmpty then otherwise.toList else hits.filterMap Prod.snd
      | _ => d.graph.succs n
  | _ => d.graph.succs n

def next (d : DeadCode) (n : Node) : List Node := if d.skippable n then d.graph.succs n else d.feasible n

def domain (d : DeadCode) : List Node :=
  d.graph.nodes ++ d.graph.nodes.flatMap d.next

def reached (d : DeadCode) : List Node := Search.reach d.next d.domain [d.graph.entry]

/-- The dead nodes in order; the exit is never among them. The error is the first node that control reaches
and that cannot be judged. -/
def dead (d : DeadCode) (judged : Node → Bool) : Except Node (List Node) :=
  let reached := d.reached
  match reached.find? fun n => !judged n with
  | some n => .error n
  | none => .ok (d.graph.nodes.filter fun n =>
      n ≠ d.graph.exit && (n ∉ reached || d.skippable n))

end DeadCode

end Dataflow
