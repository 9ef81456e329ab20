import Dataflow.Cfg.Basic
import Dataflow.Config.Basic
import Dataflow.Data.OrderedMap
import Dataflow.Fact.Lattice
import Dataflow.Solver.Engine

/-!
Dataflow problems on the graph of one body. A problem has a direction; along it, each node meets the facts
behind its neighbours into the fact before it, and its statement turns that into the fact behind it. The
start of the graph, entry or exit, keeps the boundary fact behind it.
-/

namespace Dataflow

inductive Direction where
  | forward | backward
deriving DecidableEq

/-- A dataflow analysis. `meetInto f target` is the meet of the two with the order of `target` first,
`replace old new` is `new` unless both are the same, and tells whether they differ. -/
structure Analysis (φ : Type) where
  id : String
  name : String
  direction : Direction
  initial : φ
  boundary : Body → φ
  meetInto : φ → φ → φ
  transfer : Option Stmt → φ → φ
  same : φ → φ → Bool
  replace : φ → φ → φ × Bool
  lattice : Lattice φ

namespace Analysis
variable {φ : Type}

def described (a : Analysis φ) : String := a.name ++ "(" ++ Text.quoted a.id ++ ")"

def start (a : Analysis φ) (g : Cfg) : Node :=
  match a.direction with
  | .forward => g.entry
  | .backward => g.exit

def sources (a : Analysis φ) (g : Cfg) (n : Node) : List Node :=
  match a.direction with
  | .forward => g.preds n
  | .backward => g.succs n

def dependents (a : Analysis φ) (g : Cfg) (n : Node) : List Node :=
  match a.direction with
  | .forward => g.succs n
  | .backward => g.preds n

def ready (a : Analysis φ) (g : Cfg) (n : Node) : Bool := g.contains n && (a.sources g n).all g.contains

def unknowns (a : Analysis φ) (g : Cfg) : List Node :=
  (match a.direction with
    | .forward => g.nodes
    | .backward => g.nodes.reverse).filter (· ≠ a.start g)

end Analysis

structure Facts (ν φ : Type) where
  before : OrderedMap ν φ
  behind : OrderedMap ν φ

structure Solution (ν φ : Type) where
  direction : Direction
  facts : Facts ν φ
  transfers : Nat
  strategy : Strategy

namespace Solution
variable {ν φ : Type}

def input (s : Solution ν φ) : OrderedMap ν φ :=
  match s.direction with
  | .forward => s.facts.before
  | .backward => s.facts.behind

def output (s : Solution ν φ) : OrderedMap ν φ :=
  match s.direction with
  | .forward => s.facts.behind
  | .backward => s.facts.before

def mapInput (f : OrderedMap ν φ → OrderedMap ν φ) (s : Solution ν φ) : Solution ν φ :=
  match s.direction with
  | .forward => { s with facts := { s.facts with before := f s.facts.before } }
  | .backward => { s with facts := { s.facts with behind := f s.facts.behind } }

def mapOutput (f : OrderedMap ν φ → OrderedMap ν φ) (s : Solution ν φ) : Solution ν φ :=
  match s.direction with
  | .forward => { s with facts := { s.facts with behind := f s.facts.behind } }
  | .backward => { s with facts := { s.facts with before := f s.facts.before } }

def described (s : Solution ν φ) : String :=
  "DataflowResult(nodes=" ++ toString s.output.size ++ ", iterations=" ++ toString s.transfers ++
    ", strategy=" ++ Text.quoted s.strategy.text ++ ")"

end Solution

namespace Analysis
variable {φ : Type}

def initialFacts (a : Analysis φ) (g : Cfg) (b : Body) : Facts Node φ :=
  let blank := OrderedMap.ofList (g.nodes.map fun n => (n, a.initial))
  ⟨blank, blank.insert (a.start g) (a.boundary b)⟩

def merged (a : Analysis φ) (g : Cfg) (f : Facts Node φ) (n : Node) : φ :=
  (a.sources g n).foldl (fun acc m => a.meetInto (f.behind.getD m a.initial) acc) a.initial

def update (a : Analysis φ) (g : Cfg) (b : Body) (n : Node) (f : Facts Node φ) : Facts Node φ × Bool :=
  let before := a.merged g f n
  let (behind, changed) := a.replace (f.behind.getD n a.initial) (a.transfer (b.stmt? n) before)
  (⟨f.before.insert n before, f.behind.insert n behind⟩, changed)

def system (a : Analysis φ) (g : Cfg) (b : Body) : System Node (Facts Node φ) where
  ready := a.ready g
  dependents n := (a.dependents g n).filter (· ≠ a.start g)
  update := a.update g b

def agenda (a : Analysis φ) (g : Cfg) : Strategy → Agenda Node
  | .worklist => .worklist (a.unknowns g)
  | .iterative => .sweep (a.unknowns g) [] true

def solve (a : Analysis φ) (g : Cfg) (b : Body) (strategy : Strategy) (limit : Option Int) :
    Outcome Node (Solution Node φ) :=
  match (a.system g b).solve (a.agenda g strategy) (a.initialFacts g b) limit with
  | .settled facts transfers => .settled ⟨a.direction, facts, transfers, strategy⟩ transfers
  | .stuck n => .stuck n
  | .exhausted => .exhausted
  | .endless => .endless

def unstable (a : Analysis φ) (g : Cfg) (b : Body) (f : Facts Node φ) : Except Node (List Node) :=
  let inner := g.nodes.filter (· ≠ a.start g)
  match inner.find? fun n => !a.ready g n with
  | some n => .error n
  | none => .ok (inner.filter fun n =>
      !a.same (f.before.getD n a.initial) (a.merged g f n) || (a.update g b n f).2)

def monotoneOn (a : Analysis φ) (s : Option Stmt) (samples : List φ) : Bool :=
  samples.all fun x => samples.all fun y =>
    !a.lattice.le x y || a.lattice.le (a.transfer s x) (a.transfer s y)

end Analysis

end Dataflow
