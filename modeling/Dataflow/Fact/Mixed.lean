import Dataflow.Fact.Checked
import Dataflow.Fact.Set
import Dataflow.Fact.Table

/-!
Facts of either sort. What only one sort can do is an error for the other, and so is an operation on two facts
that do not go together, unless there is nothing to do. A set and a table are never the same.
-/

namespace Dataflow

inductive AnyFact where
  | set (s : SetFact String)
  | table (t : Table String)

namespace AnyFact

def asSet (what : String) : AnyFact → Except Error (SetFact String)
  | .set s => .ok s
  | .table _ => .error (.noOperation what)

def asTable (what : String) : AnyFact → Except Error (Table String)
  | .set _ => .error (.noOperation what)
  | .table t => .ok t

def size : AnyFact → Nat
  | .set s => s.size
  | .table t => t.entries.size

def contains (f : AnyFact) (x : String) : Bool :=
  match f with
  | .set s => s.contains x
  | .table t => t.entries.contains x

def same : AnyFact → AnyFact → Bool
  | .set s, .set t => s.same t
  | .table t, .table u => t.same u
  | _, _ => false

def elements : AnyFact → Except Error (List String)
  | .set s => .ok s.toList
  | .table _ => .error (.uncountable "a table")

def changeSet (what : String) (f : AnyFact) (op : SetFact String → SetFact String × Bool) :
    Except Error (AnyFact × Bool) := do
  let (s, changed) := op (← f.asSet what)
  return (.set s, changed)

def union (f g : AnyFact) : Except Error (AnyFact × Bool) := do
  let s ← f.asSet "union"
  let (s, changed) := SetFact.each SetFact.add s (← g.elements)
  return (.set s, changed)

def intersect (f g : AnyFact) : Except Error (AnyFact × Bool) := do
  let s ← f.asSet "intersect"
  if s.size = 0 then return (f, false)
  let (s, changed) := s.intersect (← g.asSet "intersect")
  return (.set s, changed)

def replace (f g : AnyFact) : Except Error (AnyFact × Bool) :=
  match f with
  | .set s => do
      let (s, changed) := s.replace (← g.asSet "replace")
      return (.set s, changed)
  | .table t => do
      let (t, changed) := t.replace (← g.asTable "replace")
      return (.table t, changed)

def update (f : AnyFact) (key : String) (v : Option Value) : Except Error (AnyFact × Bool) := do
  let t ← f.asTable "update"
  if t.sort = .constants ∧ v = none then throw (.noOperation "update")
  let (t, changed) := t.update key v
  return (.table t, changed)

def cleared : AnyFact → AnyFact
  | .set _ => .set OrderedSet.empty
  | .table t => .table (.empty t.sort)

def unionWith (f g : AnyFact) : Except Error AnyFact := return (← f.union g).1

def within (f g : AnyFact) : Except Error Bool := return (← f.elements).all g.contains

def meet (f g : AnyFact) : Except Error AnyFact := do
  let u ← g.asTable "meet"
  if u.entries.size = 0 then return f
  return .table ((← f.asTable "meet").meet u)

def le (f g : AnyFact) : Except Error Bool := do
  let t ← f.asTable "le"
  if t.entries.size = 0 then return true
  return t.le (← g.asTable "le")

def sets : PartialLattice AnyFact where
  bottom := .set OrderedSet.empty
  top := .error .noTop
  meet := unionWith
  le := within
  same := same

def tables (sort : TableSort) : PartialLattice AnyFact where
  bottom := .table (.empty sort)
  top := .error .noTop
  meet := meet
  le := le
  same := same

end AnyFact

end Dataflow
