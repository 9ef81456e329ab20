import Dataflow.Data.OrderedSet
import Dataflow.Fact.Lattice
import Dataflow.Text.Quoted

/-!
Sets as facts. Each operation that changes a set tells whether it did.
-/

namespace Dataflow

abbrev SetFact (α : Type) := OrderedSet α

namespace SetFact
variable {α : Type} [DecidableEq α]

def add (s : SetFact α) (a : α) : SetFact α × Bool := (s.insert a, !s.contains a)

def remove (s : SetFact α) (a : α) : SetFact α × Bool := (s.erase a, s.contains a)

def each (op : SetFact α → α → SetFact α × Bool) (s : SetFact α) (items : List α) :
    SetFact α × Bool :=
  items.foldl (fun r a => let u := op r.1 a; (u.1, r.2 || u.2)) (s, false)

def removeAll (s : SetFact α) (items : List α) : SetFact α × Bool := each remove s items

def union (s t : SetFact α) : SetFact α × Bool := each add s t.toList

def unionWith (s t : SetFact α) : SetFact α := (union s t).1

def intersect (s t : SetFact α) : SetFact α × Bool := (s.inter t, !s.subset t)

def replace (s t : SetFact α) : SetFact α × Bool := if s.same t then (s, false) else (t, true)

def lattice : Lattice (SetFact α) where
  bottom := OrderedSet.empty
  top? := none
  meet := unionWith
  le := OrderedSet.subset
  same := OrderedSet.same

def text (shown : α → String) (s : SetFact α) : String := Text.braced (s.toList.map shown)

end SetFact

end Dataflow
