/-!
The operations that make a type of facts usable in a dataflow analysis. Facts only grow while a problem is
solved: `bottom` carries no information and is the identity of `meet`, and `meet` combines what comes
together at a join.
-/

namespace Dataflow

structure Lattice (α : Type) where
  bottom : α
  top? : Option α
  meet : α → α → α
  le : α → α → Bool
  same : α → α → Bool

namespace Lattice
variable {α : Type} (l : Lattice α)

def leByMeet (a b : α) : Bool := l.same (l.meet a b) b

def isBottom (a : α) : Bool := l.same a l.bottom

def meetAll (values : List α) : α := values.foldl l.meet l.bottom

end Lattice

end Dataflow
