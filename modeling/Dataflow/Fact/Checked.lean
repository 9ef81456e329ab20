import Dataflow.Error

/-!
Reading what may not be there, with an error where it is not, and lattices in which not all elements go
together.
-/

namespace Dataflow

def Value.constant (v : Value) : Except Error Int :=
  match v.constant? with
  | some n => .ok n
  | none => .error (.notConstant v)

def Lattice.top {α : Type} (l : Lattice α) : Except Error α :=
  match l.top? with
  | some a => .ok a
  | none => .error .noTop

structure PartialLattice (α : Type) where
  bottom : α
  top : Except Error α
  meet : α → α → Except Error α
  le : α → α → Except Error Bool
  same : α → α → Bool

namespace PartialLattice
variable {α : Type}

def ofLattice (l : Lattice α) : PartialLattice α where
  bottom := l.bottom
  top := l.top
  meet a b := .ok (l.meet a b)
  le a b := .ok (l.le a b)
  same := l.same

def leByMeet (l : PartialLattice α) (a b : α) : Except Error Bool := return l.same (← l.meet a b) b

def isBottom (l : PartialLattice α) (a : α) : Bool := l.same a l.bottom

def meetAll (l : PartialLattice α) (values : List α) : Except Error α := values.foldlM l.meet l.bottom

end PartialLattice

end Dataflow
