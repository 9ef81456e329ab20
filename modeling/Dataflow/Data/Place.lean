/-!
Places in a list by number. From zero on the number counts from the front, below zero from the end.
-/

namespace Dataflow

def place? (length : Nat) (i : Int) : Option Nat :=
  if 0 ≤ i then (if i < length then some i.toNat else none)
  else if -i ≤ length then some (length - (-i).toNat)
  else none

end Dataflow
