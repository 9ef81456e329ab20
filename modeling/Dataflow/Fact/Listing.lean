import Dataflow.Error
import Dataflow.Fact.Constants
import Dataflow.Fact.Set

/-!
Facts about variables as lists in order. Entries are ordered by name, and those of one name by value:
constants by size, other values by their text. A constant and another value of one name have no order.
-/

namespace Dataflow

def Value.notAfter : Value → Value → Bool
  | .const m, .const n => m ≤ n
  | .const _, _ => true
  | _, .const _ => false
  | v, w => v.text ≤ w.text

namespace Constants

def clash (a b : Var × Value) : Bool :=
  a.1.name == b.1.name && a.2.constant?.isSome && b.2.constant?.isNone

def listing (f : Constants Var) : Except Error (List (String × Value)) :=
  let sorted := f.entries.mergeSort fun a b =>
    a.1.name < b.1.name || (a.1.name == b.1.name && a.2.notAfter b.2)
  match (sorted.zip sorted.tail).find? fun pair => clash pair.1 pair.2 with
  | some pair => .error (.unordered pair.1.1.name)
  | none => .ok (sorted.map fun e => (e.1.name, e.2))

end Constants

def SetFact.listing (f : SetFact Var) : List String := (f.toList.map Var.name).mergeSort (· ≤ ·)

end Dataflow
