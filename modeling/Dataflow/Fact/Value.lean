import Dataflow.Fact.Lattice

/-!
What is known of an integer: nothing yet, that it is one constant, or that it is no constant. Two different
constants meet in `nac`.
-/

namespace Dataflow

inductive Value where
  | undefined
  | const (n : Int)
  | nac
deriving DecidableEq

namespace Value

def text : Value → String
  | .undefined => "UNDEF"
  | .const n => toString n
  | .nac => "NAC"

def constant? : Value → Option Int
  | .const n => some n
  | _ => none

def meet : Value → Value → Value
  | .nac, _ => .nac
  | _, .nac => .nac
  | .undefined, b => b
  | a, .undefined => a
  | .const m, .const n => if m = n then .const m else .nac

def le (a b : Value) : Bool := a = .undefined || b = .nac || a = b

def lattice : Lattice Value where
  bottom := .undefined
  top? := some .nac
  meet := meet
  le := le
  same a b := a = b

end Value

end Dataflow
