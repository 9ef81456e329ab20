import Dataflow.Fact.Constants
import Dataflow.Ir.Exp

/-!
The value of an expression when the values of its variables are known. A quotient or remainder whose
divisor is the constant zero has no value. What is neither a variable, a literal nor a binary expression is
no constant.
-/

namespace Dataflow

namespace Value

def binary (op : BinOp) (a b : Value) : Value :=
  if op.divides && b = .const 0 then .undefined
  else match a, b with
    | .const m, .const n => .const (op.apply m n)
    | .nac, _ => .nac
    | _, .nac => .nac
    | _, _ => .undefined

end Value

def Exp.evaluate (f : Constants Var) : Exp → Value
  | .var v => f.value v
  | .lit n => .const (Word32.wrap n)
  | .bin op left right => .binary op (left.evaluate f) (right.evaluate f)
  | .new _ | .cast _ _ | .field _ _ _ _ | .elem _ _ | .call _ => .nac

def Exp.looksUp : Exp → Bool
  | .var _ => true
  | .bin _ left right => left.looksUp || right.looksUp
  | _ => false

end Dataflow
