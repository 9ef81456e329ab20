import Dataflow.Ir.Exp
import Dataflow.Ir.Scope

/-!
Expressions in which variables are still names. Building one looks its names up in a scope, where a name
that is new becomes an `int` variable. The target of a call may turn out not to be there.
-/

namespace Dataflow

inductive Term where
  | int (n : Int)
  | ident (x : String)
  | bin (op : BinOp) (left right : Term)
  | new (cls : String)
  | cast (type : Ty) (x : String)
  | field (name : String) (type : Ty) (base owner : Option String)
  | elem (base : String) (index : Term)
  | call (kind : CallKind) (target : Except Error MethodRef) (args : List String) (base : Option String)
deriving Inhabited

namespace Term

def isCompound : Term → Bool
  | .int _ | .ident _ => false
  | _ => true

/-- The expression of a term. Names are looked up from left to right, the target of a call first and then
its arguments before its receiver. -/
def build : Term → Scoping Exp
  | .int n => return .lit n
  | .ident x => return .var (← Scoping.intVar x)
  | .bin op left right => return .bin op (← left.build) (← right.build)
  | .new cls => return .new cls
  | .cast type x => return .cast type (← Scoping.intVar x)
  | .field name type base owner => return .field name type (← Scoping.intVar? base) owner
  | .elem base index => return .elem (← Scoping.intVar base) (← index.build)
  | .call kind target args base => do
      let target ← Steps.lift target
      let args ← Scoping.intVars args
      return .call ⟨kind, target, args, ← Scoping.intVar? base⟩

end Term

end Dataflow
