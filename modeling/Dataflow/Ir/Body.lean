import Dataflow.Data.OrderedSet
import Dataflow.Ir.Stmt

/-!
The finished body of a method.
-/

namespace Dataflow

structure Body where
  method : MethodRef
  this : Option Var
  params : List Var
  stmts : List Stmt
  vars : List Var

namespace Body

def stmt? (b : Body) : Node → Option Stmt
  | .stmt pos method => if method = b.method then b.stmts[pos]? else none
  | _ => none

theorem mem_of_stmt? {b : Body} {n : Node} {s : Stmt} (found : b.stmt? n = some s) : s ∈ b.stmts := by
  cases n with
  | stmt pos method =>
      rw [stmt?] at found
      split at found
      · exact List.mem_of_getElem? found
      · cases found
  | _ => cases found

def returnVars (b : Body) : List Var :=
  OrderedSet.distinct (b.stmts.filterMap fun s =>
    match s with
    | .ret value => value
    | _ => none)

def var? (b : Body) (name : String) : Option Var := b.vars.find? (·.name = name)

def described (b : Body) : String :=
  "IR(" ++ b.method.text ++ ", stmts=" ++ toString b.stmts.length ++ ")"

end Body

end Dataflow
