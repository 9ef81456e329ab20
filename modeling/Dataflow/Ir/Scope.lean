import Dataflow.Data.Steps
import Dataflow.Error

/-!
Scopes: the variables of a body that is being written, by name. Looking up a name that is new makes a
variable of it.
-/

namespace Dataflow

/-- The variables of a method in the order in which they came into being; their names are distinct. `made`
counts all that were ever made. -/
structure Scope where
  method : Option MethodRef
  vars : List Var
  made : Nat

namespace Scope

def empty (method : Option MethodRef) : Scope := ⟨method, [], 0⟩

def find? (s : Scope) (name : String) : Option Var := s.vars.find? (·.name = name)

def declare (s : Scope) (name : String) (type : Ty) : Var × Scope :=
  let v : Var := ⟨name, type, s.method, s.made⟩
  (v, { s with vars := s.vars.filter (·.name ≠ name) ++ [v], made := s.made + 1 })

def var (s : Scope) (name : String) (type : Ty) : Var × Scope :=
  match s.find? name with
  | some v => (v, s)
  | none => s.declare name type

end Scope

abbrev Scoping := Steps Error Scope

namespace Scoping

def var (name : String) (type : Ty) : Scoping Var := modifyGet (·.var name type)

def intVar (name : String) : Scoping Var := var name .int

def intVars (names : List String) : Scoping (List Var) := names.mapM intVar

def intVar? (name : Option String) : Scoping (Option Var) := name.mapM intVar

end Scoping

end Dataflow
