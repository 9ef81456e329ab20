import Dataflow.Text.Quoted

/-!
Types, and what classes, methods and variables are called. Classes may share a name, so a class is known
by a stamp as well; a class declares a subsignature at most once, so class and subsignature know a method;
a variable is known by its name, its type, the method it is local to and how many came before it there.
-/

namespace Dataflow

inductive Ty where
  | byte | short | int | char | boolean | long | float | double
  | ref (name : String)
deriving DecidableEq

namespace Ty

def ofName : String → Ty
  | "byte" => .byte
  | "short" => .short
  | "int" => .int
  | "char" => .char
  | "boolean" => .boolean
  | "long" => .long
  | "float" => .float
  | "double" => .double
  | name => .ref name

def text : Ty → String
  | .byte => "byte"
  | .short => "short"
  | .int => "int"
  | .char => "char"
  | .boolean => "boolean"
  | .long => "long"
  | .float => "float"
  | .double => "double"
  | .ref name => name

def holdsInt : Ty → Bool
  | .byte | .short | .int | .char | .boolean => true
  | .long | .float | .double | .ref _ => false

end Ty

/-- A class or interface: its name, and a stamp that tells classes of one name apart. -/
structure ClassId where
  stamp : Nat
  name : String
deriving DecidableEq

structure Subsignature where
  name : String
  params : List Ty
  returns : Ty
deriving DecidableEq

def Subsignature.text (sig : Subsignature) : String :=
  sig.returns.text ++ " " ++ sig.name ++ "(" ++ Text.join "," (sig.params.map Ty.text) ++ ")"

structure MethodRef where
  owner : ClassId
  sig : Subsignature
deriving DecidableEq

namespace MethodRef

def text (m : MethodRef) : String := "<" ++ m.owner.name ++ ": " ++ m.sig.text ++ ">"

def arity (m : MethodRef) : Nat := m.sig.params.length

end MethodRef

structure Var where
  name : String
  type : Ty
  scope : Option MethodRef
  stamp : Nat
deriving DecidableEq

def Var.holdsInt (v : Var) : Bool := v.type.holdsInt

end Dataflow
