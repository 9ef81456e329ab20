import Dataflow.Ir.Name
import Dataflow.Ir.Operator

/-!
Expressions: what they read, how they are written, and whether evaluating one can be left out.
-/

namespace Dataflow

inductive CallKind where
  | virtual | interface | special | static
deriving DecidableEq

namespace CallKind

def all : List CallKind := [.virtual, .interface, .special, .static]

def text : CallKind → String
  | .virtual => "virtual"
  | .interface => "interface"
  | .special => "special"
  | .static => "static"

def ofText? (s : String) : Option CallKind := all.find? (·.text == s)

end CallKind

structure Call where
  kind : CallKind
  target : MethodRef
  args : List Var
  base : Option Var
deriving DecidableEq

namespace Call

def uses (c : Call) : List Var := c.base.toList ++ c.args

def text (c : Call) : String :=
  let receiver := match c.base with
    | none => ""
    | some v => v.name ++ "."
  "invoke" ++ c.kind.text ++ " " ++ receiver ++ c.target.text ++
    "(" ++ Text.join ", " (c.args.map Var.name) ++ ")"

end Call

inductive Exp where
  | var (v : Var)
  | lit (n : Int)
  | bin (op : BinOp) (left right : Exp)
  | new (cls : String)
  | cast (type : Ty) (value : Var)
  | field (name : String) (type : Ty) (base : Option Var) (owner : Option String)
  | elem (base : Var) (index : Exp)
  | call (c : Call)
deriving DecidableEq

namespace Exp

def uses : Exp → List Var
  | .var v => [v]
  | .lit _ => []
  | .bin _ left right => left.uses ++ right.uses
  | .new _ => []
  | .cast _ value => [value]
  | .field _ _ base _ => base.toList
  | .elem base index => base :: index.uses
  | .call c => c.uses

def text : Exp → String
  | .var v => v.name
  | .lit n => toString n
  | .bin op left right => left.text ++ " " ++ op.text ++ " " ++ right.text
  | .new cls => "new " ++ cls
  | .cast type value => "(" ++ type.text ++ ") " ++ value.name
  | .field name _ (some base) _ => base.name ++ "." ++ name
  | .field name _ none owner => owner.getD "None" ++ "." ++ name
  | .elem base index => base.name ++ "[" ++ index.text ++ "]"
  | .call c => c.text

def described? : Exp → Option String
  | .var v => some ("Var(" ++ v.name ++ ")")
  | .lit n => some ("IntLiteral(" ++ toString n ++ ")")
  | e@(.bin _ _ _) => some ("BinaryExp(" ++ e.text ++ ")")
  | _ => none

/-- Whether evaluating the expression neither changes memory nor fails, judged by its outermost form. -/
def isPure : Exp → Bool
  | .var _ => true
  | .lit _ => true
  | .bin op _ _ => !op.divides
  | .new _ => false
  | .cast _ _ => false
  | .field _ _ _ _ => false
  | .elem _ _ => false
  | .call _ => false

def var? : Exp → Option Var
  | .var v => some v
  | _ => none

end Exp

end Dataflow
