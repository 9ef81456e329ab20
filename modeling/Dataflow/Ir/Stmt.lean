import Dataflow.Ir.Exp

/-!
Statements and the nodes that jumps lead to. A jump has no target until its label is resolved.
-/

namespace Dataflow

/-- A place in a control flow graph: the statement at a position of a method, the entry or the exit of a
graph, or a statement that belongs nowhere. -/
inductive Node where
  | entry (graph : Nat)
  | stmt (pos : Nat) (method : MethodRef)
  | exit (graph : Nat)
  | stray (stamp : Nat)
deriving DecidableEq

inductive Slot where
  | target
  | case (k : Nat)
  | otherwise
deriving DecidableEq

inductive Stmt where
  | assign (lhs rhs : Exp)
  | invoke (call : Call) (result : Option Var)
  | branch (op : BinOp) (left right : Exp) (target : Option Node)
  | goto (target : Option Node)
  | switch (v : Var) (cases : List (Int × Option Node)) (otherwise : Option Node)
  | ret (value : Option Var)
  | nop (tag : String)
deriving DecidableEq

namespace Stmt

def def? : Stmt → Option Exp
  | .assign lhs _ => some lhs
  | .invoke _ (some v) => some (.var v)
  | _ => none

def defVar? (s : Stmt) : Option Var := s.def?.bind Exp.var?

/-- The variables the statement reads. What a store is addressed by is read before the stored value. -/
def uses : Stmt → List Var
  | .assign (.var _) rhs => rhs.uses
  | .assign lhs rhs => lhs.uses ++ rhs.uses
  | .invoke call _ => call.uses
  | .branch _ left right _ => left.uses ++ right.uses
  | .goto _ => []
  | .switch v _ _ => [v]
  | .ret value => value.toList
  | .nop _ => []

def rvalue? : Stmt → Option Exp
  | .assign _ rhs => some rhs
  | .invoke call _ => some (.call call)
  | _ => none

def fallsThrough : Stmt → Bool
  | .goto _ | .switch _ _ _ | .ret _ => false
  | _ => true

def retarget (slot : Slot) (node : Node) : Stmt → Stmt
  | .branch op left right target =>
      match slot with
      | .target => .branch op left right (some node)
      | _ => .branch op left right target
  | .goto target =>
      match slot with
      | .target => .goto (some node)
      | _ => .goto target
  | .switch v cases otherwise =>
      match slot with
      | .case k => .switch v (cases.modify k fun c => (c.1, some node)) otherwise
      | .otherwise => .switch v cases (some node)
      | .target => .switch v cases otherwise
  | s => s

def targetText (index : Node → Int) : Option Node → String
  | none => "?"
  | some n => toString (index n)

def text (index : Node → Int) : Stmt → String
  | .assign lhs rhs => lhs.text ++ " = " ++ rhs.text ++ ";"
  | .invoke call none => call.text ++ ";"
  | .invoke call (some v) => v.name ++ " = " ++ call.text ++ ";"
  | .branch op left right target =>
      "if (" ++ (Exp.bin op left right).text ++ ") goto " ++ targetText index target ++ ";"
  | .goto target => "goto " ++ targetText index target ++ ";"
  | .switch v cases otherwise =>
      let shown := cases.map fun c => toString c.1 ++ "->" ++ targetText index c.2
      "switch (" ++ v.name ++ ") \x7b" ++ Text.join ", " shown ++
        ", default->" ++ targetText index otherwise ++ "\x7d;"
  | .ret none => "return;"
  | .ret (some v) => "return " ++ v.name ++ ";"
  | .nop tag => tag ++ ";"

end Stmt

end Dataflow
