import Dataflow.Data.Place
import Dataflow.Ir.Draft
import Dataflow.Ir.Term

/-!
The instructions that write a draft. Compound operands come into being from left to right before any of the
instruction's own names is looked up.
-/

namespace Dataflow

inductive Instr where
  | var (name : String) (type : Ty)
  | param (i : Int)
  | label (name : String)
  | finish
  | assign (lhs rhs : Term)
  | compute (name : String) (op : BinOp) (left right : Term)
  | branch (op : BinOp) (left right : Term) (dest : String)
  | goto (dest : String)
  | switch (name : String) (cases : List (Int × String)) (otherwise : String)
  | invoke (kind : CallKind) (target : MethodRef) (args : List String) (base result : Option String)
  | ret (name : Option String)
  | nop (tag : String)
  | openBranch (op : BinOp) (left right : Term)
  | openGoto
  | openSwitch (name : String) (cases : List Int)

inductive Written where
  | nothing
  | var (v : Var)
  | param (v : Var)
  | stmt (s : Stmt)
  | body (b : Body)

namespace Instr

open Drafting

def compound (t : Term) : Drafting (Option Exp) :=
  if t.isCompound then some <$> inScope t.build else pure none

def operand (built : Option Exp) (t : Term) : Drafting Exp :=
  match built with
  | some e => pure e
  | none => inScope t.build

def exec : Instr → Drafting Written
  | .var name type => return .var (← inScope (Scoping.var name type))
  | .param i => do
      let params := (← get).params
      match (place? params.length i).bind (params[·]?) with
      | some v => return .param v
      | none => throw (.outOfRange i)
  | .label name => do
      Drafting.label name
      return .nothing
  | .finish => return .body (← Drafting.finish)
  | .assign lhs rhs => do
      let l ← compound lhs
      let r ← compound rhs
      let l ← operand l lhs
      let r ← operand r rhs
      return .stmt (← Drafting.assign l r)
  | .compute name op left right => do
      let l ← compound left
      let r ← compound right
      let v ← inScope (Scoping.intVar name)
      let l ← operand l left
      let r ← operand r right
      return .stmt (← Drafting.assign (.var v) (.bin op l r))
  | .branch op left right dest => do
      let l ← compound left
      let r ← compound right
      let l ← operand l left
      let r ← operand r right
      return .stmt (← addJump (.branch op l r none) [(.target, dest)])
  | .goto dest => return .stmt (← addJump (.goto none) [(.target, dest)])
  | .switch name cases otherwise => do
      let v ← inScope (Scoping.intVar name)
      let waiting := cases.zipIdx.map (fun c => (Slot.case c.2, c.1.2)) ++ [(.otherwise, otherwise)]
      return .stmt (← addJump (.switch v (cases.map fun c => (c.1, none)) none) waiting)
  | .invoke kind target args base result => do
      let as ← inScope (Scoping.intVars args)
      let b ← inScope (Scoping.intVar? base)
      let r ← inScope (Scoping.intVar? result)
      return .stmt (← add (.invoke ⟨kind, target, as, b⟩ r))
  | .ret name => return .stmt (← add (.ret (← inScope (Scoping.intVar? name))))
  | .nop tag => return .stmt (← add (.nop tag))
  | .openBranch op left right => do
      let l ← compound left
      let r ← compound right
      let l ← operand l left
      let r ← operand r right
      return .stmt (← add (.branch op l r none))
  | .openGoto => return .stmt (← add (.goto none))
  | .openSwitch name cases => do
      let v ← inScope (Scoping.intVar name)
      return .stmt (← add (.switch v (cases.map fun c => (c, none)) none))

end Instr

end Dataflow
