import Dataflow.Ir.Instr
import Dataflow.Workspace.State

/-!
Making classes, methods and bodies in a workspace.
-/

namespace Dataflow

namespace Session
open Steps

def modifyProgram (f : Program → Program) : Session Unit :=
  modify fun w => { w with program := f w.program }

def addClass (handle name : String) (super : Option ClassId) (interfaces : List ClassId)
    (isInterface isAbstract : Bool) : Session ClassDecl := do
  let w ← get
  let id : ClassId := ⟨w.program.classes.length, name⟩
  let c : ClassDecl := ⟨id, super, interfaces, isInterface, isAbstract || isInterface, []⟩
  set { w with program := w.program.addClass c, classes := w.classes.insert handle id }
  return c

def setSuper (c : ClassId) (super : Option ClassId) : Session Unit :=
  modifyProgram fun p => p.updateClass c fun d => { d with super := super }

def bindMethod (handle : String) (m : MethodRef) : Session Unit :=
  modify fun w => { w with methods := w.methods.insert handle m }

def declare (handle : String) (m : MethodRef) (isStatic isAbstract : Bool) : Session Unit := do
  let p ← lift ((← get).program.declare m isStatic isAbstract)
  modifyProgram fun _ => p
  bindMethod handle m

def startMethod (handle : String) (m : MethodRef) (isStatic : Bool) (names : Option (List String)) :
    Session Unit := do
  let (started, p) := (← get).program.startMethod m isStatic names
  modifyProgram fun _ => p
  lift started
  bindMethod handle m
  modify fun w => { w with drafts := w.drafts.insert handle m }

def drafting {α : Type} (m : MethodRef) (step : Drafting α) : Session α := do
  let (result, d) := step.on (← draftOf m)
  modifyProgram fun p => p.updateMethod m fun decl => { decl with draft := some d }
  lift result

def install (b : Body) : Session Unit := do
  modifyProgram fun p => p.updateMethod b.method fun decl => { decl with body := some b }
  modify fun w => { w with stores := w.stores.erase b.method }
  note .debug "builder" ("built " ++ b.method.text ++ " with " ++ toString b.stmts.length ++ " statements")

def instruct (m : MethodRef) (i : Instr) : Session Written := do
  let written ← drafting m i.exec
  match written with
  | .body b => install b
  | _ => pure ()
  return written

def caseSlot (m : MethodRef) (pos : Nat) (k : Int) : Session Slot := do
  match (← draftOf m).stmts[pos]? with
  | some (.switch _ cases _) =>
      match place? cases.length k with
      | some k => return .case k
      | none => throw (.outOfRange k)
  | _ => throw (.wrongStmt ((← get).nodeText (.stmt pos m)))

def patch (m : MethodRef) (pos : Nat) (slot : Slot) (target : Node) : Session Node := do
  modifyProgram fun p => p.updateMethod m fun decl =>
    { decl with
      draft := decl.draft.map (·.retarget pos slot target)
      body := decl.body.map fun b => { b with stmts := b.stmts.modify pos (Stmt.retarget slot target) } }
  return .stmt pos m

end Session

end Dataflow
