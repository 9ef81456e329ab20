import Dataflow.Ir.Body
import Dataflow.Ir.Scope

/-!
Bodies that are being written. Statements are appended one by one, labels name the statement that is
appended next, and jumps name labels that may still be missing. Finishing resolves the labels. A failure
leaves the draft as far as it got, so that it can be mended and finished again.
-/

namespace Dataflow

structure Fixup where
  pos : Nat
  slot : Slot
  label : String

/-- A body that is being written: `labels` are placed, `pending` wait for the next statement. -/
structure Draft where
  method : MethodRef
  this : Option Var
  params : List Var
  scope : Scope
  stmts : List Stmt
  labels : List (String × Nat)
  pending : List String
  fixups : List Fixup
  finished : Bool

namespace Draft

/-- An empty draft. The receiver comes into being first, then the parameters; parameters of one name are
one variable. -/
def start (method : MethodRef) (isStatic : Bool) (names : List String) : Draft :=
  let scope := Scope.empty (some method)
  let (this, scope) :=
    if isStatic then (none, scope)
    else
      let (v, scope) := scope.var "this" (.ref method.owner.name)
      (some v, scope)
  let (params, scope) := (names.zip method.sig.params).foldl (fun acc p =>
    let (v, scope) := acc.2.var p.1 p.2
    (acc.1 ++ [v], scope)) (([] : List Var), scope)
  ⟨method, this, params, scope, [], [], [], [], false⟩

def defaultNames (method : MethodRef) : List String :=
  (List.range method.arity).map fun i => "p" ++ toString i

def labelPos? (d : Draft) (label : String) : Option Nat :=
  (d.labels.find? (·.1 = label)).map Prod.snd

def body (d : Draft) : Body := ⟨d.method, d.this, d.params, d.stmts, d.scope.vars⟩

def retarget (d : Draft) (pos : Nat) (slot : Slot) (node : Node) : Draft :=
  { d with stmts := d.stmts.modify pos (Stmt.retarget slot node) }

end Draft

abbrev Drafting := Steps Error Draft

namespace Drafting

def inScope {α : Type} (step : Scoping α) : Drafting α := do
  let d ← get
  let (result, scope) := step.on d.scope
  set { d with scope }
  Steps.lift result

def label (name : String) : Drafting Unit := do
  let d ← get
  if (d.labelPos? name).isSome || name ∈ d.pending then throw (.duplicateLabel d.method name)
  set { d with pending := d.pending ++ [name] }

def add (s : Stmt) : Drafting Stmt := do
  let d ← get
  if d.finished then throw (.bodyFinished d.method)
  set { d with
    labels := d.labels ++ d.pending.map fun name => (name, d.stmts.length)
    pending := []
    stmts := d.stmts ++ [s] }
  return s

def addJump (s : Stmt) (waiting : List (Slot × String)) : Drafting Stmt := do
  let pos := (← get).stmts.length
  let s ← add s
  modify fun d => { d with fixups := d.fixups ++ waiting.map fun w => ⟨pos, w.1, w.2⟩ }
  return s

def assign (lhs rhs : Exp) : Drafting Stmt :=
  match rhs with
  | .call c => throw (.assignedCall c)
  | _ => add (.assign lhs rhs)

def resolve (f : Fixup) : Drafting Unit := do
  let d ← get
  match d.labelPos? f.label with
  | none => throw (.undefinedLabel d.method f.label)
  | some pos => set (d.retarget f.pos f.slot (.stmt pos d.method))

/-- Resolves the jumps in the order in which they were appended, and gives the body. -/
def finish : Drafting Body := do
  let d ← get
  if d.pending ≠ [] then throw (.danglingLabels d.method d.pending)
  d.fixups.forM resolve
  modify fun d => { d with finished := true }
  return (← get).body

end Drafting

end Dataflow
