import Dataflow.CallGraph.Basic
import Dataflow.Proofs.Semantics.Execution

/-!
Runs through calls. Control is in the frame on top of a stack, and below it are the calls that wait for what they
have called. A call may run any method that the call graph has for it and that has a body: its parameters get what
the arguments hold, in order, and the variable for the result holds nothing until the callee is left. Within a
frame, control takes any edges and the outside gives anything.
-/

namespace Dataflow

namespace Store

def put (σ : Store) (v : Var) (w : Option Word) : Store := fun u => if v = u then w else σ u

def ofArgs (σ : Store) (params args : List Var) : Store :=
  (params.zip args).foldl (fun τ b => τ.put b.1 (σ b.2)) fun _ => none

def receive (σ : Store) (result : Option Var) (w : Option Word) : Store :=
  match result with
  | none => σ
  | some v => σ.put v w

end Store

def Stmt.isCall : Stmt → Bool
  | .invoke _ _ => true
  | _ => false

def Body.returnedAt (b : Body) (now : State) : Option Word :=
  match b.stmt? now.node with
  | some (.ret (some v)) => now.store v
  | _ => none

/-- A method that runs, with what the statement returned that control has just left. -/
structure Frame where
  method : MethodRef
  now : State
  returned : Option Word

structure Suspended where
  site : CallSite
  store : Store

structure Stack where
  top : Frame
  below : List Suspended

inductive CallGraph.Steps (g : CallGraph) (p : Program) (flow : MethodRef → Cfg) : Stack → Stack → Prop where
  | move {m : MethodRef} {b : Body} {now later : State} {returned : Option Word} {below : List Suspended}
      (body : p.body? m = some b)
      (moves : (flow m).Moves b (fun _ _ => True) (fun s _ _ => s.isCall = false) now later) :
      Steps g p flow ⟨⟨m, now, returned⟩, below⟩ ⟨⟨m, later, b.returnedAt now⟩, below⟩
  | call {m callee : MethodRef} {b d : Body} {pos : Nat} {call : Call} {result : Option Var} {σ : Store}
      {returned : Option Word} {below : List Suspended} (body : p.body? m = some b)
      (here : b.stmt? (.stmt pos m) = some (.invoke call result))
      (runs : callee ∈ g.calleesOf ⟨some m, pos, call, result⟩) (target : p.body? callee = some d) :
      Steps g p flow ⟨⟨m, ⟨.stmt pos m, σ⟩, returned⟩, below⟩
        ⟨⟨callee, ⟨(flow callee).entry, σ.ofArgs d.params call.args⟩, none⟩,
          ⟨⟨some m, pos, call, result⟩, σ.receive result none⟩ :: below⟩
  | ret {m callee : MethodRef} {site : CallSite} {σ τ : Store} {returned : Option Word} {n : Node}
      {below : List Suspended} (home : site.home = some m) (next : n ∈ (flow m).succs (.stmt site.pos m)) :
      Steps g p flow ⟨⟨callee, ⟨(flow callee).exit, σ⟩, returned⟩, ⟨site, τ⟩ :: below⟩
        ⟨⟨m, ⟨n, τ.receive site.result returned⟩, none⟩, below⟩

def Stack.start (flow : MethodRef → Cfg) (m : MethodRef) (first : Store) : Stack :=
  ⟨⟨m, ⟨(flow m).entry, first⟩, none⟩, []⟩

end Dataflow
