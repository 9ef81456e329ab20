import Dataflow.CallGraph.Basic
import Dataflow.Hierarchy

/-!
Which methods a call may run, judged by the class hierarchy, and the call graph that follows from it.
-/

namespace Dataflow

namespace Program

/-- The methods that a call may run. A static call runs the method declared in the class itself, a special
call what the class dispatches to, and a virtual or interface call what any class below dispatches to. -/
def targets (p : Program) (h : Option Hierarchy) (c : Call) : Except Error (List MethodRef) :=
  match c.kind with
  | .static => .ok (if (p.method? c.target).isSome then [c.target] else [])
  | .special => .ok (p.dispatch c.target.owner c.target.sig).toList
  | .virtual | .interface =>
      match h with
      | none => .error .needsHierarchy
      | some h =>
          let classes := Search.reach (h.below p) (c.target.owner :: p.classes.map ClassDecl.id)
            [c.target.owner]
          .ok (OrderedSet.distinct (classes.filterMap fun d => p.dispatch d c.target.sig))

def called (p : Program) (h : Option Hierarchy) (m : MethodRef) : List MethodRef :=
  (p.sites m).flatMap fun s => (p.targets h s.call).toOption.getD []

def methods (p : Program) : List MethodRef :=
  p.classes.flatMap fun c => c.methods.map fun m => ⟨c.id, m.sig⟩

end Program

namespace CallGraph

def addSite (p : Program) (h : Option Hierarchy) (g : CallGraph) (s : CallSite) : Except Error CallGraph := do
  (← p.targets h s.call).foldlM (fun g callee => do return (← g.addEdge p ⟨s.call.kind, s, callee⟩).1) g

def addMethod (p : Program) (h : Option Hierarchy) (g : CallGraph) (m : MethodRef) : Except Error CallGraph :=
  (p.sites m).foldlM (addSite p h) (g.addReachable m).1

def closure (p : Program) (h : Option Hierarchy) (entries : List MethodRef) : List MethodRef :=
  Search.reach (p.called h) (entries ++ p.methods) entries

def ofEntries (p : Program) (h : Option Hierarchy) (entries : List MethodRef) : Except Error CallGraph :=
  (closure p h entries).foldlM (addMethod p h) (entries.foldl addEntry empty)

end CallGraph

structure Context where
  hierarchy : Option Hierarchy
  entries : List MethodRef

namespace Context

def mainMethod (c : Context) : Except Error MethodRef :=
  match c.entries with
  | [] => .error .noEntryMethod
  | m :: _ => .ok m

def callGraph (c : Context) (p : Program) : Except Error CallGraph := do
  let _ ← c.mainMethod
  CallGraph.ofEntries p c.hierarchy c.entries

end Context

end Dataflow
