import Dataflow.Data.Iteration
import Dataflow.Data.OrderedMap
import Dataflow.Data.Search
import Dataflow.Program

/-!
Class hierarchies. A hierarchy knows its classes by name and, for each class, what directly extends or
implements it. It is an index made at one time: later changes of a superclass do not show in it.
-/

namespace Dataflow

structure Hierarchy where
  names : OrderedMap String ClassId
  subclasses : OrderedMap ClassId (List ClassId)
  subinterfaces : OrderedMap ClassId (List ClassId)
  implementors : OrderedMap ClassId (List ClassId)

def ClassDecl.parents (c : ClassDecl) : List ClassId := c.super.toList ++ c.interfaces

namespace Hierarchy

def empty : Hierarchy := ⟨OrderedMap.empty, OrderedMap.empty, OrderedMap.empty, OrderedMap.empty⟩

def append (m : OrderedMap ClassId (List ClassId)) (key c : ClassId) : OrderedMap ClassId (List ClassId) :=
  m.insert key (m.getD key [] ++ [c])

def contains (h : Hierarchy) (c : ClassId) : Bool := h.names.get? c.name = some c

def add (h : Hierarchy) (c : ClassDecl) : Hierarchy :=
  let h := { h with names := h.names.insert c.id.name c.id }
  let h := match c.super with
    | none => h
    | some s => { h with subclasses := append h.subclasses s c.id }
  if c.isInterface then
    { h with subinterfaces := c.interfaces.foldl (fun m i => append m i c.id) h.subinterfaces }
  else { h with implementors := c.interfaces.foldl (fun m i => append m i c.id) h.implementors }

def takeIn (h : Hierarchy) (p : Program) (c : ClassId) : Hierarchy × List ClassId :=
  if h.contains c then (h, [])
  else
    match p.class? c with
    | none => (h, [])
    | some decl => (h.add decl, decl.parents)

def takeNext (p : Program) (now : Hierarchy × List ClassId) : Hierarchy ⊕ Hierarchy × List ClassId :=
  match now.2 with
  | [] => .inl now.1
  | c :: pending =>
      let (h, parents) := now.1.takeIn p c
      .inr (h, pending ++ parents)

def addAll (p : Program) (h : Hierarchy) (pending : List ClassId) : Option Hierarchy :=
  Iteration.run (takeNext p) (h, pending)

/-- The hierarchy of some classes and all they extend or implement. If no two of them share a name, each is
taken in once; else they may replace each other over and over, and there is none if they keep doing so. -/
def ofClasses (p : Program) (classes : List ClassId) : Option Hierarchy := addAll p empty classes

def below (h : Hierarchy) (p : Program) (c : ClassId) : List ClassId :=
  if ((p.class? c).map (·.isInterface)).getD false then h.subinterfaces.getD c [] ++ h.implementors.getD c []
  else h.subclasses.getD c []

def described (h : Hierarchy) : String := "ClassHierarchy(classes=" ++ toString h.names.size ++ ")"

end Hierarchy

namespace Program

def parents (p : Program) (c : ClassId) : List ClassId := ((p.class? c).map ClassDecl.parents).getD []

def isSubclass (p : Program) (sup sub : ClassId) : Bool :=
  sup ∈ Search.reach p.parents (sub :: p.classes.map ClassDecl.id) [sub]

end Program

end Dataflow
