import Dataflow.Ir.Draft

/-!
Programs: classes and interfaces with the methods they declare. A class declares a subsignature at most
once. A method that has a draft is being written; its body is what the last successful finish gave.
-/

namespace Dataflow

structure MethodDecl where
  sig : Subsignature
  isStatic : Bool
  isAbstract : Bool
  draft : Option Draft
  body : Option Body

structure ClassDecl where
  id : ClassId
  super : Option ClassId
  interfaces : List ClassId
  isInterface : Bool
  isAbstract : Bool
  methods : List MethodDecl

namespace ClassDecl

def described (c : ClassDecl) : String :=
  "JClass(" ++ (if c.isInterface then "interface " else "class ") ++ c.id.name ++ ")"

def method? (c : ClassDecl) (sig : Subsignature) : Option MethodDecl := c.methods.find? (·.sig = sig)

end ClassDecl

def MethodRef.described (m : MethodRef) : String := "JMethod(" ++ m.text ++ ")"

structure Program where
  classes : List ClassDecl

namespace Program

def empty : Program := ⟨[]⟩

def class? (p : Program) (c : ClassId) : Option ClassDecl := p.classes.find? (·.id = c)

def method? (p : Program) (m : MethodRef) : Option MethodDecl := (p.class? m.owner).bind (·.method? m.sig)

def body? (p : Program) (m : MethodRef) : Option Body := (p.method? m).bind (·.body)

def body (p : Program) (m : MethodRef) : Except Error Body :=
  match p.body? m with
  | some b => .ok b
  | none => .error (.noBody m)

def hasBody (p : Program) (m : MethodRef) : Bool := (p.body? m).isSome

def isAbstract (p : Program) (m : MethodRef) : Bool := ((p.method? m).map (·.isAbstract)).getD false

def addClass (p : Program) (c : ClassDecl) : Program := ⟨p.classes ++ [c]⟩

def updateClass (p : Program) (c : ClassId) (f : ClassDecl → ClassDecl) : Program :=
  ⟨p.classes.map fun d => if d.id = c then f d else d⟩

def updateMethod (p : Program) (m : MethodRef) (f : MethodDecl → MethodDecl) : Program :=
  p.updateClass m.owner fun c =>
    { c with methods := c.methods.map fun d => if d.sig = m.sig then f d else d }

def declare (p : Program) (m : MethodRef) (isStatic isAbstract : Bool) : Except Error Program :=
  if (p.method? m).isSome then .error (.duplicateMethod m.owner m.sig)
  else .ok (p.updateClass m.owner fun c =>
    { c with methods := c.methods ++ [⟨m.sig, isStatic, isAbstract, none, none⟩] })

/-- Declares a method and starts its body. The method stays declared if the names do not fit. -/
def startMethod (p : Program) (m : MethodRef) (isStatic : Bool) (names : Option (List String)) :
    Except Error Unit × Program :=
  match p.declare m isStatic false with
  | .error e => (.error e, p)
  | .ok p =>
      let names := names.getD (Draft.defaultNames m)
      if names.length ≠ m.arity then (.error (.parameterNames m names.length m.arity), p)
      else (.ok (), p.updateMethod m fun d => { d with draft := some (Draft.start m isStatic names) })

def super? (p : Program) (c : ClassId) : Option ClassId := (p.class? c).bind (·.super)

def lineageWithin (p : Program) : Nat → ClassId → List ClassId
  | 0, _ => []
  | limit + 1, c =>
      c :: match p.super? c with
        | none => []
        | some s => p.lineageWithin limit s

/-- A class and its superclasses, nearest first. A lineage without repetition is no longer than there are
classes. -/
def lineage (p : Program) (c : ClassId) : List ClassId := p.lineageWithin (p.classes.length + 1) c

def declaration? (p : Program) (c : ClassId) (sig : Subsignature) : Option MethodRef :=
  ((p.lineage c).find? fun d => (p.method? ⟨d, sig⟩).isSome).map (⟨·, sig⟩)

/-- The method that a call of a subsignature on an object of a class runs: the first up the lineage that is
not abstract. -/
def dispatch (p : Program) (c : ClassId) (sig : Subsignature) : Option MethodRef :=
  ((p.lineage c).find? fun d =>
    match p.method? ⟨d, sig⟩ with
    | some m => !m.isAbstract
    | none => false).map (⟨·, sig⟩)

end Program

end Dataflow
