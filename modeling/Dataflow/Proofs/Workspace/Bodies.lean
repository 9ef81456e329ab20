import Dataflow.Proofs.CallGraph.Building
import Dataflow.Proofs.Ir.Drafts
import Dataflow.Workspace.Building

/-!
Bodies and the methods that they are of. A program comes to be by calls that make classes, declare methods, write
bodies and set jump targets, and some of these calls fail (`Workspace.Built`). A finished body goes to the method that it
was begun for, so at any time a method has no other body than its own (`Workspace.Built.ownBodies`).
-/

namespace Dataflow

namespace Program
variable {p : Program} {m : MethodRef}

theorem Owned.addClass (owned : p.Owned) {c : ClassDecl} (bare : c.methods = []) : (p.addClass c).Owned := by
  intro decl member
  rcases List.mem_append.mp member with old | new
  · exact owned decl old
  · rw [List.mem_singleton.mp new, ClassDecl.Owned, bare]
    exact List.forall_mem_nil _

theorem Owned.updateClass (owned : p.Owned) {c : ClassId} {f : ClassDecl → ClassDecl}
    (kept : ∀ decl : ClassDecl, decl.id = c → decl.Owned → (f decl).Owned) : (p.updateClass c f).Owned := by
  intro decl member
  obtain ⟨old, there, rfl⟩ := List.mem_map.mp member
  split
  · exact kept old ‹_› (owned old there)
  · exact owned old there

theorem Owned.updateMethod (owned : p.Owned) {f : MethodDecl → MethodDecl} (sig : ∀ d, (f d).sig = d.sig)
    (kept : ∀ d : MethodDecl, (∀ b ∈ d.body, b.method = m) → ∀ b ∈ (f d).body, b.method = m) :
    (p.updateMethod m f).Owned := by
  refine owned.updateClass fun decl same own d member => ?_
  obtain ⟨old, there, rfl⟩ := List.mem_map.mp member
  split
  case isTrue named =>
      obtain rfl : m = ⟨decl.id, old.sig⟩ := by rw [same, named]
      rw [sig]
      exact kept old (own old there)
  case isFalse => exact own old there

theorem Owned.declare (owned : p.Owned) {isStatic isAbstract : Bool} {p' : Program}
    (declared : p.declare m isStatic isAbstract = .ok p') : p'.Owned := by
  unfold Program.declare at declared
  split at declared
  · cases declared
  · obtain rfl := Except.ok.inj declared
    refine owned.updateClass fun decl _ own d member => ?_
    rcases List.mem_append.mp member with old | new
    · exact own d old
    · simp [List.mem_singleton.mp new]

theorem Owned.startMethod (owned : p.Owned) (isStatic : Bool) (names : Option (List String)) :
    (p.startMethod m isStatic names).2.Owned := by
  unfold Program.startMethod
  cases declared : p.declare m isStatic false with
  | error _ => exact owned
  | ok p' =>
      have later : p'.Owned := owned.declare declared
      dsimp only
      split
      · exact later
      · exact later.updateMethod (fun _ => rfl) fun _ own => own

end Program

/-! ## Calls -/

inductive Construction where
  | addClass (handle name : String) (super : Option ClassId) (interfaces : List ClassId) (isInterface isAbstract : Bool)
  | setSuper (c : ClassId) (super : Option ClassId)
  | declare (handle : String) (m : MethodRef) (isStatic isAbstract : Bool)
  | startMethod (handle : String) (m : MethodRef) (isStatic : Bool) (names : Option (List String))
  | instruct (m : MethodRef) (i : Instr)
  | patch (m : MethodRef) (pos : Nat) (slot : Slot) (target : Node)

def Construction.perform : Construction → Session Unit
  | .addClass handle name super interfaces isInterface isAbstract => do
      let _ ← Session.addClass handle name super interfaces isInterface isAbstract
  | .setSuper c super => Session.setSuper c super
  | .declare handle m isStatic isAbstract => Session.declare handle m isStatic isAbstract
  | .startMethod handle m isStatic names => Session.startMethod handle m isStatic names
  | .instruct m i => do
      let _ ← Session.instruct m i
  | .patch m pos slot target => do
      let _ ← Session.patch m pos slot target

/-- Workspaces that the calls above lead to. Whatever else a session does between them leaves the program alone. -/
inductive Workspace.Built : Workspace → Prop where
  | empty : Built .empty
  | called {w : Workspace} (call : Construction) : Built w → Built (call.perform.on w).2
  | meanwhile {w w' : Workspace} : Built w → w'.program = w.program → Built w'

namespace Session
open Steps (Keeps)

abbrev Owns (w : Workspace) : Prop := w.program.Owned

theorem modifyProgram_owns {f : Program → Program} (kept : ∀ p : Program, p.Owned → (f p).Owned) :
    Keeps Owns (modifyProgram f) := fun w owned => kept w.program owned

theorem note_owns (level : Level) (source text : String) : Keeps Owns (note level source text) := fun _ owned => owned

theorem lift_owns {α : Type} (r : Except Error α) : Keeps Owns (Steps.lift r : Session α) := by
  intro w owned
  rwa [Steps.on_lift]

theorem draftOf_owns (m : MethodRef) : Keeps Owns (draftOf m) := by
  refine Keeps.get.bind fun w => ?_
  split
  · exact .pure _
  · exact .throw _

theorem install_owns (b : Body) : Keeps Owns (install b) := by
  refine (modifyProgram_owns fun p owned => ?_).bind fun _ => Keeps.bind (fun _ owned => owned) fun _ =>
    note_owns _ _ _
  -- the method that gets the body is the one that the body says it is of
  exact owned.updateMethod (fun _ => rfl) fun _ _ b' same => by rw [← Option.some.inj same]

theorem drafting_owns {α : Type} (m : MethodRef) (step : Drafting α) : Keeps Owns (drafting m step) := by
  unfold drafting
  refine (draftOf_owns m).bind fun d => ?_
  refine (modifyProgram_owns fun p owned => ?_).bind fun _ => lift_owns _
  exact owned.updateMethod (fun _ => rfl) fun _ own => own

theorem instruct_owns (m : MethodRef) (i : Instr) : Keeps Owns (instruct m i) := by
  unfold instruct
  refine (drafting_owns m i.exec).bind fun written => ?_
  cases written with
  | body b => exact (install_owns b).bind fun _ => .pure _
  | _ => exact .pure _

theorem patch_owns (m : MethodRef) (pos : Nat) (slot : Slot) (target : Node) :
    Keeps Owns (patch m pos slot target) := by
  unfold patch
  refine (modifyProgram_owns fun p owned => ?_).bind fun _ => .pure _
  refine owned.updateMethod (fun _ => rfl) fun d own b patched => ?_
  obtain ⟨old, there, rfl⟩ := Option.map_eq_some_iff.mp patched
  exact own old there

theorem perform_owns (call : Construction) : Keeps Owns call.perform := by
  cases call with
  | addClass handle name super interfaces isInterface isAbstract =>
      exact Keeps.bind (fun w owned => owned.addClass rfl) fun _ => .pure _
  | setSuper c super => exact modifyProgram_owns fun p owned => owned.updateClass fun _ _ own => own
  | declare handle m isStatic isAbstract =>
      intro w owned
      simp only [Construction.perform, declare, Steps.on_bind, Steps.on_get, Steps.on_lift]
      cases declared : w.program.declare m isStatic isAbstract with
      | error _ => exact owned
      | ok p => exact owned.declare declared
  | startMethod handle m isStatic names =>
      intro w owned
      have later : (w.program.startMethod m isStatic names).2.Owned := owned.startMethod isStatic names
      simp only [Construction.perform, startMethod, Steps.on_bind, Steps.on_get]
      rcases started : w.program.startMethod m isStatic names with ⟨_ | _, p⟩ <;> rw [started] at later <;> exact later
  | instruct m i => exact (instruct_owns m i).bind fun _ => .pure _
  | patch m pos slot target => exact (patch_owns m pos slot target).bind fun _ => .pure _

end Session

theorem Workspace.Built.foldl {w : Workspace} (built : w.Built) (calls : List Construction) :
    (calls.foldl (fun w call => (call.perform.on w).2) w).Built := by
  induction calls generalizing w with
  | nil => exact built
  | cons call calls ih => exact ih (built.called call)

theorem Workspace.Built.ownBodies {w : Workspace} (built : w.Built) : w.program.OwnBodies := by
  refine Program.Owned.ownBodies ?_
  induction built with
  | empty => exact fun decl member => by simp [Workspace.empty, Program.empty] at member
  | called call _ ih => exact Session.perform_owns call _ ih
  | meanwhile _ same ih => rwa [same]

end Dataflow
