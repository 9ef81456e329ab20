import Dataflow.Proofs.Data.Lists
import Dataflow.Proofs.Hierarchy.Index
import Dataflow.Workspace.Building

/-!
Methods that are declared and not begun. Declaring a method changes the class it belongs to, and dispatch of its own
subsignature alone: a class that used to go past the new method dispatches to it (`dispatch_declaring`). Beginning a
method declares it first and looks at the names of its parameters afterwards, so that a call with the wrong number of
names leaves the method declared (`failed_start_lingers`): calls find it without a body, and it can never be begun
again.
-/

namespace Dataflow

def ClassDecl.withMethod (c : ClassDecl) (decl : MethodDecl) : ClassDecl := { c with methods := c.methods ++ [decl] }

theorem ClassDecl.method?_withMethod (c : ClassDecl) (decl : MethodDecl) (sig : Subsignature) :
    (c.withMethod decl).method? sig = (c.method? sig).or (if decl.sig = sig then some decl else none) := by
  simp only [method?, withMethod, List.find?_append, List.find?_cons, List.find?_nil]
  by_cases same : decl.sig = sig <;> simp [same]

namespace Program
variable {p : Program} {c : ClassId} {sig : Subsignature} {m : MethodRef}

def provides (p : Program) (sig : Subsignature) (c : ClassId) : Bool := (p.method? ⟨c, sig⟩).any (!·.isAbstract)

def passed (p : Program) (c : ClassId) (sig : Subsignature) : List ClassId :=
  (p.lineage c).takeWhile fun d => !p.provides sig d

theorem dispatch_eq : p.dispatch c sig = ((p.lineage c).find? (p.provides sig)).map (⟨·, sig⟩) := by
  rw [dispatch]
  congr 2
  funext d
  rw [provides]
  cases p.method? ⟨d, sig⟩ <;> rfl

theorem class?_updateClass (p : Program) (owner : ClassId) {f : ClassDecl → ClassDecl} (kept : ∀ d, (f d).id = d.id)
    (c : ClassId) : (p.updateClass owner f).class? c = (p.class? c).map fun d => if c = owner then f d else d := by
  rw [class?, class?, updateClass, List.find?_map]
  have ids : (fun d : ClassDecl => decide (d.id = c)) ∘ (fun d => if d.id = owner then f d else d) =
      fun d => decide (d.id = c) := by
    funext d
    by_cases here : d.id = owner <;> simp [here, kept]
  rw [ids]
  cases found : p.classes.find? (·.id = c) with
  | none => rfl
  | some d =>
      have named : d.id = c := by simpa using List.find?_some found
      simp [named]

section Declaring
variable {isStatic : Bool}

def stub (m : MethodRef) (isStatic : Bool) : MethodDecl := ⟨m.sig, isStatic, false, none, none⟩

def declaring (p : Program) (m : MethodRef) (isStatic : Bool) : Program :=
  p.updateClass m.owner (·.withMethod (stub m isStatic))

theorem class?_declaring (p : Program) (m : MethodRef) (isStatic : Bool) (c : ClassId) :
    (p.declaring m isStatic).class? c =
      (p.class? c).map fun d => if c = m.owner then d.withMethod (stub m isStatic) else d := by
  rw [declaring, class?_updateClass]
  exact fun _ => rfl

theorem method?_declaring (owned : (p.class? m.owner).isSome = true) (new : p.method? m = none) (n : MethodRef) :
    (p.declaring m isStatic).method? n = if n = m then some (stub m isStatic) else p.method? n := by
  obtain ⟨owner, declared⟩ := Option.isSome_iff_exists.mp owned
  rw [method?, declared] at new
  rw [method?, method?, class?_declaring]
  by_cases here : n.owner = m.owner
  · rw [here, declared]
    simp only [Option.map_some, if_true, Option.bind_some, ClassDecl.method?_withMethod] at new ⊢
    by_cases same : n.sig = m.sig
    · have equal : n = m := by
        cases n
        cases m
        simp_all
      simp [equal, new, stub]
    · have other : n ≠ m := fun equal => same (congrArg MethodRef.sig equal)
      simp [other, stub, Ne.symm same]
  · have other : n ≠ m := fun same => here (congrArg MethodRef.owner same)
    simp [here, other]

theorem lineage_declaring (p : Program) (m : MethodRef) (isStatic : Bool) (c : ClassId) :
    (p.declaring m isStatic).lineage c = p.lineage c := by
  have supers (d : ClassId) : (p.declaring m isStatic).super? d = p.super? d := by
    rw [super?, super?, class?_declaring]
    cases p.class? d with
    | none => rfl
    | some decl => by_cases here : d = m.owner <;> simp [here, ClassDecl.withMethod]
  have within (limit : Nat) (d : ClassId) :
      (p.declaring m isStatic).lineageWithin limit d = p.lineageWithin limit d := by
    induction limit generalizing d with
    | zero => rfl
    | succ limit ih => simp only [lineageWithin, supers, ih]
  have length : (p.declaring m isStatic).classes.length = p.classes.length := List.length_map _
  rw [lineage, lineage, within, length]

theorem provides_declaring (owned : (p.class? m.owner).isSome = true) (new : p.method? m = none) (c : ClassId) :
    (p.declaring m isStatic).provides sig c = (decide (⟨c, sig⟩ = m) || p.provides sig c) := by
  rw [provides, provides, method?_declaring owned new]
  by_cases here : (⟨c, sig⟩ : MethodRef) = m <;> simp [here, stub]

theorem dispatch_declaring (owned : (p.class? m.owner).isSome = true) (new : p.method? m = none) (c : ClassId)
    (sig : Subsignature) :
    (p.declaring m isStatic).dispatch c sig =
      if sig = m.sig ∧ m.owner ∈ p.passed c sig then some m else p.dispatch c sig := by
  obtain ⟨owner, ownSig⟩ := m
  have provided (d : ClassId) : (p.declaring ⟨owner, ownSig⟩ isStatic).provides sig d =
      (decide ((⟨d, sig⟩ : MethodRef) = ⟨owner, ownSig⟩) || p.provides sig d) := provides_declaring owned new d
  rw [dispatch_eq, dispatch_eq, lineage_declaring, passed]
  by_cases own : sig = ownSig
  · subst own
    have unprovided : p.provides sig owner = false := by simp [provides, new]
    have found : (p.declaring ⟨owner, sig⟩ isStatic).provides sig =
        fun d => decide (d = owner) || p.provides sig d := by
      funext d
      simp [provided]
    rw [found, Lists.find?_or unprovided]
    split <;> simp_all
  · have same : (p.declaring ⟨owner, ownSig⟩ isStatic).provides sig = p.provides sig := by
      funext d
      simp [provided, own]
    simp [same, own]

theorem startMethod_of_declared {names : Option (List String)} (there : (p.method? m).isSome = true) :
    p.startMethod m isStatic names = (.error (.duplicateMethod m.owner m.sig), p) := by
  simp [startMethod, declare, there]

theorem startMethod_of_new (new : p.method? m = none) (isStatic : Bool) (names : Option (List String)) :
    p.startMethod m isStatic names =
      if (names.getD (Draft.defaultNames m)).length ≠ m.arity then
        (.error (.parameterNames m (names.getD (Draft.defaultNames m)).length m.arity), p.declaring m isStatic)
      else (.ok (), (p.declaring m isStatic).updateMethod m fun d =>
        { d with draft := some (Draft.start m isStatic (names.getD (Draft.defaultNames m))) }) := by
  have declared : p.declare m isStatic false = .ok (p.declaring m isStatic) := by
    simp only [declare, new, Option.isSome_none, Bool.false_eq_true, if_false]
    rfl
  simp only [startMethod, declared]

end Declaring

/-- What is left of a method that was declared and not begun: a method without body that dispatch finds, in its class
and wherever dispatch went past it, and that cannot be begun. -/
structure Lingers (p : Program) (m : MethodRef) (isStatic : Bool) (left : Program) : Prop where
  new : p.method? m = none
  declared : left.method? m = some ⟨m.sig, isStatic, false, none, none⟩
  classes : ∀ c, left.class? c =
    (p.class? c).map fun d => if c = m.owner then d.withMethod ⟨m.sig, isStatic, false, none, none⟩ else d
  dispatch : ∀ c sig, left.dispatch c sig =
    if sig = m.sig ∧ m.owner ∈ p.passed c sig then some m else p.dispatch c sig
  found : left.dispatch m.owner m.sig = some m
  refused : ∀ isStatic names, left.startMethod m isStatic names = (.error (.duplicateMethod m.owner m.sig), left)

theorem lingers_declaring (owned : (p.class? m.owner).isSome = true) (new : p.method? m = none) (isStatic : Bool) :
    p.Lingers m isStatic (p.declaring m isStatic) := by
  have declared : (p.declaring m isStatic).method? m = some (stub m isStatic) := by
    rw [method?_declaring owned new, if_pos rfl]
  refine ⟨new, declared, class?_declaring p m isStatic, dispatch_declaring owned new, ?_, ?_⟩
  · rw [dispatch_declaring owned new, if_pos]
    refine ⟨rfl, ?_⟩
    have unprovided : p.provides m.sig m.owner = false := by simp [provides, new]
    simp [passed, lineage, lineageWithin, unprovided]
  · intro isStatic' names
    exact startMethod_of_declared (by simp [declared])

end Program

namespace Session
variable {w w' : Workspace} {handle : String} {m : MethodRef} {isStatic : Bool} {names : Option (List String)}

theorem on_startMethod_error {error : Error} {p : Program}
    (failed : w.program.startMethod m isStatic names = (.error error, p)) :
    (startMethod handle m isStatic names).on w = (.error error, { w with program := p }) := by
  simp [startMethod, Steps.on_bind, modifyProgram, failed]

theorem on_startMethod_ok {p : Program} (started : w.program.startMethod m isStatic names = (.ok (), p)) :
    ∃ w', (startMethod handle m isStatic names).on w = (.ok (), w') := by
  simp [startMethod, Steps.on_bind, modifyProgram, bindMethod, started]

theorem on_startMethod_cases (w : Workspace) (handle : String) (m : MethodRef) (isStatic : Bool)
    (names : Option (List String)) :
    ((w.program.method? m).isSome = true ∧
      (startMethod handle m isStatic names).on w = (.error (.duplicateMethod m.owner m.sig), w)) ∨
    (w.program.method? m = none ∧ ∃ given, names = some given ∧ given.length ≠ m.arity ∧
      (startMethod handle m isStatic names).on w =
        (.error (.parameterNames m given.length m.arity), { w with program := w.program.declaring m isStatic })) ∨
    (w.program.method? m = none ∧ (∀ given, names = some given → given.length = m.arity) ∧
      ∃ w', (startMethod handle m isStatic names).on w = (.ok (), w')) := by
  cases there : w.program.method? m with
  | some decl => exact .inl ⟨rfl, on_startMethod_error (Program.startMethod_of_declared (by simp [there]))⟩
  | none =>
      right
      have begun := Program.startMethod_of_new there isStatic names
      by_cases count : (names.getD (Draft.defaultNames m)).length = m.arity
      · rw [if_neg (not_not.mpr count)] at begun
        refine .inr ⟨rfl, ?_, on_startMethod_ok begun⟩
        rintro given rfl
        exact count
      · rw [if_pos count] at begun
        -- Default names are as many as the parameters.
        cases names with
        | none => simp [Draft.defaultNames] at count
        | some given => exact .inl ⟨rfl, given, rfl, count, on_startMethod_error begun⟩

/-- Beginning a method of a class fails if the class declares it or the number of names is wrong. In the first case
nothing changes; in the second the method stays declared, and nothing else changes. -/
theorem failed_start_lingers (owned : (w.program.class? m.owner).isSome = true) :
    ((∃ error w', (startMethod handle m isStatic names).on w = (.error error, w')) ↔
      (w.program.method? m).isSome = true ∨ ∃ given, names = some given ∧ given.length ≠ m.arity) ∧
    ∀ error w', (startMethod handle m isStatic names).on w = (.error error, w') →
      ((w.program.method? m).isSome = true ∧ error = .duplicateMethod m.owner m.sig ∧ w' = w) ∨
      ∃ given p, names = some given ∧ error = .parameterNames m given.length m.arity ∧
        w' = { w with program := p } ∧ w.program.Lingers m isStatic p := by
  rcases on_startMethod_cases w handle m isStatic names with
    ⟨there, outcome⟩ | ⟨new, given, rfl, wrong, outcome⟩ | ⟨new, right, w', outcome⟩
  · refine ⟨iff_of_true ⟨_, _, outcome⟩ (.inl there), fun error w' failed => ?_⟩
    cases outcome.symm.trans failed
    exact .inl ⟨there, rfl, rfl⟩
  · refine ⟨iff_of_true ⟨_, _, outcome⟩ (.inr ⟨given, rfl, wrong⟩), fun error w' failed => ?_⟩
    cases outcome.symm.trans failed
    exact .inr ⟨given, _, rfl, rfl, rfl, Program.lingers_declaring owned new isStatic⟩
  · refine ⟨iff_of_false ?_ ?_, fun error w'' failed => ?_⟩
    · rintro ⟨error, w'', failed⟩
      cases outcome.symm.trans failed
    · rintro (there | ⟨given, rfl, wrong⟩)
      · simp [new] at there
      · exact wrong (right given rfl)
    · cases outcome.symm.trans failed

end Session

namespace Heirs

def base : ClassId := ⟨0, "Base"⟩

def main : ClassId := ⟨1, "Main"⟩

def sub : ClassId := ⟨2, "Sub"⟩

def sig : Subsignature := ⟨"f", [.int], .int⟩

def body : Body := ⟨⟨base, sig⟩, none, [], [.ret none], []⟩

def workspace : Workspace :=
  { Workspace.empty with
    program := ⟨[⟨base, none, [], false, false, [⟨sig, false, false, none, some body⟩]⟩,
      ⟨main, some base, [], false, false, []⟩, ⟨sub, some main, [], false, false, []⟩]⟩ }

def after : Workspace := ((Session.startMethod "g" ⟨main, sig⟩ false (some [])).on workspace).2

theorem heirs_cut_off : (workspace.program.class? main).isSome = true ∧
    (Session.startMethod "g" ⟨main, sig⟩ false (some [])).on workspace =
      (.error (.parameterNames ⟨main, sig⟩ 0 1), after) ∧
    after.program.dispatch sub sig = some ⟨main, sig⟩ ∧ after.program.hasBody ⟨main, sig⟩ = false := by
  have owned : (workspace.program.class? main).isSome = true := rfl
  have failed : (Session.startMethod "g" ⟨main, sig⟩ false (some [])).on workspace =
      (.error (.parameterNames ⟨main, sig⟩ 0 1), after) := rfl
  rcases (Session.failed_start_lingers owned).2 _ _ failed with ⟨there, -⟩ | ⟨given, p, -, -, same, lingers⟩
  · cases there
  · have left : after.program = p := by rw [same]
    refine ⟨owned, failed, ?_, ?_⟩ <;> rw [left]
    · exact (lingers.dispatch sub sig).trans (by decide)
    · simp [Program.hasBody, Program.body?, lingers.declared]

/-- A call that fails over the names does change what the class declares and what a subclass dispatches to, and with the
right names, which would have done before, the method is refused now. -/
theorem heirs_changed :
    (Session.startMethod "g" ⟨main, sig⟩ false (some [])).on workspace =
      (.error (.parameterNames ⟨main, sig⟩ 0 1), after) ∧
    (after.program.class? main).map (·.methods.length) ≠ (workspace.program.class? main).map (·.methods.length) ∧
    after.program.dispatch sub sig ≠ workspace.program.dispatch sub sig ∧
    (∃ w, (Session.startMethod "g" ⟨main, sig⟩ false (some ["x"])).on workspace = (.ok (), w)) ∧
    (Session.startMethod "g" ⟨main, sig⟩ false (some ["x"])).on after = (.error (.duplicateMethod main sig), after) :=
  ⟨rfl, by decide, by decide, ⟨_, rfl⟩, rfl⟩

end Heirs

end Dataflow
