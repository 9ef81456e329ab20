import Dataflow.CallGraph.Resolve
import Dataflow.Proofs.Hierarchy.Index

/-!
What calls may run. Where no class is among its own superclasses, dispatching comes to an end at the first method up
the lineage that is not abstract, or at the top (`dispatches_dispatch`). For a virtual call the search goes down the
lists that a hierarchy keeps, while inheritance is told by going up the declarations; both find the same classes
(`targets_exact`).
-/

namespace Dataflow

namespace Program
variable {p : Program} {sig : Subsignature} {c : ClassId}

/-! ## Walks up -/

def Acyclic (p : Program) : Prop := ∀ c, ¬ Relation.TransGen (fun c s => p.super? c = some s) c c

theorem acyclic_of_stamps (older : ∀ decl ∈ p.classes, ∀ s ∈ decl.super, s.stamp < decl.id.stamp) : p.Acyclic := by
  have step {c s : ClassId} (super : p.super? c = some s) : s.stamp < c.stamp := by
    obtain ⟨decl, declared, super⟩ := Option.bind_eq_some_iff.mp super
    rw [← id_of_class? declared]
    exact older decl (List.mem_of_find?_eq_some declared) s super
  intro c cycle
  have less : ∀ d, Relation.TransGen (fun c s => p.super? c = some s) c d → d.stamp < c.stamp := by
    intro d path
    induction path with
    | single super => exact step super
    | tail _ super ih => exact Nat.lt_trans (step super) ih
  exact Nat.lt_irrefl _ (less c cycle)

def Provides (p : Program) (c : ClassId) (sig : Subsignature) : Prop :=
  ∃ m, p.method? ⟨c, sig⟩ = some m ∧ m.isAbstract = false

inductive Dispatches (p : Program) (sig : Subsignature) : ClassId → Option MethodRef → Prop where
  | here {c : ClassId} : p.Provides c sig → Dispatches p sig c (some ⟨c, sig⟩)
  | up {c s : ClassId} {found : Option MethodRef} :
      ¬ p.Provides c sig → p.super? c = some s → Dispatches p sig s found → Dispatches p sig c found
  | top {c : ClassId} : ¬ p.Provides c sig → p.super? c = none → Dispatches p sig c none

theorem provides_iff : (match p.method? ⟨c, sig⟩ with
    | some m => !m.isAbstract
    | none => false) = true ↔ p.Provides c sig := by
  unfold Provides
  cases p.method? ⟨c, sig⟩ <;> simp

/-- A limit that is longer than what can still come is enough; `behind` are the classes that were passed. -/
theorem dispatches_within (acyclic : p.Acyclic) {limit : Nat} {behind : List ClassId} (distinct : behind.Nodup)
    (declared : ∀ b ∈ behind, (p.class? b).isSome = true)
    (leads : ∀ b ∈ behind, Relation.TransGen (fun c s => p.super? c = some s) b c)
    (enough : p.classes.length < limit + behind.length) :
    p.Dispatches sig c (((p.lineageWithin limit c).find? fun d =>
      match p.method? ⟨d, sig⟩ with
      | some m => !m.isAbstract
      | none => false).map (⟨·, sig⟩)) := by
  induction limit generalizing c behind with
  | zero =>
      have shorter := distinct.length_le_of_subset fun b passed => mem_ids_of_class? (declared b passed)
      rw [List.length_map] at shorter
      omega
  | succ limit ih =>
      rw [lineageWithin, List.find?_cons]
      by_cases provides : p.Provides c sig
      · rw [provides_iff.mpr provides]
        exact .here provides
      · rw [Bool.eq_false_iff.mpr fun found => provides (provides_iff.mp found)]
        cases super : p.super? c with
        | none => exact .top provides super
        | some s =>
            have known : (p.class? c).isSome = true := by
              cases found : p.class? c with
              | none => simp [super?, found] at super
              | some _ => rfl
            have distinct' : (c :: behind).Nodup :=
              List.nodup_cons.mpr ⟨fun passed => acyclic c (leads c passed), distinct⟩
            refine .up provides super (ih distinct' ?_ ?_ ?_)
            · exact List.forall_mem_cons.mpr ⟨known, declared⟩
            · exact List.forall_mem_cons.mpr ⟨.single super, fun b passed => (leads b passed).tail super⟩
            · simp only [List.length_cons]
              omega

theorem dispatches_dispatch (acyclic : p.Acyclic) (c : ClassId) (sig : Subsignature) :
    p.Dispatches sig c (p.dispatch c sig) :=
  dispatches_within acyclic List.nodup_nil (by simp) (by simp) (by simp)

/-! ## Searches down -/

theorem mem_classes_below_iff {classes : List ClassId} {h : Hierarchy} {d : ClassId} (taken : h.Taken p classes [])
    (kinded : p.Kinded classes) (inside : h.contains d = true) :
    c ∈ Search.reach (h.below p) (d :: p.classes.map ClassDecl.id) [d] ↔
      h.contains c = true ∧ p.isSubclass d c = true := by
  have declared := (taken.linked d inside).1
  rw [isSubclass_iff declared, ← taken.reaches_below_iff kinded inside, Search.mem_reach_iff]
  · simp
  · exact fun a _ b below => List.mem_cons_of_mem _ (mem_ids_of_class? (taken.over_program.below below))
  · simp

end Program

/-- A hierarchy of classes with distinct names can be made, and a virtual or interface call on one of its classes may
run just the methods to which the classes dispatch that are this class or inherit from it. -/
theorem Program.targets_exact {p : Program} {classes : List ClassId} (named : p.Named classes)
    (kinded : p.Kinded classes) :
    ∃ h, Hierarchy.ofClasses p classes = some h ∧ ∀ call : Call, call.kind = .virtual ∨ call.kind = .interface →
      h.contains call.target.owner = true → ∃ ms, p.targets (some h) call = .ok ms ∧ ms.Nodup ∧
        ∀ m, m ∈ ms ↔ ∃ c, h.contains c = true ∧ p.isSubclass call.target.owner c = true ∧
          p.dispatch c call.target.sig = some m := by
  obtain ⟨h, made, taken⟩ := Hierarchy.exists_ofClasses named
  refine ⟨h, made, fun call kind inside => ?_⟩
  have targets : p.targets (some h) call = .ok (OrderedSet.distinct ((Search.reach (h.below p)
      (call.target.owner :: p.classes.map ClassDecl.id) [call.target.owner]).filterMap fun c =>
        p.dispatch c call.target.sig)) := by
    rcases kind with kind | kind <;> rw [targets, kind]
  refine ⟨_, targets, OrderedSet.distinct_nodup _, fun m => ?_⟩
  rw [OrderedSet.mem_distinct, List.mem_filterMap]
  refine exists_congr fun c => ?_
  rw [mem_classes_below_iff taken kinded inside, and_assoc]

namespace Shapes

def main : ClassId := ⟨0, "Main"⟩

def shape : ClassId := ⟨1, "Shape"⟩

def solid : ClassId := ⟨2, "Solid"⟩

def square : ClassId := ⟨3, "Square"⟩

def tile : ClassId := ⟨4, "Tile"⟩

def area : Subsignature := ⟨"area", [], .int⟩

def grow : MethodRef := ⟨main, ⟨"grow", [.ref "Shape"], .int⟩⟩

def ask : Call := ⟨.interface, ⟨shape, area⟩, [], some ⟨"s", .ref "Shape", some grow, 0⟩⟩

def growBody : Body where
  method := grow
  this := none
  params := [⟨"s", .ref "Shape", some grow, 0⟩]
  stmts := [.invoke ask (some ⟨"x", .int, some grow, 1⟩), .ret (some ⟨"x", .int, some grow, 1⟩)]
  vars := [⟨"s", .ref "Shape", some grow, 0⟩, ⟨"x", .int, some grow, 1⟩]

def squareBody : Body where
  method := ⟨square, area⟩
  this := some ⟨"this", .ref "Square", some ⟨square, area⟩, 0⟩
  params := []
  stmts := [.invoke ⟨.static, grow, [⟨"this", .ref "Square", some ⟨square, area⟩, 0⟩], none⟩ none, .ret none]
  vars := [⟨"this", .ref "Square", some ⟨square, area⟩, 0⟩]

def tileBody : Body where
  method := ⟨tile, area⟩
  this := some ⟨"this", .ref "Tile", some ⟨tile, area⟩, 0⟩
  params := []
  stmts := [.ret none]
  vars := [⟨"this", .ref "Tile", some ⟨tile, area⟩, 0⟩]

def mainDecl : ClassDecl := ⟨main, none, [], false, false, [⟨grow.sig, true, false, none, some growBody⟩]⟩

def shapeDecl : ClassDecl := ⟨shape, none, [], true, true, [⟨area, false, true, none, none⟩]⟩

def solidDecl : ClassDecl := ⟨solid, none, [shape], true, true, []⟩

def squareDecl : ClassDecl := ⟨square, none, [shape], false, false, [⟨area, false, false, none, some squareBody⟩]⟩

def tileDecl : ClassDecl := ⟨tile, some square, [solid], false, false, [⟨area, false, false, none, some tileBody⟩]⟩

def program : Program := ⟨[mainDecl, shapeDecl, solidDecl, squareDecl, tileDecl]⟩

def hierarchy : Hierarchy := (((Hierarchy.empty.add tileDecl).add squareDecl).add solidDecl).add shapeDecl

theorem ofClasses_tile : Hierarchy.ofClasses program [tile] = some hierarchy := by
  have step {h h' : Hierarchy} {c : ClassId} {pending parents : List ClassId}
      (taken : h.takeIn program c = (h', parents)) :
      Hierarchy.addAll program h (c :: pending) = Hierarchy.addAll program h' (pending ++ parents) := by
    rw [Hierarchy.addAll_cons, taken]
  calc
    Hierarchy.addAll program .empty [tile]
    _ = Hierarchy.addAll program (Hierarchy.empty.add tileDecl) [square, solid] := step rfl
    _ = Hierarchy.addAll program ((Hierarchy.empty.add tileDecl).add squareDecl) [solid, shape] := step rfl
    _ = Hierarchy.addAll program (((Hierarchy.empty.add tileDecl).add squareDecl).add solidDecl) [shape, shape] :=
      step rfl
    _ = Hierarchy.addAll program hierarchy [shape] := step rfl
    _ = Hierarchy.addAll program hierarchy [] := step rfl
    _ = some hierarchy := Hierarchy.addAll_nil program hierarchy

theorem targets_ask : (program.Named [tile] ∧ program.Kinded [tile]) ∧
    ∃ h, Hierarchy.ofClasses program [tile] = some h ∧ h.contains shape = true ∧
      ∃ ms, program.targets (some h) ask = .ok ms ∧ ms.Nodup ∧ ⟨square, area⟩ ∈ ms ∧ ⟨tile, area⟩ ∈ ms ∧ grow ∉ ms := by
  have named : program.Named [tile] := Program.named_of_nodup (by decide)
  have kinded : program.Kinded [tile] := Program.kinded_of_forall (by decide)
  obtain ⟨h, made, runs⟩ := Program.targets_exact named kinded
  obtain rfl : hierarchy = h := Option.some.inj (ofClasses_tile.symm.trans made)
  obtain ⟨ms, told, distinct, member⟩ := runs ask (.inr rfl) (by decide)
  refine ⟨⟨named, kinded⟩, hierarchy, made, by decide, ms, told, distinct, ?_, ?_, fun grown => ?_⟩
  · exact (member _).mpr ⟨square, by decide, by decide, rfl⟩
  · exact (member _).mpr ⟨tile, by decide, by decide, rfl⟩
  · obtain ⟨c, -, -, runs⟩ := (member _).mp grown
    obtain ⟨d, -, same⟩ := Option.map_eq_some_iff.mp runs
    have other : area ≠ grow.sig := by decide
    exact other (congrArg MethodRef.sig same)

end Shapes

end Dataflow
