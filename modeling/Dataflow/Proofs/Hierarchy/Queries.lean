import Dataflow.Proofs.Hierarchy.Index

/-!
What a hierarchy answers. Its classes are those it was made of and all they extend or implement, also where the links
run in a circle, and it lists a class below another once for each link (`ofClasses_exact`). Whether a class inherits
from another is found by going up with a stack of classes to look at (`seeks_isSubclass`).
-/

namespace Dataflow

open Search (Reaches Seeks)

namespace Program
variable {p : Program} {c d : ClassId}

theorem parents_listed (parent : d ∈ p.parents c) : d ∈ p.classes.flatMap ClassDecl.parents := by
  obtain ⟨decl, declared⟩ := Option.isSome_iff_exists.mp (declared_of_parent parent)
  rw [parents, declared] at parent
  exact List.mem_flatMap.mpr ⟨decl, List.mem_of_find?_eq_some declared, parent⟩

theorem seeks_isSubclass (declared : (p.class? c).isSome = true) (d : ClassId) :
    Seeks p.parents c [d] [] (p.isSubclass c d) := by
  have closed : ∀ a ∈ d :: p.classes.flatMap ClassDecl.parents, ∀ b ∈ p.parents a,
      b ∈ d :: p.classes.flatMap ClassDecl.parents :=
    fun _ _ _ parent => List.mem_cons_of_mem _ (parents_listed parent)
  obtain ⟨answer, seeks⟩ : ∃ answer, Seeks p.parents c [d] [] answer :=
    Search.exists_seeks closed c List.nodup_nil (by simp)
  have same : answer = p.isSubclass c d := by
    rw [Bool.eq_iff_iff, seeks.answer_iff (by simp) (by simp), isSubclass_iff declared]
    simp
  exact same ▸ seeks

end Program

namespace Hierarchy
variable {p : Program} {classes : List ClassId} {h : Hierarchy} {c d : ClassId} {decl : ClassDecl}

theorem Taken.count_index (taken : Taken p classes h []) (linked : p.Linked classes d)
    (declared : p.class? d = some decl) (link : Link) (c : ClassId) :
    ((h.index link).getD c []).count d = (decl.links link).count c := by
  rw [taken.listed, if_pos (taken.contains_iff.mpr linked), Program.links, declared]
  rfl

/-- As long as names tell the classes apart, taking them in ends, and the hierarchy has the classes and all they extend
or implement. Each of them is listed once below its superclass, and below an interface as often as it names it, in the
list for its own kind. Looking for a class from another upwards ends too, with the answer whether it is reached. -/
theorem ofClasses_exact (named : p.Named classes) : ∃ h, ofClasses p classes = some h ∧
    (∀ c, h.contains c = true ↔ p.Linked classes c) ∧
    (∀ c d decl, p.Linked classes c → p.Linked classes d → p.class? d = some decl →
      (h.subclasses.getD c []).count d = (if decl.super = some c then 1 else 0) ∧
      (h.subinterfaces.getD c []).count d = (if decl.isInterface then decl.interfaces.count c else 0) ∧
      (h.implementors.getD c []).count d = (if decl.isInterface then 0 else decl.interfaces.count c)) ∧
    ∀ c d, p.Linked classes c → p.Linked classes d →
      Seeks p.parents c [d] [] (p.isSubclass c d) ∧ (p.isSubclass c d = true ↔ Reaches p.parents d c) := by
  obtain ⟨h, made, taken⟩ := exists_ofClasses named
  refine ⟨h, made, fun c => taken.contains_iff, fun c d decl _ linked declared => ?_, fun c d linked _ => ?_⟩
  · refine ⟨(taken.count_index linked declared .subclass c).trans ?_,
      (taken.count_index linked declared .subinterface c).trans ?_,
      (taken.count_index linked declared .implementor c).trans ?_⟩
    · cases super : decl.super <;> simp [ClassDecl.links, super, List.count_singleton]
    · cases kind : decl.isInterface <;> simp [ClassDecl.links, kind]
    · cases kind : decl.isInterface <;> simp [ClassDecl.links, kind]
  · exact ⟨Program.seeks_isSubclass linked.1 d, Program.isSubclass_iff linked.1⟩

end Hierarchy

namespace Knot

def left : ClassId := ⟨0, "Left"⟩

def right : ClassId := ⟨1, "Right"⟩

def ring : ClassId := ⟨2, "Ring"⟩

def program : Program :=
  ⟨[⟨left, some right, [ring, ring], false, false, []⟩, ⟨right, some left, [], false, false, []⟩,
    ⟨ring, none, [ring], true, true, []⟩]⟩

theorem linked_all : ∀ c ∈ [left, right, ring], program.Linked [right, right] c := by
  have up : Reaches program.parents right left := .single (by decide)
  intro c member
  refine ⟨by revert c; decide, right, by simp, ?_⟩
  simp only [List.mem_cons, List.not_mem_nil, or_false] at member
  rcases member with rfl | rfl | rfl
  · exact up
  · exact .refl
  · exact up.tail (by decide)

theorem exact_knot : program.Named [right, right] ∧ (∀ c ∈ [left, right, ring], program.Linked [right, right] c) ∧
    ∃ h, Hierarchy.ofClasses program [right, right] = some h ∧ h.contains ring = true ∧
      (h.subclasses.getD left []).count right = 1 ∧ (h.subclasses.getD right []).count right = 0 ∧
      (h.implementors.getD ring []).count left = 2 ∧ (h.subinterfaces.getD ring []).count left = 0 ∧
      (h.subinterfaces.getD ring []).count ring = 1 ∧
      program.isSubclass left right = true ∧ Seeks program.parents right [ring] [] false := by
  have named : program.Named [right, right] := Program.named_of_nodup (by decide)
  have ofLeft := linked_all left (by simp)
  have ofRight := linked_all right (by simp)
  have ofRing := linked_all ring (by simp)
  obtain ⟨h, made, inside, listed, inherits⟩ := Hierarchy.ofClasses_exact named
  refine ⟨named, linked_all, h, made, (inside ring).mpr ofRing, (listed left right _ ofLeft ofRight rfl).1,
    (listed right right _ ofRight ofRight rfl).1, (listed ring left _ ofRing ofLeft rfl).2.2,
    (listed ring left _ ofRing ofLeft rfl).2.1, (listed ring ring _ ofRing ofRing rfl).2.1,
    (inherits left right ofLeft ofRight).2.mpr (.single (by decide)), ?_⟩
  have outside : program.isSubclass right ring = false := by decide
  exact outside ▸ (inherits right ring ofRight ofRing).1

end Knot

end Dataflow
