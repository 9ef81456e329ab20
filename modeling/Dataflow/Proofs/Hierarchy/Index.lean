import Dataflow.Hierarchy
import Dataflow.Proofs.Data.Maps
import Dataflow.Proofs.Data.Search
import Mathlib.Data.List.Count
import Mathlib.Data.List.Nodup

/-!
The index of classes that a hierarchy is. Classes are taken in one after the other, and what they extend or implement
is pending until it is taken in too. As long as names tell the classes apart, none replaces another, so that each is
taken in once and the pending ones run out (`exists_ofClasses`). The hierarchy then holds the classes it was made of
and all they extend or implement, and lists each of them as often as it has a link (`Taken`).
-/

namespace Dataflow

open Search (Reaches)

inductive Link where
  | subclass
  | subinterface
  | implementor

def ClassDecl.links (c : ClassDecl) : Link → List ClassId
  | .subclass => c.super.toList
  | .subinterface => if c.isInterface then c.interfaces else []
  | .implementor => if c.isInterface then [] else c.interfaces

namespace Program
variable {p : Program} {classes : List ClassId} {c d : ClassId}

def links (p : Program) (c : ClassId) (link : Link) : List ClassId := ((p.class? c).map (·.links link)).getD []

def isInterface (p : Program) (c : ClassId) : Bool := ((p.class? c).map (·.isInterface)).getD false

theorem id_of_class? {decl : ClassDecl} (declared : p.class? c = some decl) : decl.id = c := by
  simpa using List.find?_some declared

theorem mem_ids_of_class? (declared : (p.class? c).isSome = true) : c ∈ p.classes.map ClassDecl.id := by
  obtain ⟨decl, found⟩ := Option.isSome_iff_exists.mp declared
  exact List.mem_map.mpr ⟨decl, List.mem_of_find?_eq_some found, id_of_class? found⟩

theorem declared_of_parent (parent : d ∈ p.parents c) : (p.class? c).isSome = true := by
  cases found : p.class? c with
  | none => simp [parents, found] at parent
  | some _ => rfl

theorem declared_of_reaches (reaches : Reaches p.parents c d) (declared : (p.class? d).isSome = true) :
    (p.class? c).isSome = true := by
  cases reaches.cases_head with
  | inl same => exact same ▸ declared
  | inr step =>
      obtain ⟨_, parent, -⟩ := step
      exact declared_of_parent parent

def Linked (p : Program) (classes : List ClassId) (c : ClassId) : Prop :=
  (p.class? c).isSome = true ∧ ∃ r ∈ classes, Reaches p.parents r c

def Named (p : Program) (classes : List ClassId) : Prop :=
  ∀ c d, p.Linked classes c → p.Linked classes d → c.name = d.name → c = d

def Kinded (p : Program) (classes : List ClassId) : Prop :=
  ∀ c decl, p.Linked classes c → p.class? c = some decl →
    (∀ s ∈ decl.super, p.isInterface s = false) ∧ ∀ i ∈ decl.interfaces, p.isInterface i = true

theorem named_of_nodup (distinct : (p.classes.map fun decl => decl.id.name).Nodup) : p.Named classes := by
  rintro c d ⟨left, -⟩ ⟨right, -⟩ same
  obtain ⟨decl, found⟩ := Option.isSome_iff_exists.mp left
  obtain ⟨decl', found'⟩ := Option.isSome_iff_exists.mp right
  rw [← id_of_class? found, ← id_of_class? found'] at same ⊢
  rw [List.inj_on_of_nodup_map distinct (List.mem_of_find?_eq_some found) (List.mem_of_find?_eq_some found') same]

theorem kinded_of_forall (all : ∀ decl ∈ p.classes,
    (∀ s ∈ decl.super, p.isInterface s = false) ∧ ∀ i ∈ decl.interfaces, p.isInterface i = true) : p.Kinded classes :=
  fun _ decl _ found => all decl (List.mem_of_find?_eq_some found)

theorem isSubclass_iff (declared : (p.class? d).isSome = true) : p.isSubclass d c = true ↔ Reaches p.parents c d := by
  rw [isSubclass, decide_eq_true_iff]
  constructor
  · intro found
    obtain ⟨_, same, reaches⟩ := Search.reaches_of_mem_reach found
    rwa [List.mem_singleton.mp same] at reaches
  · intro reaches
    induction reaches with
    | refl => exact Search.start_mem_reach (List.mem_singleton_self c) List.mem_cons_self
    | tail _ parent ih =>
        exact Search.mem_reach_of_next (ih (declared_of_parent parent)) parent
          (List.mem_cons_of_mem _ (mem_ids_of_class? declared))

end Program

namespace Hierarchy
variable {p : Program} {classes pending : List ClassId} {h : Hierarchy} {c d k : ClassId}

def index (h : Hierarchy) : Link → OrderedMap ClassId (List ClassId)
  | .subclass => h.subclasses
  | .subinterface => h.subinterfaces
  | .implementor => h.implementors

theorem count_append (m : OrderedMap ClassId (List ClassId)) (key c k d : ClassId) :
    ((append m key c).getD k []).count d = (m.getD k []).count d + if c = d ∧ key = k then 1 else 0 := by
  by_cases here : key = k <;> by_cases same : c = d <;> simp [append, OrderedMap.getD, here, same]

theorem count_foldl_append (keys : List ClassId) (m : OrderedMap ClassId (List ClassId)) (c k d : ClassId) :
    ((keys.foldl (fun m key => append m key c) m).getD k []).count d =
      (m.getD k []).count d + if c = d then keys.count k else 0 := by
  induction keys generalizing m with
  | nil => simp
  | cons head tail ih =>
      rw [List.foldl_cons, ih, count_append, List.count_cons]
      by_cases same : c = d
      · by_cases here : head = k
        · simp [same, here]
          omega
        · simp [same, here]
      · simp [same]

theorem contains_add (decl : ClassDecl) :
    (h.add decl).contains c = true ↔ c = decl.id ∨ c.name ≠ decl.id.name ∧ h.contains c = true := by
  have names : (h.add decl).names = h.names.insert decl.id.name decl.id := by
    unfold add
    cases decl.super <;> cases decl.isInterface <;> rfl
  rw [contains, contains, names, OrderedMap.get?_insert]
  by_cases same : decl.id.name = c.name
  · simp [same, eq_comm]
  · have other : c ≠ decl.id := fun equal => same (equal ▸ rfl)
    simp [same, Ne.symm same, other]

theorem count_add (decl : ClassDecl) (link : Link) :
    (((h.add decl).index link).getD k []).count d =
      ((h.index link).getD k []).count d + if decl.id = d then (decl.links link).count k else 0 := by
  obtain ⟨id, super, interfaces, isInterface, isAbstract, methods⟩ := decl
  cases link with
  | subclass =>
      cases super with
      | none => cases isInterface <;> simp [add, index, ClassDecl.links]
      | some s =>
          have listed : (index (add h ⟨id, some s, interfaces, isInterface, isAbstract, methods⟩) .subclass) =
              append h.subclasses s id := by
            cases isInterface <;> rfl
          rw [listed, count_append]
          by_cases same : id = d <;> by_cases here : s = k <;> simp [index, ClassDecl.links, same, here]
  | subinterface =>
      cases isInterface <;> cases super <;> simp [add, index, ClassDecl.links, count_foldl_append]
  | implementor =>
      cases isInterface <;> cases super <;> simp [add, index, ClassDecl.links, count_foldl_append]

/-- The classes taken in so far, and how often each is listed below another. What a class in the hierarchy extends or
implements is in it or pending. -/
structure Taken (p : Program) (classes : List ClassId) (h : Hierarchy) (pending : List ClassId) : Prop where
  linked : ∀ c, h.contains c = true → p.Linked classes c
  ahead : ∀ c ∈ pending, ∃ r ∈ classes, Reaches p.parents r c
  given : ∀ c ∈ classes, (p.class? c).isSome = true → h.contains c = true ∨ c ∈ pending
  closed : ∀ c, h.contains c = true → ∀ d ∈ p.parents c, (p.class? d).isSome = true → h.contains d = true ∨ d ∈ pending
  listed : ∀ link k c, ((h.index link).getD k []).count c = if h.contains c then (p.links c link).count k else 0

theorem taken_empty (p : Program) (classes : List ClassId) : Taken p classes empty classes := by
  constructor
  · simp [empty, contains]
  · exact fun c member => ⟨c, member, .refl⟩
  · exact fun c member _ => .inr member
  · simp [empty, contains]
  · intro link k c
    cases link <;> simp [empty, contains, index, OrderedMap.getD]

theorem Taken.pass (taken : Taken p classes h (c :: pending))
    (settled : h.contains c = true ∨ (p.class? c).isSome = false) : Taken p classes h pending := by
  have moved {d : ClassId} (declared : (p.class? d).isSome = true) (known : h.contains d = true ∨ d ∈ c :: pending) :
      h.contains d = true ∨ d ∈ pending := by
    rcases known with inside | listed
    · exact .inl inside
    · rcases List.mem_cons.mp listed with rfl | later
      · exact .inl (settled.resolve_right (by simp [declared]))
      · exact .inr later
  exact { taken with
    ahead := fun d member => taken.ahead d (List.mem_cons_of_mem _ member)
    given := fun d member declared => moved declared (taken.given d member declared)
    closed := fun d inside e parent declared => moved declared (taken.closed d inside e parent declared) }

theorem Taken.contains_add_iff (taken : Taken p classes h (c :: pending)) (named : p.Named classes) {decl : ClassDecl}
    (declared : p.class? c = some decl) : (h.add decl).contains d = true ↔ d = c ∨ h.contains d = true := by
  have own : p.Linked classes c := ⟨by simp [declared], taken.ahead c List.mem_cons_self⟩
  rw [contains_add, Program.id_of_class? declared]
  constructor
  · exact Or.imp_right And.right
  · rintro (same | inside)
    · exact .inl same
    · by_cases same : d.name = c.name
      · exact .inl (named d c (taken.linked d inside) own same)
      · exact .inr ⟨same, inside⟩

theorem Taken.add (taken : Taken p classes h (c :: pending)) (named : p.Named classes) {decl : ClassDecl}
    (declared : p.class? c = some decl) (fresh : h.contains c = false) :
    Taken p classes (h.add decl) (pending ++ decl.parents) := by
  have inside {d : ClassId} : (h.add decl).contains d = true ↔ d = c ∨ h.contains d = true :=
    taken.contains_add_iff named declared
  have parents : p.parents c = decl.parents := by simp [Program.parents, declared]
  have moved {d : ClassId} (known : h.contains d = true ∨ d ∈ c :: pending) :
      (h.add decl).contains d = true ∨ d ∈ pending ++ decl.parents := by
    rcases known with before | listed
    · exact .inl (inside.mpr (.inr before))
    · rcases List.mem_cons.mp listed with here | later
      · exact .inl (inside.mpr (.inl here))
      · exact .inr (List.mem_append_left _ later)
  constructor
  · intro d member
    rcases inside.mp member with rfl | before
    · exact ⟨by simp [declared], taken.ahead d List.mem_cons_self⟩
    · exact taken.linked d before
  · intro d member
    rcases List.mem_append.mp member with later | parent
    · exact taken.ahead d (List.mem_cons_of_mem _ later)
    · obtain ⟨r, root, reaches⟩ := taken.ahead c List.mem_cons_self
      exact ⟨r, root, reaches.tail (parents ▸ parent)⟩
  · exact fun d member declared => moved (taken.given d member declared)
  · intro d member e parent declared
    rcases inside.mp member with rfl | before
    · exact .inr (List.mem_append_right _ (parents ▸ parent))
    · exact moved (taken.closed d before e parent declared)
  · intro link k d
    have links : p.links c link = decl.links link := by simp [Program.links, declared]
    rw [count_add, Program.id_of_class? declared, taken.listed]
    by_cases here : c = d
    · subst here
      rw [fresh, if_pos rfl, if_pos (inside.mpr (.inl rfl)), links]
      simp
    · have same : (h.add decl).contains d = h.contains d := by
        rw [Bool.eq_iff_iff, inside, or_iff_right (Ne.symm here)]
      rw [if_neg here, same, Nat.add_zero]

theorem addAll_nil (p : Program) (h : Hierarchy) : addAll p h [] = some h := Iteration.run_of_inl rfl

theorem addAll_cons (p : Program) (h : Hierarchy) (c : ClassId) (pending : List ClassId) :
    addAll p h (c :: pending) = addAll p (h.takeIn p c).1 (pending ++ (h.takeIn p c).2) := Iteration.run_of_inr rfl

/-- The pending classes run out: one that is in the hierarchy adds nothing to them, and others are taken in once. -/
theorem exists_addAll (named : p.Named classes) (taken : Taken p classes h pending) :
    ∃ full, addAll p h pending = some full ∧ Taken p classes full [] := by
  obtain ⟨n, size⟩ : ∃ n, (p.classes.filter fun decl => !h.contains decl.id).length = n := ⟨_, rfl⟩
  induction n using Nat.strongRecOn generalizing h pending with
  | ind n fewer =>
      induction pending with
      | nil => exact ⟨h, addAll_nil p h, taken⟩
      | cons c pending ih =>
          rw [addAll_cons, takeIn]
          by_cases inside : h.contains c = true
          · simpa [inside] using ih (taken.pass (.inl inside))
          · cases declared : p.class? c with
            | none => simpa [inside, declared] using ih (taken.pass (.inr (by simp [declared])))
            | some decl =>
                have fresh : h.contains c = false := by simpa using inside
                have taken' := taken.add named declared fresh
                -- one class less is outside
                have outside : (p.classes.filter fun decl' => !(h.add decl).contains decl'.id) =
                    (p.classes.filter fun decl' => !h.contains decl'.id).filter (·.id ≠ c) := by
                  rw [List.filter_filter]
                  refine List.filter_congr fun other _ => ?_
                  rw [Bool.eq_iff_iff]
                  simpa [not_or] using not_congr (taken.contains_add_iff named declared)
                have less : (p.classes.filter fun decl' => !(h.add decl).contains decl'.id).length < n := by
                  rw [outside, ← size, List.length_filter_lt_length_iff_exists]
                  refine ⟨decl, List.mem_filter.mpr ⟨List.mem_of_find?_eq_some declared, ?_⟩, ?_⟩
                  · simp [Program.id_of_class? declared, fresh]
                  · simp [Program.id_of_class? declared]
                simpa [fresh] using fewer _ less taken' rfl

theorem exists_ofClasses (named : p.Named classes) :
    ∃ h, ofClasses p classes = some h ∧ Taken p classes h [] :=
  exists_addAll named (taken_empty p classes)

/-! ## Complete hierarchies -/

theorem Taken.contains_iff (taken : Taken p classes h []) : h.contains c = true ↔ p.Linked classes c := by
  constructor
  · exact taken.linked c
  · rintro ⟨declared, r, root, reaches⟩
    induction reaches with
    | refl => simpa using taken.given r root declared
    | tail _ parent ih => simpa using taken.closed _ (ih (Program.declared_of_parent parent)) _ parent declared

theorem Taken.mem_index_iff (taken : Taken p classes h pending) {link : Link} :
    d ∈ (h.index link).getD c [] ↔ h.contains d = true ∧ c ∈ p.links d link := by
  rw [← List.count_pos_iff, ← List.count_pos_iff, taken.listed]
  split <;> simp [*]

theorem below_eq (h : Hierarchy) (p : Program) (c : ClassId) :
    h.below p c = if p.isInterface c then (h.index .subinterface).getD c [] ++ (h.index .implementor).getD c []
      else (h.index .subclass).getD c [] := rfl

def Over (h : Hierarchy) (p : Program) : Prop :=
  ∀ link c, ∀ d ∈ (h.index link).getD c [], (p.class? d).isSome = true

theorem Taken.over_program (taken : Taken p classes h pending) : h.Over p :=
  fun _ _ d listed => (taken.linked d (taken.mem_index_iff.mp listed).1).1

theorem Over.below (lists : h.Over p) (below : d ∈ h.below p c) : (p.class? d).isSome = true := by
  rw [below_eq] at below
  split at below
  · exact (List.mem_append.mp below).elim (lists .subinterface c d) (lists .implementor c d)
  · exact lists .subclass c d below

theorem over_takeIn (lists : h.Over p) (c : ClassId) : (h.takeIn p c).1.Over p := by
  rw [takeIn]
  split
  · exact lists
  · cases declared : p.class? c with
    | none => exact lists
    | some decl =>
        intro link k d listed
        by_cases own : decl.id = d
        · rw [← own, Program.id_of_class? declared, declared]
          rfl
        · rw [← List.count_pos_iff, count_add, if_neg own, Nat.add_zero, List.count_pos_iff] at listed
          exact lists link k d listed

theorem over_ofClasses (made : ofClasses p classes = some h) : h.Over p := by
  refine Iteration.induct (motive := fun now full => now.1.Over p → full.Over p) ?_ ?_ made fun link c d listed => ?_
  · rintro ⟨h, pending⟩ full ends lists
    cases pending with
    | nil => exact Sum.inl.inj ends ▸ lists
    | cons c pending => cases ends
  · rintro ⟨h, pending⟩ next full goes ih lists
    cases pending with
    | nil => cases goes
    | cons c pending =>
        obtain rfl := Sum.inr.inj goes
        exact ih (over_takeIn lists c)
  · cases link <;> simp [index, empty, OrderedMap.getD] at listed

theorem Taken.mem_below_iff (taken : Taken p classes h pending) (kinded : p.Kinded classes) :
    d ∈ h.below p c ↔ h.contains d = true ∧ c ∈ p.parents d := by
  rw [below_eq]
  by_cases inside : h.contains d = true
  · have linked := taken.linked d inside
    obtain ⟨decl, declared⟩ := Option.isSome_iff_exists.mp linked.1
    obtain ⟨super, interfaces⟩ := kinded d decl linked declared
    have links (link : Link) : p.links d link = decl.links link := by simp [Program.links, declared]
    have parents : p.parents d = decl.super.toList ++ decl.interfaces := by
      simp [Program.parents, declared, ClassDecl.parents]
    rw [parents]
    cases kind : p.isInterface c with
    | true =>
        have other : decl.super ≠ some c := fun same => by simp [super c same] at kind
        cases own : decl.isInterface <;>
          simp [taken.mem_index_iff, inside, links, ClassDecl.links, own, other]
    | false =>
        have other : c ∉ decl.interfaces := fun member => by simp [interfaces c member] at kind
        simp [taken.mem_index_iff, inside, links, ClassDecl.links, other]
  · cases p.isInterface c <;> simp [taken.mem_index_iff, inside]

theorem Taken.reaches_below_iff (taken : Taken p classes h []) (kinded : p.Kinded classes)
    (inside : h.contains d = true) : Reaches (h.below p) d c ↔ h.contains c = true ∧ Reaches p.parents c d := by
  constructor
  · intro reaches
    induction reaches with
    | refl => exact ⟨inside, .refl⟩
    | tail _ below ih =>
        obtain ⟨inside, parent⟩ := (taken.mem_below_iff kinded).mp below
        exact ⟨inside, .head parent ih.2⟩
  · rintro ⟨inside', reaches⟩
    induction reaches using Relation.ReflTransGen.head_induction_on with
    | refl => exact .refl
    | head parent rest ih =>
        have declared := Program.declared_of_reaches rest (taken.linked d inside).1
        have above : h.contains _ = true ∨ _ ∈ [] := taken.closed _ inside' _ parent declared
        exact (ih (by simpa using above)).tail ((taken.mem_below_iff kinded).mpr ⟨inside', parent⟩)

end Hierarchy

end Dataflow
