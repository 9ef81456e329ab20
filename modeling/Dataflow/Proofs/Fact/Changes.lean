import Dataflow.Fact.Set
import Dataflow.Proofs.Fact.Semilattice

/-!
What the operations on facts tell about changes. Sets tell whether they have other elements than before, also where one
operation adds or removes many (`each_add`, `each_remove`); facts about constants tell whether some key has another
value, as tables too, as long as nothing is written undefined. What stays in a fact keeps its order, and only taking
over the contents of another fact brings in the order of that one (`changes_told`).
-/

namespace Dataflow

section SameOrder
variable {α : Type} [DecidableEq α] {l m : List α}

def SameOrder (l m : List α) : Prop := l.filter (· ∈ m) = m.filter (· ∈ l)

theorem SameOrder.symm (order : SameOrder l m) : SameOrder m l := Eq.symm order

theorem sameOrder_of_sublist (sub : l.Sublist m) (distinct : m.Nodup) : SameOrder l m := by
  have whole : l.filter (· ∈ m) = l := List.filter_eq_self.mpr fun a member => decide_eq_true (sub.subset member)
  have itself : l.filter (· ∈ l) = l := List.filter_eq_self.mpr fun a member => decide_eq_true member
  have kept := sub.filter (· ∈ l)
  rw [itself] at kept
  have short : (m.filter (· ∈ l)).length ≤ l.length :=
    List.Nodup.length_le_of_subset (distinct.filter _) fun a member => of_decide_eq_true (List.mem_filter.mp member).2
  exact whole.trans (kept.eq_of_length_le short)

end SameOrder

/-! ## Sets -/

theorem OrderedSet.sublist_insertAll {α : Type} [DecidableEq α] (s : OrderedSet α) (items : List α) :
    s.toList.Sublist (s.insertAll items).toList := by
  induction items generalizing s with
  | nil => exact List.Sublist.refl _
  | cons head tail ih =>
      have first : s.toList.Sublist (s.insert head).toList := by
        unfold insert
        split
        · exact List.Sublist.refl _
        · exact List.sublist_append_left _ _
      exact first.trans (ih (s.insert head))

namespace SetFact
variable {α : Type}

theorem each_cons (op : SetFact α → α → SetFact α × Bool) (s : SetFact α) (a : α) (items : List α) :
    each op s (a :: items) = ((each op (op s a).1 items).1, (op s a).2 || (each op (op s a).1 items).2) := by
  have from_any (flag : Bool) (t : SetFact α) :
      items.foldl (fun r a => ((op r.1 a).1, r.2 || (op r.1 a).2)) (t, flag) =
        ((each op t items).1, flag || (each op t items).2) := by
    induction items generalizing t flag with
    | nil => simp [each]
    | cons head tail ih =>
        have here : each op t (head :: tail) =
          tail.foldl (fun r a => ((op r.1 a).1, r.2 || (op r.1 a).2)) ((op t head).1, false || (op t head).2) := rfl
        rw [List.foldl_cons, here, ih, ih]
        simp [Bool.or_assoc]
  exact from_any _ _

variable [DecidableEq α]

structure Told (s : SetFact α) (change : SetFact α × Bool) : Prop where
  flag : change.2 = true ↔ ∃ a, ¬(a ∈ change.1 ↔ a ∈ s)
  order : SameOrder s.toList change.1.toList

structure TellsChanges (s : SetFact α) : Prop where
  add : ∀ a, Told s (s.add a) ∧ ∀ b, b ∈ (s.add a).1 ↔ b ∈ s ∨ b = a
  remove : ∀ a, Told s (s.remove a) ∧ ∀ b, b ∈ (s.remove a).1 ↔ b ∈ s ∧ b ≠ a
  removeAll : ∀ items, Told s (s.removeAll items) ∧ ∀ b, b ∈ (s.removeAll items).1 ↔ b ∈ s ∧ b ∉ items
  union : ∀ t, Told s (s.union t) ∧ ∀ b, b ∈ (s.union t).1 ↔ b ∈ s ∨ b ∈ t
  intersect : ∀ t, Told s (s.intersect t) ∧ ∀ b, b ∈ (s.intersect t).1 ↔ b ∈ s ∧ b ∈ t
  replace : ∀ t, ((s.replace t).2 = true ↔ ∃ a, ¬(a ∈ (s.replace t).1 ↔ a ∈ s)) ∧ (s.replace t).1.same t = true ∧
    (s.replace t).1.toList = if (s.replace t).2 then t.toList else s.toList

theorem each_add (s : SetFact α) (items : List α) :
    each add s items = (s.insertAll items, items.any fun a => !s.contains a) := by
  induction items generalizing s with
  | nil => rfl
  | cons head tail ih =>
      rw [each_cons, ih]
      -- If the head is new, the flag is set already, and later elements that equal it no longer matter.
      by_cases known : head ∈ s
      · have same : s.insert head = s := by simp [OrderedSet.insert, ← OrderedSet.mem_iff, known]
        simp [add, same, OrderedSet.insertAll]
      · have new : s.contains head = false := by simp [OrderedSet.contains, known]
        simp [add, new, OrderedSet.insertAll]

theorem unionWith_eq (s t : SetFact α) : s.unionWith t = s.insertAll t.toList := congrArg Prod.fst (each_add s t.toList)

theorem each_remove (s : SetFact α) (items : List α) :
    (each remove s items).1.toList = s.toList.filter (· ∉ items) ∧ (each remove s items).2 = items.any s.contains := by
  induction items generalizing s with
  | nil => simp [each]
  | cons head tail ih =>
      obtain ⟨left, flag⟩ := ih (s.erase head)
      have first : remove s head = (s.erase head, s.contains head) := rfl
      rw [each_cons, first, left, flag]
      constructor
      · simp [OrderedSet.erase, List.filter_filter, Bool.and_comm]
      · by_cases known : head ∈ s
        · simp [OrderedSet.contains, known]
        · have same : (s.erase head).contains = s.contains := by
            funext a
            simp only [OrderedSet.contains, OrderedSet.mem_erase]
            grind
          rw [same, List.any_cons]

theorem told_of_grown {s : SetFact α} {change : SetFact α × Bool} (sub : s.toList.Sublist change.1.toList)
    (flag : change.2 = true ↔ ∃ a ∈ change.1, a ∉ s) : Told s change where
  flag := by
    rw [flag]
    refine exists_congr fun a => ?_
    have kept : a ∈ s → a ∈ change.1 := fun member => sub.subset member
    tauto
  order := sameOrder_of_sublist sub change.1.nodup

theorem told_of_shrunk {s : SetFact α} {change : SetFact α × Bool} (sub : change.1.toList.Sublist s.toList)
    (flag : change.2 = true ↔ ∃ a ∈ s, a ∉ change.1) : Told s change where
  flag := by
    rw [flag]
    refine exists_congr fun a => ?_
    have before : a ∈ change.1 → a ∈ s := fun member => sub.subset member
    tauto
  order := (sameOrder_of_sublist sub s.nodup).symm

theorem add_told (s : SetFact α) (a : α) : Told s (s.add a) := by
  apply told_of_grown (s.sublist_insertAll [a])
  simp only [add, OrderedSet.mem_insert, OrderedSet.contains]
  grind

theorem remove_told (s : SetFact α) (a : α) : Told s (s.remove a) := by
  apply told_of_shrunk List.filter_sublist
  simp only [remove, OrderedSet.mem_erase, OrderedSet.contains]
  grind

theorem mem_removeAll {s : SetFact α} {items : List α} {b : α} : b ∈ (s.removeAll items).1 ↔ b ∈ s ∧ b ∉ items := by
  rw [OrderedSet.mem_iff, removeAll, (each_remove s items).1]
  simp [OrderedSet.mem_iff]

theorem removeAll_told (s : SetFact α) (items : List α) : Told s (s.removeAll items) := by
  obtain ⟨left, flag⟩ := each_remove s items
  apply told_of_shrunk
  · rw [removeAll, left]
    exact List.filter_sublist
  · simp only [mem_removeAll]
    rw [removeAll, flag]
    simp only [List.any_eq_true, OrderedSet.contains_iff]
    grind

theorem mem_union {s t : SetFact α} {b : α} : b ∈ (s.union t).1 ↔ b ∈ s ∨ b ∈ t := by
  rw [union, each_add]
  exact OrderedSet.mem_insertAll

theorem mem_meetAll {sets : List (SetFact α)} {b : α} : b ∈ lattice.meetAll sets ↔ ∃ s ∈ sets, b ∈ s := by
  have from_any (start : SetFact α) : b ∈ sets.foldl unionWith start ↔ b ∈ start ∨ ∃ s ∈ sets, b ∈ s := by
    induction sets generalizing start with
    | nil => simp
    | cons head tail ih =>
        rw [List.foldl_cons, ih, unionWith, mem_union]
        simp [or_assoc]
  exact (from_any OrderedSet.empty).trans (by simp)

theorem union_told (s t : SetFact α) : Told s (s.union t) := by
  apply told_of_grown
  · rw [union, each_add]
    exact s.sublist_insertAll t.toList
  · simp only [mem_union]
    simp only [union, each_add, List.any_eq_true, OrderedSet.contains, OrderedSet.mem_iff]
    grind

theorem intersect_told (s t : SetFact α) : Told s (s.intersect t) := by
  apply told_of_shrunk List.filter_sublist
  have apart : (!s.subset t) = true ↔ ∃ a ∈ s, a ∉ t := by
    rw [Bool.not_eq_true', ← Bool.not_eq_true, OrderedSet.subset_iff]
    simp
  simp only [intersect, apart, OrderedSet.mem_inter]
  grind

theorem replace_cases (s t : SetFact α) :
    (s.same t = true ∧ s.replace t = (s, false)) ∨ (s.same t = false ∧ s.replace t = (t, true)) := by
  unfold replace
  cases s.same t <;> simp

theorem tellsChanges (s : SetFact α) : s.TellsChanges where
  add a := ⟨add_told s a, fun _ => OrderedSet.mem_insert⟩
  remove a := ⟨remove_told s a, fun _ => OrderedSet.mem_erase⟩
  removeAll items := ⟨removeAll_told s items, fun _ => mem_removeAll⟩
  union t := ⟨union_told s t, fun _ => mem_union⟩
  intersect t := ⟨intersect_told s t, fun _ => OrderedSet.mem_inter⟩
  replace t := by
    rcases replace_cases s t with ⟨same, equal⟩ | ⟨other, equal⟩ <;> rw [equal]
    · simp [same]
    · have differs : ∃ a, ¬(a ∈ t ↔ a ∈ s) := by
        apply not_forall.mp
        intro alike
        rw [OrderedSet.same_iff.mpr fun a => (alike a).symm] at other
        cases other
      exact ⟨iff_of_true rfl differs, OrderedSet.same_iff.mpr fun _ => Iff.rfl, rfl⟩

end SetFact

/-! ## Facts about constants -/

/-- Changes of facts, among those that `P` holds of, tell whether some key has another value than before, and keys that
stay keep their order. -/
structure ChangesTold {F κ : Type} [DecidableEq κ] (P : F → Prop) (value : F → κ → Value) (keys : F → List κ)
    (same : F → F → Bool) (update : F → κ → Value → F × Bool) (replace : F → F → F × Bool) : Prop where
  written : ∀ f, P f → ∀ k v, P (update f k v).1 ∧ ∀ j, value (update f k v).1 j = if k = j then v else value f j
  update : ∀ f, P f → ∀ k v, ((update f k v).2 = true ↔ ∃ j, value (update f k v).1 j ≠ value f j) ∧
    SameOrder (keys f) (keys (update f k v).1)
  replaced : ∀ f g, P f → P g → P (replace f g).1 ∧ same (replace f g).1 g = true
  replace : ∀ f g, P f → P g → ((replace f g).2 = true ↔ ∃ j, value (replace f g).1 j ≠ value f j) ∧
    keys (replace f g).1 = if (replace f g).2 then keys g else keys f

namespace Constants
variable {κ : Type} [DecidableEq κ] {f g : Constants κ}

theorem Normal.update_flag (normal : f.Normal) (k : κ) (v : Value) : (f.update k v).2 = true ↔ v ≠ f.value k := by
  rw [update, value, OrderedMap.getD, OrderedMap.contains]
  cases found : f.get? k with
  | none => by_cases undefined : v = .undefined <;> simp [undefined]
  | some x =>
      have defined : x ≠ .undefined := fun undefined => normal k (undefined ▸ found)
      by_cases undefined : v = .undefined
      · simp [undefined, defined.symm]
      · by_cases same : x = v
        · simp [undefined, same]
        · simp [undefined, same, Ne.symm same]

theorem sameOrder_update (f : Constants κ) (k : κ) (v : Value) : SameOrder f.keys (f.update k v).1.keys := by
  unfold update
  split
  · have sub : (f.erase k).keys.Sublist f.keys := List.filter_sublist.map Prod.fst
    exact (sameOrder_of_sublist sub f.nodup).symm
  · split
    · exact rfl
    · have sub : f.keys.Sublist (f.insert k v).keys := by
        rw [OrderedMap.keys_insert]
        split
        · exact List.Sublist.refl _
        · exact List.sublist_append_left _ _
      exact sameOrder_of_sublist sub (f.insert k v).nodup

theorem replace_cases (f g : Constants κ) :
    (f.same g = true ∧ f.replace g = (f, false)) ∨ (f.same g = false ∧ f.replace g = (g, true)) := by
  unfold replace
  cases f.same g <;> simp

theorem changesTold : ChangesTold Normal value OrderedMap.keys OrderedMap.same (update (κ := κ)) replace where
  written f normal k v := ⟨normal.set k v, fun j => value_set f k j v⟩
  update f normal k v := by
    refine ⟨?_, sameOrder_update f k v⟩
    have written (j : κ) : (f.update k v).1.value j = if k = j then v else f.value j := value_set f k j v
    rw [normal.update_flag k v]
    simp only [written]
    grind
  replaced f g normal normal' := by
    rcases replace_cases f g with ⟨same, equal⟩ | ⟨other, equal⟩ <;> rw [equal]
    · exact ⟨normal, same⟩
    · exact ⟨normal', OrderedMap.same_iff.mpr fun _ => rfl⟩
  replace f g normal normal' := by
    rcases replace_cases f g with ⟨same, equal⟩ | ⟨other, equal⟩ <;> rw [equal]
    · simp
    · have differs : ∃ j, g.value j ≠ f.value j := by
        apply not_forall.mp
        intro alike
        rw [(same_iff_value normal normal').mpr (funext fun j => (alike j).symm)] at other
        cases other
      exact ⟨iff_of_true rfl differs, rfl⟩

end Constants

namespace Table
variable {κ : Type} [DecidableEq κ]

structure Normal (t : Table κ) : Prop where
  sort : t.sort = .constants
  defined : ∀ k, t.entries.get? k ≠ some none ∧ t.entries.get? k ≠ some (some .undefined)

theorem Normal.exists_constants {t : Table κ} (normal : t.Normal) :
    ∃ f : Constants κ, f.Normal ∧ t = .ofConstants f := by
  obtain ⟨sort, entries⟩ := t
  obtain ⟨rfl, defined⟩ := normal
  refine ⟨entries.mapValues fun _ v => v.getD .undefined, ?_, ?_⟩
  · intro k
    rw [OrderedMap.get?_mapValues]
    obtain ⟨given, known⟩ := defined k
    cases found : entries.get? k with
    | none => simp
    | some v => cases v <;> simp_all
  · refine congrArg (Table.mk .constants) (OrderedMap.eq_of_entries ?_)
    simp only [OrderedMap.mapValues, List.map_map]
    refine (List.map_id' _).symm.trans (List.map_congr_left fun e member => ?_)
    have given := (defined e.1).1
    rw [OrderedMap.get?_eq_some_iff.mpr member] at given
    cases value : e.2 with
    | none => simp [value] at given
    | some v => exact Prod.ext rfl (by simp [value])

theorem normal_ofConstants {f : Constants κ} (normal : f.Normal) : (ofConstants f).Normal where
  sort := rfl
  defined k := by
    rw [get?_ofConstants]
    have known := normal k
    cases found : f.get? k <;> simp_all

theorem changesTold : ChangesTold Normal value (fun t => t.entries.keys) same
    (fun t (k : κ) v => t.update k (some v)) replace where
  written t normal k v := by
    obtain ⟨f, defined, rfl⟩ := normal.exists_constants
    obtain ⟨kept, written⟩ := Constants.changesTold.written f defined k v
    rw [update_ofConstants, value_ofConstants, value_ofConstants]
    exact ⟨normal_ofConstants kept, written⟩
  update t normal k v := by
    obtain ⟨f, defined, rfl⟩ := normal.exists_constants
    rw [update_ofConstants, value_ofConstants, value_ofConstants, keys_ofConstants, keys_ofConstants]
    exact Constants.changesTold.update f defined k v
  replaced t u normal normal' := by
    obtain ⟨f, defined, rfl⟩ := normal.exists_constants
    obtain ⟨g, defined', rfl⟩ := normal'.exists_constants
    obtain ⟨kept, same⟩ := Constants.changesTold.replaced f g defined defined'
    rw [replace_ofConstants, same_ofConstants]
    exact ⟨normal_ofConstants kept, same⟩
  replace t u normal normal' := by
    obtain ⟨f, defined, rfl⟩ := normal.exists_constants
    obtain ⟨g, defined', rfl⟩ := normal'.exists_constants
    rw [replace_ofConstants, value_ofConstants, value_ofConstants, keys_ofConstants, keys_ofConstants,
      keys_ofConstants]
    exact Constants.changesTold.replace f g defined defined'

end Table

/-- What an operation on a fact tells is whether the fact changed: for every set and every argument, and for all facts
about constants in which nothing is written undefined. -/
theorem changes_told {α κ : Type} [DecidableEq α] [DecidableEq κ] :
    (∀ s : SetFact α, s.TellsChanges) ∧
      ChangesTold Constants.Normal Constants.value OrderedMap.keys OrderedMap.same
        (Constants.update (κ := κ)) Constants.replace ∧
      ChangesTold Table.Normal Table.value (fun t => t.entries.keys) Table.same
        (fun t (k : κ) v => t.update k (some v)) Table.replace :=
  ⟨SetFact.tellsChanges, Constants.changesTold, Table.changesTold⟩

namespace Notebook

def names : SetFact String := OrderedSet.ofList ["a", "b", "c"]

def known : Constants String := (Constants.set OrderedMap.empty "x" (.const 1)).set "y" .nac

def knownLater : Constants String := (Constants.set OrderedMap.empty "y" .nac).set "x" (.const 1)

theorem known_normal : known.Normal := (Constants.Normal.empty.set "x" (.const 1)).set "y" .nac

theorem knownLater_normal : knownLater.Normal := (Constants.Normal.empty.set "y" .nac).set "x" (.const 1)

theorem notebook_told : (known.Normal ∧ knownLater.Normal ∧ (Table.ofConstants known).Normal) ∧
    (∃ a, ¬(a ∈ (names.removeAll ["b", "b", "d"]).1 ↔ a ∈ names)) ∧
    (∃ j, (known.update "x" .undefined).1.value j ≠ known.value j) ∧
    ((known.replace knownLater).1.same knownLater = true ∧ (known.replace knownLater).1.keys = ["x", "y"]) ∧
    ∃ j, ((Table.ofConstants known).update "z" (some .nac)).1.value j ≠ (Table.ofConstants known).value j := by
  have table := Table.normal_ofConstants known_normal
  obtain ⟨sets, facts, tables⟩ := changes_told (α := String) (κ := String)
  refine ⟨⟨known_normal, knownLater_normal, table⟩, ?_, ?_, ⟨?_, ?_⟩, ?_⟩
  · exact ((sets names).removeAll ["b", "b", "d"]).1.flag.mp (by decide)
  · exact (facts.update known known_normal "x" .undefined).1.mp (by decide)
  · exact (facts.replaced known knownLater known_normal knownLater_normal).2
  · exact (facts.replace known knownLater known_normal knownLater_normal).2.trans (by decide)
  · exact (tables.update (.ofConstants known) table "z" .nac).1.mp (by decide)

end Notebook

end Dataflow
