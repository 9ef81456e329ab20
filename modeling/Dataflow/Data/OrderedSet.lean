/-!
Finite sets that remember the order in which their elements came. An element keeps its place while it
stays; removed and added again it moves to the end. Two sets are the `same` when they have the same
elements, whatever their order.
-/

namespace Dataflow

structure OrderedSet (α : Type) where
  toList : List α
  nodup : toList.Nodup

namespace OrderedSet
variable {α : Type}

instance : Membership α (OrderedSet α) := ⟨fun s a => a ∈ s.toList⟩

theorem mem_iff {s : OrderedSet α} {a : α} : a ∈ s ↔ a ∈ s.toList := Iff.rfl

def empty : OrderedSet α := ⟨[], List.nodup_nil⟩

instance : Inhabited (OrderedSet α) := ⟨empty⟩

@[simp] theorem not_mem_empty (a : α) : a ∉ (empty : OrderedSet α) := by
  simp [mem_iff, empty]

def size (s : OrderedSet α) : Nat := s.toList.length

variable [DecidableEq α]

instance (s : OrderedSet α) (a : α) : Decidable (a ∈ s) :=
  inferInstanceAs (Decidable (a ∈ s.toList))

def contains (s : OrderedSet α) (a : α) : Bool := decide (a ∈ s)

@[simp] theorem contains_iff {s : OrderedSet α} {a : α} : s.contains a = true ↔ a ∈ s := by
  simp [contains]

def insert (s : OrderedSet α) (a : α) : OrderedSet α :=
  if h : a ∈ s.toList then s
  else ⟨s.toList ++ [a], by
    rw [List.nodup_append]
    refine ⟨s.nodup, by simp, ?_⟩
    intro x hx y hy equal
    simp only [List.mem_singleton] at hy
    exact h (hy ▸ equal ▸ hx)⟩

@[simp] theorem mem_insert {s : OrderedSet α} {a b : α} : b ∈ s.insert a ↔ b ∈ s ∨ b = a := by
  simp only [mem_iff, insert]
  split
  · next h => exact ⟨Or.inl, fun o => o.elim id fun e => e ▸ h⟩
  · simp

def erase (s : OrderedSet α) (a : α) : OrderedSet α :=
  ⟨s.toList.filter (· ≠ a), s.nodup.filter _⟩

@[simp] theorem mem_erase {s : OrderedSet α} {a b : α} : b ∈ s.erase a ↔ b ∈ s ∧ b ≠ a := by
  simp [mem_iff, erase]

def insertAll (s : OrderedSet α) (items : List α) : OrderedSet α :=
  items.foldl insert s

@[simp] theorem mem_insertAll {s : OrderedSet α} {items : List α} {b : α} :
    b ∈ s.insertAll items ↔ b ∈ s ∨ b ∈ items := by
  induction items generalizing s with
  | nil => simp [insertAll]
  | cons head tail ih =>
      simp only [insertAll, List.foldl_cons, List.mem_cons] at ih ⊢
      rw [ih, mem_insert, or_assoc]

def ofList (items : List α) : OrderedSet α := empty.insertAll items

@[simp] theorem mem_ofList {items : List α} {b : α} : b ∈ ofList items ↔ b ∈ items := by
  simp [ofList]

def distinct (items : List α) : List α := (ofList items).toList

@[simp] theorem mem_distinct {items : List α} {a : α} : a ∈ distinct items ↔ a ∈ items := by
  rw [distinct, ← mem_iff, mem_ofList]

theorem toList_insertAll (s : OrderedSet α) (items : List α) :
    (s.insertAll items).toList = List.eraseDupsBy.loop (· == ·) items s.toList.reverse := by
  induction items generalizing s with
  | nil => simp [insertAll, List.eraseDupsBy.loop]
  | cons head tail ih =>
      have next : s.insertAll (head :: tail) = (s.insert head).insertAll tail := rfl
      have any : s.toList.reverse.any (head == ·) = decide (head ∈ s.toList) := by
        rw [Bool.eq_iff_iff]
        simp
      rw [next, ih, List.eraseDupsBy.loop, any]
      by_cases known : head ∈ s.toList <;> simp [insert, known]

theorem distinct_eq_eraseDups (items : List α) : distinct items = items.eraseDups := toList_insertAll empty items

theorem distinct_nodup (items : List α) : (distinct items).Nodup := (ofList items).nodup

def inter (s t : OrderedSet α) : OrderedSet α :=
  ⟨s.toList.filter t.contains, s.nodup.filter _⟩

@[simp] theorem mem_inter {s t : OrderedSet α} {b : α} : b ∈ s.inter t ↔ b ∈ s ∧ b ∈ t := by
  simp [mem_iff, inter, contains]

def subset (s t : OrderedSet α) : Bool := s.toList.all t.contains

theorem subset_iff {s t : OrderedSet α} : s.subset t = true ↔ ∀ a ∈ s, a ∈ t := by
  simp [subset, mem_iff, contains]

def same (s t : OrderedSet α) : Bool := s.size == t.size && s.subset t

theorem same_iff {s t : OrderedSet α} : s.same t = true ↔ ∀ a, a ∈ s ↔ a ∈ t := by
  simp only [same, Bool.and_eq_true, beq_iff_eq, subset_iff, size]
  constructor
  · rintro ⟨length, sub⟩ a
    refine ⟨sub a, fun inT => Classical.byContradiction fun notInS => ?_⟩
    have longer := (List.nodup_cons.mpr ⟨notInS, s.nodup⟩).length_le_of_subset
      (fun b hb => (List.mem_cons.mp hb).elim (fun e => e ▸ inT) (sub b))
    simp only [List.length_cons] at longer
    omega
  · intro ext
    exact ⟨Nat.le_antisymm (s.nodup.length_le_of_subset fun a h => (ext a).mp h)
      (t.nodup.length_le_of_subset fun a h => (ext a).mpr h), fun a h => (ext a).mp h⟩

end OrderedSet

end Dataflow
