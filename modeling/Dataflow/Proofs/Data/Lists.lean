import Mathlib.Data.List.Forall2
import Mathlib.Data.List.Induction
import Mathlib.Data.List.Nodup

/-!
Lists that are searched, changed in one place, or gone through item by item.
-/

namespace Dataflow

namespace Lists
variable {α β : Type}

theorem mem_modify {l : List α} {i : Nat} {f : α → α} {a : α} (member : a ∈ l.modify i f) :
    a ∈ l ∨ ∃ b ∈ l, a = f b := by
  obtain ⟨j, found⟩ := List.mem_iff_getElem?.mp member
  rw [List.getElem?_modify] at found
  obtain ⟨b, there, same⟩ := Option.map_eq_some_iff.mp found
  have before := List.mem_of_getElem? there
  split at same
  · exact .inr ⟨b, before, same.symm⟩
  · exact .inl (same ▸ before)

theorem find?_or [DecidableEq α] {q : α → Bool} {a : α} (new : q a = false) (l : List α) :
    l.find? (fun b => decide (b = a) || q b) = if a ∈ l.takeWhile (!q ·) then some a else l.find? q := by
  induction l with
  | nil => rfl
  | cons head tail ih =>
      by_cases here : head = a
      · simp [here, new]
      · cases found : q head <;> simp [here, found, Ne.symm here, ih]

theorem sublist_three_iff {first rest : List α} {x y z : α} (distinct : (first ++ y :: rest).Nodup)
    (ne : x ≠ y) : [x, y, z].Sublist (first ++ y :: rest) ↔ x ∈ first ∧ z ∈ rest := by
  obtain ⟨-, tail, apart⟩ := List.nodup_append.mp distinct
  constructor
  · rw [List.sublist_append_iff]
    rintro ⟨_ | ⟨_, _ | _⟩, l₂, split, left, right⟩
    · -- all three would stand in the second part, and the second of them at its head
      rw [List.nil_append] at split
      subst split
      have late : [x, y, z].Sublist rest := by
        cases right with
        | cons _ late => exact late
        | cons_cons _ _ => exact absurd rfl ne
      exact absurd (late.subset (by simp)) (List.nodup_cons.mp tail).1
    · obtain ⟨rfl, rfl⟩ := List.cons.inj split
      exact ⟨left.subset (by simp), (List.cons_sublist_cons.mp right).subset (by simp)⟩
    · obtain ⟨-, later⟩ := List.cons.inj split
      obtain ⟨rfl, -⟩ := List.cons.inj later
      exact absurd rfl (apart y (left.subset (by simp)) y List.mem_cons_self)
  · rintro ⟨before, behind⟩
    exact (List.singleton_sublist.mpr before).append ((List.singleton_sublist.mpr behind).cons_cons y)

theorem mapM_ok_iff {ε : Type} {f : α → Except ε β} {items : List α} {results : List β} :
    items.mapM f = .ok results ↔ List.Forall₂ (fun a b => f a = .ok b) items results := by
  induction items generalizing results with
  | nil => simp [pure, Except.pure, eq_comm]
  | cons head tail ih =>
      rw [List.mapM_cons, List.forall₂_cons_left_iff]
      cases first : f head with
      | error e => simp [bind, Except.bind]
      | ok b =>
          cases rest : tail.mapM f with
          | error e => simp [bind, Except.bind, ← ih, rest]
          | ok bs => simp [bind, Except.bind, pure, Except.pure, ← ih, rest, eq_comm]

theorem forall₂_and_right {R : α → β → Prop} {P : β → Prop} {as : List α} {bs : List β} :
    List.Forall₂ (fun a b => R a b ∧ P b) as bs ↔ List.Forall₂ R as bs ∧ ∀ b ∈ bs, P b := by
  have turned := List.forall₂_and_left (R := fun b a => R a b) (p := P) bs as
  constructor
  · intro both
    obtain ⟨each, related⟩ := turned.mp (both.imp fun _ _ => And.symm).flip
    exact ⟨related.flip, each⟩
  · rintro ⟨related, each⟩
    exact (turned.mpr ⟨each, related.flip⟩).flip.imp fun _ _ => And.symm

theorem flatMap_filter_of_nil {f : α → List β} {keep : α → Bool} {items : List α}
    (nothing : ∀ a ∈ items, keep a = false → f a = []) : items.flatMap f = (items.filter keep).flatMap f := by
  induction items with
  | nil => rfl
  | cons head tail ih =>
      have rest := ih fun a member => nothing a (List.mem_cons_of_mem _ member)
      cases kept : keep head with
      | true => rw [List.filter_cons_of_pos kept, List.flatMap_cons, List.flatMap_cons, rest]
      | false =>
          rw [List.filter_cons_of_neg (by simp [kept]), List.flatMap_cons, nothing head List.mem_cons_self kept,
            List.nil_append, rest]

theorem flatMap_zipIdx (f : α × Nat → List β) (l : List α) :
    l.zipIdx.flatMap f = (List.range l.length).flatMap fun pos => (l[pos]?.map fun a => f (a, pos)).getD [] := by
  induction l using List.reverseRecOn with
  | nil => rfl
  | append_singleton l a ih =>
      rw [List.zipIdx_append, List.flatMap_append, ih, List.length_append, List.length_singleton, List.range_succ,
        List.flatMap_append]
      congr 1
      · refine List.flatMap_congr fun pos member => ?_
        rw [List.getElem?_append_left (List.mem_range.mp member)]
      · simp

end Lists

end Dataflow
