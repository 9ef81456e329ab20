import Dataflow.Data.OrderedMap
import Dataflow.Data.OrderedSet

/-!
Ordered maps through their lookups: an entry is what looking up its key gives, and two maps are the same when
they give every key the same value.
-/

namespace Dataflow

namespace OrderedMap

theorem eq_of_entries {κ ν : Type} {m n : OrderedMap κ ν} (same : m.entries = n.entries) : m = n := by
  cases m
  cases n
  congr

variable {κ ν : Type} [DecidableEq κ]

theorem lookup_eq_some_iff {k : κ} {v : ν} {entries : List (κ × ν)} (distinct : (entries.map Prod.fst).Nodup) :
    lookup k entries = some v ↔ (k, v) ∈ entries := by
  induction entries with
  | nil => simp [lookup]
  | cons head tail ih =>
      obtain ⟨key, value⟩ := head
      obtain ⟨absent, distinct⟩ := List.nodup_cons.mp distinct
      by_cases here : key = k
      · subst here
        have elsewhere : (key, v) ∉ tail := fun member => absent (List.mem_map.mpr ⟨_, member, rfl⟩)
        simp [lookup, elsewhere, eq_comm]
      · simp [lookup, here, Ne.symm here, ih distinct]

theorem get?_eq_some_iff {m : OrderedMap κ ν} {k : κ} {v : ν} : m.get? k = some v ↔ (k, v) ∈ m.entries :=
  lookup_eq_some_iff m.nodup

theorem mem_keys_iff {m : OrderedMap κ ν} {k : κ} : k ∈ m.keys ↔ ∃ v, m.get? k = some v := by
  simp [keys, get?_eq_some_iff]

theorem get?_mapValues {μ : Type} (f : κ → ν → μ) (m : OrderedMap κ ν) (k : κ) :
    (m.mapValues f).get? k = (m.get? k).map (f k) := by
  show lookup k (m.entries.map fun e => (e.1, f e.1 e.2)) = (lookup k m.entries).map (f k)
  generalize m.entries = entries
  induction entries with
  | nil => rfl
  | cons head tail ih => by_cases here : head.1 = k <;> simp [lookup, here, ih]

theorem get?_foldl_insert {entries : List (κ × ν)} {k : κ} {v : ν} {m : OrderedMap κ ν}
    (unique : ∀ w, (k, w) ∈ entries → w = v) (given : (k, v) ∈ entries ∨ m.get? k = some v) :
    (entries.foldl (fun m e => m.insert e.1 e.2) m).get? k = some v := by
  induction entries generalizing m with
  | nil => simpa using given
  | cons head tail ih =>
      obtain ⟨key, value⟩ := head
      refine ih (fun w member => unique w (List.mem_cons_of_mem _ member)) ?_
      by_cases here : key = k
      · subst here
        exact .inr (by simp [unique value List.mem_cons_self])
      · simpa [here, Ne.symm here] using given

theorem get?_foldl_insert_of_absent {entries : List (κ × ν)} {k : κ} {m : OrderedMap κ ν}
    (absent : ∀ e ∈ entries, e.1 ≠ k) : (entries.foldl (fun m e => m.insert e.1 e.2) m).get? k = m.get? k := by
  induction entries generalizing m with
  | nil => rfl
  | cons head tail ih =>
      rw [List.foldl_cons, ih fun e member => absent e (List.mem_cons_of_mem _ member), get?_insert,
        if_neg (absent head List.mem_cons_self)]

theorem get?_foldl_entries (m base : OrderedMap κ ν) (k : κ) :
    (m.entries.foldl (fun m e => m.insert e.1 e.2) base).get? k = (m.get? k).or (base.get? k) := by
  cases found : m.get? k with
  | some v =>
      refine get?_foldl_insert (fun w member => ?_) (.inl (get?_eq_some_iff.mp found))
      exact Option.some.inj ((get?_eq_some_iff.mpr member).symm.trans found)
  | none =>
      refine get?_foldl_insert_of_absent fun e member same => ?_
      have there : m.get? k = some e.2 := get?_eq_some_iff.mpr (same ▸ member)
      rw [found] at there
      cases there

theorem mem_of_get?_ofList {entries : List (κ × ν)} {k : κ} {v : ν} (found : (ofList entries).get? k = some v) :
    (k, v) ∈ entries := by
  have from_any (entries : List (κ × ν)) (m : OrderedMap κ ν)
      (found : (entries.foldl (fun m e => m.insert e.1 e.2) m).get? k = some v) :
      (k, v) ∈ entries ∨ m.get? k = some v := by
    induction entries generalizing m with
    | nil => exact .inr found
    | cons head tail ih =>
        rcases ih (m.insert head.1 head.2) found with later | here
        · exact .inl (List.mem_cons_of_mem _ later)
        · rw [get?_insert] at here
          split at here
          · next same =>
              obtain rfl := Option.some.inj here
              exact .inl (same ▸ List.mem_cons_self)
          · exact .inr here
  simpa using from_any entries empty found

theorem get?_ofList_map {f : κ → ν} {ns : List κ} {n : κ} :
    (ofList (ns.map fun k => (k, f k))).get? n = if n ∈ ns then some (f n) else none := by
  have from_any (m : OrderedMap κ ν) :
      ((ns.map fun k => (k, f k)).foldl (fun m e => m.insert e.1 e.2) m).get? n =
        if n ∈ ns then some (f n) else m.get? n := by
    induction ns generalizing m with
    | nil => simp
    | cons head tail ih =>
        rw [List.map_cons, List.foldl_cons, ih]
        by_cases here : n = head <;> by_cases later : n ∈ tail <;> simp [here, later, eq_comm]
  exact from_any empty

theorem write_of_not_mem {k : κ} {v : ν} {entries : List (κ × ν)} (absent : k ∉ entries.map Prod.fst) :
    write k v entries = entries ++ [(k, v)] := by
  induction entries with
  | nil => rfl
  | cons head tail ih =>
      rw [List.map_cons, List.mem_cons, not_or] at absent
      rw [write, if_neg (Ne.symm absent.1), ih absent.2, List.cons_append]

theorem entries_ofList {entries : List (κ × ν)} (distinct : (entries.map Prod.fst).Nodup) :
    (ofList entries).entries = entries := by
  have from_any (m : OrderedMap κ ν) (apart : (m.keys ++ entries.map Prod.fst).Nodup) :
      (entries.foldl (fun m e => m.insert e.1 e.2) m).entries = m.entries ++ entries := by
    clear distinct
    induction entries generalizing m with
    | nil => simp
    | cons head tail ih =>
        have absent : head.1 ∉ m.keys := fun member =>
          (List.nodup_append.mp apart).2.2 _ member _ List.mem_cons_self rfl
        have placed : (m.insert head.1 head.2).entries = m.entries ++ [head] := write_of_not_mem absent
        have keys : (m.insert head.1 head.2).keys = m.keys ++ [head.1] := by rw [keys_insert, if_neg absent]
        rw [List.foldl_cons, ih, placed, List.append_assoc, List.singleton_append]
        rwa [keys, List.append_assoc, List.singleton_append]
  have whole := from_any empty (by simpa [keys, empty] using distinct)
  rwa [show (empty : OrderedMap κ ν).entries = [] from rfl, List.nil_append] at whole

@[simp] theorem ofList_entries (m : OrderedMap κ ν) : ofList m.entries = m :=
  eq_of_entries (entries_ofList m.nodup)

def Within (m n : OrderedMap κ ν) : Prop := ∀ k v, m.get? k = some v → n.get? k = some v

theorem keys_within {m n : OrderedMap κ ν} (within : m.Within n) : ∀ k ∈ m.keys, k ∈ n.keys := by
  intro k member
  obtain ⟨v, found⟩ := mem_keys_iff.mp member
  exact mem_keys_iff.mpr ⟨v, within k v found⟩

theorem size_le_of_within {m n : OrderedMap κ ν} (within : m.Within n) : m.size ≤ n.size := by
  simpa [keys, size] using m.nodup.length_le_of_subset (keys_within within)

variable [DecidableEq ν]

instance : DecidableEq (OrderedMap κ ν) := fun m n =>
  decidable_of_iff (m.entries = n.entries) ⟨fun same => by cases m; cases n; congr, congrArg entries⟩

theorem same_iff_within {m n : OrderedMap κ ν} : m.same n = true ↔ m.size = n.size ∧ m.Within n := by
  simp only [same, sameBy, Bool.and_eq_true, beq_iff_eq, List.all_eq_true, Within,
    get?_eq_some_iff (m := m), Prod.forall]
  refine and_congr_right fun _ => forall₂_congr fun k v => imp_congr_right fun _ => ?_
  cases n.get? k <;> simp [eq_comm]

theorem same_iff {m n : OrderedMap κ ν} : m.same n = true ↔ ∀ k, m.get? k = n.get? k := by
  rw [same_iff_within]
  constructor
  · rintro ⟨size, within⟩ k
    cases other : m.get? k with
    | some w => rw [within k w other]
    | none =>
        cases found : n.get? k with
        | none => rfl
        | some v =>
            -- the keys of `m` and `k` would be too many for `n`
            have absent : k ∉ m.keys := fun member => by simp [mem_keys_iff, other] at member
            have inside : k :: m.keys ⊆ n.keys :=
              List.cons_subset.mpr ⟨mem_keys_iff.mpr ⟨v, found⟩, keys_within within⟩
            have longer := (List.nodup_cons.mpr ⟨absent, m.nodup⟩).length_le_of_subset inside
            simp only [List.length_cons, keys, List.length_map, OrderedMap.size] at longer size
            omega
  · intro agree
    have forth : m.Within n := fun k v found => agree k ▸ found
    have back : n.Within m := fun k v found => agree k ▸ found
    exact ⟨Nat.le_antisymm (size_le_of_within forth) (size_le_of_within back), forth⟩

end OrderedMap

end Dataflow
