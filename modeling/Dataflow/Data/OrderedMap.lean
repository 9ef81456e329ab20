/-!
Finite maps that remember the order in which their keys came. Writing to a key that is there keeps its
place; a key that was removed and is written again moves to the end. `get?` is the view through which
every operation is described.
-/

namespace Dataflow

structure OrderedMap (κ ν : Type) where
  entries : List (κ × ν)
  nodup : (entries.map Prod.fst).Nodup

namespace OrderedMap
variable {κ ν : Type}

def empty : OrderedMap κ ν := ⟨[], List.nodup_nil⟩

instance : Inhabited (OrderedMap κ ν) := ⟨empty⟩

def keys (m : OrderedMap κ ν) : List κ := m.entries.map Prod.fst

def values (m : OrderedMap κ ν) : List ν := m.entries.map Prod.snd

def size (m : OrderedMap κ ν) : Nat := m.entries.length

def mapValues {μ : Type} (f : κ → ν → μ) (m : OrderedMap κ ν) : OrderedMap κ μ :=
  ⟨m.entries.map fun e => (e.1, f e.1 e.2), by
    simpa [List.map_map, Function.comp_def] using m.nodup⟩

variable [DecidableEq κ]

def lookup (k : κ) : List (κ × ν) → Option ν
  | [] => none
  | (key, value) :: rest => if key = k then some value else lookup k rest

def get? (m : OrderedMap κ ν) (k : κ) : Option ν := lookup k m.entries

def getD (m : OrderedMap κ ν) (k : κ) (fallback : ν) : ν := (m.get? k).getD fallback

def contains (m : OrderedMap κ ν) (k : κ) : Bool := (m.get? k).isSome

@[simp] theorem get?_empty (k : κ) : (empty : OrderedMap κ ν).get? k = none := rfl

theorem lookup_eq_none {k : κ} {entries : List (κ × ν)} :
    lookup k entries = none ↔ k ∉ entries.map Prod.fst := by
  induction entries with
  | nil => simp [lookup]
  | cons head tail ih =>
      by_cases h : head.1 = k
      · simp [lookup, h]
      · simp [lookup, h, ih, Ne.symm h]

def write (k : κ) (v : ν) : List (κ × ν) → List (κ × ν)
  | [] => [(k, v)]
  | (key, value) :: rest =>
      if key = k then (key, v) :: rest else (key, value) :: write k v rest

theorem keys_write (k : κ) (v : ν) (entries : List (κ × ν)) :
    (write k v entries).map Prod.fst =
      if k ∈ entries.map Prod.fst then entries.map Prod.fst else entries.map Prod.fst ++ [k] := by
  induction entries with
  | nil => simp [write]
  | cons head tail ih =>
      by_cases h : head.1 = k
      · simp [write, h]
      · simp only [write, h, if_false, List.map_cons, ih, List.mem_cons, Ne.symm h, false_or]
        split <;> simp

theorem lookup_write (k j : κ) (v : ν) (entries : List (κ × ν)) :
    lookup j (write k v entries) = if k = j then some v else lookup j entries := by
  induction entries with
  | nil => simp [write, lookup]
  | cons head tail ih => grind [write, lookup]

def insert (m : OrderedMap κ ν) (k : κ) (v : ν) : OrderedMap κ ν :=
  ⟨write k v m.entries, by
    rw [keys_write]
    split
    · exact m.nodup
    · next h =>
        rw [List.nodup_append]
        refine ⟨m.nodup, by simp, ?_⟩
        intro x hx y hy equal
        simp only [List.mem_singleton] at hy
        exact h (hy ▸ equal ▸ hx)⟩

@[simp] theorem get?_insert (m : OrderedMap κ ν) (k j : κ) (v : ν) :
    (m.insert k v).get? j = if k = j then some v else m.get? j :=
  lookup_write k j v m.entries

theorem keys_insert (m : OrderedMap κ ν) (k : κ) (v : ν) :
    (m.insert k v).keys = if k ∈ m.keys then m.keys else m.keys ++ [k] :=
  keys_write k v m.entries

def erase (m : OrderedMap κ ν) (k : κ) : OrderedMap κ ν :=
  ⟨m.entries.filter (·.1 ≠ k), m.nodup.sublist (List.filter_sublist.map Prod.fst)⟩

@[simp] theorem get?_erase (m : OrderedMap κ ν) (k j : κ) :
    (m.erase k).get? j = if k = j then none else m.get? j := by
  obtain ⟨entries, nodup⟩ := m
  simp only [get?, erase]
  clear nodup
  induction entries with
  | nil => simp [lookup]
  | cons head tail ih => grind [lookup]

def ofList (entries : List (κ × ν)) : OrderedMap κ ν :=
  entries.foldl (fun m e => m.insert e.1 e.2) empty

def modify (m : OrderedMap κ ν) (k : κ) (f : ν → ν) : OrderedMap κ ν :=
  match m.get? k with
  | none => m
  | some v => m.insert k (f v)

def sameBy (eq : ν → ν → Bool) (m n : OrderedMap κ ν) : Bool :=
  m.size == n.size && m.entries.all fun e =>
    match n.get? e.1 with
    | none => false
    | some v => eq e.2 v

def same [DecidableEq ν] (m n : OrderedMap κ ν) : Bool := m.sameBy (fun a b => decide (a = b)) n

end OrderedMap

end Dataflow
