import Dataflow.Fact.Constants
import Dataflow.Text.Quoted

/-!
Map facts of two sorts. A plain table keeps whatever is written, also nothing at all for a key; a table of
constants drops keys that are written undefined. The pointwise lattice works on both, mixed as well, and
gives a table of the sort of its left argument.
-/

namespace Dataflow

inductive TableSort where
  | plain
  | constants
deriving DecidableEq

structure Table (κ : Type) where
  sort : TableSort
  entries : OrderedMap κ (Option Value)

namespace Table
variable {κ : Type}

def empty (sort : TableSort) : Table κ := ⟨sort, OrderedMap.empty⟩

def ofConstants (f : Constants κ) : Table κ := ⟨.constants, f.mapValues fun _ v => some v⟩

variable [DecidableEq κ]

def ofList (sort : TableSort) (items : List (κ × Option Value)) : Table κ := ⟨sort, OrderedMap.ofList items⟩

/-- What is written for a key. An absent key of a table of constants is undefined. -/
def get (t : Table κ) (k : κ) : Option Value :=
  match t.sort, t.entries.get? k with
  | _, some v => v
  | .plain, none => none
  | .constants, none => some .undefined

def value (t : Table κ) (k : κ) : Value := (t.get k).getD .undefined

def remove (t : Table κ) (k : κ) : Table κ × Option Value :=
  ({ t with entries := t.entries.erase k }, (t.entries.get? k).join)

def update (t : Table κ) (k : κ) (v : Option Value) : Table κ × Bool :=
  if t.sort = .constants ∧ v = some .undefined then
    let removed := t.remove k
    (removed.1, removed.2.isSome)
  else if t.entries.get? k = some v then (t, false)
  else ({ t with entries := t.entries.insert k v }, true)

def same (t u : Table κ) : Bool := t.entries.same u.entries

def replace (t u : Table κ) : Table κ × Bool :=
  if t.same u then (t, false) else ({ t with entries := u.entries }, true)

def meet (t u : Table κ) : Table κ :=
  u.entries.keys.foldl (fun acc k => (acc.update k (some ((t.value k).meet (u.value k)))).1) t

def le (t u : Table κ) : Bool := t.entries.keys.all fun k => (t.value k).le (u.value k)

def lattice (sort : TableSort) : Lattice (Table κ) where
  bottom := empty sort
  top? := none
  meet := meet
  le := le
  same := same

def text (shown : κ → String) (t : Table κ) : String :=
  Text.braced (t.entries.entries.map fun e =>
    shown e.1 ++ "=" ++ (e.2.map Value.text).getD "None")

end Table

end Dataflow
