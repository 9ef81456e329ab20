import Dataflow.Data.OrderedMap
import Dataflow.Fact.Value

/-!
Maps from variables to values as facts. A key without an entry reads as undefined, and writing undefined
removes the entry, so two facts built by writing are the same exactly when they agree on every key.
-/

namespace Dataflow

abbrev Constants (κ : Type) := OrderedMap κ Value

namespace Constants
variable {κ : Type} [DecidableEq κ]

def value (f : Constants κ) (k : κ) : Value := f.getD k .undefined

def update (f : Constants κ) (k : κ) (v : Value) : Constants κ × Bool :=
  if v = .undefined then (f.erase k, f.contains k)
  else if f.get? k = some v then (f, false)
  else (f.insert k v, true)

def set (f : Constants κ) (k : κ) (v : Value) : Constants κ := (f.update k v).1

@[simp] theorem value_set (f : Constants κ) (k j : κ) (v : Value) :
    (f.set k v).value j = if k = j then v else f.value j := by
  unfold set update value OrderedMap.getD
  by_cases here : k = j
  · subst here
    by_cases isUndefined : v = .undefined
    · simp [isUndefined]
    · by_cases there : f.get? k = some v <;> simp [isUndefined, there]
  · by_cases isUndefined : v = .undefined
    · simp [isUndefined, here]
    · by_cases there : f.get? k = some v <;> simp [isUndefined, there, here]

def replace (f g : Constants κ) : Constants κ × Bool := if f.same g then (f, false) else (g, true)

/-- The meet with a fact given by its keys and values; the keys of `f` come first. -/
def meetOver (f : Constants κ) (keys : List κ) (other : κ → Value) : Constants κ :=
  keys.foldl (fun acc k => acc.set k ((f.value k).meet (other k))) f

def meet (f g : Constants κ) : Constants κ := f.meetOver g.keys g.value

def meetInto (f target : Constants κ) : Constants κ :=
  f.entries.foldl (fun acc e => acc.set e.1 (e.2.meet (acc.value e.1))) target

def le (f g : Constants κ) : Bool := f.keys.all fun k => (f.value k).le (g.value k)

def lattice : Lattice (Constants κ) where
  bottom := OrderedMap.empty
  top? := none
  meet := meet
  le := le
  same := OrderedMap.same

end Constants

end Dataflow
