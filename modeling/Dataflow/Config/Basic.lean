import Dataflow.Data.OrderedMap
import Dataflow.Error

/-!
Configurations: the id of an analysis and its options. Only checked configurations can be made: the id is
not empty, the strategy is known, and the limit on transfers is absent, null or a positive integer.
-/

namespace Dataflow

inductive Strategy where
  | worklist | iterative
deriving DecidableEq

namespace Strategy

def text : Strategy → String
  | .worklist => "worklist"
  | .iterative => "iterative"

def ofText? : String → Option Strategy
  | "worklist" => some .worklist
  | "iterative" => some .iterative
  | _ => none

def ofText (name : String) : Except Error Strategy :=
  match ofText? name with
  | some s => .ok s
  | none => .error (.unknownStrategy name)

end Strategy

abbrev Options := OrderedMap String Datum

namespace Options

def strategy? (o : Options) : Option Strategy :=
  match o.get? "strategy" with
  | none => some .worklist
  | some (.text name) => Strategy.ofText? name
  | some _ => none

def limit? (o : Options) : Option (Option Nat) :=
  match o.get? "max_iterations" with
  | none => some none
  | some .null => some none
  | some (.int n) => if 0 < n then some (some n.toNat) else none
  | some _ => none

def check (id : String) (o : Options) : Except Error Unit := do
  if o.strategy?.isNone then throw (.badStrategy id ((o.get? "strategy").getD .null))
  if o.limit?.isNone then throw (.badLimit id ((o.get? "max_iterations").getD .null))

end Options

structure Config where
  id : String
  options : Options

namespace Config

def make (id : Datum) (options : Options) : Except Error Config :=
  match id with
  | .text name =>
      if name = "" then .error (.badId id)
      else do
        options.check name
        return ⟨name, options⟩
  | _ => .error (.badId id)

def plain (id : String) : Config := ⟨id, OrderedMap.empty⟩

def strategy (c : Config) : Strategy := c.options.strategy?.getD .worklist

def limit (c : Config) : Option Nat := c.options.limit?.getD none

/-- An entry of a plan: an id, or an object with an id and perhaps options. Options that are null, zero or
empty count as none. -/
def ofDatum (d : Datum) : Except Error Config :=
  match d with
  | .text _ => make d OrderedMap.empty
  | .object fields =>
      match Datum.field? "id" fields with
      | none => .error (.entryWithoutId d)
      | some id =>
          let unknown := (fields.map Prod.fst).filter fun k => k ≠ "id" ∧ k ≠ "options"
          if unknown ≠ [] then .error (.unknownKeys id (unknown.mergeSort (· ≤ ·)))
          else
            let options := (Datum.field? "options" fields).getD .null
            if options.isEmpty then make id OrderedMap.empty
            else match options with
              | .object entries => make id (OrderedMap.ofList entries)
              | _ => .error (.optionsNotMapping id)
  | _ => .error (.entryWithoutId d)

def toDatum (c : Config) : Datum :=
  .object [("id", .text c.id), ("options", .object c.options.entries)]

def same (c d : Config) : Bool := c.id == d.id && c.options.sameBy Datum.same d.options

end Config

end Dataflow
