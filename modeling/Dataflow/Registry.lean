import Dataflow.Config.Plan

/-!
The analyses known by id, what each requires, and the order in which a plan is run: what an analysis
requires comes before it.
-/

namespace Dataflow

inductive Subject where
  | method | program | other
deriving DecidableEq

/-- What an analysis computes. A fixed one gives a datum, or what its configuration has for an option. -/
inductive Task where
  | graph | liveness | constants | deadCode | callGraph | interprocedural
  | fixed (result : Datum) (option : Option String)

structure Registered where
  subject : Subject
  requires : List String
  task : Task

abbrev Registry := OrderedMap String Registered

namespace Registry

def builtin : Registry := OrderedMap.ofList
  [("cfg", ⟨.method, [], .graph⟩),
    ("livevar", ⟨.method, ["cfg"], .liveness⟩),
    ("constprop", ⟨.method, ["cfg"], .constants⟩),
    ("deadcode", ⟨.method, ["cfg", "constprop", "livevar"], .deadCode⟩),
    ("cha", ⟨.program, [], .callGraph⟩),
    ("inter-constprop", ⟨.program, ["cha"], .interprocedural⟩)]

def register (r : Registry) (id : String) (a : Registered) : Except Error Registry :=
  if id = "" then .error (.unnamedAnalysis "Stub") else .ok (r.insert id a)

def ids (r : Registry) : List String := r.keys.mergeSort (· ≤ ·)

def find (r : Registry) (id : String) : Except Error Registered :=
  match r.get? id with
  | some a => .ok a
  | none => .error (.unknownAnalysis id)

/-- Puts an analysis into the order, behind all it requires. `path` leads to it from the plan, and is never
longer than there are analyses. -/
def visit (r : Registry) (plan : Plan) :
    Nat → List String → List Config → String → Except Error (List Config)
  | 0, path, _, id => .error (.cyclicRequirement (path ++ [id]))
  | depth + 1, path, order, id =>
      if id ∈ order.map Config.id then .ok order
      else if id ∈ path then .error (.cyclicRequirement (path ++ [id]))
      else do
        let a ← r.find id
        let order ← a.requires.foldlM (r.visit plan depth (path ++ [id])) order
        return order ++ [(plan.get? id).getD (Config.plain id)]

def order (r : Registry) (plan : Plan) : Except Error (List Config) :=
  plan.ids.foldlM (r.visit plan (r.size + 2) []) []

end Registry

end Dataflow
