import Dataflow.Config.Basic
import Dataflow.Datum.Reader

/-!
Plans: configurations in the order in which their analyses are asked for, each analysis at most once.
-/

namespace Dataflow

structure Plan where
  configs : List Config

namespace Plan

def ids (p : Plan) : List String := p.configs.map Config.id

def repeated? : List String → List String → Option String
  | _, [] => none
  | seen, id :: rest => if id ∈ seen then some id else repeated? (id :: seen) rest

/-- The plan of a list of entries: all entries are checked before repetitions are looked for. -/
def ofEntries (entries : List Datum) : Except Error Plan := do
  let configs ← entries.mapM Config.ofDatum
  match repeated? [] (configs.map Config.id) with
  | some id => throw (.listedTwice id)
  | none => return ⟨configs⟩

def ofDatum (d : Datum) : Except Error Plan :=
  match d with
  | .object fields =>
      match Datum.field? "analyses" fields with
      | some (.list entries) => ofEntries entries
      | _ => .error .planWithoutList
  | _ => .error .planNotMapping

def deepest : Nat := 990

def ofFile (path : String) (text : Option String) : Except Error Plan :=
  match text with
  | none => .error (.planMissing path)
  | some text =>
      match Datum.read deepest text with
      | .error .malformed => .error (.planUnreadable path)
      | .error (.tooLong digits) => .error (.tooManyDigits digits)
      | .error .tooDeep => .error .nestedTooDeep
      | .ok (.object fields) => ofDatum (.object fields)
      | .ok _ => .error (.planNotObject path)

def get? (p : Plan) (id : String) : Option Config := p.configs.find? (·.id = id)

def toDatum (p : Plan) : Datum := .object [("analyses", .list (p.configs.map Config.toDatum))]

end Plan

end Dataflow
