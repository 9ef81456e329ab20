import Dataflow.Number.Shortest
import Dataflow.Text.Quoted

/-!
Option values: the data that plans and configurations are made of. Numbers are compared by what they are
worth, truth values counting as one and zero, and objects whatever the order of their fields.
-/

namespace Dataflow

inductive Datum where
  | null
  | bool (b : Bool)
  | int (n : Int)
  | float (x : Binary64)
  | text (s : String)
  | list (items : List Datum)
  | object (fields : List (String × Datum))
deriving Inhabited

namespace Datum

def worth? : Datum → Option (Int × Int)
  | .bool b => some (if b then 1 else 0, 0)
  | .int n => some (n, 0)
  | .float x => x.worth?
  | _ => none

def sameWorth (a b : Int × Int) : Bool :=
  let least := min a.2 b.2
  a.1 * (1 <<< (a.2 - least).toNat : Nat) == b.1 * (1 <<< (b.2 - least).toNat : Nat)

def isEmpty : Datum → Bool
  | .null => true
  | .bool b => !b
  | .int n => n == 0
  | .float x => x.isZero
  | .text s => s == ""
  | .list items => items.isEmpty
  | .object fields => fields.isEmpty

def hasMembers : Datum → Bool
  | .text _ | .list _ | .object _ => true
  | _ => false

def hasPlainMembers : Datum → Bool
  | .text _ | .object _ => true
  | .list items => items.all fun
      | .list _ | .object _ => false
      | _ => true
  | _ => false

def hasNoLooseItem : Datum → Bool
  | .list items => items.all fun
      | .text _ | .list _ => true
      | _ => false
  | _ => true

def field? (name : String) : List (String × Datum) → Option Datum
  | [] => none
  | (key, value) :: rest => if key = name then some value else field? name rest

mutual

/-- Whether two data are the same. What is no number is the same only as itself. -/
def same : Datum → Datum → Bool
  | .null, .null => true
  | .text s, .text t => s == t
  | .float .nan, .float .nan => true
  | .float (.infinite a), .float (.infinite b) => a == b
  | .list xs, .list ys => xs.length == ys.length && sameItems xs ys
  | .object xs, .object ys => xs.length == ys.length && sameFields xs ys
  | a, b =>
      match a.worth?, b.worth? with
      | some m, some n => sameWorth m n
      | _, _ => false

def sameItems : List Datum → List Datum → Bool
  | x :: xs, y :: ys => same x y && sameItems xs ys
  | _, _ => true

def sameFields : List (String × Datum) → List (String × Datum) → Bool
  | [], _ => true
  | (key, value) :: rest, others =>
      (match field? key others with
        | some other => same value other
        | none => false) && sameFields rest others

end

mutual

def shown : Datum → String
  | .null => "None"
  | .bool b => if b then "True" else "False"
  | .int n => toString n
  | .float x => x.text
  | .text s => Text.quoted s
  | .list items => Text.bracketed (shownItems items)
  | .object fields => Text.braced (shownFields fields)

def shownItems : List Datum → List String
  | [] => []
  | item :: rest => shown item :: shownItems rest

def shownFields : List (String × Datum) → List String
  | [] => []
  | (key, value) :: rest => (Text.quoted key ++ ": " ++ shown value) :: shownFields rest

end

end Datum

end Dataflow
