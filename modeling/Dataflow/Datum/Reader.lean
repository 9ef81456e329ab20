import Dataflow.Data.OrderedMap
import Dataflow.Datum.Basic

/-!
Reading data written as JSON. Blanks may stand around any token. Strings hold no control characters, the
last of several fields of one name counts, and `NaN`, `Infinity` and `-Infinity` are numbers. A number with
a point or an exponent is a floating point number, any other an integer, which may not be too long. Lists
and objects stand in each other up to a depth that the reader is told. Nothing may follow the value.
-/

namespace Dataflow
namespace Datum

inductive Fault where
  | malformed
  | tooLong (digits : Nat)
  | tooDeep

namespace Reader

def longest : Nat := 4300

def found {α : Type} : Option α → Except Fault α
  | some a => .ok a
  | none => .error .malformed

def isBlank (c : Char) : Bool := c == ' ' || c == '\t' || c == '\n' || c == '\r'

def skip (cs : List Char) : List Char := cs.dropWhile isBlank

def hexDigit? (c : Char) : Option Nat :=
  let n := c.toNat
  if 48 ≤ n && n ≤ 57 then some (n - 48)
  else if 97 ≤ n && n ≤ 102 then some (n - 87)
  else if 65 ≤ n && n ≤ 70 then some (n - 55)
  else none

def hex4? (a b c d : Char) : Option Nat := do
  return (((← hexDigit? a) * 16 + (← hexDigit? b)) * 16 + (← hexDigit? c)) * 16 + (← hexDigit? d)

def simpleEscape? (c : Char) : Option Char :=
  if c = Text.double || c = Text.backslash || c = '/' then some c
  else if c = 'b' then some (Char.ofNat 8)
  else if c = 'f' then some (Char.ofNat 12)
  else if c = 'n' then some '\n'
  else if c = 'r' then some '\r'
  else if c = 't' then some '\t'
  else none

def codes : List Char → Except Fault (List Nat × List Char)
  | [] => .error .malformed
  | c :: rest =>
      if c = Text.double then .ok ([], rest)
      else if c = Text.backslash then
        match rest with
        | 'u' :: a :: b :: c :: d :: after => do
            let n ← found (hex4? a b c d)
            let (more, left) ← codes after
            return (n :: more, left)
        | e :: after => do
            let d ← found (simpleEscape? e)
            let (more, left) ← codes after
            return (d.toNat :: more, left)
        | [] => .error .malformed
      else if c.toNat < 32 then .error .malformed
      else do
        let (more, left) ← codes rest
        return (c.toNat :: more, left)

def paired : List Nat → List Text.Point
  | [] => []
  | [n] => [.ofCode n]
  | high :: low :: rest =>
      if 0xD800 ≤ high && high < 0xDC00 && 0xDC00 ≤ low && low < 0xE000 then
        .ofCode (0x10000 + (high - 0xD800) * 0x400 + (low - 0xDC00)) :: paired rest
      else .ofCode high :: paired (low :: rest)

def string (cs : List Char) : Except Fault (String × List Char) := do
  let (ns, left) ← codes cs
  return (Text.ofPoints (paired ns), left)

def digits (cs : List Char) : List Char × List Char := (cs.takeWhile Char.isDigit, cs.dropWhile Char.isDigit)

def ofDigits (ds : List Char) : Nat := ds.foldl (fun n d => n * 10 + (d.toNat - 48)) 0

def fraction (cs : List Char) : List Char × List Char :=
  match cs with
  | '.' :: rest =>
      let (ds, left) := digits rest
      if ds.isEmpty then ([], cs) else (ds, left)
  | _ => ([], cs)

def exponent? (cs : List Char) : Option Int × List Char :=
  match cs with
  | e :: rest =>
      if e = 'e' || e = 'E' then
        let (negative, after) := match rest with
          | '-' :: r => (true, r)
          | '+' :: r => (false, r)
          | r => (false, r)
        let (ds, left) := digits after
        if ds.isEmpty then (none, cs)
        else (some (if negative then -(ofDigits ds : Int) else ofDigits ds), left)
      else (none, cs)
  | [] => (none, cs)

def unsigned (negative : Bool) (cs : List Char) : Except Fault (Datum × List Char) :=
  let (all, _) := digits cs
  match all with
  | [] => .error .malformed
  | d :: _ =>
      let whole := if d = '0' then ['0'] else all
      let (places, afterPlaces) := fraction (cs.drop whole.length)
      let (exponent, left) := exponent? afterPlaces
      let size := ofDigits (whole ++ places)
      if !places.isEmpty || exponent.isSome then
        .ok (.float (.ofDecimal negative size (exponent.getD 0 - places.length)), left)
      else if longest < whole.length then .error (.tooLong whole.length)
      else .ok (.int (if negative then -(size : Int) else size), left)

def afterWord? (word : String) (cs : List Char) : Option (List Char) :=
  if word.toList.isPrefixOf cs then some (cs.drop word.length) else none

def constants : List (String × Datum) :=
  [("null", .null), ("true", .bool true), ("false", .bool false), ("NaN", .float .nan),
    ("Infinity", .float (.infinite false)), ("-Infinity", .float (.infinite true))]

def scalar (cs : List Char) : Except Fault (Datum × List Char) :=
  match constants.findSome? fun w => (afterWord? w.1 cs).map fun left => (w.2, left) with
  | some found => .ok found
  | none =>
      match cs with
      | '-' :: rest => unsigned true rest
      | _ => unsigned false cs

mutual

/-- A value at the front of a text that begins with no blank, in which lists and objects may stand as deep in
each other as there is room. -/
def value : Nat → Nat → List Char → Except Fault (Datum × List Char)
  | 0, _, _ => .error .malformed
  | fuel + 1, room, cs =>
      match cs with
      | [] => .error .malformed
      | c :: rest =>
          if c = Text.double then do
            let (s, left) ← string rest
            return (.text s, left)
          else if room = 0 && (c = '[' || c.toNat = 123) then .error .tooDeep
          else if c = '[' then
            match skip rest with
            | ']' :: left => .ok (.list [], left)
            | inner => do
                let (items, left) ← items fuel (room - 1) inner
                return (.list items, left)
          else if c.toNat = 123 then
            match skip rest with
            | d :: left =>
                if d.toNat = 125 then .ok (.object [], left)
                else do
                  let (fields, left) ← fields fuel (room - 1) (d :: left)
                  return (.object (OrderedMap.ofList fields).entries, left)
            | [] => .error .malformed
          else scalar cs

def items : Nat → Nat → List Char → Except Fault (List Datum × List Char)
  | 0, _, _ => .error .malformed
  | fuel + 1, room, cs => do
      let (item, left) ← value fuel room cs
      match skip left with
      | ']' :: after => return ([item], after)
      | ',' :: after =>
          let (more, left) ← items fuel room (skip after)
          return (item :: more, left)
      | _ => throw .malformed

def fields : Nat → Nat → List Char → Except Fault (List (String × Datum) × List Char)
  | 0, _, _ => .error .malformed
  | fuel + 1, room, cs =>
      match cs with
      | [] => .error .malformed
      | c :: rest =>
          if c = Text.double then do
            let (name, left) ← string rest
            match skip left with
            | ':' :: after =>
                let (field, left) ← value fuel room (skip after)
                match skip left with
                | d :: after =>
                    if d.toNat = 125 then return ([(name, field)], after)
                    else if d = ',' then
                      let (more, left) ← fields fuel room (skip after)
                      return ((name, field) :: more, left)
                    else throw .malformed
                | [] => throw .malformed
            | _ => throw .malformed
          else .error .malformed

end

end Reader

def read (depth : Nat) (text : String) : Except Fault Datum := do
  let cs := text.toList
  let (datum, left) ← Reader.value (2 * cs.length + 1) depth (Reader.skip cs)
  if (Reader.skip left).isEmpty then return datum else throw .malformed

end Datum
end Dataflow
