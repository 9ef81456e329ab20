import Dataflow.Datum.Basic

/-!
Writing data as JSON, on one line and in ASCII alone. Other characters are written by their codes, those
beyond sixteen bits as surrogate pairs.
-/

namespace Dataflow
namespace Datum

def jsonCode (code : Nat) : List Char := Text.backslash :: 'u' :: Text.hexDigits 4 code

def jsonPoint (p : Text.Point) : List Char :=
  let code := p.code
  if code = Text.double.toNat || code = Text.backslash.toNat then [Text.backslash, Char.ofNat code]
  else if 32 ≤ code && code < 127 then [Char.ofNat code]
  else if code < 0x10000 then jsonCode code
  else jsonCode (0xD800 + (code - 0x10000) / 0x400) ++ jsonCode (0xDC00 + (code - 0x10000) % 0x400)

def jsonText (text : String) : String :=
  String.ofList (Text.double :: (Text.points text).flatMap jsonPoint ++ [Text.double])

def jsonFloat : Binary64 → String
  | .infinite negative => Binary64.signText negative ++ "Infinity"
  | .nan => "NaN"
  | x => x.text

mutual

def json : Datum → String
  | .null => "null"
  | .bool b => if b then "true" else "false"
  | .int n => toString n
  | .float x => jsonFloat x
  | .text s => jsonText s
  | .list items => "[" ++ Text.join "," (jsonItems items) ++ "]"
  | .object fields => "\x7b" ++ Text.join "," (jsonFields fields) ++ "\x7d"

def jsonItems : List Datum → List String
  | [] => []
  | item :: rest => json item :: jsonItems rest

def jsonFields : List (String × Datum) → List String
  | [] => []
  | (key, value) :: rest => (jsonText key ++ ":" ++ json value) :: jsonFields rest

end

end Datum
end Dataflow
