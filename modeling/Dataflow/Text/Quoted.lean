import Dataflow.Text.Point
import Dataflow.Text.Printable

/-!
Text in quotes, as names and option values stand in messages. The quotes are single, except that a text
with a single quote and no double quote goes in double quotes. The quote in use, the backslash and what
cannot be shown are escaped; every other character stands for itself.
-/

namespace Dataflow
namespace Text

def single : Char := Char.ofNat 39

def double : Char := Char.ofNat 34

def backslash : Char := Char.ofNat 92

def hexDigits : Nat → Nat → List Char
  | 0, _ => []
  | width + 1, n => hexDigits width (n / 16) ++ [Nat.digitChar (n % 16)]

def numbered (code : Nat) : List Char :=
  if code < 0x100 then backslash :: 'x' :: hexDigits 2 code
  else if code < 0x10000 then backslash :: 'u' :: hexDigits 4 code
  else backslash :: 'U' :: hexDigits 8 code

def escapeChar (quote c : Char) : List Char :=
  if c = quote || c = backslash then [backslash, c]
  else if c = '\n' then [backslash, 'n']
  else if c = '\t' then [backslash, 't']
  else if c = '\r' then [backslash, 'r']
  else if isPrintable c.toNat then [c]
  else numbered c.toNat

def escape (quote : Char) : Point → List Char
  | .char c => escapeChar quote c
  | p => numbered p.code

/-- The quote for a text: double if the text holds a single quote and no double one. -/
def quoteFor (text : List Char) : Char :=
  if text.contains single && !text.contains double then double else single

def quoted (text : String) : String :=
  let quote := quoteFor text.toList
  String.ofList (quote :: (points text).flatMap (escape quote) ++ [quote])

def join (separator : String) (texts : List String) : String := separator.intercalate texts

def bracketed (texts : List String) : String := "[" ++ join ", " texts ++ "]"

def braced (texts : List String) : String := "\x7b" ++ join ", " texts ++ "\x7d"

def escapeDouble (text : String) : String :=
  String.ofList (text.toList.flatMap fun c => if c = double then [backslash, double] else [c])

end Text
end Dataflow
