/-!
The lines of a text. A line ends at a line feed, a carriage return or both together, and at the other
characters that stand for a line end; what follows the last of them is a line only if it is not empty.
-/

namespace Dataflow
namespace Text

/-- Line feed, vertical tab, form feed, carriage return, the three information separators that end a record
or more, the next-line control, and the separators of lines and paragraphs. -/
def isLineEnd (c : Char) : Bool :=
  [0x0A, 0x0B, 0x0C, 0x0D, 0x1C, 0x1D, 0x1E, 0x85, 0x2028, 0x2029].contains c.toNat

def linesAfter (back : List Char) : List Char → List (List Char)
  | [] => if back.isEmpty then [] else [back.reverse]
  | '\r' :: '\n' :: rest => back.reverse :: linesAfter [] rest
  | c :: rest => if isLineEnd c then back.reverse :: linesAfter [] rest else linesAfter (c :: back) rest

def lines (text : String) : List String := (linesAfter [] text.toList).map String.ofList

end Text
end Dataflow
