/-!
Texts as sequences of code points. Data may hold half of a surrogate pair on its own, which is no
character. In a string such a half is kept as `mark` and a character of the private area, and `mark`
itself as two of it. Every sequence of code points then has a string of its own, and strings are ordered as
the code points are, because `mark` comes right before the surrogates.
-/

namespace Dataflow
namespace Text

inductive Point where
  | char (c : Char)
  | half (k : Fin 2048)
deriving DecidableEq

/-- The character that announces half of a pair. No character is assigned to its code. -/
def mark : Char := Char.ofNat 0xD7FF

namespace Point

def code : Point → Nat
  | .char c => c.toNat
  | .half k => 0xD800 + k

def ofCode (n : Nat) : Point :=
  if h : 0xD800 ≤ n ∧ n < 0xE000 then .half ⟨n - 0xD800, by omega⟩ else .char (Char.ofNat n)

def chars : Point → List Char
  | .char c => if c = mark then [mark, mark] else [c]
  | .half k => [mark, Char.ofNat (0xE000 + k)]

def marked (c : Char) : Point := if c = mark then .char mark else .half (Fin.ofNat 2048 (c.toNat - 0xE000))

end Point

def pointsOf : List Char → List Point
  | [] => []
  | [c] => [.char c]
  | c :: d :: rest => if c = mark then .marked d :: pointsOf rest else .char c :: pointsOf (d :: rest)

def points (text : String) : List Point := pointsOf text.toList

def ofPoints (ps : List Point) : String := String.ofList (ps.flatMap Point.chars)

def drop (n : Nat) (text : String) : String := ofPoints ((points text).drop n)

def plain (text : String) : String :=
  String.ofList ((points text).map fun p =>
    match p with
    | .char c => c
    | .half _ => Char.ofNat 0xFFFD)

end Text
end Dataflow
