import Dataflow.Word32

/-!
Binary operators and what they compute on constants.
-/

namespace Dataflow

inductive BinOp where
  | add | sub | mul | div | rem
  | shl | shr | ushr
  | or | and | xor
  | eq | ne | lt | gt | le | ge
deriving DecidableEq

namespace BinOp

def all : List BinOp :=
  [.add, .sub, .mul, .div, .rem, .shl, .shr, .ushr, .or, .and, .xor, .eq, .ne, .lt, .gt, .le, .ge]

def text : BinOp → String
  | .add => "+"
  | .sub => "-"
  | .mul => "*"
  | .div => "/"
  | .rem => "%"
  | .shl => "<<"
  | .shr => ">>"
  | .ushr => ">>>"
  | .or => "|"
  | .and => "&"
  | .xor => "^"
  | .eq => "=="
  | .ne => "!="
  | .lt => "<"
  | .gt => ">"
  | .le => "<="
  | .ge => ">="

def ofText? (s : String) : Option BinOp := all.find? (·.text == s)

def divides : BinOp → Bool
  | .div | .rem => true
  | _ => false

def truth (b : Bool) : Int := if b then 1 else 0

def apply : BinOp → Int → Int → Int
  | .add, a, b => Word32.wrap (a + b)
  | .sub, a, b => Word32.wrap (a - b)
  | .mul, a, b => Word32.wrap (a * b)
  | .div, a, b => Word32.div a b
  | .rem, a, b => Word32.rem a b
  | .shl, a, b => Word32.shiftLeft a b
  | .shr, a, b => Word32.shiftRight a b
  | .ushr, a, b => Word32.shiftRightUnsigned a b
  | .or, a, b => Bits.or a b
  | .and, a, b => Bits.and a b
  | .xor, a, b => Bits.xor a b
  | .eq, a, b => truth (a == b)
  | .ne, a, b => truth (a != b)
  | .lt, a, b => truth (a < b)
  | .gt, a, b => truth (a > b)
  | .le, a, b => truth (a ≤ b)
  | .ge, a, b => truth (a ≥ b)

end BinOp

end Dataflow
