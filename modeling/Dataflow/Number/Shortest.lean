import Dataflow.Number.Binary64

/-!
Floating point numbers as decimals. A number is written with the fewest digits that read back as it; of two
decimals with that many digits the nearer one is taken, halfway between them the even one.
-/

namespace Dataflow
namespace Binary64

structure Decimal where
  digits : Nat
  exponent : Int
deriving DecidableEq

def ratio (significand : Nat) (exponent : Int) : Nat × Nat :=
  (significand <<< exponent.toNat, 1 <<< (-exponent).toNat)

/-- Whether a decimal reads back as `significand * 2 ^ exponent`: it lies between the points halfway to the
two neighbours, or on one of them if the significand is even. The neighbour below the least full significand
is only half as far. -/
def readsBack (significand : Nat) (exponent : Int) (d : Decimal) : Bool :=
  let closer := significand = leastFull && exponent ≠ leastExponent
  let low := 4 * significand - if closer then 1 else 2
  let high := 4 * significand + 2
  let scaled := fun n => (n <<< (exponent - 2).toNat) * Nat.pow 10 (-d.exponent).toNat
  let value := (d.digits * Nat.pow 10 d.exponent.toNat) <<< (2 - exponent).toNat
  if significand % 2 = 0 then scaled low ≤ value && value ≤ scaled high
  else scaled low < value && value < scaled high

def nearest? (significand : Nat) (exponent place : Int) : Option Decimal :=
  let (num, den) := ratio significand exponent
  let num := num * Nat.pow 10 (-place).toNat
  let den := den * Nat.pow 10 place.toNat
  let below : Decimal := ⟨num / den, place⟩
  let above : Decimal := ⟨num / den + 1, place⟩
  let rounded : Decimal := ⟨roundDiv num den, place⟩
  match readsBack significand exponent below, readsBack significand exponent above with
  | true, true => some rounded
  | true, false => some below
  | false, true => some above
  | false, false => none

/-- The number of digits in front of the point, less the zeros behind it if there are none: the least `k`
with `significand * 2 ^ exponent < 10 ^ k`. -/
def pointPlace (significand : Nat) (exponent : Int) : Int :=
  let (num, den) := ratio significand exponent
  (toString (num * Nat.pow 10 400 / den)).length - 400

def exact (significand : Nat) (exponent : Int) : Decimal :=
  ⟨(significand <<< exponent.toNat) * Nat.pow 5 (-exponent).toNat, min exponent 0⟩

/-- The shortest decimal that reads back as a positive number. Seventeen digits are always enough. -/
def shortest (significand : Nat) (exponent : Int) : Decimal :=
  let point := pointPlace significand exponent
  ((List.range 17).findSome? fun n : Nat => nearest? significand exponent (point - (n + 1))).getD
    (exact significand exponent)

namespace Decimal

/-- The written decimal, with at least one digit after the point. It has an exponent from 10^16 on and below
10^-4. -/
def text (d : Decimal) : String :=
  let digits := (toString d.digits).toList
  let kept := (digits.reverse.dropWhile (· == '0')).reverse
  let point : Int := digits.length + d.exponent
  String.ofList <|
    if kept.isEmpty then ['0', '.', '0']
    else if 16 < point || point ≤ -4 then
      let power := point - 1
      let tail := if kept.length ≤ 1 then [] else '.' :: kept.drop 1
      let size := (toString power.natAbs).toList
      kept.take 1 ++ tail ++ ['e', if power < 0 then '-' else '+'] ++
        List.replicate (2 - size.length) '0' ++ size
    else if point ≤ 0 then ['0', '.'] ++ List.replicate (-point).toNat '0' ++ kept
    else
      let whole := point.toNat
      let after := kept.drop whole
      kept.take whole ++ List.replicate (whole - kept.length) '0' ++ '.' ::
        (if after.isEmpty then ['0'] else after)

end Decimal

def signText (negative : Bool) : String := if negative then "-" else ""

def text : Binary64 → String
  | .finite negative significand exponent =>
      signText negative ++
        (if significand = 0 then Decimal.text ⟨0, 0⟩ else (shortest significand exponent).text)
  | .infinite negative => signText negative ++ "inf"
  | .nan => "nan"

end Binary64
end Dataflow
