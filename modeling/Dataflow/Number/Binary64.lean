/-!
Floating point numbers of 64 bits, as exact numbers. A finite one is a significand of at most 53 binary
digits times a power of two. A decimal stands for the nearest of them; halfway between two it stands for
the one with the even significand, and beyond the greatest for an infinite one.
-/

namespace Dataflow

inductive Binary64 where
  | finite (negative : Bool) (significand : Nat) (exponent : Int)
  | infinite (negative : Bool)
  | nan
deriving DecidableEq

namespace Binary64

def leastExponent : Int := -1074

def greatestExponent : Int := 971

def leastFull : Nat := 1 <<< 52

def roundDiv (num den : Nat) : Nat :=
  let quotient := num / den
  let rest := num % den
  if 2 * rest < den then quotient
  else if den < 2 * rest then quotient + 1
  else quotient + quotient % 2

def magnitude (num den : Nat) : Int :=
  let guess : Int := (num.log2 : Int) - den.log2
  if num <<< (-guess).toNat < den <<< guess.toNat then guess - 1 else guess

def ofRatio (negative : Bool) (num den : Nat) : Binary64 :=
  let exponent := max (magnitude num den - 52) leastExponent
  let rounded := roundDiv (num <<< (-exponent).toNat) (den <<< exponent.toNat)
  let (significand, exponent) :=
    if rounded = 2 * leastFull then (leastFull, exponent + 1) else (rounded, exponent)
  if greatestExponent < exponent then .infinite negative else .finite negative significand exponent

def zero (negative : Bool) : Binary64 := .finite negative 0 leastExponent

/-- The number nearest to `digits * 10 ^ exponent`. What is far too small or far too large is told by the
place of its first digit alone. -/
def ofDecimal (negative : Bool) (digits : Nat) (exponent : Int) : Binary64 :=
  let place : Int := (toString digits).length + exponent
  if digits = 0 || place < -400 then zero negative
  else if 400 < place then .infinite negative
  else ofRatio negative (digits * Nat.pow 10 exponent.toNat) (Nat.pow 10 (-exponent).toNat)

def isZero : Binary64 → Bool
  | .finite _ significand _ => significand == 0
  | _ => false

def worth? : Binary64 → Option (Int × Int)
  | .finite negative significand exponent =>
      some (if negative then -(significand : Int) else significand, exponent)
  | _ => none

end Binary64

end Dataflow
