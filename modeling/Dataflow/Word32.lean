/-!
Signed 32-bit arithmetic on integers, and bitwise operations on integers of any size. An integer of any
size stands for the word it is congruent to; `wrap` gives the representative in [-2^31, 2^31).
-/

namespace Dataflow

namespace Word32

def modulus : Nat := 4294967296

def wrap (n : Int) : Int := Int.bmod n modulus

def InRange (n : Int) : Prop := -2147483648 ≤ n ∧ n < 2147483648

theorem wrap_inRange (n : Int) : InRange (wrap n) := by
  have lower := Int.le_bmod (x := n) (m := modulus) (by decide)
  have upper := Int.bmod_lt (x := n) (m := modulus) (by decide)
  simp only [modulus] at lower upper
  constructor <;> simp only [wrap, modulus] <;> omega

theorem wrap_of_inRange {n : Int} (h : InRange n) : wrap n = n := by
  obtain ⟨lower, upper⟩ := h
  exact Int.bmod_eq_of_le (by simp only [modulus]; omega) (by simp only [modulus]; omega)

def div (a b : Int) : Int := wrap (a.tdiv b)

def rem (a b : Int) : Int := wrap (a.tmod b)

def distance (n : Int) : Nat := (n % 32).toNat

def shiftLeft (a b : Int) : Int := wrap (a <<< distance b)

def shiftRight (a b : Int) : Int := a >>> distance b

def shiftRightUnsigned (a b : Int) : Int := wrap ((a % modulus) >>> distance b)

end Word32

/-!
Bitwise operations: a negative integer has infinitely many leading ones, that is, `Int.negSucc n` has the
complement of the bits of `n`.
-/

namespace Bits

def without (m n : Nat) : Nat := m ^^^ (m &&& n)

def and : Int → Int → Int
  | .ofNat m, .ofNat n => .ofNat (m &&& n)
  | .ofNat m, .negSucc n => .ofNat (without m n)
  | .negSucc m, .ofNat n => .ofNat (without n m)
  | .negSucc m, .negSucc n => .negSucc (m ||| n)

def or : Int → Int → Int
  | .ofNat m, .ofNat n => .ofNat (m ||| n)
  | .ofNat m, .negSucc n => .negSucc (without n m)
  | .negSucc m, .ofNat n => .negSucc (without m n)
  | .negSucc m, .negSucc n => .negSucc (m &&& n)

def xor : Int → Int → Int
  | .ofNat m, .ofNat n => .ofNat (m ^^^ n)
  | .ofNat m, .negSucc n => .negSucc (m ^^^ n)
  | .negSucc m, .ofNat n => .negSucc (m ^^^ n)
  | .negSucc m, .negSucc n => .ofNat (m ^^^ n)

end Bits

end Dataflow
