import Dataflow.Ir.Operator

/-!
Operators on 32-bit words. What an operator computes on constants is what it computes on the words that the
constants stand for (`apply_toInt`).
-/

namespace Dataflow

abbrev Word := BitVec 32

namespace BinOp

def flag (b : Bool) : Word := if b then 1 else 0

def onWords : BinOp → Word → Word → Word
  | .add, a, b => a + b
  | .sub, a, b => a - b
  | .mul, a, b => a * b
  | .div, a, b => a.sdiv b
  | .rem, a, b => a.srem b
  | .shl, a, b => a <<< (b.toNat % 32)
  | .shr, a, b => a.sshiftRight (b.toNat % 32)
  | .ushr, a, b => a >>> (b.toNat % 32)
  | .or, a, b => a ||| b
  | .and, a, b => a &&& b
  | .xor, a, b => a ^^^ b
  | .eq, a, b => flag (a == b)
  | .ne, a, b => flag (a != b)
  | .lt, a, b => flag (a.slt b)
  | .gt, a, b => flag (b.slt a)
  | .le, a, b => flag (a.sle b)
  | .ge, a, b => flag (b.sle a)

end BinOp

namespace Word32

theorem toInt_inRange (a : Word) : InRange a.toInt := ⟨a.le_toInt, a.toInt_lt⟩

theorem toInt_ofInt (n : Int) : (BitVec.ofInt 32 n).toInt = wrap n := BitVec.toInt_ofInt n

theorem distance_toInt (a : Word) : distance a.toInt = a.toNat % 32 := by
  have bound := a.isLt
  rw [distance, BitVec.toInt_eq_toNat_cond]
  split <;> omega

theorem emod_toInt (a : Word) : a.toInt % modulus = a.toNat := by
  have bound := a.isLt
  rw [BitVec.toInt_eq_toNat_cond, modulus]
  split <;> omega

theorem shiftLeft_toInt (a b : Word) : shiftLeft a.toInt b.toInt = (a <<< (b.toNat % 32)).toInt := by
  rw [shiftLeft, distance_toInt, BitVec.toInt_shiftLeft, wrap, BitVec.toInt_eq_toNat_bmod, Int.shiftLeft_eq,
    Nat.shiftLeft_eq, modulus, Int.bmod_mul_bmod]
  push_cast
  rfl

theorem shiftRight_toInt (a b : Word) : shiftRight a.toInt b.toInt = (a.sshiftRight (b.toNat % 32)).toInt := by
  rw [shiftRight, distance_toInt, BitVec.toInt_sshiftRight]

theorem shiftRightUnsigned_toInt (a b : Word) :
    shiftRightUnsigned a.toInt b.toInt = (a >>> (b.toNat % 32)).toInt := by
  rw [shiftRightUnsigned, distance_toInt, emod_toInt, BitVec.toInt_eq_toNat_bmod, BitVec.toNat_ushiftRight]
  rfl

theorem eq_toInt_of_ofInt {n : Int} {a : Word} (inRange : InRange n) (stands : BitVec.ofInt 32 n = a) :
    n = a.toInt := by
  rw [← stands, toInt_ofInt, wrap_of_inRange inRange]

end Word32

/-! ## Bitwise operations -/

namespace Bits
open Word32

theorem inRange_ofNat {m : Nat} : InRange (.ofNat m) ↔ m < 2147483648 := by
  simp only [InRange, Int.ofNat_eq_natCast]
  omega

theorem inRange_negSucc {m : Nat} : InRange (.negSucc m) ↔ m < 2147483648 := by
  simp only [InRange, Int.negSucc_eq]
  omega

theorem inRange_not {a : Int} : InRange (~~~a) ↔ InRange a := by
  cases a with
  | ofNat m => exact inRange_negSucc.trans inRange_ofNat.symm
  | negSucc m => exact inRange_ofNat.trans inRange_negSucc.symm

theorem ofInt_not (a : Int) : BitVec.ofInt 32 (~~~a) = ~~~BitVec.ofInt 32 a := by
  cases a with
  | ofNat m => exact BitVec.ofInt_negSucc_eq_not_ofNat
  | negSucc m =>
      rw [BitVec.ofInt_negSucc_eq_not_ofNat, BitVec.not_not]
      rfl

theorem or_eq (a b : Int) : or a b = ~~~and (~~~a) (~~~b) := by
  cases a <;> cases b <;> rfl

theorem without_lt {m n : Nat} (bound : m < 2147483648) : without m n < 2147483648 :=
  Nat.xor_lt_two_pow (n := 31) bound (Nat.lt_of_le_of_lt Nat.and_le_left bound)

theorem ofNat_without (m n : Nat) :
    BitVec.ofNat 32 (without m n) = BitVec.ofNat 32 m &&& ~~~BitVec.ofNat 32 n := by
  rw [without, BitVec.ofNat_xor, BitVec.ofNat_and]
  ext i
  simp only [BitVec.getElem_xor, BitVec.getElem_and, BitVec.getElem_not]
  generalize (BitVec.ofNat 32 m)[i] = x
  generalize (BitVec.ofNat 32 n)[i] = y
  cases x <;> cases y <;> rfl

theorem and_inRange {a b : Int} (left : InRange a) (right : InRange b) : InRange (and a b) := by
  cases a with
  | ofNat m =>
      rw [inRange_ofNat] at left
      cases b with
      | ofNat n => exact inRange_ofNat.mpr (Nat.lt_of_le_of_lt Nat.and_le_left left)
      | negSucc n => exact inRange_ofNat.mpr (without_lt left)
  | negSucc m =>
      cases b with
      | ofNat n => exact inRange_ofNat.mpr (without_lt (inRange_ofNat.mp right))
      | negSucc n =>
          rw [inRange_negSucc] at left right
          exact inRange_negSucc.mpr (Nat.or_lt_two_pow (n := 31) left right)

theorem or_inRange {a b : Int} (left : InRange a) (right : InRange b) : InRange (or a b) := by
  rw [or_eq, inRange_not]
  exact and_inRange (inRange_not.mpr left) (inRange_not.mpr right)

theorem xor_inRange {a b : Int} (left : InRange a) (right : InRange b) : InRange (xor a b) := by
  cases a <;> cases b <;>
    simp only [xor, inRange_ofNat, inRange_negSucc] at left right ⊢ <;>
    exact Nat.xor_lt_two_pow (n := 31) left right

theorem ofInt_and (a b : Int) : BitVec.ofInt 32 (and a b) = BitVec.ofInt 32 a &&& BitVec.ofInt 32 b := by
  cases a <;> cases b <;>
    simp only [and, Int.ofNat_eq_natCast, BitVec.ofInt_natCast, BitVec.ofInt_negSucc_eq_not_ofNat,
      BitVec.ofNat_and, BitVec.ofNat_or, ofNat_without, BitVec.not_or]
  exact BitVec.and_comm _ _

theorem ofInt_or (a b : Int) : BitVec.ofInt 32 (or a b) = BitVec.ofInt 32 a ||| BitVec.ofInt 32 b := by
  rw [or_eq, ofInt_not, ofInt_and, ofInt_not, ofInt_not, BitVec.not_and, BitVec.not_not, BitVec.not_not]

theorem ofInt_xor (a b : Int) : BitVec.ofInt 32 (xor a b) = BitVec.ofInt 32 a ^^^ BitVec.ofInt 32 b := by
  cases a <;> cases b <;>
    simp only [xor, Int.ofNat_eq_natCast, BitVec.ofInt_natCast, BitVec.ofInt_negSucc_eq_not_ofNat,
      BitVec.ofNat_xor, ← BitVec.not_xor_left, ← BitVec.not_xor_right, BitVec.not_not]

theorem and_toInt (a b : Word) : and a.toInt b.toInt = (a &&& b).toInt :=
  eq_toInt_of_ofInt (and_inRange (toInt_inRange a) (toInt_inRange b)) (by rw [ofInt_and]; simp)

theorem or_toInt (a b : Word) : or a.toInt b.toInt = (a ||| b).toInt :=
  eq_toInt_of_ofInt (or_inRange (toInt_inRange a) (toInt_inRange b)) (by rw [ofInt_or]; simp)

theorem xor_toInt (a b : Word) : xor a.toInt b.toInt = (a ^^^ b).toInt :=
  eq_toInt_of_ofInt (xor_inRange (toInt_inRange a) (toInt_inRange b)) (by rw [ofInt_xor]; simp)

end Bits

/-! ## All operators -/

namespace BinOp

theorem truth_eq (b : Bool) : truth b = (flag b).toInt := by
  cases b <;> rfl

theorem apply_toInt (op : BinOp) (a b : Word) : op.apply a.toInt b.toInt = (op.onWords a b).toInt := by
  cases op with
  | add => exact (BitVec.toInt_add a b).symm
  | sub => exact BitVec.toInt_sub.symm
  | mul => exact (BitVec.toInt_mul a b).symm
  | div => exact (BitVec.toInt_sdiv a b).symm
  | rem =>
      have result := BitVec.toInt_srem a b
      rw [apply, onWords, Word32.rem, ← result]
      exact Word32.wrap_of_inRange (Word32.toInt_inRange _)
  | shl => exact Word32.shiftLeft_toInt a b
  | shr => exact Word32.shiftRight_toInt a b
  | ushr => exact Word32.shiftRightUnsigned_toInt a b
  | or => exact Bits.or_toInt a b
  | and => exact Bits.and_toInt a b
  | xor => exact Bits.xor_toInt a b
  | eq | ne =>
      have same : (a.toInt == b.toInt) = (a == b) := by
        rw [Bool.eq_iff_iff, beq_iff_eq, beq_iff_eq, BitVec.toInt_inj]
      simp [apply, onWords, truth_eq, bne, same]
  | lt | gt | le | ge => simp [apply, onWords, truth_eq, BitVec.slt_eq_decide, BitVec.sle_eq_decide]

theorem apply_inRange (op : BinOp) {m n : Int} (left : Word32.InRange m) (right : Word32.InRange n) :
    Word32.InRange (op.apply m n) := by
  rw [Word32.eq_toInt_of_ofInt left rfl, Word32.eq_toInt_of_ofInt right rfl, apply_toInt]
  exact Word32.toInt_inRange _

end BinOp

end Dataflow
