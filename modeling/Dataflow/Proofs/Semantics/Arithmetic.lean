import Dataflow.Proofs.Semantics.Words
import Mathlib.Data.Int.Bitwise
import Mathlib.Data.Int.ModEq
import Mathlib.Tactic.Linarith
import Mathlib.Tactic.Ring

/-!
Signed arithmetic on words, as rules about integers. Each operator has a rule (`BinOp.Gives`) that says which integers
it may give for two operands: a residue, a quotient rounded toward zero with the remainder that it leaves, a shift by
a distance below 32, bits one by one, or a truth value. On signed words an operator gives the one signed word that its
rule allows, and that is what the same operator gives on the words themselves (`BinOp.apply_exact`).
-/

namespace Dataflow

namespace Word32

/-! ## Residues -/

theorem wrap_modEq (n : Int) : wrap n ≡ n [ZMOD modulus] := Int.bmod_emod

theorem wrap_eq_of_modEq {m n : Int} (same : m ≡ n [ZMOD modulus]) : wrap m = wrap n := by
  rw [wrap, wrap, ← Int.emod_bmod m, ← Int.emod_bmod n, same]

theorem eq_wrap_iff {n r : Int} : r = wrap n ↔ InRange r ∧ r ≡ n [ZMOD modulus] := by
  constructor
  · rintro rfl
    exact ⟨wrap_inRange n, wrap_modEq n⟩
  · rintro ⟨inRange, same⟩
    rw [← wrap_eq_of_modEq same, wrap_of_inRange inRange]

def Unsigned (n u : Int) : Prop := 0 ≤ u ∧ u < modulus ∧ u ≡ n [ZMOD modulus]

theorem unsigned_iff {n u : Int} : Unsigned n u ↔ u = n % modulus := by
  constructor
  · rintro ⟨lower, upper, same⟩
    rw [← same, Int.emod_eq_of_lt lower upper]
  · rintro rfl
    exact ⟨Int.emod_nonneg n (by decide), Int.emod_lt_of_pos n (by decide), Int.mod_modEq n modulus⟩

/-! ## Quotients -/

/-- `q` is the quotient of `a` by `b` rounded toward zero, and `r` is the remainder, which has the sign of `a`. -/
structure Truncates (a b q r : Int) : Prop where
  whole : a = q * b + r
  small : r.natAbs < b.natAbs
  signed : 0 ≤ r * a

theorem Truncates.neg {a b q r : Int} (truncates : Truncates a b q r) : Truncates (-a) b (-q) (-r) where
  whole := by rw [truncates.whole]; ring
  small := by rw [Int.natAbs_neg]; exact truncates.small
  signed := by rw [neg_mul_neg]; exact truncates.signed

theorem truncates_tdiv {a b : Int} (nonzero : b ≠ 0) : Truncates a b (a.tdiv b) (a.tmod b) where
  whole := by rw [add_comm, Int.tmod_add_tdiv_mul]
  small := by
    rw [Int.natAbs_tmod]
    exact Nat.mod_lt _ (Int.natAbs_pos.mpr nonzero)
  signed := by
    rcases le_total 0 a with sign | sign
    · exact mul_nonneg (Int.tmod_nonneg b sign) sign
    · have opposite := Int.tmod_nonneg b (neg_nonneg.mpr sign)
      rw [Int.neg_tmod] at opposite
      exact mul_nonneg_of_nonpos_of_nonpos (neg_nonneg.mp opposite) sign

theorem Truncates.nonneg {a b q r : Int} (truncates : Truncates a b q r) (sign : 0 ≤ a) : 0 ≤ r := by
  rcases sign.eq_or_lt with rfl | positive
  · -- what zero leaves is a multiple of the divisor and smaller than it
    have multiple : b ∣ r := ⟨-q, by linarith [truncates.whole]⟩
    exact (Int.eq_zero_of_dvd_of_natAbs_lt_natAbs multiple truncates.small).ge
  · exact nonneg_of_mul_nonneg_left truncates.signed positive

theorem truncates_iff {a b q r : Int} (nonzero : b ≠ 0) : Truncates a b q r ↔ q = a.tdiv b ∧ r = a.tmod b := by
  have of_nonneg {a q r : Int} (sign : 0 ≤ a) (truncates : Truncates a b q r) : a.tdiv b = q ∧ a.tmod b = r := by
    have lower := truncates.nonneg sign
    refine (Int.tdiv_tmod_unique sign nonzero).mpr ⟨by rw [truncates.whole]; ring, lower, ?_⟩
    rw [← Int.natAbs_of_nonneg lower]
    exact Int.ofNat_lt.mpr truncates.small
  constructor
  · intro truncates
    rcases le_total 0 a with sign | sign
    · exact (of_nonneg sign truncates).imp Eq.symm Eq.symm
    · have opposite := of_nonneg (neg_nonneg.mpr sign) truncates.neg
      rw [Int.neg_tdiv, Int.neg_tmod, neg_inj, neg_inj] at opposite
      exact opposite.imp Eq.symm Eq.symm
  · rintro ⟨rfl, rfl⟩
    exact truncates_tdiv nonzero

/-- The least word divided by minus one is the only quotient that is no signed word. -/
theorem tdiv_inRange {a b : Int} (left : InRange a) (nonzero : b ≠ 0) (ordinary : ¬ (a = -2147483648 ∧ b = -1)) :
    InRange (a.tdiv b) := by
  obtain ⟨lower, upper⟩ := left
  have small := Int.natAbs_tdiv_le_natAbs a b
  by_cases extreme : a.tdiv b = 2147483648
  · have least : a = -2147483648 := by omega
    subst least
    have whole := (truncates_tdiv (a := -2147483648) nonzero).whole
    have rest := (truncates_tdiv (a := -2147483648) nonzero).small
    rw [extreme] at whole
    refine absurd ⟨rfl, ?_⟩ ordinary
    omega
  · constructor <;> omega

theorem div_min : div (-2147483648) (-1) = -2147483648 := by decide

/-! ## Shifts -/

def Distance (n : Int) (d : Nat) : Prop := d < 32 ∧ d ≡ n [ZMOD 32]

theorem distance_iff {n : Int} {d : Nat} : Distance n d ↔ d = distance n := by
  unfold Distance distance Int.ModEq
  omega

theorem floor_iff {a r : Int} (d : Nat) : r * 2 ^ d ≤ a ∧ a < (r + 1) * 2 ^ d ↔ r = a >>> d := by
  have positive : (0 : Int) < 2 ^ d := by positivity
  rw [Int.shiftRight_eq_div_pow, eq_comm, Nat.cast_pow, Nat.cast_ofNat, Int.ediv_eq_iff_of_pos positive, add_mul,
    one_mul]

end Word32

/-! ## Bits -/

namespace Bits

theorem without_eq_ldiff (m n : Nat) : without m n = m.ldiff n := by
  refine Nat.eq_of_testBit_eq fun i => ?_
  rw [without, Nat.testBit_xor, Nat.testBit_and, Nat.testBit_ldiff]
  cases m.testBit i <;> cases n.testBit i <;> rfl

theorem and_eq_land (a b : Int) : and a b = Int.land a b := by
  cases a <;> cases b <;> simp [and, Int.land, without_eq_ldiff]

theorem or_eq_lor (a b : Int) : or a b = Int.lor a b := by
  cases a <;> cases b <;> simp [or, Int.lor, without_eq_ldiff]

theorem xor_eq_xor (a b : Int) : xor a b = Int.xor a b := by
  cases a <;> cases b <;> rfl

theorem testBit_of_le {m i : Nat} (le : m ≤ i) : m.testBit i = false :=
  Nat.testBit_lt_two_pow (Nat.lt_two_pow_self.trans_le (Nat.pow_le_pow_right two_pos le))

theorem eq_of_testBit {a b : Int} (same : ∀ i, a.testBit i = b.testBit i) : a = b := by
  cases a with
  | ofNat m =>
      cases b with
      | ofNat n => exact congrArg Int.ofNat (Nat.eq_of_testBit_eq same)
      | negSucc n =>
          -- a negative integer has ones where a natural number has ended
          simpa [Int.testBit, testBit_of_le] using same (m + n)
  | negSucc m =>
      cases b with
      | ofNat n => simpa [Int.testBit, testBit_of_le] using same (m + n)
      | negSucc n =>
          refine congrArg Int.negSucc (Nat.eq_of_testBit_eq fun i => ?_)
          simpa [Int.testBit] using same i

theorem testBit_iff {a b : Int} : (∀ i, a.testBit i = b.testBit i) ↔ a = b :=
  ⟨eq_of_testBit, fun same _ => same ▸ rfl⟩

end Bits

/-! ## Rules -/

namespace BinOp
open Word32

/-- The rule of an operator: what it may give for two operands, up to the choice of a signed word. -/
def Gives : BinOp → Int → Int → Int → Prop
  | .add, a, b, r => r ≡ a + b [ZMOD modulus]
  | .sub, a, b, r => r ≡ a - b [ZMOD modulus]
  | .mul, a, b, r => r ≡ a * b [ZMOD modulus]
  | .div, a, b, r => if a = -2147483648 ∧ b = -1 then r = -2147483648 else ∃ s, Truncates a b r s
  | .rem, a, b, r => ∃ q, Truncates a b q r
  | .shl, a, b, r => ∃ d, Distance b d ∧ r ≡ a * 2 ^ d [ZMOD modulus]
  | .shr, a, b, r => ∃ d, Distance b d ∧ r * 2 ^ d ≤ a ∧ a < (r + 1) * 2 ^ d
  | .ushr, a, b, r => ∃ d, Distance b d ∧ ∃ u w, Unsigned a u ∧ Unsigned r w ∧ w * 2 ^ d ≤ u ∧ u < (w + 1) * 2 ^ d
  | .or, a, b, r => ∀ i, r.testBit i = (a.testBit i || b.testBit i)
  | .and, a, b, r => ∀ i, r.testBit i = (a.testBit i && b.testBit i)
  | .xor, a, b, r => ∀ i, r.testBit i = (a.testBit i ^^ b.testBit i)
  | .eq, a, b, r => r = if a = b then 1 else 0
  | .ne, a, b, r => r = if a ≠ b then 1 else 0
  | .lt, a, b, r => r = if a < b then 1 else 0
  | .gt, a, b, r => r = if a > b then 1 else 0
  | .le, a, b, r => r = if a ≤ b then 1 else 0
  | .ge, a, b, r => r = if a ≥ b then 1 else 0

section Rules
variable {a b r : Int}

theorem gives_div_iff (left : InRange a) (nonzero : b ≠ 0) : Gives .div a b r ↔ r = Word32.div a b := by
  rw [Gives]
  split
  · next extreme =>
      obtain ⟨rfl, rfl⟩ := extreme
      rw [div_min]
  · next ordinary =>
      simp only [truncates_iff nonzero, exists_eq_right]
      rw [Word32.div, wrap_of_inRange (tdiv_inRange left nonzero ordinary)]

theorem gives_rem_iff (right : InRange b) (nonzero : b ≠ 0) : Gives .rem a b r ↔ r = Word32.rem a b := by
  have inRange : InRange (a.tmod b) := by
    have small := (truncates_tdiv (a := a) nonzero).small
    obtain ⟨lower, upper⟩ := right
    constructor <;> omega
  simp only [Gives, truncates_iff nonzero, exists_eq_left]
  rw [Word32.rem, wrap_of_inRange inRange]

theorem gives_shl_iff : InRange r ∧ Gives .shl a b r ↔ r = shiftLeft a b := by
  simp only [Gives, distance_iff, exists_eq_left]
  rw [shiftLeft, eq_wrap_iff, Int.shiftLeft_eq]

theorem gives_shr_iff : Gives .shr a b r ↔ r = shiftRight a b := by
  simp only [Gives, distance_iff, exists_eq_left, floor_iff]
  rfl

theorem gives_ushr_iff : InRange r ∧ Gives .ushr a b r ↔ r = shiftRightUnsigned a b := by
  simp only [Gives, distance_iff, unsigned_iff, exists_and_left, exists_eq_left, floor_iff]
  -- what is shifted to the right stays an unsigned reading
  have shifted : (a % modulus) >>> distance b % modulus = (a % modulus) >>> distance b := by
    obtain ⟨lower, upper, -⟩ := unsigned_iff.mpr (rfl : a % modulus = a % modulus)
    rw [Int.shiftRight_eq_div_pow]
    exact Int.emod_eq_of_lt (Int.ediv_nonneg lower (Int.natCast_nonneg _))
      ((Int.ediv_le_self _ lower).trans_lt upper)
  rw [shiftRightUnsigned, eq_wrap_iff, Int.ModEq, shifted]

theorem eq_apply_iff (op : BinOp) (left : InRange a) (right : InRange b) (divisor : op.divides = true → b ≠ 0) :
    r = op.apply a b ↔ InRange r ∧ op.Gives a b r := by
  -- a rule that allows just one integer allows a signed word
  have of_unique (unique : op.Gives a b r ↔ r = op.apply a b) : r = op.apply a b ↔ InRange r ∧ op.Gives a b r := by
    rw [unique, iff_and_self]
    rintro rfl
    exact op.apply_inRange left right
  cases op with
  | add | sub | mul => exact eq_wrap_iff
  | div => exact of_unique (gives_div_iff left (divisor rfl))
  | rem => exact of_unique (gives_rem_iff right (divisor rfl))
  | shl => exact gives_shl_iff.symm
  | shr => exact of_unique gives_shr_iff
  | ushr => exact gives_ushr_iff.symm
  | or =>
      refine of_unique ?_
      simp only [Gives, ← Int.testBit_lor, Bits.testBit_iff, apply, Bits.or_eq_lor]
  | and =>
      refine of_unique ?_
      simp only [Gives, ← Int.testBit_land, Bits.testBit_iff, apply, Bits.and_eq_land]
  | xor =>
      refine of_unique ?_
      simp only [Gives, ← Int.testBit_lxor, Bits.testBit_iff, apply, Bits.xor_eq_xor]
  | eq | ne | lt | gt | le | ge => exact of_unique (by simp [Gives, apply, truth])

theorem div_rem_modEq (nonzero : b ≠ 0) : a ≡ Word32.div a b * b + Word32.rem a b [ZMOD modulus] := by
  calc a = a.tdiv b * b + a.tmod b := (truncates_tdiv nonzero).whole
    _ ≡ Word32.div a b * b + Word32.rem a b [ZMOD modulus] :=
        ((wrap_modEq _).symm.mul_right b).add (wrap_modEq _).symm

end Rules

/-- Wrapping gives the one signed word that an integer is congruent to. An operator gives, on signed words, the one
signed word that its rule allows; this is the signed reading of what it gives on words, and quotient and remainder
make up the dividend. -/
theorem apply_exact :
    (∀ v r : Int, r = wrap v ↔ InRange r ∧ r ≡ v [ZMOD modulus]) ∧
    ∀ (op : BinOp) (a b : Int), InRange a → InRange b → (op.divides = true → b ≠ 0) →
      (∀ r, r = op.apply a b ↔ InRange r ∧ op.Gives a b r) ∧
      op.apply a b = (op.onWords (.ofInt 32 a) (.ofInt 32 b)).toInt ∧
      (b ≠ 0 → a ≡ BinOp.div.apply a b * b + BinOp.rem.apply a b [ZMOD modulus]) := by
  refine ⟨fun v r => eq_wrap_iff, fun op a b left right divisor => ⟨fun r => ?_, ?_, div_rem_modEq⟩⟩
  · exact op.eq_apply_iff left right divisor
  · rw [← apply_toInt, ← eq_toInt_of_ofInt left rfl, ← eq_toInt_of_ofInt right rfl]

theorem apply_exact_least : InRange (-2147483648) ∧ InRange (-1) ∧ BinOp.div.apply (-2147483648) (-1) = -2147483648 ∧
    BinOp.rem.apply (-2147483648) (-1) = 0 ∧
    (∀ r, r = BinOp.div.apply (-2147483648) (-1) ↔ InRange r ∧ BinOp.div.Gives (-2147483648) (-1) r) ∧
    BinOp.div.apply (-2147483648) (-1) = (BinOp.div.onWords (.ofInt 32 (-2147483648)) (.ofInt 32 (-1))).toInt ∧
    -2147483648 ≡ BinOp.div.apply (-2147483648) (-1) * -1 + BinOp.rem.apply (-2147483648) (-1) [ZMOD modulus] := by
  have left : InRange (-2147483648) := ⟨by decide, by decide⟩
  have right : InRange (-1) := ⟨by decide, by decide⟩
  obtain ⟨rule, words, whole⟩ := apply_exact.2 .div (-2147483648) (-1) left right (by decide)
  exact ⟨left, right, by decide, by decide, rule, words, whole (by decide)⟩

end BinOp

end Dataflow
