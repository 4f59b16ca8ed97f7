import Mathlib.Data.BitVec

/-! # Signs as masks

Routines without branches spread the sign of a word over the word, and negate another one where the mask is set.
-/
namespace CompilerRt.SignMask
variable {w : ℕ}

/-- The negation of `x` where the mask is set. -/
def negateBy (s x : BitVec w) : BitVec w := (x ^^^ s) - s

@[simp] theorem negateBy_zero (x : BitVec w) : negateBy 0#w x = x := by simp [negateBy]

@[simp] theorem negateBy_allOnes (x : BitVec w) : negateBy (BitVec.allOnes w) x = -x := by
  rw [negateBy, BitVec.xor_allOnes, ← BitVec.neg_one_eq_allOnes, BitVec.sub_neg, BitVec.neg_eq_not_add]

theorem sshiftRight_sign (x : BitVec w) : x.sshiftRight (w - 1) = if x.msb then BitVec.allOnes w else 0#w := by
  apply BitVec.eq_of_getLsbD_eq
  intro i hi
  have hmsb : x.msb = x.getLsbD (w - 1) := BitVec.msb_eq_getLsbD_last x
  have hread : (x.sshiftRight (w - 1)).getLsbD i = x.msb := by
    rw [BitVec.getLsbD_sshiftRight, decide_eq_false (by omega), Bool.not_false, Bool.true_and]
    by_cases hi0 : i = 0
    · rw [hi0, Nat.add_zero, if_pos (by omega), hmsb]
    · rw [if_neg (by omega)]
  rw [hread]
  by_cases hx : x.msb = true
  · rw [if_pos hx, BitVec.getLsbD_allOnes, decide_eq_true hi, hx]
  · rw [if_neg hx, BitVec.getLsbD_zero]
    exact Bool.eq_false_of_not_eq_true hx

/-- The absolute value; that of the smallest integer wraps to itself. -/
theorem negateBy_sign (x : BitVec w) : negateBy (x.sshiftRight (w - 1)) x = x.abs := by
  rw [sshiftRight_sign, BitVec.abs]
  split_ifs <;> simp

theorem toNat_abs_eq_natAbs (x : BitVec w) : x.abs.toNat = x.toInt.natAbs := by
  have hlt := x.isLt
  rw [BitVec.toNat_abs, BitVec.toInt_eq_msb_cond]
  generalize 2 ^ w = m at hlt
  cases x.msb with
  | false => simp
  | true =>
    simp only [↓reduceIte]
    omega

/-- Division truncated toward zero, from that of the absolute values. -/
theorem negateBy_udiv (a b : BitVec w) :
    negateBy (a.sshiftRight (w - 1) ^^^ b.sshiftRight (w - 1)) (a.abs / b.abs) = a.sdiv b := by
  rw [sshiftRight_sign, sshiftRight_sign, BitVec.sdiv_eq, BitVec.abs, BitVec.abs]
  cases a.msb <;> cases b.msb <;> simp

theorem negateBy_umod (a b : BitVec w) : negateBy (a.sshiftRight (w - 1)) (a.abs % b.abs) = a.srem b := by
  rw [sshiftRight_sign, BitVec.srem_eq, BitVec.abs, BitVec.abs]
  cases a.msb <;> cases b.msb <;> simp

/-- The remainder is what the quotient leaves, also for the one quotient that wraps. -/
theorem sub_sdiv_mul (a b : BitVec w) : a - a.sdiv b * b = a.srem b := by
  apply BitVec.eq_of_toInt_eq
  have hdiv : a.toInt - a.toInt.tdiv b.toInt * b.toInt = a.toInt.tmod b.toInt := by
    rw [Int.tmod_def, Int.mul_comm]
  rw [BitVec.toInt_sub, BitVec.toInt_mul, BitVec.toInt_sdiv, Int.bmod_mul_bmod, Int.sub_bmod_bmod, hdiv,
    ← BitVec.toInt_srem, BitVec.toInt_bmod_cancel]

end CompilerRt.SignMask
