import Mathlib

/-! # Powers with an integer exponent

`lib/powidf2.c`, read over the rationals: an exponent is halved towards zero, and its parity is that of its
two's-complement number.
-/
namespace CompilerRt.Powidf2

abbrev SiInt := BitVec 32

def halveExponent (b : SiInt) : SiInt := b.sdiv 2

theorem toInt_halveExponent (b : SiInt) : (halveExponent b).toInt = b.toInt.tdiv 2 := by
  have h := BitVec.toInt_sdiv_of_ne_or_ne b (2 : SiInt) (Or.inr (by decide))
  exact h

theorem natAbs_halveExponent (b : SiInt) : (halveExponent b).toInt.natAbs = b.toInt.natAbs / 2 := by
  rw [toInt_halveExponent, Int.natAbs_tdiv]
  rfl

theorem eq_zero_iff_natAbs (b : SiInt) : b = 0 ↔ b.toInt.natAbs = 0 := by
  rw [Int.natAbs_eq_zero, ← BitVec.toInt_inj]
  rfl

/-- The loop, with the power and the result so far. -/
def powLoop (a r : ℚ) (b : SiInt) : ℚ :=
  let r := if b &&& 1 ≠ 0 then r * a else r
  if halveExponent b = 0 then r else powLoop (a * a) r (halveExponent b)
termination_by b.toInt.natAbs
decreasing_by
  rename_i h
  rw [eq_zero_iff_natAbs, natAbs_halveExponent] at h
  rw [natAbs_halveExponent]
  omega

/-- None where zero would be inverted. -/
def powidf2 (a : ℚ) (b : SiInt) : Option ℚ :=
  let recip := b.slt 0
  let r := powLoop a 1 b
  if recip then if r = 0 then none else some (1 / r) else some r

/-- The lowest bit of a negative number is set just if it is odd. -/
theorem and_one_ne_zero_iff (b : SiInt) : b &&& 1 ≠ 0 ↔ b.toInt.natAbs % 2 = 1 := by
  have hand : (b &&& 1).toNat = b.toNat % 2 := by
    rw [BitVec.toNat_and]
    exact Nat.and_two_pow_sub_one_eq_mod _ 1
  have hint := BitVec.toInt_eq_toNat_cond b
  have hzero : (0 : SiInt).toNat = 0 := rfl
  rw [← BitVec.toNat_ne_iff_ne, hand, hzero]
  split_ifs at hint <;> omega

/-- One round of the loop multiplies by the base just if the exponent is odd. -/
theorem round_eq (a r : ℚ) (b : SiInt) : (if b &&& 1 ≠ 0 then r * a else r) = r * a ^ (b.toInt.natAbs % 2) := by
  by_cases hodd : b &&& 1 ≠ 0
  · rw [if_pos hodd, (and_one_ne_zero_iff b).mp hodd, pow_one]
  · have hone := mt (and_one_ne_zero_iff b).mpr hodd
    have heven : b.toInt.natAbs % 2 = 0 := by omega
    rw [if_neg hodd, heven, pow_zero, mul_one]

theorem powLoop_eq (a r : ℚ) (b : SiInt) : powLoop a r b = r * a ^ b.toInt.natAbs := by
  induction hn : b.toInt.natAbs using Nat.strongRecOn generalizing a r b with
  | _ n ih =>
    have hhalf := natAbs_halveExponent b
    rw [hn] at hhalf
    have hsplit : a ^ (n % 2) * (a * a) ^ (n / 2) = a ^ n := by
      rw [← pow_two, ← pow_mul, ← pow_add, Nat.mod_add_div]
    rw [powLoop, round_eq, hn]
    by_cases hzero : halveExponent b = 0
    · rw [eq_zero_iff_natAbs, hhalf] at hzero
      rw [hzero, pow_zero, mul_one] at hsplit
      rw [if_pos ((eq_zero_iff_natAbs _).mpr (hhalf.trans hzero)), hsplit]
    · rw [if_neg hzero]
      rw [eq_zero_iff_natAbs, hhalf] at hzero
      rw [ih (n / 2) (by omega) (a * a) _ (halveExponent b) hhalf, mul_assoc, hsplit]

/-- The least integer is an exponent as any other one. -/
theorem powidf2_eq (a : ℚ) (b : SiInt) (ha : a ≠ 0) : powidf2 a b = some (a ^ b.toInt) := by
  have hloop : powLoop a 1 b = a ^ b.toInt.natAbs := by rw [powLoop_eq, one_mul]
  rw [powidf2, hloop]
  by_cases hneg : b.slt 0 = true
  · have hlt : b.toInt < 0 := by
      rw [BitVec.slt_iff_toInt_lt] at hneg
      exact hneg
    rw [if_pos hneg, if_neg (pow_ne_zero _ ha), one_div, ← zpow_natCast, ← zpow_neg, Int.ofNat_natAbs_of_nonpos hlt.le,
      neg_neg]
  · have hle : 0 ≤ b.toInt := by
      rw [BitVec.slt_iff_toInt_lt, not_lt] at hneg
      exact hneg
    rw [if_neg hneg, ← zpow_natCast, Int.natAbs_of_nonneg hle]

theorem powidf2_intMin : powidf2 (-1) (BitVec.intMin 32) = some 1 := by
  rw [powidf2_eq (-1) (BitVec.intMin 32) (by norm_num)]
  have heven : Even (BitVec.intMin 32).toInt := by decide
  rw [heven.neg_one_zpow]

end CompilerRt.Powidf2
