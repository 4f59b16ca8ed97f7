import CompilerRt.Builtins.FpLib
import CompilerRt.Lib.BitMask
import CompilerRt.Lib.RoundDiv

/-! # Sticky bits

A right shift of a representation, with the bit that is or-ed in for what was shifted out.
-/
namespace CompilerRt.FpLib
open CShift

variable {w : ℕ}

theorem toNat_or_ofBool (hw : 0 < w) (x : BitVec w) (b : Bool) :
    (x ||| ofBool w b).toNat = if b then x.toNat / 2 * 2 + 1 else x.toNat := by
  cases b
  · simp [ofBool]
  · have hone : ofBool w true = BitVec.twoPow w 0 := by
      apply BitVec.eq_of_toNat_eq
      rw [BitVec.toNat_twoPow_of_lt hw]
      exact Nat.mod_eq_of_lt (Nat.one_lt_two_pow hw.ne')
    have hbit : x.getLsbD 0 = decide (x.toNat % 2 = 1) := by
      rw [← BitVec.testBit_toNat, Nat.testBit_zero]
    rw [if_pos rfl, hone]
    rcases Nat.mod_two_eq_zero_or_one x.toNat with h | h
    · have hclear := BitMask.toNat_or_twoPow_of_clear (x := x) (k := 0) (by rw [hbit, h]; rfl) hw
      rw [hclear]
      omega
    · have hset := BitMask.or_twoPow_of_set (x := x) (k := 0) (by rw [hbit, h]; rfl)
      rw [hset]
      omega

theorem bne_zero (x : BitVec w) : (x != 0) = decide (x.toNat ≠ 0) := by
  rw [Bool.eq_iff_iff, bne_iff_ne, decide_eq_true_eq]
  exact not_congr BitVec.toNat_inj.symm

/-- What a left shift keeps of a word is zero where its low digits are. -/
theorem toNat_shiftLeft_eq_zero_iff (x : BitVec w) {k : ℕ} (hk : k ≤ w) :
    (x <<< (w - k)).toNat = 0 ↔ x.toNat % 2 ^ k = 0 := by
  have hsplit : 2 ^ w = 2 ^ k * 2 ^ (w - k) := by rw [← pow_add, Nat.add_sub_cancel' hk]
  rw [BitVec.toNat_shiftLeft, Nat.shiftLeft_eq, hsplit, Nat.mul_mod_mul_right, Nat.mul_eq_zero]
  exact or_iff_left (Nat.two_pow_pos _).ne'

/-- `x >> k | sticky` -/
theorem toNat_shiftRight_or_sticky (hw : 0 < w) (x : BitVec w) {k : ℕ} (hk : k ≤ w) :
    (x >>> k ||| ofBool w (x <<< (w - k) != 0)).toNat = stickyShift x.toNat k := by
  rw [toNat_or_ofBool hw, bne_zero, BitVec.toNat_ushiftRight, Nat.shiftRight_eq_div_pow, stickyShift]
  simp only [decide_eq_true_eq, ne_eq, toNat_shiftLeft_eq_zero_iff x hk, ite_not]

end CompilerRt.FpLib
