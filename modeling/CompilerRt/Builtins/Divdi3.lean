import CompilerRt.Builtins.UdivmodRight
import Mathlib.Algebra.Order.Ring.Int

/-! # Signed division of 64-bit words

`__divdi3` and `__moddi3` call `__udivmoddi4` with the absolute values; `__divmoddi4` has its remainder from a product.
-/
namespace CompilerRt.Divdi3
open SignMask SignedDivision Udivmod

section Routines
variable (v : OutOfRange) (a b : BitVec 64)

def divdi3 : BitVec 64 := SignedDivision.divide (fun a b => (udivmoddi4 v a b).1) a b

def moddi3 : BitVec 64 :=
  let s := b.sshiftRight 63
  let b := (b ^^^ s) - s
  let s := a.sshiftRight 63
  let a := (a ^^^ s) - s
  let r := (udivmoddi4 v a b).2
  (r ^^^ s) - s

def divmoddi4 : BitVec 64 × BitVec 64 := divideWithRem (divdi3 v) a b

end Routines

section Right
variable (v : OutOfRange) {a b : BitVec 64}

theorem divdi3_eq_sdiv (hb : b ≠ 0) : divdi3 v a b = a.sdiv b := by
  have habs := abs_ne_zero hb
  refine divide_eq (BitVec.eq_of_toNat_eq ?_)
  rw [BitVec.toNat_udiv]
  exact (udivmoddi4_right v a.abs habs).1

theorem moddi3_eq_srem (hb : b ≠ 0) : moddi3 v a b = a.srem b := by
  have habs := abs_ne_zero hb
  have hmod : (udivmoddi4 v a.abs b.abs).2 = a.abs % b.abs := by
    apply BitVec.eq_of_toNat_eq
    rw [BitVec.toNat_umod]
    exact (udivmoddi4_right v a.abs habs).2
  rw [← negateBy_umod, ← hmod, ← negateBy_sign, ← negateBy_sign]
  rfl

theorem divmoddi4_eq (hb : b ≠ 0) : divmoddi4 v a b = (divdi3 v a b,moddi3 v a b) := by
  rw [divdi3_eq_sdiv v hb, moddi3_eq_srem v hb]
  exact divideWithRem_eq (divdi3_eq_sdiv v hb)

/-- The exclusive or with the sign mask and the subtraction give the absolute value, that of the smallest word too. -/
theorem signFix_natAbs (x : BitVec 64) : ((x ^^^ x.sshiftRight 63) - x.sshiftRight 63).toNat = x.toInt.natAbs :=
  (congrArg BitVec.toNat (negateBy_sign x)).trans (toNat_abs_eq_natAbs x)

/-- A remainder of truncated division is smaller than the divisor and has the sign of the dividend. -/
theorem tmod_facts (x : ℤ) {y : ℤ} (hy : y ≠ 0) : |x.tmod y| < |y| ∧ (x.tmod y = 0 ∨ (x.tmod y < 0 ↔ x < 0)) := by
  have habs : |x.tmod y| < |y| := by
    have hlt := Int.natAbs_tmod x y
    have hmod := Nat.mod_lt x.natAbs (Int.natAbs_pos.mpr hy)
    rw [Int.abs_eq_natAbs, Int.abs_eq_natAbs, hlt]
    exact_mod_cast hmod
  refine ⟨habs,?_⟩
  rcases lt_or_ge x 0 with hneg | hnonneg
  · have hle : x.tmod y ≤ 0 := by
      rw [← neg_neg x, Int.neg_tmod]
      exact neg_nonpos.mpr (Int.tmod_nonneg y (by omega))
    omega
  · have hge := Int.tmod_nonneg y hnonneg
    omega

end Right

/-- The whole family, for all operands whose quotient fits. -/
theorem divdi3_right (v : OutOfRange) (a b : BitVec 64) (hb : b ≠ 0) (hwraps : ¬Wraps a b) :
    (divdi3 v a b).toInt = a.toInt.tdiv b.toInt ∧
    a.toInt = (divdi3 v a b).toInt * b.toInt + (moddi3 v a b).toInt ∧
    |(moddi3 v a b).toInt| < |b.toInt| ∧
    ((moddi3 v a b).toInt = 0 ∨ ((moddi3 v a b).toInt < 0 ↔ a.toInt < 0)) ∧
    divmoddi4 v a b = (divdi3 v a b,moddi3 v a b) ∧
    ∀ x ∈ [a,b], ((x ^^^ x.sshiftRight 63) - x.sshiftRight 63).toNat = x.toInt.natAbs := by
  have hb0 : b.toInt ≠ 0 := fun h => hb (BitVec.toInt_inj.mp h)
  obtain ⟨habs,hsign⟩ := tmod_facts a.toInt hb0
  have hq : (divdi3 v a b).toInt = a.toInt.tdiv b.toInt := by
    rw [divdi3_eq_sdiv v hb]
    exact toInt_sdiv hwraps
  have hr : (moddi3 v a b).toInt = a.toInt.tmod b.toInt := by
    rw [moddi3_eq_srem v hb, BitVec.toInt_srem]
  rw [hq, hr]
  refine ⟨rfl,?_,habs,hsign,divmoddi4_eq v hb,fun x _ => signFix_natAbs x⟩
  rw [mul_comm]
  exact (Int.mul_tdiv_add_tmod a.toInt b.toInt).symm

/-- The smallest word, by three. -/
theorem divdi3_right_intMin : (divdi3 modularShifts 0x8000000000000000 3).toInt =
    (0x8000000000000000 : BitVec 64).toInt.tdiv (3 : BitVec 64).toInt :=
  (divdi3_right modularShifts 0x8000000000000000 3 (by decide) (by unfold Wraps; decide)).1

end CompilerRt.Divdi3
