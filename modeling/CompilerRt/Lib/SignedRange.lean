import CompilerRt.Lib.SignMask
import Mathlib.Algebra.Order.Ring.Abs

/-! # The range of signed words

Exact results that fit into a signed word are what wrapping arithmetic gives; sums that do not are off by the modulus.
-/
namespace CompilerRt.SignedRange
variable {w : ℕ}

/-- An integer that a signed word of `w` bits can hold. -/
def Fits (w : ℕ) (z : ℤ) : Prop := -2 ^ (w - 1) ≤ z ∧ z < 2 ^ (w - 1)

instance (w : ℕ) (z : ℤ) : Decidable (Fits w z) := inferInstanceAs (Decidable (_ ∧ _))

theorem fits_toInt (x : BitVec w) : Fits w x.toInt := ⟨BitVec.le_toInt x,BitVec.toInt_lt⟩

theorem fits_iff_abs {z : ℤ} : Fits w z ↔ if 0 ≤ z then |z| ≤ 2 ^ (w - 1) - 1 else |z| ≤ 2 ^ (w - 1) := by
  unfold Fits
  split_ifs with h
  · rw [abs_of_nonneg h]
    omega
  · rw [abs_of_neg (not_le.mp h)]
    omega

/-- Bounds that are quotients of the largest magnitude. -/
theorem abs_mul_le_iff {x y : ℤ} {n : ℤ} (hy : 0 < |y|) : |x * y| ≤ n ↔ |x| ≤ n / |y| := by
  rw [abs_mul, Int.le_ediv_iff_mul_le hy]

section Wrap
variable (hw : 0 < w)
include hw

theorem two_pow_eq : (2 : ℤ) ^ w = 2 * 2 ^ (w - 1) := by
  rw [← pow_succ', Nat.sub_add_cancel hw]

theorem bmod_of_fits {z : ℤ} (h : Fits w z) : z.bmod (2 ^ w) = z := by
  have htwo := two_pow_eq hw
  obtain ⟨hlo,hhi⟩ := h
  refine Int.bmod_eq_of_le_mul_two ?_ ?_
  · push_cast
    omega
  · push_cast
    omega

/-- A sum that is too large, or too small, by at most the modulus. -/
theorem bmod_cases {z : ℤ} (hlo : -2 ^ w ≤ z) (hhi : z < 2 ^ w) :
    z < -2 ^ (w - 1) ∧ z.bmod (2 ^ w) = z + 2 ^ w ∨ Fits w z ∧ z.bmod (2 ^ w) = z ∨
      2 ^ (w - 1) ≤ z ∧ z.bmod (2 ^ w) = z - 2 ^ w := by
  have htwo := two_pow_eq hw
  have hcast : ((2 ^ w : ℕ) : ℤ) = 2 ^ w := by push_cast; rfl
  rcases lt_or_ge z (-2 ^ (w - 1)) with hlow | hle
  · have hwrap : (z + 2 ^ w).bmod (2 ^ w) = z.bmod (2 ^ w) := by rw [← hcast, Int.add_bmod_right]
    exact .inl ⟨hlow,by rw [← hwrap]; exact bmod_of_fits hw ⟨by omega,by omega⟩⟩
  rcases lt_or_ge z (2 ^ (w - 1)) with hlt | hge
  · exact .inr (.inl ⟨⟨hle,hlt⟩,bmod_of_fits hw ⟨hle,hlt⟩⟩)
  · have hwrap : (z - 2 ^ w).bmod (2 ^ w) = z.bmod (2 ^ w) := by rw [← hcast, Int.sub_bmod_right]
    exact .inr (.inr ⟨hge,by rw [← hwrap]; exact bmod_of_fits hw ⟨by omega,by omega⟩⟩)

end Wrap

end CompilerRt.SignedRange
