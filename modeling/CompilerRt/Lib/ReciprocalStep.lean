import Mathlib.Algebra.Order.Field.Power
import Mathlib.Algebra.Order.Field.Rat
import Mathlib.Data.Rat.Cast.Order
import Mathlib.Tactic.FieldSimp
import Mathlib.Tactic.GCongr
import Mathlib.Tactic.LinearCombination
import Mathlib.Tactic.Linarith
import Mathlib.Tactic.Positivity
import Mathlib.Tactic.Ring

/-! # Newton steps in fixed point

An approximation `x` of a reciprocal is refined by `x * (2 - x * d)`, both products truncated. What is followed is the
product of the approximation with the divisor, which is near one. Its error is squared; the first truncation can push
it over one by one unit of the correction, and the second one lets it fall by one unit of the result.
-/
namespace CompilerRt

/-- The scale of `x * d` is `2 ^ (i + j - 1)`, that of the correction `2 ^ (j - 1)`. -/
def reciprocalStep (i j k d x : ℕ) : ℕ := x * (2 ^ j - x * d / 2 ^ i) / 2 ^ k

section Step
variable {i j k m d x : ℕ} {y : ℚ}

theorem cast_div_bounds (n e : ℕ) : ((n / 2 ^ e : ℕ) : ℚ) * 2 ^ e ≤ n ∧ (n : ℚ) < ((n / 2 ^ e : ℕ) + 1) * 2 ^ e := by
  have hlo := Nat.div_mul_le_self n (2 ^ e)
  have hhi := Nat.lt_div_mul_add (a := n) (Nat.two_pow_pos e)
  constructor
  · exact_mod_cast hlo
  · rw [add_mul, one_mul]
    exact_mod_cast hhi

/-- The correction is `2 - y`, up to one unit more. -/
theorem correction_bounds (hy : (x * d : ℚ) = y * 2 ^ (i + j)) (hwrap : x * d / 2 ^ i ≤ 2 ^ (j + 1)) :
    (2 - y) * 2 ^ j ≤ ((2 ^ (j + 1) - x * d / 2 ^ i : ℕ) : ℚ) ∧
      ((2 ^ (j + 1) - x * d / 2 ^ i : ℕ) : ℚ) ≤ (2 - y + 1 / 2 ^ j) * 2 ^ j := by
  have hpow : (0 : ℚ) < 2 ^ i := by positivity
  have hunit : (1 / 2 ^ j : ℚ) * 2 ^ j = 1 := by
    rw [one_div, inv_mul_cancel₀]
    positivity
  obtain ⟨hlo,hhi⟩ := cast_div_bounds (x * d) i
  rw [Nat.cast_mul, hy, add_comm i, pow_add, ← mul_assoc] at hlo hhi
  have hp := le_of_mul_le_mul_right hlo hpow
  have hp' := lt_of_mul_lt_mul_right hhi hpow.le
  rw [Nat.cast_sub hwrap, Nat.cast_pow, Nat.cast_ofNat, pow_succ]
  constructor <;> nlinarith

/-- What a step does to the product with the divisor. -/
theorem reciprocalStep_bounds (hy : (x * d : ℚ) = y * 2 ^ (i + j)) (hwrap : x * d / 2 ^ i ≤ 2 ^ (j + 1)) (h0 : 0 ≤ y)
    (hm : m + k = i + 2 * j) (hd : 0 < d) :
    y * (2 - y) - d / 2 ^ m < (reciprocalStep i (j + 1) k d x * d : ℚ) / 2 ^ m ∧
      (reciprocalStep i (j + 1) k d x * d : ℚ) / 2 ^ m ≤ y * (2 - y + 1 / 2 ^ j) := by
  obtain ⟨hclo,hchi⟩ := correction_bounds hy hwrap
  obtain ⟨c,hc⟩ : ∃ c, c = 2 ^ (j + 1) - x * d / 2 ^ i := ⟨_,rfl⟩
  rw [← hc] at hclo hchi
  obtain ⟨hlo,hhi⟩ := cast_div_bounds (x * c) k
  have hstep : reciprocalStep i (j + 1) k d x = x * c / 2 ^ k := by rw [reciprocalStep, ← hc]
  have hd' : (0 : ℚ) < d := Nat.cast_pos.mpr hd
  have hk : (0 : ℚ) < 2 ^ k := by positivity
  have hj : (0 : ℚ) < 2 ^ j := by positivity
  have hmpos : (0 : ℚ) < 2 ^ m := by positivity
  have hscale : (2 : ℚ) ^ (i + j) * 2 ^ j = 2 ^ m * 2 ^ k := by
    rw [← pow_add, ← pow_add]
    congr 1
    omega
  -- the product before the second truncation
  have hprod : ((x * c : ℕ) : ℚ) * d = y * c * 2 ^ (i + j) := by
    rw [Nat.cast_mul]
    linear_combination (c : ℚ) * hy
  have hupper : ((x * c : ℕ) : ℚ) * d ≤ y * (2 - y + 1 / 2 ^ j) * (2 ^ m * 2 ^ k) := by
    rw [hprod, ← hscale]
    calc y * c * 2 ^ (i + j) ≤ y * ((2 - y + 1 / 2 ^ j) * 2 ^ j) * 2 ^ (i + j) := by gcongr
      _ = y * (2 - y + 1 / 2 ^ j) * (2 ^ (i + j) * 2 ^ j) := by ring
  have hlower : y * (2 - y) * (2 ^ m * 2 ^ k) ≤ ((x * c : ℕ) : ℚ) * d := by
    rw [hprod, ← hscale]
    calc y * (2 - y) * (2 ^ (i + j) * 2 ^ j) = y * ((2 - y) * 2 ^ j) * 2 ^ (i + j) := by ring
      _ ≤ y * c * 2 ^ (i + j) := by gcongr
  rw [hstep]
  constructor
  · rw [lt_div_iff₀ hmpos, sub_mul, div_mul_cancel₀ _ hmpos.ne', sub_lt_iff_lt_add]
    refine lt_of_mul_lt_mul_right ?_ hk.le
    calc y * (2 - y) * 2 ^ m * 2 ^ k ≤ ((x * c : ℕ) : ℚ) * d := by rw [mul_assoc]; exact hlower
      _ < ((x * c / 2 ^ k : ℕ) + 1) * 2 ^ k * d := mul_lt_mul_of_pos_right hhi hd'
      _ = (((x * c / 2 ^ k : ℕ) : ℚ) * d + d) * 2 ^ k := by ring
  · rw [div_le_iff₀ hmpos]
    refine le_of_mul_le_mul_right ?_ hk
    calc ((x * c / 2 ^ k : ℕ) : ℚ) * d * 2 ^ k = ((x * c / 2 ^ k : ℕ) : ℚ) * 2 ^ k * d := by ring
      _ ≤ ((x * c : ℕ) : ℚ) * d := mul_le_mul_of_nonneg_right hlo hd'.le
      _ ≤ y * (2 - y + 1 / 2 ^ j) * 2 ^ m * 2 ^ k := by rw [mul_assoc _ ((2 : ℚ) ^ m)]; exact hupper

/-- The product stays below the square of one and half a unit. -/
theorem reciprocalStep_le (hy : (x * d : ℚ) = y * 2 ^ (i + j)) (hwrap : x * d / 2 ^ i ≤ 2 ^ (j + 1)) (h0 : 0 ≤ y)
    (hm : m + k = i + 2 * j) (hd : 0 < d) :
    (reciprocalStep i (j + 1) k d x * d : ℚ) / 2 ^ m ≤ (1 + 1 / 2 ^ (j + 1)) ^ 2 := by
  refine (reciprocalStep_bounds hy hwrap h0 hm hd).2.trans ?_
  have hhalf : (1 : ℚ) / 2 ^ j = 2 * (1 / 2 ^ (j + 1)) := by
    rw [pow_succ]
    field_simp
  rw [hhalf]
  nlinarith [sq_nonneg (y - 1 - 1 / 2 ^ (j + 1))]

/-- The error is squared, and one unit of the result is lost. -/
theorem lt_reciprocalStep {ε : ℚ} (hy : (x * d : ℚ) = y * 2 ^ (i + j)) (hwrap : x * d / 2 ^ i ≤ 2 ^ (j + 1)) (h0 : 0 ≤ y)
    (hm : m + k = i + 2 * j) (hd : 0 < d) (hε : |1 - y| ≤ ε) :
    1 - ε ^ 2 - d / 2 ^ m < (reciprocalStep i (j + 1) k d x * d : ℚ) / 2 ^ m := by
  refine lt_of_le_of_lt ?_ (reciprocalStep_bounds hy hwrap h0 hm hd).1
  have hsq : (1 - y) ^ 2 ≤ ε ^ 2 := by
    rw [← sq_abs (1 - y)]
    gcongr
  linarith

end Step
end CompilerRt
