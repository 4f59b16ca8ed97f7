import CompilerRt.Lib.ReciprocalStep
import Mathlib.Tactic.IntervalCases

/-! # The reciprocals of soft-float division

Three truncated Newton steps from a linear estimate, and a fourth one at full width for the double format. The result
is taken down by a constant, which puts it strictly below the exact reciprocal.
-/
namespace CompilerRt.FpDiv

/-- `3/4 + 1/sqrt(2) - b/2`, with 32 digits. -/
def linearEstimate (q31b : ℕ) : ℕ := 2 ^ 32 + 0x7504f333 - q31b

def refined (q31b n : ℕ) : ℕ := (reciprocalStep 32 32 31 q31b)^[n] (linearEstimate q31b)

def singleReciprocal (b : ℕ) : ℕ := refined (b * 2 ^ 8) 3 - 2

def doubleReciprocal (b : ℕ) : ℕ := reciprocalStep 32 64 32 (b * 2 ^ 11) (refined (b / 2 ^ 21) 3 - 1) - 2

section Refine
variable {d x : ℕ} {ε δ : ℚ}

/-- The divisor has its first digit in place. -/
def InUnitRange (d : ℕ) : Prop := 2 ^ 31 ≤ d ∧ d < 2 ^ 32

/-- The relative error of a 32-bit approximation. -/
def Near (d x : ℕ) (ε : ℚ) : Prop := |1 - (x * d : ℚ) / 2 ^ 63| ≤ ε

theorem linearEstimate_near (hd : InUnitRange d) : Near d (linearEstimate d) (858 / 10000) := by
  obtain ⟨hlo,hhi⟩ := hd
  have hlo' : (2 ^ 31 : ℚ) ≤ d := by exact_mod_cast hlo
  have hhi' : (d : ℚ) ≤ 2 ^ 32 := by exact_mod_cast hhi.le
  have hcast : ((linearEstimate d : ℕ) : ℚ) = 2 ^ 32 + 0x7504f333 - d := by
    rw [linearEstimate, Nat.cast_sub (by omega)]
    norm_num
  rw [Near, hcast, abs_le]
  constructor
  · -- the largest product is in the middle
    have hsq := sq_nonneg ((d : ℚ) - 3129113029.5)
    have hprod : (2 ^ 32 + 0x7504f333 - d : ℚ) * d / 2 ^ 63 ≤ 1 + 858 / 10000 := by
      rw [div_le_iff₀ (by norm_num)]
      nlinarith
    linarith
  · have hprod : 1 - 858 / 10000 ≤ (2 ^ 32 + 0x7504f333 - d : ℚ) * d / 2 ^ 63 := by
      rw [le_div_iff₀ (by norm_num)]
      nlinarith [mul_nonneg (sub_nonneg.mpr hlo') (sub_nonneg.mpr hhi')]
    linarith

/-- One step, from a small error. -/
theorem step_bounds (hd : InUnitRange d) (hx : Near d x ε) (hε : ε ≤ 1) :
    1 - ε ^ 2 - 1 / 2 ^ 31 < (reciprocalStep 32 32 31 d x * d : ℚ) / 2 ^ 63 ∧
      (reciprocalStep 32 32 31 d x * d : ℚ) / 2 ^ 63 ≤ (1 + 1 / 2 ^ 32) ^ 2 := by
  obtain ⟨hlo,hhi⟩ := hd
  have hpos : 0 < d := (Nat.two_pow_pos 31).trans_le hlo
  obtain ⟨y,hy⟩ : ∃ y : ℚ, y = (x * d : ℚ) / 2 ^ 63 := ⟨_,rfl⟩
  have h0 : 0 ≤ y := by rw [hy]; positivity
  have hyscale : (x * d : ℚ) = y * 2 ^ (32 + 31) := by
    rw [hy]
    norm_num
  rw [Near, ← hy] at hx
  have hwrap : x * d / 2 ^ 32 ≤ 2 ^ (31 + 1) := by
    have hle : y ≤ 2 := by linarith [(abs_le.mp hx).1]
    have hprod : (x * d : ℚ) ≤ 2 ^ 64 := by
      rw [hyscale]
      linarith
    have hnat : x * d ≤ 2 ^ 64 := by exact_mod_cast hprod
    omega
  have hunit : (d : ℚ) / 2 ^ 63 ≤ 1 / 2 ^ 31 := by
    have hhi' : (d : ℚ) ≤ 2 ^ 32 := by exact_mod_cast hhi.le
    rw [div_le_div_iff₀ (by norm_num) (by norm_num)]
    linarith
  have hlower := lt_reciprocalStep (k := 31) (m := 63) hyscale hwrap h0 (by norm_num) hpos hx
  exact ⟨by linarith,reciprocalStep_le hyscale hwrap h0 (by norm_num) hpos⟩

theorem Near.step (hd : InUnitRange d) (hx : Near d x ε) (hε : ε ≤ 1) (hδ : ε ^ 2 + 1 / 2 ^ 31 ≤ δ)
    (hδ' : 1 / 2 ^ 30 ≤ δ) : Near d (reciprocalStep 32 32 31 d x) δ := by
  obtain ⟨hlo,hhi⟩ := step_bounds hd hx hε
  rw [Near, abs_le]
  constructor
  · have hsquare : ((1 : ℚ) + 1 / 2 ^ 32) ^ 2 ≤ 1 + 1 / 2 ^ 30 := by norm_num
    linarith
  · linarith

/-! ## The 32-bit estimate -/

theorem refined_zero (d : ℕ) : refined d 0 = linearEstimate d := rfl

theorem refined_succ (d n : ℕ) : refined d (n + 1) = reciprocalStep 32 32 31 d (refined d n) :=
  Function.iterate_succ_apply' _ _ _

theorem refined_one_near (hd : InUnitRange d) : Near d (refined d 1) (737 / 100000) :=
  (linearEstimate_near hd).step hd (by norm_num) (by norm_num) (by norm_num)

theorem refined_two_near (hd : InUnitRange d) : Near d (refined d 2) (544 / 10 ^ 7) := by
  rw [refined_succ]
  exact (refined_one_near hd).step hd (by norm_num) (by norm_num) (by norm_num)

/-- No step goes over the reciprocal by more than what two units in the last place make at the most. -/
theorem refined_succ_mul_le (hd : InUnitRange d) (hx : Near d x ε) (hε : ε ≤ 1) :
    reciprocalStep 32 32 31 d x * d ≤ 2 ^ 63 + 2 ^ 32 := by
  obtain ⟨-,hhi⟩ := step_bounds hd hx hε
  rw [div_le_iff₀ (by norm_num)] at hhi
  have hlt : (reciprocalStep 32 32 31 d x * d : ℚ) < ((2 ^ 63 + 2 ^ 32 + 1 : ℕ) : ℚ) := by
    refine lt_of_le_of_lt hhi ?_
    norm_num
  have hnat : reciprocalStep 32 32 31 d x * d < 2 ^ 63 + 2 ^ 32 + 1 := by exact_mod_cast hlt
  omega

theorem refined_three_mul_le (hd : InUnitRange d) : refined d 3 * d ≤ 2 ^ 63 + 2 ^ 32 := by
  rw [refined_succ]
  exact refined_succ_mul_le hd (refined_two_near hd) (by norm_num)

theorem lt_refined_three_mul (hd : InUnitRange d) : 2 ^ 63 < refined d 3 * d + 2 ^ 35 := by
  obtain ⟨hlo,-⟩ := step_bounds hd (refined_two_near hd) (by norm_num)
  rw [lt_div_iff₀ (by norm_num), ← refined_succ] at hlo
  have hlt : ((2 ^ 63 : ℕ) : ℚ) < ((refined d 3 * d + 2 ^ 35 : ℕ) : ℚ) := by
    push_cast
    refine lt_of_le_of_lt ?_ (add_lt_add_of_lt_of_le hlo (le_refl ((2 : ℚ) ^ 35)))
    norm_num
  exact_mod_cast hlt

/-- An approximation that fits in 32 bits where the divisor is not one or next to it. -/
theorem lt_of_mul_le (hx : x * d ≤ 2 ^ 63 + 2 ^ 32) (hd : 2 ^ 31 + 2 ≤ d) : x < 2 ^ 32 := by
  by_contra hge
  have hmul := Nat.mul_le_mul (Nat.not_lt.mp hge) hd
  omega

theorem refined_lt (hd : InUnitRange d) {n : ℕ} (hn : n ≤ 2) : refined d n < 2 ^ 32 := by
  have hlo := hd.1
  rcases Nat.lt_or_ge d (2 ^ 31 + 2) with hnear | hfar
  · -- the reciprocals of one and of the next divisor
    obtain rfl | rfl : d = 2 ^ 31 ∨ d = 2 ^ 31 + 1 := by omega
    · interval_cases n <;> decide
    · interval_cases n <;> decide
  · interval_cases n
    · change 2 ^ 32 + 0x7504f333 - d < _
      omega
    · exact lt_of_mul_le (refined_succ_mul_le hd (linearEstimate_near hd) (by norm_num)) hfar
    · rw [refined_succ]
      exact lt_of_mul_le (refined_succ_mul_le hd (refined_one_near hd) (by norm_num)) hfar

theorem refined_three_of_one : refined (2 ^ 31) 3 = 2 ^ 32 := by decide

theorem refined_three_le (hd : InUnitRange d) : refined d 3 ≤ 2 ^ 32 := by
  have hlo := hd.1
  rcases Nat.eq_or_lt_of_le hlo with rfl | hlt
  · exact refined_three_of_one.le
  · by_contra hge
    have hle := refined_three_mul_le hd
    have hmul := Nat.mul_le_mul (Nat.succ_le_of_lt (Nat.not_le.mp hge)) (Nat.succ_le_of_lt hlt)
    omega

/-- Less two it is strictly below the reciprocal. -/
theorem refined_three_sub_two_mul_lt (hd : InUnitRange d) : (refined d 3 - 2) * d < 2 ^ 63 := by
  have hlo := hd.1
  have hle := refined_three_mul_le hd
  rcases Nat.eq_or_lt_of_le hlo with rfl | hlt
  · rw [refined_three_of_one]
    decide
  · rw [Nat.sub_mul]
    omega

theorem two_le_refined_three (hd : InUnitRange d) : 2 ≤ refined d 3 := by
  have hlo := lt_refined_three_mul hd
  have hhi := hd.2
  by_contra hlt
  have hmul := Nat.mul_le_mul (Nat.le_of_lt_succ (Nat.not_le.mp hlt)) hhi.le
  omega

end Refine

/-! ## The two reciprocals -/

/-- `r b` has `n + p + 1` digits for the reciprocal of a significand `b`. It is too small, by less than what would make
a difference of half a unit in a quotient. -/
structure IsReciprocal (p n : ℕ) (r : ℕ → ℕ) : Prop where
  le : p + 2 ≤ n
  lt : ∀ b, 2 ^ p ≤ b → b < 2 ^ (p + 1) → r b * b < 2 ^ (n + p + 1)
  near : ∀ b, 2 ^ p ≤ b → b < 2 ^ (p + 1) → 2 ^ (n + p + 1) ≤ (r b + 2 ^ (n - (p + 2))) * b

theorem inUnitRange_single {b : ℕ} (hlo : 2 ^ 23 ≤ b) (hhi : b < 2 ^ 24) : InUnitRange (b * 2 ^ 8) := by
  constructor <;> omega

theorem inUnitRange_double {b : ℕ} (hlo : 2 ^ 52 ≤ b) (hhi : b < 2 ^ 53) : InUnitRange (b / 2 ^ 21) := by
  constructor <;> omega

theorem singleReciprocal_isReciprocal : IsReciprocal 23 31 singleReciprocal where
  le := by decide
  lt b hlo hhi := by
    have hlt := refined_three_sub_two_mul_lt (inUnitRange_single hlo hhi)
    rw [← Nat.mul_assoc] at hlt
    change _ < 2 ^ 55
    unfold singleReciprocal
    omega
  near b hlo hhi := by
    have hd := inUnitRange_single hlo hhi
    have hnear := lt_refined_three_mul hd
    have htwo := two_le_refined_three hd
    obtain ⟨x,hx⟩ := Nat.exists_eq_add_of_le htwo
    rw [hx, ← Nat.mul_assoc] at hnear
    rw [singleReciprocal, hx]
    change 2 ^ 55 ≤ (2 + x - 2 + 2 ^ 6) * b
    rw [Nat.add_sub_cancel_left, Nat.add_mul]
    rw [Nat.add_mul] at hnear
    omega

section Double
variable {b : ℕ}

/-- What the fourth step starts from, in all 64 digits of the divisor. -/
theorem widened_near (hlo : 2 ^ 52 ≤ b) (hhi : b < 2 ^ 53) :
    |1 - ((refined (b / 2 ^ 21) 3 - 1 : ℕ) * (b * 2 ^ 11 : ℕ) : ℚ) / 2 ^ 95| ≤ 39 / 10 ^ 10 := by
  have hd := inUnitRange_double hlo hhi
  have htwo := two_le_refined_three hd
  have hle := refined_three_mul_le hd
  have hx32 := refined_three_le hd
  have hdhi := hd.2
  obtain ⟨hnear,-⟩ := step_bounds hd (refined_two_near hd) (by norm_num)
  rw [← refined_succ] at hnear
  obtain ⟨x,hx⟩ := Nat.exists_eq_add_of_le (show 1 ≤ refined (b / 2 ^ 21) 3 by omega)
  rw [hx] at hle hnear hx32
  rw [hx, Nat.add_sub_cancel_left]
  generalize hdef : b / 2 ^ 21 = d at *
  -- the digits of the divisor below the first 32
  have hfull : d * 2 ^ 32 ≤ b * 2 ^ 11 ∧ b * 2 ^ 11 < (d + 1) * 2 ^ 32 := by omega
  have hupper : x * (b * 2 ^ 11) ≤ (2 ^ 63 + 2 ^ 33) * 2 ^ 32 := by
    have hmul := Nat.mul_le_mul_left x hfull.2.le
    have hxd : x * (d + 1) ≤ 2 ^ 63 + 2 ^ 33 := by
      rw [Nat.add_mul] at hle
      rw [Nat.mul_add]
      omega
    calc x * (b * 2 ^ 11) ≤ x * (d + 1) * 2 ^ 32 := by rw [Nat.mul_assoc]; exact hmul
      _ ≤ (2 ^ 63 + 2 ^ 33) * 2 ^ 32 := Nat.mul_le_mul_right _ hxd
  have hlower : x * d * 2 ^ 32 ≤ x * (b * 2 ^ 11) := by
    rw [Nat.mul_assoc]
    exact Nat.mul_le_mul_left x hfull.1
  have hupper' : (x * (b * 2 ^ 11 : ℕ) : ℚ) ≤ (2 ^ 63 + 2 ^ 33) * 2 ^ 32 := by exact_mod_cast hupper
  have hlower' : (x * d : ℚ) * 2 ^ 32 ≤ x * (b * 2 ^ 11 : ℕ) := by exact_mod_cast hlower
  have hd32 : (d : ℚ) ≤ 2 ^ 32 := by exact_mod_cast hdhi.le
  rw [lt_div_iff₀ (by norm_num), Nat.cast_add, Nat.cast_one, add_mul, one_mul] at hnear
  rw [abs_le, le_sub_iff_add_le, sub_le_comm, le_div_iff₀ (by norm_num)]
  constructor
  · rw [← le_sub_iff_add_le', div_le_iff₀ (by norm_num)]
    norm_num at hupper' ⊢
    linarith
  · norm_num at hnear hlower' ⊢
    linarith

theorem fourth_step_bounds (hlo : 2 ^ 52 ≤ b) (hhi : b < 2 ^ 53) {x : ℕ} (hx : x = refined (b / 2 ^ 21) 3 - 1) :
    reciprocalStep 32 64 32 (b * 2 ^ 11) x * (b * 2 ^ 11) ≤ 2 ^ 126 + 2 ^ 63 ∧
      2 ^ 126 < reciprocalStep 32 64 32 (b * 2 ^ 11) x * (b * 2 ^ 11) + b * 2 ^ 11 + 3 * 2 ^ 69 := by
  have hnear := widened_near hlo hhi
  rw [← hx] at hnear
  obtain ⟨y,hy⟩ : ∃ y : ℚ, y = (x * (b * 2 ^ 11 : ℕ) : ℚ) / 2 ^ 95 := ⟨_,rfl⟩
  have h0 : 0 ≤ y := by rw [hy]; positivity
  have hyscale : (x * (b * 2 ^ 11 : ℕ) : ℚ) = y * 2 ^ (32 + 63) := by
    rw [hy]
    norm_num
  rw [← hy] at hnear
  have hwrap : x * (b * 2 ^ 11) / 2 ^ 32 ≤ 2 ^ (63 + 1) := by
    have hle : y ≤ 2 := by linarith [(abs_le.mp hnear).1]
    have hprod : (x * (b * 2 ^ 11 : ℕ) : ℚ) ≤ 2 ^ 96 := by
      rw [hyscale]
      norm_num
      linarith
    have hnat : x * (b * 2 ^ 11) ≤ 2 ^ 96 := by exact_mod_cast hprod
    omega
  have hpos : 0 < b * 2 ^ 11 := by omega
  have hupper := reciprocalStep_le (k := 32) (m := 126) hyscale hwrap h0 (by norm_num) hpos
  have hlower := lt_reciprocalStep (k := 32) (m := 126) hyscale hwrap h0 (by norm_num) hpos hnear
  generalize reciprocalStep 32 (63 + 1) 32 (b * 2 ^ 11) x = z at *
  rw [div_le_iff₀ (by norm_num)] at hupper
  rw [lt_div_iff₀ (by norm_num), sub_mul, div_mul_cancel₀ _ (by norm_num)] at hlower
  constructor
  · have hlt : (z * (b * 2 ^ 11 : ℕ) : ℚ) < ((2 ^ 126 + 2 ^ 63 + 1 : ℕ) : ℚ) := by
      refine lt_of_le_of_lt hupper ?_
      norm_num
    have hnat : z * (b * 2 ^ 11) < 2 ^ 126 + 2 ^ 63 + 1 := by exact_mod_cast hlt
    omega
  · have hlt : ((2 ^ 126 : ℕ) : ℚ) < ((z * (b * 2 ^ 11) + b * 2 ^ 11 + 3 * 2 ^ 69 : ℕ) : ℚ) := by
      rw [Nat.cast_add, Nat.cast_add, Nat.cast_mul z]
      norm_num at hlower ⊢
      linarith
    exact_mod_cast hlt

theorem doubleReciprocal_isReciprocal : IsReciprocal 52 62 doubleReciprocal where
  le := by decide
  lt b hlo hhi := by
    obtain ⟨hle,-⟩ := fourth_step_bounds hlo hhi rfl
    change _ < 2 ^ 115
    rw [doubleReciprocal]
    generalize reciprocalStep 32 64 32 (b * 2 ^ 11) (refined (b / 2 ^ 21) 3 - 1) = z at *
    rw [← Nat.mul_assoc] at hle
    rw [Nat.sub_mul]
    omega
  near b hlo hhi := by
    obtain ⟨hle,hlt⟩ := fourth_step_bounds hlo hhi rfl
    change 2 ^ 115 ≤ (_ + 2 ^ 8) * b
    rw [doubleReciprocal]
    generalize reciprocalStep 32 64 32 (b * 2 ^ 11) (refined (b / 2 ^ 21) 3 - 1) = z at *
    rw [← Nat.mul_assoc] at hlt
    rw [Nat.add_mul, Nat.sub_mul]
    omega

end Double

end CompilerRt.FpDiv
