import CompilerRt.Lib.BinaryFormat
import Mathlib

/-! # The order of a binary format

Magnitudes are ordered as their bits are, so that numbers are ordered as the signed integers that have the bits of the
magnitude for their absolute value. Both zeros are the integer zero.
-/
namespace CompilerRt.BinaryFormat
variable (F : BinaryFormat)

/-- The signed integer for the bits of a number. -/
def key (x : ℕ) : ℤ := if F.sign x then -(F.abs x : ℤ) else F.abs x

/-- Units of the smallest denormal number, with a sign. -/
def units (z : ℤ) : ℤ := if z < 0 then -(F.mag z.natAbs : ℤ) else F.mag z.natAbs

/-- The value of a number, from its integer. -/
def keyValue (z : ℤ) : WithBot (WithTop ℚ) :=
  if z.natAbs < F.inf then ((F.units z * 2 ^ F.emin : ℚ) : WithTop ℚ)
  else if z < 0 then ⊥ else ((⊤ : WithTop ℚ) : WithBot (WithTop ℚ))

variable {F} {x y : ℕ}

theorem units_strictMono (F : BinaryFormat) : StrictMono F.units := by
  intro x y h
  have hzero : F.mag 0 = 0 := mag_denormal (Nat.two_pow_pos _)
  unfold units
  split_ifs with hx hy hy
  · have hlt := F.mag_strictMono (show y.natAbs < x.natAbs by omega)
    omega
  · have hlt := F.mag_strictMono (show 0 < x.natAbs by omega)
    omega
  · omega
  · have hlt := F.mag_strictMono (show x.natAbs < y.natAbs by omega)
    omega

theorem keyValue_lt {x y : ℤ} (hx : x.natAbs ≤ F.inf) (hy : y.natAbs ≤ F.inf) (h : x < y) : F.keyValue x < F.keyValue y := by
  have hunit : (0 : ℚ) < 2 ^ F.emin := by positivity
  have hcast : (F.units x : ℚ) < F.units y := by exact_mod_cast F.units_strictMono h
  unfold keyValue
  split_ifs with hx' hy' hy0 hx0 hy' hy0 hy' hy0
  · rw [WithBot.coe_lt_coe, WithTop.coe_lt_coe]
    exact mul_lt_mul_of_pos_right hcast hunit
  · omega
  · rw [WithBot.coe_lt_coe]
    exact WithTop.coe_lt_top _
  · exact WithBot.bot_lt_coe _
  · omega
  · exact WithBot.bot_lt_coe _
  · omega
  · omega
  · omega

theorem keyValue_lt_iff {x y : ℤ} (hx : x.natAbs ≤ F.inf) (hy : y.natAbs ≤ F.inf) : F.keyValue x < F.keyValue y ↔ x < y := by
  constructor
  · intro h
    by_contra hle
    rcases lt_or_eq_of_le (not_lt.mp hle) with hlt | rfl
    · exact lt_asymm h (keyValue_lt hy hx hlt)
    · exact lt_irrefl _ h
  · exact keyValue_lt hx hy

theorem natAbs_key (x : ℕ) : (F.key x).natAbs = F.abs x := by
  unfold key
  split_ifs <;> omega

theorem units_key (x : ℕ) : (F.units (F.key x) : ℚ) * 2 ^ F.emin = F.toRat (F.sign x) (F.abs x) := by
  have hzero : F.mag 0 = 0 := mag_denormal (Nat.two_pow_pos _)
  rw [units, natAbs_key, toRat, ← mul_assoc]
  congr 1
  cases hs : F.sign x with
  | false =>
    have hkey : F.key x = F.abs x := by simp [key, hs]
    rw [if_neg (by omega)]
    simp
  | true =>
    have hkey : F.key x = -(F.abs x : ℤ) := by simp [key, hs]
    rcases Nat.eq_zero_or_pos (F.abs x) with h0 | hpos
    · rw [if_neg (by omega), h0, hzero]
      simp
    · rw [if_pos (by omega)]
      simp

theorem value_eq_keyValue (h0 : 0 < F.inf) (x : ℕ) : F.value x = F.keyValue (F.key x) := by
  unfold value keyValue
  rw [natAbs_key, units_key]
  by_cases hfin : F.abs x < F.inf
  · rw [if_pos hfin, if_pos hfin]
  · rw [if_neg hfin, if_neg hfin]
    cases hs : F.sign x with
    | false =>
      have hkey : F.key x = F.abs x := by simp [key, hs]
      rw [if_neg (show ¬F.key x < 0 by omega)]
      rfl
    | true =>
      have hkey : F.key x = -(F.abs x : ℤ) := by simp [key, hs]
      rw [if_pos (show F.key x < 0 by omega)]
      rfl

/-- Numbers and infinities are ordered as their integers. -/
theorem value_lt_iff (h0 : 0 < F.inf) (hx : ¬F.IsNaN x) (hy : ¬F.IsNaN y) : F.value x < F.value y ↔ F.key x < F.key y := by
  rw [value_eq_keyValue h0, value_eq_keyValue h0]
  exact keyValue_lt_iff (natAbs_key x ▸ not_lt.mp hx) (natAbs_key y ▸ not_lt.mp hy)

theorem value_eq_iff (h0 : 0 < F.inf) (hx : ¬F.IsNaN x) (hy : ¬F.IsNaN y) : F.value x = F.value y ↔ F.key x = F.key y := by
  constructor
  · intro h
    have h1 := (value_lt_iff h0 hx hy).not.mp h.not_lt
    have h2 := (value_lt_iff h0 hy hx).not.mp h.not_gt
    omega
  · intro h
    rw [value_eq_keyValue h0, value_eq_keyValue h0, h]

end CompilerRt.BinaryFormat
