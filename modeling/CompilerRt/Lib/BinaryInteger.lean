import CompilerRt.Lib.BinaryRounding
import Mathlib.Data.Nat.Log

/-! # Integers in a binary format

The first digit of an integer gives the exponent; where there are more digits than a significand has, the significand is
a rounded quotient, whose carry goes into the exponent.
-/
namespace CompilerRt.BinaryFormat
variable {F : BinaryFormat} {n : ℕ}

/-- The bits of the magnitude nearest to an integer that is not zero. -/
def ofNat (F : BinaryFormat) (n : ℕ) : ℕ :=
  (Nat.log 2 n + (2 ^ (F.expBits - 1) - 2)) * 2 ^ F.fracBits +
    if Nat.log 2 n ≤ F.fracBits then n * 2 ^ (F.fracBits - Nat.log 2 n)
    else roundDiv n (2 ^ (Nat.log 2 n - F.fracBits))

/-- The exponent field leaves room for a carry. -/
theorem exponent_add_two_lt {l : ℕ} (hexp : 2 ≤ F.expBits) (hl : l < 2 ^ (F.expBits - 1)) :
    l + (2 ^ (F.expBits - 1) - 2) + 2 ≤ 2 ^ F.expBits - 1 := by
  have htwo : 2 ^ F.expBits = 2 * 2 ^ (F.expBits - 1) := by rw [← pow_succ', Nat.sub_add_cancel (by omega)]
  have hle : 2 ^ 1 ≤ 2 ^ (F.expBits - 1) := Nat.pow_le_pow_right (by decide) (by omega)
  omega

theorem significand_lt_inf {e m : ℕ} (he : e + 2 ≤ 2 ^ F.expBits - 1) (hm : m < 2 ^ (F.fracBits + 1)) :
    e * 2 ^ F.fracBits + m < F.inf := by
  have hmul : (e + 2) * 2 ^ F.fracBits ≤ F.inf := Nat.mul_le_mul_right _ he
  rw [Nat.add_mul] at hmul
  rw [pow_succ] at hm
  omega

theorem nearest_ofNat (hfrac : 0 < F.fracBits) (hexp : 2 ≤ F.expBits) (h0 : n ≠ 0)
    (hlog : Nat.log 2 n < 2 ^ (F.expBits - 1)) : F.Nearest ((n : ℚ) / 2 ^ F.emin) (F.ofNat n) := by
  have hlo : 2 ^ Nat.log 2 n ≤ n := Nat.pow_log_le_self 2 h0
  have hhi : n < 2 ^ (Nat.log 2 n + 1) := Nat.lt_pow_succ_log_self (by decide) n
  have hroom := exponent_add_two_lt hexp hlog
  have hbias : ((2 ^ (F.expBits - 1) - 2 : ℕ) : ℤ) = 2 ^ (F.expBits - 1) - 2 := by
    have hle : 2 ≤ 2 ^ (F.expBits - 1) := le_self_pow₀ (by decide) (by omega)
    rw [Nat.cast_sub hle]
    push_cast
    rfl
  unfold ofNat
  generalize Nat.log 2 n = l at hlog hlo hhi hroom
  have hunit : ((l + (2 ^ (F.expBits - 1) - 2) : ℕ) : ℤ) + F.emin = l - F.fracBits := by
    rw [Nat.cast_add, hbias, emin]
    ring
  rcases Nat.lt_or_ge F.fracBits l with hlarge | hsmall
  · -- digits are dropped
    obtain ⟨k,rfl⟩ : ∃ k, l = F.fracBits + k := ⟨l - F.fracBits,by omega⟩
    have hplo : 2 ^ F.fracBits ≤ n / 2 ^ k := by
      rw [Nat.le_div_iff_mul_le (Nat.two_pow_pos _), ← pow_add]
      exact hlo
    have hphi : n / 2 ^ k < 2 ^ (F.fracBits + 1) := by
      have hsplit : F.fracBits + 1 + k = F.fracBits + k + 1 := by omega
      rw [Nat.div_lt_iff_lt_mul (Nat.two_pow_pos _), ← pow_add, hsplit]
      exact hhi
    have hexp : ((F.fracBits + k : ℕ) : ℤ) - F.fracBits = (k : ℕ) := by omega
    have hcast : (n : ℚ) =
        (n : ℚ) / (2 ^ k : ℕ) * 2 ^ (((F.fracBits + k + (2 ^ (F.expBits - 1) - 2) : ℕ) : ℤ) + F.emin) := by
      have hpos : ((2 : ℚ) ^ k) ≠ 0 := pow_ne_zero _ (by norm_num)
      rw [hunit, hexp, zpow_natCast, Nat.cast_pow, Nat.cast_ofNat, div_mul_cancel₀ _ hpos]
    rw [if_neg (by omega), Nat.add_sub_cancel_left]
    exact nearest_roundDiv hfrac (Nat.two_pow_pos k) hphi (.inr hplo) (significand_lt_inf hroom hphi) hcast
  · -- all digits are kept
    obtain ⟨hle,hfit⟩ := normalized_bounds hsmall hlo hhi
    have hexp : ((F.fracBits - l : ℕ) : ℤ) + (l - F.fracBits) = 0 := by omega
    have hcast : (n : ℚ) = ((n * 2 ^ (F.fracBits - l) : ℕ) : ℚ) / (1 : ℕ) *
        2 ^ (((l + (2 ^ (F.expBits - 1) - 2) : ℕ) : ℤ) + F.emin) := by
      rw [hunit, Nat.cast_one, div_one, Nat.cast_mul, Nat.cast_pow, Nat.cast_ofNat, ← zpow_natCast, mul_assoc,
        ← zpow_add₀ (by norm_num), hexp, zpow_zero, mul_one]
    rw [if_pos hsmall]
    have hnear := nearest_roundDiv (F := F) (d := 1) (q := (n : ℚ)) hfrac Nat.one_pos (by rw [Nat.div_one]; exact hfit)
      (.inr (by rw [Nat.div_one]; exact hle)) (by rw [Nat.div_one]; exact significand_lt_inf hroom hfit) hcast
    rw [roundDiv_one] at hnear
    exact hnear

end CompilerRt.BinaryFormat
