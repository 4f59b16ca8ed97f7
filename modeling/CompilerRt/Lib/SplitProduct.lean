import CompilerRt.Lib.BitMask
import Mathlib.Tactic.LinearCombination
import Mathlib.Tactic.Ring
import Mathlib.Tactic.Zify

/-! # Products of two-digit numbers

The product of two numbers of two digits each, from four products of digits that are added column by column with a
carry. Words that are as wide as two digits hold every sum on the way.
-/
namespace CompilerRt.SplitProduct

section Digits
variable {H a₁ a₀ b₁ b₀ : ℕ}

/-- The second column, with the carry of the first one and without the other product that belongs there. -/
def cross (H a₁ a₀ b₀ : ℕ) : ℕ := a₀ * b₀ / H + a₁ * b₀

/-- The second column as a whole, over what `cross` carries. -/
def column (H a₁ a₀ b₁ b₀ : ℕ) : ℕ := cross H a₁ a₀ b₀ % H + b₁ * a₀

theorem product_eq : (cross H a₁ a₀ b₀ / H + column H a₁ a₀ b₁ b₀ / H + a₁ * b₁) * (H * H) +
    (column H a₁ a₀ b₁ b₀ % H * H + a₀ * b₀ % H) = (a₁ * H + a₀) * (b₁ * H + b₀) := by
  have h1 := Nat.div_add_mod (a₀ * b₀) H
  have h2 := Nat.div_add_mod (cross H a₁ a₀ b₀) H
  have h3 := Nat.div_add_mod (column H a₁ a₀ b₁ b₀) H
  have hcross : cross H a₁ a₀ b₀ = a₀ * b₀ / H + a₁ * b₀ := rfl
  have hcolumn : column H a₁ a₀ b₁ b₀ = cross H a₁ a₀ b₀ % H + b₁ * a₀ := rfl
  rw [hcolumn] at h3 ⊢
  rw [hcross] at h2 h3 ⊢
  zify at h1 h2 h3 ⊢
  linear_combination h1 + H * h2 + H * h3

/-- Two digits and a carry. -/
theorem mul_add_lt {x y c : ℕ} (hx : x < H) (hy : y < H) (hc : c < H) : c + x * y < H * H := by
  obtain ⟨k,rfl⟩ : ∃ k, H = k + 1 := ⟨H - 1,by omega⟩
  have hle : x * y ≤ k * k := Nat.mul_le_mul (by omega) (by omega)
  have hsq : (k + 1) * (k + 1) = k * k + 2 * k + 1 := by ring
  omega

theorem cross_lt (ha₁ : a₁ < H) (ha₀ : a₀ < H) (hb₀ : b₀ < H) : cross H a₁ a₀ b₀ < H * H := by
  refine mul_add_lt ha₁ hb₀ (Nat.div_lt_of_lt_mul ?_)
  have hprod := mul_add_lt (c := 0) ha₀ hb₀ (by omega)
  omega

theorem column_lt (ha₀ : a₀ < H) (hb₁ : b₁ < H) : column H a₁ a₀ b₁ b₀ < H * H :=
  mul_add_lt hb₁ ha₀ (Nat.mod_lt _ (by omega))

/-- The high digit of a sum takes what is added there, and the carry, modulo the base. -/
theorem high_add (hH : 0 < H) (x c : ℕ) : (x / H + c) % H * H + x % H = (x + c * H) % (H * H) := by
  rw [Nat.mod_mul, Nat.add_mul_mod_self_right, Nat.add_mul_div_right _ _ hH]
  ring

/-- A product modulo the square of the base. -/
theorem product_mod : (a₁ * H + a₀) * (b₁ * H + b₀) % (H * H) = (a₀ * b₀ + (a₁ * b₀ + a₀ * b₁) * H) % (H * H) := by
  have hsplit : (a₁ * H + a₀) * (b₁ * H + b₀) = a₀ * b₀ + (a₁ * b₀ + a₀ * b₁) * H + H * H * (a₁ * b₁) := by ring
  rw [hsplit, Nat.add_mul_mod_self_left]

end Digits

section Words
variable {w k : ℕ}

/-- The high half of a word. -/
theorem toNat_high (x : BitVec w) (k : ℕ) : (x >>> k).toNat = x.toNat / 2 ^ k := by
  rw [BitVec.toNat_ushiftRight, Nat.shiftRight_eq_div_pow]

/-- The low half, by the mask that the routines compute. -/
theorem toNat_low (hw : w = k + k) (x : BitVec w) : (x &&& BitVec.allOnes w >>> k).toNat = x.toNat % 2 ^ k := by
  have hmask : BitVec.allOnes w >>> k = BitVec.ofNat w (2 ^ k - 1) := by
    apply BitVec.eq_of_toNat_eq
    have hpos := Nat.two_pow_pos k
    have hsq : 2 ^ w = 2 ^ k * 2 ^ k := by rw [hw, pow_add]
    have hle : 2 ^ k ≤ 2 ^ k * 2 ^ k := Nat.le_mul_of_pos_left _ hpos
    rw [toNat_high, BitVec.toNat_allOnes, BitVec.toNat_ofNat, hsq, Nat.mod_eq_of_lt (by omega)]
    exact (Nat.mul_sub_div 0 _ _ (Nat.mul_pos hpos hpos)).trans (by rw [Nat.zero_div])
  rw [hmask]
  exact BitMask.toNat_and_low x (by omega)

theorem half_lt (hw : w = k + k) (x : BitVec w) : x.toNat / 2 ^ k < 2 ^ k := by
  rw [Nat.div_lt_iff_lt_mul (Nat.two_pow_pos k), ← pow_add, ← hw]
  exact x.isLt

end Words

end CompilerRt.SplitProduct
