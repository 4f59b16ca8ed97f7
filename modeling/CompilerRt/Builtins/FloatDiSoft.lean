import CompilerRt.Builtins.FloatDi
import CompilerRt.Builtins.FloatDigits

/-! # The digits are rounded

What the integer versions compute from the significant digits is the nearest double.
-/
namespace CompilerRt.FloatDi
open CShift FpLib
open BinaryFormat (binary64)

namespace Soft
variable (t : ShiftTarget) {a : BitVec 64}

/-- The bits of the double, for a number that is not zero. -/
def code (n : ℕ) : ℕ :=
  (Nat.log 2 n + 1022) * 2 ^ 52 +
    if Nat.log 2 n ≤ 52 then n * 2 ^ (52 - Nat.log 2 n) else roundDiv n (2 ^ (Nat.log 2 n - 52))

theorem significand_eq (sra : BitVec 64 → ℕ → BitVec 64) (hsra : ∀ x n, x.toNat < 2 ^ 63 → sra x n = x >>> n)
    (ha : a.toNat ≠ 0) : ∃ (e : ℕ) (x : BitVec 64), significand t sra a (N - builtin_clz a) = some (x, (e : ℤ)) ∧
      2 ^ 52 ≤ x.toNat ∧ x.toNat < 2 ^ 53 ∧ e ≤ 64 ∧ (e + 1022) * 2 ^ 52 + x.toNat = code a.toNat :=
  FloatDigits.significand_eq t binary64 (by decide) hsra ha

theorem doubleBits_eq (sra : BitVec 64 → ℕ → BitVec 64) (hsra : ∀ x n, x.toNat < 2 ^ 63 → sra x n = x >>> n)
    (sign : BitVec 32) {x : BitVec 64} {b e : ℕ} (hsign : sign.toNat = b * 2 ^ 31) (hlo : 2 ^ 52 ≤ x.toNat)
    (hhi : x.toNat < 2 ^ 53) (he : e ≤ 64) :
    (doubleBits sra sign x e).toNat = b * 2 ^ 63 + ((e + 1022) * 2 ^ 52 + x.toNat) := by
  have hexp : (BitVec.ofInt 32 ((e : ℤ) + 1023) <<< 20).toNat = (e + 1023) * 2 ^ 20 := by
    have hcast : (e : ℤ) + 1023 = (e + 1023 : ℕ) := by omega
    have hnat : (BitVec.ofInt 32 ((e + 1023 : ℕ) : ℤ)).toNat = e + 1023 := by
      rw [BitVec.ofInt_natCast, BitVec.toNat_ofNat]
      exact Nat.mod_eq_of_lt (by omega)
    rw [hcast, BitMask.toNat_shiftLeft_of_lt, hnat]
    rw [hnat]
    omega
  have hmant : ((sra x 32).truncate 32 &&& (0x000FFFFF : BitVec 32)).toNat = x.toNat / 2 ^ 32 - 2 ^ 20 := by
    have hmask := BitMask.toNat_and_low ((sra x 32).truncate 32 : BitVec 32) (k := 20) (by decide)
    rw [hsra x 32 (by omega), BitVec.toNat_setWidth, BitVec.toNat_ushiftRight, Nat.shiftRight_eq_div_pow] at hmask
    rw [hsra x 32 (by omega)]
    exact hmask.trans (by omega)
  have hhigh : (sign ||| BitVec.ofInt 32 ((e : ℤ) + 1023) <<< 20).toNat = b * 2 ^ 31 + (e + 1023) * 2 ^ 20 := by
    rw [BitMask.toNat_or_disjoint (k := 31), hsign, hexp]
    · rw [hsign]
      exact Nat.dvd_mul_left _ _
    · rw [hexp]
      omega
  have hall : (sign ||| BitVec.ofInt 32 ((e : ℤ) + 1023) <<< 20 ||| ((sra x 32).truncate 32 &&& 0x000FFFFF)).toNat =
      b * 2 ^ 31 + (e + 1023) * 2 ^ 20 + (x.toNat / 2 ^ 32 - 2 ^ 20) := by
    rw [BitMask.toNat_or_disjoint (k := 20), hhigh, hmant]
    · rw [hhigh]
      omega
    · rw [hmant]
      omega
  have hlow : (x.truncate 32 : BitVec 32).toNat = x.toNat % 2 ^ 32 := BitVec.toNat_setWidth _ _
  have hlt := (x.truncate 32 : BitVec 32).isLt
  unfold doubleBits
  rw [BitVec.toNat_append, Nat.shiftLeft_eq, Nat.mul_comm, ← Nat.two_pow_add_eq_or_of_lt hlt, hall, hlow]
  omega

end Soft
end CompilerRt.FloatDi
