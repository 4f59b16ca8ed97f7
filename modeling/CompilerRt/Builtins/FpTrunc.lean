import CompilerRt.Builtins.FpShifts
import CompilerRt.Builtins.FpSticky
import CompilerRt.Lib.BinaryRounding

/-! # Narrowing rounds

`__truncdfsf2` tells apart normal results, NaNs, overflow, and what is left for the denormal path. The smallest number
that overflows, 2^128, is left for the denormal path as well.
-/
namespace CompilerRt.FpConvert
open CShift FpLib
open BinaryFormat (binary32 binary64)

namespace Trunc
variable (t : ShiftTarget)

/-! ## The two rounding paths -/

theorem round_eq {x : BitVec 32} {b : BitVec 64} {n : ℕ} (hx : x.toNat = n / 2 ^ 29) (hb : b.toNat = n % 2 ^ 29)
    (hn : n / 2 ^ 29 < 2 ^ 31) : (round k x b).toNat = roundDiv n (2 ^ 29) := by
  have hhalf : k.halfway.toNat = 2 ^ 28 := by decide
  have hlow : (x &&& 1).toNat = x.toNat % 2 := BitMask.toNat_and_low x (k := 1) (by decide)
  have hone : (1 : BitVec 32).toNat = 1 := rfl
  rw [roundDiv_eq, ← hx, ← hb, round]
  by_cases hmore : k.halfway < b
  · have hlt := BitVec.lt_def.mp hmore
    rw [if_pos hmore, if_pos (by omega), BitVec.toNat_add, hone]
    omega
  have hle : b.toNat ≤ k.halfway.toNat := BitVec.le_def.mp (BitVec.not_lt.mp hmore)
  rw [if_neg hmore]
  by_cases htie : b = k.halfway
  · have heq := congrArg BitVec.toNat htie
    rw [if_pos htie, BitVec.toNat_add, hlow]
    split_ifs <;> omega
  · have hne : b.toNat ≠ k.halfway.toNat := fun h => htie (BitVec.eq_of_toNat_eq h)
    rw [if_neg htie, if_neg (by omega)]

/-- The exponent is biased anew after the digits are dropped. -/
theorem normal_rounds {a : BitVec 64} {e m : ℕ} (he : 896 ≤ e) (he' : e < 1150) (hm : 2 ^ 52 ≤ m) (hm' : m < 2 ^ 53)
    (ha : a.toNat = e * 2 ^ 52 + m) :
    ∃ r, normal t k a = some r ∧ r.toNat = (e - 896) * 2 ^ 23 + roundDiv m (2 ^ 29) := by
  have h1 := shr_natCast t a (n := srcSigBits - dstSigBits) (by decide)
  have h2 := shl_natCast t (BitVec.ofNat 32 (k.srcExpBias - k.dstExpBias)) (n := dstSigBits) (by decide)
  have hbias : (BitVec.ofNat 32 (k.srcExpBias - k.dstExpBias) <<< dstSigBits).toNat = 896 * 2 ^ 23 % 2 ^ 32 := by decide
  have hshift : ((a >>> (srcSigBits - dstSigBits)).truncate 32).toNat = a.toNat / 2 ^ 29 % 2 ^ 32 := by
    rw [BitVec.toNat_setWidth, BitVec.toNat_ushiftRight, Nat.shiftRight_eq_div_pow]
    rfl
  have hsub : ((a >>> (srcSigBits - dstSigBits)).truncate 32 -
      BitVec.ofNat 32 (k.srcExpBias - k.dstExpBias) <<< dstSigBits).toNat = ((e - 896) * 2 ^ 23 * 2 ^ 29 + m) / 2 ^ 29 := by
    rw [BitVec.toNat_sub, hshift, hbias, ha]
    omega
  have hbits : (a &&& k.roundMask).toNat = ((e - 896) * 2 ^ 23 * 2 ^ 29 + m) % 2 ^ 29 := by
    have hmask := BitMask.toNat_and_low a (k := 29) (by decide)
    exact hmask.trans (by omega)
  simp only [normal, h1, h2, Option.pure_def, Option.bind_eq_bind, Option.bind_some]
  refine ⟨_,rfl,?_⟩
  rw [round_eq hsub hbits (by omega)]
  exact roundDiv_mul_add m (by decide) (by omega)

/-- A denormal result loses more digits, which the sticky bit stands for. -/
theorem denormal_rounds {x a : BitVec 64} {e m : ℕ} (he : e < 896) (hm : m < 2 ^ 53) (hm' : e = 0 ∨ 2 ^ 52 ≤ m)
    (ha : a.toNat = e * 2 ^ 52 + m) (hx : x.toNat % 2 ^ 63 = a.toNat) :
    ∃ r, denormal t k x a = some r ∧ r.toNat = roundDiv m (2 ^ (925 - e)) := by
  have h1 := shr_natCast t a (n := srcSigBits) (by decide)
  have hexp : (a >>> srcSigBits).toNat = a.toNat / 2 ^ 52 := by
    rw [BitVec.toNat_ushiftRight, Nat.shiftRight_eq_div_pow]
    rfl
  by_cases hfar : e ≤ 843
  · -- less than half of the smallest denormal number
    have hsmall : 2 * m < 2 ^ (925 - e) := by
      have hle : 2 ^ 54 ≤ 2 ^ (925 - e) := Nat.pow_le_pow_right (by decide) (by omega)
      omega
    have hshift : (srcSigBits : ℤ) < (k.srcExpBias : ℤ) - k.dstExpBias - (a >>> srcSigBits).toNat + 1 := by
      change (52 : ℤ) < 1023 - 127 - (a >>> srcSigBits).toNat + 1
      omega
    simp only [denormal, h1, hshift, ↓reduceIte, Option.pure_def, Option.bind_eq_bind, Option.bind_some]
    exact ⟨0,rfl,(roundDiv_of_lt hsmall).symm⟩
  · obtain ⟨s,rfl,hs,hs1⟩ : ∃ s, e = 896 - s ∧ s ≤ 52 ∧ 1 ≤ s := ⟨896 - e,by omega,by omega,by omega⟩
    have hlo : 2 ^ 52 ≤ m := hm'.resolve_left (by omega)
    have hfield : (a >>> srcSigBits).toNat = 897 - s := by omega
    have hshift : (k.srcExpBias : ℤ) - k.dstExpBias - (897 - s : ℕ) + 1 = (s : ℕ) := by
      change (1023 : ℤ) - 127 - (897 - s : ℕ) + 1 = _
      omega
    have hleft : (64 : ℤ) - (s : ℕ) = (64 - s : ℕ) := by omega
    have hsmall : ¬(srcSigBits : ℤ) < (s : ℕ) := by
      change ¬(52 : ℤ) < _
      omega
    have hsig : (x &&& k.significandMask ||| k.srcMinNormal).toNat = m := by
      have hlow : (x &&& k.significandMask).toNat = x.toNat % 2 ^ 52 := BitMask.toNat_and_low x (k := 52) (by decide)
      have hmin : k.srcMinNormal.toNat = 2 ^ 52 := by decide
      rw [BitVec.or_comm, BitMask.toNat_or_disjoint (k := 52), hmin, hlow]
      · omega
      · rw [hmin]
      · rw [hlow]
        omega
    generalize hS : x &&& k.significandMask ||| k.srcMinNormal = S at hsig
    have h2 := shl_natCast t S (n := 64 - s) (by omega)
    have h3 := shr_natCast t S (n := s) (by omega)
    have hsticky := toNat_shiftRight_or_sticky (by decide) S (k := s) (by omega)
    rw [hsig] at hsticky
    have hlt : stickyShift m s / 2 ^ 29 < 2 ^ 24 := by
      have hdiv := stickyShift_div m s (h := 2 ^ 28)
      have hle : m / 2 ^ s ≤ m := Nat.div_le_self _ _
      omega
    simp only [denormal, h1, hfield, hshift, hleft, hsmall, hS, h2, h3, ↓reduceIte, Option.pure_def, Option.bind_eq_bind,
      Option.bind_some]
    generalize S >>> s ||| ofBool 64 (S <<< (64 - s) != 0) = D at hsticky
    have h4 := shr_natCast t D (n := srcSigBits - dstSigBits) (by decide)
    have hdigits : ((D >>> (srcSigBits - dstSigBits)).truncate 32).toNat = stickyShift m s / 2 ^ 29 := by
      rw [BitVec.toNat_setWidth, BitVec.toNat_ushiftRight, Nat.shiftRight_eq_div_pow, hsticky]
      change stickyShift m s / 2 ^ 29 % 2 ^ 32 = _
      omega
    have hbits : (D &&& k.roundMask).toNat = stickyShift m s % 2 ^ 29 := by
      rw [← hsticky]
      exact BitMask.toNat_and_low D (k := 29) (by decide)
    have hcount : 925 - (896 - s) = s + 29 := by omega
    rw [h4]
    refine ⟨_,rfl,?_⟩
    rw [round_eq hdigits hbits (by omega), hcount]
    exact roundDiv_stickyShift m s (by decide)

/-! ## The nearest float -/

/-- A magnitude of a double, in the units of a float. -/
theorem float_units (m : ℕ) {e i j : ℕ} (hij : e + j = i + 925) :
    ((m * 2 ^ e : ℕ) : ℚ) * 2 ^ binary64.emin = (m : ℚ) / (2 ^ j : ℕ) * 2 ^ ((i : ℤ) + binary32.emin) := by
  have h64 : binary64.emin = -1074 := by decide
  have h32 : binary32.emin = -149 := by decide
  have hexp : (e : ℤ) + binary64.emin = -(j : ℤ) + (i + binary32.emin) := by
    rw [h64, h32]
    omega
  rw [Nat.cast_mul, Nat.cast_pow, Nat.cast_pow, Nat.cast_ofNat, mul_assoc, ← zpow_natCast, ← zpow_add₀ (by norm_num), hexp,
    zpow_add₀ (by norm_num), zpow_neg, ← zpow_natCast, div_eq_mul_inv, mul_assoc]

theorem mag_float_inf : binary32.mag binary32.inf = 2 ^ 23 * 2 ^ 254 :=
  (BinaryFormat.mag_significand (F := binary32) (e := 254) (m := 2 ^ 23) (by decide) (.inr le_rfl)).1

/-- The wrap-around comparison is a test for the exponents of normal floats. -/
theorem underflow_overflow (a : BitVec 64) :
    a - k.underflow < a - k.overflow ↔ 897 * 2 ^ 52 ≤ a.toNat ∧ a.toNat < 1151 * 2 ^ 52 := by
  have hu : k.underflow = 0x3810000000000000 := rfl
  have ho : k.overflow = 0x47f0000000000000 := rfl
  rw [hu, ho]
  bv_omega

/-- All magnitudes but the smallest one that overflows. -/
theorem absResult_rounds {x a : BitVec 64} (ha : a.toNat < binary64.inf) (hne : a.toNat ≠ 1151 * 2 ^ 52)
    (hx : x.toNat % 2 ^ 63 = a.toNat) : ∃ r, absResult t k x a = some r ∧
      binary32.Nearest ((binary64.mag a.toNat : ℚ) * 2 ^ binary64.emin / 2 ^ binary32.emin) r.toNat := by
  have hfin : a.toNat < 2047 * 2 ^ 52 := ha
  clear ha
  have hnormal := underflow_overflow a
  have hnan : k.srcInfinity < a ↔ 2047 * 2 ^ 52 < a.toNat := BitVec.lt_def
  have hover : k.overflow < a ↔ 1151 * 2 ^ 52 < a.toNat := BitVec.lt_def
  obtain ⟨e,m,hsplit,hm,he⟩ : ∃ e m, a.toNat = e * 2 ^ 52 + m ∧ m < 2 ^ 53 ∧ (e = 0 ∨ 2 ^ 52 ≤ m) :=
    ⟨a.toNat / 2 ^ 52 - 1,a.toNat - (a.toNat / 2 ^ 52 - 1) * 2 ^ 52,by omega,by omega,by omega⟩
  have hmag : binary64.mag a.toNat = m * 2 ^ e := by
    rw [hsplit]
    exact (BinaryFormat.mag_significand (F := binary64) hm he).1
  unfold absResult
  rw [hmag]
  rcases Nat.lt_or_ge a.toNat (897 * 2 ^ 52) with hden | hnor
  · rw [if_neg (by rw [hnormal]; omega), if_neg (by rw [hnan]; omega), if_neg (by rw [hover]; omega)]
    obtain ⟨r,hr,hval⟩ := denormal_rounds t (by omega) hm he hsplit hx
    refine ⟨r,hr,?_⟩
    have hdiv : m / 2 ^ (925 - e) < 2 ^ 23 := by
      have hle : 2 ^ 30 ≤ 2 ^ (925 - e) := Nat.pow_le_pow_right (by decide) (by omega)
      rw [Nat.div_lt_iff_lt_mul (Nat.two_pow_pos _)]
      omega
    have hunits := float_units m (e := e) (i := 0) (j := 925 - e) (by omega)
    have hnear := BinaryFormat.nearest_roundDiv (F := binary32) (e := 0) (n := m) (d := 2 ^ (925 - e)) (by decide)
      (Nat.two_pow_pos _) (hdiv.trans (by decide)) (.inl rfl) (by rw [Nat.zero_mul, Nat.zero_add]; exact hdiv.trans (by decide))
      hunits
    rw [Nat.zero_mul, Nat.zero_add, ← hval] at hnear
    exact hnear
  rcases Nat.lt_or_ge a.toNat (1151 * 2 ^ 52) with hlt | hge
  · rw [if_pos (hnormal.mpr ⟨hnor,hlt⟩)]
    have hlo : 2 ^ 52 ≤ m := by omega
    obtain ⟨r,hr,hval⟩ := normal_rounds t (by omega) (by omega) hlo hm hsplit
    refine ⟨r,hr,?_⟩
    rw [hval]
    refine BinaryFormat.nearest_roundDiv (F := binary32) (by decide) (by decide) ?_ (.inr ?_) ?_ (float_units m (by omega))
    · change m / 2 ^ 29 < 2 ^ 24
      omega
    · change 2 ^ 23 ≤ m / 2 ^ 29
      omega
    · change _ * 2 ^ 23 + m / 2 ^ 29 < 255 * 2 ^ 23
      omega
  · -- overflow
    have hinf := shl_natCast t (BitVec.ofNat 32 k.dstInfExp) (n := dstSigBits) (by decide)
    rw [if_neg (by rw [hnormal]; omega), if_neg (by rw [hnan]; omega), if_pos (by rw [hover]; omega), infinity, hinf]
    refine ⟨_,rfl,?_⟩
    have hval : (BitVec.ofNat 32 k.dstInfExp <<< dstSigBits).toNat = binary32.inf := by decide
    rw [hval]
    refine BinaryFormat.nearest_inf ?_
    have hunits := float_units m (e := e) (i := e - 896) (j := 29) (by omega)
    have hlo : 2 ^ 52 ≤ m := by omega
    have hm' : (2 : ℚ) ^ 23 ≤ (m : ℚ) / (2 ^ 29 : ℕ) := by
      rw [le_div_iff₀ (by positivity)]
      exact_mod_cast hlo
    have he' : (2 : ℚ) ^ 254 ≤ 2 ^ (e - 896) := pow_le_pow_right₀ (by norm_num) (by omega)
    rw [hunits, mag_float_inf, zpow_add₀ (by norm_num), ← mul_assoc,
      mul_div_cancel_right₀ _ binary32.two_pow_emin_pos.ne', zpow_natCast, Nat.cast_mul, Nat.cast_pow, Nat.cast_pow,
      Nat.cast_ofNat]
    exact mul_le_mul hm' he' (by positivity) (by positivity)

theorem constants_eq' : constants t = some k := rfl

/-- Infinity, the quiet bit, and the rest of the payload. -/
theorem nan_eq (a : BitVec 64) : ((BitVec.ofNat 32 k.dstInfExp <<< dstSigBits ||| k.dstQNaN) |||
    (a.truncate 32 &&& k.dstNaNCode)).toNat = 255 * 2 ^ 23 + 2 ^ 22 + a.toNat % 2 ^ 22 := by
  have hcode : (a.truncate 32 &&& k.dstNaNCode).toNat = a.toNat % 2 ^ 22 := by
    have hmask := BitMask.toNat_and_low (a.truncate 32) (k := 22) (by decide)
    rw [BitVec.toNat_setWidth] at hmask
    exact hmask.trans (by omega)
  have hquiet : (BitVec.ofNat 32 k.dstInfExp <<< dstSigBits ||| k.dstQNaN).toNat = 255 * 2 ^ 23 + 2 ^ 22 := by decide
  rw [BitMask.toNat_or_disjoint (k := 22), hquiet, hcode]
  · rw [hquiet]
    decide
  · rw [hcode]
    omega

/-- What is not finite stays so, and a NaN becomes a quiet one. -/
theorem absResult_special {x a : BitVec 64} (hinf : binary64.inf ≤ a.toNat) (ha : a.toNat < 2 ^ 63) :
    ∃ r, absResult t k x a = some r ∧
      r.toNat = if binary64.inf < a.toNat then 255 * 2 ^ 23 + 2 ^ 22 + a.toNat % 2 ^ 22 else binary32.inf := by
  have h64 : binary64.inf = 2047 * 2 ^ 52 := rfl
  have hnormal : ¬a - k.underflow < a - k.overflow := by
    rw [underflow_overflow]
    rw [h64] at hinf
    omega
  have hnan : k.srcInfinity < a ↔ binary64.inf < a.toNat := BitVec.lt_def
  have hover : k.overflow < a := by
    rw [BitVec.lt_def]
    change 1151 * 2 ^ 52 < a.toNat
    rw [h64] at hinf
    omega
  have hshl := shl_natCast t (BitVec.ofNat 32 k.dstInfExp) (n := dstSigBits) (by decide)
  have hval : (BitVec.ofNat 32 k.dstInfExp <<< dstSigBits).toNat = binary32.inf := by decide
  unfold absResult
  rw [if_neg hnormal, infinity, hshl]
  by_cases h : binary64.inf < a.toNat
  · rw [if_pos (hnan.mpr h), if_pos h]
    exact ⟨_,rfl,nan_eq a⟩
  · rw [if_neg (hnan.not.mpr h), if_neg h, if_pos hover]
    exact ⟨_,rfl,hval⟩

/-- The denormal path cannot cope with 2^128: its shift amount is negative. -/
theorem absResult_overflow (x : BitVec 64) {a : BitVec 64} (ha : a.toNat = 1151 * 2 ^ 52) :
    absResult .strict k x a = none := by
  obtain rfl : a = k.overflow := BitVec.eq_of_toNat_eq (ha.trans rfl)
  rw [absResult, if_neg (by decide), if_neg (by decide), if_neg (by decide), denormal]
  have h1 := shr_natCast .strict k.overflow (n := srcSigBits) (by decide)
  have hexp : (k.overflow >>> srcSigBits).toNat = 1151 := by decide
  simp only [h1, hexp, Option.bind_eq_bind, Option.bind_some]
  rfl

end Trunc

/-! ## The function -/

section Result
variable (t : ShiftTarget) {x : BitVec 64}

theorem truncdfsf2_of_abs {z : BitVec 32} {n : ℕ} (hz : Trunc.absResult t Trunc.k x (x &&& Trunc.k.srcAbsMask) = some z)
    (hval : z.toNat = n) (hn : n < 2 ^ 31) : ∃ r, truncdfsf2 t x = some r ∧ r.toNat = x.toNat / 2 ^ 63 * 2 ^ 31 + n := by
  have hlt := x.isLt
  have hmask : Trunc.k.srcSignMask = BitVec.twoPow 64 63 := by decide
  have hsign : (((x &&& Trunc.k.srcSignMask) >>> 32).truncate 32).toNat = x.toNat / 2 ^ 63 * 2 ^ 31 := by
    have hbit := BitMask.toNat_and_twoPow x (k := 63) (by decide)
    rw [hmask, BitVec.toNat_setWidth, BitVec.toNat_ushiftRight, hbit, Nat.shiftRight_eq_div_pow]
    omega
  have h32 := shr_natCast t (x &&& Trunc.k.srcSignMask) (n := 32) (by decide)
  simp only [truncdfsf2, Trunc.constants_eq', Option.pure_def, Option.bind_eq_bind, Option.bind_some, hz, h32]
  refine ⟨_,rfl,?_⟩
  rw [BitVec.or_comm, BitMask.toNat_or_disjoint (k := 31), hsign, hval]
  · rw [hsign]
    exact Nat.dvd_mul_left _ _
  · rw [hval]
    exact hn

/-- The bits of 2^128. -/
def smallestOverflow : ℕ := 1151 * 2 ^ 52

/-- The number that a finite double stands for. -/
def doubleValue (x : BitVec 64) : ℚ := binary64.toRat (binary64.sign x.toNat) (binary64.abs x.toNat)

/-- What the narrowing of `x` should give. -/
structure Narrowed (x : BitVec 64) (r : BitVec 32) : Prop where
  sign : binary32.sign r.toNat = binary64.sign x.toNat
  finite : binary64.abs x.toNat < binary64.inf → binary32.Rounds (doubleValue x) r.toNat
  overflow : binary64.abs x.toNat < binary64.inf → 2 ^ 128 - 2 ^ 103 ≤ |doubleValue x| → binary32.abs r.toNat = binary32.inf
  infinite : binary64.abs x.toNat = binary64.inf → binary32.abs r.toNat = binary32.inf
  nan : binary64.IsNaN x.toNat → binary32.IsNaN r.toNat ∧ r &&& Trunc.k.dstQNaN ≠ 0

def NarrowsRight (t : ShiftTarget) (x : BitVec 64) : Prop := ∃ r, truncdfsf2 t x = some r ∧ Narrowed x r

theorem nearest_overflow {q : ℚ} {a : ℕ} (hq : 2 ^ 128 - 2 ^ 103 ≤ q) (ha : binary32.Nearest (q / 2 ^ binary32.emin) a) :
    a = binary32.inf := by
  have hlast : binary32.inf - 1 = 253 * 2 ^ 23 + (2 ^ 24 - 1) := rfl
  have hfields := BinaryFormat.mag_significand (F := binary32) (e := 253) (m := 2 ^ 24 - 1) (by decide) (.inr (by decide))
  have hmag : binary32.mag (binary32.inf - 1) = (2 ^ 24 - 1) * 2 ^ 253 := hfields.1
  have hulp : binary32.ulp (binary32.inf - 1) = 2 ^ 253 := hfields.2
  have hmin : binary32.emin = -149 := by decide
  have heven : Even binary32.inf := by
    rw [Nat.even_iff]
    rfl
  have hpos := binary32.two_pow_emin_pos
  refine ha.unique (BinaryFormat.nearest_inf_of_half (by decide) heven ?_)
  rw [le_div_iff₀ hpos, hmag, hulp, hmin]
  refine le_trans (le_of_eq ?_) hq
  norm_num

theorem narrowsRight_of_ne (h : binary64.abs x.toNat ≠ smallestOverflow) : NarrowsRight t x := by
  have hlt := x.isLt
  have habs : (x &&& Trunc.k.srcAbsMask).toNat = binary64.abs x.toNat := BitMask.toNat_and_low x (k := 63) (by decide)
  have hbound : binary64.abs x.toNat < 2 ^ 63 := Nat.mod_lt _ (Nat.two_pow_pos 63)
  have hinf32 : binary32.inf = 255 * 2 ^ 23 := rfl
  obtain ⟨z,n,hz,hval,hn,hfinite,hinfinite,hnan⟩ : ∃ (z : BitVec 32) (n : ℕ),
      Trunc.absResult t Trunc.k x (x &&& Trunc.k.srcAbsMask) = some z ∧ z.toNat = n ∧ n < 2 ^ 31 ∧
      (binary64.abs x.toNat < binary64.inf → binary32.Nearest (|doubleValue x| / 2 ^ binary32.emin) n) ∧
      (binary64.abs x.toNat = binary64.inf → n = binary32.inf) ∧
      (binary64.IsNaN x.toNat → binary32.inf < n ∧ n / 2 ^ 22 % 2 = 1) := by
    rcases Nat.lt_or_ge (binary64.abs x.toNat) binary64.inf with hfin | hspecial
    · obtain ⟨z,hz,hnear⟩ := Trunc.absResult_rounds t (x := x) (a := x &&& Trunc.k.srcAbsMask) (by rw [habs]; exact hfin)
        (by rw [habs]; exact h) habs.symm
      refine ⟨z,_,hz,rfl,?_,?_,?_,?_⟩
      · exact hnear.le_top.trans_lt (by decide)
      · intro _
        rw [doubleValue, BinaryFormat.abs_toRat, ← habs]
        exact hnear
      · exact fun hinf => absurd hfin (by rw [hinf]; exact lt_irrefl _)
      · exact fun hnan => absurd hfin (Nat.not_lt.mpr (Nat.le_of_lt hnan))
    · obtain ⟨z,hz,hval⟩ := Trunc.absResult_special t (x := x) (a := x &&& Trunc.k.srcAbsMask) (by rw [habs]; exact hspecial)
        (by rw [habs]; exact hbound)
      rw [habs] at hval
      refine ⟨z,_,hz,hval,?_,?_,?_,?_⟩
      · rw [hinf32]
        split_ifs <;> omega
      · exact fun hfin => absurd hfin (Nat.not_lt.mpr hspecial)
      · intro hinf
        rw [hinf, if_neg (lt_irrefl _)]
      · intro hnan
        have hgt : binary64.inf < binary64.abs x.toNat := hnan
        rw [if_pos hgt, hinf32]
        omega
  obtain ⟨r,hr,hbits⟩ := truncdfsf2_of_abs t hz hval hn
  have hrabs : binary32.abs r.toNat = n := by
    change r.toNat % 2 ^ 31 = n
    omega
  have hsign : binary32.sign r.toNat = binary64.sign x.toNat := by
    change r.toNat.testBit 31 = x.toNat.testBit 63
    rw [Nat.testBit_eq_decide_div_mod_eq, Nat.testBit_eq_decide_div_mod_eq, decide_eq_decide]
    omega
  refine ⟨r,hr,hsign,?_,?_,?_,?_⟩
  · intro hfin
    refine ⟨by rw [hrabs]; exact hfinite hfin,?_⟩
    intro hne
    have hpos : 0 < binary64.abs x.toNat := by
      rw [Nat.pos_iff_ne_zero]
      intro h0
      exact hne (by rw [doubleValue, h0, BinaryFormat.toRat, BinaryFormat.mag_zero]; simp)
    rw [hsign]
    exact (BinaryFormat.decide_toRat_neg _ hpos).symm
  · intro hfin hlarge
    rw [hrabs]
    exact nearest_overflow hlarge (hfinite hfin)
  · intro hinf
    rw [hrabs]
    exact hinfinite hinf
  · intro hnan'
    obtain ⟨hgt,hquiet⟩ := hnan hnan'
    have hmask : Trunc.k.dstQNaN = BitVec.twoPow 32 22 := by decide
    have hbit := BitMask.toNat_and_twoPow r (k := 22) (by decide)
    have hodd : r.toNat / 2 ^ 22 % 2 = 1 := by omega
    constructor
    · rw [BinaryFormat.IsNaN, hrabs]
      exact hgt
    · intro hzero
      rw [hmask] at hzero
      rw [hzero, hodd] at hbit
      exact absurd hbit (by decide)

/-- For every target a double is narrowed right, unless it is 2^128 or its negation. -/
theorem narrowsRight_iff (x : BitVec 64) :
    (∀ t, NarrowsRight t x) ↔ binary64.abs x.toNat ≠ smallestOverflow := by
  constructor
  · intro h heq
    obtain ⟨r,hr,-⟩ := h .strict
    have habs : (x &&& Trunc.k.srcAbsMask).toNat = binary64.abs x.toNat := BitMask.toNat_and_low x (k := 63) (by decide)
    have hnone := Trunc.absResult_overflow x (habs.trans heq)
    rw [truncdfsf2, Trunc.constants_eq', Option.bind_eq_bind, Option.bind_some] at hr
    dsimp only at hr
    rw [hnone] at hr
    cases hr
  · exact fun hne t => narrowsRight_of_ne t hne

theorem smallestOverflow_eq : (binary64.mag smallestOverflow : ℚ) * 2 ^ binary64.emin = 2 ^ 128 := by
  have hmag := (BinaryFormat.mag_significand (F := binary64) (e := 1150) (m := 2 ^ 52) (by decide) (.inr le_rfl)).1
  have hcode : smallestOverflow = 1150 * 2 ^ binary64.fracBits + 2 ^ 52 := rfl
  rw [hcode, hmag, Trunc.float_units (2 ^ 52) (e := 1150) (i := 254) (j := 29) rfl]
  have hmin : binary32.emin = -149 := by decide
  rw [hmin]
  norm_num

/-- The double 2^128. -/
theorem not_narrowsRight : ¬∀ (t : ShiftTarget) (x : BitVec 64), NarrowsRight t x := by
  intro h
  obtain ⟨r,hr,-⟩ := h .strict 0x47f0000000000000
  have hnone : truncdfsf2 .strict 0x47f0000000000000 = none := by decide +kernel
  rw [hnone] at hr
  cases hr

end Result
end CompilerRt.FpConvert
