import CompilerRt.Builtins.FpTrunc

/-! # Extension is exact

What `__extendsfdf2` makes of the bits below the sign, and that `__truncdfsf2` leads back.
-/
namespace CompilerRt.FpConvert
open CShift FpLib
open BinaryFormat (binary32 binary64)

namespace Extend
variable (t : ShiftTarget)

theorem constants_eq' : constants t = some k := rfl

/-- A normal number keeps its fraction; the exponent is biased anew. -/
theorem normal_eq {a : BitVec 32} (ha : a.toNat < 2 ^ 31) :
    ∃ r, normal t k a = some r ∧ r.toNat = a.toNat * 2 ^ 29 + 896 * 2 ^ 52 := by
  have h1 := shl_natCast t (a.zeroExtend 64) (n := dstSigBits - srcSigBits) (by decide)
  have h2 := shl_natCast t (BitVec.ofNat 64 (k.dstExpBias - k.srcExpBias)) (n := dstSigBits) (by decide)
  have hext : (a.zeroExtend 64).toNat = a.toNat := BitVec.toNat_setWidth_of_le (by decide)
  have hbias : (BitVec.ofNat 64 (k.dstExpBias - k.srcExpBias) <<< dstSigBits).toNat = 896 * 2 ^ 52 := by decide
  have hfrac : (a.zeroExtend 64 <<< (dstSigBits - srcSigBits)).toNat = a.toNat * 2 ^ 29 := by
    have hlt : (a.zeroExtend 64).toNat * 2 ^ (dstSigBits - srcSigBits) < 2 ^ 64 := by
      rw [hext]
      exact (Nat.mul_lt_mul_of_pos_right ha (Nat.two_pow_pos _)).trans (by decide)
    rw [BitMask.toNat_shiftLeft_of_lt hlt, hext]
    rfl
  rw [normal, h1, h2]
  refine ⟨_,rfl,?_⟩
  rw [BitVec.toNat_add, hfrac, hbias, Nat.mod_eq_of_lt]
  omega

theorem log_bounds {n : ℕ} (h0 : n ≠ 0) (hn : n < 2 ^ 23) : Nat.log 2 n < 23 ∧
    2 ^ 52 ≤ n * 2 ^ (52 - Nat.log 2 n) ∧ n * 2 ^ (52 - Nat.log 2 n) < 2 ^ 53 := by
  have hlog : Nat.log 2 n < 23 := Nat.log_lt_of_lt_pow h0 hn
  exact ⟨hlog,BinaryFormat.normalized_bounds (p := 52) (by omega) (Nat.pow_log_le_self 2 h0) (Nat.lt_pow_succ_log_self (by decide) n)⟩

/-- A denormal number becomes a normal one, with the exponent of its first bit. -/
theorem denormal_eq {a : BitVec 32} (h0 : a.toNat ≠ 0) (ha : a.toNat < 2 ^ 23) : ∃ r, denormal t k a = some r ∧
    r.toNat = (874 + Nat.log 2 a.toNat) * 2 ^ 52 + (a.toNat * 2 ^ (52 - Nat.log 2 a.toNat) - 2 ^ 52) := by
  obtain ⟨l,hl⟩ : ∃ l, l = Nat.log 2 a.toNat := ⟨_,rfl⟩
  have hlog : l < 23 := hl ▸ Nat.log_lt_of_lt_pow h0 ha
  have hlo : 2 ^ l ≤ a.toNat := hl ▸ Nat.pow_log_le_self 2 h0
  have hhi : a.toNat < 2 ^ (l + 1) := hl ▸ Nat.lt_pow_succ_log_self (by decide) a.toNat
  have hmin : builtin_clz k.srcMinNormal = 8 := by
    change 32 - 1 - Nat.log 2 (2 ^ 23) = 8
    rw [Nat.log_pow (by decide)]
  have hclz : builtin_clz a = 31 - l := by rw [hl]; rfl
  have hscale : (builtin_clz a : ℤ) - builtin_clz k.srcMinNormal = 23 - l := by
    rw [hmin, hclz]
    omega
  have hamount : (dstSigBits : ℤ) - srcSigBits + (23 - l) = (52 - l : ℕ) := by
    change (52 : ℤ) - 23 + (23 - l) = _
    omega
  have hexp : (k.dstExpBias : ℤ) - k.srcExpBias - (23 - l) + 1 = (874 + l : ℕ) := by
    change (1023 : ℤ) - 127 - (23 - l) + 1 = _
    omega
  have hext : (a.zeroExtend 64).toNat = a.toNat := BitVec.toNat_setWidth_of_le (by decide)
  obtain ⟨hle,hlt⟩ := BinaryFormat.normalized_bounds (p := 52) (by omega) hlo hhi
  have hshift : (a.zeroExtend 64 <<< (52 - l)).toNat = a.toNat * 2 ^ (52 - l) := by
    rw [BitMask.toNat_shiftLeft_of_lt, hext]
    rw [hext]
    exact hlt.trans (by decide)
  have hset : (a.zeroExtend 64 <<< (52 - l)).getLsbD 52 = true := by
    rw [← BitVec.testBit_toNat, hshift, Nat.testBit_eq_decide_div_mod_eq]
    simp only [decide_eq_true_eq]
    omega
  have hxor : (a.zeroExtend 64 <<< (52 - l) ^^^ k.dstMinNormal).toNat = a.toNat * 2 ^ (52 - l) - 2 ^ 52 := by
    have hmin' : k.dstMinNormal = BitVec.twoPow 64 52 := by decide
    have hclear := BitMask.toNat_and_not_twoPow_of_set hset
    rw [hmin', BitMask.xor_twoPow_of_set hset]
    omega
  have hfield : (BitVec.ofInt 64 ((874 + l : ℕ) : ℤ) <<< dstSigBits).toNat = (874 + l) * 2 ^ 52 := by
    have hnat : (BitVec.ofInt 64 ((874 + l : ℕ) : ℤ)).toNat = 874 + l := by
      rw [BitVec.ofInt_natCast, BitVec.toNat_ofNat]
      exact Nat.mod_eq_of_lt (by omega)
    rw [BitMask.toNat_shiftLeft_of_lt, hnat]
    · rfl
    · rw [hnat]
      change (874 + l) * 2 ^ 52 < 2 ^ 64
      omega
  have h1 := shl_natCast t (a.zeroExtend 64) (n := 52 - l) (by omega)
  have h2 := shl_natCast t (BitVec.ofInt 64 ((874 + l : ℕ) : ℤ)) (n := dstSigBits) (by decide)
  simp only [denormal, hscale, hamount, hexp, h1, h2, Option.pure_def, Option.bind_eq_bind, Option.bind_some]
  refine ⟨_,rfl,?_⟩
  rw [BitVec.or_comm, BitMask.toNat_or_disjoint (k := 52), hfield, hxor, ← hl]
  · rw [hfield]
    exact Nat.dvd_mul_left _ _
  · rw [hxor]
    omega

theorem quiet_eq (a : BitVec 32) : (a &&& k.srcQNaN).toNat = a.toNat / 2 ^ 22 % 2 * 2 ^ 22 := by
  have hq : k.srcQNaN = BitVec.twoPow 32 22 := by decide
  rw [hq]
  exact BitMask.toNat_and_twoPow a (by decide)

theorem payload_eq (a : BitVec 32) : (a &&& k.srcNaNCode).toNat = a.toNat % 2 ^ 22 :=
  BitMask.toNat_and_low a (k := 22) (by decide)

/-- Infinity, or a NaN with its first fraction bit and the rest of its fraction. -/
theorem special_eq (a : BitVec 32) : ∃ r, special t k a = some r ∧
    r.toNat = 2047 * 2 ^ 52 + a.toNat / 2 ^ 22 % 2 * 2 ^ 51 + a.toNat % 2 ^ 22 := by
  have h1 := shl_natCast t (BitVec.ofNat 64 k.dstInfExp) (n := dstSigBits) (by decide)
  have h2 := shl_natCast t ((a &&& k.srcQNaN).zeroExtend 64) (n := dstSigBits - srcSigBits) (by decide)
  have hinf : (BitVec.ofNat 64 k.dstInfExp <<< dstSigBits).toNat = 2047 * 2 ^ 52 := by decide
  have hext : ((a &&& k.srcQNaN).zeroExtend 64).toNat = a.toNat / 2 ^ 22 % 2 * 2 ^ 22 := by
    rw [← quiet_eq]
    exact BitVec.toNat_setWidth_of_le (by decide)
  have hquiet : ((a &&& k.srcQNaN).zeroExtend 64 <<< (dstSigBits - srcSigBits)).toNat =
      a.toNat / 2 ^ 22 % 2 * 2 ^ 51 := by
    rw [BitMask.toNat_shiftLeft_of_lt, hext]
    · rw [Nat.mul_assoc, ← pow_add]
      rfl
    · rw [hext, Nat.mul_assoc, ← pow_add]
      change _ * 2 ^ 51 < 2 ^ 64
      omega
  have hpay : ((a &&& k.srcNaNCode).zeroExtend 64).toNat = a.toNat % 2 ^ 22 := by
    rw [← payload_eq]
    exact BitVec.toNat_setWidth_of_le (by decide)
  rw [special, h1, h2]
  refine ⟨_,rfl,?_⟩
  have htop : (BitVec.ofNat 64 k.dstInfExp <<< dstSigBits ||| (a &&& k.srcQNaN).zeroExtend 64 <<<
      (dstSigBits - srcSigBits)).toNat = 2047 * 2 ^ 52 + a.toNat / 2 ^ 22 % 2 * 2 ^ 51 := by
    rw [BitMask.toNat_or_disjoint (k := 52), hinf, hquiet]
    · rw [hinf]
      exact Nat.dvd_mul_left _ _
    · rw [hquiet]
      omega
  rw [BitMask.toNat_or_disjoint (k := 22), htop, hpay]
  · rw [htop]
    omega
  · rw [hpay]
    omega

/-- The bits below the sign, in all cases. -/
def extAbs (a : ℕ) : ℕ :=
  if a = 0 then 0
  else if a < 2 ^ 23 then (874 + Nat.log 2 a) * 2 ^ 52 + (a * 2 ^ (52 - Nat.log 2 a) - 2 ^ 52)
  else if a < 255 * 2 ^ 23 then a * 2 ^ 29 + 896 * 2 ^ 52
  else 2047 * 2 ^ 52 + a / 2 ^ 22 % 2 * 2 ^ 51 + a % 2 ^ 22

theorem absResult_eq {a : BitVec 32} (ha : a.toNat < 2 ^ 31) : ∃ r, absResult t k a = some r ∧ r.toNat = extAbs a.toNat := by
  have hnormal : a - k.srcMinNormal < k.srcInfinity - k.srcMinNormal ↔ 2 ^ 23 ≤ a.toNat ∧ a.toNat < 255 * 2 ^ 23 := by
    have hm : k.srcMinNormal = 0x00800000 := rfl
    have hi : k.srcInfinity = 0x7f800000 := rfl
    rw [hm, hi]
    bv_omega
  have hspecial : k.srcInfinity ≤ a ↔ 255 * 2 ^ 23 ≤ a.toNat := BitVec.le_def
  have hzero : a ≠ 0 ↔ a.toNat ≠ 0 := not_congr BitVec.toNat_inj.symm
  unfold absResult extAbs
  rcases Nat.eq_zero_or_pos a.toNat with h0 | hpos
  · rw [if_neg (by rw [hnormal]; omega), if_neg (by rw [hspecial]; omega), if_neg (by rw [hzero]; omega), if_pos h0]
    exact ⟨0,rfl,rfl⟩
  rw [if_neg hpos.ne']
  rcases Nat.lt_or_ge a.toNat (2 ^ 23) with hden | hmin
  · rw [if_neg (by rw [hnormal]; omega), if_neg (by rw [hspecial]; omega), if_pos (by rw [hzero]; omega), if_pos hden]
    exact denormal_eq t hpos.ne' hden
  rw [if_neg (Nat.not_lt.mpr hmin)]
  rcases Nat.lt_or_ge a.toNat (255 * 2 ^ 23) with hfin | hinf
  · rw [if_pos (hnormal.mpr ⟨hmin,hfin⟩), if_pos hfin]
    exact normal_eq t ha
  · rw [if_neg (by rw [hnormal]; omega), if_pos (hspecial.mpr hinf), if_neg (Nat.not_lt.mpr hinf)]
    exact special_eq t a

theorem extAbs_lt {a : ℕ} (ha : a < 2 ^ 31) : extAbs a < 2 ^ 63 := by
  unfold extAbs
  split_ifs with h0 hden hfin
  · decide
  · obtain ⟨hlog,-,hlt⟩ := log_bounds h0 hden
    omega
  · omega
  · omega

end Extend

/-- The bits of the result: those below the sign, and the sign. -/
theorem extendsfdf2_eq (t : ShiftTarget) (x : BitVec 32) : ∃ r, extendsfdf2 t x = some r ∧
    r.toNat = x.toNat / 2 ^ 31 * 2 ^ 63 + Extend.extAbs (x.toNat % 2 ^ 31) := by
  have hx := x.isLt
  have habs : (x &&& Extend.k.srcAbsMask).toNat = x.toNat % 2 ^ 31 := BitMask.toNat_and_low x (k := 31) (by decide)
  have hmask : Extend.k.srcSignMask = BitVec.twoPow 32 31 := by decide
  have hsign : ((x &&& Extend.k.srcSignMask).zeroExtend 64).toNat = x.toNat / 2 ^ 31 * 2 ^ 31 := by
    have hbit := BitMask.toNat_and_twoPow x (k := 31) (by decide)
    rw [← hmask] at hbit
    have hext : ((x &&& Extend.k.srcSignMask).zeroExtend 64).toNat = (x &&& Extend.k.srcSignMask).toNat :=
      BitVec.toNat_setWidth_of_le (by decide)
    rw [hext, hbit]
    omega
  have hshift : ((x &&& Extend.k.srcSignMask).zeroExtend 64 <<< 32).toNat = x.toNat / 2 ^ 31 * 2 ^ 63 := by
    rw [BitMask.toNat_shiftLeft_of_lt, hsign] <;> omega
  have hlt := Extend.extAbs_lt (a := x.toNat % 2 ^ 31) (by omega)
  obtain ⟨r,hr,hval⟩ := Extend.absResult_eq t (a := x &&& Extend.k.srcAbsMask) (by omega)
  have h32 := shl_natCast t ((x &&& Extend.k.srcSignMask).zeroExtend 64) (n := 32) (by decide)
  simp only [extendsfdf2, Extend.constants_eq', Option.pure_def, Option.bind_eq_bind, Option.bind_some, hr, h32]
  refine ⟨_,rfl,?_⟩
  rw [habs] at hval
  rw [BitVec.or_comm, BitMask.toNat_or_disjoint (k := 63), hshift, hval]
  · rw [hshift]
    exact Nat.dvd_mul_left _ _
  · rw [hval]
    exact hlt

/-! ## The way back -/

namespace Trunc
variable (t : ShiftTarget)

/-- The bits below the sign that come back: all of them, with the quiet bit set in a NaN. -/
def backAbs (n : ℕ) : ℕ := if 255 * 2 ^ 23 < n then 255 * 2 ^ 23 + 2 ^ 22 + n % 2 ^ 22 else n

theorem backAbs_lt {n : ℕ} (hn : n < 2 ^ 31) : backAbs n < 2 ^ 31 := by
  unfold backAbs
  split_ifs <;> omega

theorem absResult_extAbs {x a : BitVec 64} {n : ℕ} (hn : n < 2 ^ 31) (ha : a.toNat = Extend.extAbs n)
    (hx : x.toNat % 2 ^ 63 = a.toNat) : ∃ r, absResult t k x a = some r ∧ r.toNat = backAbs n := by
  have hlt : a.toNat < 2 ^ 63 := ha ▸ Extend.extAbs_lt hn
  have hnormal : a - k.underflow < a - k.overflow ↔ 897 * 2 ^ 52 ≤ a.toNat ∧ a.toNat < 1151 * 2 ^ 52 := underflow_overflow a
  have hnan : k.srcInfinity < a ↔ 2047 * 2 ^ 52 < a.toNat := BitVec.lt_def
  have hover : k.overflow < a ↔ 1151 * 2 ^ 52 < a.toNat := BitVec.lt_def
  unfold Extend.extAbs at ha
  split_ifs at ha with h0 hden hfin
  · -- zero
    obtain ⟨r,hr,hval⟩ := denormal_rounds t (e := 0) (m := 0) (by decide) (by decide) (.inl rfl) ha hx
    rw [absResult, if_neg (by rw [hnormal]; omega), if_neg (by rw [hnan]; omega), if_neg (by rw [hover]; omega)]
    exact ⟨r,hr,by rw [hval, h0, roundDiv_zero]; rfl⟩
  · -- a denormal number
    obtain ⟨hlog,hle,hsig⟩ := Extend.log_bounds h0 hden
    generalize Nat.log 2 n = l at ha hlog hle hsig
    have hfield : (874 + l) * 2 ^ 52 = (873 + l) * 2 ^ 52 + 2 ^ 52 := by ring
    have hsplit : a.toNat = (873 + l) * 2 ^ 52 + n * 2 ^ (52 - l) := by
      rw [ha, hfield, Nat.add_assoc, Nat.add_sub_cancel' hle]
    obtain ⟨r,hr,hval⟩ := denormal_rounds t (e := 873 + l) (m := n * 2 ^ (52 - l)) (by omega) hsig (.inr hle) hsplit hx
    have hback : 925 - (873 + l) = 52 - l := by omega
    rw [absResult, if_neg (by rw [hnormal]; omega), if_neg (by rw [hnan]; omega), if_neg (by rw [hover]; omega), backAbs,
      if_neg (by omega)]
    exact ⟨r,hr,by rw [hval, hback]; exact roundDiv_mul n (Nat.two_pow_pos _)⟩
  · -- a normal number
    obtain ⟨e,m,hm,hm',rfl⟩ : ∃ e m, 2 ^ 23 ≤ m ∧ m < 2 ^ 24 ∧ n = e * 2 ^ 23 + m :=
      ⟨n / 2 ^ 23 - 1,n - (n / 2 ^ 23 - 1) * 2 ^ 23,by omega,by omega,by omega⟩
    have hlo : 2 ^ 23 * 2 ^ 29 ≤ m * 2 ^ 29 := Nat.mul_le_mul_right _ hm
    have hhi : m * 2 ^ 29 < 2 ^ 24 * 2 ^ 29 := Nat.mul_lt_mul_of_pos_right hm' (Nat.two_pow_pos _)
    have hsplit : a.toNat = (e + 896) * 2 ^ 52 + m * 2 ^ 29 := ha.trans (by ring)
    rw [← pow_add] at hlo hhi
    obtain ⟨r,hr,hval⟩ := normal_rounds t (by omega) (by omega) hlo hhi hsplit
    rw [absResult, if_pos (by rw [hnormal]; omega), backAbs, if_neg (by omega)]
    exact ⟨r,hr,by rw [hval, roundDiv_mul m (by decide), Nat.add_sub_cancel]⟩
  · -- infinity or a NaN
    have h64 : binary64.inf = 2047 * 2 ^ 52 := rfl
    have h32 : binary32.inf = 255 * 2 ^ 23 := rfl
    obtain ⟨r,hr,hval⟩ := absResult_special t (x := x) (a := a) (by rw [h64]; omega) (by omega)
    refine ⟨r,hr,?_⟩
    rw [hval, backAbs, h64, h32]
    split_ifs <;> omega

end Trunc

theorem truncdfsf2_eq (t : ShiftTarget) {x : BitVec 64} {n s : ℕ} (hn : n < 2 ^ 31)
    (hx : x.toNat = s * 2 ^ 63 + Extend.extAbs n) :
    ∃ r, truncdfsf2 t x = some r ∧ r.toNat = s * 2 ^ 31 + Trunc.backAbs n := by
  have hext := Extend.extAbs_lt hn
  have habs : (x &&& Trunc.k.srcAbsMask).toNat = x.toNat % 2 ^ 63 := BitMask.toNat_and_low x (k := 63) (by decide)
  obtain ⟨z,hz,hval⟩ := Trunc.absResult_extAbs t (x := x) (a := x &&& Trunc.k.srcAbsMask) hn (by omega) habs.symm
  obtain ⟨r,hr,hbits⟩ := truncdfsf2_of_abs t hz hval (Trunc.backAbs_lt hn)
  have hsign : x.toNat / 2 ^ 63 = s := by omega
  rw [hsign] at hbits
  exact ⟨r,hr,hbits⟩

/-! ## Values -/

/-- How much smaller the smallest double is than the smallest float, as a power of two. -/
def unitShift : ℕ := 925

/-- The magnitude is the same, in smaller units. -/
theorem mag_extAbs {a : ℕ} (ha : a < binary32.inf) :
    binary64.mag (Extend.extAbs a) = binary32.mag a * 2 ^ unitShift := by
  have ha' : a < 255 * 2 ^ 23 := ha
  clear ha
  unfold Extend.extAbs
  split_ifs with h0 hden
  · have hzero : ∀ F : BinaryFormat, F.mag 0 = 0 := fun F => BinaryFormat.mag_denormal (Nat.two_pow_pos _)
    rw [h0, hzero, hzero, Nat.zero_mul]
  · obtain ⟨hlog,hle,hsig⟩ := Extend.log_bounds h0 hden
    have hexp : 52 - Nat.log 2 a + (874 + Nat.log 2 a - 1) = unitShift := by
      rw [unitShift]
      omega
    rw [BinaryFormat.binary64_fields (by omega) (by omega), Nat.sub_add_cancel hle, Nat.mul_assoc, ← pow_add, hexp,
      BinaryFormat.mag_denormal (F := binary32) hden]
  · obtain ⟨e,f,he,hf,rfl⟩ : ∃ e f, 0 < e ∧ f < 2 ^ 23 ∧ a = e * 2 ^ 23 + f :=
      ⟨a / 2 ^ 23,a % 2 ^ 23,by omega,by omega,by omega⟩
    have hlt : f * 2 ^ 29 < 2 ^ 52 := by
      calc f * 2 ^ 29 < 2 ^ 23 * 2 ^ 29 := Nat.mul_lt_mul_of_pos_right hf (Nat.two_pow_pos _)
        _ = 2 ^ 52 := by norm_num
    have hfields := BinaryFormat.binary64_fields (e := e + 896) (f := f * 2 ^ 29) (by omega) hlt
    have hfrac : f * 2 ^ 29 + 2 ^ 52 = (f + 2 ^ 23) * 2 ^ 29 := by ring
    have hsplit : (e * 2 ^ 23 + f) * 2 ^ 29 + 896 * 2 ^ 52 = (e + 896) * 2 ^ 52 + f * 2 ^ 29 := by ring
    have hexp : 29 + (e + 896 - 1) = e - 1 + unitShift := by
      rw [unitShift]
      omega
    rw [hsplit, hfields, BinaryFormat.binary32_fields he hf, hfrac, Nat.mul_assoc, ← pow_add, hexp, pow_add, Nat.mul_assoc]

/-- Infinity goes to infinity, and a NaN to a NaN. -/
theorem extAbs_special {a : ℕ} (ha : a < 2 ^ 31) :
    (Extend.extAbs a < binary64.inf ↔ a < binary32.inf) ∧ (binary64.inf < Extend.extAbs a ↔ binary32.inf < a) := by
  have h32 : binary32.inf = 255 * 2 ^ 23 := rfl
  have h64 : binary64.inf = 2047 * 2 ^ 52 := rfl
  rw [h32, h64]
  unfold Extend.extAbs
  split_ifs with h0 hden hfin
  · omega
  · obtain ⟨hlog,-,hsig⟩ := Extend.log_bounds h0 hden
    omega
  · omega
  · omega

theorem toRat_extAbs (s : Bool) {a : ℕ} (ha : a < binary32.inf) :
    binary64.toRat s (Extend.extAbs a) = binary32.toRat s a := by
  have hunit : (unitShift : ℤ) + binary64.emin = binary32.emin := by decide
  rw [BinaryFormat.toRat, BinaryFormat.toRat, mag_extAbs ha, Nat.cast_mul, Nat.cast_pow, ← hunit,
    zpow_add₀ (by norm_num), zpow_natCast, mul_assoc (binary32.mag a : ℚ)]
  norm_cast

section Result
variable {t : ShiftTarget} {x y : BitVec 32} {r : BitVec 64}

theorem extendsfdf2_fields (hr : extendsfdf2 t x = some r) :
    binary64.abs r.toNat = Extend.extAbs (binary32.abs x.toNat) ∧ binary64.sign r.toNat = binary32.sign x.toNat := by
  obtain ⟨r',hr',hval⟩ := extendsfdf2_eq t x
  obtain rfl : r' = r := Option.some.inj (hr'.symm.trans hr)
  have hx := x.isLt
  have hlt := Extend.extAbs_lt (a := x.toNat % 2 ^ 31) (by omega)
  constructor
  · change r'.toNat % 2 ^ 63 = Extend.extAbs (x.toNat % 2 ^ 31)
    omega
  · change r'.toNat.testBit 63 = x.toNat.testBit 31
    rw [Nat.testBit_eq_decide_div_mod_eq, Nat.testBit_eq_decide_div_mod_eq, decide_eq_decide]
    omega

theorem extendsfdf2_isNaN (hr : extendsfdf2 t x = some r) : binary64.IsNaN r.toNat ↔ binary32.IsNaN x.toNat := by
  rw [BinaryFormat.IsNaN, (extendsfdf2_fields hr).1]
  exact (extAbs_special (Nat.mod_lt _ (Nat.two_pow_pos _))).2

theorem extendsfdf2_value (hr : extendsfdf2 t x = some r) : binary64.value r.toNat = binary32.value x.toNat := by
  obtain ⟨habs,hsign⟩ := extendsfdf2_fields hr
  have hlt := (extAbs_special (a := binary32.abs x.toNat) (Nat.mod_lt _ (Nat.two_pow_pos _))).1
  unfold BinaryFormat.value
  rw [habs, hsign]
  by_cases hfin : binary32.abs x.toNat < binary32.inf
  · rw [if_pos (hlt.mpr hfin), if_pos hfin, toRat_extAbs _ hfin]
  · rw [if_neg (hlt.not.mpr hfin), if_neg hfin]

end Result

def quietBit : BitVec 32 := 0x00400000

/-- A NaN whose first fraction bit is not set. -/
def IsSignalling (x : BitVec 32) : Prop := binary32.IsNaN x.toNat ∧ x &&& quietBit = 0

instance (x : BitVec 32) : Decidable (IsSignalling x) := inferInstanceAs (Decidable (_ ∧ _))

theorem isSignalling_iff (x : BitVec 32) :
    IsSignalling x ↔ 255 * 2 ^ 23 < x.toNat % 2 ^ 31 ∧ x.toNat / 2 ^ 22 % 2 = 0 := by
  have hand := BitMask.toNat_and_twoPow x (k := 22) (by decide)
  have hq : quietBit = BitVec.twoPow 32 22 := by decide
  unfold IsSignalling
  rw [hq, ← BitVec.toNat_inj, hand]
  constructor
  · rintro ⟨hnan,hzero⟩
    exact ⟨hnan,by simpa using hzero⟩
  · rintro ⟨hnan,hzero⟩
    exact ⟨hnan,by rw [hzero]; rfl⟩

theorem quietBit_toNat {x : BitVec 32} (hx : x.toNat / 2 ^ 22 % 2 = 0) : (x ||| quietBit).toNat = x.toNat + 2 ^ 22 := by
  have hq : quietBit = BitVec.twoPow 32 22 := by decide
  have hclear : x.getLsbD 22 = false := by
    rw [← BitVec.testBit_toNat, Nat.testBit_eq_decide_div_mod_eq, hx]
    rfl
  rw [hq]
  exact BitMask.toNat_or_twoPow_of_clear hclear (by decide)

theorem truncdfsf2_extendsfdf2 (t : ShiftTarget) (x : BitVec 32) : ∃ r, extendsfdf2 t x = some r ∧
    truncdfsf2 t r = some (if IsSignalling x then x ||| quietBit else x) := by
  have hx := x.isLt
  obtain ⟨r,hr,hval⟩ := extendsfdf2_eq t x
  obtain ⟨z,hz,hback⟩ := truncdfsf2_eq t (n := x.toNat % 2 ^ 31) (by omega) hval
  have hz' : z = if IsSignalling x then x ||| quietBit else x := by
    apply BitVec.eq_of_toNat_eq
    rw [hback]
    unfold Trunc.backAbs
    by_cases hsig : IsSignalling x
    · rw [if_pos hsig]
      rw [isSignalling_iff] at hsig
      rw [if_pos hsig.1, quietBit_toNat hsig.2]
      omega
    · rw [if_neg hsig]
      rw [isSignalling_iff] at hsig
      split_ifs with hnan <;> omega
  exact ⟨r,hr,by rw [hz, hz']⟩

/-- A double for every float, with its sign, its value where it is a number, and the way back. -/
theorem extendsfdf2_exact (t : ShiftTarget) :
    (∀ x : BitVec 32, ∃ r, extendsfdf2 t x = some r ∧
      binary64.sign r.toNat = binary32.sign x.toNat ∧ (binary64.IsNaN r.toNat ↔ binary32.IsNaN x.toNat) ∧
      (¬binary32.IsNaN x.toNat → binary64.value r.toNat = binary32.value x.toNat) ∧
      truncdfsf2 t r = some (if IsSignalling x then x ||| quietBit else x)) ∧
    ∀ (x y : BitVec 32) (r s : BitVec 64), ¬binary32.IsNaN x.toNat → ¬binary32.IsNaN y.toNat →
      extendsfdf2 t x = some r → extendsfdf2 t y = some s →
      (binary64.value r.toNat < binary64.value s.toNat ↔ binary32.value x.toNat < binary32.value y.toNat) := by
  constructor
  · intro x
    obtain ⟨r,hr,hback⟩ := truncdfsf2_extendsfdf2 t x
    have hnan := extendsfdf2_isNaN hr
    have hvalue := extendsfdf2_value hr
    have hsign := (extendsfdf2_fields hr).2
    exact ⟨r,hr,hsign,hnan,fun _ => hvalue,hback⟩
  · intro x y r s _ _ hr hs
    rw [extendsfdf2_value hr, extendsfdf2_value hs]

/-- The two smallest denormal numbers, and the signalling NaN of payload 1. -/
theorem extendsfdf2_exact_strict :
    (∃ r s, extendsfdf2 ShiftTarget.strict 1 = some r ∧ extendsfdf2 ShiftTarget.strict 2 = some s ∧
      binary64.value r.toNat < binary64.value s.toNat) ∧
    ∃ r, extendsfdf2 ShiftTarget.strict 0xff800001 = some r ∧ truncdfsf2 ShiftTarget.strict r = some 0xffc00001 := by
  obtain ⟨hall,horder⟩ := extendsfdf2_exact ShiftTarget.strict
  constructor
  · obtain ⟨r,hr,-,-,hvr,-⟩ := hall 1
    obtain ⟨s,hs,-⟩ := hall 2
    have hsign1 : binary32.sign (1 : BitVec 32).toNat = false := by decide
    have hsign2 : binary32.sign (2 : BitVec 32).toNat = false := by decide
    have hmag1 : binary32.mag (binary32.abs (1 : BitVec 32).toNat) = 1 := by decide
    have hmag2 : binary32.mag (binary32.abs (2 : BitVec 32).toNat) = 2 := by decide
    have hmin : binary32.emin = -149 := by decide
    refine ⟨r,s,hr,hs,?_⟩
    rw [horder 1 2 r s (by decide) (by decide) hr hs, BinaryFormat.value, BinaryFormat.value, if_pos (by decide),
      if_pos (by decide), WithBot.coe_lt_coe, WithTop.coe_lt_coe, BinaryFormat.toRat, BinaryFormat.toRat, hsign1,
      hsign2, hmag1, hmag2, hmin]
    norm_num
  · obtain ⟨r,hr,-,-,-,hback⟩ := hall 0xff800001
    exact ⟨r,hr,hback.trans (by decide)⟩

end CompilerRt.FpConvert
