import CompilerRt.Builtins.FloatDiSoft
import Mathlib.Tactic.Push

/-! # One rounding

All operations of the hardware versions but the last are exact, so that they round the integer once, as the integer
versions do.
-/
namespace CompilerRt.FloatDi
open CShift FpLib
open BinaryFormat (binary64)

theorem emin_eq : binary64.emin = -1074 := by decide

/-! ## The integer versions -/

section Code
variable {n j k l : ℕ}

/-- A number of at most 53 digits, at the place of its first one. -/
theorem normalized_cast (hl : l ≤ 52) (j : ℕ) :
    ((n * 2 ^ (52 - l) : ℕ) : ℚ) * 2 ^ (((l + j + 1022 : ℕ) : ℤ) + binary64.emin) = n * 2 ^ j := by
  have hexp : ((52 - l : ℕ) : ℤ) + (((l + j + 1022 : ℕ) : ℤ) + binary64.emin) = (j : ℤ) := by
    rw [emin_eq]
    omega
  rw [Nat.cast_mul, Nat.cast_pow, Nat.cast_ofNat, ← zpow_natCast, mul_assoc, ← zpow_add₀ (by norm_num), hexp, zpow_natCast]

theorem nearest_code (h0 : n ≠ 0) (hn : n < 2 ^ 64) : binary64.Nearest ((n : ℚ) / 2 ^ binary64.emin) (Soft.code n) := by
  have hlog : Nat.log 2 n < 64 := Nat.log_lt_of_lt_pow h0 hn
  exact BinaryFormat.nearest_ofNat (F := binary64) (by decide) (by decide) h0 (hlog.trans (by decide))

end Code

section Soft
variable (t : ShiftTarget) (a : BitVec 64)

theorem soft_rounded {x : BitVec 64} {n : ℕ} {q : ℚ} {b : Bool} (h0 : n ≠ 0) (hn : n < 2 ^ 64) (hq : |q| = n)
    (hb : b = decide (q < 0)) (hcode : Soft.code n < 2 ^ 63) (hx : x.toNat = b.toNat * 2 ^ 63 + Soft.code n) :
    IsRounded q false x := by
  have hne : q ≠ 0 := by
    rintro rfl
    rw [abs_zero] at hq
    exact h0 (Nat.cast_eq_zero.mp hq.symm)
  have habs : binary64.abs x.toNat = Soft.code n := by
    change x.toNat % 2 ^ 63 = _
    omega
  have hsign : binary64.sign x.toNat = b := by
    change x.toNat.testBit 63 = b
    rw [Nat.testBit_eq_decide_div_mod_eq, hx]
    cases b
    · rw [decide_eq_false_iff_not, Bool.toNat_false]
      omega
    · rw [decide_eq_true_iff, Bool.toNat_true]
      omega
  refine ⟨⟨?_,fun _ => hsign.trans hb⟩,fun h => absurd h hne⟩
  rw [habs, hq]
  exact nearest_code h0 hn

theorem code_lt {n : ℕ} (h0 : n ≠ 0) (hn : n < 2 ^ 64) : Soft.code n < 2 ^ 63 := by
  have hle := (nearest_code h0 hn).le_top
  have hinf : binary64.inf < 2 ^ 63 := by decide
  exact hle.trans_lt hinf

theorem soft_zero : IsRounded 0 false 0 := by
  refine ⟨⟨?_,fun h => absurd rfl h⟩,fun _ => rfl⟩
  have hmag : (binary64.mag 0 : ℚ) = |0| / 2 ^ binary64.emin := by rw [BinaryFormat.mag_zero, abs_zero, zero_div, Nat.cast_zero]
  rw [← hmag]
  exact BinaryFormat.nearest_mag (Nat.zero_le _)

theorem floatundidf_rounded : ∃ x, Soft.floatundidf t a = some x ∧ IsRounded (a.toNat : ℚ) false x := by
  unfold Soft.floatundidf
  by_cases h0 : a = 0
  · subst h0
    exact ⟨0,rfl,soft_zero⟩
  have hne : a.toNat ≠ 0 := fun h => h0 (BitVec.eq_of_toNat_eq h)
  obtain ⟨e,x,hx,hlo,hhi,he,hcode⟩ := Soft.significand_eq t BitVec.ushiftRight (fun _ _ _ => rfl) hne
  have hbits := Soft.doubleBits_eq BitVec.ushiftRight (fun _ _ _ => rfl) 0 (b := 0) (x := x) rfl
    hlo hhi he
  simp only [if_neg h0, hx, Option.pure_def, Option.bind_eq_bind, Option.bind_some]
  refine ⟨_,rfl,soft_rounded hne a.isLt (Nat.abs_cast _) (b := false) ?_ (code_lt hne a.isLt) ?_⟩
  · exact (decide_eq_false (not_lt.mpr (Nat.cast_nonneg _))).symm
  · rw [hbits, hcode]
    rfl

theorem sign_word : a.sshiftRight 63 = if a.toInt < 0 then BitVec.allOnes 64 else 0 := by
  have hlt := a.isLt
  have hint := BitVec.toInt_eq_toNat_cond a
  apply BitVec.eq_of_toNat_eq
  by_cases hmsb : a.msb = true
  · have hge : 2 ^ 63 ≤ a.toNat := by
      rw [BitVec.msb_eq_decide] at hmsb
      exact of_decide_eq_true hmsb
    rw [if_pos (by omega), BitVec.sshiftRight_eq_of_msb_true hmsb, BitVec.toNat_not, BitVec.toNat_ushiftRight,
      BitVec.toNat_not, Nat.shiftRight_eq_div_pow, BitVec.toNat_allOnes]
    omega
  · have hge : a.toNat < 2 ^ 63 := by
      rw [BitVec.msb_eq_decide, decide_eq_true_eq] at hmsb
      exact Nat.lt_of_not_le hmsb
    rw [if_neg (by omega), BitVec.sshiftRight_eq_of_msb_false (by simpa using hmsb), BitVec.toNat_ushiftRight,
      Nat.shiftRight_eq_div_pow]
    exact Nat.div_eq_of_lt hge

theorem abs_word : ((a ^^^ a.sshiftRight 63) - a.sshiftRight 63).toNat = a.toInt.natAbs := by
  have hlt := a.isLt
  have hint := BitVec.toInt_eq_toNat_cond a
  rw [sign_word]
  split_ifs with hneg
  · rw [BitVec.xor_allOnes, BitVec.toNat_sub, BitVec.toNat_not, BitVec.toNat_allOnes]
    omega
  · have hsame : (a ^^^ 0) - 0 = a := by simp
    rw [hsame]
    omega

theorem floatdidf_rounded : ∃ x, Soft.floatdidf t a = some x ∧ IsRounded (a.toInt : ℚ) false x := by
  have hsra : ∀ (x : BitVec 64) n, x.toNat < 2 ^ 63 → x.sshiftRight n = x >>> n := by
    intro x n hx
    refine BitVec.sshiftRight_eq_of_msb_false ?_
    rw [BitVec.msb_eq_decide]
    exact decide_eq_false (Nat.not_le.mpr hx)
  unfold Soft.floatdidf
  by_cases h0 : a = 0
  · subst h0
    exact ⟨0,rfl,soft_zero⟩
  have hint : a.toInt ≠ 0 := fun h => h0 (BitVec.toInt_inj.mp h)
  have habs := abs_word a
  have hne : ((a ^^^ a.sshiftRight 63) - a.sshiftRight 63).toNat ≠ 0 := by
    rw [habs]
    exact Int.natAbs_ne_zero.mpr hint
  obtain ⟨e,x,hx,hlo,hhi,he,hcode⟩ := Soft.significand_eq t BitVec.sshiftRight hsra hne
  have hbit : ((a.sshiftRight 63).truncate 32 &&& (0x80000000 : BitVec 32)).toNat = (decide (a.toInt < 0)).toNat * 2 ^ 31 := by
    rw [sign_word]
    split_ifs with hneg
    · rw [decide_eq_true hneg]
      decide
    · rw [decide_eq_false hneg]
      decide
  have hbits := Soft.doubleBits_eq BitVec.sshiftRight hsra _ (x := x) hbit hlo hhi he
  have hwidth : Soft.N - 1 = 63 := rfl
  simp only [if_neg h0, hwidth, hx, Option.pure_def, Option.bind_eq_bind, Option.bind_some]
  have hlt := (a ^^^ a.sshiftRight 63) - a.sshiftRight 63 |>.isLt
  refine ⟨_,rfl,soft_rounded hne hlt ?_ (b := decide (a.toInt < 0)) ?_ (code_lt hne hlt) ?_⟩
  · rw [habs, Nat.cast_natAbs, Int.cast_abs]
  · rw [decide_eq_decide, Int.cast_lt_zero]
  · rw [hbits, hcode]

end Soft

/-! ## The hardware versions -/

section Hard
variable {u : DoubleUnit}

/-- A multiple of a power of two of at most 53 digits is a double. -/
theorem exists_double (z : ℤ) {j : ℕ} (hz : z.natAbs < 2 ^ 53) (hj : j ≤ 900) :
    ∃ s c, c < binary64.inf ∧ binary64.toRat s c = z * 2 ^ j := by
  by_cases h0 : z = 0
  · exact ⟨false,0,by decide,by rw [h0, BinaryFormat.toRat, BinaryFormat.mag_zero]; simp⟩
  have hne : z.natAbs ≠ 0 := Int.natAbs_ne_zero.mpr h0
  have hlog : Nat.log 2 z.natAbs < 53 := Nat.log_lt_of_lt_pow hne hz
  obtain ⟨hle,hfit⟩ := BinaryFormat.normalized_bounds (p := 52) (by omega) (Nat.pow_log_le_self 2 hne)
    (Nat.lt_pow_succ_log_self (by decide) z.natAbs)
  have hcast := normalized_cast (n := z.natAbs) (l := Nat.log 2 z.natAbs) (by omega) j
  generalize Nat.log 2 z.natAbs = l at hlog hle hfit hcast
  have hmag := (BinaryFormat.mag_significand (F := binary64) (e := l + j + 1022) hfit (.inr hle)).1
  refine ⟨decide (z < 0),(l + j + 1022) * 2 ^ 52 + z.natAbs * 2 ^ (52 - l),?_,?_⟩
  · change _ < 2047 * 2 ^ 52
    omega
  · have hval : (binary64.mag ((l + j + 1022) * 2 ^ 52 + z.natAbs * 2 ^ (52 - l)) : ℚ) * 2 ^ binary64.emin =
        (z.natAbs : ℚ) * 2 ^ j := by
      rw [← hcast, zpow_add₀ (by norm_num), ← mul_assoc, zpow_natCast]
      congr 1
      exact_mod_cast hmag
    rw [BinaryFormat.toRat, hval, Nat.cast_natAbs, Int.cast_abs, ← mul_assoc]
    congr 1
    rcases lt_or_ge z 0 with hneg | hpos
    · rw [decide_eq_true hneg, if_pos rfl, abs_of_neg (Int.cast_lt_zero.mpr hneg), neg_one_mul, neg_neg]
    · rw [decide_eq_false (not_lt.mpr hpos), if_neg Bool.false_ne_true, abs_of_nonneg (Int.cast_nonneg hpos), one_mul]

theorem IsRounded.exact {z : ℤ} {j : ℕ} {b : Bool} {x : BitVec 64} (hz : z.natAbs < 2 ^ 53) (hj : j ≤ 900)
    (h : IsRounded (z * 2 ^ j) b x) : IsFinite x ∧ rat x = z * 2 ^ j := by
  obtain ⟨s,c,hc,hcode⟩ := exists_double z hz hj
  obtain ⟨hround,-⟩ := h
  rw [← hcode] at hround ⊢
  constructor
  · unfold IsFinite
    rw [hround.abs_of_toRat hc.le]
    exact hc
  · exact hround.toRat_eq hc.le

/-- The double in the fields. -/
theorem rat_of_fields {x : BitVec 64} {e f : ℕ} (he : 0 < e) (he' : e < 2047) (hf : f < 2 ^ 52)
    (hx : x.toNat = e * 2 ^ 52 + f) :
    IsFinite x ∧ sign x = false ∧ rat x = (f + 2 ^ 52) * 2 ^ ((e : ℤ) - 1075) := by
  have habs : binary64.abs x.toNat = e * 2 ^ 52 + f := by
    change x.toNat % 2 ^ 63 = _
    omega
  have hsign : binary64.sign x.toNat = false := by
    change x.toNat.testBit 63 = _
    rw [Nat.testBit_eq_decide_div_mod_eq, decide_eq_false_iff_not]
    omega
  have hmag := BinaryFormat.binary64_fields_emin he hf
  refine ⟨?_,hsign,?_⟩
  · unfold IsFinite
    rw [habs]
    change _ < 2047 * 2 ^ 52
    omega
  · have hexp : (e : ℤ) - 1 + binary64.emin = e - 1075 := by
      rw [emin_eq]
      omega
    rw [hexp] at hmag
    unfold rat sign
    rw [hsign, habs, BinaryFormat.toRat, if_neg Bool.false_ne_true, one_mul]
    exact hmag

/-- The low word, put under the exponent of 2^52. -/
theorem low_eq (a : BitVec 64) : IsFinite (Hard.twop52 ||| (a &&& 0x00000000ffffffff)) ∧
    sign (Hard.twop52 ||| (a &&& 0x00000000ffffffff)) = false ∧
    rat (Hard.twop52 ||| (a &&& 0x00000000ffffffff)) = 2 ^ 52 + (a.toNat % 2 ^ 32 : ℕ) := by
  have hlow : (a &&& 0x00000000ffffffff).toNat = a.toNat % 2 ^ 32 := BitMask.toNat_and_low a (k := 32) (by decide)
  have hbits : (Hard.twop52 ||| (a &&& 0x00000000ffffffff)).toNat = 1075 * 2 ^ 52 + a.toNat % 2 ^ 32 := by
    have h52 : Hard.twop52.toNat = 1075 * 2 ^ 52 := by decide
    rw [BitMask.toNat_or_disjoint (k := 52), h52, hlow]
    · rw [h52]
      exact Nat.dvd_mul_left _ _
    · rw [hlow]
      omega
  obtain ⟨hfin,hsign,hrat⟩ := rat_of_fields (by decide) (by decide) (by omega) hbits
  refine ⟨hfin,hsign,?_⟩
  rw [hrat, add_comm]
  norm_num

/-- The high word, put under the exponent of 2^84. -/
theorem high_eq (a : BitVec 64) : IsFinite (Hard.twop84 ||| a >>> 32) ∧
    rat (Hard.twop84 ||| a >>> 32) = 2 ^ 84 + (a.toNat / 2 ^ 32 : ℕ) * 2 ^ 32 := by
  have hlt := a.isLt
  have hhigh : (a >>> 32).toNat = a.toNat / 2 ^ 32 := by rw [BitVec.toNat_ushiftRight, Nat.shiftRight_eq_div_pow]
  have hbits : (Hard.twop84 ||| a >>> 32).toNat = 1107 * 2 ^ 52 + a.toNat / 2 ^ 32 := by
    have h84 : Hard.twop84.toNat = 1107 * 2 ^ 52 := by decide
    rw [BitMask.toNat_or_disjoint (k := 52), h84, hhigh]
    · rw [h84]
      exact Nat.dvd_mul_left _ _
    · rw [hhigh]
      omega
  obtain ⟨hfin,-,hrat⟩ := rat_of_fields (by decide) (by decide) (by omega) hbits
  refine ⟨hfin,?_⟩
  rw [hrat]
  norm_num
  ring

theorem constants_eq : (IsFinite Hard.twop52 ∧ sign Hard.twop52 = false ∧ rat Hard.twop52 = 2 ^ 52) ∧
    (IsFinite Hard.twop32 ∧ rat Hard.twop32 = 2 ^ 32) ∧
    (IsFinite Hard.twop84_plus_twop52 ∧ rat Hard.twop84_plus_twop52 = 2 ^ 84 + 2 ^ 52) := by
  obtain ⟨hfin,hsign,hrat⟩ := rat_of_fields (x := Hard.twop52) (e := 1075) (f := 0) (by decide) (by decide) (by decide)
    (by decide)
  obtain ⟨hfin',-,hrat'⟩ := rat_of_fields (x := Hard.twop32) (e := 1055) (f := 0) (by decide) (by decide) (by decide)
    (by decide)
  obtain ⟨hfin2,-,hrat2⟩ := rat_of_fields (x := Hard.twop84_plus_twop52) (e := 1107) (f := 2 ^ 20) (by decide)
    (by decide) (by decide) (by decide)
  refine ⟨⟨hfin,hsign,?_⟩,⟨hfin',?_⟩,hfin2,?_⟩
  · rw [hrat]
    norm_num
  · rw [hrat']
    norm_num
  · rw [hrat2]
    norm_num

/-- The last addition rounds the sum of the two words, which is the integer. -/
theorem add_low (hu : u.IsIEEE) {a x : BitVec 64} {z : ℤ} {b : Bool} (hz : z.natAbs < 2 ^ 53)
    (hx : IsRounded (z * 2 ^ 32) b x) {n : ℤ} (hn : n = z * 2 ^ 32 + 2 ^ 52 + (a.toNat % 2 ^ 32 : ℕ)) :
    IsRounded n false (u.add x (Hard.twop52 ||| (a &&& 0x00000000ffffffff))) := by
  obtain ⟨hfin,hsign,hrat⟩ := low_eq a
  obtain ⟨hxfin,hxrat⟩ := hx.exact hz (by decide)
  have hadd := hu.add_rounded x _ hxfin hfin
  rw [hsign, Bool.and_false, hrat, hxrat] at hadd
  have hcast : (n : ℚ) = z * 2 ^ 32 + (2 ^ 52 + (a.toNat % 2 ^ 32 : ℕ)) := by
    rw [hn, ← add_assoc]
    push_cast
    rfl
  rw [hcast]
  exact hadd

theorem hard_floatundidf_rounded (hu : u.IsIEEE) (a : BitVec 64) : IsRounded (a.toNat : ℚ) false (Hard.floatundidf u a) := by
  have hlt := a.isLt
  obtain ⟨hfin,hrat⟩ := high_eq a
  obtain ⟨-,-,hcfin,hcrat⟩ := constants_eq
  have hsub := hu.sub_rounded _ _ hfin hcfin
  have hdiff : ∀ h : ℕ, (2 ^ 84 + h * 2 ^ 32 : ℚ) - (2 ^ 84 + 2 ^ 52) = ((h - 2 ^ 20 : ℤ) : ℚ) * 2 ^ 32 := by
    intro h
    push_cast
    ring
  rw [hrat, hcrat, hdiff] at hsub
  exact add_low hu (n := (a.toNat : ℤ)) (by omega) hsub (by omega)

theorem hard_floatdidf_rounded (hu : u.IsIEEE) (a : BitVec 64) : IsRounded (a.toInt : ℚ) false (Hard.floatdidf u a) := by
  have hlt := a.isLt
  have hint := BitVec.toInt_eq_toNat_cond a
  obtain ⟨⟨hfin,-,hrat⟩,⟨hfin',hrat'⟩,-⟩ := constants_eq
  -- the high word as an integer
  have hhigh : ((a.sshiftRight 32).truncate 32 : BitVec 32).toInt = a.toInt / 2 ^ 32 := by
    have hshift := BitVec.toInt_sshiftRight (x := a) (n := 32)
    have htrunc : ((a.sshiftRight 32).truncate 32 : BitVec 32).toNat = (a.sshiftRight 32).toNat % 2 ^ 32 :=
      BitVec.toNat_setWidth _ _
    have hwide := BitVec.toInt_eq_toNat_cond (a.sshiftRight 32)
    have hnarrow := BitVec.toInt_eq_toNat_cond ((a.sshiftRight 32).truncate 32 : BitVec 32)
    rw [Int.shiftRight_eq_div_pow] at hshift
    omega
  have hmul := hu.mul_rounded _ _ (hu.ofInt32_finite ((a.sshiftRight 32).truncate 32)) hfin'
  rw [hu.ofInt32_exact, hrat', hhigh] at hmul
  obtain ⟨hmfin,hmrat⟩ := hmul.exact (by omega) (by decide)
  have hsub := hu.sub_rounded _ _ hmfin hfin
  have hdiff : ((a.toInt / 2 ^ 32 : ℤ) : ℚ) * 2 ^ 32 - 2 ^ 52 = ((a.toInt / 2 ^ 32 - 2 ^ 20 : ℤ) : ℚ) * 2 ^ 32 := by
    push_cast
    ring
  rw [hmrat, hrat, hdiff] at hsub
  exact add_low hu (by omega) hsub (by omega)

end Hard

/-! ## The versions agree -/

theorem IsRounded.unique {q : ℚ} {b : Bool} {x y : BitVec 64} (hx : IsRounded q b x) (hy : IsRounded q b y) : x = y := by
  have hzero : q = 0 → binary64.sign x.toNat = binary64.sign y.toNat := fun h => (hx.2 h).trans (hy.2 h).symm
  exact BitVec.eq_of_toNat_eq (BinaryFormat.Rounds.eq (F := binary64) x.isLt y.isLt hx.1 hy.1 hzero)

theorem exists_rounded (q : ℚ) (b : Bool) : ∃ x, IsRounded q b x := by
  obtain ⟨a,ha⟩ := binary64.exists_nearest (u := |q| / 2 ^ binary64.emin) (by positivity)
  obtain ⟨s,hs⟩ : ∃ s, s = if q = 0 then b else decide (q < 0) := ⟨_,rfl⟩
  have hlt : a < 2 ^ 63 := by
    have hinf : binary64.inf < 2 ^ 63 := by decide
    exact ha.le_top.trans_lt hinf
  have hnat : (BitVec.ofNat 64 (s.toNat * 2 ^ 63 + a)).toNat = s.toNat * 2 ^ 63 + a := by
    have hbit := s.toNat_lt
    rw [BitVec.toNat_ofNat]
    exact Nat.mod_eq_of_lt (by omega)
  have habs : binary64.abs (BitVec.ofNat 64 (s.toNat * 2 ^ 63 + a)).toNat = a := by
    rw [hnat]
    change (s.toNat * 2 ^ 63 + a) % 2 ^ 63 = a
    omega
  have hsign : binary64.sign (BitVec.ofNat 64 (s.toNat * 2 ^ 63 + a)).toNat = s := by
    rw [hnat]
    change (s.toNat * 2 ^ 63 + a).testBit 63 = s
    rw [Nat.testBit_eq_decide_div_mod_eq]
    cases s
    · rw [decide_eq_false_iff_not, Bool.toNat_false]
      omega
    · rw [decide_eq_true_iff, Bool.toNat_true]
      omega
  refine ⟨BitVec.ofNat 64 (s.toNat * 2 ^ 63 + a),⟨?_,?_⟩,?_⟩
  · rw [habs]
    exact ha
  · intro hq
    rw [hsign, hs, if_neg hq]
  · intro hq
    exact hsign.trans (by rw [hs, if_pos hq])

/-- The double that a number is rounded to. -/
noncomputable def rounded (q : ℚ) (zeroSign : Bool) : BitVec 64 := Classical.choose (exists_rounded q zeroSign)

theorem rounded_spec (q : ℚ) (b : Bool) : IsRounded q b (rounded q b) := Classical.choose_spec (exists_rounded q b)

noncomputable def DoubleUnit.ieee : DoubleUnit where
  ofInt32 i := rounded i.toInt false
  add x y := rounded (rat x + rat y) (sign x && sign y)
  sub x y := rounded (rat x - rat y) (sign x && !sign y)
  mul x y := rounded (rat x * rat y) (sign x ^^ sign y)

theorem DoubleUnit.ieee_isIEEE : DoubleUnit.ieee.IsIEEE := by
  have hint : ∀ i : BitVec 32, IsFinite (rounded i.toInt false) ∧ rat (rounded i.toInt false) = i.toInt := by
    intro i
    have hlt := i.isLt
    have hcond := BitVec.toInt_eq_toNat_cond i
    have hspec := rounded_spec (i.toInt * 2 ^ 0) false
    rw [pow_zero, mul_one] at hspec
    have hexact := IsRounded.exact (z := i.toInt) (j := 0) (b := false) (x := rounded i.toInt false) (by omega) (by decide)
    rw [pow_zero, mul_one] at hexact
    exact hexact hspec
  constructor
  · exact fun i => (hint i).1
  · exact fun i => (hint i).2
  · exact fun x y _ _ => rounded_spec _ _
  · exact fun x y _ _ => rounded_spec _ _
  · exact fun x y _ _ => rounded_spec _ _

end CompilerRt.FloatDi
