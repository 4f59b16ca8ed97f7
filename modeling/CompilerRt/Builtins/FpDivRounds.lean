import CompilerRt.Builtins.FpDivShifts
import CompilerRt.Builtins.FpMulRounds
import CompilerRt.Builtins.FpQuotient
import Mathlib.Data.Nat.Prime.Basic

/-! # Rounding in soft-float division

The quotient is an estimate from below with a residual that is never zero. For a normal result the residual is compared
with the divisor, and that rounds right. For a denormal result it is shifted together with the quotient as if it were a
part of it, and that loses every point halfway between two results which lies over the estimate: an exact tie is always
taken for less than a half.
-/
namespace CompilerRt.FpDiv
open CShift FpLib
open FpMul (Flow sub1U underflowShift underflowShift_eq expo_lt_of_sub1U)

/-! ## The end of the routine -/

section Finish
variable (t : ShiftTarget) {F : Format} {a b sign quotient residual : F.Rep} {s : Bool} {e : ℤ} {loss : ℕ} {q : ℚ}

/-- Quotient and residual under an exponent, for the exact magnitude `q`. -/
structure Under (a b quotient residual : F.Rep) (loss : ℕ) (e : ℤ) (q : ℚ) : Prop where
  divided : Divided F.significandBits a.toNat b.toNat quotient.toNat residual.toNat loss
  divisor_lt : b.toNat < 2 ^ (F.significandBits + 1)
  dividend_pos : 0 < a.toNat
  dividend_lt : a.toNat < 2 ^ (F.significandBits + 1)
  value : q = ((a.toNat * 2 ^ (F.significandBits + loss) : ℕ) : ℚ) / b.toNat * 2 ^ (e - 1 + F.binary.emin)

namespace Under
variable (h : Under a b quotient residual loss e q)

theorem divisor_pos (h : Under a b quotient residual loss e q) : 0 < b.toNat := by
  have hpos := h.divided.pos
  have hsmall := h.divided.small
  omega

/-- A quotient of significands is never halfway between two others. -/
theorem two_mul_residual_ne (h : Under a b quotient residual loss e q) : 2 * residual.toNat ≠ b.toNat := by
  intro heq
  have hle := h.divided.le
  have hlt := h.dividend_lt
  have hvalue : a.toNat * 2 ^ (F.significandBits + loss + 1) = (2 * quotient.toNat + 1) * b.toNat := by
    rw [pow_succ, ← Nat.mul_assoc, h.divided.value, ← heq]
    ring
  have hcoprime : Nat.Coprime (2 * quotient.toNat + 1) (2 ^ (F.significandBits + loss + 1)) := by
    apply Nat.Coprime.pow_right
    exact Nat.coprime_two_right.mpr (odd_two_mul_add_one _)
  have hdvd : 2 * quotient.toNat + 1 ∣ a.toNat := hcoprime.dvd_of_dvd_mul_right ⟨_,hvalue⟩
  have hbig := Nat.le_of_dvd h.dividend_pos hdvd
  rw [pow_succ] at hlt
  omega

theorem finish_overflow (h : Under a b quotient residual loss e q)
    (hsign : sign.toNat = s.toNat * 2 ^ (F.typeWidth - 1))
    (he : (F.k.maxExponent : ℤ) ≤ e) : Finished s q (F.k.infRep ||| sign) := by
  have hb : (0 : ℚ) < b.toNat := Nat.cast_pos.mpr h.divisor_pos
  refine finished_overflow hsign ?_ he h.value
  rw [le_div_iff₀ hb]
  have hvalue := h.divided.value
  have hle : 2 ^ F.significandBits * b.toNat ≤ a.toNat * 2 ^ (F.significandBits + loss) := by
    rw [hvalue]
    exact (Nat.mul_le_mul_right _ h.divided.le).trans (Nat.le_add_right _ _)
  exact_mod_cast hle

/-- For a normal result the residual decides, against the divisor. -/
theorem finish_normal {x : ℤ} (h : Under a b quotient residual loss (x + F.k.exponentBias) q)
    (hsign : sign.toNat = s.toNat * 2 ^ (F.typeWidth - 1)) (he : 1 ≤ x + F.k.exponentBias)
    (he' : ¬(F.k.maxExponent : ℤ) ≤ x + F.k.exponentBias) :
    ∃ r, finish t F F.k sign b quotient residual x = some r ∧ Finished s q r := by
  have hge := F.exponentBits_ge
  have hinf := F.inf_lt
  have hdiv := h.divided
  have hb := h.divisor_lt
  have hpow : ((2 ^ F.exponentBits : ℕ) : ℤ) = 2 ^ F.exponentBits := by norm_cast
  have hunder : ¬x + F.k.exponentBias < 1 := not_lt.mpr he
  have hsmall := hdiv.small
  have hround : (residual <<< 1).toNat = residual.toNat * 2 ^ 1 := by
    have hfit := F.two_pow_lt (n := F.significandBits + 1 + 2) (by omega)
    rw [pow_add] at hfit
    exact BitMask.toNat_shiftLeft_of_lt (by omega)
  have hshl := shl_natCast t residual (n := 1) (by omega)
  unfold finish
  dsimp only
  rw [if_neg he', if_neg hunder, hshl, Option.bind_eq_bind, Option.bind_some]
  rw [maxExponent_eq] at he'
  obtain ⟨y,hy,hfields,hbound⟩ := insertExponent_eq t hdiv.le hdiv.lt he (by omega)
  rw [hy, Option.bind_some]
  have hexp : (((x + F.k.exponentBias).toNat - 1 : ℕ) : ℤ) = x + F.k.exponentBias - 1 := by omega
  have hnear := BinaryFormat.nearest_estimate (F := F.binary) (q := q) h.divisor_pos hdiv.lt (.inr hdiv.le) hbound hdiv.value
    hdiv.small h.two_mul_residual_ne (by rw [hexp]; exact h.value)
  have hsum : ((quotient &&& F.k.significandMask ||| y) + ofBool F.typeWidth (decide (b < residual <<< 1))).toNat =
      ((x + F.k.exponentBias).toNat - 1) * 2 ^ F.significandBits +
        if b.toNat < 2 * residual.toNat then quotient.toNat + 1 else quotient.toNat := by
    have hone : (1 : F.Rep).toNat = 1 := Nat.mod_eq_of_lt (Nat.one_lt_two_pow F.width_pos.ne')
    have hless : b < residual <<< 1 ↔ b.toNat < 2 * residual.toNat := by
      rw [BitVec.lt_def, hround]
      omega
    have htwo := F.two_pow_width
    by_cases hup : b.toNat < 2 * residual.toNat
    · rw [decide_eq_true (hless.mpr hup), if_pos hup]
      change (_ + (1 : F.Rep)).toNat = _
      rw [BitVec.toNat_add, hfields, hone, Nat.mod_eq_of_lt (by omega), Nat.add_assoc]
    · rw [decide_eq_false (hless.not.mpr hup), if_neg hup]
      change (_ + 0#F.typeWidth).toNat = _
      rw [BitVec.add_zero, hfields]
  refine ⟨_,rfl,.of_toNat ?_ hnear⟩
  rw [Format.toNat_or_sign hsign, hsum]
  · rfl
  · rw [hsum]
    exact hnear.le_top.trans_lt hinf

/-- For a denormal result it is shifted as if it were the rest of the quotient. -/
theorem finish_denormal {x : ℤ} (h : Under a b quotient residual loss (x + F.k.exponentBias) q)
    (hsign : sign.toNat = s.toNat * 2 ^ (F.typeWidth - 1)) (he : x + F.k.exponentBias ≤ 0)
    (he' : -2 ^ 31 ≤ x + F.k.exponentBias) :
    ∃ r c, finish t F F.k sign b quotient residual x = some r ∧ c < 2 ^ (F.typeWidth - 1) ∧
      c = roundDiv (wide quotient residual) (2 ^ ((1 - (x + F.k.exponentBias)).toNat + F.typeWidth)) ∧
      r.toNat = s.toNat * 2 ^ (F.typeWidth - 1) + c := by
  have hge := F.exponentBits_ge
  have hcount := underflowShift_eq he he'
  have hnat : underflowShift (x + F.k.exponentBias) = (1 - (x + F.k.exponentBias)).toNat := by omega
  have hmax : ¬(F.k.maxExponent : ℤ) ≤ x + F.k.exponentBias := by
    have h4 := F.four_le_exponents
    have hpow : ((2 ^ F.exponentBits : ℕ) : ℤ) = 2 ^ F.exponentBits := by norm_cast
    rw [maxExponent_eq]
    omega
  have hsmall : quotient.toNat < 2 ^ (F.typeWidth - 2) :=
    h.divided.lt.trans_le (Nat.pow_le_pow_right (by decide) (by omega))
  unfold finish
  dsimp only
  rw [if_neg hmax, if_pos (by omega), ← hnat]
  by_cases hfar : F.typeWidth ≤ underflowShift (x + F.k.exponentBias)
  · rw [if_pos hfar]
    exact ⟨_,0,rfl,Nat.two_pow_pos _,(roundDiv_wide_far hfar hsmall).symm,by rw [hsign, Nat.add_zero]⟩
  · rw [if_neg hfar]
    have hcount0 : 0 < underflowShift (x + F.k.exponentBias) := by omega
    obtain ⟨hi,lo,hshift,hhi,hround⟩ := wideRightShift_rounds (t := t) residual hcount0 hsmall
      fun hcount => absurd hcount.ge hfar
    rw [hshift, Option.bind_eq_bind, Option.bind_some, ← hround]
    have htwo : 2 ^ (F.typeWidth - 1) = 2 ^ (F.typeWidth - 2) * 2 := by rw [← pow_succ]; congr 1; omega
    have hpos := Nat.two_pow_pos (F.typeWidth - 2)
    have hbounds := roundDiv_bounds (wide hi lo) (2 ^ F.typeWidth)
    rw [wide_div] at hbounds
    have hzero : (0#F.typeWidth).toNat = false.toNat * 2 ^ (F.typeWidth - 1) := by
      rw [Bool.toNat_false, Nat.zero_mul]
      rfl
    have hhi' : hi.toNat + 1 < 2 ^ (F.typeWidth - 1) := by omega
    have hvalue : (FpMul.round F F.k 0#F.typeWidth hi lo).toNat = _ := FpMul.round_eq hzero hhi'
    rw [FpMul.round, BitVec.or_zero, Bool.toNat_false, Nat.zero_mul, Nat.zero_add] at hvalue
    refine ⟨_,_,rfl,?_,rfl,?_⟩
    · omega
    · rw [Format.toNat_or_sign hsign (by rw [hvalue]; omega), hvalue]

end Under

end Finish

/-! ## Ties -/

section Ties
variable {F : Format} {a b quotient residual : F.Rep} {e : ℤ} {loss n : ℕ} {q : ℚ} {r : ℕ → ℕ}

/-- The digits of a magnitude from its first one on. -/
def significandOf (x : F.Rep) : ℕ := mag F x * 2 ^ F.significandBits / 2 ^ Nat.log 2 (mag F x)

/-- The part of a quotient by `b` that is left where the reciprocal `r`, with `n` further digits, stands for that of the
divisor. -/
def keptPart (n : ℕ) (r : ℕ → ℕ) (b : F.Rep) : ℚ :=
  ((r (significandOf b) * significandOf b : ℕ) : ℚ) / 2 ^ (n + F.significandBits + 1)

/-- The point halfway between `m` and `m + 1` smallest denormal numbers. -/
def halfway (F : Format) (m : ℕ) : ℚ := (2 * m + 1) * 2 ^ (F.binary.emin - 1)

/-- Only a tie that goes down has its halfway point over what is left of the quotient. -/
def KeepsTies (n : ℕ) (r : ℕ → ℕ) (a b : F.Rep) : Prop :=
  ∀ m, |F.rat a / F.rat b| * keptPart n r b < halfway F m → halfway F m ≤ |F.rat a / F.rat b| →
    |F.rat a / F.rat b| = halfway F m ∧ Even m

theorem significandOf_eq {s : F.Rep} (hb : Operand F b e s) : significandOf b = s.toNat := by
  have hle := hb.le_exponent
  have hlo := hb.le_significand
  have hhi := hb.significand_lt
  have hvalue := hb.value
  have hpos := Nat.two_pow_pos F.significandBits
  obtain ⟨k,hk⟩ : ∃ k, k = (e + F.significandBits - 1).toNat := ⟨_,rfl⟩
  rw [← hk] at hvalue
  have hmag : mag F b ≠ 0 := by
    intro h0
    rw [h0, Nat.zero_mul] at hvalue
    have hprod := Nat.mul_pos (show 0 < s.toNat by omega) (Nat.two_pow_pos k)
    omega
  have hlog : Nat.log 2 (mag F b) = k := by
    have h1 := FpMul.log_mul_two_pow hmag F.significandBits
    have h2 := FpMul.log_mul_two_pow (n := s.toNat) (by omega) k
    have h3 : Nat.log 2 s.toNat = F.significandBits := by
      rw [Nat.log_eq_iff (.inr ⟨by decide,by omega⟩)]
      exact ⟨hlo,hhi⟩
    rw [hvalue] at h2
    omega
  rw [significandOf, hlog, ← hvalue, Nat.mul_div_cancel _ (Nat.two_pow_pos k)]

/-- A tie that goes up is never kept. -/
theorem not_keepsTies_of_tie {m : ℕ} (h : |F.rat a / F.rat b| = halfway F m) (hlt : keptPart n r b < 1) (hodd : ¬Even m) :
    ¬KeepsTies n r a b := by
  intro hties
  have hpos : 0 < halfway F m := by
    unfold halfway
    positivity
  rw [KeepsTies, h] at hties
  exact hodd (hties m (mul_lt_of_lt_one_right hpos hlt) le_rfl).2

/-- The same with the significands, for a result below the normal numbers. -/
theorem keepsTies_iff {eb : ℤ} {sa sb : F.Rep} (hb : Operand F b eb sb) (hq : |F.rat a / F.rat b| = q)
    (h : Under sa sb quotient residual loss e q) (he : e ≤ 0)
    (hest : quotient.toNat = sa.toNat * r sb.toNat / 2 ^ (n + 1 - loss)) (hn : loss ≤ n) :
    KeepsTies n r a b ↔ ∀ m, quotient.toNat < (2 * m + 1) * 2 ^ (-e).toNat →
      (2 * m + 1) * 2 ^ (-e).toNat * sb.toNat ≤ sa.toNat * 2 ^ (F.significandBits + loss) →
      sa.toNat * 2 ^ (F.significandBits + loss) = (2 * m + 1) * 2 ^ (-e).toNat * sb.toNat ∧ Even m := by
  have hb0 : (0 : ℚ) < sb.toNat := Nat.cast_pos.mpr h.divisor_pos
  have hloss := h.divided.loss_le
  obtain ⟨c,hc⟩ : ∃ c : ℕ, (c : ℤ) = -e := ⟨(-e).toNat,by omega⟩
  have hcount : (-e).toNat = c := by omega
  have hunit : (0 : ℚ) < 2 ^ (e - 1 + F.binary.emin) := by positivity
  have hpoint : ∀ m : ℕ, halfway F m = ((2 * m + 1) * 2 ^ c : ℕ) * 2 ^ (e - 1 + F.binary.emin) := by
    intro m
    have hexp : F.binary.emin - 1 = c + (e - 1 + F.binary.emin) := by omega
    rw [halfway, hexp, zpow_add₀ (by norm_num) (c : ℤ), zpow_natCast]
    push_cast
    ring
  have hle : ∀ m, halfway F m ≤ q ↔ (2 * m + 1) * 2 ^ c * sb.toNat ≤ sa.toNat * 2 ^ (F.significandBits + loss) := by
    intro m
    rw [hpoint, h.value, mul_le_mul_iff_of_pos_right hunit, le_div_iff₀ hb0, ← Nat.cast_mul, Nat.cast_le]
  have heq : ∀ m, q = halfway F m ↔ sa.toNat * 2 ^ (F.significandBits + loss) = (2 * m + 1) * 2 ^ c * sb.toNat := by
    intro m
    rw [hpoint, h.value, mul_left_inj' hunit.ne', div_eq_iff hb0.ne', ← Nat.cast_mul, Nat.cast_inj]
  have hkept : q * keptPart n r b = (sa.toNat * r sb.toNat : ℕ) / 2 ^ (n + 1 - loss) * 2 ^ (e - 1 + F.binary.emin) := by
    have hpow : (2 : ℚ) ^ (n + F.significandBits + 1) = 2 ^ (F.significandBits + loss) * 2 ^ (n + 1 - loss) := by
      rw [← pow_add]
      congr 1
      omega
    rw [keptPart, significandOf_eq hb, h.value, hpow]
    push_cast
    field_simp
  have hlt : ∀ m, q * keptPart n r b < halfway F m ↔ quotient.toNat < (2 * m + 1) * 2 ^ c := by
    intro m
    have hden : (0 : ℚ) < 2 ^ (n + 1 - loss) := by positivity
    rw [hkept, hpoint, mul_lt_mul_iff_of_pos_right hunit, div_lt_iff₀ hden, hest,
      Nat.div_lt_iff_lt_mul (Nat.two_pow_pos _)]
    exact_mod_cast Iff.rfl
  rw [KeepsTies, hq, hcount]
  simp only [hlt, hle, heq]

/-- The exact quotient, rounded among the denormal numbers. -/
theorem Under.nearest_denormal (h : Under a b quotient residual loss e q) (he : e ≤ 0) :
    F.binary.Nearest (q / 2 ^ F.binary.emin)
      (roundDiv (a.toNat * 2 ^ (F.significandBits + loss)) (2 * 2 ^ (-e).toNat * b.toNat)) := by
  have h4 := F.four_le_exponents
  have hb := h.divisor_pos
  have hvalue := h.divided.value
  have hsmall := h.divided.small
  have hlt := h.divided.lt
  obtain ⟨c,hc⟩ : ∃ c : ℕ, (c : ℤ) = -e := ⟨(-e).toNat,by omega⟩
  have hcount : (-e).toNat = c := by omega
  have hdigits : a.toNat * 2 ^ (F.significandBits + loss) / (2 * 2 ^ c * b.toNat) ≤ 2 ^ F.significandBits := by
    have hscale : 2 * 2 ^ c * b.toNat = b.toNat * (2 * 2 ^ c) := Nat.mul_comm _ _
    have hquot : a.toNat * 2 ^ (F.significandBits + loss) / b.toNat < 2 ^ (F.significandBits + 1) + 1 := by
      rw [Nat.div_lt_iff_lt_mul hb, hvalue]
      have hmul := Nat.mul_le_mul_right b.toNat (Nat.succ_le_of_lt hlt)
      rw [Nat.succ_mul] at hmul
      rw [Nat.add_mul]
      omega
    have hhalf : 2 * 1 ≤ 2 * 2 ^ c := Nat.mul_le_mul_left _ (Nat.two_pow_pos c)
    rw [hscale, ← Nat.div_div_eq_div_mul]
    refine (Nat.div_le_div_left hhalf (by decide)).trans ?_
    rw [pow_succ] at hquot
    omega
  have hexp : (q : ℚ) = ((a.toNat * 2 ^ (F.significandBits + loss) : ℕ) : ℚ) / (2 * 2 ^ c * b.toNat : ℕ) *
      2 ^ (((0 : ℕ) : ℤ) + F.binary.emin) := by
    have hsplit : ((0 : ℕ) : ℤ) + F.binary.emin = (c + 1 : ℕ) + (e - 1 + F.binary.emin) := by omega
    have hb0 : (b.toNat : ℚ) ≠ 0 := Nat.cast_ne_zero.mpr hb.ne'
    rw [h.value, hsplit, zpow_add₀ (by norm_num) ((c + 1 : ℕ) : ℤ), zpow_natCast, pow_succ]
    push_cast
    field_simp
  have hpos := Nat.two_pow_pos F.significandBits
  have hbound : 2 * 2 ^ F.significandBits ≤ (2 ^ F.exponentBits - 1) * 2 ^ F.significandBits :=
    Nat.mul_le_mul_right _ (by omega)
  rw [← Format.inf_eq] at hbound
  rw [hcount]
  have hnear := BinaryFormat.nearest_roundDiv (F := F.binary) (e := 0) F.significandBits_pos
    (Nat.mul_pos (Nat.mul_pos Nat.two_pos (Nat.two_pow_pos c)) hb)
    (hdigits.trans_lt (Nat.pow_lt_pow_right (by decide) (Nat.lt_succ_self _)))
    (.inl rfl) (by omega) hexp
  rw [Nat.zero_mul, Nat.zero_add] at hnear
  exact hnear

end Ties

/-! ## The quotient -/

section Quotient
variable {t : ShiftTarget} {F : Format} {a b x : F.Rep} {e : ℤ} {n : ℕ} {r : ℕ → ℕ}
variable {core : Macros F.typeWidth → F.Rep → F.Rep → Option (F.Rep × F.Rep × ℤ)}

/-- What IEEE 754 says of the quotient, where the result is normal or not finite. -/
structure IsQuotient (written : Option ℤ) (a b x : F.Rep) : Prop where
  nan_left : F.IsNaN a → F.IsQuieted a x
  nan_right : ¬F.IsNaN a → F.IsNaN b → F.IsQuieted b x
  invalid : F.IsInf a ∧ F.IsInf b ∨ F.abs a = 0 ∧ F.abs b = 0 → F.IsQuietNaN x
  infinite : F.IsInf a ∧ F.IsFinite b ∨ F.IsFinite a ∧ F.abs a ≠ 0 ∧ F.abs b = 0 →
    F.IsInf x ∧ F.sign x = (F.sign a ^^ F.sign b)
  zero : F.IsFinite a ∧ F.IsInf b ∨ F.abs a = 0 ∧ F.IsFinite b ∧ F.abs b ≠ 0 →
    F.abs x = 0 ∧ F.sign x = (F.sign a ^^ F.sign b)
  finite : F.IsFinite a → F.abs a ≠ 0 → F.IsFinite b → F.abs b ≠ 0 → ∃ e, written = some e ∧
    (1 ≤ e → F.IsRounded (F.rat a / F.rat b) (F.sign a ^^ F.sign b) x)

/-- An early return is right. -/
theorem special_isQuotient (h : special F F.k a b = some x) : IsQuotient none a b x := by
  have hsign := FpMul.productSign_eq a b
  obtain ⟨hsinf,hinfinite⟩ := Format.infRep_fields hsign
  obtain ⟨hszero,hzero⟩ := Format.fields_of_toNat (c := 0) (Nat.two_pow_pos _) (by rw [hsign, Nat.add_zero])
  simp only [special, Format.infRep_lt_iff, Format.eq_infRep_iff, Format.abs_eq_zero_iff] at h
  split_ifs at h with hna hnb hia hib hib ha0 hb0 hb0 <;> obtain rfl := Option.some.inj h
  · -- a is not a number
    have hq := Format.isQuietNaN_or_quietBit hna
    obtain ⟨hia,ha0,hfa⟩ := hna.others
    exact ⟨fun _ => ⟨hq,rfl⟩,fun h => absurd hna h,fun _ => hq,by tauto,by tauto,fun h => absurd h hfa⟩
  · -- b is not a number
    have hq := Format.isQuietNaN_or_quietBit hnb
    obtain ⟨hib,hb0,hfb⟩ := hnb.others
    exact ⟨fun h => absurd h hna,fun _ _ => ⟨hq,rfl⟩,fun _ => hq,by tauto,by tauto,fun _ _ h => absurd h hfb⟩
  · -- infinity over infinity
    obtain ⟨-,ha0,hfa⟩ := hia.others
    obtain ⟨-,hb0,hfb⟩ := hib.others
    exact ⟨fun h => absurd h hna,fun _ h => absurd h hnb,fun _ => Format.isQuietNaN_qnanRep,by tauto,by tauto,
      fun h => absurd h hfa⟩
  · -- infinity over a finite number
    obtain ⟨-,ha0,hfa⟩ := hia.others
    have hrep : a &&& F.k.absMask = F.k.infRep := Format.eq_infRep_iff.mpr hia
    rw [hrep]
    exact ⟨fun h => absurd h hna,fun _ h => absurd h hnb,by tauto,fun _ => ⟨hinfinite,hsinf⟩,by tauto,fun h => absurd h hfa⟩
  · -- a finite number over infinity
    obtain ⟨-,hb0,hfb⟩ := hib.others
    exact ⟨fun h => absurd h hna,fun _ h => absurd h hnb,by tauto,by tauto,fun _ => ⟨hzero,hszero⟩,fun _ _ h => absurd h hfb⟩
  · -- zero over zero
    exact ⟨fun h => absurd h hna,fun _ h => absurd h hnb,fun _ => Format.isQuietNaN_qnanRep,by tauto,by tauto,
      fun _ h => absurd ha0 h⟩
  · exact ⟨fun h => absurd h hna,fun _ h => absurd h hnb,by tauto,by tauto,fun _ => ⟨hzero,hszero⟩,fun _ h => absurd ha0 h⟩
  · exact ⟨fun h => absurd h hna,fun _ h => absurd h hnb,by tauto,fun _ => ⟨hinfinite,hsinf⟩,by tauto,
      fun _ _ _ h => absurd hb0 h⟩

theorem special_finite (h : special F F.k a b = none) : (F.IsFinite a ∧ F.abs a ≠ 0) ∧ F.IsFinite b ∧ F.abs b ≠ 0 := by
  simp only [special, Format.infRep_lt_iff, Format.eq_infRep_iff, Format.abs_eq_zero_iff] at h
  split_ifs at h with hna hnb hia hib hib ha0 hb0 hb0
  exact ⟨⟨Format.isFinite_iff.mpr ⟨hna,hia⟩,ha0⟩,Format.isFinite_iff.mpr ⟨hnb,hib⟩,hb0⟩

/-- What goes on to the division is finite and not zero. -/
theorem operands_finite {y : F.Rep × F.Rep × ℤ} (h : operands t F F.k a b = some (.next y)) :
    (F.IsFinite a ∧ F.abs a ≠ 0) ∧ F.IsFinite b ∧ F.abs b ≠ 0 := by
  rw [operands, exponentField_eq, exponentField_eq, Option.bind_eq_bind, Option.bind_some, Option.bind_eq_bind,
    Option.bind_some] at h
  split_ifs at h with htest
  · cases hs : special F F.k a b with
    | some r =>
      rw [hs] at h
      cases h
    | none => exact special_finite hs
  · rw [not_or] at htest
    exact ⟨expo_lt_of_sub1U a htest.1,expo_lt_of_sub1U b htest.2⟩

theorem abs_div_of_operands {ea eb : ℤ} {sa sb : F.Rep} (ha : Operand F a ea sa) (hb : Operand F b eb sb) (loss : ℕ) :
    |F.rat a / F.rat b| = ((sa.toNat * 2 ^ (F.significandBits + loss) : ℕ) : ℚ) / sb.toNat *
      2 ^ (ea - eb - loss + F.k.exponentBias - 1 + F.binary.emin) := by
  have hlo := hb.le_significand
  have hpos := Nat.two_pow_pos F.significandBits
  have hsb : (sb.toNat : ℚ) ≠ 0 := Nat.cast_ne_zero.mpr (by omega)
  have hexp : ea - 1 + F.binary.emin = (F.significandBits + loss : ℕ) +
      (ea - eb - loss + F.k.exponentBias - 1 + F.binary.emin) + (eb - 1 + F.binary.emin) := by
    have hmin := F.emin_eq
    rw [hmin]
    push_cast
    ring
  have hunit : (2 : ℚ) ^ (eb - 1 + F.binary.emin) ≠ 0 := by positivity
  rw [abs_div, Format.abs_rat_of_operand ha, Format.abs_rat_of_operand hb, hexp, zpow_add₀ (by norm_num),
    zpow_add₀ (by norm_num) ((F.significandBits + loss : ℕ) : ℤ), zpow_natCast]
  push_cast
  field_simp

theorem div_done (he : operands t F F.k a b = some (.done x)) :
    div t F core a b = some x ∧ writtenExponent t F core a b = none := by
  constructor
  · rw [div, macros_eq, Option.bind_eq_bind, Option.bind_some, he]
    rfl
  · rw [writtenExponent, macros_eq, Option.bind_eq_bind, Option.bind_some, he]
    rfl

theorem div_next {sa sb q residual : F.Rep} {loss : ℤ} (he : operands t F F.k a b = some (.next (sa, sb, e)))
    (hq : core F.k sa sb = some (q, residual, loss)) :
    div t F core a b = finish t F F.k ((a ^^^ b) &&& F.k.signBit) sb q residual (e - loss) ∧
      writtenExponent t F core a b = some (e - loss + F.k.exponentBias) := by
  constructor
  · rw [div, macros_eq, Option.bind_eq_bind, Option.bind_some, he, Option.bind_eq_bind, Option.bind_some]
    dsimp only
    rw [hq, Option.bind_eq_bind, Option.bind_some]
  · rw [writtenExponent, macros_eq, Option.bind_eq_bind, Option.bind_some, he, Option.bind_eq_bind, Option.bind_some]
    dsimp only
    rw [hq, Option.bind_eq_bind, Option.bind_some]
    rfl

/-- Either a special value is returned, or quotient and residual stand for the exact quotient. -/
theorem div_cases (hcore : CoreRight F n r core) (a b : F.Rep) :
    (∃ x, special F F.k a b = some x ∧ div t F core a b = some x ∧ writtenExponent t F core a b = none) ∨
    ∃ (sa sb quotient residual : F.Rep) (loss : ℕ) (eb x : ℤ),
      ((F.IsFinite a ∧ F.abs a ≠ 0) ∧ F.IsFinite b ∧ F.abs b ≠ 0) ∧ Operand F b eb sb ∧
      Under sa sb quotient residual loss (x + F.k.exponentBias) |F.rat a / F.rat b| ∧
      quotient.toNat = sa.toNat * r sb.toNat / 2 ^ (n + 1 - loss) ∧ -2 ^ 31 ≤ x + F.k.exponentBias ∧
      writtenExponent t F core a b = some (x + F.k.exponentBias) ∧
      div t F core a b = finish t F F.k ((a ^^^ b) &&& F.k.signBit) sb quotient residual x := by
  rcases operands_cases F t a b with ⟨x,hx,he⟩ | ⟨ea,eb,sa,sb,e,ha,hb,rfl,he⟩
  · exact .inl ⟨x,hx,div_done he⟩
  · obtain ⟨q,residual,loss,hq,hdiv,hest⟩ :=
      hcore sa sb ha.le_significand ha.significand_lt hb.le_significand hb.significand_lt
    have hfin := operands_finite he
    obtain ⟨hresult,hwritten⟩ := div_next he hq
    refine .inr ⟨sa,sb,q,residual,loss,eb,ea - eb - loss,hfin,hb,?_,hest,?_,hwritten,hresult⟩
    · have hpos := Nat.two_pow_pos F.significandBits
      exact ⟨hdiv,hb.significand_lt,hpos.trans_le ha.le_significand,ha.significand_lt,abs_div_of_operands ha hb loss⟩
    · have hea := ha.le_exponent
      have heb := hb.exponent_lt
      have hloss := hdiv.loss_le
      have hexp : (2 : ℤ)^F.exponentBits ≤ 2^30 := by exact_mod_cast F.two_pow_exponentBits_le
      have h1 := F.exponentBits_ge
      have h2 := F.typeWidth_le
      omega

theorem isRounded_of_finished (ha : F.abs a ≠ 0) (hb : F.abs b ≠ 0)
    (h : Finished (F.sign a ^^ F.sign b) |F.rat a / F.rat b| x) :
    F.IsRounded (F.rat a / F.rat b) (F.sign a ^^ F.sign b) x := by
  have ha0 := Nat.pos_of_ne_zero ha
  have hb0 := Nat.pos_of_ne_zero hb
  have hne : F.rat a / F.rat b ≠ 0 := div_ne_zero (Format.rat_ne_zero ha0) (Format.rat_ne_zero hb0)
  refine ⟨⟨h.nearest,fun _ => h.sign.trans ?_⟩,fun h0 => absurd h0 hne⟩
  rw [← Format.decide_mul_neg ha0 hb0, decide_eq_decide, mul_neg_iff, div_neg_iff]

theorem div_isQuotient (hcore : CoreRight F n r core) (a b : F.Rep) :
    ∃ x, div t F core a b = some x ∧ IsQuotient (writtenExponent t F core a b) a b x := by
  rcases div_cases (t := t) hcore a b with
    ⟨x,hx,hdiv,hwritten⟩ | ⟨sa,sb,q,residual,loss,eb,e,hfin,hb,hunder,hest,he,hwritten,hdiv⟩
  · rw [hwritten]
    exact ⟨x,hdiv,special_isQuotient hx⟩
  · obtain ⟨⟨hfa,ha0⟩,hfb,hb0⟩ := hfin
    have hsign := FpMul.productSign_eq a b
    have hfinish : ∃ x, finish t F F.k ((a ^^^ b) &&& F.k.signBit) sb q residual e = some x ∧
        (1 ≤ e + F.k.exponentBias → F.IsRounded (F.rat a / F.rat b) (F.sign a ^^ F.sign b) x) := by
      by_cases hover : (F.k.maxExponent : ℤ) ≤ e + F.k.exponentBias
      · refine ⟨F.k.infRep ||| ((a ^^^ b) &&& F.k.signBit),if_pos hover,fun _ => ?_⟩
        exact isRounded_of_finished ha0 hb0 (hunder.finish_overflow hsign hover)
      by_cases hnormal : 1 ≤ e + F.k.exponentBias
      · obtain ⟨x,hx,h⟩ := hunder.finish_normal t hsign hnormal hover
        exact ⟨x,hx,fun _ => isRounded_of_finished ha0 hb0 h⟩
      · obtain ⟨x,c,hx,-⟩ := hunder.finish_denormal t hsign (by omega) he
        exact ⟨x,hx,fun h => absurd h hnormal⟩
    obtain ⟨x,hx,h⟩ := hfinish
    obtain ⟨hna,hia⟩ := hfa.others
    obtain ⟨hnb,hib⟩ := hfb.others
    rw [hdiv, hwritten]
    exact ⟨x,hx,fun h => absurd h hna,fun _ h => absurd h hnb,by tauto,by tauto,by tauto,fun _ _ _ _ => ⟨_,rfl,h⟩⟩

/-- Below the normal numbers it is right exactly where no tie is lost. -/
theorem div_underflow_iff (hcore : CoreRight F n r core) (hn : 1 ≤ n)
    (hwritten : writtenExponent t F core a b = some e)
    (he : e < 1) : ∃ x, div t F core a b = some x ∧
      (F.IsRounded (F.rat a / F.rat b) (F.sign a ^^ F.sign b) x ↔ KeepsTies n r a b) := by
  rcases div_cases (t := t) hcore a b with
    ⟨x,-,-,hnone⟩ | ⟨sa,sb,q,residual,loss,eb,y,hfin,hb,hunder,hest,hlow,hsome,hdiv⟩
  · rw [hnone] at hwritten
    cases hwritten
  obtain rfl : y + F.k.exponentBias = e := Option.some.inj (hsome.symm.trans hwritten)
  obtain ⟨⟨hfa,ha0⟩,hfb,hb0⟩ := hfin
  have hsign := FpMul.productSign_eq a b
  obtain ⟨x,c,hx,hc,hcode,hval⟩ := hunder.finish_denormal t hsign (by omega) hlow
  obtain ⟨hxs,hxa⟩ := Format.fields_of_toNat hc hval
  have hnear := hunder.nearest_denormal (by omega)
  -- the code and the exact result are two roundings of quotients
  have hscale : 2 ^ ((1 - (y + F.k.exponentBias)).toNat + F.typeWidth) =
      2 * 2 ^ (-(y + F.k.exponentBias)).toNat * 2 ^ F.typeWidth := by
    rw [pow_add, ← pow_succ']
    congr 2
    omega
  have hdivided := hunder.divided
  have hiff := roundDiv_estimate_eq_iff (b := 2 ^ F.typeWidth)
    (Nat.two_pow_pos (-(y + F.k.exponentBias)).toNat) hdivided.value hdivided.pos residual.isLt hdivided.small
  refine ⟨x,hdiv.trans hx,?_⟩
  rw [keepsTies_iff hb rfl hunder (by omega) hest (hdivided.loss_le.trans hn), ← hiff]
  rw [wide, hscale] at hcode
  rw [← hcode]
  constructor
  · intro h
    have hcnear := h.1.nearest
    change F.binary.Nearest _ (F.abs x) at hcnear
    rw [hxa] at hcnear
    exact hcnear.unique hnear
  · intro h
    rw [← h, ← hxa] at hnear
    exact isRounded_of_finished ha0 hb0 ⟨hxs,hnear⟩

end Quotient

/-- Quotients are rounded right where the written exponent is that of a normal number, or overflows. -/
theorem div_rounds (t : ShiftTarget) (c : Double.RepClz) :
    (∀ a b, ∃ x, divsf3 t a b = some x ∧
      IsQuotient (F := single) (writtenExponent t single (divsf3Core t) a b) a b x) ∧
    ∀ a b, ∃ x, divdf3 t c a b = some x ∧
      IsQuotient (F := double c) (writtenExponent t (double c) (divdf3Core t) a b) a b x := by
  constructor
  · intro a b
    exact div_isQuotient (divsf3Core_right t) a b
  · intro a b
    exact div_isQuotient (divdf3Core_right t c) a b

/-- Below the normal numbers the residual does not tell a quotient from the estimate under it, so that ties are lost. -/
theorem underflow_rounds_iff (t : ShiftTarget) (c : Double.RepClz) :
    (∀ a b e, writtenExponent t single (divsf3Core t) a b = some e → e < 1 → ∃ x, divsf3 t a b = some x ∧
      (single.IsRounded (single.rat a / single.rat b) (single.sign a ^^ single.sign b) x ↔
        KeepsTies (F := single) 31 singleReciprocal a b)) ∧
    ∀ a b e, writtenExponent t (double c) (divdf3Core t) a b = some e → e < 1 → ∃ x, divdf3 t c a b = some x ∧
      ((double c).IsRounded ((double c).rat a / (double c).rat b) ((double c).sign a ^^ (double c).sign b) x ↔
        KeepsTies (F := double c) 62 doubleReciprocal a b) := by
  constructor
  · intro a b e hwritten he
    exact div_underflow_iff (divsf3Core_right t) (by decide) hwritten he
  · intro a b e hwritten he
    exact div_underflow_iff (divdf3Core_right t c) (by decide) hwritten he

theorem underflow_rounds_iff_five :
    (∃ x, divsf3 .strict 5 0x40000000 = some x ∧
      (single.IsRounded (single.rat 5 / single.rat 0x40000000) (single.sign 5 ^^ single.sign 0x40000000) x ↔
        KeepsTies (F := single) 31 singleReciprocal 5 0x40000000)) ∧
    ∃ x, divdf3 .strict .lp64 5 0x4000000000000000 = some x ∧
      ((double .lp64).IsRounded ((double .lp64).rat 5 / (double .lp64).rat 0x4000000000000000)
        ((double .lp64).sign 5 ^^ (double .lp64).sign 0x4000000000000000) x ↔
        KeepsTies (F := double .lp64) 62 doubleReciprocal 5 0x4000000000000000) := by
  constructor
  · exact (underflow_rounds_iff .strict .lp64).1 5 0x40000000 (-21) (by decide +kernel) (by decide)
  · exact (underflow_rounds_iff .strict .lp64).2 5 0x4000000000000000 (-50) (by decide +kernel) (by decide)

/-- Half of the third denormal number is a tie that goes up. -/
theorem quotient_halfway : |single.rat 3 / single.rat 0x40000000| = halfway single 1 := by
  have hemin : single.binary.emin = -149 := by decide
  have hthree : single.rat 3 = 3 * 2 ^ (-149 : ℤ) := by
    have hmag : single.binary.mag (single.abs 3) = 3 := by decide
    have hsign : single.sign 3 = false := by decide
    rw [Format.rat, BinaryFormat.toRat, hmag, hsign, hemin]
    norm_num
  have htwo : single.rat 0x40000000 = 2 := by
    have hmag : single.binary.mag (single.abs 0x40000000) = 2 ^ 150 := by decide
    have hsign : single.sign 0x40000000 = false := by decide
    rw [Format.rat, BinaryFormat.toRat, hmag, hsign, hemin]
    norm_num
  rw [hthree, htwo, halfway, hemin]
  norm_num [abs_of_pos]

theorem keptPart_two : keptPart (F := single) 31 singleReciprocal 0x40000000 < 1 := by
  have hsig : significandOf (F := single) 0x40000000 = 2 ^ 23 := by decide +kernel
  have hr : singleReciprocal (2 ^ 23) * 2 ^ 23 < 2 ^ (31 + 23 + 1) := by decide +kernel
  rw [keptPart, hsig, div_lt_one (by positivity)]
  exact_mod_cast hr

theorem not_underflow_rounds : writtenExponent .strict single (divsf3Core .strict) 3 0x40000000 = some (-22) ∧
    ¬∃ x, divsf3 .strict 3 0x40000000 = some x ∧
      single.IsRounded (single.rat 3 / single.rat 0x40000000) (single.sign 3 ^^ single.sign 0x40000000) x := by
  have hwritten : writtenExponent .strict single (divsf3Core .strict) 3 0x40000000 = some (-22) := by
    decide +kernel
  constructor
  · exact hwritten
  intro h
  obtain ⟨x,hx,hrounded⟩ := h
  obtain ⟨y,hy,hiff⟩ := div_underflow_iff (divsf3Core_right .strict) (by decide) hwritten (by decide)
  obtain rfl : x = y := Option.some.inj (hx.symm.trans hy)
  exact not_keepsTies_of_tie quotient_halfway keptPart_two (by decide) (hiff.mp hrounded)

end CompilerRt.FpDiv
