import CompilerRt.Builtins.FpMulShifts
import CompilerRt.Builtins.FpRounds

/-! # Soft-float multiplication rounds once

The product of the significands is exact in two words. Everything after it drops digits of these words, once, by a
sticky shift and a rounding.
-/
namespace CompilerRt.FpMul
open CShift FpLib

section Product
variable (t : ShiftTarget) {F : Format}

/-- The exact product, with its first digit in place. -/
theorem product_wide {a b : F.Rep} (ha : 2 ^ F.significandBits ≤ a.toNat) (ha' : a.toNat < 2 ^ (F.significandBits + 1))
    (hb : 2 ^ F.significandBits ≤ b.toNat) (hb' : b.toNat < 2 ^ (F.significandBits + 1)) (e : ℤ) :
    ∃ (hi lo : F.Rep) (d : ℕ), product t F F.k a b e = some (hi, lo, e + 1 - d) ∧
      2 ^ F.significandBits ≤ hi.toNat ∧ hi.toNat < 2 ^ (F.significandBits + 1) ∧ d ≤ 1 ∧
      wide hi lo = a.toNat * b.toNat * 2 ^ (F.exponentBits + d) := by
  have hw := F.typeWidth_eq
  have hbounds := F.exponentBits_bounds
  have hs := shl_natCast t b (n := F.exponentBits) (by omega)
  have hwide : 2 ^ F.typeWidth = 2 ^ (F.significandBits + 1) * 2 ^ F.exponentBits := by
    rw [← pow_add]
    congr 1
    omega
  have hfit : 2 ^ (F.significandBits + 1) < 2 ^ F.typeWidth := F.two_pow_lt (by omega)
  have hshift : (b <<< F.exponentBits).toNat = b.toNat * 2 ^ F.exponentBits := by
    apply BitMask.toNat_shiftLeft_of_lt
    rw [hwide]
    exact Nat.mul_lt_mul_of_pos_right hb' (Nat.two_pow_pos _)
  have hdiv : a.toNat * (b <<< F.exponentBits).toNat / 2 ^ F.typeWidth = a.toNat * b.toNat / 2 ^ (F.significandBits + 1) := by
    rw [hshift, hwide, ← Nat.mul_assoc, Nat.mul_div_mul_right _ _ (Nat.two_pow_pos _)]
  have hlt : a.toNat * b.toNat / 2 ^ (F.significandBits + 1) < 2 ^ (F.significandBits + 1) :=
    Nat.div_lt_of_lt_mul (Nat.mul_lt_mul'' ha' hb')
  have hhi : (BitVec.ofNat F.typeWidth (a.toNat * b.toNat / 2 ^ (F.significandBits + 1))).toNat =
      a.toNat * b.toNat / 2 ^ (F.significandBits + 1) := toNat_ofNat_lt (hlt.trans hfit)
  -- the two words of the product
  have hexact : wide (BitVec.ofNat F.typeWidth (a.toNat * b.toNat / 2 ^ (F.significandBits + 1))) (a * b <<< F.exponentBits) =
      a.toNat * b.toNat * 2 ^ F.exponentBits := by
    have hmul : a.toNat * b.toNat * 2 ^ F.exponentBits = a.toNat * (b <<< F.exponentBits).toNat := by
      rw [hshift, Nat.mul_assoc]
    rw [wide, hhi, ← hdiv, BitVec.toNat_mul, hmul]
    exact Nat.div_add_mod' _ _
  have hprod : 2 ^ F.significandBits * 2 ^ F.significandBits ≤ a.toNat * b.toNat := Nat.mul_le_mul ha hb
  have hbit : BitVec.ofNat F.typeWidth (a.toNat * b.toNat / 2 ^ (F.significandBits + 1)) &&& F.k.implicitBit ≠ 0 ↔
      2 ^ F.significandBits ≤ a.toNat * b.toNat / 2 ^ (F.significandBits + 1) := by
    rw [Ne, ← BitVec.toNat_inj, BitVec.toNat_and, F.toNat_implicitBit, hhi, ← and_two_pow_ne_zero_iff hlt]
    rfl
  simp only [product, hs, F.wideMultiply_eq, hdiv, Option.pure_def, Option.bind_eq_bind, Option.bind_some, hbit]
  by_cases h : 2 ^ F.significandBits ≤ a.toNat * b.toNat / 2 ^ (F.significandBits + 1)
  · rw [if_pos h]
    have hexp : e + 1 - ((0 : ℕ) : ℤ) = e + 1 := by omega
    rw [← hhi] at h hlt
    refine ⟨_,_,0,by rw [hexp],h,hlt,Nat.zero_le _,?_⟩
    rw [hexact, Nat.add_zero]
  · rw [if_neg h]
    have hsmall : (BitVec.ofNat F.typeWidth (a.toNat * b.toNat / 2 ^ (F.significandBits + 1))).toNat < 2 ^ (F.typeWidth - 1) := by
      have hle : 2 ^ F.significandBits ≤ 2 ^ (F.typeWidth - 1) := Nat.pow_le_pow_right (by decide) (by omega)
      rw [hhi]
      omega
    obtain ⟨hi,lo,hleft,hdouble⟩ := wideLeftShift_one_eq (t := t) (a * b <<< F.exponentBits) hsmall
    rw [hexact] at hdouble
    have hval : wide hi lo = a.toNat * b.toNat * 2 ^ (F.exponentBits + 1) := by rw [hdouble, pow_succ]; ring
    have hexp : e + 1 - ((1 : ℕ) : ℤ) = e := by omega
    rw [hleft]
    refine ⟨hi,lo,1,by rw [hexp]; rfl,?_,?_,le_rfl,hval⟩
    · rw [← wide_div hi lo, Nat.le_div_iff_mul_le (Nat.two_pow_pos _), hval]
      calc 2 ^ F.significandBits * 2 ^ F.typeWidth =
            2 ^ F.significandBits * 2 ^ F.significandBits * 2 ^ (F.exponentBits + 1) := by
              rw [hwide, pow_succ, pow_succ]
              ring
        _ ≤ a.toNat * b.toNat * 2 ^ (F.exponentBits + 1) := Nat.mul_le_mul_right _ hprod
    · rw [← wide_div hi lo, Nat.div_lt_iff_lt_mul (Nat.two_pow_pos _), hval]
      have hless : a.toNat * b.toNat < 2 ^ F.significandBits * 2 ^ (F.significandBits + 1) := by
        rw [← Nat.div_lt_iff_lt_mul (Nat.two_pow_pos _)]
        exact Nat.lt_of_not_le h
      calc a.toNat * b.toNat * 2 ^ (F.exponentBits + 1) <
            2 ^ F.significandBits * 2 ^ (F.significandBits + 1) * 2 ^ (F.exponentBits + 1) :=
              Nat.mul_lt_mul_of_pos_right hless (Nat.two_pow_pos _)
        _ = 2 ^ (F.significandBits + 1) * 2 ^ F.typeWidth := by
              rw [hwide, pow_succ 2 F.significandBits, pow_succ 2 F.exponentBits]
              ring

end Product

section Finish
variable (t : ShiftTarget) {F : Format} {sign hi lo : F.Rep} {s : Bool} {e : ℤ} {q : ℚ}

/-- The sign lies above what is rounded. -/
theorem round_eq (hsign : sign.toNat = s.toNat * 2 ^ (F.typeWidth - 1)) (hhi : hi.toNat + 1 < 2 ^ (F.typeWidth - 1)) :
    (round F F.k sign hi lo).toNat = s.toNat * 2 ^ (F.typeWidth - 1) + roundDiv (wide hi lo) (2 ^ F.typeWidth) := by
  have hge := F.exponentBits_ge
  have htwo := F.two_pow_width
  have hbool := s.toNat_lt
  have hhalf := F.toNat_signBit
  have hone : (1 : F.Rep).toNat = 1 := Nat.mod_eq_of_lt (Nat.one_lt_two_pow F.width_pos.ne')
  have hor : (hi ||| sign).toNat = s.toNat * 2 ^ (F.typeWidth - 1) + hi.toNat := Format.toNat_or_sign hsign (by omega)
  have hle : s.toNat * 2 ^ (F.typeWidth - 1) ≤ 1 * 2 ^ (F.typeWidth - 1) := Nat.mul_le_mul_right _ (by omega)
  have heven : 2 ^ (F.typeWidth - 1) % 2 = 0 := by
    have hsplit : 2 ^ (F.typeWidth - 1) = 2 ^ (F.typeWidth - 2) * 2 := by rw [← pow_succ]; congr 1; omega
    omega
  have hparity : (s.toNat * 2 ^ (F.typeWidth - 1) + hi.toNat) % 2 = hi.toNat % 2 := by
    rw [Nat.add_mod, Nat.mul_mod, heven, Nat.mul_zero, Nat.zero_mod, Nat.zero_add, Nat.mod_mod]
  rw [roundDiv_eq, wide_div, wide_mod, round]
  by_cases hmore : F.k.signBit < lo
  · have hlt := BitVec.lt_def.mp hmore
    have hne : ¬lo = F.k.signBit := fun h => by rw [h] at hlt; exact lt_irrefl _ hlt
    simp only [if_pos hmore, if_neg hne]
    rw [if_pos (by omega), BitVec.toNat_add, hor, hone, Nat.mod_eq_of_lt (by omega)]
    omega
  have hge' : lo.toNat ≤ F.k.signBit.toNat := BitVec.le_def.mp (BitVec.not_lt.mp hmore)
  by_cases htie : lo = F.k.signBit
  · have hlo := congrArg BitVec.toNat htie
    have hlow : ((hi ||| sign) &&& 1).toNat = hi.toNat % 2 := by
      have hmask : ((hi ||| sign) &&& 1).toNat = (hi ||| sign).toNat % 2 ^ 1 :=
        BitMask.toNat_and_low (hi ||| sign) (k := 1) F.width_pos
      rw [hmask, hor, pow_one, hparity]
    simp only [if_neg hmore, if_pos htie]
    rw [BitVec.toNat_add, hor, hlow, Nat.mod_eq_of_lt (by omega)]
    split_ifs <;> omega
  · have hne : lo.toNat ≠ F.k.signBit.toNat := fun h => htie (BitVec.eq_of_toNat_eq h)
    simp only [if_neg hmore, if_neg htie]
    rw [if_neg (by omega), hor]

/-- A result that is normal before rounding. -/
theorem finish_normal (lo : F.Rep) (hsign : sign.toNat = s.toNat * 2 ^ (F.typeWidth - 1)) (hlo : 2 ^ F.significandBits ≤ hi.toNat)
    (hhi : hi.toNat < 2 ^ (F.significandBits + 1)) (he : 1 ≤ e) (he' : e < 2 ^ F.exponentBits - 1) :
    ∃ hi', insertExponent t F F.k hi e = some hi' ∧ (round F F.k sign hi' lo).toNat = s.toNat * 2 ^ (F.typeWidth - 1) +
      ((e.toNat - 1) * 2 ^ F.significandBits + roundDiv (wide hi lo) (2 ^ F.typeWidth)) := by
  have hinf := F.inf_lt
  obtain ⟨y,hy,hfields,hbound⟩ := insertExponent_eq t hlo hhi he he'
  simp only [insertExponent, hy, Option.pure_def, Option.bind_eq_bind, Option.bind_some]
  refine ⟨_,rfl,?_⟩
  rw [round_eq hsign (by rw [hfields]; omega), wide, hfields, Nat.add_mul, Nat.add_assoc, roundDiv_mul_add]
  · rfl
  · exact Nat.two_pow_pos _
  · rw [Nat.mul_mod, two_pow_significandBits_mod_two, Nat.mul_zero, Nat.zero_mod]

/-- A result that is denormal, or underflows. -/
theorem finish_denormal (lo : F.Rep) (hsign : sign.toNat = s.toNat * 2 ^ (F.typeWidth - 1)) {count : ℕ} (h0 : 0 < count)
    (hhi : hi.toNat < 2 ^ (F.significandBits + 1)) (hread : count = F.typeWidth → ReadsFullWidth t) :
    ∃ hi' lo', wideRightShiftWithSticky t F hi lo count = some (hi', lo') ∧ (round F F.k sign hi' lo').toNat =
      s.toNat * 2 ^ (F.typeWidth - 1) + roundDiv (wide hi lo) (2 ^ (count + F.typeWidth)) := by
  have hge := F.exponentBits_ge
  have hle : 2 ^ (F.significandBits + 1) ≤ 2 ^ (F.typeWidth - 2) := Nat.pow_le_pow_right (by decide) (by omega)
  have htwo : 2 ^ (F.typeWidth - 1) = 2 ^ (F.typeWidth - 2) * 2 := by rw [← pow_succ]; congr 1; omega
  obtain ⟨hi',lo',hr,hhi',hround⟩ := wideRightShift_rounds lo h0 (hhi.trans_le hle) hread
  refine ⟨hi',lo',hr,?_⟩
  rw [round_eq hsign (by omega), hround]

/-- A normalized product and the exact number it stands for. -/
structure Normalized (hi lo : F.Rep) (e : ℤ) (q : ℚ) : Prop where
  le_hi : 2 ^ F.significandBits ≤ hi.toNat
  hi_lt : hi.toNat < 2 ^ (F.significandBits + 1)
  le_exponent : -2 ^ 31 ≤ e
  value : q = (wide hi lo : ℚ) / 2 ^ F.typeWidth * 2 ^ (e - 1 + F.binary.emin)

variable {t}

theorem finish_overflow (hsign : sign.toNat = s.toNat * 2 ^ (F.typeWidth - 1)) (h : Normalized hi lo e q)
    (he : (F.k.maxExponent : ℤ) ≤ e) : Finished s q (F.k.infRep ||| sign) := by
  refine finished_overflow hsign (Format.cast_two_pow_le_div ?_) he h.value
  rw [wide_div]
  exact h.le_hi

theorem finish_normal_finished (hsign : sign.toNat = s.toNat * 2 ^ (F.typeWidth - 1)) (h : Normalized hi lo e q)
    (he : ¬e ≤ 0) (he' : ¬(F.k.maxExponent : ℤ) ≤ e) :
    ∃ r, (do return round F F.k sign (← insertExponent t F F.k hi e) lo) = some r ∧ Finished s q r := by
  rw [maxExponent_eq] at he'
  have hpos : 1 ≤ e := by omega
  obtain ⟨hi',hins,hr⟩ := finish_normal t lo hsign h.le_hi h.hi_lt hpos (by omega)
  rw [hins]
  refine ⟨_,rfl,.of_toNat hr ?_⟩
  refine Format.nearest_normal (e := e) ?_ ?_ (by omega) (by omega) h.value
  · rw [wide_div]
    exact h.le_hi
  · rw [wide_div]
    exact h.hi_lt

theorem finish_denormal_nearest (h : Normalized hi lo e q) (he : e ≤ 0) : F.binary.Nearest (q / 2 ^ F.binary.emin)
    (roundDiv (wide hi lo) (2 ^ (underflowShift e + F.typeWidth))) := by
  have hcount := underflowShift_eq he h.le_exponent
  have hnat : underflowShift e = (1 - e).toNat := by omega
  rw [hnat]
  refine Format.nearest_denormal ?_ he h.value
  rw [wide_div]
  exact h.hi_lt

theorem finish_denormal_finished (hsign : sign.toNat = s.toNat * 2 ^ (F.typeWidth - 1)) (h : Normalized hi lo e q)
    (he : e ≤ 0) (hread : underflowShift e = F.typeWidth → ReadsFullWidth t) :
    ∃ r, (do
      let (hi, lo) ← wideRightShiftWithSticky t F hi lo (underflowShift e)
      return round F F.k sign hi lo) = some r ∧ Finished s q r := by
  have hcount := underflowShift_eq he h.le_exponent
  obtain ⟨hi',lo',hshift,hr⟩ := finish_denormal t lo hsign (by omega) h.hi_lt hread
  rw [hshift]
  exact ⟨_,rfl,.of_toNat hr (finish_denormal_nearest h he)⟩

theorem finishSingle_finished (hread : ReadsFullWidth t) (hsign : sign.toNat = s.toNat * 2 ^ (F.typeWidth - 1))
    (h : Normalized hi lo e q) : ∃ r, finishSingle t F F.k sign hi lo e = some r ∧ Finished s q r := by
  unfold finishSingle
  by_cases hover : (F.k.maxExponent : ℤ) ≤ e
  · rw [if_pos hover]
    exact ⟨_,rfl,finish_overflow hsign h hover⟩
  rw [if_neg hover]
  by_cases hunder : e ≤ 0
  · rw [if_pos hunder]
    exact finish_denormal_finished hsign h hunder fun _ => hread
  · rw [if_neg hunder]
    exact finish_normal_finished hsign h hunder hover

/-- The early return for a far underflow gives the zero that the shift would give. -/
theorem finishDouble_finished (hsign : sign.toNat = s.toNat * 2 ^ (F.typeWidth - 1)) (h : Normalized hi lo e q) :
    ∃ r, finishDouble t F F.k sign hi lo e = some r ∧ Finished s q r := by
  unfold finishDouble
  by_cases hover : (F.k.maxExponent : ℤ) ≤ e
  · rw [if_pos hover]
    exact ⟨_,rfl,finish_overflow hsign h hover⟩
  rw [if_neg hover]
  by_cases hunder : e ≤ 0
  · rw [if_pos hunder]
    by_cases hfar : F.typeWidth ≤ underflowShift e
    · rw [if_pos hfar]
      have hnear := finish_denormal_nearest h hunder
      have hge := F.exponentBits_ge
      have hle : 2 ^ (F.significandBits + 1) ≤ 2 ^ (F.typeWidth - 2) := Nat.pow_le_pow_right (by decide) (by omega)
      rw [roundDiv_wide_far hfar (h.hi_lt.trans_le hle)] at hnear
      exact ⟨_,rfl,.of_toNat (by rw [hsign, Nat.add_zero]) hnear⟩
    · rw [if_neg hfar]
      exact finish_denormal_finished hsign h hunder fun hcount => absurd hcount.ge hfar
  · rw [if_neg hunder]
    exact finish_normal_finished hsign h hunder hover

end Finish

/-! ## The product -/

section Mul
variable {t : ShiftTarget} {F : Format} {a b r : F.Rep}

/-- What IEEE 754 says of the product. -/
structure IsProduct (a b r : F.Rep) : Prop where
  nan : F.IsNaN a ∨ F.IsNaN b → F.IsQuietNaN r
  invalid : F.IsInf a ∧ F.abs b = 0 ∨ F.abs a = 0 ∧ F.IsInf b → F.IsQuietNaN r
  infinite : F.IsInf a ∧ ¬F.IsNaN b ∧ F.abs b ≠ 0 ∨ F.IsInf b ∧ ¬F.IsNaN a ∧ F.abs a ≠ 0 →
    F.IsInf r ∧ F.sign r = (F.sign a ^^ F.sign b)
  finite : F.IsFinite a → F.IsFinite b → F.IsRounded (F.rat a * F.rat b) (F.sign a ^^ F.sign b) r

theorem productSign_eq (a b : F.Rep) :
    ((a ^^^ b) &&& F.k.signBit).toNat = (F.sign a ^^ F.sign b).toNat * 2 ^ (F.typeWidth - 1) := by
  rw [Format.toNat_sign, Format.sign_xor]

/-- An early return is right. -/
theorem special_isProduct (h : special F F.k a b = some r) : IsProduct a b r := by
  have hsign := productSign_eq a b
  have hinf := F.inf_pos
  obtain ⟨hsinf,hinfinite⟩ := Format.infRep_fields hsign
  obtain ⟨hszero,hzero⟩ := Format.fields_of_toNat (c := 0) (Nat.two_pow_pos _) (by rw [hsign, Nat.add_zero])
  simp only [special, Format.infRep_lt_iff, Format.eq_infRep_iff, ne_eq, Format.abs_eq_zero_iff] at h
  have hexcl : ∀ x : F.Rep, F.IsNaN x → ¬F.IsInf x ∧ ¬F.abs x = 0 ∧ ¬F.IsFinite x := by
    intro x hx
    unfold Format.IsNaN Format.IsInf Format.IsFinite at *
    omega
  have hexcl' : ∀ x : F.Rep, F.IsInf x → ¬F.abs x = 0 ∧ ¬F.IsFinite x := by
    intro x hx
    unfold Format.IsInf Format.IsFinite at *
    omega
  split_ifs at h with hna hnb hia hb0 hib ha0 ha0 hb0 <;> obtain rfl := Option.some.inj h
  · -- a is not a number
    obtain ⟨h1,h2,h3⟩ := hexcl a hna
    have hq := Format.isQuietNaN_or_quietBit hna
    exact ⟨fun _ => hq,fun _ => hq,by tauto,by tauto⟩
  · -- b is not a number
    obtain ⟨h1,h2,h3⟩ := hexcl b hnb
    have hq := Format.isQuietNaN_or_quietBit hnb
    exact ⟨fun _ => hq,fun _ => hq,by tauto,by tauto⟩
  · -- infinity times zero
    obtain ⟨h1,h2⟩ := hexcl' a hia
    have hib : ¬F.IsInf b := fun h => (hexcl' b h).1 hb0
    exact ⟨by tauto,fun _ => Format.isQuietNaN_qnanRep,by tauto,by tauto⟩
  · -- infinity times a number that is not zero
    obtain ⟨h1,h2⟩ := hexcl' a hia
    have hrep : a &&& F.k.absMask = F.k.infRep := Format.eq_infRep_iff.mpr hia
    rw [hrep]
    exact ⟨by tauto,by tauto,fun _ => ⟨hinfinite,hsinf⟩,by tauto⟩
  · obtain ⟨h1,h2⟩ := hexcl' b hib
    exact ⟨by tauto,fun _ => Format.isQuietNaN_qnanRep,by tauto,by tauto⟩
  · obtain ⟨h1,h2⟩ := hexcl' b hib
    have hrep : b &&& F.k.absMask = F.k.infRep := Format.eq_infRep_iff.mpr hib
    rw [hrep]
    exact ⟨by tauto,by tauto,fun _ => ⟨hinfinite,hsinf⟩,by tauto⟩
  · -- zero times a finite number
    refine ⟨by tauto,by tauto,by tauto,fun _ _ => ?_⟩
    rw [Format.rat_of_zero ha0, zero_mul]
    exact Format.isRounded_zero hzero hszero
  · refine ⟨by tauto,by tauto,by tauto,fun _ _ => ?_⟩
    rw [Format.rat_of_zero hb0, mul_zero]
    exact Format.isRounded_zero hzero hszero

theorem expo_lt_of_sub1U (x : F.Rep) (hx : ¬sub1U F.k.maxExponent ≤ sub1U (expo F x)) :
    F.IsFinite x ∧ F.abs x ≠ 0 := by
  have h0 := expo_ne_zero_of_sub1U F hx
  have hle := F.two_pow_exponentBits_le
  have hlt := expo_lt F x
  have h4 := F.four_le_exponents
  have hsub : sub1U (expo F x) = expo F x - 1 := by
    unfold sub1U
    omega
  rw [Format.sub1U_maxExponent, hsub] at hx
  refine ⟨Format.isFinite_of_expo (by omega),?_⟩
  rw [← Format.toNat_abs, abs_eq]
  have hpos := Nat.mul_pos (Nat.pos_of_ne_zero h0) (Nat.two_pow_pos F.significandBits)
  omega

theorem special_finite (h : special F F.k a b = none) : (F.IsFinite a ∧ F.abs a ≠ 0) ∧ F.IsFinite b ∧ F.abs b ≠ 0 := by
  simp only [special, Format.infRep_lt_iff, Format.eq_infRep_iff, ne_eq, Format.abs_eq_zero_iff] at h
  split_ifs at h with hna hnb hia hb0 hib ha0 ha0 hb0
  unfold Format.IsNaN Format.IsInf Format.IsFinite at *
  omega

/-- What goes on to the multiplication is finite and not zero. -/
theorem operands_finite {x : F.Rep × F.Rep × ℤ} (h : operands t F F.k a b = some (.next x)) :
    (F.IsFinite a ∧ F.abs a ≠ 0) ∧ F.IsFinite b ∧ F.abs b ≠ 0 := by
  rw [operands, exponentField_eq, exponentField_eq, Option.bind_eq_bind, Option.bind_some, Option.bind_eq_bind,
    Option.bind_some] at h
  split_ifs at h with htest
  · cases hs : special F F.k a b with
    | some r =>
      rw [hs] at h
      cases h
    | none => exact special_finite hs
  · rw [not_or] at htest
    exact ⟨expo_lt_of_sub1U a htest.1,expo_lt_of_sub1U b htest.2⟩

/-- The words of the product stand for the product of the magnitudes. -/
theorem normalized_of_operands {ea eb : ℤ} {sa sb hi lo : F.Rep} {d : ℕ} (ha : Operand F a ea sa) (hb : Operand F b eb sb)
    (hd : d ≤ 1) (hlo : 2 ^ F.significandBits ≤ hi.toNat) (hhi : hi.toNat < 2 ^ (F.significandBits + 1))
    (hwide : wide hi lo = sa.toNat * sb.toNat * 2 ^ (F.exponentBits + d)) :
    Normalized hi lo (ea + eb - F.k.exponentBias + 1 - d) |F.rat a * F.rat b| := by
  have hle := le_productExponent ha hb
  have hw := F.typeWidth_eq
  have hmin := F.emin_eq
  refine ⟨hlo,hhi,by omega,?_⟩
  have hexp : ea - 1 + F.binary.emin + (eb - 1 + F.binary.emin) =
      ((F.exponentBits + d : ℕ) : ℤ) - F.typeWidth + (ea + eb - F.k.exponentBias + 1 - d - 1 + F.binary.emin) := by
    rw [hmin]
    omega
  rw [abs_mul, Format.abs_rat_of_operand ha, Format.abs_rat_of_operand hb, hwide]
  calc (sa.toNat : ℚ) * 2 ^ (ea - 1 + F.binary.emin) * (sb.toNat * 2 ^ (eb - 1 + F.binary.emin)) =
        sa.toNat * sb.toNat * 2 ^ (ea - 1 + F.binary.emin + (eb - 1 + F.binary.emin)) := by
          rw [zpow_add₀ (by norm_num) (ea - 1 + F.binary.emin)]
          ring
    _ = ((sa.toNat * sb.toNat * 2 ^ (F.exponentBits + d) : ℕ) : ℚ) / 2 ^ F.typeWidth *
          2 ^ (ea + eb - F.k.exponentBias + 1 - d - 1 + F.binary.emin) := by
          rw [hexp, zpow_add₀ (by norm_num) (((F.exponentBits + d : ℕ) : ℤ) - F.typeWidth), zpow_sub₀ (by norm_num),
            zpow_natCast, zpow_natCast]
          push_cast
          ring

/-- The end of the routine is either of the two. -/
def FinishesRight (F : Format)
    (finish : Macros F.typeWidth → F.Rep → F.Rep → F.Rep → ℤ → Option F.Rep) : Prop :=
  ∀ {sign hi lo : F.Rep} {s : Bool} {e : ℤ} {q : ℚ}, sign.toNat = s.toNat * 2 ^ (F.typeWidth - 1) →
    Normalized hi lo e q → ∃ r, finish F.k sign hi lo e = some r ∧ Finished s q r

theorem isProduct_of_finished (ha : F.IsFinite a) (ha0 : F.abs a ≠ 0) (hb : F.IsFinite b) (hb0 : F.abs b ≠ 0)
    (h : Finished (F.sign a ^^ F.sign b) |F.rat a * F.rat b| r) : IsProduct a b r := by
  have hne : F.rat a * F.rat b ≠ 0 := mul_ne_zero (Format.rat_ne_zero (Nat.pos_of_ne_zero ha0))
    (Format.rat_ne_zero (Nat.pos_of_ne_zero hb0))
  constructor
  · unfold Format.IsNaN Format.IsFinite at *
    omega
  · omega
  · unfold Format.IsInf Format.IsFinite at *
    omega
  · intro _ _
    refine ⟨⟨h.nearest,fun _ => ?_⟩,fun h0 => absurd h0 hne⟩
    rw [Format.decide_mul_neg (Nat.pos_of_ne_zero ha0) (Nat.pos_of_ne_zero hb0)]
    exact h.sign

theorem mul_isProduct {finish : Macros F.typeWidth → F.Rep → F.Rep → F.Rep → ℤ → Option F.Rep}
    (hfinish : FinishesRight F finish) (a b : F.Rep) : ∃ r, mul t F finish a b = some r ∧ IsProduct a b r := by
  unfold mul
  rw [macros_eq, Option.bind_eq_bind, Option.bind_some]
  rcases operands_cases t F a b with ⟨r,hr,he⟩ | ⟨ea,eb,sa,sb,e,ha,hb,rfl,he⟩
  · rw [he]
    exact ⟨r,rfl,special_isProduct hr⟩
  · obtain ⟨hi,lo,d,hp,hlo,hhi,hd,hwide⟩ := product_wide t ha.le_significand ha.significand_lt hb.le_significand
      hb.significand_lt (ea + eb - F.k.exponentBias)
    obtain ⟨r,hr,hdone⟩ := hfinish (productSign_eq a b) (normalized_of_operands ha hb hd hlo hhi hwide)
    rw [he, Option.bind_eq_bind, Option.bind_some]
    dsimp only
    rw [hp, Option.bind_eq_bind, Option.bind_some]
    obtain ⟨⟨hafin,ha0⟩,hbfin,hb0⟩ := operands_finite he
    exact ⟨r,hr,isProduct_of_finished hafin ha0 hbfin hb0 hdone⟩

end Mul

/-- Whichever of the two the shift by the full width gives, the product is rounded right. -/
theorem mul_rounds {t : ShiftTarget} (hread : ReadsFullWidth t) (c : Double.RepClz) :
    (∀ a b, ∃ r, mulsf3 t a b = some r ∧ IsProduct (F := single) a b r) ∧
    ∀ a b, ∃ r, muldf3 t c a b = some r ∧ IsProduct (F := double c) a b r := by
  constructor
  · intro a b
    have hfinish : FinishesRight single (finishSingle t single) := fun hsign h => finishSingle_finished hread hsign h
    exact mul_isProduct hfinish a b
  · intro a b
    have hfinish : FinishesRight (double c) (finishDouble t (double c)) := fun hsign h => finishDouble_finished hsign h
    exact mul_isProduct hfinish a b

/-- A target that gives back the operand. -/
def unshifted : ShiftTarget := ⟨fun x _ => some x⟩

/-- The product 2^-160 underflows by the width of the type. -/
theorem mul_rounds_unshifted : ∃ r, mulsf3 unshifted 0x18000000 0x98000000 = some r ∧
    single.IsRounded (single.rat 0x18000000 * single.rat 0x98000000) true r := by
  obtain ⟨r,hr,h⟩ := (mul_rounds (t := unshifted) (fun x => .inr rfl) .split).1 0x18000000 0x98000000
  have ha : single.IsFinite (0x18000000 : BitVec 32) := by
    unfold Format.IsFinite
    decide
  have hb : single.IsFinite (0x98000000 : BitVec 32) := by
    unfold Format.IsFinite
    decide
  exact ⟨r,hr,h.finite ha hb⟩

end CompilerRt.FpMul
