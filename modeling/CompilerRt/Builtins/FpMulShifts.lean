import CompilerRt.Builtins.FpFields
import CompilerRt.Builtins.FpMul

/-! # The shift amounts of soft-float multiplication

The routine is followed from its operands to the last shift. Both precisions share all of it but the
treatment of an underflowing product, and that is where they differ.
-/
namespace CompilerRt.FpMul
open CShift FpLib

section Operands
variable (t : ShiftTarget) (F : Format)

theorem Format.sub1U_maxExponent : sub1U F.k.maxExponent = 2^F.exponentBits - 2 := by
  have h := F.two_pow_exponentBits_le
  have h4 : 2^2 ≤ 2^F.exponentBits := Nat.pow_le_pow_right (by decide) (by have := F.exponentBits_bounds; omega)
  change (2^F.exponentBits - 1 + 2^32 - 1) % 2^32 = _
  omega

/-- The unsigned comparison catches the exponent zero as well as the largest one. -/
theorem expo_ne_zero_of_sub1U {x : F.Rep} (h : ¬ sub1U F.k.maxExponent ≤ sub1U (expo F x)) : expo F x ≠ 0 := by
  intro h0
  have hle := F.two_pow_exponentBits_le
  rw [Format.sub1U_maxExponent, h0] at h
  change ¬ 2^F.exponentBits - 2 ≤ 4294967295 at h
  omega

theorem special_eq_none {a b : F.Rep} (h : special F F.k a b = none) :
    a &&& F.k.absMask ≠ 0 ∧ b &&& F.k.absMask ≠ 0 := by
  simp only [special] at h
  split_ifs at h
  exact ⟨‹_›,‹_›⟩

/-- What is returned early has an operand that is zero or not finite. -/
theorem special_eq_some {a b r : F.Rep} (h : special F F.k a b = some r) :
    (mag F a = 0 ∨ mag F b = 0) ∨ (a &&& F.k.absMask ≠ 0 ∧ b &&& F.k.absMask ≠ 0 ∧
      (F.k.infRep ≤ a &&& F.k.absMask ∨ F.k.infRep ≤ b &&& F.k.absMask)) := by
  by_cases ha : a &&& F.k.absMask = 0
  · exact Or.inl (Or.inl (Nat.eq_zero_of_not_pos fun h0 => (mag_pos_iff F a).mp h0 ha))
  by_cases hb : b &&& F.k.absMask = 0
  · exact Or.inl (Or.inr (Nat.eq_zero_of_not_pos fun h0 => (mag_pos_iff F b).mp h0 hb))
  refine Or.inr ⟨ha,hb,?_⟩
  simp only [special, ha, hb, if_false] at h
  by_contra hcon
  rw [not_or, BitVec.not_le, BitVec.not_le] at hcon
  rw [if_neg (BitVec.lt_asymm hcon.1), if_neg (BitVec.lt_asymm hcon.2), if_neg (BitVec.ne_of_lt hcon.1),
    if_neg (BitVec.ne_of_lt hcon.2)] at h
  cases h

theorem normalizeDenormal_eq {x : F.Rep} (h : x &&& F.k.absMask ≠ 0) :
    ∃ scale s, normalizeDenormal t F F.k x = some (scale, s) ∧
      Operand F x (expo F x + scale) (s ||| F.k.implicitBit) := by
  simp only [normalizeDenormal, abs_lt_implicitBit_iff]
  by_cases h0 : expo F x = 0
  · obtain ⟨e,s,he,ho,-⟩ := operand_of_denormal t F h0 h
    exact ⟨e,s,by rw [if_pos h0, he],by simpa [h0] using ho⟩
  · exact ⟨0,_,if_neg h0,by simpa using operand_of_normal F h0⟩

theorem operands_cases (a b : F.Rep) :
    (∃ r, special F F.k a b = some r ∧ operands t F F.k a b = some (.done r)) ∨
    ∃ ea eb sa sb e, Operand F a ea sa ∧ Operand F b eb sb ∧ e = ea + eb - F.k.exponentBias ∧
      operands t F F.k a b = some (.next (sa, sb, e)) := by
  rw [operands, exponentField_eq, exponentField_eq, Option.bind_eq_bind, Option.bind_some,
    Option.bind_eq_bind, Option.bind_some]
  split_ifs with h
  · cases hs : special F F.k a b with
    | some r => exact Or.inl ⟨r,rfl,rfl⟩
    | none =>
      obtain ⟨ha,hb⟩ := special_eq_none F hs
      obtain ⟨sca,ssa,hea,hoa⟩ := normalizeDenormal_eq t F ha
      obtain ⟨scb,ssb,heb,hob⟩ := normalizeDenormal_eq t F hb
      refine Or.inr ⟨_,_,_,_,expo F a + expo F b - F.k.exponentBias + (sca + scb),hoa,hob,?_,?_⟩
      · ring
      · rw [hea, heb]
        rfl
  · rw [not_or] at h
    exact Or.inr ⟨_,_,_,_,expo F a + expo F b - F.k.exponentBias,operand_of_normal F (expo_ne_zero_of_sub1U F h.1),
      operand_of_normal F (expo_ne_zero_of_sub1U F h.2),by ring,rfl⟩

end Operands

section Product
variable (t : ShiftTarget) (F : Format)

/-- The exponent goes up by one when the product of the significands has its upper leading bit. -/
theorem product_eq {a b : F.Rep} (ha : a.toNat < 2^(F.significandBits + 1))
    (hb : b.toNat < 2^(F.significandBits + 1)) (e : ℤ) :
    ∃ hi lo, product t F F.k a b e =
      some (hi, lo, if 2^(2 * F.significandBits + 1) ≤ a.toNat * b.toNat then e + 1 else e) := by
  have hw := F.typeWidth_eq
  have hp := Nat.two_pow_pos (F.significandBits + 1)
  have hs := shl_natCast t b (n := F.exponentBits) (by omega)
  have hwide : 2^F.typeWidth = 2^(F.significandBits + 1) * 2^F.exponentBits := by
    rw [← pow_add]
    congr 1
    omega
  have hshift : (b <<< F.exponentBits).toNat = b.toNat * 2^F.exponentBits := by
    rw [BitVec.toNat_shiftLeft, Nat.shiftLeft_eq, Nat.mod_eq_of_lt]
    rw [hwide]
    exact Nat.mul_lt_mul_of_pos_right hb (Nat.two_pow_pos _)
  have hdiv : a.toNat * (b <<< F.exponentBits).toNat / 2^F.typeWidth =
      a.toNat * b.toNat / 2^(F.significandBits + 1) := by
    rw [hshift, hwide, ← Nat.mul_assoc, Nat.mul_div_mul_right _ _ (Nat.two_pow_pos _)]
  have hlt : a.toNat * b.toNat / 2^(F.significandBits + 1) < 2^(F.significandBits + 1) :=
    Nat.div_lt_of_lt_mul (Nat.mul_lt_mul'' ha hb)
  have hbit : BitVec.ofNat F.typeWidth (a.toNat * b.toNat / 2^(F.significandBits + 1)) &&& F.k.implicitBit ≠ 0 ↔
      2^(2 * F.significandBits + 1) ≤ a.toNat * b.toNat := by
    have hfit : 2^(F.significandBits + 1) < 2^F.typeWidth := F.two_pow_lt (by have := F.exponentBits_bounds; omega)
    have hmul : 2^(2 * F.significandBits + 1) = 2^F.significandBits * 2^(F.significandBits + 1) := by
      rw [← pow_add]
      congr 1
      omega
    rw [Ne, ← BitVec.toNat_inj, BitVec.toNat_and, F.toNat_implicitBit, toNat_ofNat_lt (by omega), hmul,
      ← Nat.le_div_iff_mul_le hp, ← and_two_pow_ne_zero_iff hlt]
    rfl
  obtain ⟨⟨hi,lo⟩,hleft⟩ := Option.isSome_iff_exists.mp (wideLeftShift_one F t
    (BitVec.ofNat _ (a.toNat * b.toNat / 2^(F.significandBits + 1))) (a * b <<< F.exponentBits))
  simp only [product, hs, F.wideMultiply_eq, hdiv, Option.pure_def, Option.bind_eq_bind, Option.bind_some,
    hbit]
  by_cases h : 2^(2 * F.significandBits + 1) ≤ a.toNat * b.toNat
  · exact ⟨_,_,by rw [if_pos h, if_pos h]⟩
  · exact ⟨hi,lo,by rw [if_neg h, if_neg h, hleft]; rfl⟩

theorem underflowShift_eq {e : ℤ} (h1 : e ≤ 0) (h2 : -2^31 ≤ e) : (underflowShift e : ℤ) = 1 - e := by
  unfold underflowShift
  omega

theorem insertExponent_isSome (hi : F.Rep) (e : ℤ) : (insertExponent t F F.k hi e).isSome = true := by
  have h := F.exponentBits_ge
  exact isSome_bind (shl_isSome t (by omega)) fun _ => rfl

theorem finishSingle_isSome {sign hi lo : F.Rep} {e : ℤ} (h : -2^31 ≤ e) :
    (finishSingle .strict F F.k sign hi lo e).isSome = true ↔ e ≠ 1 - F.typeWidth := by
  have hw := F.exponentBits_ge
  unfold finishSingle
  split_ifs with h1 h2
  · have : e ≠ 1 - F.typeWidth := by omega
    simp [this]
  · have hu := underflowShift_eq h2 h
    have hne : underflowShift e ≠ F.typeWidth ↔ e ≠ 1 - F.typeWidth := by omega
    rw [← hne, ← wideRightShiftWithSticky_isSome F hi lo (by omega)]
    cases wideRightShiftWithSticky .strict F hi lo (underflowShift e) <;> simp
  · have : e ≠ 1 - F.typeWidth := by omega
    simp only [this, ne_eq, not_false_eq_true, iff_true]
    exact isSome_bind (insertExponent_isSome .strict F hi e) fun _ => rfl

theorem finishDouble_isSome {sign hi lo : F.Rep} {e : ℤ} (h : -2^31 ≤ e) :
    (finishDouble .strict F F.k sign hi lo e).isSome = true := by
  unfold finishDouble
  split_ifs with h1 h2 h3
  · rfl
  · rfl
  · have hu := underflowShift_eq h2 h
    exact isSome_bind ((wideRightShiftWithSticky_isSome F _ _ (by omega)).mpr (by omega)) fun _ => rfl
  · exact isSome_bind (insertExponent_isSome .strict F hi e) fun _ => rfl

end Product

section Results
variable {F : Format}

/-- A magnitude that is infinite or not a number has the largest exponent field. -/
theorem le_mag_of_infRep_le {x : F.Rep} (h : F.k.infRep ≤ x &&& F.k.absMask) :
    2^(F.significandBits + (2^F.exponentBits - 2)) ≤ mag F x := by
  have hf := frac_lt F x
  have hw : F.typeWidth - 1 = F.significandBits + F.exponentBits := by rw [F.typeWidth_eq]; rfl
  have h4 : 2^2 ≤ 2^F.exponentBits := Nat.pow_le_pow_right (by decide) (by have := F.exponentBits_bounds; omega)
  have he : 2^F.exponentBits - 1 ≤ expo F x := by
    rw [BitVec.le_def, F.toNat_infRep, abs_eq, hw, pow_add] at h
    by_contra hlt
    have hle : (expo F x + 1) * 2^F.significandBits ≤ (2^F.exponentBits - 1) * 2^F.significandBits :=
      Nat.mul_le_mul_right _ (by omega)
    rw [Nat.mul_sub_right_distrib, Nat.add_mul, Nat.mul_comm (2^F.exponentBits)] at hle
    omega
  rw [mag, if_neg (by omega), pow_add]
  exact Nat.mul_le_mul (Nat.le_add_left _ _) (Nat.pow_le_pow_right (by decide) (by omega))

theorem log_mul_two_pow {n : ℕ} (hn : n ≠ 0) (k : ℕ) : Nat.log 2 (n * 2^k) = Nat.log 2 n + k := by
  induction k with
  | zero => rw [pow_zero, Nat.mul_one, Nat.add_zero]
  | succ k ih =>
    have hne : n * 2^k ≠ 0 := Nat.mul_ne_zero hn (Nat.two_pow_pos k).ne'
    rw [pow_succ, ← Nat.mul_assoc, Nat.log_mul_base (by decide) hne, ih, Nat.add_assoc]

/-- The exponent of the normalized product locates the product of the magnitudes. -/
theorem log_mag_mul {a b : F.Rep} {ea eb : ℤ} {sa sb : F.Rep} (ha : Operand F a ea sa) (hb : Operand F b eb sb) :
    (Nat.log 2 (mag F a * mag F b) : ℤ) = ea + eb + 2 * F.significandBits - 2 +
      (if 2^(2 * F.significandBits + 1) ≤ sa.toNat * sb.toNat then 1 else 0) := by
  have hea := ha.le_exponent
  have heb := hb.le_exponent
  have hva := ha.value
  have hvb := hb.value
  generalize hA : (ea + F.significandBits - 1).toNat = A at hva
  generalize hB : (eb + F.significandBits - 1).toNat = B at hvb
  have hval : sa.toNat * sb.toNat * 2^(A + B) = mag F a * mag F b * 2^(2 * F.significandBits) := by
    calc sa.toNat * sb.toNat * 2^(A + B) = (sa.toNat * 2^A) * (sb.toNat * 2^B) := by rw [pow_add]; ring
      _ = (mag F a * 2^F.significandBits) * (mag F b * 2^F.significandBits) := by rw [hva, hvb]
      _ = mag F a * mag F b * 2^(2 * F.significandBits) := by rw [two_mul, pow_add]; ring
  have hlo : 2^(2 * F.significandBits) ≤ sa.toNat * sb.toNat := by
    rw [two_mul, pow_add]
    exact Nat.mul_le_mul ha.le_significand hb.le_significand
  have hhi : sa.toNat * sb.toNat < 2^(2 * F.significandBits + 1 + 1) := by
    have h := Nat.mul_lt_mul'' ha.significand_lt hb.significand_lt
    rwa [← pow_add, show F.significandBits + 1 + (F.significandBits + 1) = 2 * F.significandBits + 1 + 1 by omega] at h
  have hpos : 0 < sa.toNat * sb.toNat := (Nat.two_pow_pos _).trans_le hlo
  have hmag : mag F a * mag F b ≠ 0 := by
    intro h0
    rw [h0, Nat.zero_mul] at hval
    exact (Nat.mul_pos hpos (Nat.two_pow_pos _)).ne' hval
  have hlog : Nat.log 2 (sa.toNat * sb.toNat) + (A + B) = Nat.log 2 (mag F a * mag F b) + 2 * F.significandBits := by
    rw [← log_mul_two_pow hpos.ne', hval, log_mul_two_pow hmag]
  split_ifs with h
  · have hP := (Nat.log_eq_iff (b := 2) (Or.inr ⟨by decide,hpos.ne'⟩)).mpr ⟨h,hhi⟩
    omega
  · have hP := (Nat.log_eq_iff (b := 2) (Or.inr ⟨by decide,hpos.ne'⟩)).mpr ⟨hlo,by omega⟩
    omega

theorem exponentBias_eq : F.k.exponentBias = 2^(F.exponentBits - 1) - 1 := rfl

theorem exponentBias_lt : F.k.exponentBias < 2^30 := by
  have h := F.exponentBits_bounds
  have hlt : 2^(F.exponentBits - 1) < 2^30 := Nat.pow_lt_pow_right (by decide) (by omega)
  rw [exponentBias_eq]
  omega

/-- The exponents that reach the last part of the routine are far from wrapping around. -/
theorem le_productExponent {a b : F.Rep} {ea eb : ℤ} {sa sb : F.Rep} (ha : Operand F a ea sa)
    (hb : Operand F b eb sb) : -2^31 ≤ ea + eb - F.k.exponentBias := by
  have hea := ha.le_exponent
  have heb := hb.le_exponent
  have hbias := exponentBias_lt (F := F)
  have h1 := F.exponentBits_ge
  have h2 := F.typeWidth_le
  omega

end Results

/-- In double precision the early return keeps every amount in range. -/
theorem muldf3_isSome (c : Double.RepClz) (a b : BitVec 64) : (muldf3 .strict c a b).isSome = true := by
  unfold muldf3 mul
  rw [macros_eq, Option.bind_eq_bind, Option.bind_some]
  rcases operands_cases .strict (double c) a b with ⟨r,-,he⟩ | ⟨ea,eb,sa,sb,e,ha,hb,rfl,he⟩
  · rw [he]
    rfl
  · obtain ⟨hi,lo,hp⟩ := product_eq .strict (double c) ha.significand_lt hb.significand_lt
      (ea + eb - (double c).k.exponentBias)
    have hle := le_productExponent ha hb
    rw [he]
    refine isSome_bind_iff.mpr ⟨_,rfl,isSome_bind_iff.mpr ⟨_,hp,finishDouble_isSome (double c) ?_⟩⟩
    split_ifs <;> omega

/-- Without the early return a product that underflows by the width of the type is shifted by that width. -/
theorem mul_finishSingle_isSome {F : Format} (a b : F.Rep) {n : ℕ} (hn : n ≠ 0)
    (hF : (n : ℤ) = F.k.exponentBias + 2 * F.significandBits - 1 - F.typeWidth)
    (hsmall : n + 1 ≤ F.significandBits + (2^F.exponentBits - 2)) :
    (mul .strict F (finishSingle .strict F) a b).isSome = true ↔
      ¬ (2^n ≤ mag F a * mag F b ∧ mag F a * mag F b < 2^(n + 1)) := by
  unfold mul
  rw [macros_eq, Option.bind_eq_bind, Option.bind_some]
  rcases operands_cases .strict F a b with ⟨r,hr,he⟩ | ⟨ea,eb,sa,sb,e,ha,hb,rfl,he⟩
  · rw [he]
    refine iff_of_true rfl ?_
    rcases special_eq_some F hr with (h0 | h0) | ⟨ha,hb,hinf⟩
    · simp [h0]
    · simp [h0]
    · have ha := (mag_pos_iff F a).mpr ha
      have hb := (mag_pos_iff F b).mpr hb
      have hbig : 2^(n + 1) ≤ mag F a * mag F b := by
        rcases hinf with h | h
        · exact (Nat.pow_le_pow_right (by decide) hsmall).trans
            ((le_mag_of_infRep_le h).trans (Nat.le_mul_of_pos_right _ hb))
        · exact (Nat.pow_le_pow_right (by decide) hsmall).trans
            ((le_mag_of_infRep_le h).trans (Nat.le_mul_of_pos_left _ ha))
      exact fun h => (h.2.trans_le hbig).false
  · obtain ⟨hi,lo,hp⟩ := product_eq .strict F ha.significand_lt hb.significand_lt (ea + eb - F.k.exponentBias)
    have hle := le_productExponent ha hb
    have hlog := log_mag_mul ha hb
    rw [he, ← Nat.log_eq_iff (Or.inl hn), Option.bind_eq_bind, Option.bind_some]
    dsimp only
    rw [hp, Option.bind_eq_bind, Option.bind_some, finishSingle_isSome F (by split_ifs <;> omega)]
    split_ifs at hlog ⊢ <;> omega

theorem mulsf3_isSome (a b : BitVec 32) : (mulsf3 .strict a b).isSome = true ↔
    ¬ (2^140 ≤ mag single a * mag single b ∧ mag single a * mag single b < 2^141) :=
  mul_finishSingle_isSome (F := single) a b (n := 140) (by decide) (by rfl) (by decide)

end CompilerRt.FpMul
