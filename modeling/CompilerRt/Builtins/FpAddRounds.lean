import CompilerRt.Builtins.FpAdd
import CompilerRt.Builtins.FpRounds

/-! # Soft-float addition rounds once

Three digits below the significand, the last of them sticky, are enough for every alignment: a left shift by two places
or more happens only where the alignment has lost nothing.
-/
namespace CompilerRt.FpAdd
open CShift FpLib

/-! ## The steps of the routine -/

section Steps
variable (F : Format) (t : ShiftTarget)

/-- Magnitudes are ordered as the bits below the sign are. -/
theorem mag_le_mag {a b : F.Rep} (h : ¬ a &&& F.k.absMask < b &&& F.k.absMask) : mag F b ≤ mag F a := by
  rw [BitVec.lt_def, Format.toNat_abs, Format.toNat_abs, Nat.not_lt] at h
  rw [Format.mag_eq, Format.mag_eq]
  exact F.binary.mag_strictMono.monotone h

theorem unpack_eq {x : F.Rep} (h : x &&& F.k.absMask ≠ 0) :
    ∃ e s, unpack t F F.k x = some (e, s) ∧ Operand F x e (s ||| F.k.implicitBit) := by
  rw [unpack, exponentField_eq, Option.bind_eq_bind, Option.bind_some]
  by_cases h0 : expo F x = 0
  · obtain ⟨e,s,he,ho,-⟩ := operand_of_denormal t F h0 h
    exact ⟨e,s,by rw [if_pos h0, he],ho⟩
  · exact ⟨expo F x,_,by rw [if_neg h0]; rfl,operand_of_normal F h0⟩

theorem widen_eq {s : F.Rep} (h : (s ||| F.k.implicitBit).toNat < 2 ^ (F.significandBits + 1)) :
    ∃ v, widen t F F.k s = some v ∧ v.toNat = 8 * (s ||| F.k.implicitBit).toNat := by
  have hw := F.exponentBits_ge
  refine ⟨_,shl_natCast t _ (show 3 < F.typeWidth by omega),?_⟩
  have hlt := F.two_pow_lt (n := F.significandBits + 1 + 3) (by omega)
  rw [pow_add] at hlt
  rw [BitMask.toNat_shiftLeft_of_lt (by omega), Nat.mul_comm]
  rfl

/-- Alignment is a sticky shift, for every amount. -/
theorem alignSignificand_eq {s : F.Rep} (h0 : s ≠ 0) (align : ℕ) :
    ∃ v, alignSignificand t F s align = some v ∧ v.toNat = stickyShift s.toNat align := by
  have hw := F.width_pos
  unfold alignSignificand
  split_ifs with hne hlt
  · have hl : InRange F.typeWidth (F.typeWidth - align : ℤ) := ⟨by omega,by omega⟩
    have hcount : (F.typeWidth - align : ℤ).toNat = F.typeWidth - align := by omega
    rw [shl_of_inRange t s hl, shr_natCast t s hlt, hcount]
    exact ⟨_,rfl,toNat_shiftRight_or_sticky hw s hlt.le⟩
  · have hs0 : s.toNat ≠ 0 := fun h => h0 (BitVec.eq_of_toNat_eq h)
    have hs : s.toNat < 2 ^ align := s.isLt.trans_le (Nat.pow_le_pow_right (by decide) (Nat.not_lt.mp hlt))
    refine ⟨1,rfl,?_⟩
    rw [stickyShift_of_lt hs0 hs]
    exact Nat.mod_eq_of_lt (Nat.one_lt_two_pow hw.ne')
  · rw [not_not] at hne
    rw [hne, stickyShift_zero]
    exact ⟨s,rfl,rfl⟩

theorem toNat_implicitBit_shiftLeft {n : ℕ} (h : F.significandBits + n < F.typeWidth) :
    (F.k.implicitBit <<< n).toNat = 2 ^ (F.significandBits + n) := by
  have hlt := F.two_pow_lt h
  rw [pow_add] at hlt
  rw [BitMask.toNat_shiftLeft_of_lt (by rwa [F.toNat_implicitBit]), F.toNat_implicitBit, pow_add]

/-- The left shift puts the first digit in its place. -/
theorem renormalize_eq {s : F.Rep} (h0 : s ≠ 0) (hlt : s.toNat < 2 ^ (F.significandBits + 4)) (e : ℤ) :
    ∃ (l : ℕ) (v : F.Rep), renormalize t F F.k s e = some (e - l, v) ∧ v.toNat = s.toNat * 2 ^ l ∧
      2 ^ (F.significandBits + 3) ≤ v.toNat ∧ v.toNat < 2 ^ (F.significandBits + 4) := by
  have hw := F.exponentBits_ge
  have htop := toNat_implicitBit_shiftLeft F (n := 3) (by omega)
  have htop0 : F.k.implicitBit <<< 3 ≠ 0 := by
    intro h
    have hz := congrArg BitVec.toNat h
    rw [htop] at hz
    exact (Nat.two_pow_pos _).ne' hz
  have h0' : s.toNat ≠ 0 := fun h => h0 (BitVec.eq_of_toNat_eq h)
  rw [renormalize, shl_natCast t _ (show 3 < F.typeWidth by omega), Option.bind_eq_bind, Option.bind_some]
  split_ifs with hless
  · rw [BitVec.lt_def, htop] at hless
    have hlog : Nat.log 2 s.toNat < F.significandBits + 3 := Nat.log_lt_of_lt_pow h0' hless
    obtain ⟨hlo,hhi⟩ := BinaryFormat.normalized_bounds (p := F.significandBits + 3) hlog.le
      (Nat.pow_log_le_self 2 h0') (Nat.lt_pow_succ_log_self (by decide) s.toNat)
    obtain ⟨l,hl⟩ : ∃ l, l = F.significandBits + 3 - Nat.log 2 s.toNat := ⟨_,rfl⟩
    have hcount : (builtin_clz s : ℤ) - (builtin_clz (F.k.implicitBit <<< 3) : ℕ) = l := by
      unfold builtin_clz
      rw [htop, Nat.log_pow (by decide)]
      omega
    have hshift : (s <<< l).toNat = s.toNat * 2 ^ l := by
      have hfit := F.two_pow_lt (n := F.significandBits + 3 + 1) (by omega)
      rw [hl]
      exact BitMask.toNat_shiftLeft_of_lt (hhi.trans hfit)
    rw [F.rep_clz_eq t _ h0, F.rep_clz_eq t _ htop0, Option.bind_eq_bind, Option.bind_some, Option.bind_some]
    dsimp only
    rw [hcount, shl_natCast t s (by omega)]
    rw [← hl, ← hshift] at hlo hhi
    exact ⟨l,_,rfl,hshift,hlo,hhi⟩
  · rw [BitVec.lt_def, htop, Nat.not_lt] at hless
    exact ⟨0,s,by rw [Nat.cast_zero, sub_zero]; rfl,by rw [pow_zero, Nat.mul_one],hless,hlt⟩

/-- The right shift by one place is sticky too. -/
theorem absorbCarry_eq {s : F.Rep} (hlo : 2 ^ (F.significandBits + 3) ≤ s.toNat)
    (hhi : s.toNat < 2 ^ (F.significandBits + 5)) (e : ℤ) :
    ∃ (c : ℕ) (v : F.Rep), absorbCarry t F F.k s e = some (e + c, v) ∧ (c = 0 ∧ v = s ∨ c = 1 ∧ v.toNat = stickyShift s.toNat 1) ∧
      2 ^ (F.significandBits + 3) ≤ v.toNat ∧ v.toNat < 2 ^ (F.significandBits + 4) := by
  have hw := F.exponentBits_ge
  have hcarry := toNat_implicitBit_shiftLeft F (n := 4) (by omega)
  have hbit : s &&& F.k.implicitBit <<< 4 ≠ 0 ↔ 2 ^ (F.significandBits + 4) ≤ s.toNat := by
    rw [Ne, ← BitVec.toNat_inj, BitVec.toNat_and, hcarry, ← and_two_pow_ne_zero_iff hhi]
    rfl
  have h4 : 2 ^ (F.significandBits + 4) = 2 ^ (F.significandBits + 3) * 2 := pow_succ _ _
  have h5 : 2 ^ (F.significandBits + 5) = 2 ^ (F.significandBits + 4) * 2 := pow_succ _ _
  rw [absorbCarry, shl_natCast t _ (show 4 < F.typeWidth by omega), Option.bind_eq_bind, Option.bind_some]
  simp only [hbit]
  split_ifs with hge
  · have hlow : (s &&& 1).toNat = s.toNat % 2 ^ 1 := BitMask.toNat_and_low s (k := 1) F.width_pos
    have hshift : (s >>> 1 ||| ofBool F.typeWidth (s &&& 1 != 0)).toNat = stickyShift s.toNat 1 := by
      rw [toNat_or_ofBool F.width_pos, bne_zero, hlow, BitVec.toNat_ushiftRight, Nat.shiftRight_eq_div_pow, stickyShift]
      simp only [decide_eq_true_eq, ne_eq, ite_not]
    have hbounds : 2 ^ (F.significandBits + 3) ≤ stickyShift s.toNat 1 ∧ stickyShift s.toNat 1 < 2 ^ (F.significandBits + 4) := by
      have hpos := Nat.two_pow_pos F.significandBits
      have h3 : 2 ^ (F.significandBits + 3) = 2 ^ F.significandBits * 8 := pow_add _ _ _
      rw [stickyShift, pow_one]
      constructor <;> split_ifs <;> omega
    rw [← hshift] at hbounds
    refine ⟨1,_,?_,.inr ⟨rfl,hshift⟩,hbounds⟩
    have hshr : shr t s ((1 : ℕ) : ℤ) = some (s >>> 1) := shr_natCast t s (by omega)
    rw [hshr]
    rfl
  · exact ⟨0,s,by rw [Nat.cast_zero, add_zero]; rfl,.inl ⟨rfl,rfl⟩,hlo,Nat.lt_of_not_le hge⟩

end Steps

/-! ## The rounding -/

section Round
variable (t : ShiftTarget) {F : Format} {sign x v : F.Rep} {s : Bool} {e : ℤ} {q : ℚ}

/-- The three digits below the fields decide. -/
theorem roundGuardSticky_eq (hsign : sign.toNat = s.toNat * 2 ^ (F.typeWidth - 1)) {c : ℕ} (hx : x.toNat = c + v.toNat / 2 ^ 3)
    (hc : c % 2 = 0) (hlt : x.toNat + 1 < 2 ^ (F.typeWidth - 1)) :
    (let result := x ||| sign
     let result := if 0x4 < v &&& 0x7 then result + 1 else result
     if v &&& 0x7 = 0x4 then result + (result &&& 1) else result).toNat =
      s.toNat * 2 ^ (F.typeWidth - 1) + (c + roundDiv v.toNat (2 ^ 3)) := by
  have hge := F.exponentBits_ge
  have htwo := F.two_pow_width
  have hbool := s.toNat_lt
  have hone : (1 : F.Rep).toNat = 1 := Nat.mod_eq_of_lt (Nat.one_lt_two_pow F.width_pos.ne')
  have hfour : (0x4 : F.Rep).toNat = 4 := toNat_ofNat_lt (F.two_pow_lt (n := 2) (by omega))
  have hlow : (v &&& 0x7).toNat = v.toNat % 2 ^ 3 := BitMask.toNat_and_low v (k := 3) (by omega)
  have hor : (x ||| sign).toNat = s.toNat * 2 ^ (F.typeWidth - 1) + x.toNat := Format.toNat_or_sign hsign (by omega)
  have hle : s.toNat * 2 ^ (F.typeWidth - 1) ≤ 1 * 2 ^ (F.typeWidth - 1) := Nat.mul_le_mul_right _ (by omega)
  have heven : s.toNat * 2 ^ (F.typeWidth - 1) % 2 = 0 := by
    have hsplit : 2 ^ (F.typeWidth - 1) = 2 ^ (F.typeWidth - 2) * 2 := by rw [← pow_succ]; congr 1; omega
    rw [hsplit, ← Nat.mul_assoc, Nat.mul_mod_left]
  have hparity : ((x ||| sign) &&& 1).toNat = v.toNat / 2 ^ 3 % 2 := by
    have hmask : ((x ||| sign) &&& 1).toNat = (x ||| sign).toNat % 2 ^ 1 :=
      BitMask.toNat_and_low (x ||| sign) (k := 1) F.width_pos
    rw [hmask, hor, hx]
    omega
  dsimp only
  rw [roundDiv_eq]
  by_cases hmore : 0x4 < v &&& 0x7
  · have hlt' := BitVec.lt_def.mp hmore
    have hne : ¬v &&& 0x7 = 0x4 := by
      intro h
      rw [h] at hlt'
      exact lt_irrefl _ hlt'
    rw [hfour, hlow] at hlt'
    rw [if_pos hmore, if_neg hne, if_pos (by omega), BitVec.toNat_add, hor, hone, Nat.mod_eq_of_lt (by omega)]
    omega
  rw [if_neg hmore]
  have hle' := BitVec.le_def.mp (BitVec.not_lt.mp hmore)
  by_cases htie : v &&& 0x7 = 0x4
  · have heq := congrArg BitVec.toNat htie
    rw [hfour, hlow] at heq
    rw [if_pos htie, BitVec.toNat_add, hor, hparity, Nat.mod_eq_of_lt (by omega)]
    split_ifs <;> omega
  · have hne : (v &&& 0x7).toNat ≠ (0x4 : F.Rep).toNat := fun h => htie (BitVec.eq_of_toNat_eq h)
    rw [hfour, hlow] at hne hle'
    rw [if_neg htie, if_neg (by omega), hor]
    omega

/-- A significand over three guard digits, for the exact magnitude `q`. -/
structure Guarded (v : F.Rep) (e : ℤ) (q : ℚ) : Prop where
  le : 2 ^ (F.significandBits + 3) ≤ v.toNat
  lt : v.toNat < 2 ^ (F.significandBits + 4)
  value : ∃ n k, RoundsAs 3 n k v.toNat ∧ q = (n : ℚ) / 2 ^ (k + 3) * 2 ^ (e - 1 + F.binary.emin)

theorem Guarded.div_bounds (h : Guarded v e q) :
    2 ^ F.significandBits ≤ v.toNat / 2 ^ 3 ∧ v.toNat / 2 ^ 3 < 2 ^ (F.significandBits + 1) := by
  have hlo := h.le
  have hhi := h.lt
  rw [pow_add] at hlo hhi
  rw [pow_add]
  omega

theorem denormalize_eq (v : F.Rep) (he : e ≤ 0) (he' : 2 - (F.typeWidth : ℤ) ≤ e) :
    ∃ u, denormalize t F v e = some (0, u) ∧ u.toNat = stickyShift v.toNat (1 - e).toNat := by
  obtain ⟨n,hn⟩ : ∃ n : ℕ, (n : ℤ) = 1 - e := ⟨(1 - e).toNat,by omega⟩
  have hcount : (F.typeWidth : ℤ) - n = (F.typeWidth - n : ℕ) := by omega
  rw [denormalize, if_pos he]
  dsimp only
  rw [← hn, hcount, shl_natCast t v (by omega), shr_natCast t v (by omega)]
  exact ⟨_,rfl,toNat_shiftRight_or_sticky F.width_pos v (by omega)⟩

theorem round_finished (hsign : sign.toNat = s.toNat * 2 ^ (F.typeWidth - 1)) (h : Guarded v e q)
    (he : 2 - (F.typeWidth : ℤ) ≤ e) : ∃ r, round t F F.k sign v e = some r ∧ Finished s q r := by
  have hge := F.exponentBits_ge
  have hinf := F.inf_lt
  have h3 : ∀ u : F.Rep, shr t u (3 : ℕ) = some (u >>> 3) := fun u => shr_natCast t u (by omega)
  have hdiv : ∀ u : F.Rep, (u >>> 3).toNat = u.toNat / 2 ^ 3 := fun u => by
    rw [BitVec.toNat_ushiftRight, Nat.shiftRight_eq_div_pow]
  obtain ⟨hlo,hhi⟩ := h.div_bounds
  obtain ⟨n,k,hround,hq⟩ := h.value
  unfold round
  by_cases hover : (F.k.maxExponent : ℤ) ≤ e
  · rw [if_pos hover]
    exact ⟨_,rfl,finished_overflow hsign (Format.cast_two_pow_le_div (by rwa [← hround.div])) hover hq⟩
  rw [if_neg hover]
  rw [maxExponent_eq] at hover
  by_cases hden : e ≤ 0
  · -- the fields are those of a denormal number
    obtain ⟨u,hu,hval⟩ := denormalize_eq t v hden he
    have hsmall : u.toNat / 2 ^ 3 < 2 ^ F.significandBits := by
      have hle : 2 ^ 1 ≤ 2 ^ (1 - e).toNat := Nat.pow_le_pow_right (by decide) (by omega)
      have hhalf : v.toNat / 2 ^ 3 / 2 ^ (1 - e).toNat ≤ v.toNat / 2 ^ 3 / 2 ^ 1 := Nat.div_le_div_left hle (by decide)
      have hsticky : stickyShift v.toNat (1 - e).toNat / (2 * 4) = v.toNat / 2 ^ (1 - e).toNat / (2 * 4) := stickyShift_div _ _
      rw [hval]
      rw [Nat.div_div_eq_div_mul, Nat.mul_comm, ← Nat.div_div_eq_div_mul] at hhalf
      rw [pow_succ] at hhi
      omega
    have hfields : ((u >>> 3 &&& F.k.significandMask) ||| BitVec.ofInt F.typeWidth 0 <<< F.significandBits).toNat =
        u.toNat / 2 ^ 3 := by
      have hzero : BitVec.ofInt F.typeWidth 0 <<< F.significandBits = 0#F.typeWidth := by simp
      rw [hzero, BitVec.or_zero, toNat_and_significandMask, frac, hdiv, Nat.mod_eq_of_lt hsmall]
    have hshl := shl_natCast t (BitVec.ofInt F.typeWidth 0) (n := F.significandBits) (by omega)
    simp only [hu, h3, hshl, Option.pure_def, Option.bind_eq_bind, Option.bind_some]
    refine ⟨_,rfl,.of_toNat (roundGuardSticky_eq hsign (c := 0) (by rw [hfields, Nat.zero_add]) rfl ?_) ?_⟩
    · have hle : 2 ^ F.significandBits < 2 ^ (F.typeWidth - 1) := Nat.pow_lt_pow_right (by decide) (by omega)
      rw [hfields]
      omega
    · rw [Nat.zero_add, hval, roundDiv_stickyShift _ _ (by decide), hround.round _ (by omega), Nat.add_left_comm]
      exact Format.nearest_denormal (by rwa [← hround.div]) hden hq
  · -- the implicit bit goes into the exponent
    have hlo' : 2 ^ F.significandBits ≤ (v >>> 3).toNat := by rwa [hdiv]
    obtain ⟨y,hy,hfields,hbound⟩ := insertExponent_eq t hlo' (by rwa [hdiv]) (e := e) (by omega) (by omega)
    have hnormal : denormalize t F v e = some (e, v) := if_neg hden
    simp only [hnormal, h3, hy, Option.pure_def, Option.bind_eq_bind, Option.bind_some]
    refine ⟨_,rfl,.of_toNat (roundGuardSticky_eq hsign (c := (e.toNat - 1) * 2 ^ F.significandBits) (by rw [hfields, hdiv]) ?_ ?_) ?_⟩
    · rw [Nat.mul_mod, two_pow_significandBits_mod_two, Nat.mul_zero, Nat.zero_mod]
    · rw [hfields]
      omega
    · rw [hround.round 3 le_rfl]
      exact Format.nearest_normal (by rwa [← hround.div]) (by rwa [← hround.div]) (by omega) (by omega) hq

end Round

/-! ## The exact sum -/

section Exact
variable {F : Format} {a b A B v : F.Rep} {ea eb : ℤ} {sa sb : F.Rep} {align : ℕ}

/-- Both magnitudes over one power of two. -/
theorem abs_rat_aligned (ha : Operand F a ea sa) (hb : Operand F b eb sb) (hA : A.toNat = 8 * sa.toNat)
    (hB : B.toNat = 8 * sb.toNat) (halign : (align : ℤ) = ea - eb) :
    |F.rat a| = ((A.toNat * 2 ^ align : ℕ) : ℚ) / 2 ^ (align + 3) * 2 ^ (ea - 1 + F.binary.emin) ∧
      |F.rat b| = (B.toNat : ℚ) / 2 ^ (align + 3) * 2 ^ (ea - 1 + F.binary.emin) := by
  have hpow : (2 : ℚ) ^ (align + 3) = 2 ^ align * 8 := by rw [pow_add]; norm_num
  have hpos : (2 : ℚ) ^ align ≠ 0 := by positivity
  rw [Format.abs_rat_of_operand ha, Format.abs_rat_of_operand hb, hA, hB, hpow]
  push_cast
  constructor
  · field_simp
  · have hexp : ea - 1 + F.binary.emin = (align : ℤ) + (eb - 1 + F.binary.emin) := by omega
    rw [hexp, zpow_add₀ (by norm_num) (align : ℤ), zpow_natCast]
    field_simp

theorem le_of_abs_rat_le (ha : Operand F a ea sa) (hb : Operand F b eb sb) (hA : A.toNat = 8 * sa.toNat)
    (hB : B.toNat = 8 * sb.toNat) (halign : (align : ℤ) = ea - eb) :
    |F.rat b| ≤ |F.rat a| ↔ B.toNat ≤ A.toNat * 2 ^ align := by
  obtain ⟨hra,hrb⟩ := abs_rat_aligned ha hb hA hB halign
  have hden : (0 : ℚ) < 2 ^ (align + 3) := by positivity
  rw [hra, hrb, mul_le_mul_iff_of_pos_right (by positivity), div_le_div_iff_of_pos_right hden]
  exact Nat.cast_le

/-- The sum of magnitudes before the carry is absorbed. -/
theorem guarded_add (ha : Operand F a ea sa) (hb : Operand F b eb sb) (hA : A.toNat = 8 * sa.toNat)
    (hB : B.toNat = 8 * sb.toNat) (halign : (align : ℤ) = ea - eb) {c : ℕ} {S : F.Rep}
    (hS : S.toNat = A.toNat + stickyShift B.toNat align) (hv : c = 0 ∧ v = S ∨ c = 1 ∧ v.toNat = stickyShift S.toNat 1)
    (hlo : 2 ^ (F.significandBits + 3) ≤ v.toNat) (hhi : v.toNat < 2 ^ (F.significandBits + 4)) :
    Guarded v (ea + c) (|F.rat a| + |F.rat b|) := by
  obtain ⟨hra,hrb⟩ := abs_rat_aligned ha hb hA hB halign
  have hsticky : S.toNat = stickyShift (A.toNat * 2 ^ align + B.toNat) align := by
    rw [hS, add_stickyShift _ _ (by omega)]
  have hsum : |F.rat a| + |F.rat b| =
      ((A.toNat * 2 ^ align + B.toNat : ℕ) : ℚ) / 2 ^ (align + 3) * 2 ^ (ea - 1 + F.binary.emin) := by
    rw [hra, hrb, ← add_mul, ← add_div]
    push_cast
    rfl
  refine ⟨hlo,hhi,A.toNat * 2 ^ align + B.toNat,align + c,?_,?_⟩
  · have hround := RoundsAs.sticky (p := 3) (A.toNat * 2 ^ align + B.toNat) align (by decide)
    rw [← hsticky] at hround
    rcases hv with ⟨rfl,rfl⟩ | ⟨rfl,hv⟩
    · exact hround
    · rw [hv]
      exact hround.sticky_one (by decide)
  · have hexp : ea + c - 1 + F.binary.emin = c + (ea - 1 + F.binary.emin) := by ring
    have hpow : align + c + 3 = align + 3 + c := by omega
    have hpos : (2 : ℚ) ^ c ≠ 0 := by positivity
    rw [hsum, hexp, hpow, zpow_add₀ (by norm_num) (c : ℤ), zpow_natCast, pow_add 2 (align + 3)]
    field_simp

/-- Where a digit is lost in the alignment, at most one place is cancelled. -/
theorem roundsAs_sub (ha : Operand F a ea sa) (hb : Operand F b eb sb) (hA : A.toNat = 8 * sa.toNat)
    (hB : B.toNat = 8 * sb.toNat) (hle : B.toNat ≤ A.toNat * 2 ^ align) {l : ℕ}
    (hhi : (A.toNat - stickyShift B.toNat align) * 2 ^ l < 2 ^ (F.significandBits + 4)) :
    RoundsAs 3 ((A.toNat * 2 ^ align - B.toNat) * 2 ^ l) align ((A.toNat - stickyShift B.toNat align) * 2 ^ l) := by
  have hsticky := sub_stickyShift (by omega) hle
  rcases Nat.lt_or_ge align 4 with hnear | hfar
  · -- the alignment is exact
    obtain ⟨d,hd⟩ : ∃ d, B.toNat = d * 2 ^ align := by
      refine ⟨sb.toNat * 2 ^ (3 - align),?_⟩
      rw [hB, Nat.mul_assoc, ← pow_add, Nat.sub_add_cancel (by omega), Nat.mul_comm]
      rfl
    rw [hd, stickyShift_mul, ← Nat.sub_mul, Nat.mul_right_comm]
    exact RoundsAs.exact _ align
  · have hone : l ≤ 1 := by
      by_contra hl
      have hfour : 2 ^ 2 ≤ 2 ^ l := Nat.pow_le_pow_right (by decide) (by omega)
      have hbig : 2 ^ F.significandBits * 4 * 2 ^ align ≤ A.toNat * 2 ^ align - B.toNat := by
        have hsa := Nat.mul_le_mul_right (2 ^ align) ha.le_significand
        have hsb := hb.significand_lt
        have h16 : 2 ^ F.significandBits * 2 ^ 4 ≤ 2 ^ F.significandBits * 2 ^ align :=
          Nat.mul_le_mul_left _ (Nat.pow_le_pow_right (by decide) hfar)
        have hexpand : A.toNat * 2 ^ align = 8 * (sa.toNat * 2 ^ align) := by rw [hA, Nat.mul_assoc]
        rw [pow_succ] at hsb
        rw [hexpand, hB, Nat.mul_right_comm]
        omega
      have hquot := (Nat.le_div_iff_mul_le (Nat.two_pow_pos align)).mpr hbig
      have hless := Nat.mul_le_mul (hquot.trans (div_le_stickyShift _ _)) hfour
      rw [← hsticky] at hless
      rw [pow_add] at hhi
      omega
    rw [hsticky]
    rcases Nat.le_one_iff_eq_zero_or_eq_one.mp hone with rfl | rfl
    · rw [pow_zero, Nat.mul_one, Nat.mul_one]
      exact RoundsAs.sticky _ _ (by decide)
    · rw [pow_one]
      exact RoundsAs.double _ _ (by decide)

/-- The difference of magnitudes after the cancellation. -/
theorem guarded_sub (ha : Operand F a ea sa) (hb : Operand F b eb sb) (hA : A.toNat = 8 * sa.toNat)
    (hB : B.toNat = 8 * sb.toNat) (halign : (align : ℤ) = ea - eb) (hle : B.toNat ≤ A.toNat * 2 ^ align) {l : ℕ}
    (hv : v.toNat = (A.toNat - stickyShift B.toNat align) * 2 ^ l)
    (hlo : 2 ^ (F.significandBits + 3) ≤ v.toNat) (hhi : v.toNat < 2 ^ (F.significandBits + 4)) :
    Guarded v (ea - l) (|F.rat a| - |F.rat b|) := by
  obtain ⟨hra,hrb⟩ := abs_rat_aligned ha hb hA hB halign
  refine ⟨hlo,hhi,(A.toNat * 2 ^ align - B.toNat) * 2 ^ l,align,?_,?_⟩
  · rw [hv] at hhi ⊢
    exact roundsAs_sub ha hb hA hB hle hhi
  · have hexp : ea - 1 + F.binary.emin = l + (ea - l - 1 + F.binary.emin) := by ring
    rw [hra, hrb, hexp, zpow_add₀ (by norm_num) (l : ℤ), zpow_natCast, ← sub_mul, ← sub_div, Nat.cast_mul _ (2 ^ l),
      Nat.cast_sub hle, Nat.cast_pow 2 l, Nat.cast_ofNat]
    ring

/-- Nothing is left only where the magnitudes are equal. -/
theorem sub_stickyShift_eq_zero_iff (ha : Operand F a ea sa) (hb : Operand F b eb sb) (hA : A.toNat = 8 * sa.toNat)
    (hB : B.toNat = 8 * sb.toNat) (halign : (align : ℤ) = ea - eb) (hle : B.toNat ≤ A.toNat * 2 ^ align) :
    A.toNat - stickyShift B.toNat align = 0 ↔ |F.rat a| - |F.rat b| = 0 := by
  obtain ⟨hra,hrb⟩ := abs_rat_aligned ha hb hA hB halign
  have hunit : (0 : ℚ) < 2 ^ (ea - 1 + F.binary.emin) := by positivity
  have hden : (0 : ℚ) < 2 ^ (align + 3) := by positivity
  rw [sub_stickyShift (by omega) hle, stickyShift_eq_zero_iff, Nat.sub_eq_zero_iff_le, sub_eq_zero]
  constructor
  · intro hge
    rw [hra, hrb, le_antisymm hle hge]
  · intro heq
    have hge := heq.le
    rw [hra, hrb, mul_le_mul_iff_of_pos_right hunit, div_le_div_iff_of_pos_right hden, Nat.cast_le] at hge
    exact hge

/-- A multiple of the smallest denormal number needs no shift by the width of the type. -/
theorem Guarded.le_exponent {e : ℤ} {q : ℚ} (h : Guarded v e q) (hq : 2 ^ F.binary.emin ≤ q) : 2 - (F.typeWidth : ℤ) ≤ e := by
  have hge := F.exponentBits_ge
  obtain ⟨-,hhi⟩ := h.div_bounds
  obtain ⟨n,k,hround,hval⟩ := h.value
  rw [hround.div, Nat.div_lt_iff_lt_mul (Nat.two_pow_pos _)] at hhi
  have hn : (n : ℚ) / 2 ^ (k + 3) < 2 ^ (F.significandBits + 1) := by
    rw [div_lt_iff₀ (by positivity)]
    exact_mod_cast hhi
  have hlt : (2 : ℚ) ^ F.binary.emin < 2 ^ ((F.significandBits + 1 : ℕ) + (e - 1 + F.binary.emin)) := by
    rw [zpow_add₀ (by norm_num), zpow_natCast]
    calc (2 : ℚ) ^ F.binary.emin ≤ n / 2 ^ (k + 3) * 2 ^ (e - 1 + F.binary.emin) := hval ▸ hq
      _ < 2 ^ (F.significandBits + 1) * 2 ^ (e - 1 + F.binary.emin) := mul_lt_mul_of_pos_right hn (by positivity)
  have hexp := (zpow_lt_zpow_iff_right₀ (by norm_num)).mp hlt
  push_cast at hexp
  omega

/-! ## Signs -/

theorem abs_add_of_sign_eq (h : F.sign a = F.sign b) : |F.rat a + F.rat b| = |F.rat a| + |F.rat b| := by
  rw [Format.rat_eq a, Format.rat_eq b, h]
  have ha := abs_nonneg (F.rat a)
  have hb := abs_nonneg (F.rat b)
  split_ifs
  · rw [← neg_add, abs_neg, abs_of_nonneg (add_nonneg ha hb), abs_neg, abs_neg, abs_abs, abs_abs]
  · rw [abs_of_nonneg (add_nonneg ha hb), abs_abs, abs_abs]

theorem abs_add_of_sign_ne (h : F.sign a ≠ F.sign b) (hle : |F.rat b| ≤ |F.rat a|) :
    |F.rat a + F.rat b| = |F.rat a| - |F.rat b| := by
  have hsb : F.sign b = !F.sign a := by
    cases ha : F.sign a <;> cases hb : F.sign b <;> simp_all
  have hdiff := sub_nonneg.mpr hle
  rw [Format.rat_eq a, Format.rat_eq b, hsb]
  cases F.sign a
  · simp only [Bool.false_eq_true, if_false, Bool.not_false, if_true, ← sub_eq_add_neg, abs_neg, abs_abs]
    exact abs_of_nonneg hdiff
  · simp only [Bool.not_true, Bool.false_eq_true, if_false, if_true, abs_neg, abs_abs]
    rw [neg_add_eq_sub, abs_sub_comm, abs_of_nonneg hdiff]

/-- The larger magnitude has the sign of the sum. -/
theorem decide_add_neg (hle : |F.rat b| ≤ |F.rat a|) (h0 : F.rat a + F.rat b ≠ 0) :
    decide (F.rat a + F.rat b < 0) = F.sign a := by
  have hb := abs_le.mp hle
  have ha := Format.rat_eq a
  cases hs : F.sign a
  · rw [hs, if_neg Bool.false_ne_true] at ha
    exact decide_eq_false (not_lt.mpr (by linarith [hb.1]))
  · rw [hs, if_pos rfl] at ha
    exact decide_eq_true (lt_of_le_of_ne (by linarith [hb.2]) h0)

theorem emin_le_abs_add (h0 : F.rat a + F.rat b ≠ 0) : 2 ^ F.binary.emin ≤ |F.rat a + F.rat b| := by
  have hunit := F.binary.two_pow_emin_pos
  obtain ⟨x,hx⟩ := Format.exists_int a
  obtain ⟨y,hy⟩ := Format.exists_int b
  have hz : x + y ≠ 0 := by
    intro hz
    apply h0
    rw [hx, hy, ← add_mul, ← Int.cast_add, hz, Int.cast_zero, zero_mul]
  have hone : (1 : ℚ) ≤ |((x + y : ℤ) : ℚ)| := by exact_mod_cast Int.one_le_abs hz
  rw [hx, hy, ← add_mul, abs_mul, abs_of_pos hunit, ← Int.cast_add]
  exact le_mul_of_one_le_left hunit.le hone

end Exact

/-! ## The sum -/

section Sum
variable {t : ShiftTarget} {F : Format} {a b r : F.Rep}

/-- What IEEE 754 says of the sum. -/
structure IsSum (a b r : F.Rep) : Prop where
  nan_left : F.IsNaN a → F.IsQuieted a r
  nan_right : ¬F.IsNaN a → F.IsNaN b → F.IsQuieted b r
  invalid : F.IsInf a → F.IsInf b → F.sign a ≠ F.sign b → F.IsQuietNaN r
  infinite_left : F.IsInf a → ¬F.IsNaN b → (F.IsInf b → F.sign a = F.sign b) → r = a
  infinite_right : F.IsFinite a → F.IsInf b → r = b
  finite : F.IsFinite a → F.IsFinite b → F.IsRounded (F.rat a + F.rat b) (F.sign a && F.sign b) r
  small : F.IsFinite a → F.IsFinite b → |F.rat a + F.rat b| < 2 ^ F.significandBits * 2 ^ F.binary.emin →
    F.rat r = F.rat a + F.rat b

theorem isSum_of_finite (hfin : F.IsFinite a ∧ F.IsFinite b)
    (h : F.IsRounded (F.rat a + F.rat b) (F.sign a && F.sign b) r) : IsSum a b r := by
  obtain ⟨hna,hia⟩ := hfin.1.others
  obtain ⟨hnb,hib⟩ := hfin.2.others
  refine ⟨fun h => absurd h hna,fun _ h => absurd h hnb,fun h => absurd h hia,fun h => absurd h hia,
    fun _ h => absurd h hib,fun _ _ => h,fun _ _ hsmall => ?_⟩
  obtain ⟨x,hx⟩ := Format.exists_int a
  obtain ⟨y,hy⟩ := Format.exists_int b
  refine h.rat_eq_of_small (z := x + y) ?_ hsmall
  rw [hx, hy, ← add_mul, Int.cast_add]

/-- The sum of two numbers that are not zero; the larger magnitude is `a`. -/
theorem addFinite_eq (t : ShiftTarget) (ha : a &&& F.k.absMask ≠ 0) (hb : b &&& F.k.absMask ≠ 0)
    (hmag : mag F b ≤ mag F a) : ∃ r, addFinite t F F.k a b = some r ∧
      (F.rat a + F.rat b = 0 ∧ F.sign a ≠ F.sign b ∧ r = 0 ∨
        F.rat a + F.rat b ≠ 0 ∧ Finished (F.sign a) |F.rat a + F.rat b| r) := by
  have hw := F.exponentBits_ge
  obtain ⟨ea,sa,hua,hoa⟩ := unpack_eq F t ha
  obtain ⟨eb,sb,hub,hob⟩ := unpack_eq F t hb
  obtain ⟨A,hwa,hA⟩ := widen_eq F t hoa.significand_lt
  obtain ⟨B,hwb,hB⟩ := widen_eq F t hob.significand_lt
  have hB0 : B ≠ 0 := by
    have hle := hob.le_significand
    have hpos := Nat.two_pow_pos F.significandBits
    intro h
    rw [h] at hB
    change 0 = _ at hB
    omega
  -- the unsigned difference of the exponents
  obtain ⟨align,halign⟩ : ∃ n : ℕ, (n : ℤ) = ea - eb := ⟨(ea - eb).toNat,by have := hoa.exponent_le F hob hmag; omega⟩
  have hunsigned : ((ea - eb) % 2^32).toNat = align := by
    have hea := hoa.exponent_lt
    have heb := hob.le_exponent
    have hwidth := F.typeWidth_le
    have hexp : (2 : ℤ)^F.exponentBits ≤ 2^30 := by exact_mod_cast F.two_pow_exponentBits_le
    omega
  obtain ⟨B',hal,hB'⟩ := alignSignificand_eq F t hB0 align
  have hratle : |F.rat b| ≤ |F.rat a| := by
    rw [Format.abs_rat, Format.abs_rat]
    exact mul_le_mul_of_nonneg_right (Nat.cast_le.mpr hmag) F.binary.two_pow_emin_pos.le
  have hBA := (le_of_abs_rat_le hoa hob hA hB halign).mp hratle
  have hle := stickyShift_le (m := A.toNat) (by omega) hBA
  rw [← hB'] at hle
  have hAlo := hoa.le_significand
  have hAhi := hoa.significand_lt
  have hfit : 2 ^ (F.significandBits + 5) < 2 ^ F.typeWidth := F.two_pow_lt (by omega)
  rw [pow_succ] at hAhi
  have hlo : 2 ^ (F.significandBits + 3) ≤ A.toNat := by rw [pow_add]; omega
  have hhi : A.toNat < 2 ^ (F.significandBits + 4) := by rw [pow_add]; omega
  have hsum : (A + B').toNat = A.toNat + B'.toNat := by
    rw [pow_succ] at hfit
    rw [BitVec.toNat_add, Nat.mod_eq_of_lt (by omega)]
  have hsub : (A - B').toNat = A.toNat - B'.toNat := BitVec.toNat_sub_of_le (BitVec.le_def.mpr hle)
  have hsign := Format.toNat_sign a
  have hneq : (a ^^^ b) &&& F.k.signBit ≠ 0 ↔ F.sign a ≠ F.sign b := by
    rw [Ne, ← BitVec.toNat_inj, Format.toNat_sign, Format.sign_xor]
    change ¬_ = 0 ↔ _
    rw [Nat.mul_eq_zero, or_iff_left (Nat.two_pow_pos _).ne', Bool.toNat_eq_zero, Bool.not_eq_false, bne_iff_ne]
  simp only [addFinite, hua, hub, hwa, hwb, hunsigned, hal, hneq, Option.bind_eq_bind, Option.bind_some]
  by_cases hs : F.sign a = F.sign b
  · -- magnitudes are added
    rw [if_neg (not_not.mpr hs)]
    have habs := abs_add_of_sign_eq hs
    have h0 : F.rat a + F.rat b ≠ 0 := by
      have hpos := abs_pos.mpr (Format.rat_ne_zero (Nat.pos_of_ne_zero fun h => ha (Format.abs_eq_zero_iff.mpr h)))
      have hnonneg := abs_nonneg (F.rat b)
      rw [← abs_pos, habs]
      linarith
    obtain ⟨c,v,hcarry,hv,hvlo,hvhi⟩ := absorbCarry_eq F t (s := A + B') (by omega)
      (by rw [pow_succ]; omega) ea
    have hguard := guarded_add hoa hob hA hB halign (hsum.trans (by rw [hB'])) hv hvlo hvhi
    rw [← habs] at hguard
    obtain ⟨r,hr,hfin⟩ := round_finished t hsign hguard (hguard.le_exponent (emin_le_abs_add h0))
    rw [hcarry]
    exact ⟨r,hr,.inr ⟨h0,hfin⟩⟩
  · -- the smaller magnitude is taken from the larger one
    rw [if_pos hs]
    have habs := abs_add_of_sign_ne hs hratle
    have hzero : A - B' = 0 ↔ F.rat a + F.rat b = 0 := by
      rw [← BitVec.toNat_inj, hsub, hB', ← abs_eq_zero, habs]
      exact sub_stickyShift_eq_zero_iff hoa hob hA hB halign hBA
    by_cases hz : A - B' = 0
    · rw [if_pos hz]
      exact ⟨0,rfl,.inl ⟨hzero.mp hz,hs,rfl⟩⟩
    · have h0 := hzero.not.mp hz
      rw [if_neg hz]
      obtain ⟨l,v,hren,hv,hvlo,hvhi⟩ := renormalize_eq F t hz (by omega) ea
      have hguard := guarded_sub hoa hob hA hB halign hBA (by rw [hv, hsub, hB']) hvlo hvhi
      rw [← habs] at hguard
      obtain ⟨r,hr,hfin⟩ := round_finished t hsign hguard (hguard.le_exponent (emin_le_abs_add h0))
      rw [hren]
      exact ⟨r,hr,.inr ⟨h0,hfin⟩⟩

/-- Zero less one is the largest value, so the unsigned comparison catches zero as well. -/
theorem sub_one_le_sub_one_iff {w : ℕ} (hw : 0 < w) {x y : BitVec w} (hx : x ≠ 0) : x - 1 ≤ y - 1 ↔ y = 0 ∨ x ≤ y := by
  have hxlt := x.isLt
  have hylt := y.isLt
  have hone : (1 : BitVec w).toNat = 1 := Nat.mod_eq_of_lt (Nat.one_lt_two_pow hw.ne')
  have hx0 : x.toNat ≠ 0 := fun h => hx (BitVec.eq_of_toNat_eq h)
  have hy0 : y = 0 ↔ y.toNat = 0 := BitVec.toNat_inj.symm
  rw [BitVec.le_def, BitVec.le_def, BitVec.toNat_sub, BitVec.toNat_sub, hone, hy0]
  have hxs : (2 ^ w - 1 + x.toNat) % 2 ^ w = x.toNat - 1 := by
    have hwrap : 2 ^ w - 1 + x.toNat = 2 ^ w + (x.toNat - 1) := by omega
    rw [hwrap, Nat.add_mod_left, Nat.mod_eq_of_lt (by omega)]
  rcases Nat.eq_zero_or_pos y.toNat with h0 | hpos
  · rw [hxs, h0, Nat.add_zero, Nat.mod_eq_of_lt (by omega)]
    omega
  · have hwrap : 2 ^ w - 1 + y.toNat = 2 ^ w + (y.toNat - 1) := by omega
    rw [hxs, hwrap, Nat.add_mod_left, Nat.mod_eq_of_lt (by omega)]
    omega

theorem caught_iff (x : F.Rep) : F.k.infRep - 1 ≤ (x &&& F.k.absMask) - 1 ↔ F.abs x = 0 ∨ ¬F.IsFinite x := by
  have hinf : F.k.infRep ≠ 0 := by
    intro h
    have h0 := congrArg BitVec.toNat h
    rw [Format.toNat_infRep_eq] at h0
    exact F.inf_pos.ne' h0
  rw [sub_one_le_sub_one_iff F.width_pos hinf, Format.abs_eq_zero_iff, BitVec.le_def, Format.toNat_infRep_eq,
    Format.toNat_abs, Format.IsFinite, Nat.not_lt]

/-- What goes on to the addition is finite and not zero. -/
theorem special_eq_none (h : special F F.k a b = none) :
    (F.IsFinite a ∧ F.IsFinite b) ∧ a &&& F.k.absMask ≠ 0 ∧ b &&& F.k.absMask ≠ 0 := by
  simp only [special, caught_iff, Format.infRep_lt_iff, Format.eq_infRep_iff, Format.abs_eq_zero_iff] at h
  simp only [ne_eq, Format.abs_eq_zero_iff]
  split_ifs at h with hcaught hna hnb hia hnan hib ha0 hb0 hb0
  · exact ⟨⟨Format.isFinite_iff.mpr ⟨hna,hia⟩,Format.isFinite_iff.mpr ⟨hnb,hib⟩⟩,ha0,hb0⟩
  · simp only [not_or, not_not] at hcaught
    exact ⟨⟨hcaught.1.2,hcaught.2.2⟩,hcaught.1.1,hcaught.2.1⟩

theorem xor_eq_signBit_iff (ha : F.IsInf a) : a ^^^ b = F.k.signBit ↔ F.IsInf b ∧ F.sign a ≠ F.sign b := by
  have hsign := Format.sign_xor a b
  have habs : F.abs (a ^^^ b) = F.abs a ^^^ F.abs b := by
    have hxor : (a ^^^ b) &&& F.k.absMask = (a &&& F.k.absMask) ^^^ (b &&& F.k.absMask) := by
      ext i
      simp [Bool.and_xor_distrib_right]
    rw [← Format.toNat_abs, hxor, BitVec.toNat_xor, Format.toNat_abs, Format.toNat_abs]
  obtain ⟨hs,hm⟩ := Format.fields_of_toNat (F := F) (r := F.k.signBit) (s := true) (c := 0) (Nat.two_pow_pos _)
    (by rw [F.toNat_signBit, Bool.toNat_true, Nat.one_mul, Nat.add_zero])
  constructor
  · intro h
    rw [h] at habs hsign
    rw [hm, eq_comm, Nat.xor_eq_zero_iff] at habs
    rw [hs, eq_comm, bne_iff_ne] at hsign
    exact ⟨habs.symm.trans ha,hsign⟩
  · rintro ⟨hb,hne⟩
    have hzero : F.abs (a ^^^ b) = 0 := by
      rw [habs, ha.trans hb.symm, Nat.xor_self]
    have hxor : (F.sign a ^^ F.sign b) = true := bne_iff_ne.mpr hne
    apply BitVec.eq_of_toNat_eq
    rw [Format.toNat_eq, Format.toNat_eq F.k.signBit, hs, hm, hzero, hsign, hxor]

/-- An early return is right. -/
theorem special_isSum (h : special F F.k a b = some r) : IsSum a b r := by
  simp only [special, caught_iff, Format.infRep_lt_iff, Format.eq_infRep_iff, Format.abs_eq_zero_iff] at h
  split_ifs at h with hcaught hna hnb hia hopp hib ha0 hb0 hb0 <;> obtain rfl := Option.some.inj h
  · -- a is not a number
    have hq := Format.isQuietNaN_or_quietBit hna
    obtain ⟨hia,-,hfa⟩ := hna.others
    exact ⟨fun _ => ⟨hq,rfl⟩,fun h => absurd hna h,fun h => absurd h hia,fun h => absurd h hia,fun h => absurd h hfa,
      fun h => absurd h hfa,fun h => absurd h hfa⟩
  · -- b is not a number
    have hq := Format.isQuietNaN_or_quietBit hnb
    obtain ⟨hib,-,hfb⟩ := hnb.others
    exact ⟨fun h => absurd h hna,fun _ _ => ⟨hq,rfl⟩,fun _ h => absurd h hib,fun _ h => absurd hnb h,fun _ h => absurd h hib,
      fun _ h => absurd h hfb,fun _ h => absurd h hfb⟩
  · -- infinities of opposite signs
    obtain ⟨hib,hne⟩ := (xor_eq_signBit_iff hia).mp hopp
    obtain ⟨-,-,hfa⟩ := hia.others
    exact ⟨fun h => absurd h hna,fun _ h => absurd h hnb,fun _ _ _ => Format.isQuietNaN_qnanRep,
      fun _ _ h => absurd (h hib) hne,fun h => absurd h hfa,fun h => absurd h hfa,fun h => absurd h hfa⟩
  · -- infinity and what is not its opposite
    rw [xor_eq_signBit_iff hia] at hopp
    obtain ⟨-,-,hfa⟩ := hia.others
    exact ⟨fun h => absurd h hna,fun _ h => absurd h hnb,fun _ hib hne => absurd ⟨hib,hne⟩ hopp,fun _ _ _ => rfl,
      fun h => absurd h hfa,fun h => absurd h hfa,fun h => absurd h hfa⟩
  · obtain ⟨-,-,hfb⟩ := hib.others
    exact ⟨fun h => absurd h hna,fun _ h => absurd h hnb,fun h => absurd h hia,fun h => absurd h hia,fun _ _ => rfl,
      fun _ h => absurd h hfb,fun _ h => absurd h hfb⟩
  all_goals
    have hfin : F.IsFinite a ∧ F.IsFinite b := ⟨Format.isFinite_iff.mpr ⟨hna,hia⟩,Format.isFinite_iff.mpr ⟨hnb,hib⟩⟩
    refine isSum_of_finite hfin ?_
  · -- both are zero
    rw [Format.rat_of_zero ha0, Format.rat_of_zero hb0, add_zero]
    refine Format.isRounded_zero ?_ (Format.sign_and a b)
    have hand : (a &&& b) &&& F.k.absMask = a &&& (b &&& F.k.absMask) := BitVec.and_assoc _ _ _
    rw [← Format.abs_eq_zero_iff, hand, Format.abs_eq_zero_iff.mpr hb0]
    exact BitVec.and_zero
  · rw [Format.rat_of_zero ha0, zero_add]
    exact Format.isRounded_rat hfin.2 hb0
  · rw [Format.rat_of_zero hb0, add_zero]
    exact Format.isRounded_rat hfin.1 ha0

theorem isRounded_of_addFinite (h : F.rat a + F.rat b = 0 ∧ F.sign a ≠ F.sign b ∧ r = 0 ∨
    F.rat a + F.rat b ≠ 0 ∧ Finished (F.sign a) |F.rat a + F.rat b| r) (hmag : mag F b ≤ mag F a) :
    F.IsRounded (F.rat a + F.rat b) (F.sign a && F.sign b) r := by
  have hratle : |F.rat b| ≤ |F.rat a| := by
    rw [Format.abs_rat, Format.abs_rat]
    exact mul_le_mul_of_nonneg_right (Nat.cast_le.mpr hmag) F.binary.two_pow_emin_pos.le
  rcases h with ⟨h0,hs,rfl⟩ | ⟨h0,hfin⟩
  · obtain ⟨hsign,habs⟩ := Format.fields_of_toNat (F := F) (r := 0) (s := false) (c := 0) (Nat.two_pow_pos _)
      (by rw [Bool.toNat_false, Nat.zero_mul]; rfl)
    have hand : (F.sign a && F.sign b) = false := by
      cases ha : F.sign a <;> cases hb : F.sign b <;> simp_all
    rw [h0, hand]
    exact Format.isRounded_zero habs hsign
  · exact ⟨⟨hfin.nearest,fun _ => by rw [decide_add_neg hratle h0]; exact hfin.sign⟩,fun h => absurd h h0⟩

theorem add_isSum (t : ShiftTarget) (a b : F.Rep) : ∃ r, add t F a b = some r ∧ IsSum a b r := by
  unfold add
  rw [macros_eq, Option.bind_eq_bind, Option.bind_some]
  cases hs : special F F.k a b with
  | some r => exact ⟨r,rfl,special_isSum hs⟩
  | none =>
    obtain ⟨hfin,ha,hb⟩ := special_eq_none hs
    dsimp only
    split_ifs with hlt
    · have hmag := mag_le_mag F (BitVec.lt_asymm hlt)
      obtain ⟨r,hr,h⟩ := addFinite_eq t hb ha hmag
      have hround := isRounded_of_addFinite h hmag
      rw [add_comm, Bool.and_comm] at hround
      exact ⟨r,hr,isSum_of_finite hfin hround⟩
    · have hmag := mag_le_mag F hlt
      obtain ⟨r,hr,h⟩ := addFinite_eq t ha hb hmag
      exact ⟨r,hr,isSum_of_finite hfin (isRounded_of_addFinite h hmag)⟩

/-- No target changes a sum. -/
theorem add_isSome (t : ShiftTarget) (a b : F.Rep) : (add t F a b).isSome = true := by
  obtain ⟨r,hr,-⟩ := add_isSum t a b
  rw [hr]
  rfl

end Sum

/-! ## The difference -/

section Difference
variable {t : ShiftTarget} {F : Format} {a b r : F.Rep}

/-- What IEEE 754 says of the difference. -/
structure IsDifference (a b r : F.Rep) : Prop where
  nan_left : F.IsNaN a → F.IsQuieted a r
  nan_right : ¬F.IsNaN a → F.IsNaN b → F.IsQuieted b r
  invalid : F.IsInf a → F.IsInf b → F.sign a = F.sign b → F.IsQuietNaN r
  infinite_left : F.IsInf a → ¬F.IsNaN b → (F.IsInf b → F.sign a ≠ F.sign b) → r = a
  infinite_right : F.IsFinite a → F.IsInf b → F.IsInf r ∧ F.sign r = !F.sign b
  finite : F.IsFinite a → F.IsFinite b → F.IsRounded (F.rat a - F.rat b) (F.sign a && !F.sign b) r
  small : F.IsFinite a → F.IsFinite b → |F.rat a - F.rat b| < 2 ^ F.significandBits * 2 ^ F.binary.emin →
    F.rat r = F.rat a - F.rat b

theorem abs_xor_signBit (x : F.Rep) : F.abs (x ^^^ F.k.signBit) = F.abs x := by
  have hxor : (x ^^^ F.k.signBit) &&& F.k.absMask = (x &&& F.k.absMask) ^^^ (F.k.signBit &&& F.k.absMask) := by
    ext i
    simp [Bool.and_xor_distrib_right]
  have hzero : (F.k.signBit &&& F.k.absMask).toNat = 0 := by
    rw [toNat_and_absMask, F.toNat_signBit, Nat.mod_self]
  rw [← Format.toNat_abs, hxor, BitVec.toNat_xor, hzero, Nat.xor_zero, Format.toNat_abs]

theorem sign_xor_signBit (x : F.Rep) : F.sign (x ^^^ F.k.signBit) = !F.sign x := by
  have hbit : F.sign F.k.signBit = true := by
    rw [Format.sign_eq_getLsbD, Format.signBit_eq, BitVec.getLsbD_twoPow]
    simpa using F.width_pos
  rw [Format.sign_xor, hbit, Bool.xor_true]

theorem rat_xor_signBit (x : F.Rep) : F.rat (x ^^^ F.k.signBit) = -F.rat x := by
  rw [Format.rat, Format.rat, abs_xor_signBit, sign_xor_signBit, BinaryFormat.toRat, BinaryFormat.toRat]
  cases F.sign x <;> simp

/-- The quiet bit and the payload are below the sign. -/
theorem isQuieted_of_xor_signBit (h : F.IsQuieted (b ^^^ F.k.signBit) r) : F.IsQuieted b r := by
  refine ⟨h.1,h.2.trans ?_⟩
  have hor : b ^^^ F.k.signBit ||| F.k.quietBit = (b ||| F.k.quietBit) ^^^ F.k.signBit := by
    have hge := F.exponentBits_ge
    rw [Format.quietBit_eq, Format.signBit_eq]
    ext i
    simp only [BitVec.getElem_or, BitVec.getElem_xor, BitVec.getElem_twoPow]
    by_cases hi : i = F.significandBits - 1
    · have hne : ¬i = F.typeWidth - 1 := by omega
      simp [hi]
      omega
    · simp [hi]
  rw [hor, abs_xor_signBit]

theorem isDifference_of_isSum (h : IsSum a (b ^^^ F.k.signBit) r) : IsDifference a b r := by
  have hnan : F.IsNaN (b ^^^ F.k.signBit) ↔ F.IsNaN b := by rw [Format.IsNaN, abs_xor_signBit]; rfl
  have hinf : F.IsInf (b ^^^ F.k.signBit) ↔ F.IsInf b := by rw [Format.IsInf, abs_xor_signBit]; rfl
  have hfin : F.IsFinite (b ^^^ F.k.signBit) ↔ F.IsFinite b := by rw [Format.IsFinite, abs_xor_signBit]; rfl
  have hsign := sign_xor_signBit b
  have hopp : F.sign a ≠ (!F.sign b) ↔ F.sign a = F.sign b := by
    cases F.sign a <;> cases F.sign b <;> decide
  have hsub : F.rat a + F.rat (b ^^^ F.k.signBit) = F.rat a - F.rat b := by rw [rat_xor_signBit, sub_eq_add_neg]
  obtain ⟨h1,h2,h3,h4,h5,h6,h7⟩ := h
  simp only [hnan, hinf, hfin, hsub, hsign] at h2 h3 h4 h5 h6 h7
  constructor
  · exact h1
  · exact fun ha hb => isQuieted_of_xor_signBit (h2 ha hb)
  · exact fun ha hb hs => h3 ha hb (hopp.mpr hs)
  · exact fun ha hb hs => h4 ha hb fun hib => Bool.eq_not.mpr (hs hib)
  · intro ha hb
    rw [h5 ha hb]
    exact ⟨hinf.mpr hb,hsign⟩
  · exact h6
  · exact h7

theorem sub_isDifference (t : ShiftTarget) (a b : F.Rep) : ∃ r, sub t F a b = some r ∧ IsDifference a b r := by
  obtain ⟨r,hr,hsum⟩ := add_isSum t a (b ^^^ F.k.signBit)
  rw [sub, macros_eq, Option.bind_eq_bind, Option.bind_some]
  exact ⟨r,hr,isDifference_of_isSum hsum⟩

end Difference

/-- Whatever the target makes of bad shifts, sums and differences are rounded right. -/
theorem sum_rounds (t : ShiftTarget) (c : Double.RepClz) :
    (∀ a b, ∃ r, addsf3 t a b = some r ∧ IsSum (F := single) a b r) ∧
    (∀ a b, ∃ r, adddf3 t c a b = some r ∧ IsSum (F := double c) a b r) ∧
    (∀ a b, ∃ r, subsf3 t a b = some r ∧ IsDifference (F := single) a b r) ∧
    ∀ a b, ∃ r, subdf3 t c a b = some r ∧ IsDifference (F := double c) a b r := by
  refine ⟨fun a b => ?_,fun a b => ?_,fun a b => ?_,fun a b => ?_⟩
  · exact add_isSum t (F := single) a b
  · exact add_isSum t (F := double c) a b
  · exact sub_isDifference t (F := single) a b
  · exact sub_isDifference t (F := double c) a b

end CompilerRt.FpAdd
