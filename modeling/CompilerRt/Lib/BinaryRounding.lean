import CompilerRt.Lib.BinaryFormat
import CompilerRt.Lib.NearestEven
import CompilerRt.Lib.RoundDiv
import Mathlib.Tactic.FieldSimp

/-! # Rounding to a binary format

Infinity takes part as the magnitude after the largest finite one, so that a number is rounded to infinity from the
middle between the two on.
-/
namespace CompilerRt.BinaryFormat
variable (F : BinaryFormat)

/-- The number, in units of the smallest denormal number, is rounded to the magnitude of `a`. -/
def Nearest (u : ℚ) (a : ℕ) : Prop := NearestEven (fun a => (F.mag a : ℚ)) F.inf u a

/-- The bits are those of the number, rounded. The sign of a zero depends on the operation. -/
structure Rounds (q : ℚ) (x : ℕ) : Prop where
  nearest : F.Nearest (|q| / 2 ^ F.emin) (F.abs x)
  sign : q ≠ 0 → F.sign x = decide (q < 0)

variable {F} {a b c x y : ℕ} {q u ρ : ℚ}

theorem mag_cast_strictMono (F : BinaryFormat) : StrictMono fun a => (F.mag a : ℚ) :=
  Nat.strictMono_cast.comp F.mag_strictMono

theorem mag_zero (F : BinaryFormat) : F.mag 0 = 0 := mag_denormal (Nat.two_pow_pos _)

theorem Nearest.unique (ha : F.Nearest u a) (hb : F.Nearest u b) : a = b := NearestEven.unique F.mag_cast_strictMono ha hb

theorem nearest_mag (ha : a ≤ F.inf) : F.Nearest (F.mag a) a := NearestEven.exact F.mag_cast_strictMono ha

theorem nearest_inf (hu : F.mag F.inf ≤ u) : F.Nearest u F.inf := NearestEven.at_top F.mag_cast_strictMono hu

theorem exists_nearest (F : BinaryFormat) (hu : 0 ≤ u) : ∃ a, F.Nearest u a := by
  refine NearestEven.exists_of_le F.mag_cast_strictMono F.inf ?_
  simpa [mag_zero] using hu

/-- What is left over a magnitude, as a part of the distance to the next one, decides. -/
theorem nearest_rest (hc : c < F.inf) (hρ : 0 ≤ ρ) (hρ1 : ρ ≤ 1) (hu : u = F.mag c + ρ * F.ulp c) :
    F.Nearest u (if 1 / 2 < ρ ∨ ρ = 1 / 2 ∧ ¬Even c then c + 1 else c) := by
  have hulp : (0 : ℚ) < F.ulp c := Nat.cast_pos.mpr (F.ulp_pos c)
  have hnext : (F.mag (c + 1) : ℚ) = F.mag c + F.ulp c := by
    rw [mag_succ]
    exact Nat.cast_add _ _
  have hlo : (F.mag c : ℚ) ≤ u := by
    rw [hu]
    exact le_add_of_nonneg_right (mul_nonneg hρ hulp.le)
  have hhi : u ≤ F.mag (c + 1) := by
    rw [hu, hnext]
    exact add_le_add_right (mul_le_of_le_one_left hulp.le hρ1) _
  have hmore : (F.mag (c + 1) : ℚ) - u < u - F.mag c ↔ 1 / 2 < ρ := by
    rw [hu, hnext]
    constructor
    · intro h
      by_contra hle
      nlinarith
    · intro h
      nlinarith
  have hhalf : u - F.mag c = F.mag (c + 1) - u ↔ ρ = 1 / 2 := by
    rw [hu, hnext]
    constructor
    · intro h
      have hzero : (2 * ρ - 1) * F.ulp c = 0 := by linarith
      rcases mul_eq_zero.mp hzero with h | h
      · linarith
      · exact absurd h hulp.ne'
    · rintro rfl
      ring
  have hbetween := NearestEven.between F.mag_cast_strictMono hc hlo hhi
  simp only [hmore, hhalf] at hbetween
  exact hbetween

theorem two_pow_emin_pos (F : BinaryFormat) : (0 : ℚ) < 2 ^ F.emin := by positivity

/-- The magnitude of what is in the fields. -/
theorem mag_fields_emin {e f : ℕ} (he : 0 < e) (hf : f < 2 ^ F.fracBits) :
    (F.mag (e * 2 ^ F.fracBits + f) : ℚ) * 2 ^ F.emin = (f + 2 ^ F.fracBits) * 2 ^ ((e : ℤ) - 1 + F.emin) := by
  have hexp : ((e - 1 : ℕ) : ℤ) = e - 1 := by omega
  rw [mag_of_fields he hf, Nat.cast_mul, Nat.cast_pow, mul_assoc, ← zpow_natCast, hexp, Nat.cast_ofNat,
    ← zpow_add₀ (by norm_num)]
  norm_cast

theorem binary64_fields_emin {e f : ℕ} (he : 0 < e) (hf : f < 2 ^ 52) :
    (binary64.mag (e * 2 ^ 52 + f) : ℚ) * 2 ^ binary64.emin = (f + 2 ^ 52) * 2 ^ ((e : ℤ) - 1 + binary64.emin) :=
  mag_fields_emin (F := binary64) he hf

/-- From half of the last step on the number is rounded to infinity, the end that is even. -/
theorem nearest_inf_of_half (h0 : 0 < F.inf) (heven : Even F.inf) (hu : F.mag (F.inf - 1) + F.ulp (F.inf - 1) / 2 ≤ u) :
    F.Nearest u F.inf := by
  have hlast : F.inf - 1 + 1 = F.inf := Nat.sub_add_cancel h0
  have hodd : ¬Even (F.inf - 1) := by
    rw [← hlast] at heven
    exact Nat.even_add_one.mp heven
  rcases le_or_gt (F.mag F.inf : ℚ) u with hle | hlt
  · exact nearest_inf hle
  have hulp : (0 : ℚ) < F.ulp (F.inf - 1) := Nat.cast_pos.mpr (F.ulp_pos _)
  have hstep : (F.mag F.inf : ℚ) = F.mag (F.inf - 1) + F.ulp (F.inf - 1) := by
    rw [← Nat.cast_add, ← mag_succ, hlast]
  have hu' : u = F.mag (F.inf - 1) + (u - F.mag (F.inf - 1)) / F.ulp (F.inf - 1) * F.ulp (F.inf - 1) := by
    rw [div_mul_cancel₀ _ hulp.ne']
    ring
  have hhalf : 1 / 2 ≤ (u - F.mag (F.inf - 1)) / F.ulp (F.inf - 1) := by
    rw [le_div_iff₀ hulp]
    linarith
  have hone : (u - F.mag (F.inf - 1)) / F.ulp (F.inf - 1) ≤ 1 := by
    rw [div_le_one hulp]
    linarith
  have hnear := nearest_rest (Nat.sub_lt h0 Nat.one_pos) (by linarith) hone hu'
  rw [if_pos, hlast] at hnear
  · exact hnear
  · rcases lt_or_eq_of_le hhalf with h | h
    · exact .inl h
    · exact .inr ⟨h.symm,hodd⟩

/-- A significand under an exponent; where the exponent is the smallest one it may be that of a denormal number. -/
theorem mag_significand {e m : ℕ} (hm : m < 2 ^ (F.fracBits + 1)) (he : e = 0 ∨ 2 ^ F.fracBits ≤ m) :
    F.mag (e * 2 ^ F.fracBits + m) = m * 2 ^ e ∧ F.ulp (e * 2 ^ F.fracBits + m) = 2 ^ e := by
  rcases Nat.lt_or_ge m (2 ^ F.fracBits) with hlt | hge
  · have h0 : e = 0 := he.resolve_right (Nat.not_le.mpr hlt)
    rw [ulp, h0, Nat.zero_mul, Nat.zero_add, expo, Nat.div_eq_of_lt hlt, mag_denormal hlt, pow_zero, Nat.mul_one]
    exact ⟨rfl,rfl⟩
  · obtain ⟨f,rfl⟩ : ∃ f, m = f + 2 ^ F.fracBits := ⟨m - 2 ^ F.fracBits,by omega⟩
    have hf : f < 2 ^ F.fracBits := by
      rw [pow_succ] at hm
      omega
    have hsum : e * 2 ^ F.fracBits + (f + 2 ^ F.fracBits) = (e + 1) * 2 ^ F.fracBits + f := by ring
    rw [hsum, ulp, expo_of_fields hf, mag_of_fields (Nat.succ_pos e) hf]
    exact ⟨rfl,rfl⟩

/-- A quotient, with the exponent at which its whole part has as many digits as a significand. -/
theorem nearest_roundDiv {e n d : ℕ} (hfrac : 0 < F.fracBits) (hd : 0 < d) (hm : n / d < 2 ^ (F.fracBits + 1))
    (he : e = 0 ∨ 2 ^ F.fracBits ≤ n / d) (hc : e * 2 ^ F.fracBits + n / d < F.inf)
    (hq : q = (n : ℚ) / d * 2 ^ ((e : ℤ) + F.emin)) :
    F.Nearest (q / 2 ^ F.emin) (e * 2 ^ F.fracBits + roundDiv n d) := by
  obtain ⟨hmag,hulp⟩ := mag_significand hm he
  have hd' : (0 : ℚ) < d := Nat.cast_pos.mpr hd
  have hlt : ((n % d : ℕ) : ℚ) ≤ d := Nat.cast_le.mpr (Nat.mod_lt n hd).le
  have hunits : q / 2 ^ F.emin = F.mag (e * 2 ^ F.fracBits + n / d) +
      ((n % d : ℕ) : ℚ) / d * F.ulp (e * 2 ^ F.fracBits + n / d) := by
    have hsplit : (n : ℚ) = (n / d : ℕ) * d + (n % d : ℕ) := by exact_mod_cast (Nat.div_add_mod' n d).symm
    rw [hmag, hulp, hq, zpow_add₀ (by norm_num), ← mul_assoc, mul_div_cancel_right₀ _ F.two_pow_emin_pos.ne', zpow_natCast,
      hsplit, add_div, mul_div_cancel_right₀ _ hd'.ne', add_mul]
    push_cast
    rfl
  have hmore : (1 : ℚ) / 2 < ((n % d : ℕ) : ℚ) / d ↔ d < 2 * (n % d) := by
    rw [div_lt_div_iff₀ (by norm_num) hd', one_mul, mul_comm ((n % d : ℕ) : ℚ)]
    exact_mod_cast Iff.rfl
  have hhalf : ((n % d : ℕ) : ℚ) / d = 1 / 2 ↔ 2 * (n % d) = d := by
    rw [div_eq_div_iff hd'.ne' (by norm_num), one_mul, mul_comm ((n % d : ℕ) : ℚ)]
    exact_mod_cast Iff.rfl
  have heven : Even (e * 2 ^ F.fracBits + n / d) ↔ Even (n / d) := by
    have hpow : Even (e * 2 ^ F.fracBits) := (Nat.even_pow.mpr ⟨even_two,hfrac.ne'⟩).mul_left e
    rw [Nat.even_add]
    exact ⟨fun h => h.mp hpow,fun h => iff_of_true hpow h⟩
  have hnear := nearest_rest hc (div_nonneg (Nat.cast_nonneg _) hd'.le) ((div_le_one hd').mpr hlt) hunits
  simp only [hmore, hhalf, heven] at hnear
  rw [roundDiv]
  split_ifs at hnear ⊢
  · exact hnear
  · exact hnear

theorem ulp_mono (F : BinaryFormat) : Monotone F.ulp := by
  intro a b h
  exact Nat.pow_le_pow_right (by decide) (Nat.sub_le_sub_right (Nat.div_le_div_right h) 1)

/-- A quotient with an estimate from below, from which less than three halves are left, and not a half. -/
theorem nearest_estimate {e n d m r : ℕ} (hd : 0 < d) (hm : m < 2 ^ (F.fracBits + 1)) (he : e = 0 ∨ 2 ^ F.fracBits ≤ m)
    (hc : e * 2 ^ F.fracBits + m < F.inf) (hn : n = m * d + r) (hr : 2 * r < 3 * d) (hhalf : 2 * r ≠ d)
    (hq : q = (n : ℚ) / d * 2 ^ ((e : ℤ) + F.emin)) :
    F.Nearest (q / 2 ^ F.emin) (e * 2 ^ F.fracBits + if d < 2 * r then m + 1 else m) := by
  obtain ⟨hmag,hulp⟩ := mag_significand hm he
  generalize hcode : e * 2 ^ F.fracBits + m = c at *
  have hd' : (0 : ℚ) < d := Nat.cast_pos.mpr hd
  have hunits : q / 2 ^ F.emin = F.mag c + (r : ℚ) / d * F.ulp c := by
    rw [hmag, hulp, hq, zpow_add₀ (by norm_num), ← mul_assoc, mul_div_cancel_right₀ _ F.two_pow_emin_pos.ne', zpow_natCast,
      hn]
    push_cast
    field_simp
  have hmore : (1 : ℚ) / 2 < (r : ℚ) / d ↔ d < 2 * r := by
    rw [div_lt_div_iff₀ (by norm_num) hd', one_mul, mul_comm (r : ℚ)]
    exact_mod_cast Iff.rfl
  have hne : (r : ℚ) / d ≠ 1 / 2 := by
    rw [Ne, div_eq_div_iff hd'.ne' (by norm_num), one_mul, mul_comm (r : ℚ)]
    exact_mod_cast hhalf
  have hcode' : e * 2 ^ F.fracBits + (if d < 2 * r then m + 1 else m) = if d < 2 * r then c + 1 else c := by
    split_ifs <;> omega
  rw [hcode']
  rcases Nat.lt_or_ge d r |>.symm with hle | hlt
  · have hnear := nearest_rest hc (div_nonneg (Nat.cast_nonneg _) hd'.le) ((div_le_one hd').mpr (Nat.cast_le.mpr hle)) hunits
    simp only [hmore, hne, false_and, or_false] at hnear
    exact hnear
  · -- past the next magnitude, by less than half of its distance to the one after
    rw [if_pos (by omega)]
    have hover : q / 2 ^ F.emin = F.mag (c + 1) + ((r : ℚ) / d - 1) * F.ulp c := by
      rw [hunits, mag_succ]
      push_cast
      ring
    have hpos : (0 : ℚ) ≤ (r : ℚ) / d - 1 := by
      rw [sub_nonneg, one_le_div hd']
      exact Nat.cast_le.mpr hlt.le
    have hless : (r : ℚ) / d - 1 < 1 / 2 := by
      have hcast : (2 * r : ℚ) < 3 * d := by exact_mod_cast hr
      rw [sub_lt_iff_lt_add, div_lt_iff₀ hd']
      linarith
    rcases Nat.eq_or_lt_of_le (Nat.succ_le_of_lt hc) with htop | hin
    · have hinf : c + 1 = F.inf := htop
      rw [hinf] at hover ⊢
      refine nearest_inf ?_
      rw [hover]
      exact le_add_of_nonneg_right (mul_nonneg hpos (Nat.cast_nonneg _))
    · have hulp0 : (0 : ℚ) < F.ulp (c + 1) := Nat.cast_pos.mpr (F.ulp_pos _)
      have hmono : (F.ulp c : ℚ) ≤ F.ulp (c + 1) := Nat.cast_le.mpr (F.ulp_mono (Nat.le_succ c))
      have hrest : q / 2 ^ F.emin = F.mag (c + 1) + ((r : ℚ) / d - 1) * F.ulp c / F.ulp (c + 1) * F.ulp (c + 1) := by
        rw [hover, div_mul_cancel₀ _ hulp0.ne']
      have hρ : ((r : ℚ) / d - 1) * F.ulp c / F.ulp (c + 1) < 1 / 2 := by
        rw [div_lt_iff₀ hulp0]
        nlinarith
      have hnear := nearest_rest hin (div_nonneg (mul_nonneg hpos (Nat.cast_nonneg _)) hulp0.le) (by linarith) hrest
      rw [if_neg] at hnear
      · exact hnear
      · rintro (h | h)
        · linarith
        · linarith [h.1]

/-! ## The bits of a rounded number -/

theorem abs_toRat (s : Bool) (a : ℕ) : |F.toRat s a| = F.mag a * 2 ^ F.emin := by
  have hpos : (0 : ℚ) ≤ F.mag a * 2 ^ F.emin := by positivity
  unfold toRat
  cases s
  · simp only [Bool.false_eq_true, if_false, one_mul]
    exact abs_of_nonneg hpos
  · simp only [if_true, neg_one_mul, abs_neg]
    exact abs_of_nonneg hpos

theorem abs_toRat_units (s : Bool) (a : ℕ) : |F.toRat s a| / 2 ^ F.emin = F.mag a := by
  rw [abs_toRat, mul_div_cancel_right₀ _ F.two_pow_emin_pos.ne']

theorem mag_pos (ha : 0 < a) : 0 < F.mag a := by
  rw [← F.mag_zero]
  exact F.mag_strictMono ha

theorem toRat_ne_zero (s : Bool) (ha : 0 < a) : F.toRat s a ≠ 0 := by
  rw [← abs_pos, abs_toRat]
  exact mul_pos (Nat.cast_pos.mpr (mag_pos ha)) F.two_pow_emin_pos

theorem toRat_neg_iff (s : Bool) (ha : 0 < a) : F.toRat s a < 0 ↔ s = true := by
  have hpos : (0 : ℚ) < F.mag a * 2 ^ F.emin := mul_pos (Nat.cast_pos.mpr (mag_pos ha)) F.two_pow_emin_pos
  unfold toRat
  cases s
  · simpa using hpos.le
  · simpa using hpos

theorem decide_toRat_neg (s : Bool) (ha : 0 < a) : decide (F.toRat s a < 0) = s := by
  rw [Bool.eq_iff_iff, decide_eq_true_eq, toRat_neg_iff s ha]

/-- A number of the format is rounded to itself. -/
theorem Rounds.abs_of_toRat {s : Bool} (h : F.Rounds (F.toRat s a) x) (ha : a ≤ F.inf) : F.abs x = a := by
  have hn := h.nearest
  rw [abs_toRat_units] at hn
  exact hn.unique (nearest_mag ha)

theorem Rounds.sign_of_toRat {s : Bool} (h : F.Rounds (F.toRat s a) x) (ha : 0 < a) : F.sign x = s := by
  rw [h.sign (toRat_ne_zero s ha)]
  cases s
  · exact decide_eq_false ((toRat_neg_iff _ ha).not.mpr Bool.false_ne_true)
  · exact decide_eq_true ((toRat_neg_iff _ ha).mpr rfl)

theorem Rounds.toRat_eq {s : Bool} (h : F.Rounds (F.toRat s a) x) (ha : a ≤ F.inf) :
    F.toRat (F.sign x) (F.abs x) = F.toRat s a := by
  rw [h.abs_of_toRat ha]
  rcases Nat.eq_zero_or_pos a with rfl | hpos
  · simp [toRat, mag_zero]
  · rw [h.sign_of_toRat hpos]

/-- The sign and what is below it are all the bits. -/
theorem eq_of_fields (hx : x < 2 ^ (F.fracBits + F.expBits + 1)) (hy : y < 2 ^ (F.fracBits + F.expBits + 1))
    (habs : F.abs x = F.abs y) (hsign : F.sign x = F.sign y) : x = y := by
  have hfield : ∀ z, z < 2 ^ (F.fracBits + F.expBits + 1) →
      z = (F.sign z).toNat * 2 ^ (F.fracBits + F.expBits) + F.abs z := by
    intro z hz
    have hdiv : z / 2 ^ (F.fracBits + F.expBits) < 2 := by
      rw [Nat.div_lt_iff_lt_mul (Nat.two_pow_pos _), ← Nat.pow_succ']
      exact hz
    have hbit : (F.sign z).toNat = z / 2 ^ (F.fracBits + F.expBits) := by
      rw [sign, Nat.toNat_testBit, Nat.mod_eq_of_lt hdiv]
    rw [hbit]
    exact (Nat.div_add_mod' z _).symm
  rw [hfield x hx, hfield y hy, habs, hsign]

theorem Rounds.eq (hx : x < 2 ^ (F.fracBits + F.expBits + 1)) (hy : y < 2 ^ (F.fracBits + F.expBits + 1))
    (h : F.Rounds q x) (h' : F.Rounds q y) (hzero : q = 0 → F.sign x = F.sign y) : x = y := by
  refine eq_of_fields hx hy (h.nearest.unique h'.nearest) ?_
  by_cases hq : q = 0
  · exact hzero hq
  · rw [h.sign hq, h'.sign hq]

end CompilerRt.BinaryFormat
