import CompilerRt.Builtins.FpFields
import CompilerRt.Builtins.FpSticky
import CompilerRt.Lib.BinaryRounding

/-! # Representations as numbers

A representation is read in the binary format of its precision. What is shared by the rounding of the routines: the
sign, the operands as rational numbers, and the two words of a wide significand.
-/
namespace CompilerRt.FpLib
open CShift

namespace Format
variable (F : Format)

def binary : BinaryFormat := ⟨F.significandBits,F.exponentBits⟩

def sign (x : F.Rep) : Bool := F.binary.sign x.toNat

def abs (x : F.Rep) : ℕ := F.binary.abs x.toNat

def IsNaN (x : F.Rep) : Prop := F.binary.inf < F.abs x

def IsInf (x : F.Rep) : Prop := F.abs x = F.binary.inf

def IsFinite (x : F.Rep) : Prop := F.abs x < F.binary.inf

instance (x : F.Rep) : Decidable (F.IsNaN x) := inferInstanceAs (Decidable (_ < _))

instance (x : F.Rep) : Decidable (F.IsInf x) := inferInstanceAs (Decidable (_ = _))

instance (x : F.Rep) : Decidable (F.IsFinite x) := inferInstanceAs (Decidable (_ < _))

/-- The number that a finite representation stands for. -/
def rat (x : F.Rep) : ℚ := F.binary.toRat (F.sign x) (F.abs x)

/-- A NaN with its quiet bit. -/
def IsQuietNaN (x : F.Rep) : Prop := F.IsNaN x ∧ x &&& F.k.quietBit ≠ 0

/-- The NaN `x`, returned quieted; the sign is not a part of its payload. -/
def IsQuieted (x r : F.Rep) : Prop := F.IsQuietNaN r ∧ F.abs r = F.abs (x ||| F.k.quietBit)

/-- The exact result `q`, rounded, with the sign that is given for a zero. -/
def IsRounded (q : ℚ) (zeroSign : Bool) (r : F.Rep) : Prop :=
  F.binary.Rounds q r.toNat ∧ (q = 0 → F.sign r = zeroSign)

/-! ## Widths -/

theorem width_sub_one : F.typeWidth - 1 = F.significandBits + F.exponentBits := by rw [F.typeWidth_eq]; rfl

theorem width_pos : 0 < F.typeWidth := by
  have h := F.exponentBits_ge
  omega

theorem two_pow_width : 2 ^ F.typeWidth = 2 ^ (F.typeWidth - 1) * 2 := by
  rw [← pow_succ, Nat.sub_add_cancel F.width_pos]

theorem four_le_exponents : 4 ≤ 2 ^ F.exponentBits := by
  have h := F.exponentBits_bounds
  have hle : 2 ^ 2 ≤ 2 ^ F.exponentBits := Nat.pow_le_pow_right (by decide) (by omega)
  exact hle

theorem inf_eq : F.binary.inf = (2 ^ F.exponentBits - 1) * 2 ^ F.significandBits := rfl

theorem inf_pos : 0 < F.binary.inf := by
  have h4 := F.four_le_exponents
  exact Nat.mul_pos (by change 0 < 2 ^ F.exponentBits - 1; omega) (Nat.two_pow_pos _)

theorem inf_lt : F.binary.inf < 2 ^ (F.typeWidth - 1) := by
  rw [inf_eq, width_sub_one, pow_add, Nat.mul_comm (2 ^ F.significandBits)]
  exact Nat.mul_lt_mul_of_pos_right (Nat.sub_lt (Nat.two_pow_pos _) Nat.one_pos) (Nat.two_pow_pos _)

theorem toNat_infRep_eq : F.k.infRep.toNat = F.binary.inf := by
  rw [toNat_infRep, width_sub_one, pow_add, inf_eq, Nat.sub_mul, Nat.one_mul, Nat.mul_comm]

theorem emin_eq : F.binary.emin = 1 - F.k.exponentBias - F.significandBits := by
  have hcast : ((2 ^ (F.exponentBits - 1) : ℕ) : ℤ) = 2 ^ (F.exponentBits - 1) := by norm_cast
  have hpos := Nat.two_pow_pos (F.exponentBits - 1)
  change (2 : ℤ) - 2 ^ (F.exponentBits - 1) - F.significandBits = 1 - (2 ^ (F.exponentBits - 1) - 1 : ℕ) - F.significandBits
  omega

/-- Infinity as a magnitude. -/
theorem mag_inf : F.binary.mag F.binary.inf = 2 ^ F.significandBits * 2 ^ (2 ^ F.exponentBits - 2) := by
  have h4 := F.four_le_exponents
  have hsplit : F.binary.inf = (2 ^ F.exponentBits - 2) * 2 ^ F.significandBits + 2 ^ F.significandBits := by
    rw [inf_eq, ← Nat.succ_mul]
    congr 1
    omega
  rw [hsplit]
  exact (BinaryFormat.mag_significand (F := F.binary) (Nat.pow_lt_pow_right (by decide) (Nat.lt_succ_self _))
    (.inr le_rfl)).1

/-! ## Sign and magnitude -/

variable {F} {x y r : F.Rep}

theorem toNat_abs : (x &&& F.k.absMask).toNat = F.abs x := by
  rw [toNat_and_absMask, width_sub_one]
  rfl

theorem mag_eq (x : F.Rep) : mag F x = F.binary.mag (F.abs x) := by
  have hexpo : F.binary.expo (F.abs x) = expo F x := by
    change x.toNat % 2 ^ (F.significandBits + F.exponentBits) / 2 ^ F.significandBits = _
    rw [pow_add, Nat.mod_mul_right_div_self]
    rfl
  have hfrac : F.binary.frac (F.abs x) = frac F x := by
    change x.toNat % 2 ^ (F.significandBits + F.exponentBits) % 2 ^ F.significandBits = _
    rw [pow_add, Nat.mod_mul_right_mod]
    rfl
  rw [mag, BinaryFormat.mag, hexpo, hfrac]
  rfl

theorem abs_lt (x : F.Rep) : F.abs x < 2 ^ (F.typeWidth - 1) := by
  rw [width_sub_one]
  exact Nat.mod_lt _ (Nat.two_pow_pos _)

theorem sign_eq_getLsbD (x : F.Rep) : F.sign x = x.getLsbD (F.typeWidth - 1) := by
  rw [width_sub_one, ← BitVec.testBit_toNat]
  rfl

theorem sign_xor (x y : F.Rep) : F.sign (x ^^^ y) = (F.sign x ^^ F.sign y) := by
  rw [sign_eq_getLsbD, sign_eq_getLsbD, sign_eq_getLsbD, BitVec.getLsbD_xor]

theorem sign_and (x y : F.Rep) : F.sign (x &&& y) = (F.sign x && F.sign y) := by
  rw [sign_eq_getLsbD, sign_eq_getLsbD, sign_eq_getLsbD, BitVec.getLsbD_and]

theorem signBit_eq : F.k.signBit = BitVec.twoPow F.typeWidth (F.typeWidth - 1) := by
  apply BitVec.eq_of_toNat_eq
  rw [toNat_signBit, BitVec.toNat_twoPow_of_lt (Nat.sub_lt F.width_pos Nat.one_pos)]

theorem toNat_sign (x : F.Rep) : (x &&& F.k.signBit).toNat = (F.sign x).toNat * 2 ^ (F.typeWidth - 1) := by
  rw [signBit_eq, BitMask.toNat_and_twoPow x (Nat.sub_lt F.width_pos Nat.one_pos), sign_eq_getLsbD,
    ← BitVec.testBit_toNat, Nat.toNat_testBit]

/-- A representation put together from a sign and what is below it. -/
theorem fields_of_toNat {s : Bool} {c : ℕ} (hc : c < 2 ^ (F.typeWidth - 1)) (hr : r.toNat = s.toNat * 2 ^ (F.typeWidth - 1) + c) :
    F.sign r = s ∧ F.abs r = c := by
  have hdiv : r.toNat / 2 ^ (F.typeWidth - 1) = s.toNat := by
    rw [hr, Nat.mul_comm, Nat.mul_add_div (Nat.two_pow_pos _), Nat.div_eq_of_lt hc, Nat.add_zero]
  constructor
  · rw [sign_eq_getLsbD, ← BitVec.testBit_toNat, Nat.testBit_eq_decide_div_mod_eq, hdiv]
    cases s <;> rfl
  · change r.toNat % 2 ^ (F.significandBits + F.exponentBits) = c
    rw [← width_sub_one, hr, Nat.mul_comm, Nat.mul_add_mod, Nat.mod_eq_of_lt hc]

theorem toNat_eq (x : F.Rep) : x.toNat = (F.sign x).toNat * 2 ^ (F.typeWidth - 1) + F.abs x := by
  have hdiv : x.toNat / 2 ^ (F.typeWidth - 1) < 2 := by
    rw [Nat.div_lt_iff_lt_mul (Nat.two_pow_pos _), Nat.mul_comm, ← two_pow_width]
    exact x.isLt
  rw [sign_eq_getLsbD, ← BitVec.testBit_toNat, Nat.toNat_testBit, Nat.mod_eq_of_lt hdiv]
  change _ = _ + x.toNat % 2 ^ (F.significandBits + F.exponentBits)
  rw [← width_sub_one]
  exact (Nat.div_add_mod' _ _).symm

theorem abs_rat (x : F.Rep) : |F.rat x| = mag F x * 2 ^ F.binary.emin := by
  rw [rat, BinaryFormat.abs_toRat, mag_eq]

/-- The magnitude of an operand, from its exponent and its significand. -/
theorem abs_rat_of_operand {e : ℤ} {s : F.Rep} (hx : Operand F x e s) :
    |F.rat x| = s.toNat * 2 ^ (e - 1 + F.binary.emin) := by
  have hle := hx.le_exponent
  have hexp : (((e + F.significandBits - 1).toNat : ℕ) : ℤ) = e - 1 + F.significandBits := by omega
  have hval : (s.toNat : ℚ) * 2 ^ (e - 1 + F.significandBits) = mag F x * 2 ^ (F.significandBits : ℤ) := by
    rw [← hexp, zpow_natCast, zpow_natCast]
    exact_mod_cast hx.value
  have hpos : (2 : ℚ) ^ (F.significandBits : ℤ) ≠ 0 := by positivity
  rw [abs_rat, zpow_add₀ (by norm_num), ← mul_assoc]
  congr 1
  rw [zpow_add₀ (by norm_num), ← mul_assoc] at hval
  exact (mul_right_cancel₀ hpos hval).symm

theorem rat_ne_zero (h : 0 < F.abs x) : F.rat x ≠ 0 := BinaryFormat.toRat_ne_zero _ h

theorem rat_of_zero (h : F.abs x = 0) : F.rat x = 0 := by
  rw [rat, h, BinaryFormat.toRat, BinaryFormat.mag_zero, Nat.cast_zero, zero_mul, mul_zero]

theorem decide_rat_neg (h : 0 < F.abs x) : decide (F.rat x < 0) = F.sign x := BinaryFormat.decide_toRat_neg _ h

theorem rat_eq (x : F.Rep) : F.rat x = if F.sign x then -|F.rat x| else |F.rat x| := by
  have habs := BinaryFormat.abs_toRat (F := F.binary) (F.sign x) (F.abs x)
  change |F.rat x| = _ at habs
  rw [habs, rat, BinaryFormat.toRat]
  cases F.sign x <;> simp

/-- A whole number of units of the smallest denormal number. -/
theorem exists_int (x : F.Rep) : ∃ z : ℤ, F.rat x = z * 2 ^ F.binary.emin := by
  rw [rat, BinaryFormat.toRat]
  cases F.sign x
  · exact ⟨F.binary.mag (F.abs x),by simp⟩
  · exact ⟨-F.binary.mag (F.abs x),by simp⟩

/-- What is below the normal numbers and a whole number of units is returned as it is. -/
theorem IsRounded.rat_eq_of_small {z : ℤ} {q : ℚ} {b : Bool} (h : F.IsRounded q b r) (hq : q = z * 2 ^ F.binary.emin)
    (hsmall : |q| < 2 ^ F.significandBits * 2 ^ F.binary.emin) : F.rat r = q := by
  have hunit := F.binary.two_pow_emin_pos
  have hlt : z.natAbs < 2 ^ F.binary.fracBits := by
    rw [hq, abs_mul, abs_of_pos hunit, mul_lt_mul_iff_of_pos_right hunit] at hsmall
    have hcast : ((z.natAbs : ℕ) : ℚ) = |(z : ℚ)| := by rw [Nat.cast_natAbs, Int.cast_abs]
    rw [← hcast] at hsmall
    exact_mod_cast hsmall
  have hle : z.natAbs ≤ F.binary.inf := by
    have h4 := F.four_le_exponents
    have hinf : 1 * 2 ^ F.significandBits ≤ F.binary.inf := by
      rw [inf_eq]
      exact Nat.mul_le_mul_right _ (by omega)
    rw [Nat.one_mul] at hinf
    exact hlt.le.trans hinf
  have htoRat : F.binary.toRat (decide (z < 0)) z.natAbs = q := by
    rw [BinaryFormat.toRat, BinaryFormat.mag_denormal hlt, hq]
    by_cases hneg : z < 0
    · have habs : ((z.natAbs : ℕ) : ℚ) = -z := by
        rw [Nat.cast_natAbs, abs_of_neg hneg]
        push_cast
        rfl
      simp [hneg, habs]
    · have habs : ((z.natAbs : ℕ) : ℚ) = z := by
        rw [Nat.cast_natAbs, abs_of_nonneg (not_lt.mp hneg)]
      simp [hneg, habs]
  have hrounds := h.1
  rw [← htoRat] at hrounds ⊢
  exact hrounds.toRat_eq hle

theorem decide_mul_neg (hx : 0 < F.abs x) (hy : 0 < F.abs y) : decide (F.rat x * F.rat y < 0) = (F.sign x ^^ F.sign y) := by
  have hx0 := rat_ne_zero hx
  have hy0 := rat_ne_zero hy
  rw [← decide_rat_neg hx, ← decide_rat_neg hy]
  rcases lt_or_gt_of_ne hx0 with h | h <;> rcases lt_or_gt_of_ne hy0 with h' | h'
  · simp [h, h', not_lt.mpr (mul_pos_of_neg_of_neg h h').le]
  · simp [h, not_lt.mpr h'.le, mul_neg_of_neg_of_pos h h']
  · simp [h', not_lt.mpr h.le, mul_neg_of_pos_of_neg h h']
  · simp [not_lt.mpr h.le, not_lt.mpr h'.le, not_lt.mpr (mul_pos h h').le]

theorem isRounded_zero {b : Bool} (habs : F.abs r = 0) (hsign : F.sign r = b) : F.IsRounded 0 b r := by
  refine ⟨⟨?_,fun h => absurd rfl h⟩,fun _ => hsign⟩
  have hmag : (F.binary.mag 0 : ℚ) = |0| / 2 ^ F.binary.emin := by
    rw [BinaryFormat.mag_zero, abs_zero, zero_div, Nat.cast_zero]
  have hcode : F.binary.abs r.toNat = 0 := habs
  rw [hcode, ← hmag]
  exact BinaryFormat.nearest_mag (Nat.zero_le _)

/-- A number is rounded to itself. -/
theorem isRounded_rat {b : Bool} (hx : F.IsFinite x) (h0 : F.abs x ≠ 0) : F.IsRounded (F.rat x) b x := by
  have hpos := Nat.pos_of_ne_zero h0
  refine ⟨⟨?_,fun _ => (decide_rat_neg hpos).symm⟩,fun h => absurd h (rat_ne_zero hpos)⟩
  have hunits := BinaryFormat.abs_toRat_units (F := F.binary) (F.sign x) (F.abs x)
  change |F.rat x| / _ = _ at hunits
  rw [hunits]
  exact BinaryFormat.nearest_mag (Nat.le_of_lt hx)

/-- The exponent field tells what is finite. -/
theorem isFinite_of_expo (h : expo F x < 2 ^ F.exponentBits - 1) : F.IsFinite x := by
  have hfrac := frac_lt F x
  have hmul : (expo F x + 1) * 2 ^ F.significandBits ≤ (2 ^ F.exponentBits - 1) * 2 ^ F.significandBits :=
    Nat.mul_le_mul_right _ h
  rw [Nat.add_mul, Nat.one_mul] at hmul
  rw [IsFinite, ← toNat_abs, abs_eq, inf_eq]
  omega

/-! ## Special values -/

theorem IsNaN.others (h : F.IsNaN x) : ¬F.IsInf x ∧ F.abs x ≠ 0 ∧ ¬F.IsFinite x := by
  unfold IsNaN IsInf IsFinite at *
  omega

theorem IsInf.others (h : F.IsInf x) : ¬F.IsNaN x ∧ F.abs x ≠ 0 ∧ ¬F.IsFinite x := by
  have hpos := F.inf_pos
  unfold IsNaN IsInf IsFinite at *
  omega

theorem IsFinite.others (h : F.IsFinite x) : ¬F.IsNaN x ∧ ¬F.IsInf x := by
  unfold IsNaN IsInf IsFinite at *
  omega

theorem isFinite_iff : F.IsFinite x ↔ ¬F.IsNaN x ∧ ¬F.IsInf x := by
  unfold IsNaN IsInf IsFinite
  omega

theorem infRep_lt_iff : F.k.infRep < x &&& F.k.absMask ↔ F.IsNaN x := by
  rw [BitVec.lt_def, toNat_infRep_eq, toNat_abs]
  rfl

theorem eq_infRep_iff : x &&& F.k.absMask = F.k.infRep ↔ F.IsInf x := by
  rw [← BitVec.toNat_inj, toNat_infRep_eq, toNat_abs]
  rfl

theorem abs_eq_zero_iff : x &&& F.k.absMask = 0 ↔ F.abs x = 0 := by
  rw [← BitVec.toNat_inj, toNat_abs]
  rfl

theorem quietBit_eq : F.k.quietBit = BitVec.twoPow F.typeWidth (F.significandBits - 1) := by
  have hge := F.exponentBits_ge
  apply BitVec.eq_of_toNat_eq
  rw [BitVec.toNat_twoPow_of_lt (by omega)]
  exact toNat_ofNat_lt (F.two_pow_lt (by omega))

theorem and_quietBit_ne_zero (x : F.Rep) : (x ||| F.k.quietBit) &&& F.k.quietBit ≠ 0 := by
  have hge := F.exponentBits_ge
  intro h
  have hbit := congrArg (fun y : F.Rep => y.getLsbD (F.significandBits - 1)) h
  have hlt : F.significandBits - 1 < F.typeWidth := by omega
  simp [quietBit_eq, hlt] at hbit

theorem isQuietNaN_or_quietBit (h : F.IsNaN x) : F.IsQuietNaN (x ||| F.k.quietBit) := by
  refine ⟨?_,and_quietBit_ne_zero x⟩
  have hle : F.abs x ≤ F.abs (x ||| F.k.quietBit) := by
    have hor : (x ||| F.k.quietBit) &&& F.k.absMask = (x &&& F.k.absMask) ||| (F.k.quietBit &&& F.k.absMask) := by
      ext i
      simp [Bool.and_or_distrib_right]
    rw [← toNat_abs, ← toNat_abs, hor, BitVec.toNat_or]
    exact Nat.left_le_or
  exact lt_of_lt_of_le h hle

theorem isQuietNaN_qnanRep : F.IsQuietNaN F.k.qnanRep := by
  have hpos := F.significandBits_pos
  have hquiet : F.k.quietBit.toNat = 2 ^ (F.significandBits - 1) := by
    have hge := F.exponentBits_ge
    exact toNat_ofNat_lt (F.two_pow_lt (by omega))
  have hrep : F.k.qnanRep = F.k.infRep ||| F.k.quietBit := rfl
  have htwo : 2 ^ F.significandBits = 2 ^ (F.significandBits - 1) * 2 := by rw [← pow_succ, Nat.sub_add_cancel hpos]
  have hquarter := Nat.two_pow_pos (F.significandBits - 1)
  have hbits : F.k.qnanRep.toNat = F.binary.inf + 2 ^ (F.significandBits - 1) := by
    rw [hrep, BitMask.toNat_or_disjoint (k := F.significandBits), toNat_infRep_eq, hquiet]
    · rw [toNat_infRep_eq]
      exact Nat.dvd_mul_left _ _
    · rw [hquiet]
      omega
  refine ⟨?_,by rw [hrep]; exact and_quietBit_ne_zero _⟩
  have hlt : F.binary.inf + 2 ^ (F.significandBits - 1) < 2 ^ (F.typeWidth - 1) := by
    have hfull : 2 ^ (F.typeWidth - 1) = F.binary.inf + 2 ^ F.significandBits := by
      have h4 := F.four_le_exponents
      rw [width_sub_one, pow_add, inf_eq, ← Nat.succ_mul, Nat.mul_comm]
      congr 1
      omega
    omega
  have habs : F.abs F.k.qnanRep = F.binary.inf + 2 ^ (F.significandBits - 1) :=
    (fields_of_toNat (s := false) hlt (by rw [hbits]; simp)).2
  rw [IsNaN, habs]
  omega

/-- The sign is or-ed in above the rest. -/
theorem toNat_or_sign {s : Bool} {sign : F.Rep} (hsign : sign.toNat = s.toNat * 2 ^ (F.typeWidth - 1))
    (hx : x.toNat < 2 ^ (F.typeWidth - 1)) : (x ||| sign).toNat = s.toNat * 2 ^ (F.typeWidth - 1) + x.toNat := by
  rw [BitVec.or_comm, BitMask.toNat_or_disjoint (k := F.typeWidth - 1), hsign]
  · rw [hsign]
    exact Nat.dvd_mul_left _ _
  · exact hx

theorem infRep_fields {s : Bool} {sign : F.Rep} (hsign : sign.toNat = s.toNat * 2 ^ (F.typeWidth - 1)) :
    F.sign (F.k.infRep ||| sign) = s ∧ F.IsInf (F.k.infRep ||| sign) := by
  refine fields_of_toNat F.inf_lt ?_
  rw [toNat_or_sign hsign (by rw [toNat_infRep_eq]; exact F.inf_lt), toNat_infRep_eq]

/-! ## The nearest representation

The exact magnitude is `n / 2^k` under a biased exponent, with the whole part of a significand. -/

section Nearest
variable {q : ℚ} {n k : ℕ} {e : ℤ}

theorem fracBits_pos : 0 < F.binary.fracBits := F.significandBits_pos

theorem nearest_normal (hlo : 2 ^ F.significandBits ≤ n / 2 ^ k) (hhi : n / 2 ^ k < 2 ^ (F.significandBits + 1)) (he : 1 ≤ e)
    (he' : e < 2 ^ F.exponentBits - 1) (hq : q = n / 2 ^ k * 2 ^ (e - 1 + F.binary.emin)) :
    F.binary.Nearest (q / 2 ^ F.binary.emin) ((e.toNat - 1) * 2 ^ F.significandBits + roundDiv n (2 ^ k)) := by
  have hpow : ((2 ^ F.exponentBits : ℕ) : ℤ) = 2 ^ F.exponentBits := by norm_cast
  have hexp : ((e.toNat - 1 : ℕ) : ℤ) = e - 1 := by omega
  refine BinaryFormat.nearest_roundDiv (F := F.binary) fracBits_pos (Nat.two_pow_pos k) hhi (.inr hlo) ?_ ?_
  · have hstep : e.toNat - 1 + 2 ≤ 2 ^ F.exponentBits - 1 := by omega
    have hmul : (e.toNat - 1 + 2) * 2 ^ F.significandBits ≤ (2 ^ F.exponentBits - 1) * 2 ^ F.significandBits :=
      Nat.mul_le_mul_right _ hstep
    rw [pow_succ] at hhi
    rw [Nat.add_mul] at hmul
    change (e.toNat - 1) * 2 ^ F.significandBits + n / 2 ^ k < (2 ^ F.exponentBits - 1) * 2 ^ F.significandBits
    omega
  · rw [hq, hexp]
    norm_cast

theorem nearest_denormal (hhi : n / 2 ^ k < 2 ^ (F.significandBits + 1)) (he : e ≤ 0)
    (hq : q = n / 2 ^ k * 2 ^ (e - 1 + F.binary.emin)) :
    F.binary.Nearest (q / 2 ^ F.binary.emin) (roundDiv n (2 ^ ((1 - e).toNat + k))) := by
  have h4 := F.four_le_exponents
  have hsmall : n / 2 ^ ((1 - e).toNat + k) < 2 ^ F.significandBits := by
    have hle : 2 ^ 1 ≤ 2 ^ (1 - e).toNat := Nat.pow_le_pow_right (by decide) (by omega)
    rw [pow_succ] at hhi
    rw [Nat.add_comm, pow_add, ← Nat.div_div_eq_div_mul]
    exact (Nat.div_le_div_left hle (by decide)).trans_lt (by omega)
  have hpos : (2 : ℚ) ^ k ≠ 0 := by positivity
  have hcount : ((1 - e).toNat : ℤ) = 1 - e := by omega
  have hq' : q = (n : ℚ) / (2 ^ ((1 - e).toNat + k) : ℕ) * 2 ^ (((0 : ℕ) : ℤ) + F.binary.emin) := by
    have hden : ((2 ^ ((1 - e).toNat + k) : ℕ) : ℚ) = 2 ^ (1 - e) * 2 ^ k := by
      calc ((2 ^ ((1 - e).toNat + k) : ℕ) : ℚ) = 2 ^ (1 - e).toNat * 2 ^ k := by rw [Nat.cast_pow, Nat.cast_ofNat, pow_add]
        _ = 2 ^ (((1 - e).toNat : ℕ) : ℤ) * 2 ^ k := by rw [zpow_natCast]
        _ = 2 ^ (1 - e) * 2 ^ k := by rw [hcount]
    have hexp : e - 1 + F.binary.emin = -(1 - e) + (((0 : ℕ) : ℤ) + F.binary.emin) := by
      rw [Nat.cast_zero]
      ring
    rw [hq, hden, hexp, zpow_add₀ (by norm_num), zpow_neg, ← mul_assoc]
    congr 1
    rw [mul_comm ((2 : ℚ) ^ (1 - e)), ← div_div, div_eq_mul_inv ((n : ℚ) / 2 ^ k)]
  have hnear := BinaryFormat.nearest_roundDiv (F := F.binary) (e := 0) fracBits_pos (Nat.two_pow_pos _)
    (hsmall.trans (Nat.pow_lt_pow_right (by decide) (Nat.lt_succ_self _))) (.inl rfl) ?_ hq'
  · rw [Nat.zero_mul, Nat.zero_add] at hnear
    exact hnear
  · have hinf : 1 * 2 ^ F.significandBits ≤ (2 ^ F.exponentBits - 1) * 2 ^ F.significandBits :=
      Nat.mul_le_mul_right _ (by omega)
    change 0 * 2 ^ F.significandBits + _ < (2 ^ F.exponentBits - 1) * 2 ^ F.significandBits
    omega

theorem cast_two_pow_le_div {m : ℕ} (hlo : 2 ^ m ≤ n / 2 ^ k) : (2 : ℚ) ^ m ≤ n / 2 ^ k := by
  rw [le_div_iff₀ (by positivity)]
  rw [Nat.le_div_iff_mul_le (Nat.two_pow_pos k)] at hlo
  exact_mod_cast hlo

theorem nearest_overflow {x : ℚ} (hlo : 2 ^ F.significandBits ≤ x) (he : 2 ^ F.exponentBits - 1 ≤ e)
    (hq : q = x * 2 ^ (e - 1 + F.binary.emin)) : F.binary.Nearest (q / 2 ^ F.binary.emin) F.binary.inf := by
  have h4 := F.four_le_exponents
  have hpow : ((2 ^ F.exponentBits : ℕ) : ℤ) = 2 ^ F.exponentBits := by norm_cast
  refine BinaryFormat.nearest_inf ?_
  have hexp : (2 : ℚ) ^ (2 ^ F.exponentBits - 2) ≤ 2 ^ (e - 1) := by
    rw [← zpow_natCast]
    exact zpow_le_zpow_right₀ (by norm_num) (by omega)
  rw [hq, zpow_add₀ (by norm_num), ← mul_assoc, mul_div_cancel_right₀ _ F.binary.two_pow_emin_pos.ne', mag_inf]
  push_cast
  exact mul_le_mul hlo hexp (by positivity) (le_trans (by positivity) hlo)

end Nearest
end Format

/-! ## The end of a routine -/

section Finish
variable {F : Format} {s : Bool} {q : ℚ} {e : ℤ} {r sign : F.Rep}

/-- What the end of a routine returns for the exact magnitude `q`. -/
structure Finished (s : Bool) (q : ℚ) (r : F.Rep) : Prop where
  sign : F.sign r = s
  nearest : F.binary.Nearest (q / 2 ^ F.binary.emin) (F.abs r)

theorem Finished.of_toNat {c : ℕ} (hr : r.toNat = s.toNat * 2 ^ (F.typeWidth - 1) + c)
    (hc : F.binary.Nearest (q / 2 ^ F.binary.emin) c) : Finished s q r := by
  obtain ⟨hsign,habs⟩ := Format.fields_of_toNat (hc.le_top.trans_lt F.inf_lt) hr
  exact ⟨hsign,by rw [habs]; exact hc⟩

theorem maxExponent_eq : (F.k.maxExponent : ℤ) = 2 ^ F.exponentBits - 1 := by
  have hpos := Nat.two_pow_pos F.exponentBits
  have hpow : ((2 ^ F.exponentBits : ℕ) : ℤ) = 2 ^ F.exponentBits := by norm_cast
  change ((2 ^ F.exponentBits - 1 : ℕ) : ℤ) = _
  omega

theorem finished_overflow {x : ℚ} (hsign : sign.toNat = s.toNat * 2 ^ (F.typeWidth - 1))
    (hlo : 2 ^ F.significandBits ≤ x) (he : (F.k.maxExponent : ℤ) ≤ e)
    (hq : q = x * 2 ^ (e - 1 + F.binary.emin)) : Finished s q (F.k.infRep ||| sign) := by
  obtain ⟨hs,hinf⟩ := Format.infRep_fields hsign
  rw [maxExponent_eq] at he
  refine ⟨hs,?_⟩
  rw [hinf]
  exact Format.nearest_overflow hlo he hq

/-- The exponent field takes in the implicit bit. -/
theorem insertExponent_eq (t : ShiftTarget) {x : F.Rep} (hlo : 2 ^ F.significandBits ≤ x.toNat)
    (hhi : x.toNat < 2 ^ (F.significandBits + 1)) (he : 1 ≤ e) (he' : e < 2 ^ F.exponentBits - 1) :
    ∃ y, shl t (BitVec.ofInt F.typeWidth e) F.significandBits = some y ∧
      ((x &&& F.k.significandMask) ||| y).toNat = (e.toNat - 1) * 2 ^ F.significandBits + x.toNat ∧
      (e.toNat - 1) * 2 ^ F.significandBits + x.toNat < F.binary.inf := by
  have hge := F.exponentBits_ge
  have hpow : ((2 ^ F.exponentBits : ℕ) : ℤ) = 2 ^ F.exponentBits := by norm_cast
  have hexp : (BitVec.ofInt F.typeWidth e <<< F.significandBits).toNat = e.toNat * 2 ^ F.significandBits := by
    obtain ⟨n,rfl⟩ : ∃ n : ℕ, e = n := ⟨e.toNat,by omega⟩
    have hn : n < 2 ^ F.exponentBits := by omega
    have hfit : n * 2 ^ F.significandBits < 2 ^ F.typeWidth := by
      calc n * 2 ^ F.significandBits < 2 ^ F.exponentBits * 2 ^ F.significandBits :=
            Nat.mul_lt_mul_of_pos_right hn (Nat.two_pow_pos _)
        _ ≤ 2 ^ F.typeWidth := by
            rw [← pow_add]
            exact Nat.pow_le_pow_right (by decide) (by have := F.typeWidth_eq; omega)
    have hnat : (BitVec.ofNat F.typeWidth n).toNat = n := by
      refine toNat_ofNat_lt (lt_of_le_of_lt ?_ hfit)
      exact Nat.le_mul_of_pos_right _ (Nat.two_pow_pos _)
    rw [BitVec.ofInt_natCast, BitMask.toNat_shiftLeft_of_lt (by rw [hnat]; exact hfit), hnat, Int.toNat_natCast]
  obtain ⟨f,hf⟩ := Nat.exists_eq_add_of_le hlo
  rw [pow_succ] at hhi
  have hfrac : (x &&& F.k.significandMask).toNat = f := by
    rw [toNat_and_significandMask, frac, hf, Nat.add_mod_left]
    exact Nat.mod_eq_of_lt (by omega)
  refine ⟨_,shl_natCast t (BitVec.ofInt F.typeWidth e) (n := F.significandBits) (by omega),?_,?_⟩
  · rw [BitVec.or_comm, BitMask.toNat_or_disjoint (k := F.significandBits), hexp, hfrac, hf, ← Nat.add_assoc,
      ← Nat.succ_mul]
    · congr 2
      omega
    · rw [hexp]
      exact Nat.dvd_mul_left _ _
    · rw [hfrac]
      omega
  · have hmul : (e.toNat - 1 + 2) * 2 ^ F.significandBits ≤ (2 ^ F.exponentBits - 1) * 2 ^ F.significandBits :=
      Nat.mul_le_mul_right _ (by omega)
    rw [Nat.add_mul] at hmul
    rw [Format.inf_eq]
    omega

theorem two_pow_significandBits_mod_two (F : Format) : 2 ^ F.significandBits % 2 = 0 := by
  obtain ⟨j,hj⟩ := Nat.exists_eq_succ_of_ne_zero F.significandBits_pos.ne'
  rw [hj, pow_succ, Nat.mul_mod_left]

end Finish

/-! ## Wide right shifts -/

/-- A shift by the full width gives zero or the operand. -/
def ReadsFullWidth (t : ShiftTarget) : Prop :=
  ∀ {w : ℕ} (x : BitVec w), t.outOfRange x w = some 0 ∨ t.outOfRange x w = some x

section Wide
variable {F : Format} {t : ShiftTarget} {hi lo : F.Rep} {count : ℕ}

/-- Two words as one number. -/
def wide (hi lo : F.Rep) : ℕ := hi.toNat * 2 ^ F.typeWidth + lo.toNat

theorem wide_div (hi lo : F.Rep) : wide hi lo / 2 ^ F.typeWidth = hi.toNat := by
  rw [wide, Nat.mul_comm, Nat.mul_add_div (Nat.two_pow_pos _), Nat.div_eq_of_lt lo.isLt, Nat.add_zero]

theorem wide_mod (hi lo : F.Rep) : wide hi lo % 2 ^ F.typeWidth = lo.toNat := by
  rw [wide, Nat.mul_comm, Nat.mul_add_mod, Nat.mod_eq_of_lt lo.isLt]

theorem toNat_shiftLeft_high (x : F.Rep) (h : count ≤ F.typeWidth) :
    (x <<< (F.typeWidth - count)).toNat = x.toNat % 2 ^ count * 2 ^ (F.typeWidth - count) := by
  have hsplit : 2 ^ F.typeWidth = 2 ^ count * 2 ^ (F.typeWidth - count) := by rw [← pow_add, Nat.add_sub_cancel' h]
  rw [BitVec.toNat_shiftLeft, Nat.shiftLeft_eq, hsplit, Nat.mul_mod_mul_right]

theorem wideRightShift_small (hi lo : F.Rep) (h0 : 0 < count) (h : count < F.typeWidth) :
    ∃ hi' lo' : F.Rep, wideRightShiftWithSticky t F hi lo count = some (hi', lo') ∧ hi'.toNat = hi.toNat / 2 ^ count ∧
      wide hi' lo' = stickyShift (wide hi lo) count := by
  have hcast : (F.typeWidth : ℤ) - count = (F.typeWidth - count : ℕ) := by omega
  have h1 := shl_natCast t lo (n := F.typeWidth - count) (by omega)
  have h2 := shl_natCast t hi (n := F.typeWidth - count) (by omega)
  have h3 := shr_natCast t lo (n := count) h
  have h4 := shr_natCast t hi (n := count) h
  have hsplit : 2 ^ F.typeWidth = 2 ^ count * 2 ^ (F.typeWidth - count) := by rw [← pow_add, Nat.add_sub_cancel' h.le]
  have hlo := lo.isLt
  -- the low word before the sticky bit
  have hlow : (lo >>> count).toNat = lo.toNat / 2 ^ count := by
    rw [BitVec.toNat_ushiftRight, Nat.shiftRight_eq_div_pow]
  have hsum : (hi <<< (F.typeWidth - count) ||| lo >>> count).toNat =
      hi.toNat % 2 ^ count * 2 ^ (F.typeWidth - count) + lo.toNat / 2 ^ count := by
    rw [BitMask.toNat_or_disjoint (k := F.typeWidth - count), toNat_shiftLeft_high hi h.le, hlow]
    · rw [toNat_shiftLeft_high hi h.le]
      exact Nat.dvd_mul_left _ _
    · rw [hlow, Nat.div_lt_iff_lt_mul (Nat.two_pow_pos _), Nat.mul_comm, ← hsplit]
      exact hlo
  have hwide : wide hi lo = 2 ^ count * (hi.toNat * 2 ^ (F.typeWidth - count)) + lo.toNat := by
    rw [wide, hsplit]
    ring
  have hdiv : wide hi lo / 2 ^ count = hi.toNat / 2 ^ count * 2 ^ F.typeWidth +
      (hi.toNat % 2 ^ count * 2 ^ (F.typeWidth - count) + lo.toNat / 2 ^ count) := by
    have hhi : hi.toNat * 2 ^ (F.typeWidth - count) = hi.toNat / 2 ^ count * 2 ^ F.typeWidth +
        hi.toNat % 2 ^ count * 2 ^ (F.typeWidth - count) := by
      rw [hsplit, ← Nat.mul_assoc, ← Nat.add_mul, Nat.div_add_mod']
    rw [hwide, Nat.mul_add_div (Nat.two_pow_pos _), hhi, Nat.add_assoc]
  have hmod : wide hi lo % 2 ^ count = lo.toNat % 2 ^ count := by rw [hwide, Nat.mul_add_mod]
  have htwo := F.two_pow_width
  simp only [wideRightShiftWithSticky, if_pos h, hcast, h1, h2, h3, h4, Option.pure_def, Option.bind_eq_bind,
    Option.bind_some]
  refine ⟨_,_,rfl,?_,?_⟩
  · rw [BitVec.toNat_ushiftRight, Nat.shiftRight_eq_div_pow]
  · rw [wide, toNat_or_ofBool F.width_pos, bne_zero, hsum, BitVec.toNat_ushiftRight, Nat.shiftRight_eq_div_pow, stickyShift,
      hdiv, hmod]
    simp only [decide_eq_true_eq, ne_eq, toNat_shiftLeft_eq_zero_iff lo h.le, ite_not]
    split_ifs
    · rfl
    · generalize hi.toNat % 2 ^ count * 2 ^ (F.typeWidth - count) + lo.toNat / 2 ^ count = y
      rw [htwo, ← Nat.mul_assoc]
      omega

/-- What is left is less than a half wherever the amount is the width of the type or more. -/
theorem wideRightShift_large (lo : F.Rep) (h : F.typeWidth ≤ count) (hhi : hi.toNat < 2 ^ (F.typeWidth - 2))
    (hread : count = F.typeWidth → ReadsFullWidth t) :
    ∃ lo' : F.Rep, wideRightShiftWithSticky t F hi lo count = some (0, lo') ∧ lo'.toNat < 2 ^ (F.typeWidth - 1) := by
  have hge := F.exponentBits_ge
  have htwo : 2 ^ (F.typeWidth - 1) = 2 ^ (F.typeWidth - 2) * 2 := by rw [← pow_succ]; congr 1; omega
  have hpos := Nat.two_pow_pos (F.typeWidth - 2)
  have hone : ∀ b : Bool, (ofBool F.typeWidth b).toNat < 2 ^ (F.typeWidth - 1) := by
    intro b
    have hlt : 1 < 2 ^ F.typeWidth := Nat.one_lt_two_pow F.width_pos.ne'
    cases b
    · exact Nat.two_pow_pos _
    · change 1 % 2 ^ F.typeWidth < _
      rw [Nat.mod_eq_of_lt hlt]
      exact Nat.one_lt_two_pow (by omega)
  have hsmall : ∀ (n : ℕ) (b : Bool), (hi >>> n ||| ofBool F.typeWidth b).toNat < 2 ^ (F.typeWidth - 1) := by
    intro n b
    have hle : (hi >>> n).toNat ≤ hi.toNat := by
      rw [BitVec.toNat_ushiftRight, Nat.shiftRight_eq_div_pow]
      exact Nat.div_le_self _ _
    rw [toNat_or_ofBool F.width_pos]
    split_ifs <;> omega
  unfold wideRightShiftWithSticky
  rw [if_neg (Nat.not_lt.mpr h)]
  by_cases h2 : count < 2 * F.typeWidth
  · have hcast : (count : ℤ) - F.typeWidth = (count - F.typeWidth : ℕ) := by omega
    have hcast2 : 2 * (F.typeWidth : ℤ) - count = (2 * F.typeWidth - count : ℕ) := by omega
    have hr := shr_natCast t hi (n := count - F.typeWidth) (by omega)
    obtain ⟨y,hy⟩ : ∃ y, shl t hi (2 * F.typeWidth - count : ℕ) = some y := by
      rcases Nat.eq_or_lt_of_le h with heq | hlt
      · have hout : ¬InRange F.typeWidth ((2 * F.typeWidth - count : ℕ) : ℤ) := by
          unfold InRange
          omega
        have hcount : ((2 * F.typeWidth - count : ℕ) : ℤ) = F.typeWidth := by omega
        rw [shl, if_neg hout, hcount]
        rcases hread heq.symm hi with h0 | h0
        · exact ⟨_,h0⟩
        · exact ⟨_,h0⟩
      · exact ⟨_,shl_natCast t hi (by omega)⟩
    simp only [if_pos h2, hcast, hcast2, hr, hy, Option.pure_def, Option.bind_eq_bind, Option.bind_some]
    exact ⟨_,rfl,hsmall _ _⟩
  · rw [if_neg h2]
    exact ⟨_,rfl,hone _⟩

/-- A shift by the width of the type or more leaves less than a half. -/
theorem roundDiv_wide_far (h : F.typeWidth ≤ count) (hhi : hi.toNat < 2 ^ (F.typeWidth - 2)) :
    roundDiv (wide hi lo) (2 ^ (count + F.typeWidth)) = 0 := by
  have hge := F.exponentBits_ge
  have hlo := lo.isLt
  have hpow : 2 ^ (F.typeWidth + F.typeWidth) ≤ 2 ^ (count + F.typeWidth) := Nat.pow_le_pow_right (by decide) (by omega)
  have hmul : (hi.toNat + 1) * 2 ^ F.typeWidth ≤ 2 ^ (F.typeWidth - 2) * 2 ^ F.typeWidth := Nat.mul_le_mul_right _ hhi
  have hquarter : 2 ^ (F.typeWidth + F.typeWidth) = 4 * (2 ^ (F.typeWidth - 2) * 2 ^ F.typeWidth) := by
    have hfour : (4 : ℕ) = 2 ^ 2 := rfl
    rw [← pow_add, hfour, ← pow_add]
    congr 1
    omega
  rw [Nat.add_mul, Nat.one_mul] at hmul
  refine roundDiv_of_lt ?_
  unfold wide
  omega

/-- In all cases the two words are rounded to what the exact quotient is rounded to. -/
theorem wideRightShift_rounds (lo : F.Rep) (h0 : 0 < count) (hhi : hi.toNat < 2 ^ (F.typeWidth - 2))
    (hread : count = F.typeWidth → ReadsFullWidth t) :
    ∃ hi' lo' : F.Rep, wideRightShiftWithSticky t F hi lo count = some (hi', lo') ∧ hi'.toNat ≤ hi.toNat / 2 ∧
      roundDiv (wide hi' lo') (2 ^ F.typeWidth) = roundDiv (wide hi lo) (2 ^ (count + F.typeWidth)) := by
  have hge := F.exponentBits_ge
  rcases Nat.lt_or_ge count F.typeWidth with hlt | hle
  · obtain ⟨hi',lo',hr,hhi',hwide⟩ := wideRightShift_small (t := t) hi lo h0 hlt
    refine ⟨hi',lo',hr,?_,?_⟩
    · rw [hhi']
      exact Nat.div_le_div_left (by simpa using Nat.pow_le_pow_right (n := 2) (by decide) h0) (by decide)
    · rw [hwide]
      exact roundDiv_stickyShift _ _ (by omega)
  · obtain ⟨lo',hr,hlo'⟩ := wideRightShift_large lo hle hhi hread
    refine ⟨0,lo',hr,Nat.zero_le _,?_⟩
    have htwo := F.two_pow_width
    have hleft : wide (0 : F.Rep) lo' = lo'.toNat := by
      rw [wide]
      change 0 * 2 ^ F.typeWidth + _ = _
      rw [Nat.zero_mul, Nat.zero_add]
    rw [hleft, roundDiv_of_lt (by omega), roundDiv_wide_far hle hhi]

theorem wideLeftShift_one_eq (lo : F.Rep) (hhi : hi.toNat < 2 ^ (F.typeWidth - 1)) :
    ∃ hi' lo' : F.Rep, wideLeftShift t F hi lo 1 = some (hi', lo') ∧ wide hi' lo' = 2 * wide hi lo := by
  have hge := F.exponentBits_ge
  have htwo := F.two_pow_width
  have hlo := lo.isLt
  have hcast : (F.typeWidth : ℤ) - 1 = (F.typeWidth - 1 : ℕ) := by omega
  have h1 := shl_natCast t hi (n := 1) (by omega)
  have h2 := shl_natCast t lo (n := 1) (by omega)
  have h3 := shr_natCast t lo (n := F.typeWidth - 1) (by omega)
  have hup : (hi <<< 1).toNat = hi.toNat * 2 := BitMask.toNat_shiftLeft_of_lt (by omega)
  have htop : (lo >>> (F.typeWidth - 1)).toNat = lo.toNat / 2 ^ (F.typeWidth - 1) := by
    rw [BitVec.toNat_ushiftRight, Nat.shiftRight_eq_div_pow]
  have hbit : lo.toNat / 2 ^ (F.typeWidth - 1) < 2 := by
    rw [Nat.div_lt_iff_lt_mul (Nat.two_pow_pos _)]
    omega
  have hor : (hi <<< 1 ||| lo >>> (F.typeWidth - 1)).toNat = hi.toNat * 2 + lo.toNat / 2 ^ (F.typeWidth - 1) := by
    rw [BitMask.toNat_or_disjoint (k := 1), hup, htop]
    · rw [hup]
      exact Nat.dvd_mul_left _ _
    · rw [htop]
      exact hbit
  have hdown : (lo <<< 1).toNat = lo.toNat % 2 ^ (F.typeWidth - 1) * 2 := by
    rw [BitVec.toNat_shiftLeft, Nat.shiftLeft_eq, htwo]
    exact Nat.mul_mod_mul_right 2 lo.toNat _
  have hsplit := Nat.div_add_mod' lo.toNat (2 ^ (F.typeWidth - 1))
  have hone : (1 : ℤ) = ((1 : ℕ) : ℤ) := rfl
  simp only [wideLeftShift, hcast, h3, Option.pure_def, Option.bind_eq_bind, Option.bind_some]
  rw [hone, h1, h2]
  refine ⟨_,_,rfl,?_⟩
  rw [wide, wide, hor, hdown, htwo]
  calc (hi.toNat * 2 + lo.toNat / 2 ^ (F.typeWidth - 1)) * (2 ^ (F.typeWidth - 1) * 2) +
        lo.toNat % 2 ^ (F.typeWidth - 1) * 2 =
      2 * (hi.toNat * (2 ^ (F.typeWidth - 1) * 2)) +
        2 * (lo.toNat / 2 ^ (F.typeWidth - 1) * 2 ^ (F.typeWidth - 1) + lo.toNat % 2 ^ (F.typeWidth - 1)) := by ring
    _ = 2 * (hi.toNat * (2 ^ (F.typeWidth - 1) * 2) + lo.toNat) := by rw [hsplit]; ring

end Wide
end CompilerRt.FpLib
