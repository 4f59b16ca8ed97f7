import CompilerRt.Builtins.FpLib
import Mathlib.Data.Nat.Bitwise

/-! # The fields of a representation

A finite nonzero operand enters each routine as an exponent and a significand with its implicit bit;
`Operand` says what the two have to do with the magnitude that the bits stand for.
-/
namespace CompilerRt.FpLib
open CShift

section Widths
variable (F : Format)

theorem Format.two_pow_lt {n : ℕ} (h : n < F.typeWidth) : 2^n < 2^F.typeWidth :=
  Nat.pow_lt_pow_right (by decide) h

theorem Format.typeWidth_eq : F.typeWidth = F.significandBits + F.exponentBits + 1 := by
  have h := F.exponentBits_ge
  unfold Format.exponentBits
  omega

theorem Format.exponentBits_bounds : 5 ≤ F.exponentBits ∧ F.exponentBits ≤ 30 := by
  have h1 := F.exponentBits_ge
  have h2 := F.exponentBits_le
  unfold Format.exponentBits
  omega

theorem Format.two_pow_exponentBits_le : 2^F.exponentBits ≤ 2^30 :=
  Nat.pow_le_pow_right (by decide) F.exponentBits_bounds.2

/-- The value of a macro, all of which fit their types. -/
theorem toNat_ofNat_lt {w n : ℕ} (h : n < 2^w) : (BitVec.ofNat w n).toNat = n := by
  rw [BitVec.toNat_ofNat, Nat.mod_eq_of_lt h]

@[simp] theorem Format.toNat_implicitBit : F.k.implicitBit.toNat = 2^F.significandBits := by
  have h := F.exponentBits_ge
  exact toNat_ofNat_lt (F.two_pow_lt (by omega))

@[simp] theorem Format.toNat_signBit : F.k.signBit.toNat = 2^(F.typeWidth - 1) := by
  have h := F.exponentBits_ge
  exact toNat_ofNat_lt (F.two_pow_lt (by omega))

@[simp] theorem Format.toNat_absMask : F.k.absMask.toNat = 2^(F.typeWidth - 1) - 1 := by
  have h := F.exponentBits_ge
  exact toNat_ofNat_lt ((Nat.sub_le _ _).trans_lt (F.two_pow_lt (by omega)))

@[simp] theorem Format.toNat_significandMask : F.k.significandMask.toNat = 2^F.significandBits - 1 := by
  have h := F.exponentBits_ge
  exact toNat_ofNat_lt ((Nat.sub_le _ _).trans_lt (F.two_pow_lt (by omega)))

/-- A low mask inside another is cut out by an exclusive or. -/
theorem two_pow_sub_one_xor {m n : ℕ} (h : m ≤ n) : (2^n - 1) ^^^ (2^m - 1) = 2^n - 2^m := by
  have hsplit : 2^n - 2^m = 2^m * (2^(n-m) - 1) := by
    rw [Nat.mul_sub, ← pow_add, Nat.add_sub_cancel' h, Nat.mul_one]
  rw [hsplit]
  apply Nat.eq_of_testBit_eq
  intro i
  rw [Nat.testBit_xor, Nat.testBit_two_pow_sub_one, Nat.testBit_two_pow_sub_one, Nat.testBit_two_pow_mul,
    Nat.testBit_two_pow_sub_one]
  by_cases hm : i < m
  · simp [hm, hm.trans_le h]
  · have hi : i - m < n - m ↔ i < n := by omega
    simp [hm, hi, Nat.not_lt.mp hm]

@[simp] theorem Format.toNat_infRep : F.k.infRep.toNat = 2^(F.typeWidth - 1) - 2^F.significandBits := by
  have h := F.exponentBits_ge
  rw [← two_pow_sub_one_xor (show F.significandBits ≤ F.typeWidth - 1 by omega), ← F.toNat_absMask,
    ← F.toNat_significandMask]
  exact BitVec.toNat_xor _ _

end Widths

/-! ## Exponent, significand and magnitude -/

section Fields
variable (t : ShiftTarget) (F : Format)

/-- The exponent field. -/
def expo (x : F.Rep) : ℕ := x.toNat / 2^F.significandBits % 2^F.exponentBits

/-- The significand field. -/
def frac (x : F.Rep) : ℕ := x.toNat % 2^F.significandBits

/-- The magnitude, in units of the smallest denormal number. -/
def mag (x : F.Rep) : ℕ :=
  if expo F x = 0 then frac F x else (frac F x + 2^F.significandBits) * 2^(expo F x - 1)

theorem expo_lt (x : F.Rep) : expo F x < 2^F.exponentBits := Nat.mod_lt _ (Nat.two_pow_pos _)

theorem frac_lt (x : F.Rep) : frac F x < 2^F.significandBits := Nat.mod_lt _ (Nat.two_pow_pos _)

theorem exponentField_eq (x : F.Rep) : exponentField t F F.k x = some (expo F x) := by
  have h := F.exponentBits_ge
  have hb := F.exponentBits_bounds
  have hw := F.typeWidth_eq
  have hs := shr_natCast t x (n := F.significandBits) (by omega)
  simp only [exponentField, hs, Option.pure_def, Option.bind_eq_bind, Option.bind_some, Option.some.injEq]
  rw [BitVec.toNat_and, BitVec.toNat_ushiftRight, Nat.shiftRight_eq_div_pow, toNat_ofNat_lt]
  · exact Nat.and_two_pow_sub_one_eq_mod _ _
  · exact (Nat.sub_le _ _).trans_lt (F.two_pow_lt (by omega))

@[simp] theorem toNat_and_significandMask (x : F.Rep) : (x &&& F.k.significandMask).toNat = frac F x := by
  rw [BitVec.toNat_and, F.toNat_significandMask]
  exact Nat.and_two_pow_sub_one_eq_mod _ _

theorem toNat_and_absMask (x : F.Rep) : (x &&& F.k.absMask).toNat = x.toNat % 2^(F.typeWidth - 1) := by
  rw [BitVec.toNat_and, F.toNat_absMask]
  exact Nat.and_two_pow_sub_one_eq_mod _ _

/-- The bits below the sign are the exponent field over the significand field. -/
theorem abs_eq (x : F.Rep) :
    (x &&& F.k.absMask).toNat = expo F x * 2^F.significandBits + frac F x := by
  have hw : F.typeWidth - 1 = F.significandBits + F.exponentBits := by rw [F.typeWidth_eq]; rfl
  rw [toNat_and_absMask, hw, pow_add, Nat.mod_mul, expo, frac]
  ring

theorem abs_lt_implicitBit_iff (x : F.Rep) : x &&& F.k.absMask < F.k.implicitBit ↔ expo F x = 0 := by
  have hf := frac_lt F x
  rw [BitVec.lt_def, abs_eq, F.toNat_implicitBit]
  constructor
  · intro h
    by_contra h0
    have := Nat.mul_le_mul_right (2^F.significandBits) (Nat.one_le_iff_ne_zero.mpr h0)
    omega
  · intro h
    rw [h]
    omega

theorem abs_ne_zero_iff (x : F.Rep) : x &&& F.k.absMask ≠ 0 ↔ ¬ (expo F x = 0 ∧ frac F x = 0) := by
  have hp := Nat.two_pow_pos F.significandBits
  rw [not_iff_not, ← BitVec.toNat_inj, abs_eq]
  change _ = 0 ↔ _
  rw [Nat.add_eq_zero_iff, Nat.mul_eq_zero]
  constructor
  · rintro ⟨h1 | h1,h2⟩
    · exact ⟨h1,h2⟩
    · omega
  · rintro ⟨h1,h2⟩
    exact ⟨Or.inl h1,h2⟩

theorem mag_pos_iff (x : F.Rep) : 0 < mag F x ↔ x &&& F.k.absMask ≠ 0 := by
  have hp := Nat.two_pow_pos F.significandBits
  rw [abs_ne_zero_iff, mag]
  split_ifs with h
  · simp [h, Nat.pos_iff_ne_zero]
  · simp [h]

/-! ## Operands -/

/-- `exponent` and `significand` stand for the finite nonzero `x`. -/
structure Operand (x : F.Rep) (exponent : ℤ) (significand : F.Rep) : Prop where
  le_significand : 2^F.significandBits ≤ significand.toNat
  significand_lt : significand.toNat < 2^(F.significandBits + 1)
  le_exponent : 1 - (F.significandBits : ℤ) ≤ exponent
  exponent_lt : exponent < 2^F.exponentBits
  value : significand.toNat * 2^(exponent + F.significandBits - 1).toNat = mag F x * 2^F.significandBits

/-- Or-ing in the implicit bit of a significand that has it changes nothing. -/
theorem or_implicitBit_of_le {s : F.Rep} (h1 : 2^F.significandBits ≤ s.toNat)
    (h2 : s.toNat < 2^(F.significandBits + 1)) : s ||| F.k.implicitBit = s := by
  apply BitVec.eq_of_toNat_eq
  obtain ⟨r,hr⟩ := Nat.exists_eq_add_of_le h1
  rw [pow_succ] at h2
  have hlt : r < 2^F.significandBits := by omega
  have hor := Nat.two_pow_add_eq_or_of_lt hlt 1
  rw [Nat.mul_one] at hor
  rw [BitVec.toNat_or, F.toNat_implicitBit, hr, hor, Nat.or_assoc, Nat.or_comm r, ← Nat.or_assoc, Nat.or_self]

theorem toNat_or_implicitBit {s : F.Rep} (h : s.toNat < 2^F.significandBits) :
    (s ||| F.k.implicitBit).toNat = s.toNat + 2^F.significandBits := by
  have hor := Nat.two_pow_add_eq_or_of_lt h 1
  rw [Nat.mul_one] at hor
  rw [BitVec.toNat_or, F.toNat_implicitBit, Nat.or_comm, ← hor, Nat.add_comm]

/-- A normal operand. -/
theorem operand_of_normal {x : F.Rep} (h : expo F x ≠ 0) :
    Operand F x (expo F x) ((x &&& F.k.significandMask) ||| F.k.implicitBit) := by
  have hf := frac_lt F x
  have he := expo_lt F x
  have hs : ((x &&& F.k.significandMask) ||| F.k.implicitBit).toNat = frac F x + 2^F.significandBits := by
    rw [toNat_or_implicitBit F (by rw [toNat_and_significandMask]; exact hf), toNat_and_significandMask]
  refine ⟨by omega,by rw [hs, pow_succ]; omega,by omega,by exact_mod_cast he,?_⟩
  have hexp : ((expo F x : ℤ) + F.significandBits - 1).toNat = expo F x - 1 + F.significandBits := by omega
  rw [hs, hexp, mag, if_neg h, pow_add]
  ring

/-- `normalize` shifts by one place at least and by the width of the field at most. -/
theorem normalize_eq {s : F.Rep} (h0 : s ≠ 0) (hs : s.toNat < 2^F.significandBits) :
    ∃ n : ℕ, 1 ≤ n ∧ n ≤ F.significandBits ∧ (s <<< n).toNat = s.toNat * 2^n ∧
      2^F.significandBits ≤ (s <<< n).toNat ∧ (s <<< n).toNat < 2^(F.significandBits + 1) ∧
      normalize t F F.k s = some (1 - (n : ℤ), s <<< n) := by
  have hge := F.exponentBits_ge
  have h0' : s.toNat ≠ 0 := fun h => h0 (BitVec.eq_of_toNat_eq h)
  have hlog : Nat.log 2 s.toNat < F.significandBits := Nat.log_lt_of_lt_pow h0' hs
  have hlo := Nat.pow_log_le_self 2 h0'
  have hhi := Nat.lt_pow_succ_log_self (b := 2) (by decide) s.toNat
  have himp : F.k.implicitBit ≠ 0 := by
    intro h
    have := congrArg BitVec.toNat h
    rw [F.toNat_implicitBit] at this
    exact (Nat.two_pow_pos _).ne' this
  obtain ⟨n,hn⟩ : ∃ n, n = F.significandBits - Nat.log 2 s.toNat := ⟨_,rfl⟩
  have hsum : Nat.log 2 s.toNat + n = F.significandBits := by omega
  have h1 : 2^F.significandBits ≤ s.toNat * 2^n := by
    rw [← hsum, pow_add]
    exact Nat.mul_le_mul_right _ hlo
  have h2 : s.toNat * 2^n < 2^(F.significandBits + 1) := by
    rw [← hsum, Nat.add_right_comm, pow_add _ (_ + 1)]
    exact Nat.mul_lt_mul_of_pos_right hhi (Nat.two_pow_pos _)
  have hshift : (s <<< n).toNat = s.toNat * 2^n := by
    have hlt := F.two_pow_lt (n := F.significandBits + 1) (by omega)
    rw [BitVec.toNat_shiftLeft, Nat.shiftLeft_eq, Nat.mod_eq_of_lt (by omega)]
  refine ⟨n,by omega,by omega,hshift,by rwa [hshift],by rwa [hshift],?_⟩
  have hcount : ((builtin_clz s : ℕ) : ℤ) - (builtin_clz F.k.implicitBit : ℕ) = (n : ℕ) := by
    unfold builtin_clz
    rw [F.toNat_implicitBit, Nat.log_pow (by decide)]
    omega
  have hsome := shl_natCast t s (n := n) (by omega)
  simp only [normalize, F.rep_clz_eq t _ h0, F.rep_clz_eq t _ himp, Option.pure_def, Option.bind_eq_bind,
    Option.bind_some, hcount, hsome]

/-- A denormal operand, normalized. -/
theorem operand_of_denormal {x : F.Rep} (h : expo F x = 0) (h0 : x &&& F.k.absMask ≠ 0) :
    ∃ e s, normalize t F F.k (x &&& F.k.significandMask) = some (e, s) ∧
      Operand F x e (s ||| F.k.implicitBit) ∧ e ≤ 0 := by
  have hne : x &&& F.k.significandMask ≠ 0 := by
    intro hz
    have hz' := congrArg BitVec.toNat hz
    rw [toNat_and_significandMask] at hz'
    exact (abs_ne_zero_iff F x).mp h0 ⟨h,hz'⟩
  have hlt : (x &&& F.k.significandMask).toNat < 2^F.significandBits := by
    rw [toNat_and_significandMask]
    exact frac_lt F x
  obtain ⟨n,hn1,hn2,hs,hlo,hhi,he⟩ := normalize_eq t F hne hlt
  refine ⟨_,_,he,?_,by omega⟩
  rw [or_implicitBit_of_le F hlo hhi]
  have hp := Nat.two_pow_pos F.exponentBits
  refine ⟨hlo,hhi,by omega,?_,?_⟩
  · have : (0 : ℤ) < 2^F.exponentBits := by exact_mod_cast hp
    omega
  · have hexp : (1 - (n : ℤ) + F.significandBits - 1).toNat = F.significandBits - n := by omega
    rw [hs, hexp, toNat_and_significandMask, mag, if_pos h, Nat.mul_assoc, ← pow_add, Nat.add_sub_cancel' hn2]

/-- The larger magnitude has the larger exponent, and at equal exponents the larger significand. -/
theorem Operand.exponent_le {x y : F.Rep} {ex ey : ℤ} {sx sy : F.Rep} (hx : Operand F x ex sx)
    (hy : Operand F y ey sy) (h : mag F y ≤ mag F x) : ey ≤ ex := by
  by_contra hlt
  have hex := hx.le_exponent
  obtain ⟨d,hd⟩ : ∃ d, (ey + F.significandBits - 1).toNat = (ex + F.significandBits - 1).toNat + 1 + d :=
    ⟨(ey - ex).toNat - 1,by omega⟩
  have hxy : sy.toNat * 2^(ey + F.significandBits - 1).toNat ≤ sx.toNat * 2^(ex + F.significandBits - 1).toNat := by
    rw [hx.value, hy.value]
    exact Nat.mul_le_mul_right _ h
  have hs : sx.toNat < sy.toNat * 2 := by
    have h1 := hx.significand_lt
    have h2 := hy.le_significand
    rw [pow_succ] at h1
    omega
  have hlt' : sx.toNat * 2^(ex + F.significandBits - 1).toNat < sy.toNat * 2^(ey + F.significandBits - 1).toNat := by
    calc sx.toNat * 2^(ex + F.significandBits - 1).toNat
        < sy.toNat * 2 * 2^(ex + F.significandBits - 1).toNat := Nat.mul_lt_mul_of_pos_right hs (Nat.two_pow_pos _)
      _ ≤ sy.toNat * 2 * 2^(ex + F.significandBits - 1).toNat * 2^d := Nat.le_mul_of_pos_right _ (Nat.two_pow_pos _)
      _ = sy.toNat * 2^(ey + F.significandBits - 1).toNat := by rw [hd, pow_add, pow_succ]; ring
  omega

end Fields

/-! ## The shifts of the inline functions -/

section Header
variable (F : Format)

/-- The three branches of `wideRightShiftWithSticky` leave out one amount: `hi` would be shifted left by
the width of its type. -/
theorem wideRightShiftWithSticky_isSome (hi lo : F.Rep) {count : ℕ} (h : count ≠ 0) :
    (wideRightShiftWithSticky .strict F hi lo count).isSome = true ↔ count ≠ F.typeWidth := by
  unfold wideRightShiftWithSticky
  split_ifs with h1 h2
  · have hl : InRange F.typeWidth (F.typeWidth - count : ℤ) := ⟨by omega,by omega⟩
    have hr : InRange F.typeWidth (count : ℤ) := ⟨by omega,by omega⟩
    simp [shl_of_inRange _ _ hl, shr_of_inRange _ _ hr, h1.ne]
  · have hr : InRange F.typeWidth (count - F.typeWidth : ℤ) := ⟨by omega,by omega⟩
    have hl : InRange F.typeWidth (2 * F.typeWidth - count : ℤ) ↔ count ≠ F.typeWidth := by
      unfold InRange
      omega
    rw [← hl, ← shl_strict_isSome hi]
    cases shl .strict hi (2 * F.typeWidth - count) <;> simp [shr_of_inRange _ _ hr]
  · have hne : count ≠ F.typeWidth := by
      have := F.exponentBits_ge
      omega
    simp [hne]

theorem wideLeftShift_one (t : ShiftTarget) (hi lo : F.Rep) : (wideLeftShift t F hi lo 1).isSome = true := by
  have h := F.exponentBits_ge
  have hl : InRange F.typeWidth 1 := ⟨by omega,by omega⟩
  have hr : InRange F.typeWidth (F.typeWidth - 1 : ℤ) := ⟨by omega,by omega⟩
  simp [wideLeftShift, shl_of_inRange _ _ hl, shr_of_inRange _ _ hr]

theorem and_two_pow_ne_zero_iff {x n : ℕ} (h : x < 2^(n+1)) : x &&& 2^n ≠ 0 ↔ 2^n ≤ x := by
  have hp := Nat.two_pow_pos n
  rw [Nat.and_two_pow, Nat.testBit_eq_decide_div_mod_eq]
  have hdiv : x / 2^n < 2 := Nat.div_lt_of_lt_mul (by rwa [← pow_succ])
  by_cases hle : 2^n ≤ x
  · have h1 : x / 2^n = 1 := by
      have := Nat.div_pos hle hp
      omega
    simp [h1, hle]
  · have h0 : x / 2^n = 0 := Nat.div_eq_of_lt (by omega)
    simp [h0, hle]

end Header
end CompilerRt.FpLib
