import CompilerRt.Builtins.FpRounds
import CompilerRt.Lib.SignedRange
import Mathlib.Algebra.Order.Floor.Semifield
import Mathlib.Data.Rat.Floor

/-! # From floats to integers

The conversions of `lib/fix*.c`. Two take their fields from `fp_lib.h`; the others have the masks of their format in
the code, and those from double to 64 bits put the significand together from two words.
-/
namespace CompilerRt.FpToInt
open CShift FpLib

variable (t : ShiftTarget)

/-- `>>` of a signed word. -/
def sar {w : ℕ} (x : BitVec w) (n : ℤ) : Option (BitVec w) :=
  if InRange w n then some (x.sshiftRight n.toNat) else t.outOfRange x n

/-- `__fixsfsi` and `__fixdfsi`, in the types of their format; the product is taken modulo its width. -/
def fixsi (F : Format) (a : F.Rep) : Option (BitVec 32) := do
  let k ← macros t F
  let aAbs := a &&& k.absMask
  let sign : F.Rep := if a &&& k.signBit ≠ 0 then -1 else 1
  let exponent : ℤ := (← shr t aAbs F.significandBits).toNat - k.exponentBias
  let significand := (aAbs &&& k.significandMask) ||| k.implicitBit
  if exponent % 2 ^ 32 < F.significandBits then
    return (sign * (← shr t significand (F.significandBits - exponent))).truncate 32
  else if exponent < 0 then return 0
  else return (sign * (← shl t significand (exponent - F.significandBits))).truncate 32

def fixsfsi : BitVec 32 → Option (BitVec 32) := fixsi t single

def fixdfsi (c : Double.RepClz) : BitVec 64 → Option (BitVec 32) := fixsi t (double c)

def fixsfdi (a : BitVec 32) : Option (BitVec 64) := do
  let e : ℤ := ((a &&& 0x7F800000) >>> 23).toNat - 127
  if e < 0 then return 0
  else
    let s : BitVec 64 := ((a &&& 0x80000000).sshiftRight 31).signExtend 64
    let r : BitVec 64 := ((a &&& 0x007FFFFF) ||| 0x00800000).zeroExtend 64
    let r ← (if 23 < e then shl t r (e - 23) else sar t r (23 - e))
    return (r ^^^ s) - s

/-- The words of `double_bits`. -/
def high (a : BitVec 64) : BitVec 32 := (a >>> 32).truncate 32

def low (a : BitVec 64) : BitVec 32 := a.truncate 32

def fixdfdi (a : BitVec 64) : Option (BitVec 64) := do
  let e : ℤ := ((high a &&& 0x7FF00000) >>> 20).toNat - 1023
  if e < 0 then return 0
  else
    let s : BitVec 64 := ((high a &&& 0x80000000).sshiftRight 31).signExtend 64
    let r : BitVec 64 := ((high a &&& 0x000FFFFF) ||| 0x00100000) ++ low a
    let r ← (if 52 < e then shl t r (e - 52) else sar t r (52 - e))
    return (r ^^^ s) - s

def fixunssfsi (a : BitVec 32) : Option (BitVec 32) := do
  let e : ℤ := ((a &&& 0x7F800000) >>> 23).toNat - 127
  if e < 0 ∨ a &&& 0x80000000 ≠ 0 then return 0
  else
    let r := (a &&& 0x007FFFFF) ||| 0x00800000
    if 23 < e then shl t r (e - 23) else shr t r (23 - e)

def fixunssfdi (a : BitVec 32) : Option (BitVec 64) := do
  let e : ℤ := ((a &&& 0x7F800000) >>> 23).toNat - 127
  if e < 0 ∨ a &&& 0x80000000 ≠ 0 then return 0
  else
    let r : BitVec 64 := ((a &&& 0x007FFFFF) ||| 0x00800000).zeroExtend 64
    if 23 < e then shl t r (e - 23) else shr t r (23 - e)

/-- The top 32 bits of the significand, moved down. -/
def fixunsdfsi (a : BitVec 64) : Option (BitVec 32) := do
  let e : ℤ := ((high a &&& 0x7FF00000) >>> 20).toNat - 1023
  if e < 0 ∨ high a &&& 0x80000000 ≠ 0 then return 0
  else shr t ((0x80000000 : BitVec 32) ||| (high a &&& 0x000FFFFF) <<< 11 ||| low a >>> 21) (31 - e)

def fixunsdfdi (a : BitVec 64) : Option (BitVec 64) := do
  let e : ℤ := ((high a &&& 0x7FF00000) >>> 20).toNat - 1023
  if e < 0 ∨ high a &&& 0x80000000 ≠ 0 then return 0
  else
    let r : BitVec 64 := ((high a &&& 0x000FFFFF) ||| 0x00100000) ++ low a
    if 52 < e then shl t r (e - 52) else shr t r (52 - e)

/-! ## Truncation -/

section Truncation
variable {F : Format} {x : F.Rep}

/-- The integer next to zero. -/
def truncation (q : ℚ) : ℤ := if 0 ≤ q then ⌊q⌋ else ⌈q⌉

/-- The absolute value of the truncation, from the fields. -/
def magnitude (F : Format) (x : F.Rep) : ℕ :=
  if expo F x < F.k.exponentBias then 0
  else (frac F x + 2 ^ F.significandBits) * 2 ^ (expo F x - F.k.exponentBias) / 2 ^ F.significandBits

theorem one_le_exponentBias (F : Format) : 1 ≤ F.k.exponentBias := by
  have h := F.exponentBits_bounds
  have hle : 2 ^ 1 ≤ 2 ^ (F.exponentBits - 1) := Nat.pow_le_pow_right (by decide) (by omega)
  change 1 ≤ 2 ^ (F.exponentBits - 1) - 1
  omega

/-- Below one there is nothing left. -/
theorem abs_rat_lt_one (h : expo F x < F.k.exponentBias) : |F.rat x| < 1 := by
  have hbias := one_le_exponentBias F
  have hfrac := frac_lt F x
  have hmag : mag F x < 2 ^ (F.significandBits + (F.k.exponentBias - 1)) := by
    rw [mag]
    split_ifs with h0
    · exact hfrac.trans_le (Nat.pow_le_pow_right (by decide) (by omega))
    · calc (frac F x + 2 ^ F.significandBits) * 2 ^ (expo F x - 1)
          < 2 ^ (F.significandBits + 1) * 2 ^ (expo F x - 1) :=
            Nat.mul_lt_mul_of_pos_right (by rw [pow_succ]; omega) (Nat.two_pow_pos _)
        _ ≤ 2 ^ (F.significandBits + (F.k.exponentBias - 1)) := by
            rw [← pow_add]
            exact Nat.pow_le_pow_right (by decide) (by omega)
  have hexp : F.binary.emin = -((F.significandBits + (F.k.exponentBias - 1) : ℕ) : ℤ) := by
    rw [Format.emin_eq]
    omega
  rw [Format.abs_rat, hexp, zpow_neg, zpow_natCast, ← div_eq_mul_inv, div_lt_one (by positivity)]
  exact_mod_cast hmag

theorem abs_rat_eq_div (h : F.k.exponentBias ≤ expo F x) : |F.rat x| =
    ((frac F x + 2 ^ F.significandBits) * 2 ^ (expo F x - F.k.exponentBias) : ℕ) / (2 ^ F.significandBits : ℕ) := by
  have hbias := one_le_exponentBias F
  have hexp : ((expo F x - 1 : ℕ) : ℤ) + F.binary.emin = ((expo F x - F.k.exponentBias : ℕ) : ℤ) - F.significandBits := by
    rw [Format.emin_eq]
    omega
  rw [Format.abs_rat, mag, if_neg (by omega)]
  push_cast
  rw [mul_assoc, ← zpow_natCast 2 (expo F x - 1), ← zpow_add₀ (by norm_num), hexp, zpow_sub₀ (by norm_num),
    zpow_natCast, zpow_natCast, mul_div_assoc]

theorem floor_abs_rat (x : F.Rep) : ⌊|F.rat x|⌋₊ = magnitude F x := by
  unfold magnitude
  split_ifs with h
  · exact Nat.floor_eq_zero.mpr (abs_rat_lt_one h)
  · rw [abs_rat_eq_div (not_lt.mp h), Nat.floor_div_eq_div]

theorem truncation_rat (x : F.Rep) : truncation (F.rat x) = if F.sign x then -(magnitude F x : ℤ) else magnitude F x := by
  have hfloor : ⌊|F.rat x|⌋ = magnitude F x := by
    rw [← floor_abs_rat, Int.natCast_floor_eq_floor (abs_nonneg _)]
  have hrat := Format.rat_eq x
  cases hs : F.sign x with
  | false =>
    simp only [hs, Bool.false_eq_true, ↓reduceIte] at hrat
    rw [truncation, if_pos (by rw [hrat]; exact abs_nonneg _), hrat, hfloor]
    rfl
  | true =>
    simp only [hs, ↓reduceIte] at hrat
    rw [if_pos rfl, truncation]
    split_ifs with h0
    · have hzero : |F.rat x| = 0 := le_antisymm (by rw [hrat] at h0; linarith) (abs_nonneg _)
      rw [hzero, Int.floor_zero] at hfloor
      rw [abs_eq_zero.mp hzero, ← hfloor]
      rfl
    · rw [hrat, Int.ceil_neg, hfloor]

end Truncation

/-! ## Shifts to the place of the integer -/

section Shifts
variable {v p e sig : ℕ} {r : BitVec v}

/-- What is shifted up keeps all its digits where the result fits. -/
theorem shl_eq (hsig : 2 ^ p ≤ sig) (hr : r.toNat = sig) (hfits : sig * 2 ^ e / 2 ^ p < 2 ^ v) (hle : p ≤ e) :
    shl t r (e - p : ℤ) = some (BitVec.ofNat v (sig * 2 ^ e / 2 ^ p)) := by
  obtain ⟨k,rfl⟩ : ∃ k, e = p + k := ⟨e - p,by omega⟩
  have hval : sig * 2 ^ (p + k) / 2 ^ p = sig * 2 ^ k := by
    rw [pow_add, Nat.mul_left_comm, Nat.mul_div_cancel_left _ (Nat.two_pow_pos p)]
  rw [hval] at hfits ⊢
  have hk : k < v := by
    by_contra hle
    have h1 : 2 ^ v ≤ 2 ^ k := Nat.pow_le_pow_right (by decide) (not_lt.mp hle)
    have h2 : 2 ^ k ≤ sig * 2 ^ k := Nat.le_mul_of_pos_left _ ((Nat.two_pow_pos p).trans_le hsig)
    omega
  have hamount : ((p + k : ℕ) : ℤ) - p = k := by omega
  rw [hamount, shl_natCast t r hk]
  congr 1
  apply BitVec.eq_of_toNat_eq
  rw [BitMask.toNat_shiftLeft_of_lt (by rw [hr]; exact hfits), hr, BitVec.toNat_ofNat, Nat.mod_eq_of_lt hfits]

theorem shr_eq (hp : p < v) (hr : r.toNat = sig) (hfits : sig * 2 ^ e / 2 ^ p < 2 ^ v) (hle : e ≤ p) :
    shr t r (p - e : ℤ) = some (BitVec.ofNat v (sig * 2 ^ e / 2 ^ p)) := by
  obtain ⟨k,rfl⟩ : ∃ k, p = e + k := ⟨p - e,by omega⟩
  have hval : sig * 2 ^ e / 2 ^ (e + k) = sig / 2 ^ k := by
    rw [pow_add, Nat.mul_comm sig, Nat.mul_div_mul_left _ _ (Nat.two_pow_pos e)]
  have hamount : ((e + k : ℕ) : ℤ) - e = k := by omega
  rw [hval] at hfits ⊢
  rw [hamount, shr_natCast t r (by omega)]
  congr 1
  apply BitVec.eq_of_toNat_eq
  rw [BitVec.toNat_ushiftRight, Nat.shiftRight_eq_div_pow, hr, BitVec.toNat_ofNat, Nat.mod_eq_of_lt hfits]

/-- A word with the first 32 digits of 53 is only shifted down. -/
theorem shift_top {x : BitVec 32} (hx : x.toNat = (sig + 2 ^ 52) / 2 ^ 21) (hfits : (sig + 2 ^ 52) * 2 ^ e / 2 ^ 52 < 2 ^ 32) :
    shr t x (31 - e : ℤ) = some (BitVec.ofNat 32 ((sig + 2 ^ 52) * 2 ^ e / 2 ^ 52)) := by
  have he : e < 32 := by
    rw [Nat.div_lt_iff_lt_mul (by decide), ← pow_add] at hfits
    have h1 : 2 ^ 52 * 2 ^ e ≤ (sig + 2 ^ 52) * 2 ^ e := Nat.mul_le_mul_right _ (Nat.le_add_left _ _)
    rw [← pow_add] at h1
    have h2 := (Nat.pow_lt_pow_iff_right (by decide : 1 < 2)).mp (h1.trans_lt hfits)
    omega
  obtain ⟨k,hk⟩ : ∃ k, k = 31 - e := ⟨_,rfl⟩
  have hamount : (31 - e : ℤ) = k := by omega
  have hsplit : (2 : ℕ) ^ 52 = 2 ^ e * 2 ^ (21 + k) := by
    rw [← pow_add]
    congr 1
    omega
  have hval : (sig + 2 ^ 52) * 2 ^ e / 2 ^ 52 = x.toNat / 2 ^ k := by
    rw [hx, Nat.div_div_eq_div_mul, ← pow_add, Nat.mul_comm]
    exact (congrArg (2 ^ e * (sig + 2 ^ 52) / ·) hsplit).trans (Nat.mul_div_mul_left _ _ (Nat.two_pow_pos e))
  rw [hamount, shr_natCast t x (by omega)]
  congr 1
  apply BitVec.eq_of_toNat_eq
  rw [BitVec.toNat_ushiftRight, Nat.shiftRight_eq_div_pow, BitVec.toNat_ofNat, Nat.mod_eq_of_lt hfits, hval]

theorem sar_eq_shr (hr : r.toNat < 2 ^ (v - 1)) (n : ℤ) : sar t r n = shr t r n := by
  have hmsb : r.msb = false := by
    rw [BitVec.msb_eq_decide]
    exact decide_eq_false (Nat.not_le.mpr hr)
  unfold sar shr
  rw [BitVec.sshiftRight_eq_of_msb_false hmsb]

end Shifts

/-! ## Fields by masks -/

section Fields
variable {F : Format}

theorem and_signBit (x : F.Rep) : x &&& F.k.signBit = if F.sign x then F.k.signBit else 0 := by
  have h := Format.toNat_sign x
  apply BitVec.eq_of_toNat_eq
  rw [h]
  cases F.sign x with
  | false => simp
  | true => simp [F.toNat_signBit]

theorem signBit_ne_zero (F : Format) : F.k.signBit ≠ 0 := by
  intro h
  have hnat := congrArg BitVec.toNat h
  have hpos := Nat.two_pow_pos (F.typeWidth - 1)
  rw [F.toNat_signBit, BitVec.ofNat_eq_ofNat, BitVec.toNat_zero] at hnat
  omega

theorem and_signBit_ne_zero (x : F.Rep) : x &&& F.k.signBit ≠ 0 ↔ F.sign x = true := by
  rw [and_signBit]
  cases F.sign x with
  | false => simp
  | true => simpa using signBit_ne_zero F

end Fields

section Single
variable (a : BitVec 32)

theorem single_expo : ((a &&& 0x7F800000) >>> 23).toNat = expo single a := by
  have hmask : (0x7F800000 : BitVec 32) >>> 23 = BitVec.ofNat 32 (2 ^ 8 - 1) := by decide
  rw [BitVec.ushiftRight_and_distrib, hmask, BitMask.toNat_and_low _ (by decide), BitVec.toNat_ushiftRight,
    Nat.shiftRight_eq_div_pow]
  rfl

theorem single_significand : ((a &&& 0x007FFFFF) ||| 0x00800000).toNat = frac single a + 2 ^ 23 := by
  have hfrac : (a &&& 0x007FFFFF).toNat = frac single a := toNat_and_significandMask (F := single) a
  have hlt : (a &&& 0x007FFFFF).toNat < 2 ^ 23 := hfrac ▸ frac_lt single a
  rw [← hfrac]
  exact toNat_or_implicitBit (F := single) hlt

theorem single_and_signBit : a &&& 0x80000000 = if single.sign a then 0x80000000 else 0 := and_signBit (F := single) a

end Single

section Double
variable (c : Double.RepClz) (a : BitVec 64)

theorem toNat_high : (high a).toNat = a.toNat / 2 ^ 32 := by
  have hlt := a.isLt
  rw [high, BitVec.toNat_setWidth, BitVec.toNat_ushiftRight, Nat.shiftRight_eq_div_pow]
  omega

theorem toNat_low : (low a).toNat = a.toNat % 2 ^ 32 := BitVec.toNat_setWidth 32 a

theorem double_expo : ((high a &&& 0x7FF00000) >>> 20).toNat = expo (double c) a := by
  have hmask : (0x7FF00000 : BitVec 32) >>> 20 = BitVec.ofNat 32 (2 ^ 11 - 1) := by decide
  rw [BitVec.ushiftRight_and_distrib, hmask, BitMask.toNat_and_low _ (by decide), BitVec.toNat_ushiftRight,
    Nat.shiftRight_eq_div_pow, toNat_high, Nat.div_div_eq_div_mul]
  rfl

/-- The significand field of the high word. -/
theorem toNat_high_frac : (high a &&& 0x000FFFFF).toNat = a.toNat / 2 ^ 32 % 2 ^ 20 := by
  rw [← toNat_high]
  exact BitMask.toNat_and_low (high a) (k := 20) (by decide)

theorem double_significand :
    (((high a &&& 0x000FFFFF) ||| 0x00100000) ++ low a).toNat = frac (double c) a + 2 ^ 52 := by
  have hfrac := toNat_high_frac a
  have hor : ((high a &&& 0x000FFFFF) ||| 0x00100000).toNat = 1 * 2 ^ 20 + a.toNat / 2 ^ 32 % 2 ^ 20 := by
    have hlt : (high a &&& 0x000FFFFF).toNat < 2 ^ 20 := hfrac ▸ Nat.mod_lt _ (by decide)
    rw [← hfrac]
    exact BitMask.toNat_or_high (n := 32) (k := 20) (m := 1) hlt (by decide)
  have hlow := toNat_low a
  have hlt := (low a).isLt
  change _ = a.toNat % 2 ^ 52 + 2 ^ 52
  rw [BitVec.toNat_append, Nat.shiftLeft_eq, Nat.mul_comm, ← Nat.two_pow_add_eq_or_of_lt hlt, hor, hlow]
  omega

theorem double_sign : single.sign (high a) = (double c).sign a := by
  have hhigh : single.sign (high a) = (high a).getLsbD 31 := Format.sign_eq_getLsbD (F := single) (high a)
  have hsign : (double c).sign a = a.getLsbD 63 := Format.sign_eq_getLsbD (F := double c) a
  rw [hhigh, hsign]
  simp [high]

theorem double_and_signBit : high a &&& 0x80000000 = if (double c).sign a then 0x80000000 else 0 := by
  rw [← double_sign c]
  exact and_signBit (F := single) (high a)

/-- The first 32 digits of the significand. -/
theorem double_top : ((0x80000000 : BitVec 32) ||| (high a &&& 0x000FFFFF) <<< 11 ||| low a >>> 21).toNat =
    (frac (double c) a + 2 ^ 52) / 2 ^ 21 := by
  have hfrac := toNat_high_frac a
  have hshift : ((high a &&& 0x000FFFFF) <<< 11).toNat = a.toNat / 2 ^ 32 % 2 ^ 20 * 2 ^ 11 := by
    rw [BitMask.toNat_shiftLeft_of_lt, hfrac]
    rw [hfrac]
    omega
  have hlow : (low a >>> 21).toNat = a.toNat % 2 ^ 32 / 2 ^ 21 := by
    rw [BitVec.toNat_ushiftRight, Nat.shiftRight_eq_div_pow, toNat_low]
  have hone : (0x80000000 : BitVec 32).toNat = 2 ^ 31 := by decide
  have hhigh : ((0x80000000 : BitVec 32) ||| (high a &&& 0x000FFFFF) <<< 11).toNat =
      2 ^ 31 + a.toNat / 2 ^ 32 % 2 ^ 20 * 2 ^ 11 := by
    rw [BitMask.toNat_or_disjoint (k := 31), hone, hshift]
    · rw [hone]
    · rw [hshift]
      omega
  have hall := BitMask.toNat_or_disjoint (k := 11) (x := (0x80000000 : BitVec 32) ||| (high a &&& 0x000FFFFF) <<< 11)
    (y := low a >>> 21) (by rw [hhigh]; omega) (by rw [hlow]; omega)
  rw [hall, hhigh, hlow]
  change _ = (a.toNat % 2 ^ 52 + 2 ^ 52) / 2 ^ 21
  omega

end Double

/-! ## The routines -/

section Place
variable {F : Format} {x : F.Rep} {v : ℕ} {r : BitVec v}

theorem shl_magnitude (hr : r.toNat = frac F x + 2 ^ F.significandBits)
    (h : (F.significandBits : ℤ) ≤ expo F x - F.k.exponentBias) (hfits : magnitude F x < 2 ^ v) :
    shl t r (expo F x - F.k.exponentBias - F.significandBits) = some (BitVec.ofNat v (magnitude F x)) := by
  have hbias : ¬expo F x < F.k.exponentBias := by omega
  have hexp : ((expo F x - F.k.exponentBias : ℕ) : ℤ) = expo F x - F.k.exponentBias := by omega
  rw [magnitude, if_neg hbias] at hfits ⊢
  rw [← hexp]
  exact shl_eq t (Nat.le_add_left _ _) hr hfits (by omega)

theorem shr_magnitude (hp : F.significandBits < v) (hr : r.toNat = frac F x + 2 ^ F.significandBits)
    (h : ¬(expo F x : ℤ) - F.k.exponentBias < 0) (hle : (expo F x : ℤ) - F.k.exponentBias ≤ F.significandBits)
    (hfits : magnitude F x < 2 ^ v) :
    shr t r (F.significandBits - (expo F x - F.k.exponentBias)) = some (BitVec.ofNat v (magnitude F x)) := by
  have hbias : ¬expo F x < F.k.exponentBias := by omega
  have hexp : ((expo F x - F.k.exponentBias : ℕ) : ℤ) = expo F x - F.k.exponentBias := by omega
  rw [magnitude, if_neg hbias] at hfits ⊢
  rw [← hexp]
  exact shr_eq t hp hr hfits (by omega)

theorem shift_magnitude (hp : F.significandBits < v) (hr : r.toNat = frac F x + 2 ^ F.significandBits)
    (h : ¬(expo F x : ℤ) - F.k.exponentBias < 0) (hfits : magnitude F x < 2 ^ v) :
    (if (F.significandBits : ℤ) < expo F x - F.k.exponentBias then
      shl t r (expo F x - F.k.exponentBias - F.significandBits)
    else shr t r (F.significandBits - (expo F x - F.k.exponentBias))) = some (BitVec.ofNat v (magnitude F x)) := by
  split_ifs with hlt
  · exact shl_magnitude t hr hlt.le hfits
  · exact shr_magnitude t hp hr h (not_lt.mp hlt) hfits

theorem magnitude_of_neg (h : (expo F x : ℤ) - F.k.exponentBias < 0) : magnitude F x = 0 := if_pos (by omega)

/-- The integer of a sign and a magnitude. -/
def signed (s : Bool) (n : ℕ) : ℤ := if s then -n else n

theorem negateBy_ofNat (s : Bool) (n : ℕ) :
    SignMask.negateBy (if s then BitVec.allOnes v else 0#v) (BitVec.ofNat v n) = BitVec.ofInt v (signed s n) := by
  cases s with
  | false => exact (SignMask.negateBy_zero _).trans (BitVec.ofInt_natCast v n).symm
  | true =>
    refine (SignMask.negateBy_allOnes _).trans ?_
    rw [signed, if_pos rfl, BitVec.ofInt_neg, BitVec.ofInt_natCast]

theorem sign_word (s : Bool) : ((if s then (0x80000000 : BitVec 32) else 0).sshiftRight 31).signExtend 64 =
    if s then BitVec.allOnes 64 else 0#64 := by
  cases s <;> decide

end Place

section Unsigned

theorem fixunssfsi_eq {a : BitVec 32} (hfits : single.sign a = false → magnitude single a < 2 ^ 32) :
    fixunssfsi t a = some (if single.sign a then 0 else BitVec.ofNat 32 (magnitude single a)) := by
  have hshift := shift_magnitude t (F := single) (v := 32) (by decide) (single_significand a)
  unfold fixunssfsi
  rw [single_expo, single_and_signBit]
  by_cases hneg : (expo single a : ℤ) - 127 < 0
  · rw [if_pos (.inl hneg), magnitude_of_neg (F := single) (x := a) hneg]
    cases single.sign a <;> rfl
  · cases hs : single.sign a with
    | true => exact if_pos (.inr (by decide))
    | false =>
      rw [if_neg (not_or.mpr ⟨hneg,by decide⟩)]
      exact hshift hneg (hfits hs)

theorem fixunssfdi_eq {a : BitVec 32} (hfits : single.sign a = false → magnitude single a < 2 ^ 64) :
    fixunssfdi t a = some (if single.sign a then 0 else BitVec.ofNat 64 (magnitude single a)) := by
  have hwide : (((a &&& 0x007FFFFF) ||| 0x00800000).zeroExtend 64).toNat = frac single a + 2 ^ 23 :=
    (BitVec.toNat_setWidth_of_le (by decide)).trans (single_significand a)
  have hshift := shift_magnitude t (F := single) (x := a) (v := 64) (by decide) hwide
  unfold fixunssfdi
  rw [single_expo, single_and_signBit]
  by_cases hneg : (expo single a : ℤ) - 127 < 0
  · rw [if_pos (.inl hneg), magnitude_of_neg (F := single) (x := a) hneg]
    cases single.sign a <;> rfl
  · cases hs : single.sign a with
    | true => exact if_pos (.inr (by decide))
    | false =>
      rw [if_neg (not_or.mpr ⟨hneg,by decide⟩)]
      exact hshift hneg (hfits hs)

variable (c : Double.RepClz)

theorem fixunsdfsi_eq {a : BitVec 64} (hfits : (double c).sign a = false → magnitude (double c) a < 2 ^ 32) :
    fixunsdfsi t a = some (if (double c).sign a then 0 else BitVec.ofNat 32 (magnitude (double c) a)) := by
  have htop := double_top c a
  have hp : (double c).significandBits = 52 := rfl
  unfold fixunsdfsi
  rw [double_expo c, double_and_signBit c]
  by_cases hneg : (expo (double c) a : ℤ) - 1023 < 0
  · rw [if_pos (.inl hneg), magnitude_of_neg (F := double c) (x := a) hneg]
    cases (double c).sign a <;> rfl
  · cases hs : (double c).sign a with
    | true => exact if_pos (.inr (by decide))
    | false =>
      rw [if_neg (not_or.mpr ⟨hneg,by decide⟩)]
      have hbias : ¬expo (double c) a < 1023 := by omega
      have hval : magnitude (double c) a =
          (frac (double c) a + 2 ^ 52) * 2 ^ (expo (double c) a - 1023) / 2 ^ 52 := if_neg hbias
      obtain ⟨k,hk⟩ : ∃ k, k = expo (double c) a - 1023 := ⟨_,rfl⟩
      have hexp : (expo (double c) a : ℤ) - 1023 = k := by omega
      have hlt := hfits hs
      rw [hval, ← hk] at hlt ⊢
      rw [hexp]
      exact shift_top t htop hlt

theorem fixunsdfdi_eq {a : BitVec 64} (hfits : (double c).sign a = false → magnitude (double c) a < 2 ^ 64) :
    fixunsdfdi t a = some (if (double c).sign a then 0 else BitVec.ofNat 64 (magnitude (double c) a)) := by
  have hshift := shift_magnitude t (F := double c) (v := 64) (show 52 < 64 by decide) (double_significand c a)
  unfold fixunsdfdi
  rw [double_expo c, double_and_signBit c]
  by_cases hneg : (expo (double c) a : ℤ) - 1023 < 0
  · rw [if_pos (.inl hneg), magnitude_of_neg (F := double c) (x := a) hneg]
    cases (double c).sign a <;> rfl
  · cases hs : (double c).sign a with
    | true => exact if_pos (.inr (by decide))
    | false =>
      rw [if_neg (not_or.mpr ⟨hneg,by decide⟩)]
      exact hshift hneg (hfits hs)

end Unsigned

section Signed

theorem fixsfdi_eq {a : BitVec 32} (hfits : magnitude single a < 2 ^ 64) :
    fixsfdi t a = some (BitVec.ofInt 64 (signed (single.sign a) (magnitude single a))) := by
  have hwide : (((a &&& 0x007FFFFF) ||| 0x00800000).zeroExtend 64).toNat = frac single a + 2 ^ 23 :=
    (BitVec.toNat_setWidth_of_le (by decide)).trans (single_significand a)
  have hlt : frac single a < 2 ^ 23 := frac_lt single a
  have hshift := shift_magnitude t (F := single) (x := a) (v := 64) (by decide) hwide
  have hsar := sar_eq_shr t (r := ((a &&& 0x007FFFFF) ||| 0x00800000).zeroExtend 64) (by rw [hwide]; omega)
  unfold fixsfdi
  rw [single_expo, single_and_signBit, sign_word]
  by_cases hneg : (expo single a : ℤ) - 127 < 0
  · rw [if_pos hneg, magnitude_of_neg (F := single) (x := a) hneg]
    cases single.sign a <;> rfl
  · rw [if_neg hneg]
    refine (congrArg (Option.bind · _) ((if_congr Iff.rfl rfl (hsar _)).trans (hshift hneg hfits))).trans ?_
    exact congrArg some (negateBy_ofNat _ _)

variable (c : Double.RepClz)

theorem fixdfdi_eq {a : BitVec 64} (hfits : magnitude (double c) a < 2 ^ 64) :
    fixdfdi t a = some (BitVec.ofInt 64 (signed ((double c).sign a) (magnitude (double c) a))) := by
  have hwide := double_significand c a
  have hlt : frac (double c) a < 2 ^ 52 := frac_lt (double c) a
  have hshift := shift_magnitude t (F := double c) (v := 64) (show 52 < 64 by decide) hwide
  have hsar := sar_eq_shr t (r := ((high a &&& 0x000FFFFF) ||| 0x00100000) ++ low a) (by rw [hwide]; omega)
  unfold fixdfdi
  rw [double_expo c, double_and_signBit c, sign_word]
  by_cases hneg : (expo (double c) a : ℤ) - 1023 < 0
  · rw [if_pos hneg, magnitude_of_neg (F := double c) (x := a) hneg]
    cases (double c).sign a <;> rfl
  · rw [if_neg hneg]
    refine (congrArg (Option.bind · _) ((if_congr Iff.rfl rfl (hsar _)).trans (hshift hneg hfits))).trans ?_
    exact congrArg some (negateBy_ofNat _ _)

/-- The sign is multiplied in modulo the width of the format, and what is returned is the low word. -/
theorem truncate_mul_sign {v : ℕ} (hv : 32 ≤ v) (s : Bool) (n : ℕ) :
    ((if s then (-1 : BitVec v) else 1) * BitVec.ofNat v n).truncate 32 = BitVec.ofInt 32 (signed s n) := by
  have hlow : (BitVec.ofNat v n).truncate 32 = BitVec.ofNat 32 n := by
    apply BitVec.eq_of_toNat_eq
    rw [BitVec.toNat_setWidth, BitVec.toNat_ofNat, BitVec.toNat_ofNat, Nat.mod_mod_of_dvd _ (Nat.pow_dvd_pow 2 hv)]
  cases s with
  | false =>
    rw [if_neg (by decide), one_mul, hlow]
    exact (BitVec.ofInt_natCast 32 n).symm
  | true =>
    rw [if_pos rfl, neg_one_mul, BitVec.truncate_eq_setWidth, BitVec.setWidth_neg_of_le hv, ← BitVec.truncate_eq_setWidth,
      hlow, signed, if_pos rfl, BitVec.ofInt_neg, BitVec.ofInt_natCast]

theorem fixsi_eq {F : Format} {a : F.Rep} (hw : 32 ≤ F.typeWidth) (hfits : magnitude F a < 2 ^ 32) :
    fixsi t F a = some (BitVec.ofInt 32 (signed (F.sign a) (magnitude F a))) := by
  have hbits := F.exponentBits_bounds
  have hwidth := F.typeWidth_eq
  have hle64 := F.typeWidth_le
  have hexpo := expo_lt F a
  have hle30 := F.two_pow_exponentBits_le
  have hbias : F.k.exponentBias < 2 ^ 30 := by
    have hhalf : 2 ^ (F.exponentBits - 1) ≤ 2 ^ F.exponentBits := Nat.pow_le_pow_right (by decide) (by omega)
    change 2 ^ (F.exponentBits - 1) - 1 < _
    have hpos := Nat.two_pow_pos (F.exponentBits - 1)
    omega
  have habs := abs_eq F a
  have hfrac := frac_lt F a
  have hexponent : ((a &&& F.k.absMask) >>> F.significandBits).toNat = expo F a := by
    rw [BitVec.toNat_ushiftRight, Nat.shiftRight_eq_div_pow, habs, Nat.add_comm,
      Nat.add_mul_div_right _ _ (Nat.two_pow_pos _), Nat.div_eq_of_lt hfrac, Nat.zero_add]
  have hsig : (((a &&& F.k.absMask) &&& F.k.significandMask) ||| F.k.implicitBit).toNat =
      frac F a + 2 ^ F.significandBits := by
    have hlow : ((a &&& F.k.absMask) &&& F.k.significandMask).toNat = frac F a := by
      rw [toNat_and_significandMask, frac, habs, Nat.add_comm, Nat.add_mul_mod_self_right, Nat.mod_eq_of_lt hfrac]
    rw [← hlow]
    exact toNat_or_implicitBit (F := F) (hlow ▸ hfrac)
  have hfits' : magnitude F a < 2 ^ F.typeWidth := hfits.trans_le (Nat.pow_le_pow_right (by decide) hw)
  have hshr := shr_natCast t (a &&& F.k.absMask) (n := F.significandBits) (by omega)
  have hplace := (truncate_mul_sign hw (F.sign a) (magnitude F a)).symm
  unfold fixsi
  rw [macros_eq, Option.bind_eq_bind, Option.bind_some]
  simp only [and_signBit_ne_zero]
  rw [hshr, Option.bind_eq_bind, Option.bind_some, hexponent, hplace]
  by_cases hneg : (expo F a : ℤ) - F.k.exponentBias < 0
  · rw [if_neg (by omega), if_pos hneg, magnitude_of_neg hneg]
    cases F.sign a <;> simp
  by_cases hsmall : (expo F a : ℤ) - F.k.exponentBias < F.significandBits
  · rw [if_pos (by omega), shr_magnitude t (by omega) hsig hneg hsmall.le hfits']
    rfl
  · rw [if_neg (by omega), if_neg hneg, shl_magnitude t hsig (not_lt.mp hsmall) hfits']
    rfl

end Signed

/-! ## Every argument -/

open SignedRange

/-- Finite arguments whose truncation the signed type can hold. -/
def ConvertsSigned (F : Format) (w : ℕ) (fix : F.Rep → Option (BitVec w)) : Prop :=
  ∀ x, F.IsFinite x → Fits w (truncation (F.rat x)) → ∃ r, fix x = some r ∧ r.toInt = truncation (F.rat x)

/-- Finite arguments whose truncation the unsigned type can hold; negative ones are zero at any size. -/
structure ConvertsUnsigned (F : Format) (w : ℕ) (fix : F.Rep → Option (BitVec w)) : Prop where
  truncates : ∀ x, F.IsFinite x → 0 ≤ truncation (F.rat x) → truncation (F.rat x) < 2 ^ w →
    ∃ r, fix x = some r ∧ r.toNat = truncation (F.rat x)
  negative : ∀ x, F.IsFinite x → F.sign x = true → fix x = some 0

section Conversions
variable {F : Format} {w : ℕ} {fix : F.Rep → Option (BitVec w)}

theorem truncation_eq_signed (x : F.Rep) : truncation (F.rat x) = signed (F.sign x) (magnitude F x) := truncation_rat x

theorem convertsSigned (hw : 0 < w)
    (heq : ∀ x, magnitude F x < 2 ^ w → fix x = some (BitVec.ofInt w (signed (F.sign x) (magnitude F x)))) :
    ConvertsSigned F w fix := by
  intro x _ hfits
  rw [truncation_eq_signed] at hfits ⊢
  have hmag : magnitude F x < 2 ^ w := by
    have htwo := two_pow_eq hw
    have hcast : ((2 ^ w : ℕ) : ℤ) = 2 ^ w := by push_cast; rfl
    have hpos : (0 : ℤ) < 2 ^ (w - 1) := by positivity
    obtain ⟨hlo,hhi⟩ := hfits
    unfold signed at hlo hhi
    split_ifs at hlo hhi <;> omega
  exact ⟨_,heq x hmag,by rw [BitVec.toInt_ofInt, bmod_of_fits hw hfits]⟩

theorem convertsUnsigned (heq : ∀ x, (F.sign x = false → magnitude F x < 2 ^ w) →
    fix x = some (if F.sign x then 0 else BitVec.ofNat w (magnitude F x))) : ConvertsUnsigned F w fix := by
  constructor
  · intro x _ h0 hlt
    rw [truncation_eq_signed, signed] at h0 hlt ⊢
    cases hs : F.sign x with
    | true =>
      simp only [hs, ↓reduceIte] at h0 ⊢
      have hzero : magnitude F x = 0 := by omega
      refine ⟨0,?_,?_⟩
      · rw [heq x (by simp [hs]), hs]
        rfl
      · rw [hzero]
        rfl
    | false =>
      simp only [hs, Bool.false_eq_true, ↓reduceIte] at hlt ⊢
      have hmag : magnitude F x < 2 ^ w := by exact_mod_cast hlt
      refine ⟨_,heq x (fun _ => hmag),?_⟩
      rw [hs, if_neg Bool.false_ne_true, BitVec.toNat_ofNat, Nat.mod_eq_of_lt hmag]
  · intro x _ hs
    rw [heq x (by simp [hs]), hs]
    rfl

/-- All eight conversions truncate. -/
theorem conversions_truncate (t : ShiftTarget) (c : Double.RepClz) :
    (ConvertsSigned single 32 (fixsfsi t) ∧ ConvertsSigned (double c) 32 (fixdfsi t c) ∧
      ConvertsSigned single 64 (fixsfdi t) ∧ ConvertsSigned (double c) 64 (fixdfdi t)) ∧
    ConvertsUnsigned single 32 (fixunssfsi t) ∧ ConvertsUnsigned (double c) 32 (fixunsdfsi t) ∧
      ConvertsUnsigned single 64 (fixunssfdi t) ∧ ConvertsUnsigned (double c) 64 (fixunsdfdi t) := by
  refine ⟨⟨?_,?_,?_,?_⟩,?_,?_,?_,?_⟩
  · exact convertsSigned (by decide) fun _ h => fixsi_eq t (by decide) h
  · exact convertsSigned (by decide) fun _ h => fixsi_eq t (F := double c) (show 32 ≤ 64 by decide) h
  · exact convertsSigned (by decide) fun _ h => fixsfdi_eq t h
  · exact convertsSigned (by decide) fun _ h => fixdfdi_eq t c h
  · exact convertsUnsigned fun _ h => fixunssfsi_eq t h
  · exact convertsUnsigned fun _ h => fixunsdfsi_eq t c h
  · exact convertsUnsigned fun _ h => fixunssfdi_eq t h
  · exact convertsUnsigned fun _ h => fixunsdfdi_eq t c h

end Conversions

end CompilerRt.FpToInt
