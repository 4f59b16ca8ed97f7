import CompilerRt.Builtins.CShift
import Mathlib.Tactic.Ring
import Mathlib.Tactic.Linarith
import Mathlib.Data.Nat.Log

/-! # The soft-float header `lib/fp_lib.h`

The header is compiled once for each precision. A `Format` holds what `SINGLE_PRECISION` and
`DOUBLE_PRECISION` choose, together with the facts the routines rely on. All shifts are C shifts.
-/
namespace CompilerRt.FpLib
open CShift

/-- `__builtin_clz` and its wider forms: the number of leading zeros of a nonzero argument. -/
def builtin_clz {w : ℕ} (a : BitVec w) : ℕ := w - 1 - Nat.log 2 a.toNat

structure Format where
  typeWidth : ℕ
  significandBits : ℕ
  rep_clz : ShiftTarget → BitVec typeWidth → Option ℕ
  wideMultiply : ShiftTarget → BitVec typeWidth → BitVec typeWidth →
    Option (BitVec typeWidth × BitVec typeWidth)
  significandBits_pos : 0 < significandBits
  typeWidth_le : typeWidth ≤ 64
  exponentBits_ge : significandBits + 6 ≤ typeWidth
  exponentBits_le : typeWidth ≤ significandBits + 31
  rep_clz_eq : ∀ t a, a ≠ 0 → rep_clz t a = some (builtin_clz a)
  wideMultiply_eq : ∀ t a b, wideMultiply t a b =
    some (BitVec.ofNat _ (a.toNat * b.toNat / 2^typeWidth), a * b)

namespace Single

def rep_clz (_ : ShiftTarget) (a : BitVec 32) : Option ℕ := some (builtin_clz a)

/-- 32x32 --> 64 bit multiply -/
def wideMultiply (t : ShiftTarget) (a b : BitVec 32) : Option (BitVec 32 × BitVec 32) := do
  let product : BitVec 64 := a.zeroExtend 64 * b.zeroExtend 64
  let hi ← shr t product 32
  return (hi.truncate 32, product.truncate 32)

theorem wideMultiply_eq (t : ShiftTarget) (a b : BitVec 32) : wideMultiply t a b =
    some (BitVec.ofNat _ (a.toNat * b.toNat / 2^32), a * b) := by
  have ha := a.isLt
  have hb := b.isLt
  have hab : a.toNat * b.toNat < 2^64 := by
    calc a.toNat * b.toNat < 2^32 * 2^32 := Nat.mul_lt_mul'' ha hb
      _ = 2^64 := by norm_num
  have hp : (a.zeroExtend 64 * b.zeroExtend 64).toNat = a.toNat * b.toNat := by
    have ha' : (a.zeroExtend 64).toNat = a.toNat := BitVec.toNat_setWidth_of_le (by decide)
    have hb' : (b.zeroExtend 64).toNat = b.toNat := BitVec.toNat_setWidth_of_le (by decide)
    rw [BitVec.toNat_mul, ha', hb', Nat.mod_eq_of_lt hab]
  have hs := shr_natCast t (a.zeroExtend 64 * b.zeroExtend 64) (n := 32) (by decide)
  simp only [wideMultiply, Nat.cast_ofNat] at hs ⊢
  rw [hs]
  simp only [Option.pure_def, Option.bind_eq_bind, Option.bind_some, Option.some.injEq, Prod.mk.injEq]
  constructor
  · apply BitVec.eq_of_toNat_eq
    rw [BitVec.toNat_setWidth, BitVec.toNat_ushiftRight, hp, BitVec.toNat_ofNat, Nat.shiftRight_eq_div_pow]
  · apply BitVec.eq_of_toNat_eq
    rw [BitVec.toNat_setWidth, hp, BitVec.toNat_mul]

end Single

namespace Double

/-- The version without `__LP64__`, from two 32-bit counts. -/
def rep_clz (t : ShiftTarget) (a : BitVec 64) : Option ℕ :=
  if a &&& 0xffffffff00000000 ≠ 0 then do
    let hi ← shr t a 32
    return builtin_clz (hi.truncate 32)
  else some (32 + builtin_clz ((a &&& 0xffffffff).truncate 32))

def loWord (a : BitVec 64) : BitVec 64 := a &&& 0xffffffff
def hiWord (t : ShiftTarget) (a : BitVec 64) : Option (BitVec 64) := shr t a 32

/-- 64x64 -> 128 wide multiply from 32x32 -> 64 products, summed so that the carry is seen. -/
def wideMultiply (t : ShiftTarget) (a b : BitVec 64) : Option (BitVec 64 × BitVec 64) := do
  let plolo := loWord a * loWord b
  let plohi := loWord a * (← hiWord t b)
  let philo := (← hiWord t a) * loWord b
  let phihi := (← hiWord t a) * (← hiWord t b)
  let r0 := loWord plolo
  let r1 := (← hiWord t plolo) + loWord plohi + loWord philo
  let lo := r0 + (← shl t r1 32)
  let hi := (← hiWord t plohi) + (← hiWord t philo) + (← hiWord t r1) + phihi
  return (hi, lo)

theorem toNat_loWord (a : BitVec 64) : (loWord a).toNat = a.toNat % 2^32 := by
  change a.toNat &&& (2^32 - 1) = _
  exact Nat.and_two_pow_sub_one_eq_mod a.toNat 32

theorem hiWord_eq (t : ShiftTarget) (a : BitVec 64) : hiWord t a = some (a >>> 32) :=
  shr_natCast t a (n := 32) (by decide)

theorem toNat_shiftRight_word (a : BitVec 64) : (a >>> 32).toNat = a.toNat / 2^32 := by
  rw [BitVec.toNat_ushiftRight, Nat.shiftRight_eq_div_pow]

/-- A product of two half words is exact. -/
theorem toNat_mul_word {x y : BitVec 64} (hx : x.toNat < 2^32) (hy : y.toNat < 2^32) :
    (x * y).toNat = x.toNat * y.toNat ∧ x.toNat * y.toNat ≤ (2^32-1)*(2^32-1) := by
  have h : x.toNat * y.toNat ≤ (2^32-1)*(2^32-1) := Nat.mul_le_mul (by omega) (by omega)
  exact ⟨by rw [BitVec.toNat_mul, Nat.mod_eq_of_lt (by omega)],h⟩

theorem wideMultiply_eq (t : ShiftTarget) (a b : BitVec 64) : wideMultiply t a b =
    some (BitVec.ofNat _ (a.toNat * b.toNat / 2^64), a * b) := by
  have ha := a.isLt
  have hb := b.isLt
  have hal : (loWord a).toNat < 2^32 := by rw [toNat_loWord]; omega
  have hbl : (loWord b).toNat < 2^32 := by rw [toNat_loWord]; omega
  have hah : (a >>> 32).toNat < 2^32 := by rw [toNat_shiftRight_word]; omega
  have hbh : (b >>> 32).toNat < 2^32 := by rw [toNat_shiftRight_word]; omega
  obtain ⟨hll,hll'⟩ := toNat_mul_word hal hbl
  obtain ⟨hlh,hlh'⟩ := toNat_mul_word hal hbh
  obtain ⟨hhl,hhl'⟩ := toNat_mul_word hah hbl
  obtain ⟨hhh,hhh'⟩ := toNat_mul_word hah hbh
  have hab : a.toNat * b.toNat = (loWord a).toNat * (loWord b).toNat +
      ((loWord a).toNat * (b >>> 32).toNat + (a >>> 32).toNat * (loWord b).toNat) * 2^32 +
      (a >>> 32).toNat * (b >>> 32).toNat * 2^64 := by
    simp only [toNat_loWord, toNat_shiftRight_word]
    have h1 := Nat.mod_add_div a.toNat (2^32)
    have h2 := Nat.mod_add_div b.toNat (2^32)
    calc a.toNat * b.toNat = (a.toNat % 2^32 + 2^32 * (a.toNat / 2^32)) *
          (b.toNat % 2^32 + 2^32 * (b.toNat / 2^32)) := by rw [h1, h2]
      _ = _ := by ring
  rw [← hll, ← hlh, ← hhl, ← hhh] at hab
  rw [← hll] at hll'
  rw [← hlh] at hlh'
  rw [← hhl] at hhl'
  rw [← hhh] at hhh'
  have hs : ∀ x : BitVec 64, shl t x 32 = some (x <<< 32) := fun x => shl_natCast t x (n := 32) (by decide)
  simp only [wideMultiply, hiWord_eq, hs, Option.pure_def, Option.bind_eq_bind, Option.bind_some,
    Option.some.injEq, Prod.mk.injEq]
  constructor
  · apply BitVec.eq_of_toNat_eq
    simp only [BitVec.toNat_add, BitVec.toNat_ofNat, toNat_loWord, toNat_shiftRight_word]
    omega
  · apply BitVec.eq_of_toNat_eq
    simp only [BitVec.toNat_add, BitVec.toNat_mul a b, BitVec.toNat_shiftLeft, Nat.shiftLeft_eq,
      toNat_loWord, toNat_shiftRight_word]
    omega

theorem highMask_eq_zero_iff (a : BitVec 64) : a &&& 0xffffffff00000000 = 0 ↔ a.toNat < 2^32 := by
  have ha := a.isLt
  have hhi : (a &&& 0xffffffff00000000).toNat / 2^32 = a.toNat / 2^32 := by
    rw [BitVec.toNat_and, Nat.and_div_two_pow]
    change a.toNat / 2^32 &&& (2^32 - 1) = _
    rw [Nat.and_two_pow_sub_one_eq_mod, Nat.mod_eq_of_lt (by omega)]
  have hlo : (a &&& 0xffffffff00000000).toNat % 2^32 = 0 := by
    rw [BitVec.toNat_and, Nat.and_mod_two_pow]
    exact Nat.and_zero _
  constructor
  · intro h
    rw [h] at hhi
    change 0 / 2^32 = _ at hhi
    omega
  · intro h
    apply BitVec.eq_of_toNat_eq
    change _ = 0
    omega

theorem log_shiftRight {n : ℕ} (h : 2^32 ≤ n) : Nat.log 2 (n / 2^32) + 32 = Nat.log 2 n := by
  have hlog := Nat.le_log_of_pow_le (by decide) h
  rw [Nat.log_div_base_pow]
  omega

theorem rep_clz_eq (t : ShiftTarget) (a : BitVec 64) (ha : a ≠ 0) : rep_clz t a = some (builtin_clz a) := by
  have ha' := a.isLt
  unfold rep_clz
  by_cases h : a.toNat < 2^32
  · rw [if_neg (not_not.mpr ((highMask_eq_zero_iff a).mpr h))]
    have hl : ((a &&& 0xffffffff).truncate 32).toNat = a.toNat := by
      rw [BitVec.toNat_setWidth]
      change (loWord a).toNat % 2^32 = _
      rw [toNat_loWord]
      omega
    have hlog : Nat.log 2 a.toNat < 32 :=
      Nat.log_lt_of_lt_pow (fun h0 => ha (BitVec.eq_of_toNat_eq h0)) h
    rw [builtin_clz, builtin_clz, hl, Option.some.injEq]
    omega
  · rw [if_pos (fun h0 => h ((highMask_eq_zero_iff a).mp h0))]
    have hs : shr t a 32 = some (a >>> 32) := hiWord_eq t a
    have hl : ((a >>> 32).truncate 32).toNat = a.toNat / 2^32 := by
      rw [BitVec.toNat_setWidth, toNat_shiftRight_word]
      omega
    have hlog := log_shiftRight (n := a.toNat) (by omega)
    rw [hs]
    simp only [Option.pure_def, Option.bind_eq_bind, Option.bind_some, builtin_clz, hl, Option.some.injEq]
    omega

end Double

/-- `SINGLE_PRECISION` -/
def single : Format where
  typeWidth := 32
  significandBits := 23
  rep_clz := Single.rep_clz
  wideMultiply := Single.wideMultiply
  significandBits_pos := by decide
  typeWidth_le := by decide
  exponentBits_ge := by decide
  exponentBits_le := by decide
  rep_clz_eq _ _ _ := rfl
  wideMultiply_eq := Single.wideMultiply_eq

/-- The two forms of `rep_clz` in double precision. -/
structure Double.RepClz where
  clz : ShiftTarget → BitVec 64 → Option ℕ
  clz_eq : ∀ t a, a ≠ 0 → clz t a = some (builtin_clz a)

def Double.RepClz.split : Double.RepClz := ⟨Double.rep_clz,Double.rep_clz_eq⟩

/-- Under `__LP64__` it is `__builtin_clzl`. -/
def Double.RepClz.lp64 : Double.RepClz := ⟨fun _ a => some (builtin_clz a),fun _ _ _ => rfl⟩

/-- `DOUBLE_PRECISION` -/
def double (c : Double.RepClz) : Format where
  typeWidth := 64
  significandBits := 52
  rep_clz := c.clz
  wideMultiply := Double.wideMultiply
  significandBits_pos := by decide
  typeWidth_le := by decide
  exponentBits_ge := by decide
  exponentBits_le := by decide
  rep_clz_eq := c.clz_eq
  wideMultiply_eq := Double.wideMultiply_eq

/-! ## The macros and the inline functions -/

abbrev Format.Rep (F : Format) : Type := BitVec F.typeWidth

def Format.exponentBits (F : Format) : ℕ := F.typeWidth - F.significandBits - 1

/-- The values of the header's macros. -/
structure Macros (w : ℕ) where
  maxExponent : ℕ
  exponentBias : ℕ
  implicitBit : BitVec w
  significandMask : BitVec w
  signBit : BitVec w
  absMask : BitVec w
  infRep : BitVec w
  quietBit : BitVec w
  qnanRep : BitVec w

/-- `const bool sticky = ..`, as the integer it is or-ed in as. -/
def ofBool (w : ℕ) (b : Bool) : BitVec w := if b then 1 else 0

section Header
variable (t : ShiftTarget) (F : Format)

def macros : Option (Macros F.typeWidth) := do
  let maxExponent := (← shl t (1 : BitVec 32) F.exponentBits) - 1
  let exponentBias ← shr t maxExponent (1 : ℕ)
  let implicitBit ← shl t (1 : F.Rep) F.significandBits
  let significandMask := implicitBit - 1
  let signBit ← shl t (1 : F.Rep) (F.significandBits + F.exponentBits : ℕ)
  let absMask := signBit - 1
  let exponentMask := absMask ^^^ significandMask
  let quietBit ← shr t implicitBit (1 : ℕ)
  return { maxExponent := maxExponent.toNat, exponentBias := exponentBias.toNat
           implicitBit := implicitBit, significandMask := significandMask, signBit := signBit
           absMask := absMask, infRep := exponentMask, quietBit := quietBit
           qnanRep := exponentMask ||| quietBit }

/-- The exponent and the significand field of a representation. -/
def exponentField (k : Macros F.typeWidth) (x : F.Rep) : Option ℕ := do
  let e ← shr t x F.significandBits
  return (e &&& BitVec.ofNat _ k.maxExponent).toNat

/-- The new exponent together with the shifted significand. -/
def normalize (k : Macros F.typeWidth) (significand : F.Rep) : Option (ℤ × F.Rep) := do
  let shift : ℤ := (← F.rep_clz t significand) - (← F.rep_clz t k.implicitBit)
  let significand ← shl t significand shift
  return (1 - shift, significand)

def wideLeftShift (hi lo : F.Rep) (count : ℤ) : Option (F.Rep × F.Rep) := do
  let hi := (← shl t hi count) ||| (← shr t lo (F.typeWidth - count))
  let lo ← shl t lo count
  return (hi, lo)

def wideRightShiftWithSticky (hi lo : F.Rep) (count : ℕ) : Option (F.Rep × F.Rep) :=
  if count < F.typeWidth then do
    let sticky := (← shl t lo (F.typeWidth - count)) != 0
    let lo := (← shl t hi (F.typeWidth - count)) ||| (← shr t lo count) ||| ofBool _ sticky
    let hi ← shr t hi count
    return (hi, lo)
  else if count < 2*F.typeWidth then do
    let sticky := ((← shl t hi (2*F.typeWidth - count)) ||| lo) != 0
    let lo := (← shr t hi (count - F.typeWidth)) ||| ofBool _ sticky
    return (0, lo)
  else return (0, ofBool _ ((hi ||| lo) != 0))

end Header

/-! ## What they compute -/

section Facts
variable (t : ShiftTarget) (F : Format)

/-- The macros' values, which no target changes. -/
def Format.k : Macros F.typeWidth where
  maxExponent := 2^F.exponentBits - 1
  exponentBias := 2^(F.exponentBits - 1) - 1
  implicitBit := BitVec.ofNat _ (2^F.significandBits)
  significandMask := BitVec.ofNat _ (2^F.significandBits - 1)
  signBit := BitVec.ofNat _ (2^(F.typeWidth - 1))
  absMask := BitVec.ofNat _ (2^(F.typeWidth - 1) - 1)
  infRep := BitVec.ofNat _ (2^(F.typeWidth - 1) - 1) ^^^ BitVec.ofNat _ (2^F.significandBits - 1)
  quietBit := BitVec.ofNat _ (2^(F.significandBits - 1))
  qnanRep := BitVec.ofNat _ (2^(F.typeWidth - 1) - 1) ^^^ BitVec.ofNat _ (2^F.significandBits - 1) |||
    BitVec.ofNat _ (2^(F.significandBits - 1))

theorem one_shiftLeft {w n : ℕ} : (1 : BitVec w) <<< n = BitVec.ofNat w (2^n) := by
  apply BitVec.eq_of_toNat_eq
  change ((1 % 2^w) <<< n) % 2^w = 2^n % 2^w
  rw [Nat.shiftLeft_eq, Nat.mod_mul_mod, Nat.one_mul]

theorem ofNat_sub_one {w n : ℕ} (hn : n < w) : BitVec.ofNat w (2^n) - 1 = BitVec.ofNat w (2^n - 1) := by
  have hlt : 2^n < 2^w := Nat.pow_lt_pow_right (by decide) hn
  have hpos := Nat.two_pow_pos n
  apply BitVec.eq_of_toNat_eq
  have h1 : (1 : BitVec w).toNat = 1 := by
    change 1 % 2^w = 1
    exact Nat.mod_eq_of_lt (by omega)
  rw [BitVec.toNat_sub_of_le, BitVec.toNat_ofNat, BitVec.toNat_ofNat, h1, Nat.mod_eq_of_lt hlt,
    Nat.mod_eq_of_lt (by omega)]
  rw [BitVec.le_def, BitVec.toNat_ofNat, h1, Nat.mod_eq_of_lt hlt]
  omega

theorem ofNat_shiftRight_one {w n : ℕ} (hn : n < w) (h0 : 0 < n) :
    BitVec.ofNat w (2^n) >>> 1 = BitVec.ofNat w (2^(n-1)) := by
  have hlt : 2^n < 2^w := Nat.pow_lt_pow_right (by decide) hn
  have hs : 2^n = 2^(n-1) * 2 := by rw [← pow_succ, Nat.sub_add_cancel h0]
  apply BitVec.eq_of_toNat_eq
  rw [BitVec.toNat_ushiftRight, BitVec.toNat_ofNat, BitVec.toNat_ofNat, Nat.mod_eq_of_lt hlt,
    Nat.mod_eq_of_lt (by omega), Nat.shiftRight_eq_div_pow]
  omega

theorem macros_eq : macros t F = some F.k := by
  have h1 := F.exponentBits_ge
  have h2 := F.exponentBits_le
  have h3 := F.significandBits_pos
  have he : F.significandBits + F.exponentBits = F.typeWidth - 1 := by unfold Format.exponentBits; omega
  have he0 : 0 < F.exponentBits := by omega
  have he32 : F.exponentBits < 32 := by omega
  have hpow : 2^F.exponentBits < 2^32 := Nat.pow_lt_pow_right (by decide) he32
  have hsplit : 2^F.exponentBits = 2^(F.exponentBits-1) * 2 := by rw [← pow_succ, Nat.sub_add_cancel he0]
  have hmax : ((BitVec.ofNat 32 (2^F.exponentBits) - 1) : BitVec 32).toNat = 2^F.exponentBits - 1 := by
    rw [ofNat_sub_one he32, BitVec.toNat_ofNat, Nat.mod_eq_of_lt (by omega)]
  have hbias : ((BitVec.ofNat 32 (2^F.exponentBits) - 1) >>> 1 : BitVec 32).toNat =
      2^(F.exponentBits - 1) - 1 := by
    rw [BitVec.toNat_ushiftRight, hmax, Nat.shiftRight_eq_div_pow]
    omega
  simp only [macros, he, shl_natCast t (1 : BitVec 32) he32, shl_natCast t (1 : F.Rep) (show F.significandBits < _ by omega),
    shl_natCast t (1 : F.Rep) (show F.typeWidth - 1 < _ by omega), Option.pure_def, Option.bind_eq_bind, Option.bind_some,
    one_shiftLeft, shr_natCast t _ (show 1 < 32 by decide), shr_natCast t _ (show 1 < F.typeWidth by omega), hmax, hbias]
  rw [ofNat_sub_one (by omega), ofNat_sub_one (by omega), ofNat_shiftRight_one (by omega) h3]
  rfl

end Facts

end CompilerRt.FpLib
