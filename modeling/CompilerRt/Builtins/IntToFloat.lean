import CompilerRt.Builtins.FloatDiRounds
import CompilerRt.Builtins.FpRounds
import CompilerRt.Lib.SignMask

/-! # From integers to floats

The routines for 64-bit integers work on the digits themselves (`lib/float*di*f.c`); those for 32-bit integers are
written with `fp_lib.h` (`lib/float*si*f.c`) and round, if at all, by the bits that are shifted out.
-/
namespace CompilerRt.IntToFloat
open CShift FpLib FloatDigits

variable (t : ShiftTarget)

def FLT_MANT_DIG : ℕ := 24

def floatBits (sign : BitVec 32) (a : BitVec 64) (e : ℤ) : BitVec 32 :=
  sign ||| BitVec.ofInt 32 (e + 127) <<< 23 ||| (a.truncate 32 &&& 0x007FFFFF)

def floatdisf (a : BitVec 64) : Option (BitVec 32) := do
  if a = 0 then return 0 else
    let s := a.sshiftRight (N - 1)
    let a := (a ^^^ s) - s
    let sd : ℤ := N - builtin_clz a
    let (a, e) ← significand t BitVec.sshiftRight FLT_MANT_DIG a sd
    return floatBits (s.truncate 32 &&& 0x80000000) a e

def floatundisf (a : BitVec 64) : Option (BitVec 32) := do
  if a = 0 then return 0 else
    let sd : ℤ := N - builtin_clz a
    let (a, e) ← significand t BitVec.ushiftRight FLT_MANT_DIG a sd
    return floatBits 0 a e

section Header
variable (F : Format)

def aWidth : ℕ := 32

/-- `Shift a into the significand field, rounding if it is a right-shift` -/
def shiftAndRound (k : Macros F.typeWidth) (a : F.Rep) (exponent : ℤ) : Option F.Rep := do
  if exponent ≤ F.significandBits then
    let shift := F.significandBits - exponent
    return (← shl t a shift) ^^^ k.implicitBit
  else
    let shift := exponent - F.significandBits
    let result := (← shr t a shift) ^^^ k.implicitBit
    let round ← shl t a (F.typeWidth - shift)
    let result := if k.signBit < round then result + 1 else result
    return if round = k.signBit then result + (result &&& 1) else result

/-- `Shift a into the significand field and clear the implicit bit.` -/
def shiftOnly (k : Macros F.typeWidth) (a : F.Rep) (exponent : ℤ) : Option F.Rep := do
  let shift := F.significandBits - exponent
  return (← shl t a shift) ^^^ k.implicitBit

/-- `Insert the exponent` -/
def insertExponent (k : Macros F.typeWidth) (result : F.Rep) (exponent : ℤ) : Option F.Rep := do
  return result + (← shl t (BitVec.ofInt F.typeWidth (exponent + k.exponentBias)) F.significandBits)

section Routine
variable (shiftIn : Macros F.typeWidth → F.Rep → ℤ → Option F.Rep)

/-- The routines for `int`; its negation wraps. -/
def floatsi (a : BitVec 32) : Option F.Rep := do
  let k ← macros t F
  if a = 0 then return 0 else
    let sign := if a.slt 0 then k.signBit else 0
    let a := if a.slt 0 then -a else a
    let exponent : ℤ := (aWidth - 1 : ℤ) - builtin_clz a
    let result ← shiftIn k (a.zeroExtend F.typeWidth) exponent
    let result ← insertExponent t F k result exponent
    return result ||| sign

def floatunsi (a : BitVec 32) : Option F.Rep := do
  let k ← macros t F
  if a = 0 then return 0 else
    let exponent : ℤ := (aWidth - 1 : ℤ) - builtin_clz a
    let result ← shiftIn k (a.zeroExtend F.typeWidth) exponent
    insertExponent t F k result exponent

end Routine

end Header

def floatsisf : BitVec 32 → Option (BitVec 32) := floatsi t single (shiftAndRound t single)

def floatunsisf : BitVec 32 → Option (BitVec 32) := floatunsi t single (shiftAndRound t single)

def floatsidf (c : Double.RepClz) : BitVec 32 → Option (BitVec 64) := floatsi t (double c) (shiftOnly t (double c))

def floatunsidf (c : Double.RepClz) : BitVec 32 → Option (BitVec 64) := floatunsi t (double c) (shiftOnly t (double c))

/-! ## Bits of the nearest number -/

section Bits
variable {F : Format}

/-- A sign over the bits of the magnitude. -/
theorem isRounded_int {z : ℤ} {x : F.Rep} (h0 : z ≠ 0) (hlog : Nat.log 2 z.natAbs < 2 ^ (F.exponentBits - 1))
    (hx : x.toNat = (decide (z < 0)).toNat * 2 ^ (F.typeWidth - 1) + F.binary.ofNat z.natAbs) : F.IsRounded z false x := by
  have hbits := F.exponentBits_bounds
  have hnear := BinaryFormat.nearest_ofNat (F := F.binary) F.significandBits_pos (by change 2 ≤ F.exponentBits; omega)
    (Int.natAbs_ne_zero.mpr h0) hlog
  have hlt : F.binary.ofNat z.natAbs < 2 ^ (F.typeWidth - 1) := hnear.le_top.trans_lt F.inf_lt
  obtain ⟨hsign,habs⟩ := Format.fields_of_toNat hlt hx
  have hne : (z : ℚ) ≠ 0 := Int.cast_ne_zero.mpr h0
  have hneg : decide (z < 0) = decide ((z : ℚ) < 0) := by rw [decide_eq_decide, Int.cast_lt_zero]
  refine ⟨⟨?_,fun _ => hsign.trans hneg⟩,fun h => absurd h hne⟩
  have hcast : |(z : ℚ)| = (z.natAbs : ℚ) := by rw [Nat.cast_natAbs, Int.cast_abs]
  have hcode : F.binary.abs x.toNat = F.binary.ofNat z.natAbs := habs
  rw [hcode, hcast]
  exact hnear

theorem isRounded_nat {n : ℕ} {x : F.Rep} (h0 : n ≠ 0) (hlog : Nat.log 2 n < 2 ^ (F.exponentBits - 1))
    (hx : x.toNat = F.binary.ofNat n) : F.IsRounded n false x := by
  have hrounded := isRounded_int (F := F) (z := n) (x := x) (by omega) hlog
    (by rw [hx, decide_eq_false (not_lt.mpr (Int.natCast_nonneg n))]; simp)
  rw [Int.cast_natCast] at hrounded
  exact hrounded

end Bits

/-! ## Through `fp_lib.h` -/

section Header
variable {F : Format} {n : ℕ}

/-- The digits of the nearest number, the implicit one among them. -/
def digits (F : Format) (n : ℕ) : ℕ :=
  if Nat.log 2 n ≤ F.significandBits then n * 2 ^ (F.significandBits - Nat.log 2 n)
  else roundDiv n (2 ^ (Nat.log 2 n - F.significandBits))

theorem toNat_xor_implicitBit {x : F.Rep} (hlo : 2 ^ F.significandBits ≤ x.toNat) (hhi : x.toNat < 2 ^ (F.significandBits + 1)) :
    (x ^^^ F.k.implicitBit).toNat + 2 ^ F.significandBits = x.toNat := by
  have hwidth := F.exponentBits_ge
  have himp : F.k.implicitBit = BitVec.twoPow F.typeWidth F.significandBits := by
    apply BitVec.eq_of_toNat_eq
    rw [F.toNat_implicitBit, BitVec.toNat_twoPow_of_lt (by omega)]
  have hset : x.getLsbD F.significandBits = true := by
    have hdiv : x.toNat / 2 ^ F.significandBits = 1 := by
      rw [pow_succ] at hhi
      exact Nat.div_eq_of_lt_le (by omega) (by omega)
    rw [← BitVec.testBit_toNat, Nat.testBit_eq_decide_div_mod_eq, hdiv]
    rfl
  rw [himp, BitMask.xor_twoPow_of_set hset, BitMask.toNat_and_not_twoPow_of_set hset]

/-- All digits have a place. -/
theorem shiftOnly_eq {a : F.Rep} (h0 : a.toNat ≠ 0) (hle : Nat.log 2 a.toNat ≤ F.significandBits) :
    ∃ r, shiftOnly t F F.k a (Nat.log 2 a.toNat) = some r ∧ r.toNat + 2 ^ F.significandBits = digits F a.toNat := by
  have hwidth := F.exponentBits_ge
  have hlo : 2 ^ Nat.log 2 a.toNat ≤ a.toNat := Nat.pow_log_le_self 2 h0
  have hhi : a.toNat < 2 ^ (Nat.log 2 a.toNat + 1) := Nat.lt_pow_succ_log_self (by decide) a.toNat
  unfold digits shiftOnly
  generalize Nat.log 2 a.toNat = l at hle hlo hhi
  obtain ⟨hnlo,hnhi⟩ := BinaryFormat.normalized_bounds hle hlo hhi
  have hwide : 2 ^ (F.significandBits + 1) ≤ 2 ^ F.typeWidth := Nat.pow_le_pow_right (by decide) (by omega)
  have hshift : (a <<< (F.significandBits - l)).toNat = a.toNat * 2 ^ (F.significandBits - l) :=
    BitMask.toNat_shiftLeft_of_lt (hnhi.trans_le hwide)
  have hamount : (F.significandBits : ℤ) - l = (F.significandBits - l : ℕ) := by omega
  have hshl := shl_natCast t a (n := F.significandBits - l) (by omega)
  simp only [hle, hamount, hshl, ↓reduceIte, Option.pure_def, Option.bind_eq_bind, Option.bind_some]
  refine ⟨_,rfl,?_⟩
  rw [toNat_xor_implicitBit (hshift ▸ hnlo) (hshift ▸ hnhi), hshift]

/-- What is shifted out, moved to the top of a word, is compared with one half. -/
theorem half_compare {w s : ℕ} {a : BitVec w} (hs : 1 ≤ s) (hw : s ≤ w) :
    (2 ^ (w - 1) < (a <<< (w - s)).toNat ↔ 2 ^ s < 2 * (a.toNat % 2 ^ s)) ∧
      ((a <<< (w - s)).toNat = 2 ^ (w - 1) ↔ 2 * (a.toNat % 2 ^ s) = 2 ^ s) := by
  have hpos := Nat.two_pow_pos (w - s)
  have htwo : 2 ^ s = 2 * 2 ^ (s - 1) := by rw [← pow_succ', Nat.sub_add_cancel hs]
  have hsplit : 2 ^ (w - 1) = 2 ^ (s - 1) * 2 ^ (w - s) := by
    rw [← pow_add]
    congr 1
    omega
  rw [BitMask.toNat_shiftLeft_top a hw, hsplit]
  constructor
  · rw [Nat.mul_lt_mul_right hpos]
    omega
  · rw [Nat.mul_left_inj hpos.ne']
    omega

/-- One is added above one half, and the last digit at one half. -/
theorem toNat_rounded {w p n s : ℕ} {r : BitVec w} (hp : 0 < p) (hw : p + 1 < w) (hr : r.toNat + 2 ^ p = n / 2 ^ s)
    (hlt : n / 2 ^ s < 2 ^ (p + 1)) :
    (if 2 * (n % 2 ^ s) = 2 ^ s then (if 2 ^ s < 2 * (n % 2 ^ s) then r + 1 else r) +
        ((if 2 ^ s < 2 * (n % 2 ^ s) then r + 1 else r) &&& 1)
      else if 2 ^ s < 2 * (n % 2 ^ s) then r + 1 else r).toNat + 2 ^ p = roundDiv n (2 ^ s) := by
  have htop : 2 ^ (p + 1) = 2 * 2 ^ p := pow_succ' 2 p
  have hwide : 2 ^ (p + 1) ≤ 2 ^ w := Nat.pow_le_pow_right (by decide) (by omega)
  have hpos := Nat.two_pow_pos p
  have hone : (1 : BitVec w).toNat = 1 := Nat.mod_eq_of_lt (Nat.one_lt_two_pow (by omega))
  have hsucc : (r + 1).toNat = r.toNat + 1 := by rw [BitVec.toNat_add, hone, Nat.mod_eq_of_lt (by omega)]
  have hlast : (r &&& 1).toNat = n / 2 ^ s % 2 := by
    have heven : 2 ^ p % 2 = 0 := by
      obtain ⟨k,rfl⟩ : ∃ k, p = k + 1 := ⟨p - 1,by omega⟩
      rw [pow_succ, Nat.mul_mod_left]
    rw [BitVec.toNat_and, hone, Nat.and_one_is_mod]
    omega
  have hsum : (r + (r &&& 1)).toNat = r.toNat + n / 2 ^ s % 2 := by
    rw [BitVec.toNat_add, hlast, Nat.mod_eq_of_lt (by omega)]
  simp only [roundDiv, Nat.even_iff]
  split_ifs <;> omega

theorem shiftAndRound_eq {a : F.Rep} (h0 : a.toNat ≠ 0) :
    ∃ r, shiftAndRound t F F.k a (Nat.log 2 a.toNat) = some r ∧ r.toNat + 2 ^ F.significandBits = digits F a.toNat := by
  by_cases hle : Nat.log 2 a.toNat ≤ F.significandBits
  · obtain ⟨r,hr,hval⟩ := shiftOnly_eq t h0 hle
    refine ⟨r,?_,hval⟩
    unfold shiftAndRound
    rw [if_pos (by omega)]
    exact hr
  -- digits are shifted out
  have hwidth := F.exponentBits_ge
  have hpos := F.significandBits_pos
  have hlog : Nat.log 2 a.toNat < F.typeWidth := Nat.log_lt_of_lt_pow h0 a.isLt
  have hlo : 2 ^ Nat.log 2 a.toNat ≤ a.toNat := Nat.pow_log_le_self 2 h0
  have hhi : a.toNat < 2 ^ (Nat.log 2 a.toNat + 1) := Nat.lt_pow_succ_log_self (by decide) a.toNat
  unfold digits shiftAndRound
  rw [if_neg hle]
  generalize Nat.log 2 a.toNat = l at hle hlog hlo hhi
  obtain ⟨s,rfl⟩ : ∃ s, l = F.significandBits + s := ⟨l - F.significandBits,by omega⟩
  have hplo : 2 ^ F.significandBits ≤ a.toNat / 2 ^ s := by
    rw [Nat.le_div_iff_mul_le (Nat.two_pow_pos _), ← pow_add]
    exact hlo
  have hphi : a.toNat / 2 ^ s < 2 ^ (F.significandBits + 1) := by
    rw [Nat.div_lt_iff_lt_mul (Nat.two_pow_pos _), ← pow_add, Nat.add_right_comm]
    exact hhi
  have hamount : ((F.significandBits + s : ℕ) : ℤ) - F.significandBits = (s : ℕ) := by omega
  have hamount' : (F.typeWidth : ℤ) - (s : ℕ) = (F.typeWidth - s : ℕ) := by omega
  have hshr := shr_natCast t a (n := s) (by omega)
  have hshl := shl_natCast t a (n := F.typeWidth - s) (by omega)
  have hshift : (a >>> s).toNat = a.toNat / 2 ^ s := by rw [BitVec.toNat_ushiftRight, Nat.shiftRight_eq_div_pow]
  have hclear := toNat_xor_implicitBit (F := F) (hshift ▸ hplo) (hshift ▸ hphi)
  obtain ⟨hup,htie⟩ := half_compare (a := a) (s := s) (by omega) (by omega)
  obtain ⟨r,hr⟩ : ∃ r, r = a >>> s ^^^ F.k.implicitBit := ⟨_,rfl⟩
  rw [hshift, ← hr] at hclear
  rw [if_neg (by omega)]
  simp only [hamount, hamount', hshr, hshl, Nat.add_sub_cancel_left, Option.pure_def, Option.bind_eq_bind,
    Option.bind_some, ← hr]
  refine ⟨_,rfl,?_⟩
  simp only [BitVec.lt_def, ← BitVec.toNat_inj, F.toNat_signBit, hup, htie]
  exact toNat_rounded hpos (by omega) hclear hphi

theorem insertExponent_eq {r : F.Rep} (h0 : n ≠ 0) (hlog : Nat.log 2 n < 2 ^ (F.exponentBits - 1))
    (hr : r.toNat + 2 ^ F.significandBits = digits F n) :
    ∃ x, insertExponent t F F.k r (Nat.log 2 n) = some x ∧ x.toNat = F.binary.ofNat n := by
  have hbits := F.exponentBits_bounds
  have hwidth := F.exponentBits_ge
  have hroom := BinaryFormat.exponent_add_two_lt (F := F.binary) (by change 2 ≤ F.exponentBits; omega) hlog
  have hnear := BinaryFormat.nearest_ofNat (F := F.binary) F.significandBits_pos (by change 2 ≤ F.exponentBits; omega)
    h0 hlog
  have hlt : F.binary.ofNat n < 2 ^ (F.typeWidth - 1) := hnear.le_top.trans_lt F.inf_lt
  have hhalf := F.two_pow_width
  have hval : F.binary.ofNat n = (Nat.log 2 n + (2 ^ (F.exponentBits - 1) - 2)) * 2 ^ F.significandBits + digits F n := rfl
  have hroom' : Nat.log 2 n + (2 ^ (F.exponentBits - 1) - 2) + 2 ≤ 2 ^ F.exponentBits - 1 := hroom
  have htwo : 2 ≤ 2 ^ (F.exponentBits - 1) := le_self_pow₀ (by decide) (by omega)
  have hbias : F.k.exponentBias = 2 ^ (F.exponentBits - 1) - 1 := rfl
  obtain ⟨e,he⟩ : ∃ e, e = Nat.log 2 n + F.k.exponentBias := ⟨_,rfl⟩
  have hsum : (e : ℕ) * 2 ^ F.significandBits + r.toNat = F.binary.ofNat n := by
    have hpred : e = Nat.log 2 n + (2 ^ (F.exponentBits - 1) - 2) + 1 := by omega
    rw [hval, hpred, Nat.succ_mul]
    omega
  have hcast : (Nat.log 2 n : ℤ) + F.k.exponentBias = (e : ℕ) := by omega
  have hword : (BitVec.ofInt F.typeWidth (e : ℕ)).toNat = e := by
    have hle : 2 ^ F.exponentBits ≤ 2 ^ F.typeWidth := Nat.pow_le_pow_right (by decide) (by have := F.typeWidth_eq; omega)
    rw [BitVec.ofInt_natCast, BitVec.toNat_ofNat, Nat.mod_eq_of_lt (by omega)]
  have hshift : (BitVec.ofInt F.typeWidth (e : ℕ) <<< F.significandBits).toNat = e * 2 ^ F.significandBits := by
    rw [BitMask.toNat_shiftLeft_of_lt, hword]
    rw [hword]
    omega
  have hshl := shl_natCast t (BitVec.ofInt F.typeWidth (e : ℕ)) (n := F.significandBits) (by omega)
  unfold insertExponent
  rw [hcast, hshl, Option.bind_eq_bind, Option.bind_some]
  refine ⟨_,rfl,?_⟩
  rw [BitVec.toNat_add, hshift, Nat.mod_eq_of_lt (by omega)]
  omega

/-- A shift into the significand field, for the integers of 32 bits. -/
def ShiftsIn (F : Format) (shiftIn : Macros F.typeWidth → F.Rep → ℤ → Option F.Rep) : Prop :=
  ∀ a : F.Rep, a.toNat ≠ 0 → Nat.log 2 a.toNat < aWidth →
    ∃ r, shiftIn F.k a (Nat.log 2 a.toNat) = some r ∧ r.toNat + 2 ^ F.significandBits = digits F a.toNat

variable {shiftIn : Macros F.typeWidth → F.Rep → ℤ → Option F.Rep} (hshift : ShiftsIn F shiftIn)
  (hwide : aWidth ≤ F.typeWidth ∧ aWidth ≤ 2 ^ (F.exponentBits - 1))
include hshift hwide

/-- The part the routines share, for what is not zero. -/
theorem convert_eq {a : BitVec 32} (h0 : a.toNat ≠ 0) : ∃ r x, shiftIn F.k (a.zeroExtend F.typeWidth)
      ((aWidth - 1 : ℤ) - builtin_clz a) = some r ∧
    insertExponent t F F.k r ((aWidth - 1 : ℤ) - builtin_clz a) = some x ∧ x.toNat = F.binary.ofNat a.toNat := by
  have hlog : Nat.log 2 a.toNat < 32 := Nat.log_lt_of_lt_pow h0 a.isLt
  have hext : (a.zeroExtend F.typeWidth).toNat = a.toNat := BitVec.toNat_setWidth_of_le hwide.1
  have hexponent : (aWidth - 1 : ℤ) - builtin_clz a = (Nat.log 2 a.toNat : ℕ) := by
    unfold builtin_clz aWidth
    omega
  rw [hexponent]
  obtain ⟨r,hr,hdigits⟩ := hshift (a.zeroExtend F.typeWidth) (by rw [hext]; exact h0) (by rw [hext]; exact hlog)
  rw [hext] at hr hdigits
  obtain ⟨x,hx,hval⟩ := insertExponent_eq t h0 (hlog.trans_le hwide.2) hdigits
  exact ⟨r,x,hr,hx,hval⟩

theorem floatunsi_rounded (a : BitVec 32) : ∃ x, floatunsi t F shiftIn a = some x ∧ F.IsRounded (a.toNat : ℚ) false x := by
  unfold floatunsi
  rw [macros_eq, Option.bind_eq_bind, Option.bind_some]
  by_cases h0 : a = 0
  · subst h0
    refine ⟨0,if_pos rfl,?_⟩
    exact Format.isRounded_zero (by simp [Format.abs, BinaryFormat.abs]) (by simp [Format.sign_eq_getLsbD])
  have hne : a.toNat ≠ 0 := fun h => h0 (BitVec.eq_of_toNat_eq h)
  obtain ⟨r,x,hr,hx,hval⟩ := convert_eq t hshift hwide hne
  have hlog : Nat.log 2 a.toNat < 32 := Nat.log_lt_of_lt_pow hne a.isLt
  simp only [if_neg h0, hr, hx, Option.bind_eq_bind, Option.bind_some]
  exact ⟨x,rfl,isRounded_nat hne (hlog.trans_le hwide.2) hval⟩

theorem floatsi_rounded (a : BitVec 32) : ∃ x, floatsi t F shiftIn a = some x ∧ F.IsRounded (a.toInt : ℚ) false x := by
  unfold floatsi
  rw [macros_eq, Option.bind_eq_bind, Option.bind_some]
  by_cases h0 : a = 0
  · subst h0
    refine ⟨0,if_pos rfl,?_⟩
    exact Format.isRounded_zero (by simp [Format.abs, BinaryFormat.abs]) (by simp [Format.sign_eq_getLsbD])
  have hint : a.toInt ≠ 0 := fun h => h0 (BitVec.toInt_inj.mp h)
  have hslt : a.slt 0 = a.msb := BitVec.slt_zero_eq_msb
  have habs : (if a.msb then -a else a).toNat = a.toInt.natAbs := SignMask.toNat_abs_eq_natAbs a
  have hneg : a.msb = decide (a.toInt < 0) := BitVec.msb_eq_toInt
  have hne : (if a.msb then -a else a).toNat ≠ 0 := by
    rw [habs]
    exact Int.natAbs_ne_zero.mpr hint
  have hlog : Nat.log 2 a.toInt.natAbs < 32 := by
    rw [← habs]
    exact Nat.log_lt_of_lt_pow hne (BitVec.isLt _)
  obtain ⟨r,x,hr,hx,hval⟩ := convert_eq t hshift hwide hne
  rw [habs] at hval
  simp only [if_neg h0, hslt, hr, hx, Option.pure_def, Option.bind_eq_bind, Option.bind_some]
  refine ⟨_,rfl,isRounded_int hint (hlog.trans_le hwide.2) ?_⟩
  have hnear := BinaryFormat.nearest_ofNat (F := F.binary) F.significandBits_pos
    (by have := F.exponentBits_bounds; change 2 ≤ F.exponentBits; omega) (Int.natAbs_ne_zero.mpr hint)
    (hlog.trans_le hwide.2)
  have hlt : x.toNat < 2 ^ (F.typeWidth - 1) := by
    rw [hval]
    exact hnear.le_top.trans_lt F.inf_lt
  have hsign : (if a.msb then F.k.signBit else 0).toNat = (decide (a.toInt < 0)).toNat * 2 ^ (F.typeWidth - 1) := by
    rw [← hneg]
    cases a.msb with
    | false => simp
    | true => simp [F.toNat_signBit]
  rw [BitVec.or_comm, BitMask.toNat_or_disjoint _ hlt, hsign, hval]
  rw [hsign]
  exact Nat.dvd_mul_left _ _

end Header

/-! ## From 64 bits to single precision -/

section Digits
variable (a : BitVec 64)

theorem floatBits_eq (sign : BitVec 32) {x : BitVec 64} {b e : ℕ} (hsign : sign.toNat = b * 2 ^ 31)
    (hlo : 2 ^ 23 ≤ x.toNat) (hhi : x.toNat < 2 ^ 24) (he : e ≤ 64) :
    (floatBits sign x e).toNat = b * 2 ^ 31 + ((e + 126) * 2 ^ 23 + x.toNat) := by
  have hcast : (e : ℤ) + 127 = (e + 127 : ℕ) := by omega
  have hword : (BitVec.ofInt 32 ((e + 127 : ℕ) : ℤ)).toNat = e + 127 := by
    rw [BitVec.ofInt_natCast, BitVec.toNat_ofNat]
    exact Nat.mod_eq_of_lt (by omega)
  have hexp : (BitVec.ofInt 32 ((e + 127 : ℕ) : ℤ) <<< 23).toNat = (e + 127) * 2 ^ 23 := by
    rw [BitMask.toNat_shiftLeft_of_lt, hword]
    rw [hword]
    omega
  have hmant : (x.truncate 32 &&& (0x007FFFFF : BitVec 32)).toNat = x.toNat - 2 ^ 23 := by
    have hmask := BitMask.toNat_and_low (x.truncate 32 : BitVec 32) (k := 23) (by decide)
    rw [BitVec.toNat_setWidth] at hmask
    exact hmask.trans (by omega)
  have hhigh : (sign ||| BitVec.ofInt 32 ((e + 127 : ℕ) : ℤ) <<< 23).toNat = b * 2 ^ 31 + (e + 127) * 2 ^ 23 := by
    rw [BitMask.toNat_or_disjoint (k := 31), hsign, hexp]
    · rw [hsign]
      exact Nat.dvd_mul_left _ _
    · rw [hexp]
      omega
  unfold floatBits
  rw [hcast, BitMask.toNat_or_disjoint (k := 23), hhigh, hmant]
  · omega
  · rw [hhigh]
    omega
  · rw [hmant]
    omega

theorem single_log {n : ℕ} (h0 : n ≠ 0) (hn : n < 2 ^ 64) : Nat.log 2 n < 2 ^ (single.exponentBits - 1) :=
  (Nat.log_lt_of_lt_pow h0 hn).trans (by decide)

theorem floatundisf_rounded : ∃ x, floatundisf t a = some x ∧ single.IsRounded (a.toNat : ℚ) false x := by
  unfold floatundisf
  by_cases h0 : a = 0
  · subst h0
    exact ⟨0,rfl,Format.isRounded_zero rfl rfl⟩
  have hne : a.toNat ≠ 0 := fun h => h0 (BitVec.eq_of_toNat_eq h)
  obtain ⟨e,x,hx,hlo,hhi,he,hcode⟩ := significand_eq t single.binary (by decide)
    (show ∀ x n, x.toNat < 2 ^ 63 → BitVec.ushiftRight x n = x >>> n from fun _ _ _ => rfl) hne
  have hdigits : significand t BitVec.ushiftRight FLT_MANT_DIG a (N - builtin_clz a) = some (x,(e : ℤ)) := hx
  have hbits := floatBits_eq 0 (b := 0) (x := x) rfl hlo hhi he
  have hval : (floatBits 0 x e).toNat = single.binary.ofNat a.toNat := by
    rw [hbits, ← hcode]
    exact Nat.zero_add _
  simp only [if_neg h0, hdigits, Option.pure_def, Option.bind_eq_bind, Option.bind_some]
  exact ⟨_,rfl,isRounded_nat (F := single) hne (single_log hne a.isLt) hval⟩

theorem floatdisf_rounded : ∃ x, floatdisf t a = some x ∧ single.IsRounded (a.toInt : ℚ) false x := by
  have hsra : ∀ (x : BitVec 64) n, x.toNat < 2 ^ 63 → x.sshiftRight n = x >>> n := by
    intro x n hx
    refine BitVec.sshiftRight_eq_of_msb_false ?_
    rw [BitVec.msb_eq_decide]
    exact decide_eq_false (Nat.not_le.mpr hx)
  unfold floatdisf
  by_cases h0 : a = 0
  · subst h0
    exact ⟨0,rfl,Format.isRounded_zero rfl rfl⟩
  have hint : a.toInt ≠ 0 := fun h => h0 (BitVec.toInt_inj.mp h)
  have habs : ((a ^^^ a.sshiftRight (N - 1)) - a.sshiftRight (N - 1)).toNat = a.toInt.natAbs := FloatDi.abs_word a
  have hne : ((a ^^^ a.sshiftRight (N - 1)) - a.sshiftRight (N - 1)).toNat ≠ 0 := by
    rw [habs]
    exact Int.natAbs_ne_zero.mpr hint
  have hn : a.toInt.natAbs < 2 ^ 64 := by
    rw [← habs]
    exact BitVec.isLt _
  obtain ⟨e,x,hx,hlo,hhi,he,hcode⟩ := significand_eq t single.binary (by decide) hsra hne
  have hdigits : significand t BitVec.sshiftRight FLT_MANT_DIG ((a ^^^ a.sshiftRight (N - 1)) - a.sshiftRight (N - 1))
      (N - builtin_clz ((a ^^^ a.sshiftRight (N - 1)) - a.sshiftRight (N - 1))) = some (x,(e : ℤ)) := hx
  have hbit : ((a.sshiftRight (N - 1)).truncate 32 &&& (0x80000000 : BitVec 32)).toNat =
      (decide (a.toInt < 0)).toNat * 2 ^ 31 := by
    have hword : a.sshiftRight (N - 1) = if a.toInt < 0 then BitVec.allOnes 64 else 0 := FloatDi.sign_word a
    rw [hword]
    split_ifs with hneg
    · rw [decide_eq_true hneg]
      decide
    · rw [decide_eq_false hneg]
      decide
  have hbits := floatBits_eq _ (x := x) hbit hlo hhi he
  rw [habs] at hcode
  simp only [if_neg h0, hdigits, Option.pure_def, Option.bind_eq_bind, Option.bind_some]
  refine ⟨_,rfl,isRounded_int (F := single) hint (single_log (Int.natAbs_ne_zero.mpr hint) hn) ?_⟩
  exact hbits.trans (congrArg (_ + ·) hcode)

end Digits

/-! ## All routines -/

/-- Every integer is rounded once, to nearest, ties to even; zero is the positive zero. -/
structure Converts (F : Format) {w : ℕ} (value : BitVec w → ℤ) (convert : BitVec w → Option F.Rep) : Prop where
  rounded : ∀ a, ∃ x, convert a = some x ∧ F.IsRounded (value a) false x
  zero : convert 0 = some 0

def unsigned {w : ℕ} (a : BitVec w) : ℤ := a.toNat

theorem shiftsIn_single : ShiftsIn single (shiftAndRound t single) := fun _ h0 _ => shiftAndRound_eq t h0

theorem shiftsIn_double (c : Double.RepClz) : ShiftsIn (double c) (shiftOnly t (double c)) := by
  intro a h0 hlog
  have hle : Nat.log 2 a.toNat ≤ (double c).significandBits := by
    unfold aWidth at hlog
    change _ ≤ 52
    omega
  exact shiftOnly_eq t h0 hle

end CompilerRt.IntToFloat
