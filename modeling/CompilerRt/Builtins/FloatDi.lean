import CompilerRt.Builtins.FpLib
import CompilerRt.Lib.BinaryRounding

/-! # From 64-bit integers to doubles

`lib/floatdidf.c` and `lib/floatundidf.c` have two versions each: one that leaves the rounding to the double additions
of the hardware, and under `__SOFT_FP__` one that rounds the significant digits itself.
-/
namespace CompilerRt.FloatDi
open CShift FpLib
open BinaryFormat (binary64)

/-! ## Integers only -/

namespace Soft

def DBL_MANT_DIG : ℕ := 53
def N : ℕ := 64

section Digits
variable (t : ShiftTarget) (sra : BitVec 64 → ℕ → BitVec 64)

/-- The digits after the first 53 become two: the next one, and whether there is a one in the rest. -/
def twoMoreDigits (a : BitVec 64) (sd : ℤ) : Option (BitVec 64) :=
  if sd = DBL_MANT_DIG + 1 then shl t a (1 : ℕ)
  else if sd = DBL_MANT_DIG + 2 then some a
  else do
    let rest ← shr t (BitVec.allOnes 64) (N + DBL_MANT_DIG + 2 - sd)
    return (← shr t a (sd - (DBL_MANT_DIG + 2))) ||| ofBool 64 (a &&& rest != 0)

/-- The first 53 digits and the exponent; `sra` is `>>` at the type of `a`. -/
def significand (a : BitVec 64) (sd : ℤ) : Option (BitVec 64 × ℤ) := do
  let e := sd - 1
  if DBL_MANT_DIG < sd then
    let a ← twoMoreDigits t a sd
    let a := a ||| ofBool 64 (a &&& 4 != 0)
    let a := a + 1
    let a := sra a 2
    if a &&& (← shl t (1 : BitVec 64) DBL_MANT_DIG) != 0 then return (sra a 1, e + 1) else return (a, e)
  else return (← shl t a (DBL_MANT_DIG - sd), e)

/-- The words of `double_bits`. -/
def doubleBits (sign : BitVec 32) (a : BitVec 64) (e : ℤ) : BitVec 64 :=
  let high := sign ||| BitVec.ofInt 32 (e + 1023) <<< 20 ||| ((sra a 32).truncate 32 &&& 0x000FFFFF)
  high ++ (a.truncate 32 : BitVec 32)

end Digits

/-- The negation of the smallest integer wraps to itself, which is its absolute value as a `du_int`. -/
def floatdidf (t : ShiftTarget) (a : BitVec 64) : Option (BitVec 64) := do
  if a = 0 then return 0 else
    let s := a.sshiftRight (N - 1)
    let a := (a ^^^ s) - s
    let sd : ℤ := N - builtin_clz a
    let (a, e) ← significand t BitVec.sshiftRight a sd
    return doubleBits BitVec.sshiftRight (s.truncate 32 &&& 0x80000000) a e

def floatundidf (t : ShiftTarget) (a : BitVec 64) : Option (BitVec 64) := do
  if a = 0 then return 0 else
    let sd : ℤ := N - builtin_clz a
    let (a, e) ← significand t BitVec.ushiftRight a sd
    return doubleBits BitVec.ushiftRight 0 a e

end Soft

/-! ## With double operations -/

/-- What the compiler uses for `double` arithmetic. -/
structure DoubleUnit where
  ofInt32 : BitVec 32 → BitVec 64
  add : BitVec 64 → BitVec 64 → BitVec 64
  sub : BitVec 64 → BitVec 64 → BitVec 64
  mul : BitVec 64 → BitVec 64 → BitVec 64

namespace Hard
variable (u : DoubleUnit)

def twop52 : BitVec 64 := 0x4330000000000000
def twop32 : BitVec 64 := 0x41f0000000000000
def twop84 : BitVec 64 := 0x4530000000000000
def twop84_plus_twop52 : BitVec 64 := 0x4530000000100000

def floatdidf (a : BitVec 64) : BitVec 64 :=
  let high := u.mul (u.ofInt32 ((a.sshiftRight 32).truncate 32)) twop32
  let low := twop52 ||| (a &&& 0x00000000ffffffff)
  u.add (u.sub high twop52) low

def floatundidf (a : BitVec 64) : BitVec 64 :=
  let high := twop84 ||| a >>> 32
  let low := twop52 ||| (a &&& 0x00000000ffffffff)
  u.add (u.sub high twop84_plus_twop52) low

end Hard

/-! ## The arithmetic of IEEE 754 -/

def IsFinite (x : BitVec 64) : Prop := binary64.abs x.toNat < binary64.inf

def sign (x : BitVec 64) : Bool := binary64.sign x.toNat

/-- The number that a finite double stands for. -/
def rat (x : BitVec 64) : ℚ := binary64.toRat (sign x) (binary64.abs x.toNat)

/-- The double nearest to `q`, of two the one with the even significand; a zero has the sign that is given. -/
def IsRounded (q : ℚ) (zeroSign : Bool) (x : BitVec 64) : Prop :=
  binary64.Rounds q x.toNat ∧ (q = 0 → sign x = zeroSign)

/-- Conversions from `int32_t` are exact, and results are rounded to nearest, ties to even. An exact sum of zero is
negative only where both operands are. -/
structure DoubleUnit.IsIEEE (u : DoubleUnit) : Prop where
  ofInt32_finite : ∀ i, IsFinite (u.ofInt32 i)
  ofInt32_exact : ∀ i, rat (u.ofInt32 i) = i.toInt
  add_rounded : ∀ x y, IsFinite x → IsFinite y → IsRounded (rat x + rat y) (sign x && sign y) (u.add x y)
  sub_rounded : ∀ x y, IsFinite x → IsFinite y → IsRounded (rat x - rat y) (sign x && !sign y) (u.sub x y)
  mul_rounded : ∀ x y, IsFinite x → IsFinite y → IsRounded (rat x * rat y) (sign x ^^ sign y) (u.mul x y)

end CompilerRt.FloatDi
