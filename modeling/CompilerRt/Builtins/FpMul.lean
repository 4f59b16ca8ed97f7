import CompilerRt.Builtins.FpLib

/-! # Soft-float multiplication

The software paths of `lib/mulsf3.c` and `lib/muldf3.c`. They share everything but one test: only the
double version returns early when the product underflows by more than the width of its type.
-/
namespace CompilerRt.FpMul
open CShift FpLib

/-- A return, or the values with which the code goes on. -/
inductive Flow (w : ℕ) (α : Type) where
  | done (r : BitVec w)
  | next (x : α)

/-- `x - 1U` -/
def sub1U (x : ℕ) : ℕ := (x + 2^32 - 1) % 2^32

section Code
variable (t : ShiftTarget) (F : Format) (k : Macros F.typeWidth)

/-- The returns for zero, infinite and NaN operands; `none` falls through. -/
def special (a b : F.Rep) : Option F.Rep :=
  let productSign := (a ^^^ b) &&& k.signBit
  let aAbs := a &&& k.absMask
  let bAbs := b &&& k.absMask
  if k.infRep < aAbs then some (a ||| k.quietBit)
  else if k.infRep < bAbs then some (b ||| k.quietBit)
  else if aAbs = k.infRep then
    if bAbs ≠ 0 then some (aAbs ||| productSign) else some k.qnanRep
  else if bAbs = k.infRep then
    if aAbs ≠ 0 then some (bAbs ||| productSign) else some k.qnanRep
  else if aAbs = 0 then some productSign
  else if bAbs = 0 then some productSign
  else none

/-- `if (aAbs < implicitBit) scale += normalize(&aSignificand);` -/
def normalizeDenormal (x : F.Rep) : Option (ℤ × F.Rep) :=
  let significand := x &&& k.significandMask
  if x &&& k.absMask < k.implicitBit then normalize t F k significand else return (0, significand)

/-- The significands with their implicit bits and the exponent of the unnormalized product. -/
def operands (a b : F.Rep) : Option (Flow F.typeWidth (F.Rep × F.Rep × ℤ)) := do
  let aExponent ← exponentField t F k a
  let bExponent ← exponentField t F k b
  if sub1U k.maxExponent ≤ sub1U aExponent ∨ sub1U k.maxExponent ≤ sub1U bExponent then
    match special F k a b with
    | some r => return .done r
    | none =>
      let (aScale, aSignificand) ← normalizeDenormal t F k a
      let (bScale, bSignificand) ← normalizeDenormal t F k b
      return .next (aSignificand ||| k.implicitBit, bSignificand ||| k.implicitBit,
        aExponent + bExponent - k.exponentBias + (aScale + bScale))
  else
    return .next ((a &&& k.significandMask) ||| k.implicitBit, (b &&& k.significandMask) ||| k.implicitBit,
      aExponent + bExponent - k.exponentBias)

/-- The double-width product with its leading bit in place. -/
def product (aSignificand bSignificand : F.Rep) (productExponent : ℤ) : Option (F.Rep × F.Rep × ℤ) := do
  let (hi, lo) ← F.wideMultiply t aSignificand (← shl t bSignificand F.exponentBits)
  if hi &&& k.implicitBit ≠ 0 then return (hi, lo, productExponent + 1)
  else
    let (hi, lo) ← wideLeftShift t F hi lo 1
    return (hi, lo, productExponent)

/-- The sign and the final rounding. -/
def round (productSign hi lo : F.Rep) : F.Rep :=
  let hi := hi ||| productSign
  let hi := if k.signBit < lo then hi + 1 else hi
  if lo = k.signBit then hi + (hi &&& 1) else hi

/-- Insert the exponent of a result that is normal before rounding. -/
def insertExponent (hi : F.Rep) (productExponent : ℤ) : Option F.Rep := do
  return (hi &&& k.significandMask) ||| (← shl t (BitVec.ofInt _ productExponent) F.significandBits)

/-- `1U - (unsigned)productExponent` -/
def underflowShift (productExponent : ℤ) : ℕ := ((1 - productExponent) % 2^32).toNat

/-- The end of `__mulsf3`, which shifts an underflowing product by any amount. -/
def finishSingle (productSign hi lo : F.Rep) (productExponent : ℤ) : Option F.Rep :=
  if (k.maxExponent : ℤ) ≤ productExponent then return k.infRep ||| productSign
  else if productExponent ≤ 0 then do
    let (hi, lo) ← wideRightShiftWithSticky t F hi lo (underflowShift productExponent)
    return round F k productSign hi lo
  else do
    let hi ← insertExponent t F k hi productExponent
    return round F k productSign hi lo

/-- The end of `__muldf3`, with its early return for a far underflow. -/
def finishDouble (productSign hi lo : F.Rep) (productExponent : ℤ) : Option F.Rep :=
  if (k.maxExponent : ℤ) ≤ productExponent then return k.infRep ||| productSign
  else if productExponent ≤ 0 then
    if F.typeWidth ≤ underflowShift productExponent then return productSign
    else do
      let (hi, lo) ← wideRightShiftWithSticky t F hi lo (underflowShift productExponent)
      return round F k productSign hi lo
  else do
    let hi ← insertExponent t F k hi productExponent
    return round F k productSign hi lo

/-- What the two files share, up to the treatment of the normalized product. -/
def mul (finish : Macros F.typeWidth → F.Rep → F.Rep → F.Rep → ℤ → Option F.Rep) (a b : F.Rep) :
    Option F.Rep := do
  let k ← macros t F
  match ← operands t F k a b with
  | .done r => return r
  | .next (aSignificand, bSignificand, productExponent) =>
    let (hi, lo, productExponent) ← product t F k aSignificand bSignificand productExponent
    finish k ((a ^^^ b) &&& k.signBit) hi lo productExponent

end Code

def mulsf3 (t : ShiftTarget) : BitVec 32 → BitVec 32 → Option (BitVec 32) :=
  mul t single (finishSingle t single)

def muldf3 (t : ShiftTarget) (c : Double.RepClz) : BitVec 64 → BitVec 64 → Option (BitVec 64) :=
  mul t (double c) (finishDouble t (double c))

end CompilerRt.FpMul
