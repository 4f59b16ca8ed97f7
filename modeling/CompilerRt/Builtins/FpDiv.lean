import CompilerRt.Builtins.FpMul

/-! # Soft-float division

The software paths of `lib/divsf3.c` and `lib/divdf3.c`: both refine a 32-bit reciprocal by Newton
steps, multiply, and correct by the residual; the number formats in between differ.
-/
namespace CompilerRt.FpDiv
open CShift FpLib
open FpMul (Flow sub1U normalizeDenormal underflowShift)

section Shared
variable (t : ShiftTarget) (F : Format) (k : Macros F.typeWidth)

/-- The returns for zero, infinite and NaN operands; `none` falls through. -/
def special (a b : F.Rep) : Option F.Rep :=
  let quotientSign := (a ^^^ b) &&& k.signBit
  let aAbs := a &&& k.absMask
  let bAbs := b &&& k.absMask
  if k.infRep < aAbs then some (a ||| k.quietBit)
  else if k.infRep < bAbs then some (b ||| k.quietBit)
  else if aAbs = k.infRep then
    if bAbs = k.infRep then some k.qnanRep else some (aAbs ||| quotientSign)
  else if bAbs = k.infRep then some quotientSign
  else if aAbs = 0 then
    if bAbs = 0 then some k.qnanRep else some quotientSign
  else if bAbs = 0 then some (k.infRep ||| quotientSign)
  else none

/-- The significands with their implicit bits and the difference of the exponents. -/
def operands (a b : F.Rep) : Option (Flow F.typeWidth (F.Rep × F.Rep × ℤ)) := do
  let aExponent ← exponentField t F k a
  let bExponent ← exponentField t F k b
  if sub1U k.maxExponent ≤ sub1U aExponent ∨ sub1U k.maxExponent ≤ sub1U bExponent then
    match special F k a b with
    | some r => return .done r
    | none =>
      let (aScale, aSignificand) ← normalizeDenormal t F k a
      let (bScale, bSignificand) ← normalizeDenormal t F k b
      return .next (aSignificand ||| k.implicitBit, bSignificand ||| k.implicitBit,
        aExponent - bExponent + (aScale - bScale))
  else
    return .next ((a &&& k.significandMask) ||| k.implicitBit, (b &&& k.significandMask) ||| k.implicitBit,
      aExponent - bExponent)

/-- Overflow, underflow with its early return, packing and rounding. -/
def finish (quotientSign bSignificand quotient residual : F.Rep) (quotientExponent : ℤ) : Option F.Rep :=
  let writtenExponent : ℤ := quotientExponent + k.exponentBias
  if (k.maxExponent : ℤ) ≤ writtenExponent then return k.infRep ||| quotientSign
  else if writtenExponent < 1 then
    let shift := underflowShift writtenExponent
    if F.typeWidth ≤ shift then return quotientSign
    else do
      let (quotient, residual) ← wideRightShiftWithSticky t F quotient residual shift
      let absResult := if k.signBit < residual then quotient + 1 else quotient
      let absResult := if residual = k.signBit then absResult + (absResult &&& 1) else absResult
      return absResult ||| quotientSign
  else do
    let round := bSignificand < (← shl t residual (1 : ℕ))
    let absResult := quotient &&& k.significandMask
    let absResult := absResult ||| (← shl t (BitVec.ofInt _ writtenExponent) F.significandBits)
    return (absResult + ofBool _ round) ||| quotientSign

/-- `core` computes the quotient, the residual and what the quotient's exponent loses. -/
def div (core : Macros F.typeWidth → F.Rep → F.Rep → Option (F.Rep × F.Rep × ℤ)) (a b : F.Rep) :
    Option F.Rep := do
  let k ← macros t F
  match ← operands t F k a b with
  | .done r => return r
  | .next (aSignificand, bSignificand, quotientExponent) =>
    let (quotient, residual, loss) ← core k aSignificand bSignificand
    finish t F k ((a ^^^ b) &&& k.signBit) bSignificand quotient residual (quotientExponent - loss)

/-- The biased exponent that the end of the routine is given, where no value is returned early. -/
def writtenExponent (core : Macros F.typeWidth → F.Rep → F.Rep → Option (F.Rep × F.Rep × ℤ)) (a b : F.Rep) : Option ℤ := do
  let k ← macros t F
  match ← operands t F k a b with
  | .done _ => none
  | .next (aSignificand, bSignificand, quotientExponent) =>
    let (_, _, loss) ← core k aSignificand bSignificand
    return quotientExponent - loss + k.exponentBias

end Shared

section Cores
variable (t : ShiftTarget)

/-- `x1 = x0 * (2 - x0 * b)` -/
def newton (q31b reciprocal : BitVec 32) : Option (BitVec 32) := do
  let p ← shr t (reciprocal.zeroExtend 64 * q31b.zeroExtend 64) (32 : ℕ)
  let correction : BitVec 32 := (-p).truncate 32
  return (← shr t (reciprocal.zeroExtend 64 * correction.zeroExtend 64) (31 : ℕ)).truncate 32

/-- Three steps from the linear estimate `3/4 + 1/sqrt(2) - b/2`. -/
def reciprocalEstimate (q31b : BitVec 32) : Option (BitVec 32) := do
  let x0 := 0x7504f333 - q31b
  let x1 ← newton t q31b x0
  let x2 ← newton t q31b x1
  newton t q31b x2

def divsf3Core (k : Macros 32) (aSignificand bSignificand : BitVec 32) :
    Option (BitVec 32 × BitVec 32 × ℤ) := do
  let q31b ← shl t bSignificand (8 : ℕ)
  let reciprocal := (← reciprocalEstimate t q31b) - 2
  let aShifted ← shl t aSignificand (1 : ℕ)
  let quotient := (← shr t (reciprocal.zeroExtend 64 * aShifted.zeroExtend 64) (32 : ℕ)).truncate 32
  if quotient < (← shl t k.implicitBit (1 : ℕ)) then
    return (quotient, (← shl t aSignificand (24 : ℕ)) - quotient * bSignificand, 1)
  else
    let quotient ← shr t quotient (1 : ℕ)
    return (quotient, (← shl t aSignificand (23 : ℕ)) - quotient * bSignificand, 0)

/-- The full-width last step: the 32-bit estimate times the 64-bit correction. -/
def reciprocal64 (q31b q63blo recip32 : BitVec 32) : Option (BitVec 64) := do
  let r : BitVec 64 := recip32.zeroExtend 64
  let correction := -(r * q31b.zeroExtend 64 + (← shr t (r * q63blo.zeroExtend 64) (32 : ℕ)))
  let cHi : BitVec 32 := (← shr t correction (32 : ℕ)).truncate 32
  let cLo : BitVec 32 := correction.truncate 32
  return r * cHi.zeroExtend 64 + (← shr t (r * cLo.zeroExtend 64) (32 : ℕ))

def divdf3Core (k : Macros 64) (aSignificand bSignificand : BitVec 64) :
    Option (BitVec 64 × BitVec 64 × ℤ) := do
  let q31b : BitVec 32 := (← shr t bSignificand (21 : ℕ)).truncate 32
  let recip32 := (← reciprocalEstimate t q31b) - 1
  let q63blo : BitVec 32 := (← shl t bSignificand (11 : ℕ)).truncate 32
  let reciprocal := (← reciprocal64 t q31b q63blo recip32) - 2
  let (quotient, _) ← Double.wideMultiply t (← shl t aSignificand (2 : ℕ)) reciprocal
  if quotient < (← shl t k.implicitBit (1 : ℕ)) then
    return (quotient, (← shl t aSignificand (53 : ℕ)) - quotient * bSignificand, 1)
  else
    let quotient ← shr t quotient (1 : ℕ)
    return (quotient, (← shl t aSignificand (52 : ℕ)) - quotient * bSignificand, 0)

end Cores

def divsf3 (t : ShiftTarget) : BitVec 32 → BitVec 32 → Option (BitVec 32) :=
  div t single (divsf3Core t)

def divdf3 (t : ShiftTarget) (c : Double.RepClz) : BitVec 64 → BitVec 64 → Option (BitVec 64) :=
  div t (double c) (divdf3Core t)

end CompilerRt.FpDiv
