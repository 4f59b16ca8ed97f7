import CompilerRt.Builtins.FpLib

/-! # Conversions between the precisions

`lib/truncdfsf2.c` and `lib/extendsfdf2.c` do not use `fp_lib.h`; each derives its own constants.
-/
namespace CompilerRt.FpConvert
open CShift FpLib

namespace Trunc

def srcSigBits : ℕ := 52
def dstSigBits : ℕ := 23

/-- The local constants of `__truncdfsf2`. -/
structure Constants where
  srcExpBias : ℕ
  srcMinNormal : BitVec 64
  significandMask : BitVec 64
  srcInfinity : BitVec 64
  srcSignMask : BitVec 64
  srcAbsMask : BitVec 64
  roundMask : BitVec 64
  halfway : BitVec 64
  dstInfExp : ℕ
  dstExpBias : ℕ
  underflow : BitVec 64
  overflow : BitVec 64
  dstQNaN : BitVec 32
  dstNaNCode : BitVec 32

section Code
variable (t : ShiftTarget)

def constants : Option Constants := do
  let srcBits : ℕ := 64
  let srcExpBits := srcBits - srcSigBits - 1
  let srcInfExp : BitVec 32 := (← shl t (1 : BitVec 32) srcExpBits) - 1
  let srcExpBias := (← shr t srcInfExp (1 : ℕ)).toNat
  let srcMinNormal ← shl t (1 : BitVec 64) srcSigBits
  let srcInfinity ← shl t (BitVec.ofNat 64 srcInfExp.toNat) srcSigBits
  let srcSignMask ← shl t (1 : BitVec 64) (srcSigBits + srcExpBits : ℕ)
  let roundBit ← shl t (1 : BitVec 64) (srcSigBits - dstSigBits : ℕ)
  let halfway ← shl t (1 : BitVec 64) (srcSigBits - dstSigBits - 1 : ℕ)
  let dstBits : ℕ := 32
  let dstExpBits := dstBits - dstSigBits - 1
  let dstInfExp : BitVec 32 := (← shl t (1 : BitVec 32) dstExpBits) - 1
  let dstExpBias := (← shr t dstInfExp (1 : ℕ)).toNat
  let underflowExponent := srcExpBias + 1 - dstExpBias
  let overflowExponent := srcExpBias + dstInfExp.toNat - dstExpBias
  let underflow ← shl t (BitVec.ofNat 64 underflowExponent) srcSigBits
  let overflow ← shl t (BitVec.ofNat 64 overflowExponent) srcSigBits
  let dstQNaN ← shl t (1 : BitVec 32) (dstSigBits - 1 : ℕ)
  return { srcExpBias := srcExpBias, srcMinNormal := srcMinNormal, significandMask := srcMinNormal - 1
           srcInfinity := srcInfinity, srcSignMask := srcSignMask, srcAbsMask := srcSignMask - 1
           roundMask := roundBit - 1, halfway := halfway, dstInfExp := dstInfExp.toNat, dstExpBias := dstExpBias
           underflow := underflow, overflow := overflow, dstQNaN := dstQNaN, dstNaNCode := dstQNaN - 1 }

variable (k : Constants)

/-- Round to nearest, ties to even, by the bits that were shifted out. -/
def round (absResult : BitVec 32) (roundBits : BitVec 64) : BitVec 32 :=
  if k.halfway < roundBits then absResult + 1
  else if roundBits = k.halfway then absResult + (absResult &&& 1)
  else absResult

/-- The result where the exponent is that of a normal number of the destination format. -/
def normal (aAbs : BitVec 64) : Option (BitVec 32) := do
  let absResult : BitVec 32 := (← shr t aAbs (srcSigBits - dstSigBits : ℕ)).truncate 32
  let absResult := absResult - (← shl t (BitVec.ofNat 32 (k.srcExpBias - k.dstExpBias)) dstSigBits)
  return round k absResult (aAbs &&& k.roundMask)

/-- The last branch: a denormal or zero result, by a right shift with sticky. -/
def denormal (aRep aAbs : BitVec 64) : Option (BitVec 32) := do
  let aExp := (← shr t aAbs srcSigBits).toNat
  let shift : ℤ := k.srcExpBias - k.dstExpBias - aExp + 1
  let significand := (aRep &&& k.significandMask) ||| k.srcMinNormal
  if (srcSigBits : ℤ) < shift then return 0
  else
    let sticky := (← shl t significand (64 - shift)) != 0
    let denormalizedSignificand := (← shr t significand shift) ||| ofBool _ sticky
    let absResult : BitVec 32 := (← shr t denormalizedSignificand (srcSigBits - dstSigBits : ℕ)).truncate 32
    return round k absResult (denormalizedSignificand &&& k.roundMask)

/-- The exponent of an infinity. -/
def infinity : Option (BitVec 32) := shl t (BitVec.ofNat 32 k.dstInfExp) dstSigBits

def absResult (aRep aAbs : BitVec 64) : Option (BitVec 32) :=
  if aAbs - k.underflow < aAbs - k.overflow then normal t k aAbs
  else if k.srcInfinity < aAbs then do
    return (← infinity t k) ||| k.dstQNaN ||| (aAbs.truncate 32 &&& k.dstNaNCode)
  else if k.overflow < aAbs then infinity t k
  else denormal t k aRep aAbs

end Code
end Trunc

def truncdfsf2 (t : ShiftTarget) (aRep : BitVec 64) : Option (BitVec 32) := do
  let k ← Trunc.constants t
  let aAbs := aRep &&& k.srcAbsMask
  let sign := aRep &&& k.srcSignMask
  let absResult ← Trunc.absResult t k aRep aAbs
  return absResult ||| (← shr t sign (32 : ℕ)).truncate 32

namespace Extend

def srcSigBits : ℕ := 23
def dstSigBits : ℕ := 52

/-- The local constants of `__extendsfdf2`. -/
structure Constants where
  srcExpBias : ℕ
  srcMinNormal : BitVec 32
  srcInfinity : BitVec 32
  srcSignMask : BitVec 32
  srcAbsMask : BitVec 32
  srcQNaN : BitVec 32
  srcNaNCode : BitVec 32
  dstInfExp : ℕ
  dstExpBias : ℕ
  dstMinNormal : BitVec 64

section Code
variable (t : ShiftTarget)

def constants : Option Constants := do
  let srcBits : ℕ := 32
  let srcExpBits := srcBits - srcSigBits - 1
  let srcInfExp : BitVec 32 := (← shl t (1 : BitVec 32) srcExpBits) - 1
  let srcExpBias := (← shr t srcInfExp (1 : ℕ)).toNat
  let srcMinNormal ← shl t (1 : BitVec 32) srcSigBits
  let srcInfinity ← shl t srcInfExp srcSigBits
  let srcSignMask ← shl t (1 : BitVec 32) (srcSigBits + srcExpBits : ℕ)
  let srcQNaN ← shl t (1 : BitVec 32) (srcSigBits - 1 : ℕ)
  let dstBits : ℕ := 64
  let dstExpBits := dstBits - dstSigBits - 1
  let dstInfExp : BitVec 32 := (← shl t (1 : BitVec 32) dstExpBits) - 1
  let dstExpBias := (← shr t dstInfExp (1 : ℕ)).toNat
  let dstMinNormal ← shl t (1 : BitVec 64) dstSigBits
  return { srcExpBias := srcExpBias, srcMinNormal := srcMinNormal, srcInfinity := srcInfinity
           srcSignMask := srcSignMask, srcAbsMask := srcSignMask - 1, srcQNaN := srcQNaN
           srcNaNCode := srcQNaN - 1, dstInfExp := dstInfExp.toNat, dstExpBias := dstExpBias
           dstMinNormal := dstMinNormal }

variable (k : Constants)

def normal (aAbs : BitVec 32) : Option (BitVec 64) := do
  let absResult ← shl t (aAbs.zeroExtend 64) (dstSigBits - srcSigBits : ℕ)
  return absResult + (← shl t (BitVec.ofNat 64 (k.dstExpBias - k.srcExpBias)) dstSigBits)

/-- Infinity, or a NaN with its quiet bit and payload. -/
def special (aAbs : BitVec 32) : Option (BitVec 64) := do
  let absResult ← shl t (BitVec.ofNat 64 k.dstInfExp) dstSigBits
  let quiet ← shl t ((aAbs &&& k.srcQNaN).zeroExtend 64) (dstSigBits - srcSigBits : ℕ)
  return absResult ||| quiet ||| (aAbs &&& k.srcNaNCode).zeroExtend 64

/-- Renormalize the significand and insert the adjusted exponent. -/
def denormal (aAbs : BitVec 32) : Option (BitVec 64) := do
  let scale : ℤ := (builtin_clz aAbs : ℤ) - builtin_clz k.srcMinNormal
  let absResult ← shl t (aAbs.zeroExtend 64) (dstSigBits - srcSigBits + scale)
  let absResult := absResult ^^^ k.dstMinNormal
  let resultExponent : ℤ := k.dstExpBias - k.srcExpBias - scale + 1
  return absResult ||| (← shl t (BitVec.ofInt 64 resultExponent) dstSigBits)

def absResult (aAbs : BitVec 32) : Option (BitVec 64) :=
  if aAbs - k.srcMinNormal < k.srcInfinity - k.srcMinNormal then normal t k aAbs
  else if k.srcInfinity ≤ aAbs then special t k aAbs
  else if aAbs ≠ 0 then denormal t k aAbs
  else return 0

end Code
end Extend

def extendsfdf2 (t : ShiftTarget) (aRep : BitVec 32) : Option (BitVec 64) := do
  let k ← Extend.constants t
  let aAbs := aRep &&& k.srcAbsMask
  let sign := aRep &&& k.srcSignMask
  let absResult ← Extend.absResult t k aAbs
  return absResult ||| (← shl t (sign.zeroExtend 64) (32 : ℕ))

end CompilerRt.FpConvert
