import CompilerRt.Builtins.FpLib

/-! # Soft-float addition

`lib/addsf3.c` and `lib/adddf3.c` are one text for the two precisions; this is their software path. `lib/subsf3.c` and
`lib/subdf3.c` call them.
-/
namespace CompilerRt.FpAdd
open CShift FpLib

section Code
variable (t : ShiftTarget) (F : Format) (k : Macros F.typeWidth)

/-- The returns for zero, infinite and NaN operands; `none` falls through. -/
def special (a b : F.Rep) : Option F.Rep :=
  let aAbs := a &&& k.absMask
  let bAbs := b &&& k.absMask
  if k.infRep - 1 ≤ aAbs - 1 ∨ k.infRep - 1 ≤ bAbs - 1 then
    if k.infRep < aAbs then some (a ||| k.quietBit)
    else if k.infRep < bAbs then some (b ||| k.quietBit)
    else if aAbs = k.infRep then
      if a ^^^ b = k.signBit then some k.qnanRep else some a
    else if bAbs = k.infRep then some b
    else if aAbs = 0 then
      if bAbs = 0 then some (a &&& b) else some b
    else if bAbs = 0 then some a
    else none
  else none

/-- Exponent and significand of an operand, a denormal one normalized. -/
def unpack (x : F.Rep) : Option (ℤ × F.Rep) := do
  let exponent ← exponentField t F k x
  let significand := x &&& k.significandMask
  if exponent = 0 then normalize t F k significand else return (exponent, significand)

/-- Room for round, guard and sticky below the significand with its implicit bit. -/
def widen (significand : F.Rep) : Option F.Rep := shl t (significand ||| k.implicitBit) (3 : ℕ)

/-- `align` is the unsigned difference of the exponents. -/
def alignSignificand (bSignificand : F.Rep) (align : ℕ) : Option F.Rep :=
  if align ≠ 0 then
    if align < F.typeWidth then do
      let sticky := (← shl t bSignificand (F.typeWidth - align)) != 0
      return (← shr t bSignificand align) ||| ofBool _ sticky
    else return 1
  else return bSignificand

/-- The left shift after a cancellation. -/
def renormalize (aSignificand : F.Rep) (aExponent : ℤ) : Option (ℤ × F.Rep) := do
  let top ← shl t k.implicitBit (3 : ℕ)
  if aSignificand < top then
    let shift : ℤ := (← F.rep_clz t aSignificand) - (← F.rep_clz t top)
    let aSignificand ← shl t aSignificand shift
    return (aExponent - shift, aSignificand)
  else return (aExponent, aSignificand)

/-- The right shift after a carry. -/
def absorbCarry (aSignificand : F.Rep) (aExponent : ℤ) : Option (ℤ × F.Rep) := do
  let carryBit ← shl t k.implicitBit (4 : ℕ)
  if aSignificand &&& carryBit ≠ 0 then
    let sticky := (aSignificand &&& 1) != 0
    return (aExponent + 1, (← shr t aSignificand (1 : ℕ)) ||| ofBool _ sticky)
  else return (aExponent, aSignificand)

/-- The exponent zero and the shift of a result that is denormal before rounding. -/
def denormalize (aSignificand : F.Rep) (aExponent : ℤ) : Option (ℤ × F.Rep) :=
  if aExponent ≤ 0 then do
    let shift : ℤ := 1 - aExponent
    let sticky := (← shl t aSignificand (F.typeWidth - shift)) != 0
    return (0, (← shr t aSignificand shift) ||| ofBool _ sticky)
  else return (aExponent, aSignificand)

/-- Overflow, denormal results, packing and the final rounding. -/
def round (resultSign : F.Rep) (aSignificand : F.Rep) (aExponent : ℤ) : Option F.Rep :=
  if (k.maxExponent : ℤ) ≤ aExponent then return k.infRep ||| resultSign
  else do
    let (aExponent, aSignificand) ← denormalize t F aSignificand aExponent
    let roundGuardSticky := aSignificand &&& 0x7
    let result := (← shr t aSignificand (3 : ℕ)) &&& k.significandMask
    let result := result ||| (← shl t (BitVec.ofInt _ aExponent) F.significandBits)
    let result := result ||| resultSign
    let result := if 0x4 < roundGuardSticky then result + 1 else result
    return if roundGuardSticky = 0x4 then result + (result &&& 1) else result

/-- The sum of finite nonzero operands, the larger magnitude first. -/
def addFinite (aRep bRep : F.Rep) : Option F.Rep := do
  let (aExponent, aSignificand) ← unpack t F k aRep
  let (bExponent, bSignificand) ← unpack t F k bRep
  let resultSign := aRep &&& k.signBit
  let subtraction := (aRep ^^^ bRep) &&& k.signBit ≠ 0
  let aSignificand ← widen t F k aSignificand
  let bSignificand ← widen t F k bSignificand
  let bSignificand ← alignSignificand t F bSignificand ((aExponent - bExponent) % 2^32).toNat
  if subtraction then
    let aSignificand := aSignificand - bSignificand
    if aSignificand = 0 then return 0
    else
      let (aExponent, aSignificand) ← renormalize t F k aSignificand aExponent
      round t F k resultSign aSignificand aExponent
  else
    let (aExponent, aSignificand) ← absorbCarry t F k (aSignificand + bSignificand) aExponent
    round t F k resultSign aSignificand aExponent

def add (a b : F.Rep) : Option F.Rep := do
  let k ← macros t F
  match special F k a b with
  | some r => return r
  | none =>
    if a &&& k.absMask < b &&& k.absMask then addFinite t F k b a else addFinite t F k a b

/-- Flip the sign bit of b and add. -/
def sub (a b : F.Rep) : Option F.Rep := do
  let k ← macros t F
  add t F a (b ^^^ k.signBit)

end Code

def addsf3 (t : ShiftTarget) : BitVec 32 → BitVec 32 → Option (BitVec 32) := add t single

def adddf3 (t : ShiftTarget) (c : Double.RepClz) : BitVec 64 → BitVec 64 → Option (BitVec 64) := add t (double c)

def subsf3 (t : ShiftTarget) : BitVec 32 → BitVec 32 → Option (BitVec 32) := sub t single

def subdf3 (t : ShiftTarget) (c : Double.RepClz) : BitVec 64 → BitVec 64 → Option (BitVec 64) := sub t (double c)

end CompilerRt.FpAdd
