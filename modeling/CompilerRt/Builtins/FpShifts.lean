import CompilerRt.Builtins.FpAddRounds
import CompilerRt.Builtins.FpConvert
import CompilerRt.Builtins.FpDivShifts

/-! # The shift amounts of the soft-float routines

On the strict target a routine has a value exactly when every shift that it evaluates is in range. Only a
single-precision product that underflows by exactly the width of the type, and the truncation of 2^128,
meet a bad amount.
-/
namespace CompilerRt.FpConvert
open CShift FpLib

namespace Trunc

/-- The values of the local constants. -/
def k : Constants where
  srcExpBias := 1023
  srcMinNormal := 0x0010000000000000
  significandMask := 0x000fffffffffffff
  srcInfinity := 0x7ff0000000000000
  srcSignMask := 0x8000000000000000
  srcAbsMask := 0x7fffffffffffffff
  roundMask := 0x1fffffff
  halfway := 0x10000000
  dstInfExp := 255
  dstExpBias := 127
  underflow := 0x3810000000000000
  overflow := 0x47f0000000000000
  dstQNaN := 0x00400000
  dstNaNCode := 0x003fffff

theorem constants_eq : constants .strict = some k := rfl

theorem normal_isSome (aAbs : BitVec 64) : (normal .strict k aAbs).isSome = true :=
  isSome_bind (shr_isSome .strict (by decide)) fun _ => isSome_bind (shl_isSome .strict (by decide)) fun _ => rfl

theorem infinity_isSome : (infinity .strict k).isSome = true := shl_isSome .strict (by decide)

/-- The last branch is right for exponents below the smallest normal one of the destination. -/
theorem denormal_isSome (aRep aAbs : BitVec 64) :
    (denormal .strict k aRep aAbs).isSome = true ↔ aAbs.toNat < k.underflow.toNat := by
  have hs := shr_natCast .strict aAbs (n := srcSigBits) (by decide)
  have hexp : (aAbs >>> srcSigBits).toNat = aAbs.toNat / 2^52 := by
    rw [BitVec.toNat_ushiftRight, Nat.shiftRight_eq_div_pow]
    rfl
  have hu : k.underflow.toNat = 897 * 2^52 := rfl
  rw [denormal, hs, Option.bind_eq_bind, Option.bind_some, hexp, hu]
  have hk : (k.srcExpBias : ℤ) - k.dstExpBias = 896 := rfl
  have hsig : (srcSigBits : ℤ) = 52 := rfl
  rw [hk, hsig]
  dsimp only
  split_ifs with h
  · exact iff_of_true rfl (by omega)
  · constructor
    · intro hsome
      obtain ⟨v,hv,-⟩ := isSome_bind_iff.mp hsome
      have hin := (shl_strict_isSome _ _).mp (Option.isSome_iff_exists.mpr ⟨v,hv⟩)
      have h1 := hin.2
      omega
    · intro hlt
      refine isSome_bind ((shl_strict_isSome _ _).mpr ⟨by omega,by omega⟩) fun _ => ?_
      refine isSome_bind ((shr_strict_isSome _ _).mpr ⟨by omega,by omega⟩) fun _ => ?_
      exact isSome_bind (shr_isSome .strict (by decide)) fun _ => rfl

/-- The value `overflow` itself passes none of the tests before the last branch. -/
theorem absResult_isSome (aRep aAbs : BitVec 64) :
    (absResult .strict k aRep aAbs).isSome = true ↔ aAbs ≠ k.overflow := by
  have hu : k.underflow = 0x3810000000000000 := rfl
  have ho : k.overflow = 0x47f0000000000000 := rfl
  have hi : k.srcInfinity = 0x7ff0000000000000 := rfl
  unfold absResult
  rw [hu, ho, hi]
  split_ifs with h1 h2 h3
  · exact iff_of_true (normal_isSome aAbs) (by bv_omega)
  · exact iff_of_true (isSome_bind infinity_isSome fun _ => rfl) (by bv_omega)
  · exact iff_of_true infinity_isSome (by bv_omega)
  · rw [denormal_isSome, hu]
    bv_omega

end Trunc

theorem truncdfsf2_isSome (aRep : BitVec 64) :
    (truncdfsf2 .strict aRep).isSome = true ↔ aRep &&& 0x7fffffffffffffff ≠ 0x47f0000000000000 := by
  refine Iff.trans ?_ (Trunc.absResult_isSome aRep (aRep &&& Trunc.k.srcAbsMask))
  rw [truncdfsf2, Trunc.constants_eq, Option.bind_eq_bind, Option.bind_some]
  constructor
  · intro h
    obtain ⟨v,hv,-⟩ := isSome_bind_iff.mp h
    exact Option.isSome_iff_exists.mpr ⟨v,hv⟩
  · intro h
    exact isSome_bind h fun _ => isSome_bind (shr_isSome .strict (by decide)) fun _ => rfl

namespace Extend

/-- The values of the local constants. -/
def k : Constants where
  srcExpBias := 127
  srcMinNormal := 0x00800000
  srcInfinity := 0x7f800000
  srcSignMask := 0x80000000
  srcAbsMask := 0x7fffffff
  srcQNaN := 0x00400000
  srcNaNCode := 0x003fffff
  dstInfExp := 2047
  dstExpBias := 1023
  dstMinNormal := 0x0010000000000000

theorem constants_eq : constants .strict = some k := rfl

theorem denormal_isSome {aAbs : BitVec 32} (h0 : aAbs ≠ 0) (h : aAbs < k.srcMinNormal) :
    (denormal .strict k aAbs).isSome = true := by
  have hn : aAbs.toNat ≠ 0 := fun h => h0 (BitVec.eq_of_toNat_eq h)
  have hlog : Nat.log 2 aAbs.toNat < 23 := Nat.log_lt_of_lt_pow hn (BitVec.lt_def.mp h)
  have hmin : builtin_clz k.srcMinNormal = 8 := by
    change 32 - 1 - Nat.log 2 (2^23) = 8
    rw [Nat.log_pow (by decide)]
  have hclz : builtin_clz aAbs = 31 - Nat.log 2 aAbs.toNat := rfl
  unfold denormal
  rw [hmin, hclz]
  have hs : (dstSigBits : ℤ) = 52 ∧ (srcSigBits : ℤ) = 23 := ⟨rfl,rfl⟩
  refine isSome_bind ((shl_strict_isSome _ _).mpr ⟨by omega,by omega⟩) fun _ => ?_
  exact isSome_bind (shl_isSome .strict (by decide)) fun _ => rfl

theorem absResult_isSome (aAbs : BitVec 32) : (absResult .strict k aAbs).isSome = true := by
  unfold absResult
  split_ifs with h1 h2 h3
  · exact isSome_bind (shl_isSome .strict (by decide)) fun _ => isSome_bind (shl_isSome .strict (by decide)) fun _ => rfl
  · exact isSome_bind (shl_isSome .strict (by decide)) fun _ => isSome_bind (shl_isSome .strict (by decide)) fun _ => rfl
  · have hm : k.srcMinNormal = 0x00800000 := rfl
    have hi : k.srcInfinity = 0x7f800000 := rfl
    rw [hm, hi] at h1
    rw [hi] at h2
    exact denormal_isSome h3 (by rw [hm]; bv_omega)
  · rfl

end Extend

theorem extendsfdf2_isSome (aRep : BitVec 32) : (extendsfdf2 .strict aRep).isSome = true := by
  rw [extendsfdf2, Extend.constants_eq, Option.bind_eq_bind, Option.bind_some]
  exact isSome_bind (Extend.absResult_isSome _) fun _ => isSome_bind (shl_isSome .strict (by decide)) fun _ => rfl

end CompilerRt.FpConvert

namespace CompilerRt.FpShifts
open CShift FpLib FpAdd FpMul FpDiv FpConvert

/-- A call of one of the routines; in double precision with either form of `rep_clz`. -/
inductive Call where
  | addsf3 (a b : BitVec 32)
  | adddf3 (c : Double.RepClz) (a b : BitVec 64)
  | mulsf3 (a b : BitVec 32)
  | muldf3 (c : Double.RepClz) (a b : BitVec 64)
  | divsf3 (a b : BitVec 32)
  | divdf3 (c : Double.RepClz) (a b : BitVec 64)
  | truncdfsf2 (a : BitVec 64)
  | extendsfdf2 (a : BitVec 32)

/-- The width of the result. -/
def Call.width : Call → ℕ
  | addsf3 .. | mulsf3 .. | divsf3 .. | truncdfsf2 .. => 32
  | adddf3 .. | muldf3 .. | divdf3 .. | extendsfdf2 .. => 64

def Call.run (t : ShiftTarget) : (call : Call) → Option (BitVec call.width)
  | addsf3 a b => FpAdd.addsf3 t a b
  | adddf3 c a b => FpAdd.adddf3 t c a b
  | mulsf3 a b => FpMul.mulsf3 t a b
  | muldf3 c a b => FpMul.muldf3 t c a b
  | divsf3 a b => FpDiv.divsf3 t a b
  | divdf3 c a b => FpDiv.divdf3 t c a b
  | truncdfsf2 a => FpConvert.truncdfsf2 t a
  | extendsfdf2 a => FpConvert.extendsfdf2 t a

/-- Every shift that the call evaluates has an amount from zero up to the width of its operand. -/
def Call.ShiftsInRange (call : Call) : Prop := (call.run .strict).isSome = true

instance (call : Call) : Decidable call.ShiftsInRange := inferInstanceAs (Decidable (_ = _))

/-- The operands on which a routine keeps its shifts in range: a single-precision product of magnitude in
`[2^-158, 2^-157)` does not, and neither does the truncation of `2^128` or `-2^128`. Magnitudes are in
units of `2^-149`. -/
def Call.Guarded : Call → Prop
  | mulsf3 a b => ¬ (2^140 ≤ mag single a * mag single b ∧ mag single a * mag single b < 2^141)
  | truncdfsf2 a => a &&& 0x7fffffffffffffff ≠ 0x47f0000000000000
  | _ => True

theorem shiftsInRange_iff (call : Call) : call.ShiftsInRange ↔ call.Guarded := by
  cases call with
  | addsf3 a b => exact iff_of_true (add_isSome .strict (F := single) a b) trivial
  | adddf3 c a b => exact iff_of_true (add_isSome .strict (F := double c) a b) trivial
  | mulsf3 a b => exact mulsf3_isSome a b
  | muldf3 c a b => exact iff_of_true (muldf3_isSome c a b) trivial
  | divsf3 a b => exact iff_of_true (divsf3_isSome a b) trivial
  | divdf3 c a b => exact iff_of_true (divdf3_isSome c a b) trivial
  | truncdfsf2 a => exact truncdfsf2_isSome a
  | extendsfdf2 a => exact iff_of_true (extendsfdf2_isSome a) trivial

/-- The product of `2^-79` with itself, and the truncation of `2^128`. -/
theorem not_shiftsInRange : ¬ (Call.mulsf3 0x18000000 0x18000000).ShiftsInRange ∧
    ¬ (Call.truncdfsf2 0x47f0000000000000).ShiftsInRange := by
  decide +kernel

end CompilerRt.FpShifts
