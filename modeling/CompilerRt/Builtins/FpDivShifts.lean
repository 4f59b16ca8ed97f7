import CompilerRt.Builtins.FpDiv
import CompilerRt.Builtins.FpMulShifts

/-! # The shift amounts of soft-float division

The cores shift by constants only; what depends on the operands is the last shift, behind its guard.
-/
namespace CompilerRt.FpDiv
open CShift FpLib
open FpMul (Flow sub1U normalizeDenormal underflowShift underflowShift_eq normalizeDenormal_eq expo_ne_zero_of_sub1U
  exponentBias_lt)

section Shared
variable (F : Format)

theorem special_eq_none {a b : F.Rep} (h : special F F.k a b = none) :
    a &&& F.k.absMask ≠ 0 ∧ b &&& F.k.absMask ≠ 0 := by
  simp only [special] at h
  split_ifs at h
  exact ⟨‹_›,‹_›⟩

theorem operands_cases (t : ShiftTarget) (a b : F.Rep) :
    (∃ r, special F F.k a b = some r ∧ operands t F F.k a b = some (.done r)) ∨
    ∃ ea eb sa sb e, Operand F a ea sa ∧ Operand F b eb sb ∧ e = ea - eb ∧
      operands t F F.k a b = some (.next (sa, sb, e)) := by
  rw [operands, exponentField_eq, exponentField_eq, Option.bind_eq_bind, Option.bind_some,
    Option.bind_eq_bind, Option.bind_some]
  split_ifs with h
  · cases hs : special F F.k a b with
    | some r => exact Or.inl ⟨r,rfl,rfl⟩
    | none =>
      obtain ⟨ha,hb⟩ := special_eq_none F hs
      obtain ⟨sca,ssa,hea,hoa⟩ := normalizeDenormal_eq t F ha
      obtain ⟨scb,ssb,heb,hob⟩ := normalizeDenormal_eq t F hb
      refine Or.inr ⟨_,_,_,_,expo F a - expo F b + (sca - scb),hoa,hob,?_,?_⟩
      · ring
      · rw [hea, heb]
        rfl
  · rw [not_or] at h
    exact Or.inr ⟨_,_,_,_,expo F a - expo F b,operand_of_normal F (expo_ne_zero_of_sub1U F h.1),
      operand_of_normal F (expo_ne_zero_of_sub1U F h.2),by ring,rfl⟩

theorem finish_isSome {sign s q r : F.Rep} {e : ℤ} (h : -2^31 ≤ e) :
    (finish .strict F F.k sign s q r e).isSome = true := by
  have hw := F.exponentBits_ge
  unfold finish
  dsimp only
  split_ifs with h1 h2 h3
  · rfl
  · rfl
  · have hu := underflowShift_eq (show e + F.k.exponentBias ≤ 0 by omega) (by omega)
    exact isSome_bind ((wideRightShiftWithSticky_isSome F _ _ (by omega)).mpr (by omega)) fun _ => rfl
  · exact isSome_bind (shl_isSome .strict (by omega)) fun _ => isSome_bind (shl_isSome .strict (by omega)) fun _ => rfl

/-- Whatever the core computes, the exponent loses at most one. -/
theorem div_isSome {core : Macros F.typeWidth → F.Rep → F.Rep → Option (F.Rep × F.Rep × ℤ)}
    (hcore : ∀ k a b, ∃ v, core k a b = some v ∧ v.2.2 ≤ 1) (a b : F.Rep) :
    (div .strict F core a b).isSome = true := by
  unfold div
  rw [macros_eq, Option.bind_eq_bind, Option.bind_some]
  rcases operands_cases F .strict a b with ⟨r,-,he⟩ | ⟨ea,eb,sa,sb,e,ha,hb,rfl,he⟩
  · rw [he]
    rfl
  · obtain ⟨⟨q,r,loss⟩,hc,hloss⟩ := hcore F.k sa sb
    rw [he]
    refine isSome_bind_iff.mpr ⟨_,rfl,isSome_bind_iff.mpr ⟨_,hc,finish_isSome F ?_⟩⟩
    have hloss : loss ≤ 1 := hloss
    have hea := ha.le_exponent
    have heb := hb.exponent_lt
    have hexp : (2 : ℤ)^F.exponentBits ≤ 2^30 := by exact_mod_cast F.two_pow_exponentBits_le
    have h1 := F.exponentBits_ge
    have h2 := F.typeWidth_le
    omega

end Shared

section Cores
variable (t : ShiftTarget)

theorem newton_isSome (q31b r : BitVec 32) : (newton t q31b r).isSome = true :=
  isSome_bind (shr_isSome t (by decide)) fun _ => isSome_bind (shr_isSome t (by decide)) fun _ => rfl

theorem reciprocalEstimate_isSome (q31b : BitVec 32) : (reciprocalEstimate t q31b).isSome = true :=
  isSome_bind (newton_isSome t q31b _) fun _ => isSome_bind (newton_isSome t q31b _) fun _ => newton_isSome t q31b _

theorem divsf3Core_eq (k : Macros 32) (a b : BitVec 32) : ∃ v, divsf3Core t k a b = some v ∧ v.2.2 ≤ 1 := by
  refine exists_bind (shl_isSome t (by decide)) fun q31b => ?_
  refine exists_bind (reciprocalEstimate_isSome t q31b) fun reciprocal => ?_
  refine exists_bind (shl_isSome t (by decide)) fun aShifted => ?_
  refine exists_bind (shr_isSome t (by decide)) fun quotient => ?_
  refine exists_bind (shl_isSome t (by decide)) fun limit => ?_
  split_ifs
  · exact exists_bind (shl_isSome t (by decide)) fun _ => ⟨_,rfl,le_rfl⟩
  · refine exists_bind (shr_isSome t (by decide)) fun _ => ?_
    exact exists_bind (shl_isSome t (by decide)) fun _ => ⟨_,rfl,zero_le_one⟩

theorem reciprocal64_isSome (x y z : BitVec 32) : (reciprocal64 t x y z).isSome = true :=
  isSome_bind (shr_isSome t (by decide)) fun _ => isSome_bind (shr_isSome t (by decide)) fun _ =>
    isSome_bind (shr_isSome t (by decide)) fun _ => rfl

theorem wideMultiply_isSome (a b : BitVec 64) : (Double.wideMultiply t a b).isSome = true := by
  rw [Double.wideMultiply_eq]
  rfl

theorem divdf3Core_eq (k : Macros 64) (a b : BitVec 64) : ∃ v, divdf3Core t k a b = some v ∧ v.2.2 ≤ 1 := by
  refine exists_bind (shr_isSome t (by decide)) fun q31b => ?_
  refine exists_bind (reciprocalEstimate_isSome t _) fun recip32 => ?_
  refine exists_bind (shl_isSome t (by decide)) fun q63blo => ?_
  refine exists_bind (reciprocal64_isSome t _ _ _) fun reciprocal => ?_
  refine exists_bind (shl_isSome t (by decide)) fun aShifted => ?_
  refine exists_bind (wideMultiply_isSome t _ _) fun quotient => ?_
  refine exists_bind (shl_isSome t (by decide)) fun limit => ?_
  split_ifs
  · exact exists_bind (shl_isSome t (by decide)) fun _ => ⟨_,rfl,le_rfl⟩
  · refine exists_bind (shr_isSome t (by decide)) fun _ => ?_
    exact exists_bind (shl_isSome t (by decide)) fun _ => ⟨_,rfl,zero_le_one⟩

end Cores

theorem divsf3_isSome (a b : BitVec 32) : (divsf3 .strict a b).isSome = true :=
  div_isSome single (divsf3Core_eq .strict) a b

theorem divdf3_isSome (c : Double.RepClz) (a b : BitVec 64) : (divdf3 .strict c a b).isSome = true :=
  div_isSome (double c) (divdf3Core_eq .strict) a b

end CompilerRt.FpDiv
