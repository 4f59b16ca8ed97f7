import CompilerRt.Lib.SignMask

/-! # Signed division on the unsigned one

`__divsi3` and `__divdi3` have one body, and so have `__divmodsi4` and `__divmoddi4`; they are written over the unsigned
division that the width comes with. Negation and subtraction of signed words wrap.
-/
namespace CompilerRt.SignedDivision
open SignMask
variable {w : ℕ}

/-- `(a ^ s_a) - s_a` negates if `s_a == -1`, where `s_a = a >> bits_in_word_m1`. -/
def divide (udiv : BitVec w → BitVec w → BitVec w) (a b : BitVec w) : BitVec w :=
  let s_a := a.sshiftRight (w - 1)
  let s_b := b.sshiftRight (w - 1)
  let a := (a ^^^ s_a) - s_a
  let b := (b ^^^ s_b) - s_b
  let s_a := s_a ^^^ s_b
  (udiv a b ^^^ s_a) - s_a

/-- The quotient, and the remainder by a product. -/
def divideWithRem (div : BitVec w → BitVec w → BitVec w) (a b : BitVec w) : BitVec w × BitVec w :=
  let d := div a b
  (d,a - d * b)

theorem divide_eq {udiv : BitVec w → BitVec w → BitVec w} {a b : BitVec w} (h : udiv a.abs b.abs = a.abs / b.abs) :
    divide udiv a b = a.sdiv b := by
  change negateBy (a.sshiftRight (w - 1) ^^^ b.sshiftRight (w - 1))
    (udiv (negateBy (a.sshiftRight (w - 1)) a) (negateBy (b.sshiftRight (w - 1)) b)) = _
  rw [negateBy_sign, negateBy_sign, h, negateBy_udiv]

theorem divideWithRem_eq {div : BitVec w → BitVec w → BitVec w} {a b : BitVec w} (h : div a b = a.sdiv b) :
    divideWithRem div a b = (a.sdiv b,a.srem b) := by
  rw [← sub_sdiv_mul, ← h]
  rfl

theorem abs_ne_zero {b : BitVec w} (h : b ≠ 0#w) : b.abs ≠ 0#w := by
  rw [BitVec.abs]
  split_ifs
  · exact BitVec.neg_eq_zero_iff.not.mpr h
  · exact h

/-- The one pair of operands whose quotient is out of range. -/
def Wraps (a b : BitVec w) : Prop := a = BitVec.intMin w ∧ b = -1#w

theorem toInt_sdiv {a b : BitVec w} (h : ¬Wraps a b) : (a.sdiv b).toInt = a.toInt.tdiv b.toInt :=
  BitVec.toInt_sdiv_of_ne_or_ne a b (Classical.not_and_iff_not_or_not.mp h)

end CompilerRt.SignedDivision
