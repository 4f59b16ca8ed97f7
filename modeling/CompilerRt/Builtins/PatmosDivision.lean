import CompilerRt.Builtins.PatmosUdivsi3
import CompilerRt.Builtins.SignedDivision

/-! # Division on Patmos

What is built on the scanning divider: `lib/patmos/udivmodsi4.c` (its C path), and `__umodsi3`, `__divsi3`, `__modsi3`
and `__divmodsi4` of `lib`, which call `__udivsi3`.
-/
namespace CompilerRt.PatmosUdivsi3
open RestoringDivision SignedDivision

/-- The loop is that of `__udivsi3`; the remainder is kept. -/
def udivmodsi4 (n d : SuInt) : SuInt × SuInt :=
  let s := udivsi3Loop n d 32 { r := 0, q := 0 }
  (s.q,s.r)

def umodsi3 (a b : SuInt) : SuInt := a - udivsi3 a b * b

def divsi3 : BitVec 32 → BitVec 32 → BitVec 32 := divide udivsi3

def modsi3 (a b : BitVec 32) : BitVec 32 := a - divsi3 a b * b

def divmodsi4 : BitVec 32 → BitVec 32 → BitVec 32 × BitVec 32 := divideWithRem divsi3

/-- The registers after the first `k` iterations. -/
def registersAfter (n d : SuInt) : ℕ → Registers
  | 0 => { r := 0, q := 0 }
  | k+1 => udivsi3Step n d (31 - k) (registersAfter n d k)

section Unsigned
variable {n d : SuInt}

theorem udivsi3Loop_registersAfter {k i : ℕ} (h : k + i = 32) :
    udivsi3Loop n d i (registersAfter n d k) = registersAfter n d 32 := by
  induction i generalizing k with
  | zero =>
    obtain rfl : k = 32 := h
    rfl
  | succ i ih =>
    have hbit : 31 - k = i := by omega
    have hnext := ih (k := k + 1) (by omega)
    rw [registersAfter, hbit] at hnext
    exact hnext

theorem scanned_registersAfter (hd : 0 < d.toNat) {k : ℕ} (hk : k ≤ 32) : Scanned n d (32 - k) (registersAfter n d k) := by
  induction k with
  | zero =>
    have h0 : n.toNat / 2^32 = 0 := Nat.div_eq_of_lt n.isLt
    simp only [Scanned, Nat.sub_zero, h0, Nat.zero_mod, Nat.zero_div, Nat.zero_mul]
    exact ⟨rfl,rfl⟩
  | succ k ih =>
    have hnext : 32 - (k + 1) = 31 - k := by omega
    have hbit : 32 - k = 31 - k + 1 := by omega
    have hs := ih (by omega)
    rw [hbit] at hs
    rw [hnext]
    exact udivsi3Step_scanned hd (by omega) hs

/-- The remainder is that of a proper prefix of the dividend, so that its top bit is clear when it is shifted. -/
theorem registersAfter_shift (hd : 0 < d.toNat) {k : ℕ} (hk : k < 32) :
    ((registersAfter n d k).r <<< 1).toNat = 2 * (registersAfter n d k).r.toNat := by
  obtain ⟨hr,-⟩ := scanned_registersAfter (n := n) hd hk.le
  have hlt := n.isLt
  have hprefix : n.toNat / 2^(32 - k) ≤ n.toNat / 2^1 :=
    Nat.div_le_div_left (Nat.pow_le_pow_right (by decide) (by omega)) (by decide)
  have hle : (registersAfter n d k).r.toNat ≤ n.toNat / 2^(32 - k) := hr ▸ Nat.mod_le _ _
  rw [BitVec.toNat_shiftLeft, Nat.shiftLeft_eq]
  omega

theorem udivmodsi4_toNat (hd : 0 < d.toNat) :
    (udivmodsi4 n d).1.toNat = n.toNat / d.toNat ∧ (udivmodsi4 n d).2.toNat = n.toNat % d.toNat := by
  obtain ⟨hr,hq⟩ := scanned_registersAfter (n := n) hd le_rfl
  have hrun : udivsi3Loop n d 32 { r := 0, q := 0 } = registersAfter n d 32 := udivsi3Loop_registersAfter (k := 0) rfl
  rw [udivmodsi4, hrun]
  simp only [Nat.sub_self, pow_zero, Nat.div_one, Nat.mul_one] at hr hq
  exact ⟨hq,hr⟩

theorem udivsi3_eq_udiv (hd : 0 < d.toNat) : udivsi3 n d = n / d := by
  apply BitVec.eq_of_toNat_eq
  rw [udivsi3_toNat hd, BitVec.toNat_udiv]

theorem umodsi3_toNat (hd : 0 < d.toNat) : (umodsi3 n d).toNat = n.toNat % d.toNat := by
  have hle : n.toNat / d.toNat * d.toNat ≤ n.toNat := Nat.div_mul_le_self _ _
  have hprod : (udivsi3 n d * d).toNat = n.toNat / d.toNat * d.toNat := by
    rw [BitVec.toNat_mul, udivsi3_toNat hd, Nat.mod_eq_of_lt (hle.trans_lt n.isLt)]
  rw [umodsi3, BitVec.toNat_sub_of_le (by rw [BitVec.le_def, hprod]; exact hle), hprod, Nat.mod_eq_sub_div_mul]

end Unsigned

section Signed
variable {a b : BitVec 32}

theorem divsi3_eq_sdiv (hb : b ≠ 0) : divsi3 a b = a.sdiv b := by
  have habs := abs_ne_zero hb
  refine divide_eq (udivsi3_eq_udiv ?_)
  exact Nat.pos_of_ne_zero fun h => habs (BitVec.eq_of_toNat_eq h)

theorem modsi3_eq_srem (hb : b ≠ 0) : modsi3 a b = a.srem b := by
  rw [modsi3, divsi3_eq_sdiv hb, SignMask.sub_sdiv_mul]

end Signed

/-- Quotients and remainders of the whole family, and no iteration that shifts a one out of the remainder. -/
theorem division_right :
    (∀ n d : SuInt, d ≠ 0 → (udivsi3 n d).toNat = n.toNat / d.toNat ∧
      (udivmodsi4 n d).1.toNat = n.toNat / d.toNat ∧ (udivmodsi4 n d).2.toNat = n.toNat % d.toNat ∧
      (umodsi3 n d).toNat = n.toNat % d.toNat ∧
      udivsi3Loop n d 32 { r := 0, q := 0 } = registersAfter n d 32 ∧
      ∀ k < 32, ((registersAfter n d k).r <<< 1).toNat = 2 * (registersAfter n d k).r.toNat) ∧
    ∀ a b : BitVec 32, b ≠ 0 → ¬Wraps a b → (divsi3 a b).toInt = a.toInt.tdiv b.toInt ∧
      (modsi3 a b).toInt = a.toInt.tmod b.toInt ∧ (divmodsi4 a b).1.toInt = a.toInt.tdiv b.toInt ∧
      (divmodsi4 a b).2.toInt = a.toInt.tmod b.toInt := by
  constructor
  · intro n d hd
    have hd0 : 0 < d.toNat := Nat.pos_of_ne_zero fun h => hd (BitVec.eq_of_toNat_eq h)
    obtain ⟨hq,hr⟩ := udivmodsi4_toNat (n := n) hd0
    exact ⟨udivsi3_toNat hd0,hq,hr,umodsi3_toNat hd0,udivsi3Loop_registersAfter (k := 0) rfl,
      fun k hk => registersAfter_shift hd0 hk⟩
  · intro a b hb hwraps
    have hdiv := divsi3_eq_sdiv (a := a) hb
    have hboth : divmodsi4 a b = (a.sdiv b,a.srem b) := divideWithRem_eq hdiv
    rw [hdiv, modsi3_eq_srem hb, hboth]
    exact ⟨toInt_sdiv hwraps,BitVec.toInt_srem a b,toInt_sdiv hwraps,BitVec.toInt_srem a b⟩

/-- A divisor above `2^31`, and the smallest integer by one. -/
theorem division_right_large : (udivsi3 0xffffffff 0x80000001).toNat = 1 ∧
    (divsi3 0x80000000 1).toInt = (0x80000000 : BitVec 32).toInt.tdiv 1 :=
  ⟨(division_right.1 0xffffffff 0x80000001 (by decide)).1,
    (division_right.2 0x80000000 1 (by decide) (by unfold Wraps; decide)).1⟩

end CompilerRt.PatmosUdivsi3
