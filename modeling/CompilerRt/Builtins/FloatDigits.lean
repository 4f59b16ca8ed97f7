import CompilerRt.Builtins.FpSticky
import CompilerRt.Lib.BinaryInteger

/-! # Significant digits

The conversions from 64-bit integers that have no `fp_lib.h` are written out for each precision, in the same way. What
they do with the digits depends on the number of them that the precision has.
-/
namespace CompilerRt.FloatDigits
open CShift FpLib

def N : ℕ := 64

section Digits
variable (t : ShiftTarget) (sra : BitVec 64 → ℕ → BitVec 64) (MANT_DIG : ℕ)

/-- The digits after the first `MANT_DIG` become two: the next one, and whether there is a one in the rest. -/
def twoMoreDigits (a : BitVec 64) (sd : ℤ) : Option (BitVec 64) :=
  if sd = MANT_DIG + 1 then shl t a (1 : ℕ)
  else if sd = MANT_DIG + 2 then some a
  else do
    let rest ← shr t (BitVec.allOnes 64) (N + MANT_DIG + 2 - sd)
    return (← shr t a (sd - (MANT_DIG + 2))) ||| ofBool 64 (a &&& rest != 0)

/-- The first `MANT_DIG` digits and the exponent; `sra` is `>>` at the type of `a`. -/
def significand (a : BitVec 64) (sd : ℤ) : Option (BitVec 64 × ℤ) := do
  let e := sd - 1
  if MANT_DIG < sd then
    let a ← twoMoreDigits t MANT_DIG a sd
    let a := a ||| ofBool 64 (a &&& 4 != 0)
    let a := a + 1
    let a := sra a 2
    if a &&& (← shl t (1 : BitVec 64) MANT_DIG) != 0 then return (sra a 1, e + 1) else return (a, e)
  else return (← shl t a (MANT_DIG - sd), e)

end Digits

/-! ## They are rounded -/

section Rounded
variable (t : ShiftTarget) {a : BitVec 64} {p k n : ℕ}

theorem sticky_digits (q : ℕ) {r b : ℕ} (hr : r < b) (m : ℕ) (hm : m = if r ≠ 0 then q / 2 * 2 + 1 else q) :
    m / 4 = q / 4 ∧ (m % 4 = 3 ↔ b * 4 < 2 * (r + b * (q % 4))) ∧ (m % 4 = 2 ↔ 2 * (r + b * (q % 4)) = b * 4) := by
  have hcases : q % 4 = 0 ∨ q % 4 = 1 ∨ q % 4 = 2 ∨ q % 4 = 3 := by omega
  rw [hm]
  rcases hcases with h | h | h | h <;> rw [h] <;> split_ifs <;> omega

/-- The second of the two digits is set where there is a one in the rest. -/
theorem twoMoreDigits_eq (hp : p ≤ 59) (hk : 1 ≤ k) (hk' : p + k ≤ 64) (ha : a.toNat < 2 ^ (p + k)) :
    ∃ m, twoMoreDigits t p a (p + k : ℕ) = some m ∧ m.toNat / 4 = a.toNat / 2 ^ k ∧
      (m.toNat % 4 = 3 ↔ 2 ^ k < 2 * (a.toNat % 2 ^ k)) ∧ (m.toNat % 4 = 2 ↔ 2 * (a.toNat % 2 ^ k) = 2 ^ k) := by
  unfold twoMoreDigits
  by_cases h1 : k = 1
  · subst h1
    have hle : 2 ^ (p + 1) ≤ 2 ^ 60 := Nat.pow_le_pow_right (by decide) (by omega)
    have hshift : (a <<< 1).toNat = a.toNat * 2 := BitMask.toNat_shiftLeft_of_lt (by omega)
    rw [if_pos (by omega), shl_natCast t a (by decide)]
    refine ⟨_,rfl,?_⟩
    omega
  by_cases h2 : k = 2
  · subst h2
    rw [if_neg (by omega), if_pos (by omega)]
    exact ⟨a,rfl,by omega⟩
  obtain ⟨j,rfl⟩ : ∃ j, k = j + 2 := ⟨k - 2,by omega⟩
  have hwidth : (N : ℤ) = 64 := rfl
  have hamount : ((p + (j + 2) : ℕ) : ℤ) - (p + 2) = (j : ℕ) := by omega
  have hamount' : (N : ℤ) + p + 2 - (p + (j + 2) : ℕ) = (64 - j : ℕ) := by omega
  have hmask : BitVec.allOnes 64 >>> (64 - j) = BitVec.ofNat 64 (2 ^ j - 1) := by
    apply BitVec.eq_of_toNat_eq
    have hle : 2 ^ j ≤ 2 ^ 62 := Nat.pow_le_pow_right (by decide) (by omega)
    have hsplit : 2 ^ (64 - j) * 2 ^ j = 2 ^ 64 := by rw [← pow_add, Nat.sub_add_cancel (by omega)]
    rw [BitVec.toNat_ushiftRight, BitVec.toNat_allOnes, BitVec.toNat_ofNat, Nat.shiftRight_eq_div_pow,
      Nat.mod_eq_of_lt (by omega), ← hsplit]
    exact (Nat.mul_sub_div 0 _ _ (Nat.mul_pos (Nat.two_pow_pos _) (Nat.two_pow_pos _))).trans (by rw [Nat.zero_div])
  have hsticky : (a &&& BitVec.ofNat 64 (2 ^ j - 1) != 0) = decide (a.toNat % 2 ^ j ≠ 0) := by
    rw [← BitMask.toNat_and_low a (k := j) (by omega), Bool.eq_iff_iff, bne_iff_ne, decide_eq_true_eq]
    exact not_congr BitVec.toNat_inj.symm
  have hshift : (a >>> j).toNat = a.toNat / 2 ^ j := by rw [BitVec.toNat_ushiftRight, Nat.shiftRight_eq_div_pow]
  have hrest := shr_natCast t (BitVec.allOnes 64) (n := 64 - j) (by omega)
  have htop := shr_natCast t a (n := j) (by omega)
  rw [if_neg (by omega), if_neg (by omega), hamount, hamount', hrest, htop]
  simp only [Option.pure_def, Option.bind_eq_bind, Option.bind_some]
  refine ⟨_,rfl,?_⟩
  rw [hmask, hsticky, toNat_or_ofBool (by decide), hshift]
  -- the first digits, the two that follow, and the rest
  have hpow : 2 ^ (j + 2) = 2 ^ j * 4 := pow_add 2 j 2
  have hlow : a.toNat % 2 ^ (j + 2) = a.toNat % 2 ^ j + 2 ^ j * (a.toNat / 2 ^ j % 4) := by rw [hpow, Nat.mod_mul]
  have hhigh : a.toNat / 2 ^ (j + 2) = a.toNat / 2 ^ j / 4 := by rw [hpow, Nat.div_div_eq_div_mul]
  rw [hlow, hhigh, hpow]
  exact sticky_digits (a.toNat / 2 ^ j) (Nat.mod_lt a.toNat (Nat.two_pow_pos j)) _ (by simp)

theorem bne_zero_twoPow (x : BitVec 64) (hk : k < 64) :
    (x &&& BitVec.twoPow 64 k != 0) = decide (x.toNat / 2 ^ k % 2 = 1) := by
  have hbit := BitMask.toNat_and_twoPow x hk
  rw [Bool.eq_iff_iff, bne_iff_ne, decide_eq_true_eq, Ne, ← BitVec.toNat_inj, hbit]
  rcases Nat.mod_two_eq_zero_or_one (x.toNat / 2 ^ k) with h | h
  · simp [h]
  · simp [h]

/-- Halfway the digit before decides: it is put in place of the last one. -/
theorem round_digits {m : BitVec 64} (hm : m.toNat / 4 = a.toNat / 2 ^ k) (hlt : m.toNat < 2 ^ 62)
    (hup : m.toNat % 4 = 3 ↔ 2 ^ k < 2 * (a.toNat % 2 ^ k)) (htie : m.toNat % 4 = 2 ↔ 2 * (a.toNat % 2 ^ k) = 2 ^ k) :
    ((m ||| ofBool 64 (m &&& 4 != 0)) + 1).toNat / 4 = roundDiv a.toNat (2 ^ k) := by
  have hfour : (4 : BitVec 64) = BitVec.twoPow 64 2 := by decide
  have hbit := bne_zero_twoPow m (k := 2) (by decide)
  have hcond : 2 ^ k < 2 * (a.toNat % 2 ^ k) ∨ 2 * (a.toNat % 2 ^ k) = 2 ^ k ∧ ¬Even (a.toNat / 2 ^ k) ↔
      m.toNat % 4 = 3 ∨ m.toNat % 4 = 2 ∧ m.toNat / 4 % 2 = 1 := by
    rw [hup, htie, ← hm, Nat.even_iff, Nat.mod_two_not_eq_zero]
  rw [roundDiv, if_congr hcond rfl rfl, ← hm, hfour, hbit, BitVec.toNat_add, toNat_or_ofBool (by decide)]
  simp only [decide_eq_true_eq]
  change ((if m.toNat / 4 % 2 = 1 then _ else _) + 1) % 2 ^ 64 / 4 = _
  split_ifs <;> omega

/-- A carry out of the digits goes into the exponent, whatever its bias. -/
theorem significand_large {sra : BitVec 64 → ℕ → BitVec 64} (hsra : ∀ x n, x.toNat < 2 ^ 63 → sra x n = x >>> n)
    (hp : p ≤ 58) (hk : 1 ≤ k) (hk' : p + 1 + k ≤ 64) (hlo : 2 ^ (p + k) ≤ a.toNat) (hhi : a.toNat < 2 ^ (p + 1 + k))
    (bias : ℕ) : ∃ (e : ℕ) (x : BitVec 64), significand t sra (p + 1) a (p + 1 + k : ℕ) = some (x, (e : ℤ)) ∧
      2 ^ p ≤ x.toNat ∧ x.toNat < 2 ^ (p + 1) ∧ e ≤ 64 ∧
      (e + bias) * 2 ^ p + x.toNat = (p + k + bias) * 2 ^ p + roundDiv a.toNat (2 ^ k) := by
  obtain ⟨m,hdigits,hm,hup,htie⟩ := twoMoreDigits_eq t (p := p + 1) (by omega) hk hk' hhi
  have htop : 2 ^ (p + 1) = 2 * 2 ^ p := pow_succ' 2 p
  have hle : 2 ^ p ≤ 2 ^ 58 := Nat.pow_le_pow_right (by decide) hp
  have hplo : 2 ^ p ≤ a.toNat / 2 ^ k := by
    rw [Nat.le_div_iff_mul_le (Nat.two_pow_pos _), ← pow_add]
    exact hlo
  have hphi : a.toNat / 2 ^ k < 2 ^ (p + 1) := by
    rw [Nat.div_lt_iff_lt_mul (Nat.two_pow_pos _), ← pow_add]
    exact hhi
  have hround := round_digits hm (by omega) hup htie
  have hbounds := roundDiv_bounds a.toNat (2 ^ k)
  obtain ⟨y,hy⟩ : ∃ y, y = sra ((m ||| ofBool 64 (m &&& 4 != 0)) + 1) 2 := ⟨_,rfl⟩
  have hval : y.toNat = roundDiv a.toNat (2 ^ k) := by
    rw [hy, hsra _ _ (by omega), BitVec.toNat_ushiftRight, Nat.shiftRight_eq_div_pow]
    exact hround
  have hcarry := bne_zero_twoPow y (k := p + 1) (by omega)
  have hone := shl_natCast t (1 : BitVec 64) (n := p + 1) (by omega)
  have htwo : (1 : BitVec 64) <<< (p + 1) = BitVec.twoPow 64 (p + 1) := rfl
  have hmant : ((p + 1 : ℕ) : ℤ) < (p + 1 + k : ℕ) := by omega
  simp only [significand, hdigits, hmant, hone, htwo, ↓reduceIte, Option.pure_def, Option.bind_eq_bind, Option.bind_some,
    ← hy, hcarry, decide_eq_true_eq]
  by_cases hfull : y.toNat = 2 ^ (p + 1)
  · have hhalf : (sra y 1).toNat = 2 ^ p := by
      rw [hsra _ _ (by omega), BitVec.toNat_ushiftRight, Nat.shiftRight_eq_div_pow, hfull, pow_one, htop,
        Nat.mul_div_cancel_left _ (by decide)]
    have hexp : ((p + 1 + k : ℕ) : ℤ) - 1 + 1 = (p + 1 + k : ℕ) := by omega
    have hdigit : y.toNat / 2 ^ (p + 1) % 2 = 1 := by rw [hfull, Nat.div_self (Nat.two_pow_pos _)]
    rw [if_pos hdigit, hexp]
    refine ⟨p + 1 + k,_,rfl,hhalf.ge,by omega,hk',?_⟩
    rw [hhalf, ← hval, hfull, htop]
    ring
  · have hexp : ((p + 1 + k : ℕ) : ℤ) - 1 = (p + k : ℕ) := by omega
    have hdigit : y.toNat / 2 ^ (p + 1) = 0 := Nat.div_eq_of_lt (by omega)
    rw [if_neg (by omega), hexp]
    refine ⟨p + k,_,rfl,by omega,by omega,by omega,?_⟩
    rw [hval]

/-- With the exponent in its place, the digits are the nearest number of the format. -/
theorem significand_eq (F : BinaryFormat) (hp : F.fracBits ≤ 58) {sra : BitVec 64 → ℕ → BitVec 64}
    (hsra : ∀ x n, x.toNat < 2 ^ 63 → sra x n = x >>> n) (ha : a.toNat ≠ 0) :
    ∃ (e : ℕ) (x : BitVec 64), significand t sra (F.fracBits + 1) a (N - builtin_clz a) = some (x, (e : ℤ)) ∧
      2 ^ F.fracBits ≤ x.toNat ∧ x.toNat < 2 ^ (F.fracBits + 1) ∧ e ≤ 64 ∧
      (e + (2 ^ (F.expBits - 1) - 2)) * 2 ^ F.fracBits + x.toNat = F.ofNat a.toNat := by
  have hlt := a.isLt
  have hlog : Nat.log 2 a.toNat < 64 := Nat.log_lt_of_lt_pow ha hlt
  have hlo : 2 ^ Nat.log 2 a.toNat ≤ a.toNat := Nat.pow_log_le_self 2 ha
  have hhi : a.toNat < 2 ^ (Nat.log 2 a.toNat + 1) := Nat.lt_pow_succ_log_self (by decide) a.toNat
  have hsd : (N : ℤ) - builtin_clz a = (Nat.log 2 a.toNat + 1 : ℕ) := by
    unfold builtin_clz N
    omega
  unfold BinaryFormat.ofNat
  rw [hsd]
  generalize Nat.log 2 a.toNat = l at hlog hlo hhi
  generalize F.fracBits = p at hp
  rcases Nat.lt_or_ge p l with hlarge | hsmall
  · -- digits are dropped
    obtain ⟨k,rfl⟩ : ∃ k, l = p + k := ⟨l - p,by omega⟩
    have hk : p + k + 1 = p + 1 + k := by omega
    rw [hk] at hhi ⊢
    rw [if_neg (by omega), Nat.add_sub_cancel_left]
    exact significand_large t hsra hp (by omega) (by omega) hlo hhi _
  · -- all digits have a place
    obtain ⟨hle,hfit⟩ := BinaryFormat.normalized_bounds hsmall hlo hhi
    have hwide : 2 ^ (p + 1) ≤ 2 ^ 64 := Nat.pow_le_pow_right (by decide) (by omega)
    have hshift : (a <<< (p - l)).toNat = a.toNat * 2 ^ (p - l) :=
      BitMask.toNat_shiftLeft_of_lt (hfit.trans_le hwide)
    have hmant : ¬((p + 1 : ℕ) : ℤ) < (l + 1 : ℕ) := by omega
    have hamount : ((p + 1 : ℕ) : ℤ) - (l + 1 : ℕ) = (p - l : ℕ) := by omega
    have hexp : ((l + 1 : ℕ) : ℤ) - 1 = l := by omega
    have hshl := shl_natCast t a (n := p - l) (by omega)
    simp only [significand, hmant, hamount, hshl, hexp, hsmall, ↓reduceIte, Option.pure_def, Option.bind_eq_bind,
      Option.bind_some]
    exact ⟨l,_,rfl,hshift ▸ hle,hshift ▸ hfit,by omega,by rw [hshift]⟩

end Rounded

end CompilerRt.FloatDigits
