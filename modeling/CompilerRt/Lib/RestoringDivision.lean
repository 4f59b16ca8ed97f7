import Mathlib.Tactic.Linarith
import Mathlib.Tactic.Ring
import Mathlib.Data.Nat.Bitwise

/-! # Restoring division and the words it runs on

The dividend is scanned from its top bit down. After the prefix `p` has been scanned the
partial remainder is `p % d` and the quotient digits found so far spell `p / d`; one trial
subtraction extends both by the next bit. The machine loops keep the two in fixed-width words,
so the second half says what `shift in a bit` and `set a bit` do to the value of a word.
-/
namespace CompilerRt.RestoringDivision

/-- The digit found when the bit `b` is shifted into the remainder `r`. -/
def digit (d r b : ℕ) : ℕ := if d ≤ 2*r+b then 1 else 0

/-- The remainder after the trial subtraction. -/
def restore (d r b : ℕ) : ℕ := if d ≤ 2*r+b then 2*r+b-d else 2*r+b

theorem digit_lt_two (d r b : ℕ) : digit d r b < 2 := by
  unfold digit
  split <;> omega

theorem restore_lt {d r b : ℕ} (hr : r < d) (hb : b < 2) : restore d r b < d := by
  unfold restore
  split <;> omega

theorem restore_equation (d r b : ℕ) : digit d r b * d + restore d r b = 2*r+b := by
  unfold digit restore
  split <;> omega

/-- The invariant step: the digit and the restored remainder are those of the longer prefix. -/
theorem prefix_step {d : ℕ} (hd : 0 < d) (p : ℕ) {b : ℕ} (hb : b < 2) :
    (2*p+b) / d = 2*(p/d) + digit d (p%d) b ∧ (2*p+b) % d = restore d (p%d) b := by
  have hr := restore_lt (Nat.mod_lt p hd) hb
  have he := restore_equation d (p%d) b
  have hp := Nat.div_add_mod p d
  have h : 2*p+b = restore d (p%d) b + (2*(p/d) + digit d (p%d) b) * d := by
    have hm : (2*(p/d) + digit d (p%d) b) * d = 2*(d*(p/d)) + digit d (p%d) b * d := by ring
    omega
  constructor
  · rw [h, Nat.add_mul_div_right _ _ hd, Nat.div_eq_of_lt hr, Nat.zero_add]
  · rw [h, Nat.add_mul_mod_self_right, Nat.mod_eq_of_lt hr]

/-- The prefix of `n` above position `i` is the prefix above `i+1` followed by bit `i`. -/
theorem shiftRight_succ_bit (n i : ℕ) : n / 2^i = 2*(n / 2^(i+1)) + n / 2^i % 2 := by
  have h : n / 2^(i+1) = n / 2^i / 2 := by rw [pow_succ, Nat.div_div_eq_div_mul]
  omega

section Words
variable {w : ℕ}

/-- Shifting a bit into a word drops its top bit. -/
theorem toNat_shiftIn (hw : 0 < w) (r : BitVec w) {b : BitVec w} (hb : b.toNat < 2) :
    (r <<< 1 ||| b).toNat = 2*r.toNat % 2^w + b.toNat := by
  obtain ⟨v,rfl⟩ : ∃ v, w = v+1 := ⟨w-1, by omega⟩
  have hs : (r <<< 1).toNat = (r.toNat % 2^v) <<< 1 := by
    rw [BitVec.toNat_shiftLeft, Nat.shiftLeft_eq, Nat.shiftLeft_eq, pow_one, pow_succ,
      Nat.mul_mod_mul_right]
  rw [BitVec.toNat_or, hs, ← Nat.shiftLeft_add_eq_or_of_lt (by omega), Nat.shiftLeft_eq, pow_one,
    Nat.mul_comm 2, pow_succ, Nat.mul_mod_mul_right]

theorem toNat_shiftIn_of_lt (hw : 0 < w) {r b : BitVec w} (hr : 2*r.toNat < 2^w) (hb : b.toNat < 2) :
    (r <<< 1 ||| b).toNat = 2*r.toNat + b.toNat := by
  rw [toNat_shiftIn hw r hb, Nat.mod_eq_of_lt hr]

theorem toNat_one (hw : 0 < w) : (1 : BitVec w).toNat = 1 := by
  change 1 % 2^w = 1
  exact Nat.mod_eq_of_lt (Nat.one_lt_two_pow (by omega))

/-- Setting bit `i` of a word that has only bits above `i`. -/
theorem toNat_setBit {q : BitVec w} {i m : ℕ} (hi : i < w) (hq : q.toNat = m * 2^(i+1)) :
    (q ||| (1 : BitVec w) <<< i).toNat = (2*m+1) * 2^i := by
  have hs : ((1 : BitVec w) <<< i).toNat = 2^i := by
    rw [BitVec.toNat_shiftLeft, toNat_one (by omega), Nat.shiftLeft_eq, Nat.one_mul,
      Nat.mod_eq_of_lt (Nat.pow_lt_pow_right (by omega) hi)]
  have hlt : 2^i < 2^(i+1) := Nat.pow_lt_pow_right (by omega) (by omega)
  rw [BitVec.toNat_or, hs, hq, ← Nat.shiftLeft_eq, ← Nat.shiftLeft_add_eq_or_of_lt hlt,
    Nat.shiftLeft_eq, pow_succ]
  ring

/-- Bit `i` of a word as the scanning loops read it. -/
theorem toNat_bit (hw : 0 < w) (n : BitVec w) (i : ℕ) :
    ((n >>> i) &&& 1).toNat = n.toNat / 2^i % 2 := by
  rw [BitVec.toNat_and, toNat_one hw, BitVec.toNat_ushiftRight, Nat.and_one_is_mod,
    Nat.shiftRight_eq_div_pow]

end Words

end CompilerRt.RestoringDivision
