import Mathlib.Data.Nat.Bitwise
import Mathlib.Data.BitVec

/-! # Masks of words

What it means for the value of a word that a mask clears its low bits, clears a field at its top, or sets one bit.
-/
namespace CompilerRt.BitMask
variable {n k m : ℕ} {x : BitVec n}

/-- A mask that clears the low bits rounds down. -/
theorem toNat_and_not_low (x : BitVec n) (k : ℕ) :
    (x &&& ~~~BitVec.ofNat n (2 ^ k - 1)).toNat = x.toNat / 2 ^ k * 2 ^ k := by
  apply Nat.eq_of_testBit_eq
  intro i
  rw [BitVec.testBit_toNat, Nat.testBit_mul_two_pow, Nat.testBit_div_two_pow, BitVec.testBit_toNat]
  simp only [BitVec.getLsbD_and, BitVec.getLsbD_not, BitVec.getLsbD_ofNat, Nat.testBit_two_pow_sub_one]
  by_cases hi : i < k
  · have hki : ¬k ≤ i := by omega
    simp [hi, hki]
  · have hik : i - k + k = i := by omega
    have hki : k ≤ i := by omega
    simp only [hi, hik, hki]
    simpa using BitVec.lt_of_getLsbD

/-- A mask that clears the field at the top leaves what is below. -/
theorem toNat_and_not_high (hx : x.toNat / 2 ^ k = m) :
    (x &&& ~~~BitVec.ofNat n (m * 2 ^ k)).toNat = x.toNat % 2 ^ k := by
  apply Nat.eq_of_testBit_eq
  intro i
  rw [BitVec.testBit_toNat, Nat.testBit_mod_two_pow, BitVec.testBit_toNat]
  simp only [BitVec.getLsbD_and, BitVec.getLsbD_not, BitVec.getLsbD_ofNat, Nat.testBit_mul_two_pow]
  by_cases hi : i < k
  · have hki : ¬k ≤ i := by omega
    simp only [hi, hki]
    simpa using BitVec.lt_of_getLsbD
  · have hm : m.testBit (i - k) = x.getLsbD i := by
      rw [← hx, Nat.testBit_div_two_pow, BitVec.testBit_toNat]
      congr 1
      omega
    have hki : k ≤ i := by omega
    simp only [hi, hki, hm]
    cases x.getLsbD i <;> simp

/-- A mask that clears all bits of a field at the top leaves what is below. -/
theorem toNat_and_not_field {j : ℕ} (hx : x.toNat < 2 ^ (k + j)) :
    (x &&& ~~~BitVec.ofNat n ((2 ^ j - 1) * 2 ^ k)).toNat = x.toNat % 2 ^ k := by
  apply Nat.eq_of_testBit_eq
  intro i
  rw [BitVec.testBit_toNat, Nat.testBit_mod_two_pow, BitVec.testBit_toNat]
  simp only [BitVec.getLsbD_and, BitVec.getLsbD_not, BitVec.getLsbD_ofNat, Nat.testBit_mul_two_pow,
    Nat.testBit_two_pow_sub_one]
  by_cases hi : i < k
  · have hki : ¬k ≤ i := by omega
    simp only [hi, hki]
    simpa using BitVec.lt_of_getLsbD
  · have hki : k ≤ i := by omega
    by_cases hij : i - k < j
    · simp only [hi, hki, hij]
      cases hbit : x.getLsbD i
      · simp
      · simp [BitVec.lt_of_getLsbD hbit]
    · have hbit : x.getLsbD i = false := by
        rw [← BitVec.testBit_toNat]
        exact Nat.testBit_lt_two_pow (hx.trans_le (Nat.pow_le_pow_right (by decide) (by omega)))
      simp [hi, hbit]

/-- The field is put on top of what is below. -/
theorem toNat_or_high (hx : x.toNat < 2 ^ k) (hm : m * 2 ^ k < 2 ^ n) :
    (x ||| BitVec.ofNat n (m * 2 ^ k)).toNat = m * 2 ^ k + x.toNat := by
  rw [BitVec.toNat_or, BitVec.toNat_ofNat, Nat.mod_eq_of_lt hm, Nat.lor_comm, Nat.mul_comm m]
  exact (Nat.two_pow_add_eq_or_of_lt hx m).symm

/-- A shift that loses nothing. -/
theorem toNat_shiftLeft_of_lt (h : x.toNat * 2 ^ k < 2 ^ n) : (x <<< k).toNat = x.toNat * 2 ^ k := by
  rw [BitVec.toNat_shiftLeft, Nat.shiftLeft_eq, Nat.mod_eq_of_lt h]

/-- The low bits of a word, moved to its top. -/
theorem toNat_shiftLeft_top (x : BitVec n) (hk : k ≤ n) : (x <<< (n - k)).toNat = x.toNat % 2 ^ k * 2 ^ (n - k) := by
  have hsplit : 2 ^ n = 2 ^ k * 2 ^ (n - k) := by rw [← pow_add, Nat.add_sub_cancel' hk]
  rw [BitVec.toNat_shiftLeft, Nat.shiftLeft_eq, hsplit, Nat.mul_mod_mul_right]

/-- Fields that do not overlap. -/
theorem toNat_or_disjoint {y : BitVec n} (hx : 2 ^ k ∣ x.toNat) (hy : y.toNat < 2 ^ k) :
    (x ||| y).toNat = x.toNat + y.toNat := by
  obtain ⟨m,hm⟩ := hx
  rw [BitVec.toNat_or, hm]
  exact (Nat.two_pow_add_eq_or_of_lt hy m).symm

/-! ## One bit -/

theorem or_two_pow {x : ℕ} (h : x.testBit k = false) : x ||| 2 ^ k = x + 2 ^ k := by
  -- what is above the bit, and what is below it
  have hlow : x % 2 ^ (k + 1) = x % 2 ^ k := by
    rw [Nat.testBit_eq_decide_div_mod_eq, decide_eq_false_iff_not] at h
    rw [Nat.mod_pow_succ, Nat.mod_two_ne_one.mp h, Nat.mul_zero, Nat.add_zero]
  have hlt : x % 2 ^ k < 2 ^ k := Nat.mod_lt x (Nat.two_pow_pos k)
  have hsplit : 2 ^ (k + 1) * (x / 2 ^ (k + 1)) + x % 2 ^ k = x := by
    rw [← hlow]
    exact Nat.div_add_mod x (2 ^ (k + 1))
  have hbit : 2 ^ k + x % 2 ^ k < 2 ^ (k + 1) := by
    rw [Nat.pow_succ]
    omega
  have hlt' : x % 2 ^ k < 2 ^ (k + 1) := by omega
  calc x ||| 2 ^ k = (2 ^ (k + 1) * (x / 2 ^ (k + 1)) ||| x % 2 ^ k) ||| 2 ^ k := by
        rw [← Nat.two_pow_add_eq_or_of_lt hlt', hsplit]
    _ = 2 ^ (k + 1) * (x / 2 ^ (k + 1)) ||| (2 ^ k * 1 ||| x % 2 ^ k) := by
        rw [Nat.lor_assoc, Nat.lor_comm (x % 2 ^ k), Nat.mul_one]
    _ = 2 ^ (k + 1) * (x / 2 ^ (k + 1)) + (2 ^ k * 1 + x % 2 ^ k) := by
        rw [← Nat.two_pow_add_eq_or_of_lt hlt, Nat.mul_one, ← Nat.two_pow_add_eq_or_of_lt hbit]
    _ = x + 2 ^ k := by omega

/-- To set a bit that was clear adds its value. -/
theorem toNat_or_twoPow_of_clear (h : x.getLsbD k = false) (hk : k < n) :
    (x ||| BitVec.twoPow n k).toNat = x.toNat + 2 ^ k := by
  rw [BitVec.toNat_or, BitVec.toNat_twoPow_of_lt hk]
  exact or_two_pow ((BitVec.testBit_toNat x).trans h)

/-- A mask of one bit. -/
theorem toNat_and_twoPow (x : BitVec n) (hk : k < n) : (x &&& BitVec.twoPow n k).toNat = x.toNat / 2 ^ k % 2 * 2 ^ k := by
  have hbit : x.getLsbD k = decide (x.toNat / 2 ^ k % 2 = 1) := by
    rw [← BitVec.testBit_toNat, Nat.testBit_eq_decide_div_mod_eq]
  rw [BitVec.and_twoPow, hbit]
  rcases Nat.mod_two_eq_zero_or_one (x.toNat / 2 ^ k) with h | h
  · simp [h]
  · simp [h, BitVec.toNat_twoPow_of_lt hk]

/-- A mask of the low bits. -/
theorem toNat_and_low (x : BitVec n) (hk : k ≤ n) : (x &&& BitVec.ofNat n (2 ^ k - 1)).toNat = x.toNat % 2 ^ k := by
  have hle : 2 ^ k ≤ 2 ^ n := Nat.pow_le_pow_right (by decide) hk
  have hpos := Nat.two_pow_pos k
  rw [BitVec.toNat_and, BitVec.toNat_ofNat, Nat.mod_eq_of_lt (by omega)]
  exact Nat.and_two_pow_sub_one_eq_mod x.toNat k

theorem or_twoPow_of_set (h : x.getLsbD k = true) : x ||| BitVec.twoPow n k = x := by
  ext i hi
  rcases eq_or_ne i k with rfl | hik
  · rw [BitVec.getLsbD_eq_getElem hi] at h
    simp [BitVec.getElem_twoPow, h]
  · simp [BitVec.getElem_twoPow, hik]

theorem and_not_twoPow_of_clear (h : x.getLsbD k = false) : x &&& ~~~BitVec.twoPow n k = x := by
  ext i hi
  rcases eq_or_ne i k with rfl | hik
  · rw [BitVec.getLsbD_eq_getElem hi] at h
    simp [BitVec.getElem_twoPow, h]
  · simp [BitVec.getElem_twoPow, hik]

/-- A bit that is set and then cleared. -/
theorem or_and_not_twoPow (x : BitVec n) (k : ℕ) :
    (x ||| BitVec.twoPow n k) &&& ~~~BitVec.twoPow n k = x &&& ~~~BitVec.twoPow n k := by
  ext i hi
  rcases eq_or_ne i k with rfl | hik
  · simp [BitVec.getElem_twoPow]
  · simp [BitVec.getElem_twoPow, hik]

/-- To flip a bit that is set clears it. -/
theorem xor_twoPow_of_set (h : x.getLsbD k = true) : x ^^^ BitVec.twoPow n k = x &&& ~~~BitVec.twoPow n k := by
  ext i hi
  rcases eq_or_ne i k with rfl | hik
  · rw [BitVec.getLsbD_eq_getElem hi] at h
    simp [BitVec.getElem_twoPow, h]
  · simp [BitVec.getElem_twoPow, hik]

/-- To clear a bit that was set takes its value. -/
theorem toNat_and_not_twoPow_of_set (h : x.getLsbD k = true) :
    (x &&& ~~~BitVec.twoPow n k).toNat + 2 ^ k = x.toNat := by
  have hk : k < n := BitVec.lt_of_getLsbD h
  have hclear : (x &&& ~~~BitVec.twoPow n k).getLsbD k = false := by
    simp only [BitVec.getLsbD_and, BitVec.getLsbD_not, BitVec.getLsbD_twoPow, hk]
    simp
  have hor : (x &&& ~~~BitVec.twoPow n k) ||| BitVec.twoPow n k = x := by
    ext i hi
    rcases eq_or_ne i k with rfl | hik
    · rw [BitVec.getLsbD_eq_getElem hi] at h
      simp [BitVec.getElem_twoPow, h]
    · simp [BitVec.getElem_twoPow, hik]
  rw [← toNat_or_twoPow_of_clear hclear hk, hor]

end CompilerRt.BitMask
