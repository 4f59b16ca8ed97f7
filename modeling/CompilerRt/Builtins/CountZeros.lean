import Mathlib

/-! # Leading and trailing zeros

`lib/clzsi2.c` and `lib/ctzsi2.c` halve the word that is searched at each step; so does the C path of
`lib/patmos/clzsi2.c`. The one of `lib/patmos/ctzsi2.c` isolates the lowest one bit and tests it against five masks.
-/
namespace CompilerRt.CountZeros

abbrev SuInt := BitVec 32

/-- The value of a comparison. -/
def flag (b : Bool) : SuInt := if b then 1 else 0

def clzsi2 (a : SuInt) : SuInt :=
  let x := a
  let t := flag (x &&& 0xFFFF0000 == 0) <<< 4
  let x := x >>> (16 - t)
  let r := t
  let t := flag (x &&& 0xFF00 == 0) <<< 3
  let x := x >>> (8 - t)
  let r := r + t
  let t := flag (x &&& 0xF0 == 0) <<< 2
  let x := x >>> (4 - t)
  let r := r + t
  let t := flag (x &&& 0xC == 0) <<< 1
  let x := x >>> (2 - t)
  let r := r + t
  r + ((2 - x) &&& -flag (x &&& 2 == 0))

def ctzsi2 (a : SuInt) : SuInt :=
  let x := a
  let t := flag (x &&& 0x0000FFFF == 0) <<< 4
  let x := x >>> t
  let r := t
  let t := flag (x &&& 0x00FF == 0) <<< 3
  let x := x >>> t
  let r := r + t
  let t := flag (x &&& 0x0F == 0) <<< 2
  let x := x >>> t
  let r := r + t
  let t := flag (x &&& 0x3 == 0) <<< 1
  let x := x >>> t
  let x := x &&& 3
  let r := r + t
  r + ((2 - x >>> 1) &&& -flag (x &&& 1 == 0))

namespace Patmos

def clzsi2 (a : SuInt) : SuInt :=
  let x := a
  let t := flag (x &&& 0xFFFF0000 == 0) <<< 4
  let x := x >>> (16 - t)
  let r := t
  let t := flag (x &&& 0xFF00 == 0) <<< 3
  let x := x >>> (8 - t)
  let r := r + t
  let t := flag (x &&& 0xF0 == 0) <<< 2
  let x := x >>> (4 - t)
  let r := r + t
  let t := flag (x &&& 0xC == 0) <<< 1
  let x := x >>> (2 - t)
  let r := r + t
  r + ((2 - x) &&& -flag (x &&& 2 == 0))

/-- The tests of the isolated bit. -/
def testBits (a t : SuInt) : SuInt :=
  let t := if a &&& 0x0000FFFF ≠ 0 then t - 16 else t
  let t := if a &&& 0x00FF00FF ≠ 0 then t - 8 else t
  let t := if a &&& 0x0F0F0F0F ≠ 0 then t - 4 else t
  let t := if a &&& 0x33333333 ≠ 0 then t - 2 else t
  if a &&& 0x55555555 ≠ 0 then t - 1 else t

def ctzsi2 (a : SuInt) : SuInt :=
  let t : SuInt := 32
  let t := if a ≠ 0 then t - 1 else t
  testBits (a &&& -a) t

end Patmos

variable {a x r : SuInt} {k p w : ℕ}

theorem toNat_flag_shiftLeft (b : Bool) (hk : k < 5) : (flag b <<< k).toNat = if b then 2^k else 0 := by
  cases b with
  | false => simp [flag]
  | true =>
    have hpow : 2^k < 2^32 := Nat.pow_lt_pow_right (by decide) (by omega)
    have hone : (flag true).toNat = 1 := rfl
    rw [BitVec.toNat_shiftLeft, hone, Nat.one_shiftLeft, Nat.mod_eq_of_lt hpow, if_pos rfl]

/-- A mask of the upper half finds what is not below it. -/
theorem and_upper_eq_zero_iff {y mask : SuInt} (hmask : mask.toNat = (2^w - 1) * 2^w) (hy : y.toNat < 2^(2 * w)) :
    y &&& mask = 0 ↔ y.toNat < 2^w := by
  have hand : (y &&& mask).toNat = y.toNat / 2^w * 2^w := by
    have hshift : y.toNat &&& (2^w - 1) <<< w = (y.toNat >>> w &&& 2^w - 1) <<< w := by
      refine Nat.eq_of_testBit_eq fun i => ?_
      rw [Nat.testBit_and, Nat.testBit_shiftLeft, Nat.testBit_shiftLeft, Nat.testBit_and, Nat.testBit_shiftRight]
      by_cases hi : w ≤ i
      · rw [Nat.add_sub_cancel' hi, Bool.and_left_comm]
      · simp [hi]
    rw [BitVec.toNat_and, hmask, ← Nat.shiftLeft_eq, hshift, Nat.and_two_pow_sub_one_eq_mod, Nat.shiftRight_eq_div_pow,
      Nat.shiftLeft_eq, Nat.mod_eq_of_lt]
    apply Nat.div_lt_of_lt_mul
    rwa [← Nat.pow_add, ← Nat.two_mul]
  rw [← BitVec.toNat_inj, hand]
  have hpos := Nat.two_pow_pos w
  rw [← Nat.div_eq_zero_iff_lt hpos]
  constructor
  · intro h
    rcases Nat.mul_eq_zero.mp h with h | h
    · exact h
    · omega
  · intro h
    rw [h, Nat.zero_mul]
    rfl

/-! ## Leading zeros -/

/-- The position of the highest one bit gives the number of zeros. -/
theorem clz_of_top (hlow : 2^p ≤ a.toNat) (hhigh : a.toNat < 2^(p + 1)) : a.clz.toNat = 31 - p := by
  have hne : a ≠ 0 := by
    rintro rfl
    exact absurd hlow (Nat.not_le_of_lt (Nat.two_pow_pos p))
  have hle : 2^(31 - a.clz.toNat) ≤ a.toNat := BitVec.two_pow_sub_clz_le_toNat_of_ne_zero (by decide) hne
  have hlt : a.toNat < 2^(32 - a.clz.toNat) := BitVec.toNat_lt_two_pow_sub_clz
  have h1 : p < 32 - a.clz.toNat := (Nat.pow_lt_pow_iff_right (by decide)).mp (Nat.lt_of_le_of_lt hlow hlt)
  have h2 : 31 - a.clz.toNat < p + 1 := (Nat.pow_lt_pow_iff_right (by decide)).mp (Nat.lt_of_le_of_lt hle hhigh)
  omega

/-- The `w` bits that are left are those behind the first `r`, which are zero. -/
structure Leading (a r x : SuInt) (w : ℕ) : Prop where
  fits : r.toNat + w ≤ 32
  bits : x.toNat = a.toNat / 2^(32 - w - r.toNat)
  bound : a.toNat < 2^(32 - r.toNat)
  nonzero : x ≠ 0

theorem Leading.lt (h : Leading a r x w) : x.toNat < 2^w := by
  have hfits := h.fits
  rw [h.bits]
  apply Nat.div_lt_of_lt_mul
  rw [← Nat.pow_add]
  have hsum : 32 - w - r.toNat + w = 32 - r.toNat := by omega
  rw [hsum]
  exact h.bound

/-- The upper half is searched, or the lower one if the upper one is zero. -/
theorem Leading.halve (mask count : SuInt) (h : Leading a r x (2 * 2^k)) (hk : k < 5)
    (hmask : mask.toNat = (2^2^k - 1) * 2^2^k) (hcount : count.toNat = 2^k) :
    Leading a (r + flag (x &&& mask == 0) <<< k) (x >>> (count - flag (x &&& mask == 0) <<< k)) (2^k) := by
  have hfits := h.fits
  have hlt := h.lt
  have hbits := h.bits
  have hpos := Nat.two_pow_pos k
  have hiff := and_upper_eq_zero_iff hmask hlt
  by_cases hsmall : x.toNat < 2^2^k
  · have ht : (flag (x &&& mask == 0) <<< k).toNat = 2^k := by
      rw [toNat_flag_shiftLeft _ hk, if_pos (beq_iff_eq.mpr (hiff.mpr hsmall))]
    generalize flag (x &&& mask == 0) <<< k = t at ht ⊢
    have hr : (r + t).toNat = r.toNat + 2^k := by
      rw [BitVec.toNat_add, ht, Nat.mod_eq_of_lt (by omega)]
    have hzero : count - t = 0 := by
      rw [BitVec.eq_of_toNat_eq (hcount.trans ht.symm), BitVec.sub_self]
      rfl
    refine ⟨by omega,?_,?_,?_⟩
    · rw [hzero, hr, BitVec.ushiftRight_eq', BitVec.toNat_ushiftRight, hbits]
      have hsame : 32 - 2^k - (r.toNat + 2^k) = 32 - 2 * 2^k - r.toNat := by omega
      rw [hsame]
      rfl
    · rw [hr]
      have hsplit : 32 - (r.toNat + 2^k) = 2^k + (32 - 2 * 2^k - r.toNat) := by omega
      rw [hbits, Nat.div_lt_iff_lt_mul (Nat.two_pow_pos _)] at hsmall
      rw [hsplit, Nat.pow_add]
      exact hsmall
    · rw [hzero]
      simpa using h.nonzero
  · have ht : (flag (x &&& mask == 0) <<< k).toNat = 0 := by
      rw [toNat_flag_shiftLeft _ hk, if_neg (by rw [beq_iff_eq, hiff]; exact hsmall)]
    have hzero : flag (x &&& mask == 0) <<< k = 0#32 := BitVec.eq_of_toNat_eq ht
    rw [hzero, BitVec.add_zero, BitVec.sub_zero, BitVec.ushiftRight_eq', hcount]
    refine ⟨by omega,?_,h.bound,?_⟩
    · rw [BitVec.toNat_ushiftRight, Nat.shiftRight_eq_div_pow, hbits, Nat.div_div_eq_div_mul, ← Nat.pow_add]
      have hsum : 32 - 2 * 2^k - r.toNat + 2^k = 32 - 2^k - r.toNat := by omega
      rw [hsum]
    · rw [← BitVec.toNat_ne_iff_ne, BitVec.toNat_ushiftRight, Nat.shiftRight_eq_div_pow]
      have hge : 1 ≤ x.toNat / 2^2^k := (Nat.one_le_div_iff (Nat.two_pow_pos _)).mpr (Nat.le_of_not_lt hsmall)
      exact Nat.pos_iff_ne_zero.mp hge

/-- The switch that the last line stands for. -/
theorem Leading.last (h : Leading a r x 2) : (r + ((2 - x) &&& -flag (x &&& 2 == 0))).toNat = a.clz.toNat := by
  have hfits := h.fits
  have hlt : x.toNat < 4 := h.lt
  have hnonzero : x.toNat ≠ 0 := fun h0 => h.nonzero (BitVec.eq_of_toNat_eq h0)
  have hbits := h.bits
  have hpos := Nat.two_pow_pos (32 - 2 - r.toNat)
  have hle := Nat.div_mul_le_self a.toNat (2^(32 - 2 - r.toNat))
  have hsucc : a.toNat < (a.toNat / 2^(32 - 2 - r.toNat) + 1) * 2^(32 - 2 - r.toNat) :=
    Nat.lt_mul_of_div_lt (Nat.lt_succ_self _) hpos
  rw [← hbits] at hle hsucc
  have hcases : x = 1 ∨ x = 2 ∨ x = 3 := by
    simp only [← BitVec.toNat_inj]
    change x.toNat = 1 ∨ x.toNat = 2 ∨ x.toNat = 3
    omega
  rcases hcases with rfl | h23
  · have hone : (1 : SuInt).toNat = 1 := rfl
    rw [hone] at hle hsucc
    have hclz : a.clz.toNat = 31 - (32 - 2 - r.toNat) := by
      refine clz_of_top (by omega) ?_
      rw [Nat.pow_succ]
      omega
    have hlast : (2 - 1 : SuInt) &&& -flag ((1 : SuInt) &&& 2 == 0) = 1 := by decide
    rw [hlast, BitVec.toNat_add, hone, Nat.mod_eq_of_lt (by omega)]
    omega
  · have hlast : (2 - x) &&& -flag (x &&& 2 == 0) = 0#32 := by
      rcases h23 with rfl | rfl
      · decide
      · decide
    have htwo : 2 ≤ x.toNat ∧ x.toNat ≤ 3 := by
      rcases h23 with rfl | rfl
      · decide
      · decide
    have hclz : a.clz.toNat = 31 - (32 - 2 - r.toNat + 1) := by
      have hmul := Nat.mul_le_mul_right (2^(32 - 2 - r.toNat)) htwo.1
      have hmul' := Nat.mul_le_mul_right (2^(32 - 2 - r.toNat)) (Nat.add_le_add_right htwo.2 1)
      refine clz_of_top ?_ ?_
      · rw [Nat.pow_succ]
        omega
      · rw [Nat.pow_succ, Nat.pow_succ]
        omega
    rw [hlast, BitVec.add_zero]
    omega

theorem clzsi2_eq (a : SuInt) : clzsi2 a = a.clz := by
  by_cases hne : a = 0
  · subst hne
    decide
  · have hstart : Leading a 0#32 a (2 * 2^4) := ⟨le_rfl,(Nat.div_one _).symm,a.isLt,hne⟩
    have h16 := hstart.halve 0xFFFF0000 16 (by decide) (by decide) rfl
    rw [BitVec.zero_add] at h16
    have h8 := Leading.halve (k := 3) 0xFF00 8 h16 (by decide) (by decide) rfl
    have h4 := Leading.halve (k := 2) 0xF0 4 h8 (by decide) (by decide) rfl
    have h2 := Leading.halve (k := 1) 0xC 2 h4 (by decide) (by decide) rfl
    exact BitVec.eq_of_toNat_eq h2.last

/-! ## Trailing zeros -/

/-- A word whose bits end with a one and `p` zeros. -/
theorem ctz_of_odd (hdvd : 2^p ∣ a.toNat) (hodd : a.toNat / 2^p % 2 = 1) : a ≠ 0 ∧ a.ctz.toNat = p := by
  have hbit : a.getLsbD p = true := by
    rw [← BitVec.testBit_toNat, Nat.testBit_eq_decide_div_mod_eq, hodd]
    rfl
  have hne : a ≠ 0 := by
    rintro rfl
    simp at hbit
  have htrue := BitVec.getLsbD_true_ctz_of_ne_zero hne
  refine ⟨hne,Nat.le_antisymm ?_ ?_⟩
  · by_contra hlt
    rw [BitVec.getLsbD_false_of_lt_ctz (Nat.lt_of_not_le hlt)] at hbit
    cases hbit
  · by_contra hlt
    obtain ⟨q,hq⟩ := hdvd
    rw [← BitVec.testBit_toNat, hq, Nat.testBit_two_pow_mul, decide_eq_false (by omega), Bool.false_and] at htrue
    cases htrue

/-- The first `r` bits are zero, and the next `w` ones are not. -/
structure Trailing (a r x : SuInt) (w : ℕ) : Prop where
  fits : r.toNat + w ≤ 32
  bits : x.toNat = a.toNat / 2^r.toNat
  zeros : 2^r.toNat ∣ a.toNat
  nonzero : x.toNat % 2^w ≠ 0

theorem and_lower_eq_zero_iff {mask : SuInt} (hmask : mask.toNat = 2^w - 1) : x &&& mask = 0 ↔ x.toNat % 2^w = 0 := by
  rw [← BitVec.toNat_inj, BitVec.toNat_and, hmask, Nat.and_two_pow_sub_one_eq_mod]
  rfl

theorem Trailing.halve (mask : SuInt) (h : Trailing a r x (2 * 2^k)) (hk : k < 5) (hmask : mask.toNat = 2^2^k - 1) :
    Trailing a (r + flag (x &&& mask == 0) <<< k) (x >>> (flag (x &&& mask == 0) <<< k)) (2^k) := by
  have hfits := h.fits
  have hbits := h.bits
  have hiff := and_lower_eq_zero_iff (x := x) hmask
  by_cases hsmall : x.toNat % 2^2^k = 0
  · have ht : (flag (x &&& mask == 0) <<< k).toNat = 2^k := by
      rw [toNat_flag_shiftLeft _ hk, if_pos (beq_iff_eq.mpr (hiff.mpr hsmall))]
    generalize flag (x &&& mask == 0) <<< k = t at ht ⊢
    have hr : (r + t).toNat = r.toNat + 2^k := by
      rw [BitVec.toNat_add, ht, Nat.mod_eq_of_lt (by omega)]
    have hx : (x >>> t).toNat = x.toNat / 2^2^k := by
      rw [BitVec.ushiftRight_eq', BitVec.toNat_ushiftRight, ht, Nat.shiftRight_eq_div_pow]
    refine ⟨by omega,?_,?_,?_⟩
    · rw [hx, hr, hbits, Nat.div_div_eq_div_mul, Nat.pow_add]
    · obtain ⟨q,hq⟩ := h.zeros
      rw [hbits, hq, Nat.mul_div_cancel_left _ (Nat.two_pow_pos _)] at hsmall
      rw [hr, Nat.pow_add, hq]
      exact Nat.mul_dvd_mul_left _ (Nat.dvd_of_mod_eq_zero hsmall)
    · have hnonzero := h.nonzero
      rw [Nat.two_mul, Nat.pow_add, Nat.mod_mul, hsmall, Nat.zero_add] at hnonzero
      rw [hx]
      exact fun h0 => hnonzero (by rw [h0, Nat.mul_zero])
  · have ht : (flag (x &&& mask == 0) <<< k).toNat = 0 := by
      rw [toNat_flag_shiftLeft _ hk, if_neg (by rw [beq_iff_eq, hiff]; exact hsmall)]
    have hzero : flag (x &&& mask == 0) <<< k = 0#32 := BitVec.eq_of_toNat_eq ht
    rw [hzero, BitVec.add_zero]
    exact ⟨by omega,hbits,h.zeros,hsmall⟩

/-- The switch over the last two bits. -/
theorem Trailing.last (h : Trailing a r x 2) :
    a ≠ 0 ∧ (r + ((2 - (x &&& 3) >>> 1) &&& -flag (x &&& 3 &&& 1 == 0))).toNat = a.ctz.toNat := by
  have hfits := h.fits
  have hbits := h.bits
  have hnonzero := h.nonzero
  have hx : (x &&& 3).toNat = x.toNat % 4 := by
    rw [BitVec.toNat_and]
    exact Nat.and_two_pow_sub_one_eq_mod _ 2
  have hcases : (x &&& 3 = 1 ∨ x &&& 3 = 3) ∨ x &&& 3 = 2 := by
    simp only [← BitVec.toNat_inj, hx]
    change (x.toNat % 4 = 1 ∨ x.toNat % 4 = 3) ∨ x.toNat % 4 = 2
    omega
  rcases hcases with hlow | hlow
  · have hbit : x.toNat % 4 % 2 = 1 := by
      rw [← hx]
      rcases hlow with h1 | h3
      · rw [h1]
        rfl
      · rw [h3]
        rfl
    have hodd : a.toNat / 2^r.toNat % 2 = 1 := by
      rw [← hbits]
      omega
    obtain ⟨hne,hctz⟩ := ctz_of_odd h.zeros hodd
    have hlast : (2 - (x &&& 3) >>> 1) &&& -flag (x &&& 3 &&& 1 == 0) = 0#32 := by
      rcases hlow with h1 | h3
      · rw [h1]
        decide
      · rw [h3]
        decide
    rw [hlast, BitVec.add_zero]
    exact ⟨hne,hctz.symm⟩
  · have htwo : (2 : SuInt).toNat = 2 := rfl
    rw [hlow, htwo] at hx
    have hdvd : 2^(r.toNat + 1) ∣ a.toNat := by
      obtain ⟨q,hq⟩ := h.zeros
      rw [hbits, hq, Nat.mul_div_cancel_left _ (Nat.two_pow_pos _)] at hx
      rw [hq, Nat.pow_succ]
      exact Nat.mul_dvd_mul_left _ (Nat.dvd_of_mod_eq_zero (by omega))
    have hodd : a.toNat / 2^(r.toNat + 1) % 2 = 1 := by
      rw [Nat.pow_succ, ← Nat.div_div_eq_div_mul, ← hbits]
      omega
    obtain ⟨hne,hctz⟩ := ctz_of_odd hdvd hodd
    have hlast : (2 - (2 : SuInt) >>> 1) &&& -flag ((2 : SuInt) &&& 1 == 0) = 1 := by decide
    have hone : (1 : SuInt).toNat = 1 := rfl
    rw [hlow, hlast, BitVec.toNat_add, hone, Nat.mod_eq_of_lt (by omega)]
    exact ⟨hne,hctz.symm⟩

theorem ctzsi2_eq (hne : a ≠ 0) : ctzsi2 a = a.ctz := by
  have hnonzero : a.toNat % 2^(2 * 2^4) ≠ 0 := by
    have hlt : a.toNat < 2^(2 * 2^4) := a.isLt
    rw [Nat.mod_eq_of_lt hlt]
    exact fun h0 => hne (BitVec.eq_of_toNat_eq h0)
  have hstart : Trailing a 0#32 a (2 * 2^4) := ⟨le_rfl,(Nat.div_one _).symm,Nat.one_dvd _,hnonzero⟩
  have h16 := hstart.halve 0x0000FFFF (by decide) (by decide)
  rw [BitVec.zero_add] at h16
  have h8 := Trailing.halve (k := 3) 0x00FF h16 (by decide) (by decide)
  have h4 := Trailing.halve (k := 2) 0x0F h8 (by decide) (by decide)
  have h2 := Trailing.halve (k := 1) 0x3 h4 (by decide) (by decide)
  exact BitVec.eq_of_toNat_eq h2.last.2

/-! ## The isolated bit -/

theorem and_neg_eq_twoPow (hne : a ≠ 0) : a &&& -a = BitVec.twoPow 32 a.ctz.toNat := by
  have htrue := BitVec.getLsbD_true_ctz_of_ne_zero hne
  have hfalse : ∀ i < a.ctz.toNat, a.getLsbD i = false := fun i hi => BitVec.getLsbD_false_of_lt_ctz hi
  generalize a.ctz.toNat = p at htrue hfalse ⊢
  -- below the bit both are zero, and above it one is the complement of the other
  ext i hi
  rw [BitVec.getElem_and, BitVec.getElem_neg, BitVec.getElem_twoPow, ← BitVec.getLsbD_eq_getElem hi]
  rcases Nat.lt_trichotomy i p with h | rfl | h
  · rw [hfalse i h, Bool.false_and, decide_eq_false (by omega)]
  · have hnone : ¬∃ j < i, a.getLsbD j = true := by
      rintro ⟨j,hj,h1⟩
      rw [hfalse j hj] at h1
      cases h1
    rw [htrue, decide_eq_false hnone, Bool.xor_false, Bool.and_self, decide_eq_true rfl]
  · rw [decide_eq_true ⟨p,h,htrue⟩, Bool.xor_true, Bool.and_not_self, decide_eq_false (by omega)]

theorem Patmos.ctzsi2_eq (a : SuInt) : Patmos.ctzsi2 a = if a = 0 then 32 else a.ctz := by
  have hbit : ∀ p < 32, testBits (BitVec.twoPow 32 p) (32 - 1) = BitVec.ofNat 32 p := by decide
  by_cases hne : a = 0
  · subst hne
    decide
  · have hlt : a.ctz.toNat < 32 := BitVec.lt_def.mp (BitVec.ctz_lt_iff_ne_zero.mpr hne)
    rw [Patmos.ctzsi2, if_pos hne, and_neg_eq_twoPow hne, hbit _ hlt, BitVec.ofNat_toNat, BitVec.setWidth_eq, if_neg hne]

/-- Both versions agree on every argument that is not zero, and those of Patmos give the width for zero. -/
theorem patmos_counts_agree (a : SuInt) : (a ≠ 0 → Patmos.clzsi2 a = clzsi2 a ∧ Patmos.ctzsi2 a = ctzsi2 a ∧
    clzsi2 a = a.clz ∧ ctzsi2 a = a.ctz) ∧ Patmos.clzsi2 0 = 32 ∧ Patmos.ctzsi2 0 = 32 := by
  refine ⟨fun hne => ⟨rfl,?_,clzsi2_eq a,ctzsi2_eq hne⟩,by decide,by decide⟩
  rw [Patmos.ctzsi2_eq, if_neg hne, ctzsi2_eq hne]

/-- A word with its only one bit at the twentieth place. -/
theorem patmos_counts_at : (0x00100000 : SuInt) ≠ 0 ∧ Patmos.ctzsi2 0x00100000 = 20 := by
  have hne : (0x00100000 : SuInt) ≠ 0 := by decide
  have h := ((patmos_counts_agree 0x00100000).1 hne).2.1
  exact ⟨hne,h.trans (by decide)⟩

end CompilerRt.CountZeros
