import CompilerRt.Builtins.FpToInt
import CompilerRt.Builtins.Udivmod

/-! # Routines on two words

Shifts, comparisons and searches for a bit, in each case one text for two words of 32 and of 64 bits. A shift that C does
not define has the value that the target gives it.
-/
namespace CompilerRt.TwoWords
open CShift FpLib FpToInt
open Udivmod (Words builtin_ctz)

section Code
variable (t : ShiftTarget) {h : ℕ}

def ashl (a : BitVec (h + h)) (b : BitVec 32) : Option (BitVec (h + h)) := do
  let bits_in_word := BitVec.ofNat 32 h
  let input := Words.ofAll a
  if b &&& bits_in_word ≠ 0 then
    let high ← shl t input.low (b - bits_in_word).toInt
    return Words.all { high := high, low := 0 }
  else if b = 0 then return a
  else
    let low ← shl t input.low b.toInt
    let high := (← shl t input.high b.toInt) ||| (← shr t input.low (bits_in_word - b).toInt)
    return Words.all { high := high, low := low }

def ashr (a : BitVec (h + h)) (b : BitVec 32) : Option (BitVec (h + h)) := do
  let bits_in_word := BitVec.ofNat 32 h
  let input := Words.ofAll a
  if b &&& bits_in_word ≠ 0 then
    let high ← sar t input.high (bits_in_word - 1).toInt
    let low ← sar t input.high (b - bits_in_word).toInt
    return Words.all { high := high, low := low }
  else if b = 0 then return a
  else
    let high ← sar t input.high b.toInt
    let low := (← shl t input.high (bits_in_word - b).toInt) ||| (← shr t input.low b.toInt)
    return Words.all { high := high, low := low }

def lshr (a : BitVec (h + h)) (b : BitVec 32) : Option (BitVec (h + h)) := do
  let bits_in_word := BitVec.ofNat 32 h
  let input := Words.ofAll a
  if b &&& bits_in_word ≠ 0 then
    let low ← shr t input.high (b - bits_in_word).toInt
    return Words.all { high := 0, low := low }
  else if b = 0 then return a
  else
    let high ← shr t input.high b.toInt
    let low := (← shl t input.high (bits_in_word - b).toInt) ||| (← shr t input.low b.toInt)
    return Words.all { high := high, low := low }

/-- The comparison of the high words is signed or not. -/
def cmp (lt : BitVec h → BitVec h → Bool) (a b : BitVec (h + h)) : BitVec 32 :=
  let x := Words.ofAll a
  let y := Words.ofAll b
  if lt x.high y.high then 0
  else if lt y.high x.high then 2
  else if x.low < y.low then 0
  else if y.low < x.low then 2
  else 1

/-- `-(x == 0)` -/
def zeroMask (x : BitVec h) : BitVec h := if x = 0 then -1 else 0

def clz (a : BitVec (h + h)) : BitVec 32 :=
  let x := Words.ofAll a
  let f := zeroMask x.high
  BitVec.ofNat 32 (builtin_clz ((x.high &&& ~~~f) ||| (x.low &&& f))) + (f.truncate 32 &&& BitVec.ofNat 32 h)

def ctz (a : BitVec (h + h)) : BitVec 32 :=
  let x := Words.ofAll a
  let f := zeroMask x.low
  BitVec.ofNat 32 (builtin_ctz ((x.high &&& f) ||| (x.low &&& ~~~f))) + (f.truncate 32 &&& BitVec.ofNat 32 h)

def ffs (a : BitVec (h + h)) : BitVec 32 :=
  let x := Words.ofAll a
  if x.low = 0 then
    if x.high = 0 then 0 else BitVec.ofNat 32 (builtin_ctz x.high) + (1 + BitVec.ofNat 32 h)
  else BitVec.ofNat 32 (builtin_ctz x.low) + 1

end Code

def ashldi3 (t : ShiftTarget) (a : BitVec 64) (b : BitVec 32) : Option (BitVec 64) := ashl t (h := 32) a b
def ashlti3 (t : ShiftTarget) (a : BitVec 128) (b : BitVec 32) : Option (BitVec 128) := ashl t (h := 64) a b
def ashrdi3 (t : ShiftTarget) (a : BitVec 64) (b : BitVec 32) : Option (BitVec 64) := ashr t (h := 32) a b
def ashrti3 (t : ShiftTarget) (a : BitVec 128) (b : BitVec 32) : Option (BitVec 128) := ashr t (h := 64) a b
def lshrdi3 (t : ShiftTarget) (a : BitVec 64) (b : BitVec 32) : Option (BitVec 64) := lshr t (h := 32) a b
def lshrti3 (t : ShiftTarget) (a : BitVec 128) (b : BitVec 32) : Option (BitVec 128) := lshr t (h := 64) a b

def cmpdi2 : BitVec 64 → BitVec 64 → BitVec 32 := cmp (h := 32) BitVec.slt
def cmpti2 : BitVec 128 → BitVec 128 → BitVec 32 := cmp (h := 64) BitVec.slt
def ucmpdi2 : BitVec 64 → BitVec 64 → BitVec 32 := cmp (h := 32) BitVec.ult
def ucmpti2 : BitVec 128 → BitVec 128 → BitVec 32 := cmp (h := 64) BitVec.ult

def clzdi2 : BitVec 64 → BitVec 32 := clz (h := 32)
def clzti2 : BitVec 128 → BitVec 32 := clz (h := 64)
def ctzdi2 : BitVec 64 → BitVec 32 := ctz (h := 32)
def ctzti2 : BitVec 128 → BitVec 32 := ctz (h := 64)
def ffsdi2 : BitVec 64 → BitVec 32 := ffs (h := 32)
def ffsti2 : BitVec 128 → BitVec 32 := ffs (h := 64)

/-! ## The words of a number -/

section Words
variable {h n i : ℕ} {a : BitVec (h + h)}

theorem getLsbD_low : (Words.ofAll a).low.getLsbD i = (decide (i < h) && a.getLsbD i) := by
  simp [Words.ofAll, BitVec.getLsbD_setWidth]

theorem getLsbD_high : (Words.ofAll a).high.getLsbD i = (decide (i < h) && a.getLsbD (h + i)) := by
  simp [Words.ofAll, BitVec.getLsbD_setWidth]

theorem getLsbD_all (x : Words h) : x.all.getLsbD i = if i < h then x.low.getLsbD i else x.high.getLsbD (i - h) := by
  rw [Words.all, BitVec.getLsbD_append]

theorem all_ofAll (a : BitVec (h + h)) : (Words.ofAll a).all = a := by
  apply BitVec.eq_of_getLsbD_eq
  intro i hi
  rw [getLsbD_all, getLsbD_low, getLsbD_high]
  grind

theorem msb_high : (Words.ofAll a).high.msb = a.msb := by
  rw [BitVec.msb_eq_getLsbD_last, BitVec.msb_eq_getLsbD_last, getLsbD_high]
  rcases Nat.eq_zero_or_pos h with rfl | hpos
  · simp
  · have hlast : h + (h - 1) = h + h - 1 := by omega
    simp [hlast, hpos]

theorem shiftLeft_wide (hn : h ≤ n) : Words.all { high := (Words.ofAll a).low <<< (n - h), low := 0#h } = a <<< n := by
  apply BitVec.eq_of_getLsbD_eq
  intro i hi
  have hidx : i - h - (n - h) = i - n := by omega
  have hlt : i - h < n - h ↔ i < n ∧ h ≤ i ∨ i < h ∧ h < n := by omega
  have hin : i - n < h := by omega
  simp only [getLsbD_all, BitVec.getLsbD_shiftLeft, getLsbD_low, BitVec.getLsbD_zero]
  by_cases hlow : i < h
  · have hbelow : i < n := by omega
    simp [hlow, hbelow]
  · have hhigh : i - h < h := by omega
    simp [hlow, hidx, hin, hhigh, hlt, hi, Nat.not_lt.mp hlow]

theorem shiftLeft_narrow (hn : n < h) :
    Words.all { high := (Words.ofAll a).high <<< n ||| (Words.ofAll a).low >>> (h - n), low := (Words.ofAll a).low <<< n }
      = a <<< n := by
  apply BitVec.eq_of_getLsbD_eq
  intro i hi
  simp only [getLsbD_all, BitVec.getLsbD_shiftLeft, BitVec.getLsbD_ushiftRight, BitVec.getLsbD_or, getLsbD_low, getLsbD_high]
  by_cases hlow : i < h
  · have hin : i - n < h := by omega
    simp [hlow, hi, hin]
  · have hhigh : i - h < h := by omega
    have hbelow : ¬i < n := by omega
    by_cases hcross : i - h < n
    · -- a bit that comes from the low word
      have hidx : h - n + (i - h) = i - n := by omega
      have hin : i - n < h := by omega
      simp [hlow, hi, hhigh, hbelow, hcross, hidx, hin]
    · have hidx : h + (i - h - n) = i - n := by omega
      have hin : i - h - n < h := by omega
      have hout : ¬h - n + (i - h) < h := by omega
      simp [hlow, hi, hhigh, hbelow, hcross, hidx, hin, hout]

theorem ushiftRight_wide (hn : h ≤ n) : Words.all { high := 0#h, low := (Words.ofAll a).high >>> (n - h) } = a >>> n := by
  apply BitVec.eq_of_getLsbD_eq
  intro i hi
  simp only [getLsbD_all, BitVec.getLsbD_ushiftRight, getLsbD_high, BitVec.getLsbD_zero]
  have hidx : h + (n - h + i) = n + i := by omega
  by_cases hlow : i < h
  · by_cases hin : n - h + i < h
    · simp [hlow, hidx, hin]
    · have hout : a.getLsbD (n + i) = false := BitVec.getLsbD_of_ge _ _ (by omega)
      simp [hlow, hin, hout]
  · have hout : a.getLsbD (n + i) = false := BitVec.getLsbD_of_ge _ _ (by omega)
    simp [hlow, hout]

/-- The low word of a right shift by less than a word. -/
theorem getLsbD_shiftedLow (hn : n < h) (hi : i < h) :
    ((Words.ofAll a).high <<< (h - n) ||| (Words.ofAll a).low >>> n).getLsbD i = a.getLsbD (n + i) := by
  simp only [BitVec.getLsbD_shiftLeft, BitVec.getLsbD_ushiftRight, BitVec.getLsbD_or, getLsbD_low, getLsbD_high]
  by_cases hcross : i < h - n
  · have hin : n + i < h := by omega
    simp [hcross, hin]
  · have hidx : h + (i - (h - n)) = n + i := by omega
    have hin : i - (h - n) < h := by omega
    have hout : ¬n + i < h := by omega
    simp [hcross, hi, hidx, hin, hout]

theorem ushiftRight_narrow (hn : n < h) :
    Words.all { high := (Words.ofAll a).high >>> n, low := (Words.ofAll a).high <<< (h - n) ||| (Words.ofAll a).low >>> n }
      = a >>> n := by
  apply BitVec.eq_of_getLsbD_eq
  intro i hi
  have hright : (a >>> n).getLsbD i = a.getLsbD (n + i) := BitVec.getLsbD_ushiftRight ..
  rw [getLsbD_all, hright]
  by_cases hlow : i < h
  · rw [if_pos hlow, getLsbD_shiftedLow hn hlow]
  · have hidx : h + (n + (i - h)) = n + i := by omega
    rw [if_neg hlow, BitVec.getLsbD_ushiftRight, getLsbD_high, hidx]
    by_cases hin : n + (i - h) < h
    · simp [hin]
    · have hout : a.getLsbD (n + i) = false := BitVec.getLsbD_of_ge _ _ (by omega)
      simp [hin, hout]

theorem getLsbD_sshiftRight_of_lt {w m : ℕ} {x : BitVec w} (hi : i < w) :
    (x.sshiftRight m).getLsbD i = if m + i < w then x.getLsbD (m + i) else x.msb := by
  have hin : ¬w ≤ i := by omega
  rw [BitVec.getLsbD_sshiftRight]
  simp only [hin, decide_false, Bool.not_false, Bool.true_and]

/-- A bit of the high word of a signed right shift. -/
theorem getLsbD_sshiftRight_high {m : ℕ} (hi : i < h) : ((Words.ofAll a).high.sshiftRight m).getLsbD i =
    if m + i < h then a.getLsbD (h + (m + i)) else a.msb := by
  rw [getLsbD_sshiftRight_of_lt hi, getLsbD_high, msb_high]
  by_cases hm : m + i < h
  · simp [hm]
  · simp [hm]

theorem sshiftRight_wide (hn : h ≤ n) : Words.all { high := (Words.ofAll a).high.sshiftRight (h - 1)
                                                    low := (Words.ofAll a).high.sshiftRight (n - h) } = a.sshiftRight n := by
  apply BitVec.eq_of_getLsbD_eq
  intro i hi
  rw [getLsbD_all, getLsbD_sshiftRight_of_lt hi]
  by_cases hlow : i < h
  · rw [if_pos hlow, getLsbD_sshiftRight_high hlow]
    have hidx : h + (n - h + i) = n + i := by omega
    have hin : n - h + i < h ↔ n + i < h + h := by omega
    simp only [hidx, hin]
  · rw [if_neg hlow, getLsbD_sshiftRight_high (by omega)]
    have hout : ¬n + i < h + h := by omega
    by_cases hlast : h - 1 + (i - h) < h
    · have hidx : h + (h - 1 + (i - h)) = h + h - 1 := by omega
      simp only [hout, hlast, hidx, BitVec.msb_eq_getLsbD_last, if_true, if_false]
    · simp only [hout, hlast, if_false]

theorem sshiftRight_narrow (hn : n < h) :
    Words.all { high := (Words.ofAll a).high.sshiftRight n
                low := (Words.ofAll a).high <<< (h - n) ||| (Words.ofAll a).low >>> n } = a.sshiftRight n := by
  apply BitVec.eq_of_getLsbD_eq
  intro i hi
  rw [getLsbD_all, getLsbD_sshiftRight_of_lt hi]
  by_cases hlow : i < h
  · have hin : n + i < h + h := by omega
    rw [if_pos hlow, getLsbD_shiftedLow hn hlow, if_pos hin]
  · have hidx : h + (n + (i - h)) = n + i := by omega
    have hin : n + (i - h) < h ↔ n + i < h + h := by omega
    rw [if_neg hlow, getLsbD_sshiftRight_high (by omega)]
    simp only [hidx, hin]

end Words

/-! ## Shifts -/

section Shifts
variable (t : ShiftTarget) {h k : ℕ} {a : BitVec (h + h)} {b : BitVec 32}

/-- The amount has the bit of the word's width where it is that wide. -/
theorem and_width (hk : k < 31) (hh : h = 2 ^ k) (hb : b.toNat < h + h) :
    b &&& BitVec.ofNat 32 h ≠ 0 ↔ h ≤ b.toNat := by
  subst hh
  have hmask : BitVec.ofNat 32 (2 ^ k) = BitVec.twoPow 32 k := by
    apply BitVec.eq_of_toNat_eq
    rw [BitVec.toNat_ofNat, BitVec.toNat_twoPow]
  have hbit : (b &&& BitVec.twoPow 32 k).toNat = b.toNat / 2 ^ k % 2 * 2 ^ k :=
    BitMask.toNat_and_twoPow b (show k < 32 by omega)
  have hpos := Nat.two_pow_pos k
  have hdiv : b.toNat / 2 ^ k < 2 := by
    rw [Nat.div_lt_iff_lt_mul hpos]
    omega
  have hle : 2 ^ k ≤ b.toNat ↔ 1 ≤ b.toNat / 2 ^ k := by rw [Nat.le_div_iff_mul_le hpos, Nat.one_mul]
  rw [hmask, Ne, ← BitVec.toNat_inj, hbit, hle]
  generalize b.toNat / 2 ^ k = m at hdiv
  obtain rfl | rfl : m = 0 ∨ m = 1 := by omega
  · simp
  · simp

/-- The differences of amounts do not wrap. -/
theorem amounts (hk : k < 31) (hh : h = 2 ^ k) (hb : b.toNat < h + h) : b.toInt = b.toNat ∧
    (h ≤ b.toNat → (b - BitVec.ofNat 32 h).toInt = ((b.toNat - h : ℕ) : ℤ)) ∧
    (b.toNat < h → (BitVec.ofNat 32 h - b).toInt = ((h - b.toNat : ℕ) : ℤ)) ∧
    (BitVec.ofNat 32 h - 1).toInt = ((h - 1 : ℕ) : ℤ) := by
  have hle : 2 ^ k ≤ 2 ^ 30 := Nat.pow_le_pow_right (by decide) (by omega)
  have hpos := Nat.two_pow_pos k
  rw [← hh] at hle hpos
  have hone : (1 : BitVec 32).toNat = 1 := rfl
  refine ⟨?_,fun hw => ?_,fun hw => ?_,?_⟩
  all_goals
    simp only [BitVec.toInt_eq_toNat_cond, BitVec.toNat_sub, BitVec.toNat_ofNat, hone]
    omega

theorem ashl_eq (hk : k < 31) (hh : h = 2 ^ k) (hb : b.toNat < h + h) : ashl t a b = some (a <<< b.toNat) := by
  obtain ⟨hint,hwide,hnarrow,-⟩ := amounts hk hh hb
  rw [ashl]
  simp only [and_width hk hh hb]
  split_ifs with hw h0
  · rw [hwide hw, shl_natCast t _ (by omega)]
    simp [shiftLeft_wide hw]
  · subst h0
    simp
  · rw [Nat.not_le] at hw
    have hne : b.toNat ≠ 0 := fun hb0 => h0 (BitVec.eq_of_toNat_eq hb0)
    rw [hint, hnarrow hw, shl_natCast t _ hw, shl_natCast t _ hw, shr_natCast t _ (by omega)]
    simp [shiftLeft_narrow hw]

theorem lshr_eq (hk : k < 31) (hh : h = 2 ^ k) (hb : b.toNat < h + h) : lshr t a b = some (a >>> b.toNat) := by
  obtain ⟨hint,hwide,hnarrow,-⟩ := amounts hk hh hb
  rw [lshr]
  simp only [and_width hk hh hb]
  split_ifs with hw h0
  · rw [hwide hw, shr_natCast t _ (by omega)]
    simp [ushiftRight_wide hw]
  · subst h0
    simp
  · rw [Nat.not_le] at hw
    have hne : b.toNat ≠ 0 := fun hb0 => h0 (BitVec.eq_of_toNat_eq hb0)
    rw [hint, hnarrow hw, shr_natCast t _ hw, shr_natCast t _ hw, shl_natCast t _ (by omega)]
    simp [ushiftRight_narrow hw]

theorem sar_natCast (x : BitVec h) {n : ℕ} (hn : n < h) : sar t x n = some (x.sshiftRight n) :=
  if_pos ⟨by omega,by omega⟩

theorem ashr_eq (hk : k < 31) (hh : h = 2 ^ k) (hb : b.toNat < h + h) : ashr t a b = some (a.sshiftRight b.toNat) := by
  obtain ⟨hint,hwide,hnarrow,hlast⟩ := amounts hk hh hb
  rw [ashr]
  simp only [and_width hk hh hb]
  split_ifs with hw h0
  · rw [hwide hw, hlast, sar_natCast t _ (by omega), sar_natCast t _ (by omega)]
    simp [sshiftRight_wide hw]
  · subst h0
    simp
  · rw [Nat.not_le] at hw
    have hne : b.toNat ≠ 0 := fun hb0 => h0 (BitVec.eq_of_toNat_eq hb0)
    rw [hint, hnarrow hw, sar_natCast t _ hw, shr_natCast t _ hw, shl_natCast t _ (by omega)]
    simp [sshiftRight_narrow hw]

/-- No shift of a word is out of range, and together they are the shift of both words. -/
theorem shifts_right (t : ShiftTarget) :
    (∀ (a : BitVec 64) (b : BitVec 32), b.toNat < 64 → ashldi3 t a b = some (a <<< b.toNat) ∧
      lshrdi3 t a b = some (a >>> b.toNat) ∧ ashrdi3 t a b = some (a.sshiftRight b.toNat)) ∧
    ∀ (a : BitVec 128) (b : BitVec 32), b.toNat < 128 → ashlti3 t a b = some (a <<< b.toNat) ∧
      lshrti3 t a b = some (a >>> b.toNat) ∧ ashrti3 t a b = some (a.sshiftRight b.toNat) :=
  ⟨fun a b hb => ⟨ashl_eq t (k := 5) (by decide) rfl hb,lshr_eq t (k := 5) (by decide) rfl hb,
      ashr_eq t (k := 5) (by decide) rfl hb⟩,
    fun a b hb => ⟨ashl_eq t (k := 6) (by decide) rfl hb,lshr_eq t (k := 6) (by decide) rfl hb,
      ashr_eq t (k := 6) (by decide) rfl hb⟩⟩

/-- C itself defines every shift that is made. -/
theorem shifts_right_strict : ashrti3 .strict (-5) 100 = some (-1) := by
  have h := ((shifts_right .strict).2 (-5) 100 (by decide)).2.2
  rw [h]
  decide

end Shifts

/-! ## Searches and comparisons -/

section Searches
variable {h n : ℕ} {a b : BitVec (h + h)} {x : BitVec h}

theorem zeroMask_zero : zeroMask (0 : BitVec h) = -1 := if_pos rfl

theorem zeroMask_of_ne (hx : x ≠ 0) : zeroMask x = 0 := if_neg hx

/-- `f & bits_in_word` for a mask of ones. -/
theorem mask_width (hh : 32 ≤ h) : (-1 : BitVec h).truncate 32 &&& BitVec.ofNat 32 h = BitVec.ofNat 32 h := by
  have hones : (-1 : BitVec h) = BitVec.allOnes h := BitVec.neg_one_eq_allOnes
  have htrunc : (BitVec.allOnes h).truncate 32 = BitVec.allOnes 32 := by
    apply BitVec.eq_of_getLsbD_eq
    intro i hi
    have hlt : i < h := by omega
    rw [BitVec.truncate_eq_setWidth, BitVec.getLsbD_setWidth, BitVec.getLsbD_allOnes, BitVec.getLsbD_allOnes]
    simp only [hi, hlt, decide_true, Bool.and_true]
  rw [hones, htrunc, BitVec.allOnes_and]

theorem toNat_words (a : BitVec (h + h)) :
    a.toNat = (Words.ofAll a).high.toNat * 2 ^ h + (Words.ofAll a).low.toNat := by
  have hlow : (Words.ofAll a).low.toNat = a.toNat % 2 ^ h := BitVec.toNat_setWidth ..
  have hhigh : (Words.ofAll a).high.toNat = a.toNat / 2 ^ h := by
    change (BitVec.setWidth h (a >>> h)).toNat = _
    rw [BitVec.toNat_setWidth, BitVec.toNat_ushiftRight, Nat.shiftRight_eq_div_pow, Nat.mod_eq_of_lt]
    rw [Nat.div_lt_iff_lt_mul (Nat.two_pow_pos _), ← pow_add]
    exact a.isLt
  rw [hlow, hhigh, Nat.div_add_mod']

theorem select_ones (x y : BitVec h) : (x &&& ~~~(-1 : BitVec h)) ||| (y &&& -1) = y := by
  have hones : (-1 : BitVec h) = BitVec.allOnes h := BitVec.neg_one_eq_allOnes
  rw [hones]
  simp

theorem select_zeros (x y : BitVec h) : (x &&& ~~~(0 : BitVec h)) ||| (y &&& 0) = x := by simp

theorem log_high (hhigh : (Words.ofAll a).high.toNat ≠ 0) :
    Nat.log 2 a.toNat = h + Nat.log 2 (Words.ofAll a).high.toNat := by
  have hlow := (Words.ofAll a).low.isLt
  have hle := Nat.pow_log_le_self 2 hhigh
  have hlt := Nat.lt_pow_succ_log_self (b := 2) (by decide) (Words.ofAll a).high.toNat
  refine Nat.log_eq_of_pow_le_of_lt_pow ?_ ?_
  · rw [toNat_words a, pow_add, Nat.mul_comm]
    exact (Nat.mul_le_mul_right _ hle).trans (Nat.le_add_right _ _)
  · rw [toNat_words a, Nat.add_assoc, pow_add, Nat.mul_comm (2 ^ h)]
    calc _ < (Words.ofAll a).high.toNat * 2 ^ h + 2 ^ h := Nat.add_lt_add_left hlow _
      _ = ((Words.ofAll a).high.toNat + 1) * 2 ^ h := (Nat.succ_mul _ _).symm
      _ ≤ _ := Nat.mul_le_mul_right _ hlt

/-- The highest bit is in the high word, if there is one. -/
theorem clz_eq (hh : 32 ≤ h) (ha : a ≠ 0) : clz a = BitVec.ofNat 32 (builtin_clz a) := by
  unfold clz builtin_clz
  dsimp only
  by_cases hzero : (Words.ofAll a).high = 0
  · have hnat : a.toNat = (Words.ofAll a).low.toNat := by rw [toNat_words a, hzero]; simp
    have hne : (Words.ofAll a).low.toNat ≠ 0 := fun h0 => ha (BitVec.eq_of_toNat_eq (hnat.trans h0))
    have hlog : Nat.log 2 (Words.ofAll a).low.toNat < h := Nat.log_lt_of_lt_pow hne (Words.ofAll a).low.isLt
    have hcount : h - 1 - Nat.log 2 (Words.ofAll a).low.toNat + h = h + h - 1 - Nat.log 2 (Words.ofAll a).low.toNat := by
      omega
    rw [hzero, zeroMask_zero, mask_width hh, select_ones, ← BitVec.ofNat_add, hnat, hcount]
  · have hne : (Words.ofAll a).high.toNat ≠ 0 := fun h0 => hzero (BitVec.eq_of_toNat_eq h0)
    have hcount : h + h - 1 - (h + Nat.log 2 (Words.ofAll a).high.toNat) = h - 1 - Nat.log 2 (Words.ofAll a).high.toNat := by
      omega
    rw [zeroMask_of_ne hzero, select_zeros, log_high hne, hcount]
    simp

/-- The lowest bit is where all below it are zero. -/
theorem ctz_of_lowest (hbit : x.getLsbD n = true) (hzero : ∀ i < n, x.getLsbD i = false) : builtin_ctz x = n := by
  have hne : x ≠ 0#h := by
    rintro rfl
    simp at hbit
  have hbit' := BitVec.getLsbD_true_ctz_of_ne_zero hne
  rcases lt_trichotomy x.ctz.toNat n with hlt | heq | hgt
  · rw [hzero _ hlt] at hbit'
    cases hbit'
  · exact heq
  · rw [BitVec.getLsbD_false_of_lt_ctz hgt] at hbit
    cases hbit

/-- The lowest bit is in the low word, if there is one. -/
theorem ctz_words (ha : a ≠ 0) : builtin_ctz a =
    if (Words.ofAll a).low = 0 then builtin_ctz (Words.ofAll a).high + h else builtin_ctz (Words.ofAll a).low := by
  split_ifs with hzero
  · have hlowbits : ∀ i < h, a.getLsbD i = false := by
      intro i hi
      have hbit := congrArg (fun y : BitVec h => y.getLsbD i) hzero
      rw [getLsbD_low] at hbit
      simpa only [hi, decide_true, Bool.true_and, BitVec.ofNat_eq_ofNat, BitVec.getLsbD_zero] using hbit
    have hne : (Words.ofAll a).high ≠ 0#h := by
      intro h0
      apply ha
      rw [← all_ofAll a, Words.all, h0, hzero]
      simp
    have hbit := BitVec.getLsbD_true_ctz_of_ne_zero hne
    rw [getLsbD_high, Bool.and_eq_true, decide_eq_true_eq] at hbit
    have hplace := hbit.2
    rw [Nat.add_comm h (Words.ofAll a).high.ctz.toNat] at hplace
    refine ctz_of_lowest hplace fun i hi => ?_
    by_cases hlow : i < h
    · exact hlowbits i hlow
    · have hbelow : i - h < (Words.ofAll a).high.ctz.toNat := by
        change i < (Words.ofAll a).high.ctz.toNat + h at hi
        omega
      have hzerobit := BitVec.getLsbD_false_of_lt_ctz hbelow
      have hidx : h + (i - h) = i := by omega
      have hin : i - h < h := by omega
      rw [getLsbD_high, hidx] at hzerobit
      simpa only [hin, decide_true, Bool.true_and] using hzerobit
  · have hbit := BitVec.getLsbD_true_ctz_of_ne_zero (x := (Words.ofAll a).low) hzero
    rw [getLsbD_low, Bool.and_eq_true, decide_eq_true_eq] at hbit
    refine ctz_of_lowest hbit.2 fun i hi => ?_
    have hzerobit := BitVec.getLsbD_false_of_lt_ctz hi
    have hin : i < h := Nat.lt_trans hi hbit.1
    rw [getLsbD_low] at hzerobit
    simpa only [hin, decide_true, Bool.true_and] using hzerobit

theorem ctz_eq (hh : 32 ≤ h) (ha : a ≠ 0) : ctz a = BitVec.ofNat 32 (builtin_ctz a) := by
  rw [ctz_words ha, ctz]
  by_cases hzero : (Words.ofAll a).low = 0
  · rw [if_pos hzero, hzero, zeroMask_zero, mask_width hh, BitVec.or_comm, select_ones, BitVec.ofNat_add]
  · rw [if_neg hzero, zeroMask_of_ne hzero, BitVec.or_comm, select_zeros]
    simp

theorem ffs_eq (a : BitVec (h + h)) : ffs a = if a = 0 then 0 else BitVec.ofNat 32 (builtin_ctz a + 1) := by
  by_cases ha : a = 0
  · subst ha
    simp [ffs, Words.ofAll]
  · have hffs : ffs a = if (Words.ofAll a).low = 0 then
          if (Words.ofAll a).high = 0 then 0 else BitVec.ofNat 32 (builtin_ctz (Words.ofAll a).high) + (1 + BitVec.ofNat 32 h)
        else BitVec.ofNat 32 (builtin_ctz (Words.ofAll a).low) + 1 := rfl
    rw [if_neg ha, ctz_words ha, hffs]
    by_cases hlow : (Words.ofAll a).low = 0
    · have hhigh : (Words.ofAll a).high ≠ 0 := by
        intro hhigh
        apply ha
        rw [← all_ofAll a, Words.all, hhigh, hlow]
        simp
      rw [if_pos hlow, if_pos hlow, if_neg hhigh, BitVec.ofNat_add, BitVec.ofNat_add, BitVec.add_assoc, BitVec.add_comm 1]
      rfl
    · rw [if_neg hlow, if_neg hlow, BitVec.ofNat_add]
      rfl

theorem words_eq_iff : a = b ↔ (Words.ofAll a).high = (Words.ofAll b).high ∧ (Words.ofAll a).low = (Words.ofAll b).low := by
  refine ⟨fun hab => hab ▸ ⟨rfl,rfl⟩,fun hab => ?_⟩
  rw [← all_ofAll a, ← all_ofAll b, Words.all, Words.all, hab.1, hab.2]

/-- Words are compared as the digits of a number are. -/
theorem lt_of_digits {H K l m B : ℤ} (hl : 0 ≤ l ∧ l < B) (hm : 0 ≤ m ∧ m < B) :
    H * B + l < K * B + m ↔ H < K ∨ H = K ∧ l < m := by
  have hB : 0 ≤ B := by omega
  rcases lt_trichotomy H K with hlt | rfl | hgt
  · have hstep := mul_le_mul_of_nonneg_right (Int.add_one_le_iff.mpr hlt) hB
    rw [add_mul, one_mul] at hstep
    exact iff_of_true (by omega) (Or.inl hlt)
  · simp
  · have hstep := mul_le_mul_of_nonneg_right (Int.add_one_le_iff.mpr hgt) hB
    rw [add_mul, one_mul] at hstep
    exact iff_of_false (by omega) (by omega)

theorem low_digit (a : BitVec (h + h)) : 0 ≤ ((Words.ofAll a).low.toNat : ℤ) ∧ ((Words.ofAll a).low.toNat : ℤ) < 2 ^ h := by
  have hlt := (Words.ofAll a).low.isLt
  exact ⟨Int.natCast_nonneg _,by exact_mod_cast hlt⟩

theorem ult_words : BitVec.ult a b = true ↔ BitVec.ult (Words.ofAll a).high (Words.ofAll b).high = true ∨
    (Words.ofAll a).high = (Words.ofAll b).high ∧ (Words.ofAll a).low < (Words.ofAll b).low := by
  have hdigits := lt_of_digits (H := ((Words.ofAll a).high.toNat : ℤ)) (K := ((Words.ofAll b).high.toNat : ℤ)) (low_digit a)
    (low_digit b)
  rw [BitVec.ult_iff_lt, BitVec.ult_iff_lt, BitVec.lt_def, BitVec.lt_def, BitVec.lt_def, ← BitVec.toNat_inj, toNat_words a,
    toNat_words b]
  exact_mod_cast hdigits

theorem toInt_words (hh : h ≠ 0) (a : BitVec (h + h)) :
    a.toInt = (Words.ofAll a).high.toInt * 2 ^ h + (Words.ofAll a).low.toNat := by
  conv_lhs => rw [← all_ofAll a, Words.all, BitVec.toInt_append]
  simp [hh, mul_comm]

theorem slt_words (hh : h ≠ 0) : BitVec.slt a b = true ↔ BitVec.slt (Words.ofAll a).high (Words.ofAll b).high = true ∨
    (Words.ofAll a).high = (Words.ofAll b).high ∧ (Words.ofAll a).low < (Words.ofAll b).low := by
  have hdigits := lt_of_digits (H := (Words.ofAll a).high.toInt) (K := (Words.ofAll b).high.toInt) (low_digit a) (low_digit b)
  rw [BitVec.slt_iff_toInt_lt, BitVec.slt_iff_toInt_lt, toInt_words hh a, toInt_words hh b, BitVec.lt_def, ← BitVec.toInt_inj,
    hdigits]
  exact_mod_cast Iff.rfl

/-- A comparison by words, from that of the high words. -/
theorem cmp_eq {lt : BitVec h → BitVec h → Bool} {LT : BitVec (h + h) → BitVec (h + h) → Bool}
    (hwords : ∀ {a b}, LT a b = true ↔ lt (Words.ofAll a).high (Words.ofAll b).high = true ∨
      (Words.ofAll a).high = (Words.ofAll b).high ∧ (Words.ofAll a).low < (Words.ofAll b).low)
    (hirrefl : ∀ x, lt x x = false) (htotal : ∀ x y, lt x y = false → lt y x = false → x = y) (a b : BitVec (h + h)) :
    cmp lt a b = if LT a b then 0 else if a = b then 1 else 2 := by
  have hself := hirrefl (Words.ofAll b).high
  simp only [hwords, words_eq_iff, cmp]
  by_cases hlt : lt (Words.ofAll a).high (Words.ofAll b).high = true
  · simp [hlt]
  · by_cases hgt : lt (Words.ofAll b).high (Words.ofAll a).high = true
    · have hne : (Words.ofAll a).high ≠ (Words.ofAll b).high := by
        intro heq
        rw [heq, hself] at hgt
        cases hgt
      simp [hlt, hgt, hne]
    · have heq := htotal _ _ (Bool.eq_false_iff.mpr hlt) (Bool.eq_false_iff.mpr hgt)
      rw [heq, hself]
      have hcases : (Words.ofAll a).low < (Words.ofAll b).low ∨ (Words.ofAll a).low = (Words.ofAll b).low ∨
          (Words.ofAll b).low < (Words.ofAll a).low := by
        simpa only [BitVec.lt_def, ← BitVec.toNat_inj] using Nat.lt_trichotomy _ _
      rcases hcases with hlow | hlow | hlow
      · simp [hlow]
      · simp [hlow, BitVec.lt_irrefl]
      · have hnot : ¬(Words.ofAll a).low < (Words.ofAll b).low := BitVec.lt_asymm hlow
        have hne : (Words.ofAll a).low ≠ (Words.ofAll b).low := by
          intro heq
          rw [heq] at hlow
          exact BitVec.lt_irrefl _ hlow
        simp [hlow, hnot, hne]

theorem cmp_slt (hh : h ≠ 0) (a b : BitVec (h + h)) : cmp BitVec.slt a b = if a.slt b then 0 else if a = b then 1 else 2 := by
  have hirrefl : ∀ x : BitVec h, BitVec.slt x x = false := fun x => decide_eq_false (lt_irrefl _)
  refine cmp_eq (slt_words hh) hirrefl (fun x y hxy hyx => ?_) a b
  rw [← Bool.not_eq_true, BitVec.slt_iff_toInt_lt] at hxy hyx
  exact BitVec.eq_of_toInt_eq (by omega)

theorem cmp_ult (a b : BitVec (h + h)) : cmp BitVec.ult a b = if a.ult b then 0 else if a = b then 1 else 2 := by
  have hirrefl : ∀ x : BitVec h, BitVec.ult x x = false := fun x => decide_eq_false (lt_irrefl _)
  refine cmp_eq ult_words hirrefl (fun x y hxy hyx => ?_) a b
  rw [← Bool.not_eq_true, BitVec.ult_iff_lt, BitVec.lt_def] at hxy hyx
  exact BitVec.eq_of_toNat_eq (by omega)

/-- What is found in the words, and how they compare, is so of the whole. -/
theorem searches_right :
    (∀ a : BitVec 64, (a ≠ 0 → clzdi2 a = BitVec.ofNat 32 (builtin_clz a) ∧ ctzdi2 a = BitVec.ofNat 32 (builtin_ctz a)) ∧
      ffsdi2 a = if a = 0 then 0 else BitVec.ofNat 32 (builtin_ctz a + 1)) ∧
    (∀ a : BitVec 128, (a ≠ 0 → clzti2 a = BitVec.ofNat 32 (builtin_clz a) ∧ ctzti2 a = BitVec.ofNat 32 (builtin_ctz a)) ∧
      ffsti2 a = if a = 0 then 0 else BitVec.ofNat 32 (builtin_ctz a + 1)) ∧
    (∀ a b : BitVec 64, cmpdi2 a b = (if a.slt b then 0 else if a = b then 1 else 2) ∧
      ucmpdi2 a b = if a.ult b then 0 else if a = b then 1 else 2) ∧
    ∀ a b : BitVec 128, cmpti2 a b = (if a.slt b then 0 else if a = b then 1 else 2) ∧
      ucmpti2 a b = if a.ult b then 0 else if a = b then 1 else 2 := by
  refine ⟨fun a => ⟨fun ha => ?_,ffs_eq (h := 32) a⟩,fun a => ⟨fun ha => ?_,ffs_eq (h := 64) a⟩,fun a b => ?_,fun a b => ?_⟩
  · exact ⟨clz_eq (h := 32) le_rfl ha,ctz_eq (h := 32) le_rfl ha⟩
  · exact ⟨clz_eq (h := 64) (by decide) ha,ctz_eq (h := 64) (by decide) ha⟩
  · exact ⟨cmp_slt (h := 32) (by decide) a b,cmp_ult (h := 32) a b⟩
  · exact ⟨cmp_slt (h := 64) (by decide) a b,cmp_ult (h := 64) a b⟩

/-- The number 2 has 62 zeros above its bit. -/
theorem searches_right_two : (2 : BitVec 64) ≠ 0 ∧ clzdi2 2 = BitVec.ofNat 32 (builtin_clz (2 : BitVec 64)) := by
  have hne : (2 : BitVec 64) ≠ 0 := by decide
  exact ⟨hne,((searches_right.1 2).1 hne).1⟩

end Searches

end CompilerRt.TwoWords
