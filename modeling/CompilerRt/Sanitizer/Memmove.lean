import Mathlib

/-! # Moving memory

`internal_memmove` of `lib/sanitizer_common/sanitizer_libc.cc`. The direction is that in which no byte is written
before it is read.
-/
namespace CompilerRt.Sanitizer.Memmove

abbrev Memory := ℕ → BitVec 8

abbrev sptr := BitVec 64

/-- The address of `p[i]`. -/
def elem (p : ℕ) (i : sptr) : ℕ := (p + i.toInt).toNat

theorem toInt_add_one {i n : sptr} (h : i.slt n = true) : (i + 1).toInt = i.toInt + 1 := by
  rw [BitVec.slt_iff_toInt_lt] at h
  have hn : n.toInt < 2^63 := BitVec.toInt_lt
  have hi : -2^63 ≤ i.toInt := BitVec.le_toInt i
  have hone : (1 : sptr).toInt = 1 := rfl
  rw [BitVec.toInt_add, hone]
  exact Int.bmod_eq_of_le (by omega) (by omega)

theorem toInt_sub_one {i : sptr} (h : (0 : sptr).sle i = true) : (i - 1).toInt = i.toInt - 1 := by
  have hi : (0 : ℤ) ≤ i.toInt := BitVec.sle_iff_toInt_le.mp h
  have hlt : i.toInt < 2^63 := BitVec.toInt_lt
  have hone : (1 : sptr).toInt = 1 := rfl
  rw [BitVec.toInt_sub, hone]
  exact Int.bmod_eq_of_le (by omega) (by omega)

/-- `for (; i < signed_n; ++i) d[i] = s[i]`. -/
def copyUp (d s : ℕ) (signed_n i : sptr) (m : Memory) : Memory :=
  if i.slt signed_n then copyUp d s signed_n (i + 1) (Function.update m (elem d i) (m (elem s i))) else m
termination_by (signed_n.toInt - i.toInt).toNat
decreasing_by
  rename_i h
  rw [toInt_add_one h]
  rw [BitVec.slt_iff_toInt_lt] at h
  omega

/-- `for (; i >= 0; --i) d[i] = s[i]`. -/
def copyDown (d s : ℕ) (i : sptr) (m : Memory) : Memory :=
  if (0 : sptr).sle i then copyDown d s (i - 1) (Function.update m (elem d i) (m (elem s i))) else m
termination_by (i.toInt + 1).toNat
decreasing_by
  rename_i h
  have hi : (0 : ℤ) ≤ i.toInt := BitVec.sle_iff_toInt_le.mp h
  rw [toInt_sub_one h]
  omega

/-- None where the check fails. -/
def internal_memmove (m : Memory) (dest src : ℕ) (n : BitVec 64) : Option Memory :=
  let d := dest
  let s := src
  let signed_n : sptr := n
  if (0 : sptr).sle signed_n then
    if d < s then some (copyUp d s signed_n 0 m)
    else if d > s ∧ (0 : sptr).slt signed_n then some (copyDown d s (signed_n - 1) m)
    else some m
  else none

/-- The bytes from `s + lo` to `s + hi` at `d + lo`, and all others as they were. -/
def moved (m : Memory) (d s lo hi : ℕ) : Memory := fun b => if d + lo ≤ b ∧ b < d + hi then m (s + (b - d)) else m b

variable {m : Memory} {d s lo hi : ℕ}

theorem moved_empty (m : Memory) (d s k : ℕ) : moved m d s k k = m := by
  funext b
  exact if_neg (by omega)

/-- The lowest byte is moved first, to a place below all that are still to be read. -/
theorem moved_up (h : d < s) (hlt : lo < hi) :
    moved (Function.update m (d + lo) (m (s + lo))) d s (lo + 1) hi = moved m d s lo hi := by
  funext b
  rw [moved, moved]
  by_cases hb : b = d + lo
  · rw [if_neg (by omega), if_pos (by omega), hb, Function.update_self, Nat.add_sub_cancel_left]
  · rw [Function.update_of_ne hb]
    by_cases hin : d + (lo + 1) ≤ b ∧ b < d + hi
    · rw [if_pos hin, if_pos (by omega), Function.update_of_ne (by omega)]
    · rw [if_neg hin, if_neg (by omega)]

/-- The highest byte is moved first, to a place above all that are still to be read. -/
theorem moved_down (h : s < d) :
    moved (Function.update m (d + hi) (m (s + hi))) d s 0 hi = moved m d s 0 (hi + 1) := by
  funext b
  rw [moved, moved]
  by_cases hb : b = d + hi
  · rw [if_neg (by omega), if_pos (by omega), hb, Function.update_self, Nat.add_sub_cancel_left]
  · rw [Function.update_of_ne hb]
    by_cases hin : d + 0 ≤ b ∧ b < d + hi
    · rw [if_pos hin, if_pos (by omega), Function.update_of_ne (by omega)]
    · rw [if_neg hin, if_neg (by omega)]

theorem elem_of_toInt {i : sptr} (h : i.toInt = lo) (p : ℕ) : elem p i = p + lo := by
  rw [elem, h]
  omega

theorem copyUp_eq {signed_n i : sptr} (h : d < s) (hn : signed_n.toInt = hi) (hi' : i.toInt = lo) (hle : lo ≤ hi) :
    copyUp d s signed_n i m = moved m d s lo hi := by
  induction hk : hi - lo generalizing lo i m with
  | zero =>
    have heq : lo = hi := by omega
    rw [copyUp, if_neg (by rw [BitVec.slt_iff_toInt_lt]; omega), heq, moved_empty]
  | succ k ih =>
    have hlt : i.slt signed_n = true := by
      rw [BitVec.slt_iff_toInt_lt]
      omega
    have hnext : (i + 1).toInt = ((lo + 1 : ℕ) : ℤ) := by
      rw [toInt_add_one hlt, hi', Int.natCast_succ]
    rw [copyUp, if_pos hlt, elem_of_toInt hi', elem_of_toInt hi', ih hnext (by omega) (by omega), moved_up h (by omega)]

theorem copyDown_eq {i : sptr} (h : s < d) (hi' : i.toInt + 1 = hi) : copyDown d s i m = moved m d s 0 hi := by
  induction hi generalizing i m with
  | zero =>
    have hneg : ¬(0 : sptr).sle i = true := by
      have hzero : (0 : sptr).toInt = 0 := rfl
      rw [BitVec.sle_iff_toInt_le, hzero]
      omega
    rw [copyDown, if_neg hneg, moved_empty]
  | succ k ih =>
    have hk : i.toInt = k := by omega
    have hle : (0 : sptr).sle i = true := by
      rw [BitVec.sle_iff_toInt_le, hk]
      exact Int.natCast_nonneg k
    have hnext : (i - 1).toInt + 1 = k := by
      rw [toInt_sub_one hle, hk, Int.sub_add_cancel]
    rw [copyDown, if_pos hle, elem_of_toInt hk, elem_of_toInt hk, ih hnext, moved_down h]

theorem internal_memmove_eq (m : Memory) (dest src : ℕ) {n : BitVec 64} (hn : n.toNat < 2^63) :
    internal_memmove m dest src n = some (moved m dest src 0 n.toNat) := by
  have hint : n.toInt = (n.toNat : ℤ) := BitVec.toInt_eq_toNat_of_lt (by omega)
  have hcheck : (0 : sptr).sle n = true := by
    rw [BitVec.sle_iff_toInt_le, hint]
    exact Int.natCast_nonneg _
  rw [internal_memmove, if_pos hcheck]
  rcases Nat.lt_trichotomy dest src with h | rfl | h
  · rw [if_pos h, copyUp_eq h hint rfl (Nat.zero_le _)]
  · rw [if_neg (Nat.lt_irrefl _), if_neg (fun hand => Nat.lt_irrefl _ hand.1)]
    congr 1
    funext b
    rw [moved]
    split_ifs with hin
    · rw [Nat.add_sub_cancel' (by omega)]
    · rfl
  · rw [if_neg (Nat.lt_asymm h)]
    rcases Nat.eq_zero_or_pos n.toNat with hzero | hpos
    · rw [if_neg, hzero, moved_empty]
      rintro ⟨-,hlt⟩
      rw [BitVec.slt_iff_toInt_lt, hint, hzero] at hlt
      exact absurd hlt (Int.lt_irrefl 0)
    · have hlt : (0 : sptr).slt n = true := by
        rw [BitVec.slt_iff_toInt_lt, hint]
        exact Int.natCast_pos.mpr hpos
      have hlast : (n - 1).toInt + 1 = (n.toNat : ℤ) := by
        rw [toInt_sub_one hcheck, hint, Int.sub_add_cancel]
      rw [if_pos ⟨h,hlt⟩, copyDown_eq h hlast]

/-- However the ranges lie, the destination holds what the source held, and no other byte has changed. -/
theorem internal_memmove_moves (m : Memory) (dest src : ℕ) {n : BitVec 64} (hn : n.toNat < 2^63) :
    ∃ m', internal_memmove m dest src n = some m' ∧ (∀ i < n.toNat, m' (dest + i) = m (src + i)) ∧
      ∀ b, b < dest ∨ dest + n.toNat ≤ b → m' b = m b := by
  refine ⟨_,internal_memmove_eq m dest src hn,fun i hi => ?_,fun b hb => ?_⟩
  · rw [moved, if_pos (by omega), Nat.add_sub_cancel_left]
  · rw [moved, if_neg (by omega)]

/-- Two bytes that overlap, moved up by one. -/
theorem internal_memmove_overlap : ∃ m', internal_memmove (fun b => BitVec.ofNat 8 b) 11 10 2 = some m' ∧
    (∀ i < 2, m' (11 + i) = BitVec.ofNat 8 (10 + i)) ∧ ∀ b, b < 11 ∨ 11 + 2 ≤ b → m' b = BitVec.ofNat 8 b :=
  internal_memmove_moves (fun b => BitVec.ofNat 8 b) 11 10 (n := 2) (by decide)

end CompilerRt.Sanitizer.Memmove
