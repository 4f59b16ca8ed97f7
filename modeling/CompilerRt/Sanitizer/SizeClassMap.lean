import Mathlib

/-! # The size class map

`DefaultSizeClassMap` of `lib/sanitizer_common/sanitizer_allocator64.h`: five bands of sizes, each with its step.
-/
namespace CompilerRt.Sanitizer

structure SizeClassMap where
  kNumClasses : ℕ
  kMaxSize : ℕ
  Size : ℕ → ℕ
  ClassID : ℕ → ℕ
  MaxCached : ℕ → ℕ

namespace DefaultSizeClassMap

def l0 : ℕ := 1 <<< 4
def l1 : ℕ := 1 <<< 9
def l2 : ℕ := 1 <<< 12
def l3 : ℕ := 1 <<< 15
def l4 : ℕ := 1 <<< 18
def l5 : ℕ := 1 <<< 21

def s0 : ℕ := 1 <<< 4
def s1 : ℕ := 1 <<< 6
def s2 : ℕ := 1 <<< 9
def s3 : ℕ := 1 <<< 12
def s4 : ℕ := 1 <<< 15

def u0 : ℕ := 0 + (l1 - l0) / s0
def u1 : ℕ := u0 + (l2 - l1) / s1
def u2 : ℕ := u1 + (l3 - l2) / s2
def u3 : ℕ := u2 + (l4 - l3) / s3
def u4 : ℕ := u3 + (l5 - l4) / s4

def c0 : ℕ := 256
def c1 : ℕ := 64
def c2 : ℕ := 16
def c3 : ℕ := 4
def c4 : ℕ := 1

def Size (class_id : ℕ) : ℕ :=
  if class_id ≤ u0 then l0 + s0 * (class_id - 0)
  else if class_id ≤ u1 then l1 + s1 * (class_id - u0)
  else if class_id ≤ u2 then l2 + s2 * (class_id - u1)
  else if class_id ≤ u3 then l3 + s3 * (class_id - u2)
  else if class_id ≤ u4 then l4 + s4 * (class_id - u3)
  else 0

/-- The difference in the first band wraps for sizes below `l0`. -/
def ClassID (size : ℕ) : ℕ :=
  if size ≤ l1 then 0 + (size + (2^64 - l0) + s0 - 1) % 2^64 / s0
  else if size ≤ l2 then u0 + (size - l1 + s1 - 1) / s1
  else if size ≤ l3 then u1 + (size - l2 + s2 - 1) / s2
  else if size ≤ l4 then u2 + (size - l3 + s3 - 1) / s3
  else if size ≤ l5 then u3 + (size - l4 + s4 - 1) / s4
  else 0

def MaxCached (class_id : ℕ) : ℕ :=
  if class_id ≤ u0 then c0
  else if class_id ≤ u1 then c1
  else if class_id ≤ u2 then c2
  else if class_id ≤ u3 then c3
  else if class_id ≤ u4 then c4
  else 0

end DefaultSizeClassMap

open DefaultSizeClassMap in
def DefaultSizeClassMap : SizeClassMap where
  kNumClasses := u4 + 1
  kMaxSize := l5
  Size := Size
  ClassID := ClassID
  MaxCached := MaxCached

namespace DefaultSizeClassMap
variable {size class_id k j : ℕ}

theorem Size_eq (class_id : ℕ) : Size class_id =
    if class_id ≤ 31 then 16 + 16 * class_id
    else if class_id ≤ 87 then 512 + 64 * (class_id - 31)
    else if class_id ≤ 143 then 4096 + 512 * (class_id - 87)
    else if class_id ≤ 199 then 32768 + 4096 * (class_id - 143)
    else if class_id ≤ 255 then 262144 + 32768 * (class_id - 199)
    else 0 := rfl

theorem ClassID_eq (size : ℕ) : ClassID size =
    if size ≤ 512 then (size + (2^64 - 16) + 16 - 1) % 2^64 / 16
    else if size ≤ 4096 then 31 + (size - 512 + 64 - 1) / 64
    else if size ≤ 32768 then 87 + (size - 4096 + 512 - 1) / 512
    else if size ≤ 262144 then 143 + (size - 32768 + 4096 - 1) / 4096
    else if size ≤ 2097152 then 199 + (size - 262144 + 32768 - 1) / 32768
    else 0 := by
  unfold ClassID
  rw [Nat.zero_add]
  rfl

/-- The step of the band that a size is in. -/
def stepOf (size : ℕ) : ℕ :=
  if size ≤ l1 then s0 else if size ≤ l2 then s1 else if size ≤ l3 then s2 else if size ≤ l4 then s3 else s4

/-- The class of a size has the size rounded up to the step of its band. -/
theorem Size_ClassID (hpos : 0 < size) (hle : size ≤ 2^21) : ClassID size < 256 ∧
    Size (ClassID size) = (size + stepOf size - 1) / stepOf size * stepOf size := by
  have hstep : stepOf size = if size ≤ 512 then 16 else if size ≤ 4096 then 64 else if size ≤ 32768 then 512
    else if size ≤ 262144 then 4096 else 32768 := rfl
  by_cases h0 : size ≤ 512
  · rw [ClassID_eq, if_pos h0, hstep, if_pos h0, Size_eq, if_pos (by omega)]
    omega
  by_cases h1 : size ≤ 4096
  · rw [ClassID_eq, if_neg h0, if_pos h1, hstep, if_neg h0, if_pos h1, Size_eq, if_neg (by omega), if_pos (by omega)]
    omega
  by_cases h2 : size ≤ 32768
  · rw [ClassID_eq, if_neg h0, if_neg h1, if_pos h2, hstep, if_neg h0, if_neg h1, if_pos h2, Size_eq,
      if_neg (by omega), if_neg (by omega), if_pos (by omega)]
    omega
  by_cases h3 : size ≤ 262144
  · rw [ClassID_eq, if_neg h0, if_neg h1, if_neg h2, if_pos h3, hstep, if_neg h0, if_neg h1, if_neg h2, if_pos h3,
      Size_eq, if_neg (by omega), if_neg (by omega), if_neg (by omega), if_pos (by omega)]
    omega
  · rw [ClassID_eq, if_neg h0, if_neg h1, if_neg h2, if_neg h3, if_pos (by omega), hstep, if_neg h0, if_neg h1,
      if_neg h2, if_neg h3, Size_eq, if_neg (by omega), if_neg (by omega), if_neg (by omega), if_neg (by omega),
      if_pos (by omega)]
    omega

theorem stepOf_eq_pow (size : ℕ) : ∃ k, 4 ≤ k ∧ stepOf size = 2^k := by
  rw [stepOf]
  split_ifs
  · exact ⟨4,by decide,rfl⟩
  · exact ⟨6,by decide,rfl⟩
  · exact ⟨9,by decide,rfl⟩
  · exact ⟨12,by decide,rfl⟩
  · exact ⟨15,by decide,rfl⟩

theorem sixteen_le_Size (h : class_id < 256) : 16 ≤ Size class_id := by
  rw [Size_eq]
  split_ifs <;> omega

theorem Size_le (class_id : ℕ) : Size class_id ≤ 2^21 := by
  rw [Size_eq]
  split_ifs <;> omega

theorem MaxCached_pos (h : class_id < 256) : 0 < MaxCached class_id := by
  have hlast : class_id ≤ u4 := Nat.le_of_lt_succ h
  rw [MaxCached]
  split_ifs <;> decide

theorem size_le (hpos : 0 < size) (hle : size ≤ 2^21) : size ≤ Size (ClassID size) := by
  obtain ⟨k,-,hk⟩ := stepOf_eq_pow size
  rw [(Size_ClassID hpos hle).2, hk]
  have hstep := Nat.two_pow_pos k
  have hdiv := Nat.div_add_mod (size + 2^k - 1) (2^k)
  have hmod := Nat.mod_lt (size + 2^k - 1) hstep
  rw [Nat.mul_comm]
  omega

/-- A class for multiples of a power of two holds a multiple of it. -/
theorem dvd_Size (hpos : 0 < size) (hle : size ≤ 2^21) (hdvd : 2^j ∣ size) : 2^j ∣ Size (ClassID size) := by
  obtain ⟨k,-,hk⟩ := stepOf_eq_pow size
  rw [(Size_ClassID hpos hle).2, hk]
  by_cases hjk : j ≤ k
  · exact (Nat.pow_dvd_pow 2 hjk).trans (Nat.dvd_mul_left ..)
  · obtain ⟨m,rfl⟩ : 2^k ∣ size := (Nat.pow_dvd_pow 2 (by omega)).trans hdvd
    have hstep := Nat.two_pow_pos k
    have hceil : (2^k * m + 2^k - 1) / 2^k = m := by
      rw [Nat.add_sub_assoc hstep, Nat.mul_add_div hstep, Nat.div_eq_of_lt (by omega), Nat.add_zero]
    rw [hceil, Nat.mul_comm]
    exact hdvd

/-- Every class is for multiples of sixteen. -/
theorem sixteen_dvd_Size (hpos : 0 < size) (hle : size ≤ 2^21) : 16 ∣ Size (ClassID size) := by
  obtain ⟨k,hk4,hk⟩ := stepOf_eq_pow size
  rw [(Size_ClassID hpos hle).2, hk]
  exact (Nat.pow_dvd_pow 2 hk4).trans (Nat.dvd_mul_left ..)

end DefaultSizeClassMap
end CompilerRt.Sanitizer
