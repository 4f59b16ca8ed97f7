import CompilerRt.Sanitizer.LargeMmap
import Mathlib

/-! # Size classes

The sizes of chunks in `lib/asan/asan_allocator.cc`: powers of two up to `kMallocSizeClassStep`, and its multiples.
The computations are those of a 64-bit word, and a failed check has no result.
-/
namespace CompilerRt.AsanAllocator
open Sanitizer
open Sanitizer.LargeMmap (and_mask_pow isPowerOfTwo_pow)

def kNumberOfSizeClasses : ℕ := 255
def kMallocSizeClassStepLog : ℕ := 26
def kMallocSizeClassStep : ℕ := 1 <<< kMallocSizeClassStepLog
def kMaxAllowedMallocSize : ℕ := 8 <<< 30

def IsAligned (a alignment : ℕ) : Bool := a &&& mask alignment == 0

/-- The position of the lowest one bit; the builtin promises nothing for zero. -/
def ctz (x : ℕ) : ℕ := ((List.range 64).find? x.testBit).getD 0

/-- The processor takes the low six bits of a count. -/
def shl (x count : ℕ) : ℕ := (x <<< (count % 64)) % 2^64

def Log2 (x : ℕ) : Option ℕ := if IsPowerOfTwo x then some (ctz x) else none

def RoundUpToPowerOfTwo (size : ℕ) : Option ℕ :=
  if size ≠ 0 then
    if IsPowerOfTwo size then some size
    else
      let up := size.log2
      if size < shl 1 (up + 1) ∧ size > shl 1 up then some (shl 1 (up + 1)) else none
  else none

def SizeClassToSize (size_class : ℕ) : Option ℕ :=
  if size_class < kNumberOfSizeClasses then
    if size_class ≤ kMallocSizeClassStepLog then some (shl 1 size_class)
    else some ((size_class - kMallocSizeClassStepLog) * kMallocSizeClassStep)
  else none

def SizeToSizeClass (size : ℕ) : Option ℕ := do
  let res ← if size ≤ kMallocSizeClassStep then (RoundUpToPowerOfTwo size).bind Log2
    else some ((size + kMallocSizeClassStep - 1) % 2^64 / kMallocSizeClassStep + kMallocSizeClassStepLog)
  -- the class is a `u8`
  let res := res % 2^8
  let rounded ← SizeClassToSize res
  if res < kNumberOfSizeClasses ∧ size ≤ rounded then some res else none

variable {x k size size_class : ℕ}

theorem kNumberOfSizeClasses_eq : kNumberOfSizeClasses = 255 := rfl
theorem kMallocSizeClassStepLog_eq : kMallocSizeClassStepLog = 26 := rfl
theorem kMallocSizeClassStep_eq : kMallocSizeClassStep = 2^26 := Nat.one_shiftLeft 26
theorem kMaxAllowedMallocSize_eq : kMaxAllowedMallocSize = 2^33 := Nat.shiftLeft_eq 8 30

theorem shl_one (hk : k < 64) : shl 1 k = 2^k := by
  rw [shl, Nat.mod_eq_of_lt hk, Nat.one_shiftLeft, Nat.mod_eq_of_lt (Nat.pow_lt_pow_right (by decide) hk)]

theorem isAligned_pow (hk : k < 64) : IsAligned x (2^k) = true ↔ 2^k ∣ x := by
  rw [IsAligned, and_mask_pow hk, beq_iff_eq, Nat.dvd_iff_mod_eq_zero]

/-- Words that have just one bit. -/
theorem isPowerOfTwo_iff (hx : x < 2^64) : IsPowerOfTwo x = true ↔ x = 0 ∨ ∃ k < 64, x = 2^k := by
  rcases Nat.eq_zero_or_pos x with rfl | hpos
  · exact ⟨fun _ => Or.inl rfl,fun _ => rfl⟩
  · have hmask : mask x = x - 1 := by
      rw [mask]
      omega
    rw [IsPowerOfTwo, hmask, beq_iff_eq]
    constructor
    · intro h
      obtain ⟨k,rfl⟩ := (Nat.and_sub_one_eq_zero_iff_isPowerOfTwo (by omega)).mp h
      exact Or.inr ⟨k,(Nat.pow_lt_pow_iff_right (by decide)).mp hx,rfl⟩
    · rintro (rfl | ⟨k,-,rfl⟩)
      · omega
      · exact (Nat.and_sub_one_eq_zero_iff_isPowerOfTwo (by omega)).mpr ⟨k,rfl⟩

theorem ctz_pow (hk : k < 64) : ctz (2^k) = k := by
  have h : (List.range 64).find? (Nat.testBit (2^k)) = some k := by
    rw [List.find?_range_eq_some]
    refine ⟨Nat.testBit_two_pow_self,List.mem_range.mpr hk,fun j hj => ?_⟩
    rw [Nat.testBit_two_pow_of_ne (by omega)]
    rfl
  rw [ctz, h, Option.getD_some]

theorem log2_pow (hk : k < 64) : Log2 (2^k) = some k := by
  rw [Log2, if_pos (isPowerOfTwo_pow hk), ctz_pow hk]

/-- The next power of two. -/
theorem roundUpToPowerOfTwo_spec (hpos : 0 < size) (hle : size ≤ 2^63) :
    ∃ k ≤ 63, RoundUpToPowerOfTwo size = some (2^k) ∧ size ≤ 2^k ∧ 2^k < 2 * size := by
  rw [RoundUpToPowerOfTwo, if_pos (by omega)]
  by_cases hpow : IsPowerOfTwo size = true
  · rcases (isPowerOfTwo_iff (by omega)).mp hpow with rfl | ⟨k,hk,rfl⟩
    · omega
    · exact ⟨k,by omega,if_pos hpow,le_rfl,by omega⟩
  · have hne : size ≠ 0 := by omega
    have hlow : 2^size.log2 ≤ size := Nat.log2_self_le hne
    have hhigh : size < 2^(size.log2 + 1) := Nat.lt_log2_self
    have hlog : size.log2 < 63 := by
      rcases Nat.lt_or_ge size.log2 63 with h | h
      · exact h
      · have h63 : 2^63 ≤ 2^size.log2 := Nat.pow_le_pow_right (by decide) h
        have hsize : size = 2^63 := by omega
        rw [hsize] at hpow
        exact absurd (isPowerOfTwo_pow (k := 63) (by decide)) hpow
    have hstrict : 2^size.log2 < size := by
      rcases Nat.lt_or_eq_of_le hlow with h | h
      · exact h
      · rw [← h] at hpow
        exact absurd (isPowerOfTwo_pow (by omega)) hpow
    refine ⟨size.log2 + 1,by omega,?_,hhigh.le,?_⟩
    · rw [if_neg hpow]
      dsimp only
      rw [shl_one (by omega), shl_one (by omega), if_pos ⟨hhigh,hstrict⟩]
    · rw [Nat.pow_succ]
      omega

/-- The sizes of the classes that sizes are rounded to. -/
theorem sizeClassToSize_small (h : size_class ≤ 26) : SizeClassToSize size_class = some (2^size_class) := by
  rw [SizeClassToSize, kNumberOfSizeClasses_eq, if_pos (by omega), kMallocSizeClassStepLog_eq, if_pos h,
    shl_one (by omega)]

theorem sizeClassToSize_large (h : 26 < size_class) (hlt : size_class < 255) :
    SizeClassToSize size_class = some ((size_class - 26) * 2^26) := by
  rw [SizeClassToSize, kNumberOfSizeClasses_eq, if_pos hlt, kMallocSizeClassStepLog_eq, if_neg (by omega),
    kMallocSizeClassStep_eq]

/-- A size is rounded up to a power of two or to a multiple of the step. -/
def RoundedTo (size rounded : ℕ) : Prop :=
  size ≤ rounded ∧ ((∃ k ≤ 26, rounded = 2^k ∧ 2^k < 2 * size) ∨
    (2^26 < size ∧ 2^26 ∣ rounded ∧ rounded < size + 2^26))

theorem sizeToSizeClass_small {k : ℕ} (hsmall : size ≤ 2^26) (hk : k ≤ 26)
    (hround : RoundUpToPowerOfTwo size = some (2^k)) (hle : size ≤ 2^k) : SizeToSizeClass size = some k := by
  have hbyte : k < 2^8 := by omega
  rw [SizeToSizeClass, kMallocSizeClassStep_eq, if_pos hsmall, hround, Option.bind_some, log2_pow (by omega)]
  dsimp only [Option.bind_eq_bind, Option.bind_some]
  rw [Nat.mod_eq_of_lt hbyte, sizeClassToSize_small hk, Option.bind_some, kNumberOfSizeClasses_eq,
    if_pos ⟨by omega,hle⟩]

theorem sizeToSizeClass_large {q : ℕ} (hlarge : 2^26 < size) (hq : (size + 2^26 - 1) / 2^26 = q) (hle : size ≤ q * 2^26)
    (hlt : q ≤ 128) : SizeToSizeClass size = some (q + 26) := by
  have hbyte : q + 26 < 2^8 := by omega
  have hpos : 26 < q + 26 := by omega
  have hclass : q + 26 < 255 := by omega
  rw [SizeToSizeClass, kMallocSizeClassStep_eq, if_neg (by omega), Nat.mod_eq_of_lt (by omega), hq,
    kMallocSizeClassStepLog_eq]
  dsimp only [Option.bind_eq_bind, Option.bind_some]
  rw [Nat.mod_eq_of_lt hbyte, sizeClassToSize_large hpos hclass, Option.bind_some, kNumberOfSizeClasses_eq,
    Nat.add_sub_cancel, if_pos ⟨hclass,hle⟩]

theorem sizeToSizeClass_spec (hpos : 0 < size) (hle : size ≤ kMaxAllowedMallocSize) :
    ∃ size_class rounded, SizeToSizeClass size = some size_class ∧ size_class < 255 ∧
      SizeClassToSize size_class = some rounded ∧ RoundedTo size rounded := by
  rw [kMaxAllowedMallocSize_eq] at hle
  rcases Nat.lt_or_ge (2^26) size with hlarge | hsmall
  · generalize hq : (size + 2^26 - 1) / 2^26 = q
    have hup : size ≤ q * 2^26 := by omega
    have hdown : q * 2^26 < size + 2^26 := by omega
    have hlt : q ≤ 128 := by omega
    have hone : 26 < q + 26 := by omega
    have hclass : q + 26 < 255 := by omega
    have hsize := sizeClassToSize_large hone hclass
    rw [Nat.add_sub_cancel] at hsize
    refine ⟨q + 26,q * 2^26,sizeToSizeClass_large hlarge hq hup hlt,hclass,hsize,?_⟩
    exact And.intro hup (Or.inr (And.intro hlarge (And.intro (Nat.dvd_mul_left _ _) hdown)))
  · obtain ⟨k,-,hround,hup,hlt⟩ := roundUpToPowerOfTwo_spec hpos (by omega)
    have hk : k ≤ 26 := by
      rcases Nat.lt_or_ge 26 k with h | h
      · have h27 : 2^27 ≤ 2^k := Nat.pow_le_pow_right (by decide) h
        omega
      · exact h
    refine ⟨k,2^k,sizeToSizeClass_small hsmall hk hround hup,by omega,sizeClassToSize_small hk,?_⟩
    exact And.intro hup (Or.inl (Exists.intro k (And.intro hk (And.intro rfl hlt))))

theorem sizeClassToSize_pos {n : ℕ} (h : SizeClassToSize size_class = some n) : 0 < n := by
  rcases Nat.lt_or_ge 26 size_class with hlarge | hsmall
  · rcases Nat.lt_or_ge size_class 255 with hlt | hge
    · rw [sizeClassToSize_large hlarge hlt] at h
      cases h
      exact Nat.mul_pos (by omega) (Nat.two_pow_pos 26)
    · rw [SizeClassToSize, kNumberOfSizeClasses_eq, if_neg (by omega)] at h
      cases h
  · rw [sizeClassToSize_small hsmall] at h
    cases h
    exact Nat.two_pow_pos _

end CompilerRt.AsanAllocator
