import Mathlib.Data.Nat.Bitwise

/-! # The shadow mapping of AddressSanitizer

`lib/asan/asan_mapping.h`: the boundary constants are derived from the word size's
`SHADOW_OFFSET` and `kHighMemEnd`, and five predicates place an address in a region.
-/
namespace CompilerRt.AsanMapping

inductive WordSize where
  | w32
  | w64
deriving DecidableEq, Repr

def SHADOW_SCALE : ℕ := 3

def kPageSize : ℕ := 1 <<< 12

namespace WordSize
variable (w : WordSize)

def SHADOW_OFFSET : ℕ := match w with
  | w32 => 1 <<< 29
  | w64 => 1 <<< 44

def kHighMemEnd : ℕ := match w with
  | w32 => 0xffffffff
  | w64 => 0x00007fffffffffff

def MEM_TO_SHADOW (mem : ℕ) : ℕ := mem >>> SHADOW_SCALE ||| w.SHADOW_OFFSET

def kLowMemEnd : ℕ := if w.SHADOW_OFFSET ≠ 0 then w.SHADOW_OFFSET - 1 else 0
def kLowShadowBeg : ℕ := w.SHADOW_OFFSET
def kLowShadowEnd : ℕ := w.MEM_TO_SHADOW w.kLowMemEnd
def kHighMemBeg : ℕ := w.MEM_TO_SHADOW w.kHighMemEnd + 1
def kHighShadowBeg : ℕ := w.MEM_TO_SHADOW w.kHighMemBeg
def kHighShadowEnd : ℕ := w.MEM_TO_SHADOW w.kHighMemEnd
def kShadowGapBeg : ℕ := if w.kLowShadowEnd ≠ 0 then w.kLowShadowEnd + 1 else 16 * kPageSize
def kShadowGapEnd : ℕ := w.kHighShadowBeg - 1

def AddrIsInLowMem (a : ℕ) : Bool := a < w.kLowMemEnd
def AddrIsInLowShadow (a : ℕ) : Bool := w.kLowShadowBeg ≤ a ∧ a ≤ w.kLowShadowEnd
def AddrIsInHighMem (a : ℕ) : Bool := w.kHighMemBeg ≤ a ∧ a ≤ w.kHighMemEnd
def AddrIsInMem (a : ℕ) : Bool := w.AddrIsInLowMem a || w.AddrIsInHighMem a
def AddrIsInHighShadow (a : ℕ) : Bool := w.kHighShadowBeg ≤ a ∧ a ≤ w.kHighMemEnd
def AddrIsInShadowGap (a : ℕ) : Bool := w.kShadowGapBeg ≤ a ∧ a ≤ w.kShadowGapEnd

end WordSize

/-- What `DescribeAddressIfShadow` prints about an address outside memory. -/
inductive ShadowArea where
  | shadowGap
  | highShadow
  | lowShadow
deriving DecidableEq, Repr

/-- `some none` is `return false`; `none` is the failed `CHECK(0)` at the end. -/
def DescribeAddressIfShadow (w : WordSize) (addr : ℕ) : Option (Option ShadowArea) :=
  if w.AddrIsInMem addr then some none
  else if w.AddrIsInShadowGap addr then some (some .shadowGap)
  else if w.AddrIsInHighShadow addr then some (some .highShadow)
  else if w.AddrIsInLowShadow addr then some (some .lowShadow)
  else none

inductive Region where
  | lowMem
  | lowShadow
  | shadowGap
  | highShadow
  | highMem
deriving DecidableEq, Repr

/-- The predicate that the header gives for each region. -/
def Region.test (w : WordSize) : Region → ℕ → Bool
  | lowMem => w.AddrIsInLowMem
  | lowShadow => w.AddrIsInLowShadow
  | shadowGap => w.AddrIsInShadowGap
  | highShadow => w.AddrIsInHighShadow
  | highMem => w.AddrIsInHighMem

/-- The layout the constants spell out: shift by the scale below the offset, so the or is a sum. -/
theorem memToShadow_eq (w : WordSize) {a : ℕ} (ha : a ≤ w.kHighMemEnd) :
    w.MEM_TO_SHADOW a = w.SHADOW_OFFSET + a / 8 := by
  have h : ∀ k, a / 8 < 2^k → a >>> SHADOW_SCALE ||| 1 <<< k = 1 <<< k + a / 8 := by
    intro k hk
    rw [Nat.or_comm, SHADOW_SCALE, Nat.shiftRight_eq_div_pow]
    exact (Nat.shiftLeft_add_eq_or_of_lt hk 1).symm
  cases w with
  | w32 => exact h 29 (by simp only [WordSize.kHighMemEnd] at ha; omega)
  | w64 => exact h 44 (by simp only [WordSize.kHighMemEnd] at ha; omega)

/-- The size of the low shadow, in which every boundary is a whole number. -/
def WordSize.unit : WordSize → ℕ
  | .w32 => 2^26
  | .w64 => 2^41

section Bounds
variable (w : WordSize)

theorem unit_pos : 0 < w.unit := by cases w <;> decide
theorem SHADOW_OFFSET_eq : w.SHADOW_OFFSET = 8 * w.unit := by cases w <;> rfl
theorem kLowMemEnd_eq : w.kLowMemEnd = 8 * w.unit - 1 := by cases w <;> rfl
theorem kLowShadowEnd_eq : w.kLowShadowEnd = 9 * w.unit - 1 := by cases w <;> decide
theorem kShadowGapBeg_eq : w.kShadowGapBeg = 9 * w.unit := by cases w <;> decide
theorem kHighShadowBeg_eq : w.kHighShadowBeg = 10 * w.unit := by cases w <;> decide
theorem kHighShadowEnd_eq : w.kHighShadowEnd = 16 * w.unit - 1 := by cases w <;> decide
theorem kHighMemBeg_eq : w.kHighMemBeg = 16 * w.unit := by cases w <;> decide
theorem kHighMemEnd_eq : w.kHighMemEnd = 64 * w.unit - 1 := by cases w <;> rfl

/-- The five tests as they stand: low memory is strict at its end, and the high shadow runs on to
the end of high memory. -/
theorem test_iff (a : ℕ) (r : Region) : r.test w a = true ↔ match r with
    | .lowMem => a < 8 * w.unit - 1
    | .lowShadow => 8 * w.unit ≤ a ∧ a ≤ 9 * w.unit - 1
    | .shadowGap => 9 * w.unit ≤ a ∧ a ≤ 10 * w.unit - 1
    | .highShadow => 10 * w.unit ≤ a ∧ a ≤ 64 * w.unit - 1
    | .highMem => 16 * w.unit ≤ a ∧ a ≤ 64 * w.unit - 1 := by
  cases r <;>
    simp only [Region.test, WordSize.AddrIsInLowMem, WordSize.AddrIsInLowShadow, WordSize.AddrIsInShadowGap,
      WordSize.AddrIsInHighShadow, WordSize.AddrIsInHighMem, WordSize.kLowShadowBeg, WordSize.kShadowGapEnd,
      SHADOW_OFFSET_eq, kLowMemEnd_eq, kLowShadowEnd_eq, kShadowGapBeg_eq, kHighShadowBeg_eq,
      kHighMemBeg_eq, kHighMemEnd_eq, decide_eq_true_eq]

end Bounds

/-- Memory is mapped into the shadow of its own half. -/
theorem memToShadow_lowShadow (w : WordSize) {a : ℕ} (ha : w.AddrIsInLowMem a = true) :
    w.AddrIsInLowShadow (w.MEM_TO_SHADOW a) = true := by
  have hu := unit_pos w
  have h := (test_iff w a .lowMem).mp ha
  rw [memToShadow_eq w (by rw [kHighMemEnd_eq]; dsimp only at h; omega), SHADOW_OFFSET_eq]
  refine (test_iff w _ .lowShadow).mpr ?_
  dsimp only at h ⊢
  omega

theorem memToShadow_highShadow (w : WordSize) {a : ℕ} (ha : w.AddrIsInHighMem a = true) :
    w.AddrIsInHighShadow (w.MEM_TO_SHADOW a) = true := by
  have hu := unit_pos w
  have h := (test_iff w a .highMem).mp ha
  rw [memToShadow_eq w (by rw [kHighMemEnd_eq]; exact h.2), SHADOW_OFFSET_eq]
  refine (test_iff w _ .highShadow).mpr ?_
  dsimp only at h ⊢
  omega

/-- `DescribeAddressIfShadow` falls through to its `CHECK` where no test succeeds. -/
theorem DescribeAddressIfShadow_none_iff (w : WordSize) (a : ℕ) :
    DescribeAddressIfShadow w a = none ↔ ∀ r : Region, ¬ r.test w a = true := by
  constructor
  · intro h r
    cases r <;> intro hr <;>
      simp_all [DescribeAddressIfShadow, Region.test, WordSize.AddrIsInMem] <;> split_ifs at h
  · intro h
    have h1 := h .lowMem
    have h2 := h .lowShadow
    have h3 := h .shadowGap
    have h4 := h .highShadow
    have h5 := h .highMem
    simp only [Region.test] at h1 h2 h3 h4 h5
    simp [DescribeAddressIfShadow, WordSize.AddrIsInMem, h1, h2, h3, h4, h5]

/-- What the mapping is meant to do with an address: one region claims it, its shadow lies in the
matching shadow region, and a report can name it. -/
def Classified (w : WordSize) (a : ℕ) : Prop :=
  (∃! r : Region, r.test w a = true) ∧
  (w.AddrIsInLowMem a = true → w.AddrIsInLowShadow (w.MEM_TO_SHADOW a) = true) ∧
  (w.AddrIsInHighMem a = true → w.AddrIsInHighShadow (w.MEM_TO_SHADOW a) = true) ∧
  DescribeAddressIfShadow w a ≠ none

/-- The last byte of low memory belongs to no region and high memory belongs to two. -/
theorem classified_iff (w : WordSize) (a : ℕ) (ha : a ≤ w.kHighMemEnd) :
    Classified w a ↔ a ≠ w.kLowMemEnd ∧ a < w.kHighMemBeg := by
  have hu := unit_pos w
  rw [kHighMemEnd_eq] at ha
  rw [kLowMemEnd_eq, kHighMemBeg_eq]
  constructor
  · rintro ⟨⟨r,hr,huniq⟩,-,-,-⟩
    constructor
    · intro hlow
      have h := (test_iff w a r).mp hr
      cases r <;> dsimp only at h <;> omega
    · by_contra hhigh
      have h1 := huniq .highShadow ((test_iff w a .highShadow).mpr ⟨by omega,ha⟩)
      have h2 := huniq .highMem ((test_iff w a .highMem).mpr ⟨by omega,ha⟩)
      exact absurd (h1.trans h2.symm) (by decide)
  · rintro ⟨hlow,hhigh⟩
    have hsome : ∃ r : Region, r.test w a = true := by
      by_cases h1 : a < 8 * w.unit
      · exact ⟨.lowMem,(test_iff w a .lowMem).mpr (by dsimp only; omega)⟩
      by_cases h2 : a < 9 * w.unit
      · exact ⟨.lowShadow,(test_iff w a .lowShadow).mpr (by dsimp only; omega)⟩
      by_cases h3 : a < 10 * w.unit
      · exact ⟨.shadowGap,(test_iff w a .shadowGap).mpr (by dsimp only; omega)⟩
      · exact ⟨.highShadow,(test_iff w a .highShadow).mpr (by dsimp only; omega)⟩
    obtain ⟨r,hr⟩ := hsome
    refine ⟨⟨r,hr,?_⟩,memToShadow_lowShadow w,memToShadow_highShadow w,?_⟩
    · intro r' hr'
      have h := (test_iff w a r).mp hr
      have h' := (test_iff w a r').mp hr'
      cases r <;> cases r' <;> first | rfl | (exfalso; dsimp only at h h'; omega)
    · intro hn
      exact (DescribeAddressIfShadow_none_iff w a).mp hn r hr

theorem classified_iff_zero : Classified .w64 0 ↔ 0 ≠ WordSize.w64.kLowMemEnd ∧ 0 < WordSize.w64.kHighMemBeg :=
  classified_iff .w64 0 (by decide)

/-- The address just below the shadow offset reaches `CHECK(0)`; the first byte of high memory is
in the high shadow as well. -/
theorem not_classified_boundaries :
    DescribeAddressIfShadow .w64 (1 <<< 44 - 1) = none ∧ ¬ Classified .w64 (1 <<< 44 - 1) ∧
      ¬ Classified .w64 (1 <<< 45) ∧ ¬ Classified .w32 (1 <<< 29 - 1) ∧ ¬ Classified .w32 (1 <<< 30) := by
  have hnone : ∀ w a, DescribeAddressIfShadow w a = none → ¬ Classified w a := fun w a h hc => hc.2.2.2 h
  have htwo : ∀ w a, w.AddrIsInHighShadow a = true → w.AddrIsInHighMem a = true → ¬ Classified w a := by
    intro w a h1 h2 hc
    obtain ⟨r,-,huniq⟩ := hc.1
    exact absurd ((huniq .highShadow h1).trans (huniq .highMem h2).symm) (by decide)
  exact ⟨by decide,hnone _ _ (by decide),htwo _ _ (by decide) (by decide),hnone _ _ (by decide),
    htwo _ _ (by decide) (by decide)⟩

end CompilerRt.AsanMapping
