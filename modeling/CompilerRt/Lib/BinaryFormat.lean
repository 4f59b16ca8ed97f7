import Mathlib.Data.Rat.Cast.Order
import Mathlib.Algebra.Order.Field.Power
import Mathlib.Algebra.Order.Field.Rat
import Mathlib.Order.WithBot
import Mathlib.Tactic.Ring
import Mathlib.Tactic.Positivity

/-! # Binary floating-point formats

The bits of a number below its sign, read as an integer, are an exponent field over a field of fraction bits. They
number the magnitudes of the format in order; infinity comes next after the largest finite one.
-/
namespace CompilerRt

structure BinaryFormat where
  fracBits : ℕ
  expBits : ℕ

namespace BinaryFormat
variable (F : BinaryFormat)

def expo (a : ℕ) : ℕ := a / 2 ^ F.fracBits

def frac (a : ℕ) : ℕ := a % 2 ^ F.fracBits

/-- The magnitude, in units of the smallest denormal number. -/
def mag (a : ℕ) : ℕ := if F.expo a = 0 then F.frac a else (F.frac a + 2 ^ F.fracBits) * 2 ^ (F.expo a - 1)

/-- The distance to the next magnitude. -/
def ulp (a : ℕ) : ℕ := 2 ^ (F.expo a - 1)

/-- Infinity; what is above it is not a number. -/
def inf : ℕ := (2 ^ F.expBits - 1) * 2 ^ F.fracBits

/-- The exponent of the smallest denormal number. -/
def emin : ℤ := 2 - 2 ^ (F.expBits - 1) - F.fracBits

/-- The bits below the sign, and the sign. -/
def abs (x : ℕ) : ℕ := x % 2 ^ (F.fracBits + F.expBits)

def sign (x : ℕ) : Bool := x.testBit (F.fracBits + F.expBits)

def IsNaN (x : ℕ) : Prop := F.inf < F.abs x

instance (x : ℕ) : Decidable (F.IsNaN x) := inferInstanceAs (Decidable (_ < _))

/-- The rational number that is denoted. -/
def toRat (s : Bool) (a : ℕ) : ℚ := (if s then -1 else 1) * (F.mag a * 2 ^ F.emin)

/-- The value of what is a number, infinities included. -/
def value (x : ℕ) : WithBot (WithTop ℚ) :=
  if F.abs x < F.inf then ((F.toRat (F.sign x) (F.abs x) : ℚ) : WithTop ℚ)
  else if F.sign x then ⊥ else ((⊤ : WithTop ℚ) : WithBot (WithTop ℚ))

def binary32 : BinaryFormat := ⟨23,8⟩

def binary64 : BinaryFormat := ⟨52,11⟩

/-! ## Magnitudes -/

/-- The first bit of a number that is not zero is shifted to the place of `2 ^ p`. -/
theorem normalized_bounds {n l p : ℕ} (hl : l ≤ p) (hlo : 2 ^ l ≤ n) (hhi : n < 2 ^ (l + 1)) :
    2 ^ p ≤ n * 2 ^ (p - l) ∧ n * 2 ^ (p - l) < 2 ^ (p + 1) := by
  have hpow : 2 ^ l * 2 ^ (p - l) = 2 ^ p := by rw [← pow_add, Nat.add_sub_cancel' hl]
  constructor
  · exact hpow ▸ Nat.mul_le_mul_right _ hlo
  · calc n * 2 ^ (p - l) < 2 ^ (l + 1) * 2 ^ (p - l) := Nat.mul_lt_mul_of_pos_right hhi (Nat.two_pow_pos _)
      _ = 2 ^ l * 2 ^ (p - l) * 2 := by ring
      _ = 2 ^ (p + 1) := by rw [hpow, pow_succ]

variable {F} {a b e f : ℕ}

theorem frac_lt (F : BinaryFormat) (a : ℕ) : F.frac a < 2 ^ F.fracBits := Nat.mod_lt a (Nat.two_pow_pos _)

theorem expo_frac (F : BinaryFormat) (a : ℕ) : F.expo a * 2 ^ F.fracBits + F.frac a = a := Nat.div_add_mod' a _

theorem expo_of_fields (hf : f < 2 ^ F.fracBits) : F.expo (e * 2 ^ F.fracBits + f) = e := by
  rw [expo, Nat.mul_comm, Nat.mul_add_div (Nat.two_pow_pos _), Nat.div_eq_of_lt hf, Nat.add_zero]

theorem frac_of_fields (hf : f < 2 ^ F.fracBits) : F.frac (e * 2 ^ F.fracBits + f) = f := by
  rw [frac, Nat.mul_comm, Nat.mul_add_mod, Nat.mod_eq_of_lt hf]

theorem mag_denormal (ha : a < 2 ^ F.fracBits) : F.mag a = a := by
  rw [mag, expo, frac, Nat.div_eq_of_lt ha, if_pos rfl, Nat.mod_eq_of_lt ha]

theorem mag_of_fields (he : 0 < e) (hf : f < 2 ^ F.fracBits) :
    F.mag (e * 2 ^ F.fracBits + f) = (f + 2 ^ F.fracBits) * 2 ^ (e - 1) := by
  rw [mag, expo_of_fields hf, frac_of_fields hf, if_neg he.ne']

theorem binary32_fields {e f : ℕ} (he : 0 < e) (hf : f < 2 ^ 23) :
    binary32.mag (e * 2 ^ 23 + f) = (f + 2 ^ 23) * 2 ^ (e - 1) := mag_of_fields (F := binary32) he hf

theorem binary64_fields {e f : ℕ} (he : 0 < e) (hf : f < 2 ^ 52) :
    binary64.mag (e * 2 ^ 52 + f) = (f + 2 ^ 52) * 2 ^ (e - 1) := mag_of_fields (F := binary64) he hf

theorem mag_succ (F : BinaryFormat) (a : ℕ) : F.mag (a + 1) = F.mag a + F.ulp a := by
  have hlt := F.frac_lt a
  have hsplit := F.expo_frac a
  obtain ⟨e,he⟩ : ∃ e, e = F.expo a := ⟨_,rfl⟩
  obtain ⟨f,hf⟩ : ∃ f, f = F.frac a := ⟨_,rfl⟩
  rw [← he, ← hf] at hsplit
  rw [← hf] at hlt
  rw [ulp, mag, mag, ← he, ← hf]
  rcases Nat.lt_or_ge (f + 1) (2 ^ F.fracBits) with hnext | hlast
  · -- the fraction goes up by one
    have hsum : a + 1 = e * 2 ^ F.fracBits + (f + 1) := by omega
    rw [hsum, expo_of_fields hnext, frac_of_fields hnext]
    split_ifs with h0
    · simp [h0]
    · ring
  · -- the next exponent starts
    have hfull : f + 1 = 2 ^ F.fracBits := by omega
    have hsum : a + 1 = (e + 1) * 2 ^ F.fracBits + 0 := by
      rw [Nat.add_mul]
      omega
    rw [hsum, expo_of_fields (Nat.two_pow_pos _), frac_of_fields (Nat.two_pow_pos _), if_neg (Nat.succ_ne_zero e)]
    split_ifs with h0
    · simp [h0]
      omega
    · obtain ⟨e,rfl⟩ := Nat.exists_eq_succ_of_ne_zero h0
      rw [← hfull]
      simp only [Nat.succ_eq_add_one, Nat.add_sub_cancel, pow_succ]
      ring

theorem ulp_pos (F : BinaryFormat) (a : ℕ) : 0 < F.ulp a := Nat.two_pow_pos _

theorem mag_strictMono (F : BinaryFormat) : StrictMono F.mag :=
  strictMono_nat_of_lt_succ fun a => by
    rw [mag_succ]
    exact Nat.lt_add_of_pos_right (F.ulp_pos a)

end BinaryFormat
end CompilerRt
