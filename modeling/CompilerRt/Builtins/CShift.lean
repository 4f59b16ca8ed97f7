import Mathlib.Data.BitVec

/-! # C shifts

C defines `x << n` and `x >> n` only for amounts from zero to the width of `x`. Code that is
translated here evaluates its shifts in `Option`, against a target that says what an amount out of
range does; on the strict target such a shift has no value.
-/
namespace CompilerRt.CShift

/-- What the target makes of a shift whose amount is out of range. -/
structure ShiftTarget where
  outOfRange : {w : ℕ} → BitVec w → ℤ → Option (BitVec w)

/-- C itself promises nothing. -/
def ShiftTarget.strict : ShiftTarget where
  outOfRange _ _ := none

variable {w : ℕ} (t : ShiftTarget)

def InRange (w : ℕ) (n : ℤ) : Prop := 0 ≤ n ∧ n < w

instance (w : ℕ) (n : ℤ) : Decidable (InRange w n) := inferInstanceAs (Decidable (_ ∧ _))

def shl (x : BitVec w) (n : ℤ) : Option (BitVec w) :=
  if InRange w n then some (x <<< n.toNat) else t.outOfRange x n

def shr (x : BitVec w) (n : ℤ) : Option (BitVec w) :=
  if InRange w n then some (x >>> n.toNat) else t.outOfRange x n

theorem shl_of_inRange (x : BitVec w) {n : ℤ} (h : InRange w n) : shl t x n = some (x <<< n.toNat) := if_pos h

theorem shr_of_inRange (x : BitVec w) {n : ℤ} (h : InRange w n) : shr t x n = some (x >>> n.toNat) := if_pos h

theorem shl_natCast (x : BitVec w) {n : ℕ} (h : n < w) : shl t x n = some (x <<< n) :=
  shl_of_inRange t x ⟨by omega,by omega⟩

theorem shr_natCast (x : BitVec w) {n : ℕ} (h : n < w) : shr t x n = some (x >>> n) :=
  shr_of_inRange t x ⟨by omega,by omega⟩

@[simp] theorem shl_strict_isSome (x : BitVec w) (n : ℤ) : (shl .strict x n).isSome = true ↔ InRange w n := by
  unfold shl
  split <;> simp_all [ShiftTarget.strict]

@[simp] theorem shr_strict_isSome (x : BitVec w) (n : ℤ) : (shr .strict x n).isSome = true ↔ InRange w n := by
  unfold shr
  split <;> simp_all [ShiftTarget.strict]

/-! ## Code whose shifts are all in range -/

theorem isSome_bind_iff {α β : Type} {x : Option α} {f : α → Option β} :
    (x >>= f).isSome = true ↔ ∃ a, x = some a ∧ (f a).isSome = true := by
  cases x <;> simp

theorem isSome_bind {α β : Type} {x : Option α} {f : α → Option β} (hx : x.isSome = true)
    (hf : ∀ a, (f a).isSome = true) : (x >>= f).isSome = true := by
  obtain ⟨a,ha⟩ := Option.isSome_iff_exists.mp hx
  exact isSome_bind_iff.mpr ⟨a,ha,hf a⟩

theorem exists_bind {α β : Type} {x : Option α} {f : α → Option β} {P : β → Prop} (hx : x.isSome = true)
    (hf : ∀ a, ∃ b, f a = some b ∧ P b) : ∃ b, (x >>= f) = some b ∧ P b := by
  obtain ⟨a,rfl⟩ := Option.isSome_iff_exists.mp hx
  exact hf a

theorem shl_isSome (t : ShiftTarget) {w n : ℕ} {x : BitVec w} (h : n < w) : (shl t x (n : ℤ)).isSome = true := by
  rw [shl_natCast t x h]
  rfl

theorem shr_isSome (t : ShiftTarget) {w n : ℕ} {x : BitVec w} (h : n < w) : (shr t x (n : ℤ)).isSome = true := by
  rw [shr_natCast t x h]
  rfl

end CompilerRt.CShift
