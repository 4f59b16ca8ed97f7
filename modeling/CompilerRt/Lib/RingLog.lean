import Mathlib.Data.Nat.Basic
import Mathlib.Logic.Function.Basic

/-! # Logs kept in a ring

A log grows without end, and its entry number `k` is written to slot `k % size`. The slots then hold the
latest entries, as many as there are slots.
-/
namespace CompilerRt.RingLog
variable {α : Type*}

/-- The slots hold the latest entries of the log, up to entry `c`. -/
def Holds (size : ℕ) (slots log : ℕ → α) (c : ℕ) : Prop := ∀ k ≤ c, c < k + size → slots (k % size) = log k

variable {size c k : ℕ} {slots log log' : ℕ → α}

/-- Entries that are not too far apart have slots of their own. -/
theorem slot_ne (hk : k < c) (hc : c < k + size) : k % size ≠ c % size := by
  intro heq
  have hmod : (c - k) % size = 0 := Nat.sub_mod_eq_zero_of_mod_eq heq.symm
  rw [Nat.mod_eq_of_lt (by omega)] at hmod
  omega

/-- The next entry takes the slot of the oldest one. -/
theorem Holds.write (h : Holds size slots log c) (hlog : ∀ k ≤ c, log' k = log k) :
    Holds size (Function.update slots ((c + 1) % size) (log' (c + 1))) log' (c + 1) := by
  intro k hk hlt
  rcases Nat.lt_or_eq_of_le hk with hk | rfl
  · rw [Function.update_of_ne (slot_ne hk hlt), hlog k (by omega)]
    exact h k (by omega) (by omega)
  · rw [Function.update_self]

/-- Where all entries so far are the same, the slots only have to hold that one. -/
theorem holds_const {a : α} (hlog : ∀ k ≤ c, log k = a) : Holds size (fun _ => a) log c := by
  intro k hk _
  exact (hlog k hk).symm

end CompilerRt.RingLog
