import Mathlib.Data.Nat.Digits.Lemmas
import Mathlib.Data.BitVec
import Mathlib.Tactic.Ring

/-! # A memory of bytes

Numbers are loaded and stored with their lowest byte first. A store changes only its own bytes, and a load depends
only on its own bytes.
-/
namespace CompilerRt

abbrev FlatMemory := ℕ → BitVec 8

namespace FlatMemory

def load (mem : FlatMemory) (a : ℕ) : ℕ → ℕ
  | 0 => 0
  | n + 1 => (mem a).toNat + 256 * load mem (a + 1) n

def store (mem : FlatMemory) (a n v : ℕ) : FlatMemory :=
  fun b => if a ≤ b ∧ b < a + n then BitVec.ofNat 8 (v / 256^(b - a)) else mem b

/-- The same byte from `a` on. -/
def fill (mem : FlatMemory) (a n : ℕ) (value : BitVec 8) : FlatMemory :=
  fun b => if a ≤ b ∧ b < a + n then value else mem b

variable {mem mem' : FlatMemory} {a b n k v : ℕ} {value : BitVec 8}

theorem store_outside (h : b < a ∨ a + n ≤ b) : mem.store a n v b = mem b := if_neg (by omega)

theorem fill_outside (h : b < a ∨ a + n ≤ b) : mem.fill a n value b = mem b := if_neg (by omega)

theorem load_lt (mem : FlatMemory) (a n : ℕ) : mem.load a n < 256^n := by
  induction n generalizing a with
  | zero => exact Nat.one_pos
  | succ n ih =>
    have hbyte := (mem a).isLt
    have hrest := ih (a + 1)
    rw [load, Nat.pow_succ]
    omega

theorem load_congr (h : ∀ b, a ≤ b → b < a + n → mem' b = mem b) : mem'.load a n = mem.load a n := by
  induction n generalizing a with
  | zero => rfl
  | succ n ih =>
    rw [load, load, h a le_rfl (by omega), ih fun b hb hlt => h b (by omega) (by omega)]

/-- What was stored is loaded again. -/
theorem load_store (mem : FlatMemory) (a n v : ℕ) : (mem.store a n v).load a n = v % 256^n := by
  have hbytes : ∀ k i, k + i = n → (mem.store a n v).load (a + i) k = v / 256^i % 256^k := by
    intro k
    induction k with
    | zero => simp [load, Nat.mod_one]
    | succ k ih =>
      intro i hi
      have hfirst : mem.store a n v (a + i) = BitVec.ofNat 8 (v / 256^i) := by
        rw [store, if_pos (by omega), Nat.add_sub_cancel_left]
      have hsplit : v / 256^i % 256^(k + 1) = v / 256^i % 256 + 256 * (v / 256^(i + 1) % 256^k) := by
        rw [Nat.pow_succ' (n := k), Nat.mod_mul, Nat.div_div_eq_div_mul, ← Nat.pow_succ]
      rw [load, hfirst, Nat.add_assoc, ih (i + 1) (by omega), BitVec.toNat_ofNat, hsplit]
  simpa using hbytes n 0 rfl

theorem load_store_of_lt (h : v < 256^n) : (mem.store a n v).load a n = v := by
  rw [load_store, Nat.mod_eq_of_lt h]

/-- A load does not see the store of other bytes. -/
theorem load_store_apart (h : a + n ≤ b ∨ b + k ≤ a) : (mem.store a n v).load b k = mem.load b k :=
  load_congr fun _ _ _ => store_outside (by omega)

theorem load_zero (h : ∀ b, a ≤ b → b < a + n → mem b = 0) : mem.load a n = 0 := by
  induction n generalizing a with
  | zero => rfl
  | succ n ih =>
    rw [load, h a le_rfl (by omega), ih fun b hb hlt => h b (by omega) (by omega)]
    rfl

end FlatMemory
end CompilerRt
