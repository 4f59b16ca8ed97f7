import Mathlib.Data.List.Basic
import Mathlib.Data.Nat.ModEq

/-! # A fold over the blocks of a list

A function that takes a whole block at a time is run over the whole blocks of a list. What is left after them is
shorter than a block. Whether a list comes at once or in pieces makes no difference if the rest of each piece is put
in front of the next one.
-/
namespace CompilerRt.BlockFold
variable {σ β : Type*} (n : ℕ) (f : σ → List β → σ)

/-- The first `k` blocks of `n` elements each. -/
def blocks : ℕ → σ → List β → σ
  | 0, s, _ => s
  | k + 1, s, l => blocks k (f s (l.take n)) (l.drop n)

/-- All whole blocks. -/
def whole (s : σ) (l : List β) : σ := blocks n f (l.length / n) s l

/-- What is left after the whole blocks. -/
def rest (l : List β) : List β := l.drop (l.length / n * n)

variable {n f} {s : σ} {l r : List β} {j k : ℕ}

theorem blocks_add : blocks n f (j + k) s l = blocks n f k (blocks n f j s l) (l.drop (j * n)) := by
  induction j generalizing s l with
  | zero => simp [blocks]
  | succ j ih =>
    rw [Nat.add_right_comm, blocks, blocks, ih, List.drop_drop]
    congr 2
    rw [Nat.add_mul, Nat.one_mul, Nat.add_comm]

theorem blocks_append (h : k * n ≤ l.length) : blocks n f k s (l ++ r) = blocks n f k s l := by
  induction k generalizing s l with
  | zero => rfl
  | succ k ih =>
    rw [Nat.add_mul, Nat.one_mul] at h
    rw [blocks, blocks, List.take_append_of_le_length (by omega), List.drop_append_of_le_length (by omega)]
    exact ih (by rw [List.length_drop]; omega)

@[simp] theorem length_rest (n : ℕ) (l : List β) : (rest n l).length = l.length % n := by
  rw [rest, List.length_drop, Nat.mod_eq_sub_div_mul]

theorem length_whole_le (n : ℕ) (l : List β) : l.length / n * n ≤ l.length := Nat.div_mul_le_self _ _

/-- The number of whole blocks when a list is continued. -/
theorem div_append (hn : 0 < n) (l r : List β) :
    (l ++ r).length / n = l.length / n + (rest n l ++ r).length / n := by
  rw [List.length_append, List.length_append, length_rest]
  have hsplit : l.length + r.length = l.length % n + r.length + n * (l.length / n) := by
    have hdiv := Nat.div_add_mod l.length n
    omega
  rw [hsplit, Nat.add_mul_div_left _ _ hn, Nat.add_comm]

theorem drop_whole_append (l r : List β) : (l ++ r).drop (l.length / n * n) = rest n l ++ r := by
  rw [List.drop_append_of_le_length (length_whole_le n l), rest]

/-- The rest of what came is put in front of what comes. -/
theorem whole_append (hn : 0 < n) (s : σ) (l r : List β) : whole n f s (l ++ r) = whole n f (whole n f s l) (rest n l ++ r) := by
  rw [whole, div_append hn, blocks_add, drop_whole_append, blocks_append (length_whole_le n l)]
  rfl

theorem rest_append (hn : 0 < n) (l r : List β) : rest n (l ++ r) = rest n (rest n l ++ r) := by
  rw [rest, div_append hn, Nat.add_mul, ← List.drop_drop, drop_whole_append]
  rfl

theorem whole_of_lt (h : l.length < n) : whole n f s l = s := by
  rw [whole, Nat.div_eq_of_lt h]
  rfl

theorem rest_of_lt (h : l.length < n) : rest n l = l := by
  rw [rest, Nat.div_eq_of_lt h, Nat.zero_mul, List.drop_zero]

/-- One block. -/
theorem whole_of_length_eq (hn : 0 < n) (h : l.length = n) : whole n f s l = f s l := by
  rw [whole, h, Nat.div_self hn, blocks, blocks, List.take_of_length_le h.le]

theorem rest_of_dvd (h : n ∣ l.length) : rest n l = [] := by
  rw [rest, Nat.div_mul_cancel h, List.drop_length]

end CompilerRt.BlockFold
